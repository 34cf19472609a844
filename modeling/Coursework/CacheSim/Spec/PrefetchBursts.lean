import Coursework.CacheSim.Spec.PrefetcherBits

/-!
# The stride of a prefetch burst

`cpuRequest` computes the first address of a burst and `completeRequest` the others. Both look
the stride up in the reference prediction table, but not for the same pc: `completeRequest`
takes that of `_nextReq`, which no method sets. So a burst follows the stride of its trigger
exactly when the row of that pc happens to give the same one.
-/

namespace CacheSim

open BitArray

namespace RptPrefetcher

variable {p q : RptPrefetcher} {req : Request}

/-- The stride of the row when the row of `pc` holds it and is confident, else
    `L2_BLOCK_SIZE`. -/
def rowStride (p : RptPrefetcher) (pc : BitVec 32) : BitVec 32 :=
  if p.usesRpt pc then (p.rptTable (rptRowNum pc)).lastStride else l2BlockSize

theorem nextAddr_eq (p : RptPrefetcher) (pc addr : BitVec 32) :
    p.nextAddr pc addr = addr + p.rowStride pc := by
  unfold nextAddr rowStride
  split <;> rfl

theorem rowStride_congr (htable : q.rptTable = p.rptTable) (hcheck : q.rptCheck = p.rptCheck)
    (pc : BitVec 32) : q.rowStride pc = p.rowStride pc := by
  unfold rowStride usesRpt
  rw [htable, hcheck]

/-! ## The requests of a burst -/

/-- The addresses that `getRequest` returns, each followed by `completeRequest`, as long as
    `hasRequest` is true, and the prefetcher after them. -/
def requests (p : RptPrefetcher) : List (BitVec 32) → List (BitVec 32) × RptPrefetcher
  | [] => ([], p)
  | cycle :: cycles =>
    if (p.hasRequest cycle).1 then
      let rest := (p.completeRequest cycle).requests cycles
      ((p.getRequest cycle).1.addr :: rest.1, rest.2)
    else ([], p)

/-- Addresses one stride apart, from the first one. -/
def apart (addr stride : BitVec 32) : Nat → List (BitVec 32)
  | 0 => []
  | count + 1 => addr :: apart (addr + stride) stride count

theorem requests_idle (h : p.ready = false) (cycles : List (BitVec 32)) :
    p.requests cycles = ([], p) := by
  cases cycles with
  | nil => rfl
  | cons cycle cycles => simp [requests, hasRequest, h]

theorem requests_ready (h : p.ready = true) (cycle : BitVec 32) (cycles : List (BitVec 32)) :
    p.requests (cycle :: cycles) =
      (p.nextReq.addr :: ((p.completeRequest cycle).requests cycles).1,
        ((p.completeRequest cycle).requests cycles).2) := by
  simp [requests, hasRequest, getRequest, h]

theorem completeRequest_last (h : p.reqLeft = 0) (cycle : BitVec 32) :
    p.completeRequest cycle = { p with ready := false } := if_pos h

theorem completeRequest_next (h : p.reqLeft ≠ 0) (cycle : BitVec 32) :
    (p.completeRequest cycle).ready = p.ready ∧
      (p.completeRequest cycle).reqLeft = p.reqLeft - 1 ∧
      (p.completeRequest cycle).nextReq =
        { p.nextReq with addr := p.nextReq.addr + p.rowStride p.nextReq.pc } ∧
      ∀ pc, (p.completeRequest cycle).rowStride pc = p.rowStride pc := by
  have hnext : p.completeRequest cycle = { p with
      reqLeft := p.reqLeft - 1
      nextReq := { p.nextReq with addr := p.nextReq.addr + p.rowStride p.nextReq.pc }
      tags := markBit (p.nextReq.addr + p.rowStride p.nextReq.pc) p.tags stateSize } := by
    unfold completeRequest
    rw [if_neg h, nextAddr_eq]
  rw [hnext]
  exact ⟨rfl, rfl, rfl, rowStride_congr rfl rfl⟩

/-- A burst keeps the stride that the row of its pc gives, as `completeRequest` changes neither
    the pc nor the table. -/
theorem requests_eq {count : Nat} (hready : p.ready = true) (hleft : p.reqLeft = count)
    (cycles : List (BitVec 32)) :
    (p.requests cycles).1 =
        (apart p.nextReq.addr (p.rowStride p.nextReq.pc) (count + 1)).take cycles.length ∧
      (count < cycles.length → (p.requests cycles).2.ready = false) := by
  induction count generalizing p cycles with
  | zero =>
    cases cycles with
    | nil => exact ⟨rfl, fun h => absurd h (Nat.not_lt_zero 0)⟩
    | cons cycle cycles =>
      rw [requests_ready hready, completeRequest_last hleft, requests_idle rfl]
      exact ⟨by simp [apart], fun _ => rfl⟩
  | succ count ih =>
    cases cycles with
    | nil => exact ⟨rfl, fun h => absurd h (Nat.not_lt_zero _)⟩
    | cons cycle cycles =>
      have hne : p.reqLeft ≠ 0 := by omega
      obtain ⟨hready', hleft', hreq, hstride⟩ := completeRequest_next hne cycle
      have hcount : (p.completeRequest cycle).reqLeft = count := by omega
      have hrest := ih (hready'.trans hready) hcount cycles
      rw [hreq, hstride] at hrest
      rw [requests_ready hready, apart, List.length_cons, List.take_succ_cons, hrest.1]
      exact ⟨rfl, fun h => hrest.2 (Nat.lt_of_succ_lt_succ h)⟩

/-! ## The trigger -/

/-- A miss, or a hit on a tagged address while idle. -/
def Triggers (p : RptPrefetcher) (req : Request) : Bool :=
  !req.hitL1 || (checkBit req.addr p.tags stateSize && !p.ready)

/-- The stride that the trigger uses. A miss makes the row confident if it repeats the stride. -/
def triggerStride (p : RptPrefetcher) (req : Request) : BitVec 32 :=
  if (if req.hitL1 then p.usesRpt req.pc else p.repeatsStride req) then
    (p.rptTable (rptRowNum req.pc)).lastStride
  else l2BlockSize

theorem miss_nextReq (p : RptPrefetcher) (req : Request) :
    (p.miss req).nextReq = { p.nextReq with
      addr := req.addr + if p.repeatsStride req then (p.rptTable (rptRowNum req.pc)).lastStride
        else l2BlockSize } := by
  unfold repeatsStride
  cases hpc : (p.rptTable (rptRowNum req.pc)).pc == req.pc with
  | false => simp [miss, hpc]
  | true =>
    cases hsame : p.sameStride req with
    | false => simp [miss, hpc, hsame]
    | true =>
      -- the stride of the miss is that of the row
      have hstride : p.currStride req = (p.rptTable (rptRowNum req.pc)).lastStride := by
        unfold sameStride at hsame
        rw [Bool.and_eq_true] at hsame
        exact eq_of_beq hsame.1
      simp [miss, hpc, hsame, hstride]

/-- A trigger computes the first address and leaves two more to `completeRequest`. -/
theorem cpuRequest_triggers (h : p.Triggers req = true) :
    (p.cpuRequest req).ready = true ∧ (p.cpuRequest req).reqLeft = 2 ∧
      (p.cpuRequest req).nextReq =
        { p.nextReq with addr := req.addr + p.triggerStride req } := by
  unfold Triggers at h
  cases hhit : req.hitL1 with
  | false =>
    have hcpu : p.cpuRequest req =
        { p.miss req with tags := unmarkBit req.addr (p.miss req).tags stateSize } := by
      simp [cpuRequest, hhit]
    rw [hcpu]
    refine ⟨rfl, rfl, ?_⟩
    show (p.miss req).nextReq = _
    rw [miss_nextReq, triggerStride, hhit]
    rfl
  | true =>
    rw [hhit] at h
    have hcpu : p.cpuRequest req =
        { p.tagHit req with tags := unmarkBit req.addr (p.tagHit req).tags stateSize } := by
      have htag : (checkBit req.addr p.tags stateSize && !p.ready) = true := h
      simp only [cpuRequest, hhit, Bool.true_and, htag, if_true]
    rw [hcpu]
    refine ⟨rfl, rfl, ?_⟩
    show { p.nextReq with addr := p.nextAddr req.pc req.addr } = _
    rw [nextAddr_eq, triggerStride, hhit]
    rfl

/-! ## The other addresses -/

/-- The row of `pc` holds it after the request. -/
def holdsAfter (p : RptPrefetcher) (req : Request) (pc : BitVec 32) : Bool :=
  if !req.hitL1 && rptRowNum pc == rptRowNum req.pc then req.pc == pc
  else (p.rptTable (rptRowNum pc)).pc == pc

/-- The row reads as confident after the request. -/
def confidentAfter (p : RptPrefetcher) (req : Request) (row : Nat) : Bool :=
  if !req.hitL1 && sharesBit row (rptRowNum req.pc) then p.repeatsStride req && !onSignBit row
  else p.confident row

/-- The stride that the row of `pc` gives after the request, from the state before it. -/
def strideAfter (p : RptPrefetcher) (req : Request) (pc : BitVec 32) : BitVec 32 :=
  if p.holdsAfter req pc && p.confidentAfter req (rptRowNum pc) then
    (p.rptTable (rptRowNum pc)).lastStride
  else l2BlockSize

/-- Only a miss changes the table. -/
theorem cpuRequest_rptTable (p : RptPrefetcher) (req : Request) :
    (p.cpuRequest req).rptTable = if req.hitL1 then p.rptTable else (p.miss req).rptTable := by
  cases hhit : req.hitL1 with
  | false => simp [cpuRequest, hhit]
  | true =>
    cases htag : checkBit req.addr p.tags stateSize && !p.ready <;>
      simp [cpuRequest, hhit, htag, tagHit]

theorem miss_rptTable (p : RptPrefetcher) (req : Request) (row : Nat) :
    (p.miss req).rptTable row =
      if row = rptRowNum req.pc then
        { pc := req.pc
          lastMem := req.addr
          lastStride :=
            if p.repeatsStride req then (p.rptTable row).lastStride
            else if (p.rptTable row).pc == req.pc then p.currStride req else 0 }
      else p.rptTable row := by
  by_cases hrow : row = rptRowNum req.pc
  · subst hrow
    rw [if_pos rfl, repeatsStride]
    cases hpc : (p.rptTable (rptRowNum req.pc)).pc == req.pc with
    | false => simp [miss, hpc]
    | true => cases hsame : p.sameStride req <;> simp [miss, hpc, hsame]
  · rw [if_neg hrow]
    cases hpc : (p.rptTable (rptRowNum req.pc)).pc == req.pc with
    | false => simp [miss, hpc, hrow]
    | true => cases hsame : p.sameStride req <;> simp [miss, hpc, hsame, hrow]

theorem holdsAfter_eq (p : RptPrefetcher) (req : Request) (pc : BitVec 32) :
    (((p.cpuRequest req).rptTable (rptRowNum pc)).pc == pc) = p.holdsAfter req pc := by
  rw [cpuRequest_rptTable, holdsAfter]
  cases hhit : req.hitL1 with
  | true => rfl
  | false =>
    rw [if_neg Bool.false_ne_true, miss_rptTable]
    by_cases hrow : rptRowNum pc = rptRowNum req.pc <;> simp [hrow]

/-- A miss gives its outcome to the rows that share the bit of its own row. -/
theorem Tracks.confidentAfter {ms : List (Nat × Bool)} (h : Tracks p ms) (req : Request)
    {row : Nat} (hrow : row < numRptEntries) :
    (p.cpuRequest req).confident row = p.confidentAfter req row := by
  have hafter := (h.call (.cpuRequest req)).confident hrow
  have hcall : p.call (.cpuRequest req) = p.cpuRequest req := rfl
  rw [hcall] at hafter
  rw [hafter, RptPrefetcher.confidentAfter, h.confident hrow]
  cases hhit : req.hitL1 with
  | true => simp [missOf, hhit]
  | false =>
    cases hshares : sharesBit row (rptRowNum req.pc) <;> simp [missOf, hhit, hshares]

/-- A row that is used after the request has the stride that it had before. -/
theorem lastStride_after {pc : BitVec 32} (hconf : p.confidentAfter req (rptRowNum pc) = true) :
    ((p.cpuRequest req).rptTable (rptRowNum pc)).lastStride =
      (p.rptTable (rptRowNum pc)).lastStride := by
  rw [cpuRequest_rptTable]
  cases hhit : req.hitL1 with
  | true => rfl
  | false =>
    rw [if_neg Bool.false_ne_true, miss_rptTable]
    by_cases hrow : rptRowNum pc = rptRowNum req.pc
    · -- the row is the one of the miss, which has repeated the stride
      have hshares : sharesBit (rptRowNum pc) (rptRowNum req.pc) = true := by
        rw [hrow, sharesBit, beq_self_eq_true]
      have hrepeats : p.repeatsStride req = true := by
        simp only [RptPrefetcher.confidentAfter, hhit, hshares, Bool.not_false, Bool.and_self,
          if_true, Bool.and_eq_true] at hconf
        exact hconf.1
      simp only [if_pos hrow, hrepeats, if_true]
    · rw [if_neg hrow]

theorem Tracks.strideAfter {ms : List (Nat × Bool)} (h : Tracks p ms) (req : Request)
    (pc : BitVec 32) : (p.cpuRequest req).rowStride pc = p.strideAfter req pc := by
  have hconf := h.confidentAfter req (rptRowNum_lt pc)
  have huses : (p.cpuRequest req).usesRpt pc =
      (p.holdsAfter req pc && p.confidentAfter req (rptRowNum pc)) := by
    rw [← holdsAfter_eq, ← hconf]
    rfl
  rw [rowStride, RptPrefetcher.strideAfter, huses]
  split
  · rename_i hboth
    rw [Bool.and_eq_true] at hboth
    exact lastStride_after hboth.2
  · rfl

/-- The stride of a trigger is the one that its row gives after it. A miss in a row that always
    reads as weak can use a stride that the row does not give. -/
theorem triggerStride_eq (h : req.hitL1 = true ∨ onSignBit (rptRowNum req.pc) = false) :
    p.triggerStride req = p.strideAfter req req.pc := by
  unfold triggerStride strideAfter holdsAfter confidentAfter
  cases hhit : req.hitL1 with
  | true => rfl
  | false =>
    have hsign : onSignBit (rptRowNum req.pc) = false := by simpa [hhit] using h
    have hshares : sharesBit (rptRowNum req.pc) (rptRowNum req.pc) = true := by
      rw [sharesBit, beq_self_eq_true]
    simp [hshares, hsign]

/-! ## Runs -/

/-- No method sets the pc of `_nextReq`. -/
theorem call_nextReq_pc (p : RptPrefetcher) (c : Call) : (p.call c).nextReq.pc = p.nextReq.pc := by
  cases c with
  | completeRequest cycle =>
    show (p.completeRequest cycle).nextReq.pc = _
    unfold completeRequest
    split <;> rfl
  | cpuRequest req =>
    show (p.cpuRequest req).nextReq.pc = _
    by_cases htrigger : p.Triggers req = true
    · rw [(cpuRequest_triggers htrigger).2.2]
    · have hhit : req.hitL1 = true := by
        cases hhit : req.hitL1 with
        | true => rfl
        | false => simp [Triggers, hhit] at htrigger
      have htag : (checkBit req.addr p.tags stateSize && !p.ready) = false := by
        simpa [Triggers, hhit] using htrigger
      simp [cpuRequest, hhit, htag]

theorem run_nextReq_pc (p : RptPrefetcher) (calls : List Call) :
    (p.run calls).nextReq.pc = p.nextReq.pc := by
  induction calls generalizing p with
  | nil => rfl
  | cons c calls ih => exact (ih (p.call c)).trans (call_nextReq_pc p c)

/-- The burst follows stride `d` from `addr`: as long as `getRequest` and `completeRequest` are
    called in turn, the addresses are `addr + d`, `addr + 2d` and `addr + 3d`, and then there is
    no request. -/
def FollowsStride (p : RptPrefetcher) (addr d : BitVec 32) : Prop :=
  ∀ cycles : List (BitVec 32),
    (p.requests cycles).1 = [addr + d, addr + 2 * d, addr + 3 * d].take cycles.length ∧
      (3 ≤ cycles.length → ∀ cycle, ((p.requests cycles).2.hasRequest cycle).1 = false)

/-- After a trigger, the burst follows the stride of the trigger exactly when `completeRequest`
    finds the same one. -/
theorem followsStride_iff (htrigger : p.Triggers req = true) :
    (p.cpuRequest req).FollowsStride req.addr (p.triggerStride req) ↔
      (p.cpuRequest req).rowStride p.nextReq.pc = p.triggerStride req := by
  obtain ⟨hready, hleft, hreq⟩ := cpuRequest_triggers htrigger
  have hcount : (p.cpuRequest req).reqLeft = (2 : Nat) := hleft
  have hrequests := requests_eq hready hcount
  rw [hreq] at hrequests
  simp only [apart] at hrequests
  constructor
  · intro hfollows
    -- the second of three addresses tells the strides apart
    have hthree := (hfollows [0, 0, 0]).1
    rw [(hrequests [0, 0, 0]).1] at hthree
    simp only [List.length_cons, List.length_nil, List.take_succ_cons, List.take_zero,
      List.cons.injEq] at hthree
    have hsecond := hthree.2.1
    grind
  · intro hsame cycles
    obtain ⟨haddrs, hidle⟩ := hrequests cycles
    refine ⟨?_, fun h cycle => hidle h⟩
    rw [haddrs, hsame]
    have htwo : req.addr + p.triggerStride req + p.triggerStride req =
        req.addr + 2 * p.triggerStride req := by grind
    have hthree : req.addr + 2 * p.triggerStride req + p.triggerStride req =
        req.addr + 3 * p.triggerStride req := by grind
    rw [htwo, hthree]

/-- In every run, a burst follows the stride of its trigger exactly when the row of the pc that
    `_nextReq` had in the beginning gives this stride after the trigger. -/
theorem run_followsStride_iff (nextReq : Request) (reqLeft : Int) (calls : List Call)
    (htrigger : ((new nextReq reqLeft).run calls).Triggers req = true) :
    (((new nextReq reqLeft).run calls).cpuRequest req).FollowsStride req.addr
        (((new nextReq reqLeft).run calls).triggerStride req) ↔
      ((new nextReq reqLeft).run calls).strideAfter req nextReq.pc =
        ((new nextReq reqLeft).run calls).triggerStride req := by
  have hpc : ((new nextReq reqLeft).run calls).nextReq.pc = nextReq.pc :=
    run_nextReq_pc (new nextReq reqLeft) calls
  rw [followsStride_iff htrigger, hpc, (Tracks.run nextReq reqLeft calls).strideAfter]

/-- The third miss of the load at pc 4, which repeats the stride of 256 bytes. -/
def thirdMiss : Request := ⟨0x1200, 4, true, true, 0, false, false⟩

/-- If the pc of `_nextReq` happens to be that of the load, the burst follows the stride. -/
theorem run_followsStride_iff_samePc :
    ((new { Entry.zero.request with pc := 4 } 0).run ((strided 4).take 2)).Triggers thirdMiss =
        true ∧
      (((new { Entry.zero.request with pc := 4 } 0).run ((strided 4).take 2)).cpuRequest
        thirdMiss).FollowsStride 0x1200
          (((new { Entry.zero.request with pc := 4 } 0).run ((strided 4).take 2)).triggerStride
            thirdMiss) := by
  have htrigger : ((new { Entry.zero.request with pc := 4 } 0).run ((strided 4).take 2)).Triggers
      thirdMiss = true := rfl
  exact ⟨htrigger, (run_followsStride_iff _ 0 ((strided 4).take 2) htrigger).mpr
    (by decide +kernel)⟩

/-- If it is 0, the burst is at 0x1300, 0x1320 and 0x1340. -/
theorem not_followsStride_strided :
    ((new Entry.zero.request 0).run ((strided 4).take 2)).Triggers thirdMiss = true ∧
      ((new Entry.zero.request 0).run ((strided 4).take 2)).triggerStride thirdMiss = 0x100 ∧
      ((((new Entry.zero.request 0).run ((strided 4).take 2)).cpuRequest thirdMiss).requests
        [1, 2, 3, 4]).1 = [0x1300, 0x1320, 0x1340] ∧
      ¬ (((new Entry.zero.request 0).run ((strided 4).take 2)).cpuRequest
        thirdMiss).FollowsStride 0x1200 0x100 := by
  have hrequests : ((((new Entry.zero.request 0).run ((strided 4).take 2)).cpuRequest
      thirdMiss).requests [1, 2, 3, 4]).1 = [0x1300, 0x1320, 0x1340] := by decide +kernel
  refine ⟨rfl, by decide +kernel, hrequests, fun h => ?_⟩
  have haddrs := (h [1, 2, 3, 4]).1
  rw [hrequests] at haddrs
  exact absurd haddrs (by decide)

end RptPrefetcher

end CacheSim
