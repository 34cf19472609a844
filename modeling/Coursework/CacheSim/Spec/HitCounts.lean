import Coursework.CacheSim.Spec.Completion

/-!
# What the counter of L2 hits counts

`hitsL2` is counted in two places: when a lookup for a store at the front of the write buffer
hits, and when a request is completed whose flag `HitL2` is set. Every lookup at the front of the
L2 queue writes that flag, a prefetch's as well as a load's. So a load that comes from memory, or
a store that goes to the write buffer, is counted when the last such lookup was a hit.

## Key results

- `Tallied.cycle`: what one pass through the loop adds to the counters
- `run_hitsL2_iff`: when the counter is the number of the CPU's own hits
-/

namespace CacheSim

namespace CPU

/-- The completed requests that hit in the D-cache. -/
def completedL1 (cpu : CPU) : Nat := cpu.completions.countP fun c => c.request.hitL1

/-- The counters of the CPU, when its own requests had `own` hits in L2, `extra` requests were
    counted by mistake, and `buffered` stores are in the write buffer. -/
structure Tallied (own extra buffered : Nat) (cpu : CPU) : Prop where
  hitsL1 : cpu.hitsL1 = BitVec.ofNat 32 cpu.completedL1
  hitsL2 : cpu.hitsL2 = BitVec.ofNat 32 (own + extra)
  nRequests : cpu.nRequests =
    BitVec.ofNat 32 (cpu.completions.length + if cpu.done then 0 else 1)
  room : cpu.completedL1 + own + buffered ≤ cpu.completions.length
  few : extra ≤ cpu.completions.length

/-- A request that has not been issued has no hit in the D-cache. -/
def Fresh (cpu : CPU) : Prop := cpu.done = false → cpu.currReq.hitL1 = false

variable {cpu cpu' : CPU} {own extra buffered : Nat}

theorem completeRequest_completions (cpu : CPU) (cycle : BitVec 32) (served : Option Request) :
    (cpu.completeRequest cycle served).completions =
      cpu.completions ++ [⟨cpu.currReq, served⟩] := by
  rw [completeRequest, readNextRequest]
  split <;> rfl

theorem completeRequest_fresh (cpu : CPU) (cycle : BitVec 32) (served : Option Request) :
    Fresh (cpu.completeRequest cycle served) := by
  rw [completeRequest, readNextRequest]
  split
  · intro _
    rfl
  · intro h
    cases h

theorem ofNat_succ (n : Nat) : BitVec.ofNat 32 n + 1 = BitVec.ofNat 32 (n + 1) := by
  rw [BitVec.ofNat_add]
  rfl

/-- A completion adds one to the counter that the flags of the request say. -/
theorem Tallied.complete {own' extra' buffered' : Nat} (h : Tallied own extra buffered cpu)
    (hdone : cpu.done = false) (cycle : BitVec 32) (served : Option Request)
    (hsum : own' + extra' =
      own + extra + (!cpu.currReq.hitL1 && cpu.currReq.hitL2).toNat)
    (hroom : cpu.currReq.hitL1.toNat + own' + buffered' ≤ own + buffered + 1)
    (hfew : extra' ≤ extra + 1) :
    Tallied own' extra' buffered' (cpu.completeRequest cycle served) := by
  have hcompletions := completeRequest_completions cpu cycle served
  have hlength : (cpu.completeRequest cycle served).completions.length =
      cpu.completions.length + 1 := by
    rw [hcompletions, List.length_append, List.length_singleton]
  have hL1 : (cpu.completeRequest cycle served).completedL1 =
      cpu.completedL1 + cpu.currReq.hitL1.toNat := by
    rw [completedL1, hcompletions, List.countP_append, List.countP_singleton]
    cases cpu.currReq.hitL1 <;> rfl
  -- from here one field of the tally at a time
  have hold := h.room
  constructor
  · have hhits : (cpu.completeRequest cycle served).hitsL1 =
        if cpu.currReq.hitL1 then cpu.hitsL1 + 1 else cpu.hitsL1 := by
      rw [completeRequest, readNextRequest]
      split <;> rfl
    rw [hhits, hL1, h.hitsL1]
    cases cpu.currReq.hitL1 with
    | true => exact ofNat_succ _
    | false => rfl
  · have hhits : (cpu.completeRequest cycle served).hitsL2 =
        if !cpu.currReq.hitL1 && cpu.currReq.hitL2 then cpu.hitsL2 + 1 else cpu.hitsL2 := by
      rw [completeRequest, readNextRequest]
      split <;> rfl
    rw [hhits, hsum, h.hitsL2]
    -- a hit in L2 counts only for a request that missed L1
    cases !cpu.currReq.hitL1 && cpu.currReq.hitL2 with
    | true => exact ofNat_succ _
    | false => rfl
  · -- the count of requests runs one ahead of the completions until the trace ends: the request
    -- being worked on is counted as soon as it is read
    have hrequests := h.nRequests
    rw [hdone] at hrequests
    rw [hlength, completeRequest, readNextRequest]
    split
    · show cpu.nRequests + 1 = BitVec.ofNat 32 (_ + if cpu.done then 0 else 1)
      rw [hrequests, hdone]
      exact ofNat_succ _
    · exact hrequests
  · rw [hL1, hlength]
    omega
  · have := h.few
    omega

/-- What leaves the counters and the completions alone. -/
theorem Tallied.congr {buffered' : Nat} (h : Tallied own extra buffered cpu)
    (hL1 : cpu'.hitsL1 = cpu.hitsL1) (hL2 : cpu'.hitsL2 = cpu.hitsL2)
    (hrequests : cpu'.nRequests = cpu.nRequests) (hdone : cpu'.done = cpu.done)
    (hcompletions : cpu'.completions = cpu.completions) (hbuffered : buffered' ≤ buffered) :
    Tallied own extra buffered' cpu' := by
  have hcompleted : cpu'.completedL1 = cpu.completedL1 := by
    rw [completedL1, hcompletions, completedL1]
  have hroom := h.room
  refine ⟨?_, hL2.trans h.hitsL2, ?_, ?_, ?_⟩
  · rw [hL1, hcompleted]
    exact h.hitsL1
  · rw [hrequests, hdone, hcompletions]
    exact h.nRequests
  · rw [hcompleted, hcompletions]
    omega
  · rw [hcompletions]
    exact h.few

/-- A store leaves the write buffer. -/
theorem Tallied.storeHitL2 {buffered' : Nat} (h : Tallied own extra buffered cpu) (isHit : Bool)
    (hbuffered : isHit.toNat + buffered' ≤ buffered) :
    Tallied (own + isHit.toNat) extra buffered' (cpu.storeHitL2 isHit) := by
  cases isHit with
  | false => exact h.congr rfl rfl rfl rfl rfl (by simpa using hbuffered)
  | true =>
    have hroom := h.room
    refine ⟨h.hitsL1, ?_, h.nRequests, ?_, h.few⟩
    · show cpu.hitsL2 + 1 = _
      rw [h.hitsL2, ofNat_succ]
      congr 1
      simp only [Bool.toNat_true]
      omega
    · show cpu.completedL1 + _ + _ ≤ cpu.completions.length
      simp only [Bool.toNat_true] at hbuffered ⊢
      omega

theorem Fresh.congr (h : Fresh cpu) (hdone : cpu'.done = cpu.done)
    (hreq : cpu'.currReq.hitL1 = cpu.currReq.hitL1) : Fresh cpu' := by
  intro hd
  rw [hreq]
  exact h (hdone.symm.trans hd)

end CPU

namespace Sim

variable {σ : Type} {s : Sim σ} {lines : List TraceLine} {n own extra : Nat} (P : Prefetcher σ)

/-! ## Lookups and mistakes in one pass -/

/-- The lookup at the front of the L2 queue is for a load of the CPU, and it hits. The load leaves
    the queue, so this is the last lookup for it. -/
def loadHits (s : Sim σ) : Bool :=
  s.queueL2.frontReady s.currCycle && s.queueL2.getFront.fromCPU &&
    s.l2Cache.check s.queueL2.getFront.addr s.queueL2.getFront.load

/-- The lookup for the store at the front of the write buffer hits. The store leaves the buffer,
    so this is the last lookup for it. -/
def storeHits (s : Sim σ) : Bool :=
  s.writeBuffer.frontReady s.currCycle &&
    s.l2Cache.check s.writeBuffer.getFront.addr s.writeBuffer.getFront.load

/-- A load of the CPU comes from memory. -/
def loadArrives (s : Sim σ) : Bool :=
  s.queueMem.frontReady s.currCycle && s.queueMem.getFront.isCpuLoad

/-- The write buffer takes a store of the CPU in this pass. -/
def storeLeaves (s : Sim σ) : Bool :=
  match (s.cpu.getStatus s.currCycle).1 with
  | .ready =>
    !s.dCache.check s.cpu.currReq.addr s.cpu.currReq.load && !s.cpu.currReq.load &&
      (s.writeBuffer.add s.dCache s.issued.currReq s.currCycle).1
  | .stalledWB => (s.writeBuffer.add s.dCache s.cpu.currReq s.currCycle).1
  | _ => false

/-- What a pass through the loop adds to the CPU's own hits. -/
def ownHitsOf (s : Sim σ) : Nat :=
  (s.issue P).loadHits.toNat + (s.issue P).serviceL2.serviceMem.countMem.storeHits.toNat

/-- How many requests of this pass are counted because a lookup for another request has set their
    flag: loads from memory and stores for the write buffer. -/
def mistakesOf (s : Sim σ) : Nat :=
  (s.storeLeaves && s.cpu.currReq.hitL2).toNat +
    ((s.issue P).serviceL2.loadArrives && (s.issue P).serviceL2.cpu.currReq.hitL2).toNat

/-- The sum over the passes of a run. -/
def total (f : Sim σ → Nat) : Nat → Sim σ → Nat
  | 0, _ => 0
  | n + 1, s => if s.cpu.isDone then 0 else f s + total f n (s.cycle P)

/-! ## The parts of the loop -/

/-- The counters at some point of the loop. -/
def Counts (own extra : Nat) (s : Sim σ) : Prop :=
  s.cpu.Tallied own extra s.writeBuffer.ring.size ∧ s.cpu.Fresh

theorem Counts.serviceL2 (hs : Sound lines s) (hst : Stage s n) (h : Counts own extra s) :
    Counts (own + s.loadHits.toNat) extra s.serviceL2 := by
  obtain ⟨htally, hfresh⟩ := h
  have hflag : ∀ b, (s.cpu.loadHitL2 b).Tallied own extra s.writeBuffer.ring.size :=
    fun b => htally.congr rfl rfl rfl rfl rfl (Nat.le_refl _)
  cases hready : s.queueL2.frontReady s.currCycle with
  | false =>
    have heq : s.serviceL2 = s := by simp [Sim.serviceL2, hready]
    rw [heq, loadHits, hready]
    exact ⟨htally, hfresh⟩
  | true =>
    rw [loadHits, hready]
    cases hcheck : s.l2Cache.check s.queueL2.getFront.addr s.queueL2.getFront.load with
    | true =>
      cases hcpu : s.queueL2.getFront.fromCPU with
      | true =>
        -- the CPU's own lookup has just set the flag
        have hpos := frontReady_pos hready
        have hload : s.queueL2.getFront.isCpuLoad = true :=
          (MemQueue.forall_remove (Q := fun r => r.fromCPU = true → r.isCpuLoad = true)
            hs.ringL2 hpos hs.loads).1 hcpu
        have hdone := (hst.front_cpuLoad hs hpos hload).2.1
        have hL1 : s.cpu.currReq.hitL1 = false := hfresh hdone
        have hcpu' : s.serviceL2.cpu =
            (s.cpu.loadHitL2 true).completeRequest s.currCycle (some s.queueL2.getFront) := by
          simp [Sim.serviceL2, hready, hcheck, hcpu]
        rw [Counts, serviceL2_writeBuffer, hcpu']
        refine ⟨(hflag true).complete hdone _ _ ?_ ?_ (Nat.le_succ _),
          CPU.completeRequest_fresh _ _ _⟩
        · show _ = own + extra + (!s.cpu.currReq.hitL1 && true).toNat
          rw [hL1]
          simp only [Bool.and_true, Bool.not_false, Bool.toNat_true]
          omega
        · show s.cpu.currReq.hitL1.toNat + _ + _ ≤ _
          rw [hL1]
          simp only [Bool.and_true, Bool.toNat_true, Bool.toNat_false]
          omega
      | false =>
        have hcpu' : s.serviceL2.cpu = s.cpu.loadHitL2 true := by
          simp [Sim.serviceL2, hready, hcheck, hcpu]
        rw [Counts, serviceL2_writeBuffer, hcpu']
        exact ⟨hflag true, hfresh⟩
    | false =>
      have hcpu' : s.serviceL2.cpu = s.cpu.loadHitL2 false := by
        simp only [Sim.serviceL2, hready, hcheck, if_true, Bool.false_eq_true, if_false]
        split <;> rfl
      rw [Counts, serviceL2_writeBuffer, hcpu', Bool.and_false]
      exact ⟨hflag false, hfresh⟩

theorem Counts.serviceMem (hs : Sound lines s) (hst : Stage s n) (h : Counts own extra s) :
    Counts own (extra + (s.loadArrives && s.cpu.currReq.hitL2).toNat) s.serviceMem := by
  obtain ⟨htally, hfresh⟩ := h
  obtain ⟨hready, heq⟩ | ⟨hready, l2Cache, dCache, ⟨hfront, heq⟩ | ⟨hfront, heq⟩⟩ :=
    serviceMem_cases s
  · rw [heq, loadArrives, hready]
    exact ⟨htally, hfresh⟩
  · have hdone := (hst.frontMem_cpuLoad hs (frontReady_pos hready) hfront).2.1
    have hL1 : s.cpu.currReq.hitL1 = false := hfresh hdone
    rw [heq, loadArrives, hready, hfront]
    refine ⟨htally.complete hdone _ _ ?_ ?_ ?_, CPU.completeRequest_fresh _ _ _⟩
    · rw [hL1]
      simp
      omega
    · rw [hL1]
      simp
    · exact Nat.add_le_add_left (Bool.toNat_le _) extra
  · rw [heq, loadArrives, hready, hfront]
    exact ⟨htally, hfresh⟩

theorem Counts.serviceWB (hs : Sound lines s) (h : Counts own extra s) :
    Counts (own + s.storeHits.toNat) extra s.serviceWB := by
  obtain ⟨htally, hfresh⟩ := h
  cases hready : s.writeBuffer.frontReady s.currCycle with
  | false =>
    have heq : s.serviceWB = s := by simp [Sim.serviceWB, hready]
    rw [heq, storeHits, hready]
    exact ⟨htally, hfresh⟩
  | true =>
    obtain ⟨-, -, hsize⟩ := MemQueue.remove_size hs.ringWB (frontReady_pos hready)
    rw [storeHits, hready]
    cases hcheck : s.l2Cache.check s.writeBuffer.getFront.addr s.writeBuffer.getFront.load with
    | true =>
      have hcpu : s.serviceWB.cpu = s.cpu.storeHitL2 true := by
        simp [Sim.serviceWB, hready, hcheck]
      have hbuffer : s.serviceWB.writeBuffer = s.writeBuffer.remove.2 := by
        simp [Sim.serviceWB, hready, hcheck]
      rw [Counts, hcpu, hbuffer]
      exact ⟨htally.storeHitL2 true (by rw [Bool.toNat_true]; omega), hfresh⟩
    | false =>
      have hcpu : s.serviceWB.cpu = s.cpu.storeHitL2 false := by
        simp only [Sim.serviceWB, hready, hcheck, if_true, Bool.false_eq_true, if_false]
        split <;> rfl
      have hbuffer : s.serviceWB.writeBuffer.ring.size ≤ s.writeBuffer.ring.size := by
        simp only [Sim.serviceWB, hready, hcheck, if_true, Bool.false_eq_true, if_false]
        split
        · show s.writeBuffer.remove.2.ring.size ≤ _
          omega
        · exact Nat.le_refl _
      rw [Counts, hcpu]
      exact ⟨htally.storeHitL2 false (by rw [Bool.toNat_false]; omega), hfresh⟩

/-! ## The part that depends on the CPU -/

theorem Counts.issueReady (hs : Sound lines s) (hdone : s.cpu.done = false)
    (h : Counts own extra s) :
    Counts own (extra + (!s.dCache.check s.cpu.currReq.addr s.cpu.currReq.load &&
      !s.cpu.currReq.load && (s.writeBuffer.add s.dCache s.issued.currReq s.currCycle).1 &&
      s.cpu.currReq.hitL2).toNat) (s.issueReady P) := by
  obtain ⟨htally, hfresh⟩ := h
  have hissued : s.issued.Tallied own extra s.writeBuffer.ring.size :=
    htally.congr rfl rfl rfl rfl rfl (Nat.le_refl _)
  have hset : ∀ state, (s.issued.setStatus state).Tallied own extra s.writeBuffer.ring.size :=
    fun _ => hissued.congr rfl rfl rfl rfl rfl (Nat.le_refl _)
  have hdone' : s.issued.done = false := hdone
  rw [issueReady_eq]
  cases hcheck : s.dCache.check s.cpu.currReq.addr s.cpu.currReq.load with
  | true =>
    -- a hit in L1 completes at once, and `hitL1` keeps it out of the count of L2
    have hL1 : s.issued.currReq.hitL1 = true := hcheck
    rw [if_pos rfl]
    refine ⟨hissued.complete hdone' _ _ ?_ ?_ (Nat.le_succ _), CPU.completeRequest_fresh _ _ _⟩
    · rw [hL1]
      rfl
    · rw [hL1, Bool.toNat_true]
      show 1 + own + s.writeBuffer.ring.size ≤ _
      omega
  | false =>
    have hL1 : s.issued.currReq.hitL1 = false := hcheck
    have hfresh' : s.issued.Fresh := fun _ => hL1
    have hreqLoad : s.issued.currReq.load = s.cpu.currReq.load := rfl
    have hreqL2 : s.issued.currReq.hitL2 = s.cpu.currReq.hitL2 := rfl
    rw [if_neg Bool.false_ne_true, hreqLoad]
    cases hload : s.cpu.currReq.load with
    | true =>
      rw [if_pos rfl, Bool.not_true, Bool.and_false, Bool.false_and, Bool.false_and]
      -- a load that misses completes later, so no count moves yet
      cases s.queueL2.add s.dCache s.issued.currReq s.currCycle with
      | mk ok queueL2 => cases ok <;> exact ⟨hset _, hfresh'⟩
    | false =>
      rw [if_neg Bool.false_ne_true]
      have hsize := MemQueue.add_size hs.ringWB s.dCache s.issued.currReq s.currCycle
      cases hadd : s.writeBuffer.add s.dCache s.issued.currReq s.currCycle with
      | mk ok writeBuffer =>
        rw [hadd] at hsize
        -- a store completes once the buffer takes it; a `hitL2` of some other request still
        -- standing in `currReq` is then counted for it, which is the mistake that `extra` adds up
        cases ok with
        | false => exact ⟨hset _, hfresh'⟩
        | true =>
          refine ⟨hissued.complete hdone' _ _ ?_ ?_ ?_, CPU.completeRequest_fresh _ _ _⟩
          · rw [hL1, hreqL2]
            simp only [Bool.not_false, Bool.true_and]
            omega
          · rw [hL1, Bool.toNat_false]
            show 0 + own + writeBuffer.ring.size ≤ _
            have := hsize.2.2.2
            simp only at this
            omega
          · exact Nat.add_le_add_left (Bool.toNat_le _) extra

theorem Counts.retryWB (hs : Sound lines s) (hdone : s.cpu.done = false) (h : Counts own extra s) :
    Counts own (extra + ((s.writeBuffer.add s.dCache s.cpu.currReq s.currCycle).1 &&
      s.cpu.currReq.hitL2).toNat) s.retryWB := by
  obtain ⟨htally, hfresh⟩ := h
  have hL1 := hfresh hdone
  have hsize := MemQueue.add_size hs.ringWB s.dCache s.cpu.currReq s.currCycle
  rw [Sim.retryWB, CPU.getRequest]
  cases hadd : s.writeBuffer.add s.dCache s.cpu.currReq s.currCycle with
  | mk ok writeBuffer =>
    rw [hadd] at hsize
    cases ok with
    | false => exact ⟨htally, hfresh⟩
    | true =>
      refine ⟨htally.complete hdone _ _ ?_ ?_ ?_, CPU.completeRequest_fresh _ _ _⟩
      · rw [hL1]
        simp only [Bool.not_false, Bool.true_and]
        omega
      · rw [hL1, Bool.toNat_false]
        show 0 + own + writeBuffer.ring.size ≤ _
        have := hsize.2.2.2
        simp only at this
        omega
      · exact Nat.add_le_add_left (Bool.toNat_le _) extra

theorem Counts.issue (hs : Sound lines s) (hst : Stage s n) (hdone : s.cpu.done = false)
    (h : Counts own extra s) :
    Counts own (extra + (s.storeLeaves && s.cpu.currReq.hitL2).toNat) (s.issue P) := by
  by_cases hnow : s.cpu.state = .idle ∧ s.cpu.readyAt ≤ s.currCycle
  · -- the request is issued in this pass
    have heq : s.issue P = Sim.issueReady P { s with cpu := { s.cpu with state := .ready } } := by
      simp only [Sim.issue, CPU.getStatus, if_pos hnow]
    have hleaves : s.storeLeaves = (!s.dCache.check s.cpu.currReq.addr s.cpu.currReq.load &&
        !s.cpu.currReq.load && (s.writeBuffer.add s.dCache s.issued.currReq s.currCycle).1) := by
      simp only [storeLeaves, CPU.getStatus, if_pos hnow]
    have hs' : Sound lines { s with cpu := { s.cpu with state := .ready } } :=
      ⟨hs.follows.same ⟨rfl, rfl, rfl, rfl, rfl, rfl, rfl⟩, hs.ringL2, hs.capL2, hs.ringMem,
        hs.capMem, hs.ringWB, hs.capWB, hs.loads, hs.stores⟩
    have h' : Counts own extra { s with cpu := { s.cpu with state := .ready } } :=
      ⟨h.1.congr rfl rfl rfl rfl rfl (Nat.le_refl _), h.2⟩
    rw [heq, hleaves]
    have hissue := h'.issueReady P hs' hdone
    exact hissue
  · have hstatus : s.cpu.getStatus s.currCycle = (s.cpu.state, s.cpu) := by
      rw [CPU.getStatus, if_neg hnow]
    have hprefetch : Counts own extra (s.prefetch P) := by
      obtain ⟨pf, nRequestsL2, queueL2, heq, -⟩ := prefetch_cases P s
      rw [heq]
      exact h
    cases hstate : s.cpu.state with
    | ready => exact absurd hstate hst.not_ready
    | idle =>
      rw [show s.issue P = s.prefetch P by simp only [Sim.issue, hstatus, hstate],
        show s.storeLeaves = false by simp only [storeLeaves, hstatus, hstate]]
      exact hprefetch
    | waiting =>
      rw [show s.issue P = s.prefetch P by simp only [Sim.issue, hstatus, hstate],
        show s.storeLeaves = false by simp only [storeLeaves, hstatus, hstate]]
      exact hprefetch
    | stalledL2 =>
      rw [show s.issue P = s.retryL2 by simp only [Sim.issue, hstatus, hstate],
        show s.storeLeaves = false by simp only [storeLeaves, hstatus, hstate], Sim.retryL2]
      split
      · exact ⟨h.1.congr rfl rfl rfl rfl rfl (Nat.le_refl _), h.2⟩
      · exact h
    | stalledWB =>
      obtain ⟨hsound, -, hcpu, hbuffer, hcache, hcycle⟩ :=
        hst.prefetch P hs (by rw [hstate]; simp)
      rw [show s.issue P = (s.prefetch P).retryWB by simp only [Sim.issue, hstatus, hstate],
        show s.storeLeaves = (s.writeBuffer.add s.dCache s.cpu.currReq s.currCycle).1 by
          simp only [storeLeaves, hstatus, hstate]]
      have hretry := hprefetch.retryWB hsound (by rw [hcpu]; exact hdone)
      rwa [hcpu, hbuffer, hcache, hcycle] at hretry

/-! ## Runs -/

theorem Counts.nextCycle (h : Counts own extra s) :
    Counts own extra { s with currCycle := s.currCycle + 1 } := ⟨h.1, h.2⟩

theorem Counts.countMem (h : Counts own extra s) : Counts own extra s.countMem := ⟨h.1, h.2⟩

/-- One pass through the loop. -/
theorem Counts.cycle (hs : Sound lines s) (hst : Stage s n) (hdone : s.cpu.done = false)
    (h : Counts own extra s) :
    Counts (own + s.ownHitsOf P) (extra + s.mistakesOf P) (s.cycle P) := by
  obtain ⟨n₁, ⟨hs₁, hst₁, -, -⟩, -, -⟩ := hst.issue P hs hdone
  obtain ⟨n₂, ⟨hs₂, hst₂, -, -⟩, -⟩ := hst₁.serviceL2 hs₁
  obtain ⟨n₃, ⟨hs₃, -, -, -⟩, -⟩ := hst₂.serviceMem hs₂
  have h₁ := h.issue P hs hst hdone
  have h₂ := h₁.serviceL2 hs₁ hst₁
  have h₃ := (h₂.serviceMem hs₂ hst₂).countMem
  have hs₃' : Sound lines (s.issue P).serviceL2.serviceMem.countMem :=
    ⟨hs₃.follows, hs₃.ringL2, hs₃.capL2, hs₃.ringMem, hs₃.capMem, hs₃.ringWB, hs₃.capWB,
      hs₃.loads, hs₃.stores⟩
  have h₄ := h₃.serviceWB hs₃'
  rw [ownHitsOf, mistakesOf, ← Nat.add_assoc, ← Nat.add_assoc]
  exact h₄.nextCycle

theorem Counts.run (hs : Sound lines s) (hst : Stage s n) (h : Counts own extra s) (k : Nat) :
    Counts (own + s.total P (ownHitsOf P) k) (extra + s.total P (mistakesOf P) k) (s.run P k) := by
  induction k generalizing s n own extra with
  | zero => exact h
  | succ k ih =>
    cases hdone : s.cpu.done with
    | true =>
      have hend : s.cpu.isDone = true := hdone
      rw [Sim.run, total, total, if_pos hend, if_pos hend, if_pos hend]
      exact h
    | false =>
      obtain ⟨n', hs', hst', -⟩ := hst.cycle P hs hdone
      have hrest := ih hs' hst' (h.cycle P hs hst hdone)
      have hgo : ¬ s.cpu.isDone = true := by
        rw [CPU.isDone, hdone]
        exact Bool.false_ne_true
      rw [Sim.run, total, total, if_neg hgo, if_neg hgo, if_neg hgo, ← Nat.add_assoc,
        ← Nat.add_assoc]
      exact hrest

theorem counts_new (lines : List TraceLine) (pf : σ) : Counts 0 0 (Sim.new lines pf) := by
  cases lines with
  | nil => exact ⟨⟨rfl, rfl, rfl, Nat.le_refl _, Nat.le_refl _⟩, fun h => by cases h⟩
  | cons line lines => exact ⟨⟨rfl, rfl, rfl, Nat.le_refl _, Nat.le_refl _⟩, fun _ => rfl⟩

/-- For every trace and every prefetcher the loop ends, and then `hitsL2` is the number of the
    CPU's own hits and the hits are no more than the requests, exactly when no store and no load
    from memory is completed with a flag that another lookup has set; unless the trace is so
    long that the counters go round. -/
theorem run_hitsL2_iff (P : Prefetcher σ) (pf : σ) (lines : List TraceLine) :
    (∃ k, ((Sim.new lines pf).run P k).cpu.isDone = true) ∧
    ∀ k, ((Sim.new lines pf).run P k).cpu.isDone = true →
      let cpu := ((Sim.new lines pf).run P k).cpu
      let own := (Sim.new lines pf).total P (ownHitsOf P) k
      let mistakes := (Sim.new lines pf).total P (mistakesOf P) k
      (cpu.hitsL2.toNat = own ∧ cpu.hitsL1.toNat + cpu.hitsL2.toNat ≤ cpu.nRequests.toNat ↔
        if lines.length < 2 ^ 32 then mistakes = 0
        else own < 2 ^ 32 ∧ 2 ^ 32 ∣ mistakes ∧
          cpu.completedL1 % 2 ^ 32 + own ≤ lines.length % 2 ^ 32) := by
  obtain ⟨n, hst⟩ := stage_new lines pf
  have hs := sound_new lines pf
  refine ⟨hst.terminates P hs, ?_⟩
  intro k hend
  obtain ⟨n', hs', -⟩ := hst.run P hs k
  have hcounts := ((counts_new lines pf).run P hs hst k).1
  rw [Nat.zero_add, Nat.zero_add] at hcounts
  -- at the end every line of the trace has completed
  have hlength : ((Sim.new lines pf).run P k).cpu.completions.length = lines.length := by
    have hcount := hs'.follows.count
    rw [CPU.remaining, show ((Sim.new lines pf).run P k).cpu.done = true from hend] at hcount
    exact hcount
  have hroom := hcounts.room
  have hfew := hcounts.few
  have hrequests := hcounts.nRequests
  rw [show ((Sim.new lines pf).run P k).cpu.done = true from hend, if_pos rfl, Nat.add_zero,
    hlength] at hrequests
  rw [hlength] at hroom hfew
  intro cpu own mistakes
  rw [show cpu.hitsL2 = _ from hcounts.hitsL2, show cpu.hitsL1 = _ from hcounts.hitsL1,
    show cpu.nRequests = _ from hrequests, BitVec.toNat_ofNat, BitVec.toNat_ofNat,
    BitVec.toNat_ofNat]
  change cpu.completedL1 + own + _ ≤ _ at hroom
  change mistakes ≤ _ at hfew
  change (own + mistakes) % 2 ^ 32 = own ∧
    cpu.completedL1 % 2 ^ 32 + (own + mistakes) % 2 ^ 32 ≤ lines.length % 2 ^ 32 ↔ _
  -- what is left is about numbers: with fewer than `2 ^ 32` lines nothing wraps, and beyond that
  -- the condition says how the counters wrapped
  generalize own = a at *
  generalize mistakes = b at *
  generalize cpu.completedL1 = c at *
  have hwraps : (a + b) % 2 ^ 32 = a ↔ a < 2 ^ 32 ∧ 2 ^ 32 ∣ b := by omega
  split
  · omega
  · rw [← and_assoc, ← hwraps]
    constructor
    · rintro ⟨hown, hle⟩
      exact ⟨hown, hown ▸ hle⟩
    · rintro ⟨hown, hle⟩
      exact ⟨hown, hown.symm ▸ hle⟩

/-- A prefetcher that always asks for block 0. -/
def oneBlock : Prefetcher Unit where
  hasRequest pf _ := (true, pf)
  getRequest pf _ := (⟨0, 0, true, false, 0, false, false⟩, pf)
  completeRequest pf _ := pf
  cpuRequest pf _ := pf

/-- A load of block 0 and, fourteen cycles after it, a store to another block. -/
def loadThenStore : List TraceLine := [⟨'l', 0, 0, 0⟩, ⟨'s', 0, 0x1000, 14⟩]

/-- The store goes to the write buffer while the flag still says that a prefetch of block 0 was a
    hit, and is counted, though no request of the CPU has hit in L2. -/
theorem run_hitsL2_prefetch :
    ((Sim.new loadThenStore ()).run oneBlock 86).cpu.isDone = true ∧
    ((Sim.new loadThenStore ()).run oneBlock 86).cpu.hitsL2 = 1 ∧
    (Sim.new loadThenStore ()).total oneBlock (ownHitsOf oneBlock) 86 = 0 := by
  decide +kernel

end Sim

end CacheSim
