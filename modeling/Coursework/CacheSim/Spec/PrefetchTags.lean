import Coursework.CacheSim.Spec.PrefetchBursts

/-!
# Tags of issued prefetches

A bit of `tags` says that an address has been issued as a prefetch. Three places set the next
address: the trigger on a hit and `completeRequest` mark it, the miss does not. A mark is lost
where the bit is the sign of its `char`, and where the request of the trigger has the same bit,
as `cpuRequest` clears that one last. The condition under which every issued address is tagged
until it is used says just this, of each call that sets an address.
-/

namespace CacheSim

open BitArray

namespace RptPrefetcher

variable {p : RptPrefetcher} {req : Request}

/-- The place of an address in `tags`. -/
def tagBit (addr : BitVec 32) : Nat := bitIndex addr stateSize

/-- The call sets the address of the request that is pending after it. -/
def setsAddr (p : RptPrefetcher) : Call → Bool
  | .cpuRequest req => p.Triggers req
  | .completeRequest _ => p.ready && decide (p.reqLeft ≠ 0)

/-- The address one stride on, which such a call sets. -/
def addrAfter (p : RptPrefetcher) : Call → BitVec 32
  | .cpuRequest req => req.addr + p.triggerStride req
  | .completeRequest _ => p.nextReq.addr + p.rowStride p.nextReq.pc

/-- The bit of the address can be read; a trigger has another bit than the address it sets, and
    a miss finds that address tagged already. -/
def leavesTag (p : RptPrefetcher) (c : Call) : Bool :=
  decide (tagBit (p.addrAfter c) % 8 ≠ 7) &&
    match c with
    | .cpuRequest req =>
      decide (tagBit (p.addrAfter c) ≠ tagBit req.addr) &&
        (req.hitL1 || p.tags.bit (tagBit (p.addrAfter c)))
    | .completeRequest _ => true

/-- A CPU request to an address with the bit of the next address. -/
def usesTag (p : RptPrefetcher) : Call → Bool
  | .cpuRequest req => tagBit req.addr == tagBit p.nextReq.addr
  | .completeRequest _ => false

/-- The prefetcher, and whether a CPU request had the bit of the next address since that one
    was set. -/
structure Watched where
  prefetcher : RptPrefetcher
  used : Bool

namespace Watched

def call (w : Watched) (c : Call) : Watched where
  prefetcher := w.prefetcher.call c
  used := !w.prefetcher.setsAddr c && (w.used || w.prefetcher.usesTag c)

def run (w : Watched) (calls : List Call) : Watched := calls.foldl call w

theorem run_concat (w : Watched) (calls : List Call) (c : Call) :
    w.run (calls ++ [c]) = (w.run calls).call c := by
  rw [run, List.foldl_append]
  rfl

theorem run_append (w : Watched) (calls others : List Call) :
    w.run (calls ++ others) = (w.run calls).run others := List.foldl_append

theorem run_prefetcher (w : Watched) (calls : List Call) :
    (w.run calls).prefetcher = w.prefetcher.run calls := by
  induction calls generalizing w with
  | nil => rfl
  | cons c calls ih => exact ih (w.call c)

/-- The address of a pending request is tagged until it is used. -/
def Tagged (w : Watched) : Prop :=
  w.prefetcher.ready = true →
    checkBit w.prefetcher.nextReq.addr w.prefetcher.tags stateSize = true ∨ w.used = true

end Watched

/-! ## The tags after a call -/

theorem checkBit_tags (addr : BitVec 32) (bits : BitArray) :
    checkBit addr bits stateSize = (bits.bit (tagBit addr) && decide (tagBit addr % 8 ≠ 7)) :=
  checkBit_eq addr bits stateSize

theorem tagBit_lt (addr : BitVec 32) : tagBit addr < stateSize := Nat.mod_lt _ (by decide)

/-- The size of `tags`, which the methods keep. -/
def TagsFit (p : RptPrefetcher) : Prop := p.tags.length = stateSize

theorem place_lt {bits : BitArray} (h : bits.length = stateSize) (addr : BitVec 32) :
    bitIndex addr stateSize / 8 < bits.length := by
  have hlt := tagBit_lt addr
  unfold tagBit at hlt
  rw [h]
  omega

theorem bit_mark {bits : BitArray} (h : bits.length = stateSize) (addr : BitVec 32) (i : Nat) :
    (markBit addr bits stateSize).bit i = (decide (i = tagBit addr) || bits.bit i) :=
  bit_markBit (place_lt h addr) i

theorem bit_unmark {bits : BitArray} (h : bits.length = stateSize) (addr : BitVec 32) (i : Nat) :
    (unmarkBit addr bits stateSize).bit i = (decide (i ≠ tagBit addr) && bits.bit i) := by
  rw [bit_unmarkBit (place_lt h addr), tagBit, decide_not]

theorem TagsFit.new (nextReq : Request) (reqLeft : Int) : (new nextReq reqLeft).TagsFit :=
  List.length_replicate

/-- Only a hit that triggers marks the address that it sets. -/
theorem cpuRequest_tags (p : RptPrefetcher) (req : Request) :
    (p.cpuRequest req).tags = unmarkBit req.addr
      (if req.hitL1 && p.Triggers req then
        markBit (req.addr + p.triggerStride req) p.tags stateSize else p.tags) stateSize := by
  cases hhit : req.hitL1 with
  | false =>
    have hmiss : (p.miss req).tags = p.tags := by
      cases hpc : (p.rptTable (rptRowNum req.pc)).pc == req.pc with
      | false => simp [miss, hpc]
      | true => cases hsame : p.sameStride req <;> simp [miss, hpc, hsame]
    simp [cpuRequest, hhit, hmiss]
  | true =>
    have hstride : p.nextAddr req.pc req.addr = req.addr + p.triggerStride req := by
      rw [nextAddr_eq, triggerStride, hhit]
      rfl
    cases htag : checkBit req.addr p.tags stateSize && !p.ready with
    | false => simp [cpuRequest, Triggers, hhit, htag]
    | true => simp [cpuRequest, Triggers, hhit, htag, tagHit, hstride]

theorem completeRequest_tags (h : p.reqLeft ≠ 0) (cycle : BitVec 32) :
    (p.completeRequest cycle).tags =
      markBit (p.nextReq.addr + p.rowStride p.nextReq.pc) p.tags stateSize := by
  rw [completeRequest, if_neg h, nextAddr_eq]

theorem TagsFit.call (h : p.TagsFit) (c : Call) : (p.call c).TagsFit := by
  unfold TagsFit at h ⊢
  cases c with
  | cpuRequest req =>
    show (p.cpuRequest req).tags.length = stateSize
    rw [cpuRequest_tags, length_unmarkBit]
    split
    · rw [length_markBit, h]
    · exact h
  | completeRequest cycle =>
    show (p.completeRequest cycle).tags.length = stateSize
    by_cases hleft : p.reqLeft = 0
    · rw [completeRequest_last hleft]
      exact h
    · rw [completeRequest_tags hleft, length_markBit, h]

theorem TagsFit.run (h : p.TagsFit) (calls : List Call) : (p.run calls).TagsFit := by
  induction calls generalizing p with
  | nil => exact h
  | cons c calls ih => exact ih (h.call c)

/-- The bit of the address that a call sets. -/
theorem bit_addrAfter (h : p.TagsFit) {c : Call} (hsets : p.setsAddr c = true) :
    (p.call c).nextReq.addr = p.addrAfter c ∧ (p.call c).ready = true ∧
      checkBit (p.addrAfter c) (p.call c).tags stateSize = p.leavesTag c := by
  cases c with
  | completeRequest cycle =>
    simp only [setsAddr, Bool.and_eq_true, decide_eq_true_eq] at hsets
    obtain ⟨hready, _, hreq, _⟩ := completeRequest_next hsets.2 cycle
    have hcall : p.call (.completeRequest cycle) = p.completeRequest cycle := rfl
    refine ⟨by rw [hcall, hreq, addrAfter], hready.trans hsets.1, ?_⟩
    rw [checkBit_tags, hcall, completeRequest_tags hsets.2, bit_mark h]
    simp [leavesTag, addrAfter]
  | cpuRequest req =>
    obtain ⟨hready, _, hreq⟩ := cpuRequest_triggers hsets
    have hcall : p.call (.cpuRequest req) = p.cpuRequest req := rfl
    have htrigger : p.Triggers req = true := hsets
    refine ⟨by rw [hcall, hreq, addrAfter], hready, ?_⟩
    rw [checkBit_tags, hcall, cpuRequest_tags, htrigger, leavesTag, addrAfter, Bool.and_comm]
    cases req.hitL1 with
    | true =>
      -- marked, and then cleared if the request has the same bit
      rw [Bool.and_self, if_pos rfl, bit_unmark (by rw [length_markBit]; exact h), bit_mark h]
      simp
    | false =>
      rw [Bool.false_and, if_neg Bool.false_ne_true, bit_unmark h, Bool.false_or]

/-- A call clears no bit but the one of a CPU request. -/
theorem bit_call (h : p.TagsFit) {c : Call} {i : Nat}
    (hother : ∀ req, c = .cpuRequest req → tagBit req.addr ≠ i) (hbit : p.tags.bit i = true) :
    (p.call c).tags.bit i = true := by
  cases c with
  | completeRequest cycle =>
    show (p.completeRequest cycle).tags.bit i = true
    by_cases hleft : p.reqLeft = 0
    · rw [completeRequest_last hleft]
      exact hbit
    · rw [completeRequest_tags hleft, bit_mark h, hbit, Bool.or_true]
  | cpuRequest req =>
    have hne : i ≠ tagBit req.addr := (hother req rfl).symm
    show (p.cpuRequest req).tags.bit i = true
    rw [cpuRequest_tags]
    split
    · rw [bit_unmark (by rw [length_markBit]; exact h), bit_mark h, hbit]
      simp [hne]
    · rw [bit_unmark h, hbit]
      simp [hne]

theorem bit_run (h : p.TagsFit) {calls : List Call} {i : Nat}
    (hother : ∀ req, Call.cpuRequest req ∈ calls → tagBit req.addr ≠ i)
    (hbit : p.tags.bit i = true) : (p.run calls).tags.bit i = true := by
  induction calls generalizing p with
  | nil => exact hbit
  | cons c calls ih =>
    apply ih (h.call c)
    · exact fun req hreq => hother req (List.mem_cons_of_mem _ hreq)
    · exact bit_call h (fun req hc => hother req (hc ▸ List.mem_cons_self)) hbit

/-- A call that sets no address leaves the address, and a pending request was pending before. -/
theorem call_of_not_setsAddr {c : Call} (hsets : p.setsAddr c = false)
    (hready : (p.call c).ready = true) :
    p.ready = true ∧ (p.call c).nextReq = p.nextReq := by
  cases c with
  | completeRequest cycle =>
    have hcall : p.call (.completeRequest cycle) = p.completeRequest cycle := rfl
    rw [hcall] at hready ⊢
    by_cases hleft : p.reqLeft = 0
    · rw [completeRequest_last hleft] at hready
      cases hready
    · have hbefore := (completeRequest_next hleft cycle).1.symm.trans hready
      simp [setsAddr, hleft, hbefore] at hsets
  | cpuRequest req =>
    have htrigger : p.Triggers req = false := hsets
    simp only [Triggers, Bool.or_eq_false_iff, Bool.not_eq_false'] at htrigger
    have hcall : p.call (.cpuRequest req) =
        { p with tags := unmarkBit req.addr p.tags stateSize } := by
      show p.cpuRequest req = _
      simp [cpuRequest, htrigger.1, htrigger.2]
    rw [hcall] at hready ⊢
    exact ⟨hready, rfl⟩

/-! ## Runs -/

namespace Watched

variable {w : Watched}

/-- After a call that sets an address, it is tagged exactly under the condition. -/
theorem tagged_call_iff (h : w.prefetcher.TagsFit) {c : Call}
    (hsets : w.prefetcher.setsAddr c = true) :
    (w.call c).Tagged ↔ w.prefetcher.leavesTag c = true := by
  obtain ⟨haddr, hready, hbit⟩ := bit_addrAfter h hsets
  have hused : (w.call c).used = false := by simp [call, hsets]
  have hprefetcher : (w.call c).prefetcher = w.prefetcher.call c := rfl
  unfold Tagged
  rw [hused, hprefetcher, hready, haddr, hbit]
  simp

/-- The other calls clear a tag only when they use it. -/
theorem Tagged.call (h : w.Tagged) (hfit : w.prefetcher.TagsFit) {c : Call}
    (hsets : w.prefetcher.setsAddr c = false) : (w.call c).Tagged := by
  intro hready
  obtain ⟨hbefore, hreq⟩ := call_of_not_setsAddr hsets hready
  have hreq' : (w.call c).prefetcher.nextReq = w.prefetcher.nextReq := hreq
  cases huses : w.prefetcher.usesTag c with
  | true => exact Or.inr (by simp [Watched.call, hsets, huses])
  | false =>
    cases h hbefore with
    | inr hused => exact Or.inr (by simp [Watched.call, hsets, hused])
    | inl htag =>
      left
      rw [checkBit_tags, Bool.and_eq_true] at htag
      rw [hreq', checkBit_tags, Bool.and_eq_true]
      refine ⟨bit_call hfit (fun req hc => ?_) htag.1, htag.2⟩
      subst hc
      exact ne_of_beq_false huses

theorem tagsFit_run (h : w.prefetcher.TagsFit) (calls : List Call) :
    (w.run calls).prefetcher.TagsFit := by
  rw [run_prefetcher]
  exact h.run calls

/-- Every call of a run that sets an address meets the condition. -/
def LeavesTags (w : Watched) (calls : List Call) : Prop :=
  ∀ pre c, pre ++ [c] <+: calls → (w.run pre).prefetcher.setsAddr c = true →
    (w.run pre).prefetcher.leavesTag c = true

theorem LeavesTags.tagged {calls : List Call} (h : w.LeavesTags calls)
    (hfit : w.prefetcher.TagsFit) (hw : w.Tagged) : (w.run calls).Tagged := by
  induction calls using List.reverseRec with
  | nil => exact hw
  | append_singleton calls c ih =>
    have hbefore : (w.run calls).Tagged :=
      ih fun pre d hpre => h pre d (hpre.trans (List.prefix_append calls [c]))
    rw [run_concat]
    cases hsets : (w.run calls).prefetcher.setsAddr c with
    | false => exact hbefore.call (tagsFit_run hfit calls) hsets
    | true =>
      exact (tagged_call_iff (tagsFit_run hfit calls) hsets).mpr
        (h calls c (List.prefix_refl _) hsets)

/-- After the calls, the first L1 hit on the pending address leaves a prefetch pending, and if
    none is pending when it comes, it is the one that follows the address. -/
def FirstHitPrefetches (w : Watched) (calls : List Call) : Prop :=
  w.prefetcher.ready = true → w.used = false →
    (∀ req, Call.cpuRequest req ∈ calls → tagBit req.addr ≠ tagBit w.prefetcher.nextReq.addr) →
    ∀ req : Request, req.hitL1 = true → req.addr = w.prefetcher.nextReq.addr →
      let q := (w.run calls).prefetcher
      (q.cpuRequest req).ready = true ∧
        (q.ready = false → (q.cpuRequest req).nextReq.addr = q.nextAddr req.pc req.addr)

theorem Tagged.firstHitPrefetches (h : w.Tagged) (hfit : w.prefetcher.TagsFit)
    (calls : List Call) : w.FirstHitPrefetches calls := by
  intro hready hused hother req hhit haddr q
  have htag : checkBit w.prefetcher.nextReq.addr w.prefetcher.tags stateSize = true := by
    simpa [hused] using h hready
  rw [checkBit_tags, Bool.and_eq_true] at htag
  have hq : q = w.prefetcher.run calls := run_prefetcher w calls
  have hlater : checkBit req.addr q.tags stateSize = true := by
    rw [haddr, checkBit_tags, Bool.and_eq_true, hq]
    exact ⟨bit_run hfit hother htag.1, htag.2⟩
  cases hidle : q.ready with
  | true =>
    -- a request is pending already, and stays so
    refine ⟨?_, fun hfalse => absurd hfalse Bool.true_eq_false.mp⟩
    have hcpu : q.cpuRequest req = { q with tags := unmarkBit req.addr q.tags stateSize } := by
      simp [cpuRequest, hhit, hidle]
    rw [hcpu]
    exact hidle
  | false =>
    have htrigger : q.Triggers req = true := by simp [Triggers, hlater, hidle]
    obtain ⟨hready', _, hreq⟩ := cpuRequest_triggers htrigger
    refine ⟨hready', fun _ => ?_⟩
    rw [hreq, nextAddr_eq, triggerStride, hhit]
    rfl

end Watched

/-- The prefetcher that the constructor makes. -/
def watch (nextReq : Request) (reqLeft : Int) : Watched := ⟨new nextReq reqLeft, false⟩

/-- In a run, every pending address is tagged until it is used, and then the first L1 hit on it
    prefetches the next one, exactly when every call that sets an address leaves it a bit that
    can be read, sets another one than the bit of its own request, and, if it is a miss, finds
    the address tagged already. -/
theorem run_tagged_iff (nextReq : Request) (reqLeft : Int) (calls : List Call) :
    (∀ pre, pre <+: calls → ((watch nextReq reqLeft).run pre).Tagged ∧
        ∀ mid, pre ++ mid <+: calls →
          ((watch nextReq reqLeft).run pre).FirstHitPrefetches mid) ↔
      (watch nextReq reqLeft).LeavesTags calls := by
  have hfit : (watch nextReq reqLeft).prefetcher.TagsFit := TagsFit.new nextReq reqLeft
  constructor
  · intro htagged pre c hpre hsets
    have hafter := (htagged _ hpre).1
    rw [Watched.run_concat] at hafter
    exact (Watched.tagged_call_iff (Watched.tagsFit_run hfit pre) hsets).mp hafter
  · intro hleaves pre hpre
    have hpart : (watch nextReq reqLeft).LeavesTags pre :=
      fun pre' c hpre' => hleaves pre' c (hpre'.trans hpre)
    -- the constructor leaves no request pending
    have hnew : (watch nextReq reqLeft).Tagged := fun hready => absurd hready Bool.false_ne_true
    have htagged := hpart.tagged hfit hnew
    exact ⟨htagged, fun mid _ => htagged.firstHitPrefetches (Watched.tagsFit_run hfit pre) mid⟩

/-- A single miss: `getRequest` returns 0x1020, which is not tagged. -/
theorem not_tagged_miss :
    ¬ ∀ (nextReq : Request) (reqLeft : Int) (calls : List Call),
      ((watch nextReq reqLeft).run calls).Tagged := by
  intro h
  have hmiss := h Entry.zero.request 0 [missAt 4 0x1000] rfl
  revert hmiss
  decide +kernel

end RptPrefetcher

end CacheSim
