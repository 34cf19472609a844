import Coursework.Nachos.Spec.StoredBytes

/-!
# Fresh pages reveal nothing

A stack or argument page is zero-filled on its first fault. What a process reads from
such a page before it writes to it is then zero, whichever frame the page has and whoever
had the frame before. `VMKernel.zero` stops one byte short of the end of the frame: the
last byte is what the previous owner left there.
-/

namespace Nachos

/-- `zero` left a byte of the previous owner in the frame. -/
def Event.leavesByte : Event → Bool
  | .zeroed _ _ frame => frame (pageSize - 1) != 0
  | _ => false

/-- No page was evicted while the TLB mapped it, and every frame that was zero-filled was
    zero in its last byte already. -/
def CleanFill (trace : List Event) : Prop :=
  ∀ e ∈ trace, e.evictsMapped = false ∧ e.leavesByte = false

namespace CleanFill

variable {trace trace' : List Event}

theorem suffix (h : CleanFill trace') (hs : trace <:+ trace') : CleanFill trace :=
  fun e he => h e (hs.mem he)

theorem noStale (h : CleanFill trace) : NoStale trace := fun e he => (h e he).1

end CleanFill

/-- Process `p` has written to no byte of page `v`. -/
def NeverWritten (trace : List Event) (p v : Nat) : Prop :=
  ∀ j < pageSize, lastWrite trace p (v * pageSize + j) = none

/-- A byte that was written stays written. -/
theorem lastWrite_cons_none {e : Event} {trace : List Event} {p a : Nat}
    (h : lastWrite (e :: trace) p a = none) : lastWrite trace p a = none := by
  cases e with
  | wrote p' va bytes =>
    simp only [lastWrite] at h
    split at h
    · rename_i hin
      rw [List.getElem?_eq_none_iff] at h
      omega
    · exact h
  | _ => exact h

theorem NeverWritten.suffix {trace trace' : List Event} {p v : Nat} (h : NeverWritten trace' p v)
    (hs : trace <:+ trace') : NeverWritten trace p v := by
  obtain ⟨es, rfl⟩ := hs
  induction es with
  | nil => exact h
  | cons e es ih => exact ih fun j hj => lastWrite_cons_none (h j hj)

/-- Process `p` wrote. -/
def Event.isWriteOf (p : Nat) : Event → Bool
  | .wrote q _ _ => q == p
  | _ => false

theorem neverWritten_of_all {trace : List Event} {p : Nat}
    (h : (trace.all fun e => !e.isWriteOf p) = true) (v : Nat) : NeverWritten trace p v := by
  intro j _
  induction trace with
  | nil => rfl
  | cons e trace ih =>
    rw [List.all_cons, Bool.and_eq_true] at h
    cases e with
    | wrote q va bytes =>
      have hne : q ≠ p := by simpa [Event.isWriteOf] using h.1
      simp only [lastWrite]
      rw [if_neg (fun h => hne h.1)]
      exact ih h.2
    | _ => exact ih h.2

/-- The bytes of the stack and argument pages that were never written are zero. -/
def Blank (ph : Phase) (m : View) : Prop :=
  Stored (fun p v _ b => ¬ v < m.numCoffPages p → NeverWritten m.trace p v → b = 0) ph m

/-- A page that is zero-filled is zero, if the last byte of its frame was. -/
theorem Micro.zero_of_filling {ph ph' : Phase} {m m' : View} (h : Micro ph m ph' m')
    (hwf : WF ph m) (hev : CleanFill m'.trace) {p v f j : Nat} (hph : ph = .filling f p v false)
    (hin : InFrame m' p v f) (hc : ¬ v < m.numCoffPages p) (hj : j < pageSize) :
    m'.memory (frameAddr f j) = 0 := by
  subst hph
  have hwf' := WF.micro h hwf
  cases h with
  | note => exact absurd hin.valid (by simp [hwf'.phase.2.2.2.2])
  | saveClean => exact absurd hin.valid (by simp [hwf'.phase.2.2.2.2])
  | saveDirty => exact absurd hin.valid (by simp [hwf'.phase.2.2.2.2])
  | fillCoff hcoff => exact absurd hcoff hc
  | @fillZero m f p v memory hcoff hm =>
    dsimp only
    by_cases hlast : j < pageSize - 1
    · have hadr : frameAddr f j = frameAddr f 0 + j := by simp [frameAddr]
      rw [hadr, hm, blit_inside hlast]
    · -- the byte that `zero` does not write
      have hfill := (hev _ List.mem_cons_self).2
      simp only [Event.leavesByte, bne_eq_false_iff_eq] at hfill
      rw [show j = pageSize - 1 by omega]
      exact hfill

/-- Every change leaves unwritten pages blank, if all fills are clean. -/
theorem Blank.micro {ph ph' : Phase} {m m' : View} (h : Micro ph m ph' m') (hwf : WF ph m)
    (hco : Coherent m) (hs : Slots ph m) (hb : Blank ph m) (hev : CleanFill m'.trace)
    (hmark : NoLostMark m'.trace) (hnum : m.numSwapPages ≤ maxSwapPages) : Blank ph' m' := by
  have hcoff : ∀ p, m.live p = true → m'.numCoffPages p = m.numCoffPages p :=
    fun p hl => (h.config.2 p (hwf.lt_of_live hl)).1
  refine Stored.micro h hwf hco hs hb hmark hnum ?_ ?_ ?_
  · intro p v j b hl _ _ hok hc hnever
    rw [hcoff p hl] at hc
    exact hok hc (hnever.suffix h.trace_suffix)
  · intro p v j b hj hlast hc hnever
    rw [hnever j hj] at hlast
    cases hlast
  · intro p v f j hph hin hj hc _
    have hl : m.live p = true := by
      rw [hph] at hwf
      exact hwf.phase.2.2.1
    rw [hcoff p hl] at hc
    exact h.zero_of_filling hwf hev hph hin hc hj

/-! ## Reads -/

/-- Every read of a stack or argument page that its process had not written to returned
    zeros. -/
def BlankReads (numCoffPages : Nat → Nat) : List Event → Prop
  | [] => True
  | .read p va bytes :: trace => BlankReads numCoffPages trace ∧
      (¬ va / pageSize < numCoffPages p → NeverWritten trace p (va / pageSize) →
        ∀ b ∈ bytes, b = 0)
  | _ :: trace => BlankReads numCoffPages trace

/-- Only processes that are there have read. -/
def Readers (m : View) : Prop := ∀ p va bytes, .read p va bytes ∈ m.trace → p < m.numProcesses

theorem BlankReads.congr {c c' : Nat → Nat} {trace : List Event}
    (hc : ∀ p va bytes, .read p va bytes ∈ trace → c p = c' p) (h : BlankReads c trace) :
    BlankReads c' trace := by
  induction trace with
  | nil => trivial
  | cons e trace ih =>
    have htail : ∀ p va bytes, .read p va bytes ∈ trace → c p = c' p :=
      fun p va bytes hm => hc p va bytes (List.mem_cons_of_mem _ hm)
    cases e with
    | read p va bytes =>
      refine ⟨ih htail h.1, ?_⟩
      rw [← hc p va bytes List.mem_cons_self]
      exact h.2
    | _ => exact ih htail h

theorem BlankReads.suffix {c : Nat → Nat} {trace trace' : List Event} (h : BlankReads c trace')
    (hs : trace <:+ trace') : BlankReads c trace := by
  obtain ⟨es, rfl⟩ := hs
  induction es with
  | nil => exact h
  | cons e es ih =>
    apply ih
    cases e with
    | read p va bytes => exact h.1
    | _ => exact h

/-- The bytes read from the frame of an unwritten page. -/
theorem Blank.read {ph : Phase} {m : View} (hb : Blank ph m) {p v f off n : Nat}
    (hin : InFrame m p v f) (hoff : off + n ≤ pageSize)
    (hc : ¬ (v * pageSize + off) / pageSize < m.numCoffPages p)
    (hnever : NeverWritten m.trace p ((v * pageSize + off) / pageSize)) {b : UInt8}
    (hmem : b ∈ (List.range n).map fun j => m.memory (frameAddr f off + j)) : b = 0 := by
  obtain ⟨j, hj, rfl⟩ := List.mem_map.mp hmem
  have hlt : j < n := List.mem_range.mp hj
  have hpage : (v * pageSize + off) / pageSize = v := by
    simp only [pageSize] at *
    omega
  rw [hpage] at hc hnever
  have hadr : frameAddr f off + j = frameAddr f (off + j) := by
    simp only [frameAddr]
    omega
  rw [hadr]
  exact hb.memory p v f (off + j) hin (by omega) hc hnever

/-- Reads of unwritten pages return zeros after every change. -/
theorem Micro.blankReads {ph ph' : Phase} {m m' : View} (h : Micro ph m ph' m') (hwf : WF ph m)
    (hco : Coherent m) (hb : Blank ph m) (hread : Readers m)
    (ht : BlankReads m.numCoffPages m.trace) :
    Readers m' ∧ BlankReads m'.numCoffPages m'.trace := by
  -- an event that is no read
  have hother : ∀ e, (∀ p va bytes, e ≠ .read p va bytes) → ∀ p va bytes,
      Event.read p va bytes ∈ e :: m.trace → p < m.numProcesses := by
    intro e he p va bytes hm
    rcases List.mem_cons.mp hm with heq | hm
    · exact absurd heq.symm (he p va bytes)
    · exact hread p va bytes hm
  cases h with
  | note e he =>
    refine ⟨hother e (by rintro p va bytes rfl; simp [Event.isPin] at he), ?_⟩
    cases e <;> first | exact ht | simp [Event.isPin] at he
  | saveDirty => exact ⟨hother _ (by simp), ht⟩
  | dropSaved => exact ⟨hother _ (by simp), ht⟩
  | dropClean =>
    refine ⟨fun p va bytes hm => ?_, ht⟩
    rcases List.mem_cons.mp hm with heq | hm
    · cases heq
    · exact hother _ (by simp) p va bytes hm
  | fillZero => exact ⟨hother _ (by simp), ht⟩
  | replaceTlb => exact ⟨hother _ (by simp), ht⟩
  | userStore => exact ⟨hother _ (by simp), ht⟩
  | kernelWrite => exact ⟨hother _ (by simp), ht⟩
  | @userLoad m i p f off n hcur hv hp hoff =>
    obtain ⟨hval, hppn⟩ := hco i p hv hcur
    obtain ⟨-, p', -, hcur', hn, -⟩ := hwf.tlb i hv
    obtain rfl : p = p' := Option.some.inj (hcur.symm.trans hcur')
    have hl : m.live p = true := (hwf.current p hcur).resolve_right (by simp)
    refine ⟨fun q va bytes hm => ?_, ht, fun hc hnever b hmem => ?_⟩
    · rcases List.mem_cons.mp hm with heq | hm
      · cases heq
        exact hwf.lt_of_live hl
      · exact hread q va bytes hm
    · exact hb.read ⟨hl, hn, hval, hppn.trans hp⟩ hoff hc hnever hmem
  | @kernelRead m p v f off n hl hn hv hp hoff =>
    refine ⟨fun q va bytes hm => ?_, ht, fun hc hnever b hmem => ?_⟩
    · rcases List.mem_cons.mp hm with heq | hm
      · cases heq
        exact hwf.lt_of_live hl
      · exact hread q va bytes hm
    · exact hb.read ⟨hl, hn, hv, hp⟩ hoff hc hnever hmem
  | @spawn m child hchild =>
    refine ⟨fun p va bytes hm => Nat.lt_succ_of_lt (hread p va bytes hm), ?_⟩
    refine ht.congr fun p va bytes hm => ?_
    have hne : p ≠ m.numProcesses := Nat.ne_of_lt (hread p va bytes hm)
    simp [View.spawn, hne]
  | _ => exact ⟨fun p va bytes hm => hread p va bytes hm, ht⟩

namespace Kernel

/-- In this run process `p` read `bytes` at `va`, on a stack or argument page to which it
    had not written before. -/
structure FreshRead (k : Kernel) (p va : Nat) (bytes : List UInt8) : Prop where
  stack : (k.process p).numCoffPages ≤ va / pageSize
  read : ∃ later earlier, k.trace = later ++ .read p va bytes :: earlier ∧
    NeverWritten earlier p (va / pageSize)

/-- A read in the history of a run whose reads of unwritten pages return zeros. -/
theorem FreshRead.zero {k : Kernel} {p va : Nat} {bytes : List UInt8} (h : k.FreshRead p va bytes)
    (ht : BlankReads k.view.numCoffPages k.trace) : ∀ b ∈ bytes, b = 0 := by
  obtain ⟨hstack, later, earlier, htrace, hnever⟩ := h
  rw [htrace] at ht
  exact (ht.suffix (List.suffix_append later _)).2 (Nat.not_lt.mpr hstack) hnever

/-- In a run whose fills are clean, every read of an unwritten page returns zeros. -/
theorem run_blankReads {n : Nat} (hn : 0 < n) {ioBlocks : Bool} {ops : List Op} {k : Kernel}
    (h : (initKernel n ioBlocks).run ops = .ok k) (hev : CleanFill k.trace)
    (hswap : k.numSwapPages ≤ maxSwapPages) : BlankReads k.view.numCoffPages k.trace := by
  let I : Phase → View → Prop := fun ph m => WF ph m ∧
    (CleanFill m.trace → m.numSwapPages ≤ maxSwapPages → Coherent m ∧ NoLostMark m.trace ∧
      Slots ph m ∧ Blank ph m ∧ Readers m ∧ BlankReads m.numCoffPages m.trace)
  have hinv : I .quiet k.view := by
    refine run_invariant (I := I) hn ?_ ?_ h
    · refine ⟨wf_initKernel hn ioBlocks, fun _ _ => ⟨?_, ?_, ⟨?_, ?_, ?_, ?_, trivial⟩,
        ⟨?_, ?_, ?_⟩, ?_, trivial⟩⟩
      case refine_7 =>
        intro p v f j hin
        have hvalid := hin.valid
        simp [initKernel, view, pte, TranslationEntry.forget] at hvalid
      all_goals simp [initKernel, view, pte, Coherent, NoLostMark, OnSwap, Readers]
    · intro ph m ph' m' hm hold
      refine ⟨WF.micro hm hold.1, fun hev hnum => ?_⟩
      have hnum₀ := Nat.le_trans hm.numSwapPages_le hnum
      obtain ⟨hco, hmark, hs, hb, hread, ht⟩ := hold.2 (hev.suffix hm.trace_suffix) hnum₀
      have hmark' := hm.noLostMark hco hmark
      exact ⟨Coherent.micro hm hold.1 hco hev.noStale, hmark', Slots.micro hm hold.1 hs hmark',
        Blank.micro hm hold.1 hco hs hb hev hmark' hnum₀, hm.blankReads hold.1 hco hb hread ht⟩
  exact (hinv.2 hev hswap).2.2.2.2.2

/-- Two runs, whatever their processes write: what a process reads from a stack or argument
    page to which it has not written is the same in both, and all zero. -/
theorem run_freshRead {n n' : Nat} (hn : 0 < n) (hn' : 0 < n') {ioBlocks ioBlocks' : Bool}
    {ops ops' : List Op} {k k' : Kernel} (h : (initKernel n ioBlocks).run ops = .ok k)
    (h' : (initKernel n' ioBlocks').run ops' = .ok k') (hev : CleanFill k.trace)
    (hev' : CleanFill k'.trace) (hswap : k.numSwapPages ≤ maxSwapPages)
    (hswap' : k'.numSwapPages ≤ maxSwapPages) {p va : Nat} {bytes bytes' : List UInt8}
    (hread : k.FreshRead p va bytes) (hread' : k'.FreshRead p va bytes')
    (hlen : bytes.length = bytes'.length) : bytes = bytes' ∧ ∀ b ∈ bytes, b = 0 := by
  have hzero := hread.zero (run_blankReads hn h hev hswap)
  have hzero' := hread'.zero (run_blankReads hn' h' hev' hswap')
  refine ⟨?_, hzero⟩
  rw [List.eq_replicate_of_mem hzero, List.eq_replicate_of_mem hzero', hlen]

/-- Is the last event of the run a read by a process that has not written at all? -/
def readsFresh (k : Kernel) (p va : Nat) (bytes : List UInt8) : Bool :=
  decide ((k.process p).numCoffPages ≤ va / pageSize) &&
    (lastRead k.trace).any fun r => r.1 == p && r.2.1 == va && r.2.2.1 == bytes &&
      r.2.2.2.all fun e => !e.isWriteOf p

theorem freshRead_of_readsFresh {k : Kernel} {p va : Nat} {bytes : List UInt8}
    (h : k.readsFresh p va bytes = true) : k.FreshRead p va bytes := by
  simp only [readsFresh, Bool.and_eq_true, decide_eq_true_eq] at h
  obtain ⟨hstack, hlast⟩ := h
  cases hr : lastRead k.trace with
  | none =>
    rw [hr] at hlast
    cases hlast
  | some r =>
    obtain ⟨p', va', bytes', earlier⟩ := r
    rw [hr] at hlast
    simp only [Option.any_some, Bool.and_eq_true, beq_iff_eq] at hlast
    obtain ⟨⟨⟨rfl, rfl⟩, rfl⟩, hothers⟩ := hlast
    exact ⟨hstack, [], earlier, lastRead_eq_some hr, neverWritten_of_all hothers _⟩

/-- One frame: process 0 writes 7, or 5, to the first byte of its page 0 and exits, and
    process 1 reads the first byte of its own page 0 from the same frame. -/
theorem run_freshRead_one_frame :
    ∃ k k', (initKernel 1 true).run [.load emptySections, .load emptySections,
        .contextSwitch (some 0), .kernelWrite 0 0 [7] 0 1, .exit, .kernelRead 1 0 [9] 0 1] = .ok k ∧
      (initKernel 1 true).run [.load emptySections, .load emptySections, .contextSwitch (some 0),
        .kernelWrite 0 0 [5] 0 1, .exit, .kernelRead 1 0 [9] 0 1] = .ok k' ∧
      k.FreshRead 1 0 [0] ∧ k'.FreshRead 1 0 [0] ∧
      [(0 : UInt8)] = [(0 : UInt8)] ∧ ∀ b ∈ [(0 : UInt8)], b = 0 := by
  have htest : ∀ b : UInt8, b = 7 ∨ b = 5 → ∃ k, (initKernel 1 true).run [.load emptySections,
      .load emptySections, .contextSwitch (some 0), .kernelWrite 0 0 [b] 0 1, .exit,
      .kernelRead 1 0 [9] 0 1] = .ok k ∧
      ((k.trace.all fun e => !e.evictsMapped && !e.leavesByte) &&
        decide (k.numSwapPages ≤ maxSwapPages) && k.readsFresh 1 0 [0]) = true := by
    intro b hb
    apply Except.exists_of_map_eq_ok
    rcases hb with rfl | rfl <;> decide +kernel
  obtain ⟨k, hk, hpass⟩ := htest 7 (Or.inl rfl)
  obtain ⟨k', hk', hpass'⟩ := htest 5 (Or.inr rfl)
  simp only [Bool.and_eq_true, List.all_eq_true, Bool.not_eq_true', decide_eq_true_eq] at hpass hpass'
  have hread := freshRead_of_readsFresh hpass.2
  have hread' := freshRead_of_readsFresh hpass'.2
  exact ⟨k, k', hk, hk', hread, hread', run_freshRead (by decide) (by decide) hk hk' hpass.1.1
    hpass'.1.1 hpass.1.2 hpass'.1.2 hread hread' rfl⟩

/-- The same two runs with the last byte of the page: process 1 reads what process 0 wrote. -/
theorem not_freshRead_one_frame :
    ∃ k k', (initKernel 1 true).run [.load emptySections, .load emptySections,
        .contextSwitch (some 0), .kernelWrite 0 1023 [7] 0 1, .exit,
        .kernelRead 1 1023 [9] 0 1] = .ok k ∧
      (initKernel 1 true).run [.load emptySections, .load emptySections, .contextSwitch (some 0),
        .kernelWrite 0 1023 [5] 0 1, .exit, .kernelRead 1 1023 [9] 0 1] = .ok k' ∧
      k.FreshRead 1 1023 [7] ∧ k'.FreshRead 1 1023 [5] := by
  obtain ⟨k, hk, hread⟩ := Except.exists_of_map_eq_ok
    (r := (initKernel 1 true).run [.load emptySections, .load emptySections,
      .contextSwitch (some 0), .kernelWrite 0 1023 [7] 0 1, .exit, .kernelRead 1 1023 [9] 0 1])
    (fun k => k.readsFresh 1 1023 [7]) (by decide +kernel)
  obtain ⟨k', hk', hread'⟩ := Except.exists_of_map_eq_ok
    (r := (initKernel 1 true).run [.load emptySections, .load emptySections,
      .contextSwitch (some 0), .kernelWrite 0 1023 [5] 0 1, .exit, .kernelRead 1 1023 [9] 0 1])
    (fun k => k.readsFresh 1 1023 [5]) (by decide +kernel)
  exact ⟨k, k', hk, hk', freshRead_of_readsFresh hread, freshRead_of_readsFresh hread'⟩

end Kernel

end Nachos
