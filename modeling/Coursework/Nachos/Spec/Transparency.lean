import Coursework.Nachos.Spec.StoredBytes

/-!
# Demand paging is transparent

A process that reads a byte it has written gets the byte it wrote last, wherever the
page has been since: in a frame, in a swap slot, or on its way between the two. This
holds of runs that lose no dirty bit (`NoLoss`), as long as the byte addresses of the
swap file fit into a Java `int`.
-/

namespace Nachos

/-- Every read in the history returned the bytes that its process had last written. -/
def Transparent : List Event → Prop
  | [] => True
  | .read p va bytes :: trace => Transparent trace ∧
      ∀ i b, i < bytes.length → lastWrite trace p (va + i) = some b → bytes[i]? = some b
  | _ :: trace => Transparent trace

/-! ## The invariant -/

/-- The bytes a process wrote last are where the page tables say. -/
structure Remembers (ph : Phase) (m : View) : Prop where
  memory : ∀ p v f j b, InFrame m p v f → j < pageSize →
    lastWrite m.trace p (v * pageSize + j) = some b → m.memory (frameAddr f j) = b
  swap : ∀ p v (s : Nat), OnSwap m p v → (m.entry p v).ppn = s →
    (s + 1) * pageSize ≤ m.swapFile.length ∧
    ∀ j b, j < pageSize → lastWrite m.trace p (v * pageSize + j) = some b →
      m.swapFile.slotByte s j = b
  modified : ∀ p v j b, m.live p = true → v < m.numPages p → j < pageSize →
    lastWrite m.trace p (v * pageSize + j) = some b → ¬ Untouched m p v
  process : ∀ p a b, lastWrite m.trace p a = some b → p < m.numProcesses
  phase : ∀ q w f spn, ph = .saving q w f spn true → (spn + 1) * pageSize ≤ m.swapFile.length ∧
    ∀ j < pageSize, m.swapFile.slotByte spn j = m.memory (frameAddr f j)

/-- Only a process that is there writes. -/
theorem Micro.lastWrite_process {ph ph' : Phase} {m m' : View} (h : Micro ph m ph' m')
    (hwf : WF ph m) {p a : Nat} {b : UInt8} (hb : lastWrite m'.trace p a = some b) :
    lastWrite m.trace p a = some b ∨ m.live p = true := by
  cases h with
  | note e he => left; cases e <;> first | exact hb | simp [Event.isPin] at he
  | userStore hcur hv hp hoff =>
    simp only [View.setTlb, View.emit, lastWrite] at hb
    split at hb
    · rename_i heq
      exact Or.inr (heq.1 ▸ (hwf.current _ hcur).resolve_right (by simp))
    · exact Or.inl hb
  | kernelWrite hl hn hv hd hp hoff =>
    simp only [View.emit, lastWrite] at hb
    split at hb
    · rename_i heq
      exact Or.inr (heq.1 ▸ hl)
    · exact Or.inl hb
  | _ => exact Or.inl hb

/-- A process that is there afterwards and was there before has the pages it had. -/
theorem Micro.live_of {ph ph' : Phase} {m m' : View} (h : Micro ph m ph' m') {p : Nat}
    (hlt : p < m.numProcesses) (hl : m'.live p = true) :
    m.live p = true ∧ m'.numPages p = m.numPages p := by
  cases h with
  | spawn hc =>
    have hne : p ≠ m.numProcesses := Nat.ne_of_lt hlt
    simpa [View.spawn, hne] using hl
  | kill =>
    simp only [View.kill, Function.update_apply] at hl
    split at hl
    · simp at hl
    · exact ⟨hl, rfl⟩
  | _ => exact ⟨hl, rfl⟩

namespace Remembers

variable {ph : Phase} {m : View}

/-- The bytes of all pages are those last written. -/
theorem stored (hr : Remembers ph m) : Stored (fun p v j b => ∀ b',
    lastWrite m.trace p (v * pageSize + j) = some b' → b = b') ph m :=
  ⟨fun p v f j hin hj b => hr.memory p v f j b hin hj, fun p v s hon hp =>
    ⟨(hr.swap p v s hon hp).1, fun j hj b => (hr.swap p v s hon hp).2 j b hj⟩, hr.phase⟩

/-- A page that is not filled from swap was never written to. -/
theorem not_written_of_filling {f p v j : Nat} {b : UInt8} (hr : Remembers ph m)
    (hph : ph = .filling f p v false) (hwf : WF ph m) (hco : Coherent m) (hs : Slots ph m)
    (hj : j < pageSize) : lastWrite m.trace p (v * pageSize + j) ≠ some b := by
  subst hph
  obtain ⟨-, -, hl, hn, hinv⟩ := hwf.phase
  intro hb
  refine hr.modified p v j b hl hn hj hb ⟨hs.phase, fun i hv hcur hvpn => ?_⟩
  have := (hco i p hv hcur).1
  rw [hvpn, hinv] at this
  simp at this

/-- Every change remembers what was written, if no dirty bit is lost. -/
theorem micro {ph' : Phase} {m' : View} (h : Micro ph m ph' m') (hwf : WF ph m)
    (hco : Coherent m) (hs : Slots ph m) (hr : Remembers ph m) (hev : NoLoss m'.trace)
    (hmark : NoLostMark m'.trace) (hnum : m.numSwapPages ≤ maxSwapPages) : Remembers ph' m' := by
  have hst : Stored (fun p v j b => ∀ b', lastWrite m'.trace p (v * pageSize + j) = some b' →
      b = b') ph' m' := by
    refine hr.stored.micro h hwf hco hs hmark hnum ?_ ?_ ?_
    · intro p v j b _ _ hlast hok b' hb'
      exact hok b' (hlast.symm.trans hb')
    · intro p v j b _ hb b' hb'
      exact Option.some.inj (hb.symm.trans hb')
    · intro p v f j hph hin hj b' hb'
      exfalso
      rcases h.lastWrite_cases (q := p) (w := v) hco hj with hlast | ⟨hq, -⟩
      · exact hr.not_written_of_filling hph hwf hco hs hj (hlast.symm.trans hb')
      · simp [hph] at hq
  refine ⟨fun p v f j b hin hj => hst.memory p v f j hin hj b, fun p v s hon hp =>
    ⟨(hst.swap p v s hon hp).1, fun j b hj => (hst.swap p v s hon hp).2 j hj b⟩, ?_, ?_, hst.phase⟩
  · intro p v j b hl hn hj hb
    rcases h.lastWrite_cases hco hj with hlast | ⟨-, -, hmod⟩
    · have hb₀ := hlast.symm.trans hb
      have hlt := hr.process p _ b hb₀
      obtain ⟨hl₀, hn₀⟩ := h.live_of hlt hl
      exact fun hu => hr.modified p v j b hl₀ (hn₀ ▸ hn) hj hb₀ (hu.of_micro h hev hlt)
    · exact hmod
  · intro p a b hb
    refine Nat.lt_of_lt_of_le ?_ h.config.1
    rcases h.lastWrite_process hwf hb with hb | hl
    · exact hr.process p a b hb
    · exact hwf.lt_of_live hl

end Remembers

/-- A read from the frame of a page returns what was last written. -/
theorem Remembers.read {ph : Phase} {m : View} (hr : Remembers ph m) {p v f off n : Nat}
    (hin : InFrame m p v f) (hoff : off + n ≤ pageSize) {i : Nat} {b : UInt8} (hi : i < n)
    (hb : lastWrite m.trace p (v * pageSize + off + i) = some b) :
    ((List.range n).map fun j => m.memory (frameAddr f off + j))[i]? = some b := by
  have hmem := hr.memory p v f (off + i) b hin (by omega) (Nat.add_assoc .. ▸ hb)
  have hadr : frameAddr f off + i = frameAddr f (off + i) := by simp only [frameAddr]; omega
  simp [hi, hadr, hmem]

/-- Reads are transparent after every change. -/
theorem Micro.transparent {ph ph' : Phase} {m m' : View} (h : Micro ph m ph' m') (hwf : WF ph m)
    (hco : Coherent m) (hr : Remembers ph m) (ht : Transparent m.trace) :
    Transparent m'.trace := by
  cases h with
  | note e he => cases e <;> first | exact ht | simp [Event.isPin] at he
  | @userLoad m i p f off n hcur hv hp hoff =>
    obtain ⟨hval, hppn⟩ := hco i p hv hcur
    obtain ⟨-, p', -, hcur', hn, -⟩ := hwf.tlb i hv
    obtain rfl : p = p' := Option.some.inj (hcur.symm.trans hcur')
    have hin : InFrame m p (m.tlb i).vpn f :=
      ⟨(hwf.current p hcur).resolve_right (by simp), hn, hval, hppn.trans hp⟩
    refine ⟨ht, fun j b hj hb => ?_⟩
    rw [List.length_map, List.length_range] at hj
    exact hr.read hin hoff hj hb
  | kernelRead hl hn hv hp hoff =>
    refine ⟨ht, fun j b hj hb => ?_⟩
    rw [List.length_map, List.length_range] at hj
    exact hr.read ⟨hl, hn, hv, hp⟩ hoff hj hb
  | _ => exact ht

namespace Kernel

/-- In a run that loses no dirty bit and whose swap file stays below `2^31` bytes, every
    read of a byte the process has written returns the byte it wrote last. -/
theorem run_transparent {n : Nat} (hn : 0 < n) {ioBlocks : Bool} {ops : List Op} {k : Kernel}
    (h : (initKernel n ioBlocks).run ops = .ok k) (hev : NoLoss k.trace)
    (hswap : k.numSwapPages ≤ maxSwapPages) : Transparent k.trace := by
  have hinv : WF .quiet k.view ∧ (NoLoss k.view.trace → k.view.numSwapPages ≤ maxSwapPages →
      Coherent k.view ∧ NoLostMark k.view.trace ∧ Slots .quiet k.view ∧
        Remembers .quiet k.view ∧ Transparent k.view.trace) := by
    refine run_invariant (I := fun ph m => WF ph m ∧
      (NoLoss m.trace → m.numSwapPages ≤ maxSwapPages → Coherent m ∧ NoLostMark m.trace ∧
        Slots ph m ∧ Remembers ph m ∧ Transparent m.trace)) hn ?_ ?_ h
    · refine ⟨wf_initKernel hn ioBlocks, fun _ _ => ⟨?_, ?_, ⟨?_, ?_, ?_, ?_, trivial⟩,
        ⟨?_, ?_, ?_, ?_, ?_⟩, trivial⟩⟩
      all_goals simp [initKernel, view, pte, Coherent, NoLostMark, OnSwap, lastWrite]
    · rintro ph m ph' m' hm ⟨hwf, hold⟩
      refine ⟨WF.micro hm hwf, fun hev hnum => ?_⟩
      have hnum₀ := Nat.le_trans hm.numSwapPages_le hnum
      obtain ⟨hco, hmark, hs, hr, ht⟩ := hold (hev.suffix hm.trace_suffix) hnum₀
      have hmark' := hm.noLostMark hco hmark
      exact ⟨Coherent.micro hm hwf hco hev.noStale, hmark', Slots.micro hm hwf hs hmark',
        Remembers.micro hm hwf hco hs hr hev hmark' hnum₀, hm.transparent hwf hco hr ht⟩
  exact (hinv.2 hev hswap).2.2.2.2

/-- One frame: page 0 is written, goes to swap for page 1, and is read back. -/
theorem run_transparent_one_frame :
    ∃ k, (initKernel 1 true).run [.load emptySections, .kernelWrite 0 0 [7] 0 1,
      .kernelWrite 0 1024 [8] 0 1, .kernelRead 0 0 [0] 0 1] = .ok k ∧ Transparent k.trace := by
  obtain ⟨k, hk, htest⟩ := Except.exists_of_map_eq_ok
    (r := (initKernel 1 true).run [.load emptySections, .kernelWrite 0 0 [7] 0 1,
      .kernelWrite 0 1024 [8] 0 1, .kernelRead 0 0 [0] 0 1])
    (fun k => (k.trace.all fun e => !e.evictsMapped && !e.losesDirty) &&
      decide (k.numSwapPages ≤ maxSwapPages)) (by decide +kernel)
  simp only [Bool.and_eq_true, List.all_eq_true, Bool.not_eq_true', decide_eq_true_eq] at htest
  exact ⟨k, hk, run_transparent (by decide) hk htest.1 htest.2⟩

/-- One frame: the process stores 7 at address 0, loads from page 1, and then loads 0 from
    address 0, through the TLB entry that `updateTLB` should have cleared. -/
theorem not_transparent_one_frame :
    ∃ k, (initKernel 1 true).run [.load emptySections, .contextSwitch (some 0),
      .userStore 0 [7] ⟨0, by decide⟩, .userStore 0 [7] ⟨0, by decide⟩,
      .userLoad 1024 1 ⟨0, by decide⟩, .userLoad 1024 1 ⟨0, by decide⟩,
      .userLoad 0 1 ⟨0, by decide⟩] = .ok k ∧ ¬ Transparent k.trace := by
  obtain ⟨k, hk, htest⟩ := Except.exists_of_map_eq_ok
    (r := (initKernel 1 true).run [.load emptySections, .contextSwitch (some 0),
      .userStore 0 [7] ⟨0, by decide⟩, .userStore 0 [7] ⟨0, by decide⟩,
      .userLoad 1024 1 ⟨0, by decide⟩, .userLoad 1024 1 ⟨0, by decide⟩,
      .userLoad 0 1 ⟨0, by decide⟩])
    (fun k => (lastRead k.trace).any fun r => r.2.2.1 == [0] &&
      lastWrite r.2.2.2 r.1 r.2.1 == some 7) (by decide +kernel)
  refine ⟨k, hk, fun ht => ?_⟩
  cases hr : lastRead k.trace with
  | none =>
    rw [hr] at htest
    cases htest
  | some r =>
    obtain ⟨p, va, bytes, trace⟩ := r
    rw [hr] at htest
    simp only [Option.any_some, Bool.and_eq_true, beq_iff_eq] at htest
    obtain ⟨rfl, hlast⟩ := htest
    rw [lastRead_eq_some hr] at ht
    simpa using ht.2 0 7 (by decide) hlast

end Kernel

end Nachos
