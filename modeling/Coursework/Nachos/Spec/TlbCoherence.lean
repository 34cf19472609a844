import Coursework.Nachos.Spec.RunChain

/-!
# The TLB agrees with the page table

A valid TLB entry of the running process is a copy of a valid page table entry, as long
as no page is evicted while the TLB maps it. `updateTLB` is meant to handle that case
and does nothing, so a run in which it happens can leave a stale entry behind.
-/

namespace Nachos

/-- `savePage` gave up a page that the TLB of the running process maps: the branch of
    `updateTLB` that should clear a TLB entry is taken. -/
def Event.evictsMapped : Event → Bool
  | .updateTLB _ _ inTLB => inTLB
  | _ => false

/-- No page was evicted while the TLB mapped it. -/
def NoStale (trace : List Event) : Prop := ∀ e ∈ trace, e.evictsMapped = false

theorem NoStale.suffix {trace trace' : List Event} (h : NoStale trace') (hs : trace <:+ trace') :
    NoStale trace := fun e he => h e (hs.mem he)

/-- Every valid TLB entry names the frame that the page table names. -/
def Coherent (m : View) : Prop :=
  ∀ i p, (m.tlb i).valid = true → m.current = some p →
    (m.entry p (m.tlb i).vpn).valid = true ∧ (m.entry p (m.tlb i).vpn).ppn = (m.tlb i).ppn

namespace Coherent

variable {m : View}

/-- Neither memory nor swap is part of the TLB. -/
theorem setData (hco : Coherent m) (memory : Nat → UInt8) (swapFile : HostFile)
    (numSwapPages : Nat) (freeSwap : List Nat) :
    Coherent { m with memory := memory, swapFile := swapFile, numSwapPages := numSwapPages,
                      freeSwap := freeSwap } := hco

/-- A page table entry that is not in the TLB may change. -/
theorem setEntry (hco : Coherent m) {p v : Nat} (e : TranslationEntry)
    (hin : ∀ i, (m.tlb i).valid = true → m.current = some p → (m.tlb i).vpn ≠ v) :
    Coherent (m.setEntry p v e) := by
  intro i q hv hcur
  have hne : ¬ (q = p ∧ (m.tlb i).vpn = v) := by
    rintro ⟨rfl, hvpn⟩
    exact hin i hv hcur hvpn
  simp only [View.setEntry, if_neg hne]
  exact hco i q hv hcur

/-- Setting the dirty bit of an entry keeps its frame. -/
theorem setDirty (hco : Coherent m) (p v : Nat) :
    Coherent (m.setEntry p v { m.entry p v with dirty := true }) := by
  intro i q hv hcur
  obtain ⟨h1, h2⟩ := hco i q hv hcur
  simp only [View.setEntry]
  split
  · rename_i h
    rw [h.1, h.2] at h1 h2
    exact ⟨h1, h2⟩
  · exact ⟨h1, h2⟩

/-- Overwriting a TLB entry with one that agrees with the page table. -/
theorem setTlb (hco : Coherent m) {i : Nat} {e : TranslationEntry}
    (he : e.valid = true → ∀ p, m.current = some p →
      (m.entry p e.vpn).valid = true ∧ (m.entry p e.vpn).ppn = e.ppn) :
    Coherent (m.setTlb i e) := by
  intro j p hv hcur
  simp only [View.setTlb, Function.update_apply] at hv ⊢
  split at hv
  · rename_i h
    simpa [h] using he hv p hcur
  · rename_i h
    simpa [h] using hco j p hv hcur

/-- The page whose frame is being filled is not in the TLB. -/
theorem fill {f p v : Nat} {onSwap : Bool} (hco : Coherent m) (hwf : WF (.filling f p v onSwap) m)
    (e : TranslationEntry) : Coherent (m.setEntry p v e) := by
  refine hco.setEntry e fun i hv hcur hvpn => ?_
  have hinv := hwf.phase.2.2.2.2
  have hval := (hco i p hv hcur).1
  rw [hvpn, hinv] at hval
  simp at hval

/-- A page that `updateTLB` does not find in the TLB may be dropped. -/
theorem drop {q w : Nat} (hco : Coherent m)
    (hwf : ∀ i, (m.tlb i).valid = true → i < tlbSize) (hin : m.inTLB q w = false)
    (e : TranslationEntry) : Coherent (m.setEntry q w e) :=
  hco.setEntry e fun i hv hcur => View.inTLB_eq_false.mp hin i (hwf i hv) hcur hv

/-- A copy of an entry of the running process agrees with it. -/
theorem ofEntry {ph : Phase} (hwf : WF ph m) (hph : ∀ p, ph ≠ .dying p) {p v : Nat}
    (hcur : m.current = some p) (hv : (m.entry p v).valid = true) (q : Nat)
    (hq : m.current = some q) :
    (m.entry q (m.entry p v).vpn).valid = true ∧
      (m.entry q (m.entry p v).vpn).ppn = (m.entry p v).ppn := by
  obtain rfl : p = q := Option.some.inj (hcur.symm.trans hq)
  rw [hwf.index p v ((hwf.current p hcur).resolve_right (hph p))]
  exact ⟨hv, rfl⟩

/-- Every change but the eviction of a mapped page keeps the TLB coherent. -/
theorem micro {ph ph' : Phase} {m' : View} (h : Micro ph m ph' m') (hwf : WF ph m)
    (hco : Coherent m) (hev : NoStale m'.trace) : Coherent m' := by
  have htlb : ∀ i, (m.tlb i).valid = true → i < tlbSize := fun i hi => (hwf.tlb i hi).1
  cases h with
  | note e he => exact hco
  | saveClean hv hd => exact hco.setTlb (by simp)
  | saveDirty before hcur hv hd hb hn => exact (hco.setDirty _ _).setTlb (by simp)
  | newSlot => exact hco.setData _ _ _ _
  | reuseSlot => exact hco.setData _ _ _ _
  | writeSlot => exact hco.setData _ _ _ _
  | dropSaved => exact hco.drop htlb (hev _ List.mem_cons_self) _
  -- a page that leaves while a slot still has it would leave a stale slot: that is the event
  -- excluded
  | dropClean hl hn hv hd hp => exact hco.drop htlb (hev _ List.mem_cons_self) _
  | claimFree => exact hco
  | claimVacant => exact hco
  | fillSwap => exact (hco.fill hwf _).setData _ _ _ _
  | fillCoff hc hs => exact (hco.fill hwf _).setData _ _ _ _
  | fillZero hc hm => exact hco.fill hwf _
  | addTlb hcur hn hv hi hold => exact hco.setTlb fun _ => ofEntry hwf (by simp) hcur hv
  | replaceTlb old hcur hn hv hi hb hold =>
    exact hco.setTlb (i := _) fun _ => ofEntry hwf (by simp) hcur hv
  | userLoad => exact hco
  | @userStore m i p f off bytes hcur hv hp hoff =>
    exact hco.setTlb (e := { m.tlb i with dirty := true }) fun _ q hq => hco i q hv hq
  | touch hl hn hv => exact hco.setDirty _ _
  | kernelRead => exact hco
  | kernelWrite => exact hco
  | @spawn m child hc =>
    intro i p hv hcur
    have hne : p ≠ m.numProcesses := by
      rintro rfl
      have hnew := hwf.fresh _ (Nat.le_refl _)
      rcases hwf.current _ hcur with h | h <;> simp [hnew] at h
    simp only [View.spawn, Function.update_apply, if_neg hne]
    exact hco i p hv hcur
  | kill hl => exact hco
  -- on a switch the buffer is empty
  | leave htlb => intro i p hv; simp [htlb i] at hv
  | switchTo htlb hlive => intro i p hv; simp [htlb i] at hv

end Coherent

namespace Kernel

/-- Every valid TLB entry agrees with the page table of the running process. -/
def TlbCoherent (k : Kernel) : Prop :=
  ∀ i < tlbSize, (k.tlb i).valid = true → ∃ p, k.current = some p ∧
    (k.tlb i).vpn < (k.process p).numPages ∧ (k.pte p (k.tlb i).vpn).valid = true ∧
    (k.pte p (k.tlb i).vpn).ppn = (k.tlb i).ppn

/-- In a run that never evicts a page that the TLB maps, the TLB is coherent. -/
theorem run_tlbCoherent {n : Nat} (hn : 0 < n) {ioBlocks : Bool} {ops : List Op} {k : Kernel}
    (h : (initKernel n ioBlocks).run ops = .ok k) (hev : NoStale k.trace) : TlbCoherent k := by
  have hinv : WF .quiet k.view ∧ (NoStale k.view.trace → Coherent k.view) := by
    refine run_invariant (I := fun ph m => WF ph m ∧ (NoStale m.trace → Coherent m)) hn ?_ ?_ h
    · refine ⟨wf_initKernel hn ioBlocks, fun _ i p hv => ?_⟩
      simp [initKernel, view, TranslationEntry.forget] at hv
    · rintro ph m ph' m' hm ⟨hwf, hco⟩
      refine ⟨WF.micro hm hwf, fun hev => ?_⟩
      exact Coherent.micro hm hwf (hco (hev.suffix hm.trace_suffix)) hev
  obtain ⟨hwf, hco⟩ := hinv
  intro i hi hv
  obtain ⟨-, p, -, hcur, hnp, -⟩ := hwf.tlb i hv
  obtain ⟨hval, hppn⟩ := hco hev i p hv hcur
  exact ⟨p, hcur, hnp, hval, hppn⟩

/-- Two frames hold the two pages, and nothing is evicted. -/
theorem run_tlbCoherent_two_frames :
    ∃ k, (initKernel 2 true).run [.load emptySections, .contextSwitch (some 0),
      .userStore 0 [7] ⟨0, by decide⟩, .userLoad 1024 1 ⟨0, by decide⟩] = .ok k ∧
      TlbCoherent k := by
  obtain ⟨k, hk, htest⟩ := Except.exists_of_map_eq_ok
    (r := (initKernel 2 true).run [.load emptySections, .contextSwitch (some 0),
      .userStore 0 [7] ⟨0, by decide⟩, .userLoad 1024 1 ⟨0, by decide⟩])
    (fun k => k.trace.all fun e => !e.evictsMapped) (by decide +kernel)
  refine ⟨k, hk, run_tlbCoherent (by decide) hk ?_⟩
  simpa [NoStale] using htest

/-- One frame, a load from page 0 and a load from page 1, each with its TLB miss: the
    second fault evicts page 0, and the TLB still maps page 0. -/
theorem not_tlbCoherent_one_frame :
    ∃ k, (initKernel 1 true).run [.load emptySections, .contextSwitch (some 0),
      .userLoad 0 1 ⟨0, by decide⟩, .userLoad 0 1 ⟨0, by decide⟩, .userLoad 1024 1 ⟨0, by decide⟩,
      .userLoad 1024 1 ⟨0, by decide⟩] = .ok k ∧ ¬ TlbCoherent k := by
  obtain ⟨k, hk, htest⟩ := Except.exists_of_map_eq_ok
    (r := (initKernel 1 true).run [.load emptySections, .contextSwitch (some 0),
      .userLoad 0 1 ⟨0, by decide⟩, .userLoad 0 1 ⟨0, by decide⟩, .userLoad 1024 1 ⟨0, by decide⟩,
      .userLoad 1024 1 ⟨0, by decide⟩])
    (fun k => (k.tlb 0).valid && decide (k.current = some 0) &&
      !(k.pte 0 (k.tlb 0).vpn).valid) (by decide +kernel)
  refine ⟨k, hk, fun hco => ?_⟩
  simp only [Bool.and_eq_true, decide_eq_true_eq, Bool.not_eq_true'] at htest
  obtain ⟨⟨hv, hcur⟩, hinv⟩ := htest
  obtain ⟨p, hp, -, hval, -⟩ := hco 0 (by decide) hv
  obtain rfl : 0 = p := Option.some.inj (hcur.symm.trans hp)
  simp [hinv] at hval

end Kernel

end Nachos
