import Coursework.ForStd.Except
import Coursework.Nachos.Spec.PageBytes

/-!
# A TLB miss writes nothing

Whatever `handleTLBMiss` moves, it moves whole pages: no process has written a byte meanwhile,
and the process that missed is still the running one.
-/

namespace Nachos

/-- Is this the event of a write? -/
def Event.isWrite : Event → Bool
  | .wrote .. => true
  | _ => false

namespace Kernel

variable {k k' : Kernel}

/-- No process has written a byte, and the same process is running. -/
structure Silent (k k' : Kernel) : Prop where
  current : k'.current = k.current
  lastWrite : ∀ p a, lastWrite k'.trace p a = lastWrite k.trace p a

/-- Nothing happens. -/
theorem Silent.refl (k : Kernel) : Silent k k := ⟨rfl, fun _ _ => rfl⟩

/-- One thing after the other. -/
theorem Silent.trans {k₁ k₂ k₃ : Kernel} (h : Silent k₁ k₂) (h' : Silent k₂ k₃) : Silent k₁ k₃ :=
  ⟨h'.current.trans h.current, fun p a => (h'.lastWrite p a).trans (h.lastWrite p a)⟩

/-- A change of anything but the running process and the history. -/
theorem Silent.of_same (hcurrent : k'.current = k.current) (htrace : k'.trace = k.trace) :
    Silent k k' := ⟨hcurrent, fun p a => by rw [htrace]⟩

/-- An event other than a write. -/
theorem silent_emit (k : Kernel) {e : Event} (he : e.isWrite = false) : Silent k (k.emit e) := by
  refine ⟨rfl, fun p a => ?_⟩
  cases e <;> first | rfl | cases he

/-- A change of a page table entry. -/
theorem silent_modifyPTE {p v : Nat} {f : TranslationEntry → TranslationEntry}
    (h : k.modifyPTE p v f = .ok k') : Silent k k' := by
  unfold modifyPTE at h
  split at h
  · cases h
    exact Silent.of_same rfl rfl
  · cases h

/-- A change of the inverted page table. -/
theorem silent_modifyFrame {ppn : Int} {f : InvertedBucket → InvertedBucket}
    (h : k.modifyFrame ppn f = .ok k') : Silent k k' := by
  unfold modifyFrame at h
  split at h
  · cases h
    exact Silent.of_same rfl rfl
  · cases h

/-! ## Context switches -/

/-- The dirty bit of a TLB entry is copied to the page table. -/
theorem silent_copyDirty {p : Nat} {entry : TranslationEntry} (h : copyDirty p entry k = .ok k') :
    Silent k k' := by
  unfold copyDirty at h
  split at h
  · exact (silent_emit k rfl).trans (silent_modifyPTE h)
  · cases h
    exact Silent.refl k

/-- The used bit of a TLB entry is copied to the page table. -/
theorem silent_copyUsed {p : Nat} {entry : TranslationEntry} (h : copyUsed p entry k = .ok k') :
    Silent k k' := by
  unfold copyUsed at h
  split at h
  · obtain ⟨k₁, h₁, h⟩ := Except.bind_eq_ok.mp h
    exact (silent_modifyPTE h₁).trans (silent_modifyFrame h)
  · cases h
    exact Silent.refl k

/-- One iteration of `saveState`. -/
theorem silent_saveEntry {p i : Nat} (h : saveEntry p k i = .ok k') : Silent k k' := by
  unfold saveEntry at h
  dsimp only at h
  split at h
  · obtain ⟨k₁, h₁, h⟩ := Except.bind_eq_ok.mp h
    obtain ⟨k₂, h₂, h⟩ := Except.bind_eq_ok.mp h
    cases h
    exact ((silent_copyDirty h₁).trans (silent_copyUsed h₂)).trans (Silent.of_same rfl rfl)
  · cases h
    exact Silent.refl k

/-- File I/O, which may give up the processor; the process goes on when it has it back. -/
theorem silent_delay (h : k.delay = .ok k') : Silent k k' := by
  unfold delay switchOut at h
  split at h
  · split at h
    · exact Except.foldlM_invariant Silent.refl Silent.trans silent_saveEntry h
    · cases h
      exact Silent.refl k
  · cases h
    exact Silent.refl k

/-! ## Eviction -/

/-- A frame is written to the swap file, which is no write of a process. -/
theorem silent_swapWrite (k : Kernel) (spn : Int) (ppn : Nat) : Silent k (k.swapWrite spn ppn) :=
  Silent.of_same rfl rfl

/-- A page is saved. -/
theorem silent_addToSwap {ppn : Int} {spn : Nat} (h : k.addToSwap ppn = .ok (spn, k')) :
    Silent k k' := by
  obtain ⟨⟨slot, k₁⟩, h₁, h⟩ := Except.bind_eq_ok.mp h
  obtain ⟨k₂, h₂, h⟩ := Except.bind_eq_ok.mp h
  obtain ⟨k₃, h₃, h⟩ := Except.bind_eq_ok.mp h
  cases h
  have hbegin : Silent k k₁ := by
    obtain ⟨k₄, h₄, h₁⟩ := Except.bind_eq_ok.mp h₁
    have hpin := silent_modifyFrame h₄
    cases h₁
    refine Silent.trans ?_ hpin
    split <;> exact Silent.of_same rfl rfl
  exact hbegin.trans ((silent_delay h₂).trans
    ((silent_swapWrite k₂ _ _).trans (silent_modifyFrame h₃)))

/-- The page table entry of an evicted page is made invalid. -/
theorem silent_invalidate {p v : Nat} (h : k.invalidate p v = .ok k') : Silent k k' := by
  obtain ⟨k₁, h₁, h⟩ := Except.bind_eq_ok.mp h
  cases h
  exact (silent_modifyPTE h₁).trans (silent_emit k₁ rfl)

/-- A page is evicted, with or without a copy on swap. -/
theorem silent_savePage {p v : Nat} (h : k.savePage p v = .ok k') : Silent k k' := by
  unfold savePage at h
  dsimp only at h
  split at h
  · cases h
  split at h
  · obtain ⟨⟨slot, k₁⟩, h₁, h⟩ := Except.bind_eq_ok.mp h
    obtain ⟨k₂, h₂, h⟩ := Except.bind_eq_ok.mp h
    exact ((silent_addToSwap h₁).trans (silent_modifyPTE h₂)).trans (silent_invalidate h)
  · exact (silent_emit k rfl).trans (silent_invalidate h)

/-- The clock passes over a frame. -/
theorem silent_passOver {c : Nat} (h : k.passOver c = .ok k') : Silent k k' := by
  unfold passOver at h
  dsimp only at h
  split at h
  · cases h
  · obtain ⟨k₁, h₁, h⟩ := Except.bind_eq_ok.mp h
    cases h
    have hframe : Silent k (k.setFrame c { k.invertedPageTable c with used := false }) :=
      Silent.of_same rfl rfl
    exact (hframe.trans (silent_modifyPTE h₁)).trans (Silent.of_same rfl rfl)

/-- A frame is found for a page. -/
theorem silent_getAvailablePage {p v f : Nat} (h : k.getAvailablePage p v = .ok (f, k')) :
    Silent k k' := by
  obtain ⟨⟨found, k₁⟩, h₁, h⟩ := Except.bind_eq_ok.mp h
  have hhand : ∀ (k : Kernel) (c : Nat), Silent k { k with currentPage := c + 1 } :=
    fun _ _ => Silent.of_same rfl rfl
  have hclock : Silent k k₁ := clockLoop_rule (R := Silent) Silent.trans
    (fun k c _ => (hhand k c).trans (silent_emit _ rfl)) hhand silent_passOver h₁
  cases found with
  | none => cases h
  | some g =>
    obtain ⟨k₂, h₂, h⟩ := Except.bind_eq_ok.mp h
    cases h
    refine hclock.trans ?_
    unfold takePage at h₂
    dsimp only at h₂
    split at h₂
    · obtain ⟨k₃, h₃, h₂⟩ := Except.bind_eq_ok.mp h₂
      cases h₂
      unfold evictPage at h₃
      dsimp only at h₃
      split at h₃
      · cases h₃
      · exact (silent_savePage h₃).trans (Silent.of_same rfl rfl)
    · cases h₂
      exact Silent.of_same rfl rfl

/-! ## The fault -/

/-- A page comes back from swap. -/
theorem silent_loadFromSwap {spn : Int} {ppn : Nat} (h : k.loadFromSwap spn ppn = .ok k') :
    Silent k k' := by
  obtain ⟨k₁, h₁, h⟩ := Except.bind_eq_ok.mp h
  obtain ⟨k₂, h₂, h⟩ := Except.bind_eq_ok.mp h
  obtain ⟨k₃, h₃, h⟩ := Except.bind_eq_ok.mp h
  cases h
  have hread : Silent k₂ (k₂.swapRead spn ppn) := Silent.of_same rfl rfl
  exact ((silent_modifyFrame h₁).trans ((silent_delay h₂).trans
    (hread.trans (silent_modifyFrame h₃)))).trans (Silent.of_same rfl rfl)

/-- A page is read from the executable. -/
theorem silent_loadPage {s : CoffSection} {spn : Int} {ppn : Nat}
    (h : k.loadPage s spn ppn = .ok k') : Silent k k' := by
  unfold loadPage at h
  split at h
  · dsimp only at h
    split at h
    · obtain ⟨k₁, h₁, h⟩ := Except.bind_eq_ok.mp h
      cases h
      exact (silent_delay h₁).trans (Silent.of_same rfl rfl)
    · cases h
      exact Silent.of_same rfl rfl
  · cases h

/-- The new page is filled: from swap, from the executable or with zeros. -/
theorem silent_fillPage {ppn p v : Nat} (h : k.fillPage ppn p v = .ok k') : Silent k k' := by
  unfold fillPage at h
  dsimp only at h
  split at h
  · exact silent_loadFromSwap h
  split at h
  · split at h
    · cases h
    · exact silent_loadPage h
  · cases h
    have hzero : Silent k (k.zero ppn) := Silent.of_same rfl rfl
    exact hzero.trans (silent_emit _ rfl)

/-- A page fault of the running process. -/
theorem silent_pageFault {p v : Nat} (h : k.pageFault p v = .ok k') : Silent k k' := by
  obtain ⟨⟨f, k₁⟩, h₁, h⟩ := Except.bind_eq_ok.mp h
  obtain ⟨k₂, h₂, h⟩ := Except.bind_eq_ok.mp h
  exact ((silent_getAvailablePage h₁).trans (silent_fillPage h₂)).trans (silent_modifyPTE h)

/-- An entry of the TLB is overwritten. -/
theorem silent_addToTLB (k : Kernel) (p v : Nat) (random : Fin tlbSize) :
    Silent k (k.addToTLB p v random) := by
  unfold addToTLB
  dsimp only
  split
  · exact (silent_emit k rfl).trans (Silent.of_same rfl rfl)
  · exact Silent.of_same rfl rfl

/-- A TLB miss is handled without a write by any process. -/
theorem silent_handleTLBMiss {p : Nat} {vAddr : Int} {random : Fin tlbSize}
    (h : k.handleTLBMiss p vAddr random = .ok k') : Silent k k' := by
  unfold handleTLBMiss at h
  dsimp only at h
  split at h
  · split at h
    · cases h
      exact silent_addToTLB k _ _ _
    · obtain ⟨k₁, h₁, h⟩ := Except.bind_eq_ok.mp h
      cases h
      exact (silent_pageFault h₁).trans (silent_addToTLB k₁ _ _ _)
  · cases h

end Kernel

end Nachos
