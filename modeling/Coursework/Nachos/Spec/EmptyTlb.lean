import Coursework.Nachos.Spec.Shapes
import Coursework.Nachos.Spec.PageBytes

/-!
# Paging while the TLB is empty

Between system calls nothing fills the TLB, so a context switch finds nothing to save. The paging
code then moves pages without changing the dirty bit of any: only a kernel copy to a process
does, through `verifyVaddr`, and for the pages that it goes to.
-/

namespace Nachos

namespace Kernel

/-- No entry of the TLB is valid. -/
def EmptyTlb (k : Kernel) : Prop := ∀ i, (k.tlb i).valid = false

/-- The processes and their read-only pages have the same bits as before, and no dirty bit was
    lost in the TLB. -/
structure Calm (k k' : Kernel) : Prop where
  tlb : k'.tlb = k.tlb
  numPages : ∀ p, (k'.process p).numPages = (k.process p).numPages
  readOnly : ∀ p v, (k'.pte p v).readOnly = (k.pte p v).readOnly
  dirty : ∀ p v, (k.pte p v).readOnly = true → (k'.pte p v).dirty = (k.pte p v).dirty
  noLoss : NoLoss k.trace → NoLoss k'.trace

variable {k k' : Kernel}

/-- Nothing happens. -/
theorem Calm.refl (k : Kernel) : Calm k k :=
  ⟨rfl, fun _ => rfl, fun _ _ => rfl, fun _ _ _ => rfl, id⟩

/-- One thing after the other. -/
theorem Calm.trans {k₁ k₂ k₃ : Kernel} (h : Calm k₁ k₂) (h' : Calm k₂ k₃) : Calm k₁ k₃ where
  tlb := h'.tlb.trans h.tlb
  numPages p := (h'.numPages p).trans (h.numPages p)
  readOnly p v := (h'.readOnly p v).trans (h.readOnly p v)
  dirty p v hro := (h'.dirty p v ((h.readOnly p v).trans hro)).trans (h.dirty p v hro)
  noLoss hs := h'.noLoss (h.noLoss hs)

/-- The TLB stays empty. -/
theorem Calm.emptyTlb (h : Calm k k') (ht : k.EmptyTlb) : k'.EmptyTlb := by
  intro i
  rw [h.tlb]
  exact ht i

/-- Changes of the frames, of the swap space and of the clock hand. -/
theorem Calm.of_same (htlb : k'.tlb = k.tlb) (hprocess : k'.process = k.process)
    (htrace : k'.trace = k.trace) : Calm k k' := by
  refine ⟨htlb, fun p => ?_, fun p v => ?_, fun p v _ => ?_, fun hs => ?_⟩
  · rw [hprocess]
  · rw [pte, pte, hprocess]
  · rw [pte, pte, hprocess]
  · rw [htrace]
    exact hs

/-- An event that loses no dirty bit. -/
theorem calm_emit (k : Kernel) {e : Event} (hev : e.evictsMapped = false ∧ e.losesDirty = false) :
    Calm k (k.emit e) := by
  refine ⟨rfl, fun _ => rfl, fun _ _ => rfl, fun _ _ _ => rfl, fun hs e' he' => ?_⟩
  rcases List.mem_cons.mp he' with rfl | he'
  · exact hev
  · exact hs e' he'

/-- An assignment to a page table entry changes no size of a page table. -/
theorem numPages_setPTE (k : Kernel) (p v q : Nat) (e : TranslationEntry) :
    ((k.setPTE p v e).process q).numPages = (k.process q).numPages := by
  simp only [setPTE]
  by_cases hq : q = p <;> simp [hq]

/-- Assigning to fields of an entry other than `readOnly`, and `dirty` if it is set. -/
theorem calm_modifyPTE {p v : Nat} {f : TranslationEntry → TranslationEntry}
    (h : k.modifyPTE p v f = .ok k') (hro : ∀ e, (f e).readOnly = e.readOnly)
    (hd : (k.pte p v).readOnly = true → ∀ e, (f e).dirty = e.dirty) : Calm k k' := by
  unfold modifyPTE at h
  split at h
  · cases h
    refine ⟨rfl, fun q => numPages_setPTE k p v q _, fun q w => ?_, fun q w hq => ?_, id⟩
    · rw [pte_setPTE]
      split
      · rename_i hqw
        rw [hqw.1, hqw.2, hro]
      · rfl
    · rw [pte_setPTE]
      split
      · rename_i hqw
        obtain ⟨rfl, rfl⟩ := hqw
        exact hd hq _
      · rfl
  · cases h

/-- A change of the inverted page table. -/
theorem calm_modifyFrame {ppn : Int} {f : InvertedBucket → InvertedBucket}
    (h : k.modifyFrame ppn f = .ok k') : Calm k k' := by
  unfold modifyFrame at h
  split at h
  · cases h
    exact Calm.of_same rfl rfl rfl
  · cases h

/-- A frame is given up. -/
theorem calm_unpin {ppn : Int} (h : k.unpin ppn = .ok k') : Calm k k' := calm_modifyFrame h

/-! ## Context switches -/

/-- An empty TLB has nothing to save. -/
theorem saveState_eq (ht : k.EmptyTlb) {p : Nat} (h : k.saveState p = .ok k') : k' = k := by
  have hloop : k.EmptyTlb → k' = k := by
    apply Except.foldlM_invariant (R := fun k k' : Kernel => k.EmptyTlb → k' = k) _ _ _ h
    · exact fun _ _ => rfl
    · intro k₁ k₂ k₃ h₁ h₂ ht
      have heq := h₁ ht
      rw [h₂ (heq ▸ ht), heq]
    · intro k i k' hi ht
      unfold saveEntry readTLBEntry at hi
      dsimp only at hi
      rw [if_neg (by rw [ht i]; decide)] at hi
      exact (Except.ok.inj hi).symm
  exact hloop ht

/-- A context switch finds nothing to save in an empty TLB. -/
theorem switchOut_eq (ht : k.EmptyTlb) (h : k.switchOut = .ok k') : k' = k := by
  unfold switchOut at h
  split at h
  · exact saveState_eq ht h
  · exact (Except.ok.inj h).symm

/-- File I/O that gives up the processor changes nothing either. -/
theorem delay_eq (ht : k.EmptyTlb) (h : k.delay = .ok k') : k' = k := by
  unfold delay at h
  split at h
  · exact switchOut_eq ht h
  · exact (Except.ok.inj h).symm

/-- An empty TLB maps no page. -/
theorem inTLB_of_emptyTlb (ht : k.EmptyTlb) (p v : Nat) : k.inTLB p v = false := by
  unfold inTLB
  rw [Bool.and_eq_false_iff]
  right
  simp only [List.any_eq_false]
  intro x _ hx
  simp [ht x] at hx

/-! ## Eviction and page faults -/

/-- A slot is chosen and the frame is pinned. -/
theorem calm_addToSwapBegin {ppn : Int} {spn : Nat}
    (h : k.addToSwapBegin ppn = .ok (spn, k')) : Calm k k' := by
  obtain ⟨k₁, h₁, h⟩ := Except.bind_eq_ok.mp h
  have hframe := calm_modifyFrame h₁
  cases h
  refine Calm.trans ?_ hframe
  split <;> exact Calm.of_same rfl rfl rfl

/-- A frame is written to the swap file. -/
theorem calm_swapWrite (k : Kernel) (spn : Int) (ppn : Nat) : Calm k (k.swapWrite spn ppn) :=
  Calm.of_same rfl rfl rfl

/-- A page is saved. The TLB is empty, so that the context switch meanwhile changes no bit. -/
theorem calm_addToSwap (ht : k.EmptyTlb) {ppn : Int} {spn : Nat}
    (h : k.addToSwap ppn = .ok (spn, k')) : Calm k k' := by
  unfold addToSwap at h
  obtain ⟨⟨slot, k₁⟩, h₁, h⟩ := Except.bind_eq_ok.mp h
  obtain ⟨k₂, h₂, h⟩ := Except.bind_eq_ok.mp h
  obtain ⟨k₃, h₃, h⟩ := Except.bind_eq_ok.mp h
  cases h
  have hbegin := calm_addToSwapBegin h₁
  obtain rfl := delay_eq (hbegin.emptyTlb ht) h₂
  exact hbegin.trans ((calm_swapWrite k₂ _ _).trans (calm_unpin h₃))

/-- A page comes back from swap. -/
theorem calm_loadFromSwap (ht : k.EmptyTlb) {spn : Int} {ppn : Nat}
    (h : k.loadFromSwap spn ppn = .ok k') : Calm k k' := by
  obtain ⟨k₁, h₁, h⟩ := Except.bind_eq_ok.mp h
  obtain ⟨k₂, h₂, h⟩ := Except.bind_eq_ok.mp h
  obtain ⟨k₃, h₃, h⟩ := Except.bind_eq_ok.mp h
  cases h
  have hpin := calm_modifyFrame h₁
  obtain rfl := delay_eq (hpin.emptyTlb ht) h₂
  have hread : Calm k₂ (k₂.swapRead spn ppn) := Calm.of_same rfl rfl rfl
  exact (hpin.trans (hread.trans (calm_unpin h₃))).trans (Calm.of_same rfl rfl rfl)

/-- The page table entry of an evicted page is made invalid; its dirty bit says whether it is on
    swap. -/
theorem calm_invalidate (ht : k.EmptyTlb) {p v : Nat} (h : k.invalidate p v = .ok k') :
    Calm k k' := by
  obtain ⟨k₁, h₁, h⟩ := Except.bind_eq_ok.mp h
  cases h
  have hpte := calm_modifyPTE h₁ (fun _ => rfl) fun _ _ => rfl
  have hmapped := inTLB_of_emptyTlb (hpte.emptyTlb ht) p v
  exact hpte.trans (calm_emit k₁ ⟨hmapped, rfl⟩)

/-- A page is evicted, and no TLB entry maps it. -/
theorem calm_savePage (ht : k.EmptyTlb) {p v : Nat} (h : k.savePage p v = .ok k') : Calm k k' := by
  unfold savePage at h
  dsimp only at h
  split at h
  · cases h
  split at h
  · obtain ⟨⟨slot, k₁⟩, h₁, h⟩ := Except.bind_eq_ok.mp h
    obtain ⟨k₂, h₂, h⟩ := Except.bind_eq_ok.mp h
    have hpte := (calm_addToSwap ht h₁).trans (calm_modifyPTE h₂ (fun _ => rfl) fun _ _ => rfl)
    exact hpte.trans (calm_invalidate (hpte.emptyTlb ht) h)
  · have hemit := calm_emit k (e := .dropped p v fun i =>
      k.memory (frameAddr (k.pte p v).ppn.toNat i)) ⟨rfl, rfl⟩
    exact hemit.trans (calm_invalidate (hemit.emptyTlb ht) h)

/-- The clock passes over a frame. -/
theorem calm_passOver {c : Nat} (h : k.passOver c = .ok k') : Calm k k' := by
  unfold passOver at h
  dsimp only at h
  split at h
  · cases h
  · obtain ⟨k₁, h₁, h⟩ := Except.bind_eq_ok.mp h
    cases h
    have hframe : Calm k (k.setFrame c { k.invertedPageTable c with used := false }) :=
      Calm.of_same rfl rfl rfl
    have hpte := hframe.trans (calm_modifyPTE h₁ (fun _ => rfl) fun _ _ => rfl)
    exact hpte.trans (Calm.of_same rfl rfl rfl)

/-- The clock looks for a victim. -/
theorem calm_clockLoop {fuel total : Nat} {notPinned : Bool} {found : Option Nat}
    (h : clockLoop fuel total notPinned k = .ok (found, k')) : Calm k k' := by
  have hhand : ∀ (k : Kernel) (c : Nat), Calm k { k with currentPage := c + 1 } :=
    fun _ _ => Calm.of_same rfl rfl rfl
  exact clockLoop_rule (R := Calm) Calm.trans
    (fun k c _ => (hhand k c).trans (calm_emit _ ⟨rfl, rfl⟩)) hhand calm_passOver h

/-- The victim is saved and its frame goes to the new page. -/
theorem calm_takePage (ht : k.EmptyTlb) {f p v : Nat} (h : k.takePage f p v = .ok k') :
    Calm k k' := by
  unfold takePage at h
  dsimp only at h
  split at h
  · obtain ⟨k₁, h₁, h⟩ := Except.bind_eq_ok.mp h
    cases h
    unfold evictPage at h₁
    dsimp only at h₁
    split at h₁
    · cases h₁
    · exact (calm_savePage ht h₁).trans (Calm.of_same rfl rfl rfl)
  · cases h
    exact Calm.of_same rfl rfl rfl

/-- A frame is found for a page. -/
theorem calm_getAvailablePage (ht : k.EmptyTlb) {p v f : Nat}
    (h : k.getAvailablePage p v = .ok (f, k')) : Calm k k' := by
  obtain ⟨⟨found, k₁⟩, h₁, h⟩ := Except.bind_eq_ok.mp h
  have hclock : Calm k k₁ := calm_clockLoop h₁
  cases found with
  | none => cases h
  | some g =>
    obtain ⟨k₂, h₂, h⟩ := Except.bind_eq_ok.mp h
    cases h
    exact hclock.trans (calm_takePage (hclock.emptyTlb ht) h₂)

/-- The new page is filled: from swap, from the executable or with zeros. -/
theorem calm_fillPage (ht : k.EmptyTlb) {ppn p v : Nat} (h : k.fillPage ppn p v = .ok k') :
    Calm k k' := by
  unfold fillPage at h
  dsimp only at h
  split at h
  · exact calm_loadFromSwap ht h
  split at h
  · split at h
    · cases h
    · unfold loadPage at h
      split at h
      · dsimp only at h
        split at h
        · obtain ⟨k₁, h₁, h⟩ := Except.bind_eq_ok.mp h
          cases h
          obtain rfl := delay_eq ht h₁
          exact Calm.of_same rfl rfl rfl
        · cases h
          exact Calm.of_same rfl rfl rfl
      · cases h
  · cases h
    have hzero : Calm k (k.zero ppn) := Calm.of_same rfl rfl rfl
    exact hzero.trans (calm_emit _ ⟨rfl, rfl⟩)

/-- A page fault outside user mode. -/
theorem calm_pageFault (ht : k.EmptyTlb) {p v : Nat} (h : k.pageFault p v = .ok k') :
    Calm k k' := by
  obtain ⟨⟨f, k₁⟩, h₁, h⟩ := Except.bind_eq_ok.mp h
  obtain ⟨k₂, h₂, h⟩ := Except.bind_eq_ok.mp h
  have hpage := calm_getAvailablePage ht h₁
  have hfill := hpage.trans (calm_fillPage (hpage.emptyTlb ht) h₂)
  exact hfill.trans (calm_modifyPTE h (fun _ => rfl) fun _ _ => rfl)

/-! ## Kernel copies -/

/-- A page is pinned for a kernel copy; it is marked dirty only if the copy writes to it. -/
theorem calm_pinPage {p v : Nat} {write : Bool} (h : pinPage p k v write = .ok k')
    (hclear : write = true → (k.pte p v).readOnly = false) : Calm k k' := by
  obtain ⟨k₁, h₁, h⟩ := Except.bind_eq_ok.mp h
  have hemit := calm_emit k (e := .pin p v (k.pte p v).ppn.toNat
    (k.invertedPageTable (k.pte p v).ppn.toNat).pinned) ⟨rfl, rfl⟩
  have hpin := hemit.trans (calm_modifyFrame h₁)
  cases write with
  | false =>
    cases h
    exact hpin
  | true =>
    rw [if_pos rfl] at h
    refine hpin.trans (calm_modifyPTE h (fun _ => rfl) fun hro => ?_)
    rw [hpin.readOnly, hclear rfl] at hro
    cases hro

/-- `verifyVaddr` brings a page in and pins it. -/
theorem calm_verifyVaddr (ht : k.EmptyTlb) {p v : Nat} {write verified : Bool}
    (h : verifyVaddr p k v write = .ok (verified, k'))
    (hclear : write = true → v < (k.process p).numPages → (k.pte p v).readOnly = false) :
    Calm k k' := by
  unfold verifyVaddr at h
  dsimp only at h
  split at h
  · cases h
    exact Calm.refl k
  rename_i hpage
  split at h
  · have h : (pinPage p k v write >>= fun k => .ok (true, k)) = .ok (verified, k') := h
    obtain ⟨k₁, h₁, h⟩ := Except.bind_eq_ok.mp h
    cases h
    exact calm_pinPage h₁ fun hw => hclear hw (Nat.lt_of_not_le hpage)
  · obtain ⟨k₁, h₁, h⟩ := Except.bind_eq_ok.mp h
    obtain ⟨k₂, h₂, h⟩ := Except.bind_eq_ok.mp h
    cases h
    have hfault := calm_pageFault ht h₁
    refine hfault.trans (calm_pinPage h₂ fun hw => ?_)
    rw [hfault.readOnly]
    exact hclear hw (Nat.lt_of_not_le hpage)

/-- `System.arraycopy` between a frame and the buffer. -/
theorem calm_arraycopy {write : Bool} {p va n : Nat} {physicalAddr dataPos : Int}
    {data data' : List UInt8}
    (h : k.arraycopy write p va physicalAddr dataPos n data = .ok (k', data')) : Calm k k' := by
  unfold arraycopy at h
  dsimp only at h
  split at h
  · split at h
    · cases h
      have hmemory : Calm k { k with memory := blit k.memory physicalAddr.toNat n fun i =>
          ((data.drop dataPos.toNat).take n).getD i 0 } := Calm.of_same rfl rfl rfl
      exact hmemory.trans (calm_emit _ ⟨rfl, rfl⟩)
    · cases h
      exact calm_emit k ⟨rfl, rfl⟩
  · cases h

/-- The pages that a copy comes to are not read-only if it writes. -/
def CopyClear (k : Kernel) (write : Bool) (p : Nat) (vaddr : Int) (length : Nat) : Prop :=
  write = true → ∀ byteNum : Nat, byteNum < max length 1 →
    pageFromAddress (vaddr + byteNum) < (k.process p).numPages →
    (k.pte p (pageFromAddress (vaddr + byteNum))).readOnly = false

/-- A copy that goes to no read-only page does not after a calm step either. -/
theorem CopyClear.calm {write : Bool} {p length : Nat} {vaddr : Int}
    (h : CopyClear k write p vaddr length) (hcalm : Calm k k') :
    CopyClear k' write p vaddr length := by
  intro hw byteNum hb hpage
  rw [hcalm.readOnly]
  apply h hw byteNum hb
  rwa [hcalm.numPages] at hpage

/-- The loop of a kernel copy, by induction on its iterations. -/
theorem calm_copyLoop {write : Bool} {p : Nat} {vaddr offset : Int} {length fuel : Nat} :
    ∀ {byteNum n : Nat} {k : Kernel} {data data' : List UInt8}, k.EmptyTlb →
    CopyClear k write p vaddr length → byteNum < max length 1 →
    copyLoop (verifyVaddr p) (verifyClean p) write p vaddr offset length fuel byteNum k data =
      .ok (n, k', data') → Calm k k' := by
  induction fuel with
  | zero =>
    intro byteNum n k data data' _ _ _ h
    cases h
  | succ fuel ih =>
    intro byteNum n k data data' ht hclear hb h
    unfold copyLoop at h
    dsimp only at h
    obtain ⟨⟨verified, k₁⟩, h₁, h⟩ := Except.bind_eq_ok.mp h
    have hverify := calm_verifyVaddr ht h₁ fun hw => hclear hw byteNum hb
    cases verified with
    | false =>
      cases h
      exact hverify
    | true =>
      obtain ⟨⟨k₂, data₂⟩, h₂, h⟩ := Except.bind_eq_ok.mp h
      obtain ⟨k₃, h₃, h⟩ := Except.bind_eq_ok.mp h
      have hcopy : Calm k k₃ := (hverify.trans (calm_arraycopy h₂)).trans (calm_unpin h₃)
      dsimp only at h
      split at h
      · rename_i hmore
        exact hcopy.trans (ih (hcopy.emptyTlb ht) (hclear.calm hcopy)
          (Nat.lt_of_lt_of_le hmore (Nat.le_max_left _ _)) h)
      · cases h
        exact hcopy

/-- A kernel copy between system calls that goes to no read-only page. -/
theorem calm_copyVirtualMemory (ht : k.EmptyTlb) {write : Bool} {p n : Nat}
    {vaddr offset length : Int} {data data' : List UInt8}
    (hclear : 0 ≤ vaddr → vaddr < wrap32 ((k.process p).numPages * (pageSize - 1 : Nat)) →
      CopyClear k write p vaddr length.toNat)
    (h : copyVirtualMemory (verifyVaddr p) (verifyClean p) write k p vaddr data offset length =
      .ok (n, k', data')) : Calm k k' := by
  unfold copyVirtualMemory at h
  split at h
  · cases h
    exact Calm.refl k
  split at h
  · cases h
    exact Calm.refl k
  · rename_i hbounds
    exact calm_copyLoop ht (hclear (by omega) (by omega))
      (Nat.lt_of_lt_of_le Nat.one_pos (Nat.le_max_right _ _)) h

/-! ## Exit -/

/-- The exit of a process gives up frames. -/
theorem calm_handleExit (ht : k.EmptyTlb) {p : Nat} (h : k.handleExit p = .ok k') : Calm k k' := by
  unfold handleExit at h
  obtain ⟨k₁, h₁, h⟩ := Except.bind_eq_ok.mp h
  obtain ⟨k₂, h₂, h⟩ := Except.bind_eq_ok.mp h
  cases h
  have hunload : Calm k k₁ := by
    apply Except.foldlM_invariant (R := Calm) Calm.refl Calm.trans _ h₁
    intro k i k' hi
    unfold unloadPage at hi
    split at hi
    · exact calm_modifyFrame hi
    · cases hi
      exact Calm.refl k
  have hdead : Calm k₁ { k₁ with
      process := Function.update k₁.process p { k₁.process p with live := false } } := by
    refine ⟨rfl, fun q => ?_, fun q w => ?_, fun q w _ => ?_, id⟩
    · by_cases hq : q = p <;> simp [hq]
    · by_cases hq : q = p <;> simp [pte, hq]
    · by_cases hq : q = p <;> simp [pte, hq]
  have hall := hunload.trans hdead
  have heq := switchOut_eq (hall.emptyTlb ht) h₂
  rw [heq]
  exact hall.trans (Calm.of_same rfl rfl rfl)

end Kernel

end Nachos
