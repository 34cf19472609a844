import Coursework.ForStd.Except
import Coursework.Nachos.Spec.Windows
import Coursework.Nachos.Spec.RunChain

/-!
# The tables under the paging functions

What each function of the paging code does to the part of the kernel state that decides
who has which frame, and that it only adds to the history. Most leave the tables alone
(`Same`); each of the others has an equation for `Kernel.shape`.
-/

namespace Nachos

open Except (bind_eq_ok)

/-- The frame a translation entry maps its page to. -/
def TranslationEntry.mapped (e : TranslationEntry) : Option Int :=
  bif e.valid then some e.ppn else none

/-- An entry maps its page to a frame iff it is valid and names it. -/
theorem TranslationEntry.mapped_eq_some {e : TranslationEntry} {ppn : Int} :
    e.mapped = some ppn ↔ e.valid = true ∧ e.ppn = ppn := by
  cases h : e.valid <;> simp [mapped, h]

/-- An entry maps its page to no frame iff it is not valid. -/
theorem TranslationEntry.mapped_eq_none {e : TranslationEntry} :
    e.mapped = none ↔ e.valid = false := by
  cases h : e.valid <;> simp [mapped, h]

/-- The used and the dirty bit do not matter to it. -/
theorem TranslationEntry.mapped_congr {e e' : TranslationEntry} (hv : e.valid = e'.valid)
    (hp : e.ppn = e'.ppn) : e.mapped = e'.mapped := by
  rw [mapped, mapped, hv, hp]

/-- A bucket is assigned iff it has an owner. -/
theorem InvertedBucket.assigned_of_owner {b b' : InvertedBucket} (h : b.owner = b'.owner) :
    b.assigned = b'.assigned := by
  have h := congrArg Option.isSome h
  revert h
  cases hb : b.assigned <;> cases hb' : b'.assigned <;> simp [owner, hb, hb']

namespace Kernel

/-- The tables as the threads see them. -/
def shape (k : Kernel) : Shape where
  numPhysPages := k.numPhysPages
  owner := fun f => (k.invertedPageTable f).owner
  pinned := fun f => (k.invertedPageTable f).pinned
  entry := fun p v => (k.pte p v).mapped
  numPages := fun p => (k.process p).numPages
  live := fun p => (k.process p).live
  numProcesses := k.numProcesses
  current := k.current

/-- The tables are unchanged, and history was added to. -/
structure Same (k k' : Kernel) : Prop where
  shape : k'.shape = k.shape
  trace : k.trace <:+ k'.trace

/-- Nothing happens. -/
theorem Same.refl (k : Kernel) : Same k k := ⟨rfl, List.suffix_rfl⟩

/-- One thing after the other. -/
theorem Same.trans {k₁ k₂ k₃ : Kernel} (h : Same k₁ k₂) (h' : Same k₂ k₃) : Same k₁ k₃ :=
  ⟨h'.shape.trans h.shape, h.trace.trans h'.trace⟩

/-! ## Updates of the tables -/

/-- A page table entry that is there is replaced. -/
theorem modifyPTE_eq_ok {k k' : Kernel} {p v : Nat} {f : TranslationEntry → TranslationEntry}
    (h : k.modifyPTE p v f = .ok k') :
    v < (k.process p).numPages ∧ k' = k.setPTE p v (f (k.pte p v)) := by
  unfold modifyPTE at h
  split at h
  · exact ⟨‹_›, (Except.ok.inj h).symm⟩
  · simp at h

/-- A bucket of the inverted page table that is there is replaced. -/
theorem modifyFrame_eq_ok {k k' : Kernel} {ppn : Int} {g : InvertedBucket → InvertedBucket}
    (h : k.modifyFrame ppn g = .ok k') :
    0 ≤ ppn ∧ ppn < k.numPhysPages ∧
      k' = k.setFrame ppn.toNat (g (k.invertedPageTable ppn.toNat)) := by
  unfold modifyFrame at h
  split at h
  · rename_i hb
    exact ⟨hb.1, hb.2, (Except.ok.inj h).symm⟩
  · simp at h

/-- The other entries of all page tables stay. -/
theorem pte_setPTE (k : Kernel) (p v : Nat) (e : TranslationEntry) (q w : Nat) :
    (k.setPTE p v e).pte q w = if q = p ∧ w = v then e else k.pte q w := by
  by_cases hq : q = p <;> by_cases hw : w = v <;> simp [setPTE, pte, hq, hw]

/-- Of an entry only its frame counts. -/
theorem shape_setPTE (k : Kernel) (p v : Nat) (e : TranslationEntry) :
    (k.setPTE p v e).shape = k.shape.setEntry p v e.mapped := by
  simp only [shape, Shape.setEntry, pte_setPTE, Shape.mk.injEq]
  refine ⟨rfl, rfl, rfl, ?_, ?_, ?_, rfl, rfl⟩
  · funext q w
    split <;> rfl
  · funext q
    by_cases hq : q = p <;> simp [setPTE, hq]
  · funext q
    by_cases hq : q = p <;> simp [setPTE, hq]

/-- Of a bucket its owner and its pin count. -/
theorem shape_setFrame (k : Kernel) (f : Nat) (b : InvertedBucket) :
    (k.setFrame f b).shape = (k.shape.setOwner f b.owner).setPinned f b.pinned := by
  simp only [shape, setFrame, Shape.setOwner, Shape.setPinned, Shape.mk.injEq, true_and]
  refine ⟨?_, ?_, rfl, trivial⟩ <;> funext g <;> by_cases hg : g = f <;> simp [hg]

/-- Assigning to the other fields of an entry than its valid bit and its frame. -/
theorem same_modifyPTE {k k' : Kernel} {p v : Nat} {f : TranslationEntry → TranslationEntry}
    (h : k.modifyPTE p v f = .ok k') (hv : ∀ e, (f e).valid = e.valid)
    (hp : ∀ e, (f e).ppn = e.ppn) : Same k k' := by
  obtain ⟨-, rfl⟩ := modifyPTE_eq_ok h
  refine ⟨?_, List.suffix_rfl⟩
  rw [shape_setPTE, TranslationEntry.mapped_congr (hv _) (hp _)]
  simp only [Shape.setEntry, shape, Shape.mk.injEq, true_and, and_true]
  funext q w
  by_cases h : q = p ∧ w = v
  · rw [if_pos h, h.1, h.2]
  · rw [if_neg h]

/-- A bucket that keeps its owner. -/
theorem shape_setFrame_pinned {k : Kernel} {f : Nat} {b : InvertedBucket}
    (ho : b.owner = (k.invertedPageTable f).owner) :
    (k.setFrame f b).shape = k.shape.setPinned f b.pinned := by
  rw [shape_setFrame, ho]
  simp only [Shape.setPinned, Shape.setOwner, shape, Shape.mk.injEq, true_and, and_true]
  exact Function.update_eq_self f fun g => (k.invertedPageTable g).owner

/-- A bucket that keeps its owner and its pin. -/
theorem same_setFrame {k : Kernel} {f : Nat} {b : InvertedBucket}
    (ho : b.owner = (k.invertedPageTable f).owner)
    (hp : b.pinned = (k.invertedPageTable f).pinned) : Same k (k.setFrame f b) := by
  refine ⟨?_, List.suffix_rfl⟩
  rw [shape_setFrame_pinned ho, hp]
  simp only [Shape.setPinned, shape, Shape.mk.injEq, true_and, and_true]
  exact Function.update_eq_self f fun g => (k.invertedPageTable g).pinned

/-- An event is recorded. -/
theorem same_emit (k : Kernel) (e : Event) : Same k (k.emit e) := ⟨rfl, List.suffix_cons _ _⟩

/-! ## Functions that leave the tables alone -/

/-- The dirty bit of a TLB entry is copied to the page table. -/
theorem same_copyDirty {k k' : Kernel} {p : Nat} {entry : TranslationEntry}
    (h : copyDirty p entry k = .ok k') : Same k k' := by
  unfold copyDirty at h
  split at h
  · exact (same_emit k _).trans (same_modifyPTE h (fun _ => rfl) fun _ => rfl)
  · obtain rfl := Except.ok.inj h
    exact Same.refl k

/-- The used bit of a TLB entry is copied to the page table. -/
theorem same_copyUsed {k k' : Kernel} {p : Nat} {entry : TranslationEntry}
    (h : copyUsed p entry k = .ok k') : Same k k' := by
  unfold copyUsed at h
  split at h
  · rw [bind_eq_ok] at h
    obtain ⟨k₁, h₁, h₂⟩ := h
    have hs₁ := same_modifyPTE h₁ (fun _ => rfl) fun _ => rfl
    obtain ⟨-, -, rfl⟩ := modifyFrame_eq_ok h₂
    exact hs₁.trans (same_setFrame (b := { k₁.invertedPageTable entry.ppn.toNat with used := true })
      rfl rfl)
  · obtain rfl := Except.ok.inj h
    exact Same.refl k

/-- One iteration of `saveState`: two bits are copied and the TLB entry is cleared. -/
theorem same_saveEntry {k k' : Kernel} {p i : Nat} (h : saveEntry p k i = .ok k') : Same k k' := by
  unfold saveEntry at h
  dsimp only at h
  split at h
  · simp only [bind_eq_ok] at h
    obtain ⟨k₁, h₁, k₂, h₂, h₃⟩ := h
    obtain rfl := Except.ok.inj h₃
    exact ((same_copyDirty h₁).trans (same_copyUsed h₂)).trans ⟨rfl, List.suffix_rfl⟩
  · obtain rfl := Except.ok.inj h
    exact Same.refl k

/-- A context switch in the middle of an operation. -/
theorem same_switchOut {k k' : Kernel} (h : k.switchOut = .ok k') : Same k k' := by
  unfold switchOut at h
  split at h
  · exact Except.foldlM_invariant Same.refl Same.trans same_saveEntry h
  · obtain rfl := Except.ok.inj h
    exact Same.refl k

/-- File I/O, which may give up the processor. -/
theorem same_delay {k k' : Kernel} (h : k.delay = .ok k') : Same k k' := by
  unfold delay at h
  split at h
  · exact same_switchOut h
  · obtain rfl := Except.ok.inj h
    exact Same.refl k

/-- A frame is written to the swap file. -/
theorem same_swapWrite (k : Kernel) (spn : Int) (ppn : Nat) : Same k (k.swapWrite spn ppn) := by
  unfold swapWrite
  exact ⟨rfl, List.suffix_rfl⟩

/-- A frame is read from the swap file. -/
theorem same_swapRead (k : Kernel) (spn : Int) (ppn : Nat) : Same k (k.swapRead spn ppn) := by
  unfold swapRead
  exact ⟨rfl, List.suffix_rfl⟩

/-- An entry of the TLB is overwritten. -/
theorem same_addToTLB (k : Kernel) (p v : Nat) (random : Fin tlbSize) :
    Same k (k.addToTLB p v random) := by
  unfold addToTLB
  dsimp only
  split
  · exact ⟨rfl, List.suffix_cons _ _⟩
  · exact ⟨rfl, List.suffix_rfl⟩

/-- A load changes the used bit of its TLB entry. -/
theorem same_readMem {k k' : Kernel} {p : Nat} {vaddr : Int} {size : Nat}
    (h : k.readMem p vaddr size = .ok k') : Same k k' := by
  unfold readMem at h
  rw [bind_eq_ok] at h
  obtain ⟨⟨paddr, k₁⟩, h₁, h₂⟩ := h
  obtain ⟨-, i, f, -, -, -, -, -, rfl⟩ := translate_spec h₁
  obtain rfl := Except.ok.inj h₂
  exact ⟨rfl, List.suffix_cons _ _⟩

/-- A store changes a frame and the bits of its TLB entry. -/
theorem same_writeMem {k k' : Kernel} {p : Nat} {vaddr : Int} {bytes : List UInt8}
    (h : k.writeMem p vaddr bytes = .ok k') : Same k k' := by
  unfold writeMem at h
  rw [bind_eq_ok] at h
  obtain ⟨⟨paddr, k₁⟩, h₁, h₂⟩ := h
  obtain ⟨-, i, f, -, -, -, -, -, rfl⟩ := translate_spec h₁
  obtain rfl := Except.ok.inj h₂
  exact ⟨rfl, List.suffix_cons _ _⟩

/-- `System.arraycopy` between a frame and the buffer. -/
theorem same_arraycopy {k k' : Kernel} {write : Bool} {p va n : Nat} {physicalAddr dataPos : Int}
    {data data' : List UInt8}
    (h : k.arraycopy write p va physicalAddr dataPos n data = .ok (k', data')) : Same k k' := by
  unfold arraycopy at h
  split at h
  · dsimp only at h
    split at h
    · obtain ⟨rfl, -⟩ := Prod.mk.inj (Except.ok.inj h)
      exact ⟨rfl, List.suffix_cons _ _⟩
    · obtain ⟨rfl, -⟩ := Prod.mk.inj (Except.ok.inj h)
      exact ⟨rfl, List.suffix_cons _ _⟩
  · simp at h

/-- The clock passes over a frame and clears its used bit. -/
theorem same_passOver {k k' : Kernel} {c : Nat} (h : k.passOver c = .ok k') : Same k k' := by
  unfold passOver at h
  dsimp only at h
  split at h
  · simp at h
  · rw [bind_eq_ok] at h
    obtain ⟨k₁, h₁, h₂⟩ := h
    obtain rfl := Except.ok.inj h₂
    have hframe : Same k (k.setFrame c { k.invertedPageTable c with used := false }) :=
      same_setFrame rfl rfl
    exact (hframe.trans (same_modifyPTE h₁ (fun _ => rfl) fun _ => rfl)).trans
      ⟨rfl, List.suffix_rfl⟩

/-- The clock looks for a victim. -/
theorem same_clockLoop {fuel total : Nat} {notPinned : Bool} {k k' : Kernel} {r : Option Nat}
    (h : clockLoop fuel total notPinned k = .ok (r, k')) : Same k k' :=
  clockLoop_rule (R := Same) Same.trans (fun _ _ _ => ⟨rfl, List.suffix_cons _ _⟩)
    (fun _ _ => ⟨rfl, List.suffix_rfl⟩) same_passOver h

/-- The clock hands out a frame without an owner, whether it is pinned or not, or a frame
    that has an owner and is not pinned. -/
theorem clockLoop_found {fuel : Nat} :
    ∀ {total : Nat} {notPinned : Bool} {k k' : Kernel} {f : Nat}, 0 < k.numPhysPages →
    clockLoop fuel total notPinned k = .ok (some f, k') → f < k.numPhysPages ∧
      ((k.invertedPageTable f).assigned = false ∧ .claim f (k.shape.pinned f) ∈ k'.trace ∨
        (k.invertedPageTable f).assigned = true ∧ k.shape.pinned f = false) := by
  induction fuel with
  | zero => intro _ _ _ _ _ _ h; simp [clockLoop] at h
  | succ fuel ih =>
    intro total notPinned k k' f hpos h
    have hc : k.currentPage % k.numPhysPages < k.numPhysPages := Nat.mod_lt _ hpos
    unfold clockLoop at h
    dsimp only at h
    -- three cases for the frame under the hand: unassigned, a victim, or passed over
    generalize k.currentPage % k.numPhysPages = c at h hc
    split at h
    · rename_i ha
      cases h
      exact ⟨hc, Or.inl ⟨by simpa using ha, List.mem_cons_self⟩⟩
    rename_i ha
    split at h
    · rename_i hb
      cases h
      simp only [Bool.and_eq_true, Bool.not_eq_true'] at hb
      exact ⟨hc, Or.inr ⟨by simpa using ha, hb.1⟩⟩
    rw [bind_eq_ok] at h
    obtain ⟨k₁, h₁, h⟩ := h
    have hs₁ := same_passOver h₁
    split at h
    · cases h
    · have hphys : k₁.numPhysPages = k.numPhysPages := congrArg Shape.numPhysPages hs₁.shape
      obtain ⟨hlt, hcase⟩ := ih (hphys ▸ hpos) h
      -- passing over changes the clock bit, not the owner
      have hown : (k₁.invertedPageTable f).owner = (k.invertedPageTable f).owner :=
        congrFun (congrArg Shape.owner hs₁.shape) f
      have has := InvertedBucket.assigned_of_owner hown
      rw [hs₁.shape, has] at hcase
      exact ⟨hphys ▸ hlt, hcase⟩

/-! ## Functions that change the tables -/

/-- The frame of a page that is saved is pinned. -/
theorem shape_addToSwapBegin {k k' : Kernel} {ppn : Int} {spn : Nat}
    (h : k.addToSwapBegin ppn = .ok (spn, k')) :
    k'.shape = k.shape.setPinned ppn.toNat true ∧ k'.trace = k.trace := by
  unfold addToSwapBegin at h
  cases hmin : k.freeSwap.min? with
  | none =>
    simp only [hmin, bind_eq_ok] at h
    obtain ⟨k₁, h₁, h₂⟩ := h
    obtain ⟨-, rfl⟩ := Prod.mk.inj (Except.ok.inj h₂)
    obtain ⟨-, -, rfl⟩ := modifyFrame_eq_ok h₁
    exact ⟨shape_setFrame_pinned rfl, rfl⟩
  | some s =>
    simp only [hmin, bind_eq_ok] at h
    obtain ⟨k₁, h₁, h₂⟩ := h
    obtain ⟨-, rfl⟩ := Prod.mk.inj (Except.ok.inj h₂)
    obtain ⟨-, -, rfl⟩ := modifyFrame_eq_ok h₁
    exact ⟨shape_setFrame_pinned rfl, rfl⟩

/-- A frame is given up. -/
theorem shape_unpin {k k' : Kernel} {ppn : Int} (h : k.unpin ppn = .ok k') :
    k'.shape = k.shape.setPinned ppn.toNat false ∧ k'.trace = k.trace := by
  obtain ⟨-, -, rfl⟩ := modifyFrame_eq_ok h
  exact ⟨shape_setFrame_pinned rfl, rfl⟩

/-- The entry of an evicted page maps it to no frame. -/
theorem shape_invalidate {k k' : Kernel} {q w : Nat} (h : k.invalidate q w = .ok k') :
    k'.shape = k.shape.setEntry q w none ∧ k.trace <:+ k'.trace := by
  unfold invalidate at h
  rw [bind_eq_ok] at h
  obtain ⟨k₁, h₁, h₂⟩ := h
  obtain ⟨-, rfl⟩ := modifyPTE_eq_ok h₁
  obtain rfl := Except.ok.inj h₂
  exact ⟨shape_setPTE k q w { k.pte q w with valid := false }, List.suffix_cons _ _⟩

/-- A frame goes to a page; its pin stays as it was. -/
theorem shape_assignPage (k : Kernel) (f p v : Nat) :
    (k.assignPage f p v).shape = k.shape.setOwner f (some (some p, v)) := by
  unfold assignPage
  rw [shape_setFrame]
  simp only [Shape.setPinned, Shape.setOwner, shape, Shape.mk.injEq, true_and, and_true]
  exact ⟨rfl, Function.update_eq_self f fun g => (k.invertedPageTable g).pinned⟩

/-- `initializePage` of a page that is not on swap. -/
theorem shape_initializePage {k k' : Kernel} {f p v : Nat} (hd : (k.pte p v).dirty = false)
    (h : k.initializePage f p v = .ok k') :
    k'.shape = k.shape.setEntry p v (some (f : Int)) ∧ k.trace <:+ k'.trace := by
  unfold initializePage at h
  rw [bind_eq_ok] at h
  obtain ⟨k₁, h₁, h₂⟩ := h
  have hs₁ : Same k k₁ := by
    simp only [fillPage, hd, Bool.false_eq_true, if_false] at h₁
    split at h₁
    · split at h₁
      · simp at h₁
      · unfold loadPage at h₁
        split at h₁
        · dsimp only at h₁
          split at h₁
          · rw [bind_eq_ok] at h₁
            obtain ⟨k₂, hdelay, h₃⟩ := h₁
            obtain rfl := Except.ok.inj h₃
            exact (same_delay hdelay).trans ⟨rfl, List.suffix_rfl⟩
          · obtain rfl := Except.ok.inj h₁
            exact ⟨rfl, List.suffix_rfl⟩
        · simp at h₁
    · obtain rfl := Except.ok.inj h₁
      exact ⟨rfl, List.suffix_cons _ _⟩
  obtain ⟨-, rfl⟩ := modifyPTE_eq_ok h₂
  refine ⟨?_, hs₁.trace⟩
  rw [shape_setPTE, hs₁.shape]
  rfl

/-- `pinPage` pins the frame of the page and says whether it was pinned. -/
theorem shape_pinPage {k k' : Kernel} {p v : Nat} {write : Bool}
    (h : pinPage p k v write = .ok k') :
    k'.shape = k.shape.setPinned (k.pte p v).ppn.toNat true ∧ k.trace <:+ k'.trace ∧
      .pin p v (k.pte p v).ppn.toNat (k.shape.pinned (k.pte p v).ppn.toNat) ∈ k'.trace := by
  unfold pinPage at h
  dsimp only at h
  rw [bind_eq_ok] at h
  obtain ⟨k₁, h₁, h₂⟩ := h
  obtain ⟨-, -, rfl⟩ := modifyFrame_eq_ok h₁
  have hs : ∀ {b : InvertedBucket}, b.owner = (k.invertedPageTable (k.pte p v).ppn.toNat).owner →
      ((k.emit (.pin p v (k.pte p v).ppn.toNat
        (k.invertedPageTable (k.pte p v).ppn.toNat).pinned)).setFrame (k.pte p v).ppn.toNat b).shape =
        k.shape.setPinned (k.pte p v).ppn.toNat b.pinned := fun ho => shape_setFrame_pinned ho
  split at h₂
  · have hs₂ := same_modifyPTE h₂ (fun _ => rfl) fun _ => rfl
    refine ⟨hs₂.shape.trans (hs rfl), (List.suffix_cons _ _).trans hs₂.trace,
      hs₂.trace.mem List.mem_cons_self⟩
  · obtain rfl := Except.ok.inj h₂
    exact ⟨hs rfl, List.suffix_cons _ _, List.mem_cons_self⟩

/-- `unloadSections` records nothing. -/
theorem unloadPage_trace {k k' : Kernel} {p i : Nat} (h : unloadPage p k i = .ok k') :
    k'.trace = k.trace := by
  unfold unloadPage at h
  split at h
  · obtain ⟨-, -, rfl⟩ := modifyFrame_eq_ok h
    rfl
  · obtain rfl := Except.ok.inj h
    rfl

/-- An exit only adds to the history. -/
theorem handleExit_trace {k k' : Kernel} {p : Nat} (h : k.handleExit p = .ok k') :
    k.trace <:+ k'.trace := by
  simp only [handleExit, unloadSections, bind_eq_ok] at h
  obtain ⟨k₁, h₁, k₂, h₂, h₃⟩ := h
  obtain rfl := Except.ok.inj h₃
  have htrace : k.trace <:+ k₁.trace :=
    Except.foldlM_invariant (R := fun a b : Kernel => a.trace <:+ b.trace)
      (fun _ => List.suffix_rfl) List.IsSuffix.trans
      (fun h => (unloadPage_trace h) ▸ List.suffix_rfl) h₁
  exact htrace.trans (same_switchOut h₂).trace

/-- `handleExit` gives up the frames of the process. -/
theorem shape_handleExit {k k' : Kernel} {p : Nat} {win : Nat → Win}
    (hex : Exclusive k.shape win) (hl : k.shape.live p = true) (h : k.handleExit p = .ok k') :
    k'.shape = k.shape.kill p := by
  -- the entries that are valid name frames that exist, so unloading them does not fail
  have hbound : ∀ v ∈ List.range (k.process p).numPages, (k.view.entry p v).valid = true →
      ∃ f : Nat, (k.view.entry p v).ppn = f ∧ f < k.numPhysPages := by
    intro v hv hval
    have hval' : (k.pte p v).valid = true := hval
    obtain ⟨f, hf, hlt, -⟩ := hex.forward p v (k.pte p v).ppn hl (List.mem_range.mp hv)
      (TranslationEntry.mapped_eq_some.mpr ⟨hval', rfl⟩)
    exact ⟨f, hf, hlt⟩
  obtain ⟨k₁, h₁, hv₁, hp₁⟩ := foldlM_unloadPage _ hbound
  simp only [handleExit, unloadSections, h₁, bind_eq_ok] at h
  obtain ⟨k₂, h₂, k₃, h₃, h₄⟩ := h
  obtain rfl := Except.ok.inj h₂
  obtain rfl := Except.ok.inj h₄
  have hs₃ := same_switchOut h₃
  refine (congrArg (fun s : Shape => { s with current := none }) hs₃.shape).trans ?_
  -- the frames lose their owner, and the entries keep their contents
  have hframe : ∀ f, (k₁.invertedPageTable f).owner = (released k.view p
      (List.range (k.process p).numPages)).frame f := fun f => congrFun (congrArg View.frame hv₁) f
  have hentry : ∀ q w, (k₁.pte q w).valid = (k.pte q w).valid ∧
      (k₁.pte q w).ppn = (k.pte q w).ppn := by
    intro q w
    have h1 : (k₁.view.entry q w).valid = (k.view.entry q w).valid := by rw [hv₁]; rfl
    have h2 : (k₁.view.entry q w).ppn = (k.view.entry q w).ppn := by rw [hv₁]; rfl
    exact ⟨h1, h2⟩
  have hpages : ∀ q, (k₁.process q).numPages = (k.process q).numPages := fun q =>
    congrFun (congrArg View.numPages hv₁) q
  have hlive : ∀ q, (k₁.process q).live = (k.process q).live := fun q =>
    congrFun (congrArg View.live hv₁) q
  have hproc : ∀ q, (Function.update k₁.process p { k₁.process p with live := false } q).pageTable =
      (k₁.process q).pageTable := by
    intro q
    by_cases hq : q = p <;> simp [hq]
  simp only [shape, Shape.kill, Shape.mk.injEq]
  refine ⟨congrArg View.numPhysPages hv₁, ?_, funext hp₁, ?_, ?_, ?_,
    congrArg View.numProcesses hv₁, trivial⟩
  · funext f
    rw [hframe f]
    simp only [released, List.mem_range]
    -- the test of `Shape.kill` says the same as the one of `released`
    have hiff : ∀ v, ((k.view.entry p v).valid = true ∧ (k.view.entry p v).ppn.toNat = f) ↔
        (k.pte p v).mapped.map Int.toNat = some f := by
      intro v
      by_cases hv : (k.pte p v).valid = true <;> simp [view, TranslationEntry.mapped, hv]
    simp only [hiff]
    rfl
  · funext q w
    simp only [pte, hproc q]
    exact TranslationEntry.mapped_congr (hentry q w).1 (hentry q w).2
  · funext q
    by_cases hq : q = p <;> simp [hq, hpages]
  · funext q
    by_cases hq : q = p <;> simp [hq, hlive]

/-- `load` makes a new process, or refuses the executable. -/
theorem shape_load (k : Kernel) (sections : List CoffSection) :
    ((k.load sections).shape = k.shape ∨ ∃ n, (k.load sections).shape = k.shape.spawn n) ∧
      (k.load sections).trace = k.trace := by
  unfold load
  cases coffPages 0 sections with
  | none => exact ⟨Or.inl rfl, rfl⟩
  | some n =>
    refine ⟨Or.inr ⟨n + stackPages + 1, ?_⟩, rfl⟩
    simp only [shape, Shape.spawn, Shape.mk.injEq, true_and, and_true]
    refine ⟨?_, ?_, ?_⟩
    · funext q w
      by_cases hq : q = k.numProcesses <;> simp [pte, hq, loadSections, TranslationEntry.mapped]
    · funext q
      by_cases hq : q = k.numProcesses <;> simp [hq, loadSections]
    · funext q
      by_cases hq : q = k.numProcesses <;> simp [hq, loadSections]

end Kernel

end Nachos
