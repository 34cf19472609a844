import Coursework.Nachos.Spec.Shapes

/-!
# Pins are balanced

`verifyVaddr` pins the frame of the page it lets through, `addToSwap` and `loadFromSwap`
pin the frame they move, and each of them is followed by the matching unpin on every way
to a return. So a kernel copy that starts with no frame pinned returns with no frame
pinned, and in between the frame under each `arraycopy` is the pinned frame of its page.

## Key results

- `copyVirtualMemory_traced`: which `arraycopy`s a kernel copy comes to
- `copy_pinsBalanced`: what they find, and what the copy leaves behind
- `run_ownsFrames`: what a kernel copy may rely on in every state
-/

namespace Nachos

namespace Shape

/-- Every frame that a valid entry of process `p` names has `p` as its owner. -/
def Owns (s : Shape) (p : Nat) : Prop :=
  ∀ v f : Nat, v < s.numPages p → s.entry p v = some (f : Int) → f < s.numPhysPages →
    ∃ w, s.owner f = some (some p, w)

/-- A change that leaves no pin behind and takes no frame from process `p` without
    invalidating its entry. -/
structure Tame (p : Nat) (s s' : Shape) : Prop where
  numPhysPages : s'.numPhysPages = s.numPhysPages
  numPages : s'.numPages = s.numPages
  unpinned : (∀ f, s.pinned f = false) → ∀ f, s'.pinned f = false
  owns : s.Owns p → s'.Owns p

variable {p : Nat} {s s' s₁ s₂ s₃ : Shape}

theorem Tame.refl : Tame p s s := ⟨rfl, rfl, id, id⟩

theorem Tame.of_eq (h : s' = s) : Tame p s s' := h ▸ Tame.refl

theorem Tame.trans (h : Tame p s₁ s₂) (h' : Tame p s₂ s₃) : Tame p s₁ s₃ :=
  ⟨h'.numPhysPages.trans h.numPhysPages, h'.numPages.trans h.numPages, h'.unpinned ∘ h.unpinned,
    h'.owns ∘ h.owns⟩

/-- A frame is unpinned. -/
theorem tame_unpin (s : Shape) (f : Nat) : Tame p s (s.setPinned f false) := by
  refine ⟨rfl, rfl, fun hu g => ?_, id⟩
  by_cases hg : g = f
  · simp [setPinned, hg]
  · simp [setPinned, hg, hu g]

/-- A page is invalidated. -/
theorem tame_invalidate (s : Shape) (q w : Nat) : Tame p s (s.setEntry q w none) := by
  refine ⟨rfl, rfl, id, fun ho v f hv he hf => ?_⟩
  simp only [setEntry] at he
  split at he
  · cases he
  · exact ho v f hv he hf

/-- A frame is given to process `p`. -/
theorem tame_assign (s : Shape) (f v : Nat) : Tame p s (s.setOwner f (some (some p, v))) := by
  refine ⟨rfl, rfl, id, fun ho w g hw he hg => ?_⟩
  by_cases hgf : g = f
  · exact ⟨v, by simp [setOwner, hgf]⟩
  · obtain ⟨u, hu⟩ := ho w g hw he hg
    exact ⟨u, by simp [setOwner, hgf, hu]⟩

/-- A page of `p` is put in a frame of `p`. -/
theorem tame_map {f v : Nat} (hown : s.owner f = some (some p, v)) :
    Tame p s (s.setEntry p v (some (f : Int))) := by
  refine ⟨rfl, rfl, id, fun ho w g hw he hg => ?_⟩
  simp only [setEntry] at he
  split at he
  · obtain rfl : f = g := Int.ofNat.inj (Option.some.inj he)
    exact ⟨v, hown⟩
  · exact ho w g hw he hg

end Shape

namespace Kernel

open Except (bind_eq_ok)
open Shape (Tame)

/-! ## The paging functions -/

variable {k k' : Kernel} {p : Nat}

theorem shape_addToSwap {ppn : Int} {spn : Nat} (h : k.addToSwap ppn = .ok (spn, k')) :
    k'.shape = k.shape.setPinned ppn.toNat false := by
  unfold addToSwap at h
  obtain ⟨⟨slot, k₁⟩, h₁, h⟩ := bind_eq_ok.mp h
  obtain ⟨k₂, h₂, h⟩ := bind_eq_ok.mp h
  obtain ⟨k₃, h₃, h⟩ := bind_eq_ok.mp h
  cases h
  rw [(shape_unpin h₃).1, (same_swapWrite k₂ _ _).shape, (same_delay h₂).shape,
    (shape_addToSwapBegin h₁).1]
  simp [Shape.setPinned]

theorem shape_loadFromSwap {spn : Int} {ppn : Nat} (h : k.loadFromSwap spn ppn = .ok k') :
    k'.shape = k.shape.setPinned ppn false := by
  unfold loadFromSwap at h
  obtain ⟨k₁, h₁, h⟩ := bind_eq_ok.mp h
  obtain ⟨k₂, h₂, h⟩ := bind_eq_ok.mp h
  obtain ⟨k₃, h₃, h⟩ := bind_eq_ok.mp h
  cases h
  obtain ⟨-, -, rfl⟩ := modifyFrame_eq_ok h₁
  have hpin := shape_setFrame_pinned (k := k) (f := (ppn : Int).toNat)
    (b := { k.invertedPageTable (ppn : Int).toNat with pinned := true }) rfl
  show k₃.shape = _
  rw [(shape_unpin h₃).1, (same_swapRead k₂ _ _).shape, (same_delay h₂).shape, hpin]
  simp [Shape.setPinned]

theorem tame_savePage {q w : Nat} (h : k.savePage q w = .ok k') : Tame p k.shape k'.shape := by
  unfold savePage at h
  dsimp only at h
  split at h
  · cases h
  split at h
  · obtain ⟨⟨slot, k₁⟩, h₁, h⟩ := bind_eq_ok.mp h
    obtain ⟨k₂, h₂, h⟩ := bind_eq_ok.mp h
    obtain ⟨-, rfl⟩ := modifyPTE_eq_ok h₂
    -- the entry names the swap slot for a moment, and is invalid after that
    have hshape : k'.shape = k₁.shape.setEntry q w none := by
      rw [(shape_invalidate h).1, shape_setPTE]
      simp only [Shape.setEntry, Shape.mk.injEq, true_and, and_true]
      funext q' w'
      split <;> rfl
    rw [hshape, shape_addToSwap h₁]
    exact (Shape.tame_unpin _ _).trans (Shape.tame_invalidate _ q w)
  · rw [(shape_invalidate h).1]
    exact Shape.tame_invalidate _ q w

theorem tame_takePage {v f : Nat} (h : k.takePage f p v = .ok k') :
    Tame p k.shape k'.shape ∧ k'.shape.owner f = some (some p, v) := by
  unfold takePage at h
  dsimp only at h
  have hassign : ∀ k₁ : Kernel, Tame p k.shape k₁.shape →
      Tame p k.shape (k₁.assignPage f p v).shape ∧
        (k₁.assignPage f p v).shape.owner f = some (some p, v) := by
    intro k₁ htame
    rw [shape_assignPage]
    exact ⟨htame.trans (Shape.tame_assign _ f v), by simp [Shape.setOwner]⟩
  split at h
  · obtain ⟨k₁, h₁, h⟩ := bind_eq_ok.mp h
    cases h
    unfold evictPage at h₁
    dsimp only at h₁
    split at h₁
    · cases h₁
    · exact hassign k₁ (tame_savePage h₁)
  · cases h
    exact hassign k Tame.refl

theorem tame_getAvailablePage {v f : Nat} (h : k.getAvailablePage p v = .ok (f, k')) :
    Tame p k.shape k'.shape ∧ k'.shape.owner f = some (some p, v) := by
  obtain ⟨⟨found, k₁⟩, h₁, h⟩ := bind_eq_ok.mp h
  have hclock : k₁.shape = k.shape := (same_clockLoop h₁).shape
  cases found with
  | none => cases h
  | some g =>
    obtain ⟨k₂, h₂, h⟩ := bind_eq_ok.mp h
    cases h
    have htake := tame_takePage h₂
    rw [hclock] at htake
    exact htake

/-- `fillPage` changes the tables at most by an unpin. -/
theorem shape_fillPage {f v : Nat} (h : k.fillPage f p v = .ok k') :
    k'.shape = k.shape ∨ k'.shape = k.shape.setPinned f false := by
  unfold fillPage at h
  dsimp only at h
  split at h
  · exact Or.inr (shape_loadFromSwap h)
  left
  split at h
  · split at h
    · cases h
    · unfold loadPage at h
      split at h
      · dsimp only at h
        split at h
        · obtain ⟨k₁, h₁, h⟩ := bind_eq_ok.mp h
          cases h
          exact (same_delay h₁).shape
        · cases h
          rfl
      · cases h
  · cases h
    rfl

theorem tame_pageFault {v : Nat} (h : k.pageFault p v = .ok k') :
    Tame p k.shape k'.shape ∧ (k'.pte p v).valid = true := by
  obtain ⟨⟨f, k₁⟩, h₁, h⟩ := bind_eq_ok.mp h
  obtain ⟨k₂, h₂, h⟩ := bind_eq_ok.mp h
  obtain ⟨hget, hown⟩ := tame_getAvailablePage h₁
  have hfill : Tame p k₁.shape k₂.shape ∧ k₂.shape.owner f = some (some p, v) := by
    rcases shape_fillPage h₂ with heq | heq
    · rw [heq]
      exact ⟨Tame.refl, hown⟩
    · rw [heq]
      exact ⟨Shape.tame_unpin _ f, hown⟩
  obtain ⟨-, rfl⟩ := modifyPTE_eq_ok h
  refine ⟨(hget.trans hfill.1).trans ?_, ?_⟩
  · rw [shape_setPTE]
    exact Shape.tame_map hfill.2
  · rw [pte_setPTE, if_pos ⟨rfl, rfl⟩]

/-! ## The hooks of the copy loop -/

/-- The only frame that may be pinned is `f`. -/
def PinsOnly (s : Shape) (f : Nat) : Prop := ∀ g, g ≠ f → s.pinned g = false

/-- `pinPage` indexes the inverted page table with the frame of the page. -/
theorem pinPage_frame {v : Nat} {write : Bool} (h : pinPage p k v write = .ok k') :
    ∃ f : Nat, (k.pte p v).ppn = f ∧ f < k.numPhysPages := by
  obtain ⟨k₁, h₁, -⟩ := bind_eq_ok.mp h
  obtain ⟨hpos, hlt, -⟩ := modifyFrame_eq_ok h₁
  have hlt : (k.pte p v).ppn < k.numPhysPages := hlt
  exact ⟨(k.pte p v).ppn.toNat, by omega, by omega⟩

/-- What `verifyVaddr` has done when it lets page `v` through. -/
theorem verifyVaddr_pins {v : Nat} {write : Bool} (hu : ∀ f, k.shape.pinned f = false)
    (h : verifyVaddr p k v write = .ok (true, k')) :
    v < k'.shape.numPages p ∧ (k.shape.Owns p → k'.shape.Owns p) ∧
      ∃ f : Nat, k'.shape.entry p v = some (f : Int) ∧ f < k'.shape.numPhysPages ∧
        k'.shape.pinned f = true ∧ PinsOnly k'.shape f := by
  unfold verifyVaddr at h
  dsimp only at h
  split at h
  · cases h
  rename_i hpage
  -- the page is in memory when `pinPage` comes to it, faulted in or not
  have hmem : ∃ k₁, Tame p k.shape k₁.shape ∧ (k₁.pte p v).valid = true ∧
      pinPage p k₁ v write = .ok k' := by
    split at h
    · rename_i hvalid
      have h : (pinPage p k v write >>= fun k => .ok (true, k)) = .ok (true, k') := h
      obtain ⟨k₁, h₁, h⟩ := bind_eq_ok.mp h
      cases h
      exact ⟨k, Tame.refl, hvalid, h₁⟩
    · obtain ⟨k₁, h₁, h⟩ := bind_eq_ok.mp h
      obtain ⟨k₂, h₂, h⟩ := bind_eq_ok.mp h
      cases h
      exact ⟨k₁, (tame_pageFault h₁).1, (tame_pageFault h₁).2, h₂⟩
  obtain ⟨k₁, htame, hvalid, hpin⟩ := hmem
  obtain ⟨f, hf, hlt⟩ := pinPage_frame hpin
  have hshape := (shape_pinPage hpin).1
  rw [hf, Int.toNat_natCast] at hshape
  have hentry : k₁.shape.entry p v = some (f : Int) :=
    TranslationEntry.mapped_eq_some.mpr ⟨hvalid, hf⟩
  rw [hshape]
  refine ⟨?_, htame.owns, f, hentry, hlt, by simp [Shape.setPinned], fun g hg => ?_⟩
  · show v < k₁.shape.numPages p
    rw [htame.numPages]
    exact Nat.lt_of_not_le hpage
  · show Function.update k₁.shape.pinned f true g = false
    rw [Function.update_of_ne hg]
    exact htame.unpinned hu g

/-- A page that `verifyVaddr` does not let through is not looked at. -/
theorem verifyVaddr_refused {v : Nat} {write : Bool}
    (h : verifyVaddr p k v write = .ok (false, k')) : k' = k := by
  unfold verifyVaddr at h
  dsimp only at h
  split at h
  · cases h
    rfl
  split at h
  · have h : (pinPage p k v write >>= fun k => .ok (true, k)) = .ok (false, k') := h
    obtain ⟨k₁, -, h⟩ := bind_eq_ok.mp h
    cases h
  · obtain ⟨k₁, -, h⟩ := bind_eq_ok.mp h
    obtain ⟨k₂, -, h⟩ := bind_eq_ok.mp h
    cases h

/-- `verifyClean` unpins the frame of the page. -/
theorem verifyClean_pins {v f : Nat} (hentry : k.shape.entry p v = some (f : Int))
    (hpins : PinsOnly k.shape f) (h : verifyClean p k v = .ok k') :
    (∀ g, k'.shape.pinned g = false) ∧ (k.shape.Owns p → k'.shape.Owns p) := by
  have hppn : (k.pte p v).ppn = f := (TranslationEntry.mapped_eq_some.mp hentry).2
  have hshape : k'.shape = k.shape.setPinned (k.pte p v).ppn.toNat false := (shape_unpin h).1
  rw [hppn, Int.toNat_natCast] at hshape
  rw [hshape]
  refine ⟨fun g => ?_, id⟩
  show Function.update k.shape.pinned f false g = false
  by_cases hg : g = f
  · rw [hg, Function.update_self]
  · rw [Function.update_of_ne hg]
    exact hpins g hg

/-! ## The copy loop -/

/-- The rest of an iteration of the copy loop after `verifyVaddr`: how many bytes it copied,
    the kernel and the array. -/
def copyPage (write : Bool) (p : Nat) (vaddr offset : Int) (length byteNum : Nat) (k : Kernel)
    (data : List UInt8) : Except Halt (Nat × Kernel × List UInt8) := do
  let pageIndex := pageFromAddress (vaddr + byteNum)
  let pageOffset := offsetFromAddress (vaddr + byteNum)
  let bytesLeftInPage := pageSize - pageOffset
  let bytesToCopy := min bytesLeftInPage (length - byteNum)
  let physicalAddr := (k.pte p pageIndex).ppn * pageSize + pageOffset
  let (k, data) ← k.arraycopy write p (toUnsigned (vaddr + byteNum)) physicalAddr
    (wrap32 (offset + byteNum)) bytesToCopy data
  let k ← verifyClean p k pageIndex
  .ok (bytesToCopy, k, data)

/-- One iteration of the copy loop of a `VMProcess`. -/
theorem copyLoop_succ {write : Bool} {vaddr offset : Int} {length fuel byteNum : Nat}
    {data : List UInt8} :
    copyLoop (verifyVaddr p) (verifyClean p) write p vaddr offset length (fuel + 1) byteNum k data =
      (do
        let (verified, k) ← verifyVaddr p k (pageFromAddress (vaddr + byteNum)) write
        if !verified then .ok (0, k, data)
        else
          let (n, k, data) ← copyPage write p vaddr offset length byteNum k data
          if byteNum + n < length then
            copyLoop (verifyVaddr p) (verifyClean p) write p vaddr offset length fuel
              (byteNum + n) k data
          else .ok (byteNum + n, k, data)) := by
  -- both sides are the same monadic code; only the binds of the copy are nested otherwise
  rw [copyLoop]
  dsimp only
  cases verifyVaddr p k (pageFromAddress (vaddr + byteNum)) write with
  | error e => rfl
  | ok r =>
    obtain ⟨verified, k₁⟩ := r
    cases verified with
    | false => rfl
    | true =>
      show (arraycopy k₁ _ _ _ _ _ _ _ >>= _) = (copyPage _ _ _ _ _ _ _ _ >>= _)
      rw [copyPage]
      cases k₁.arraycopy write p (toUnsigned (vaddr + byteNum))
          ((k₁.pte p (pageFromAddress (vaddr + byteNum))).ppn * pageSize +
            offsetFromAddress (vaddr + byteNum)) (wrap32 (offset + byteNum))
          (min (pageSize - offsetFromAddress (vaddr + byteNum)) (length - byteNum)) data with
      | error e => rfl
      | ok r =>
        obtain ⟨k₂, data₂⟩ := r
        show (verifyClean p k₂ _ >>= _) = ((verifyClean p k₂ _ >>= _) >>= _)
        cases verifyClean p k₂ (pageFromAddress (vaddr + byteNum)) with
        | error e => rfl
        | ok k₃ => rfl

/-- The copy loop, with `byteNum` bytes done in kernel `k`, comes to the `arraycopy` of page
    `v` with the kernel in state `k'`. `copyReaches_iff` connects it with the loop. -/
inductive CopyReaches (write : Bool) (p : Nat) (vaddr offset : Int) (length : Nat) :
    Nat → Kernel → List UInt8 → Nat → Kernel → Prop where
  | now {byteNum : Nat} {k k' : Kernel} {data : List UInt8} :
    verifyVaddr p k (pageFromAddress (vaddr + byteNum)) write = .ok (true, k') →
    CopyReaches write p vaddr offset length byteNum k data (pageFromAddress (vaddr + byteNum)) k'
  | later {byteNum n v : Nat} {k k₁ k₂ k' : Kernel} {data data₂ : List UInt8} :
    verifyVaddr p k (pageFromAddress (vaddr + byteNum)) write = .ok (true, k₁) →
    copyPage write p vaddr offset length byteNum k₁ data = .ok (n, k₂, data₂) →
    byteNum + n < length →
    CopyReaches write p vaddr offset length (byteNum + n) k₂ data₂ v k' →
    CopyReaches write p vaddr offset length byteNum k data v k'

/-- The copy loop with a list of its `arraycopy`s: the page of each, and the kernel that it
    finds. -/
def tracedCopyLoop (write : Bool) (p : Nat) (vaddr offset : Int) (length : Nat) :
    Nat → Nat → Kernel → List UInt8 →
      List (Nat × Kernel) × Except Halt (Nat × Kernel × List UInt8)
  | 0, _, _, _ => ([], .error .outOfFuel)
  | fuel + 1, byteNum, k, data =>
    let pageIndex := pageFromAddress (vaddr + byteNum)
    match verifyVaddr p k pageIndex write with
    | .error e => ([], .error e)
    | .ok (false, k) => ([], .ok (0, k, data))
    | .ok (true, k) =>
      match copyPage write p vaddr offset length byteNum k data with
      | .error e => ([(pageIndex, k)], .error e)
      | .ok (n, k', data) =>
        if byteNum + n < length then
          let rest := tracedCopyLoop write p vaddr offset length fuel (byteNum + n) k' data
          ((pageIndex, k) :: rest.1, rest.2)
        else ([(pageIndex, k)], .ok (byteNum + n, k', data))

/-- Without the list it is the copy loop. -/
theorem tracedCopyLoop_snd {write : Bool} {vaddr offset : Int} {length fuel : Nat} :
    ∀ {byteNum : Nat} {k : Kernel} {data : List UInt8},
    (tracedCopyLoop write p vaddr offset length fuel byteNum k data).2 =
      copyLoop (verifyVaddr p) (verifyClean p) write p vaddr offset length fuel byteNum k data := by
  induction fuel with
  | zero => exact rfl
  | succ fuel ih =>
    intro byteNum k data
    rw [copyLoop_succ, tracedCopyLoop]
    dsimp only
    cases hverify : verifyVaddr p k (pageFromAddress (vaddr + byteNum)) write with
    | error e => rfl
    | ok r =>
      obtain ⟨verified, k₁⟩ := r
      cases verified with
      | false => rfl
      | true =>
        show _ = (copyPage _ _ _ _ _ _ _ _ >>= _)
        dsimp only
        cases copyPage write p vaddr offset length byteNum k₁ data with
        | error e => rfl
        | ok r =>
          obtain ⟨n, k₂, data₂⟩ := r
          show _ = if byteNum + n < length then _ else _
          dsimp only
          split
          · exact ih
          · rfl

/-- An iteration that is not the last copies to the end of its page. -/
theorem copyPage_pos {write : Bool} {vaddr offset : Int} {length byteNum n : Nat} {k₁ : Kernel}
    {data data₂ : List UInt8}
    (h : copyPage write p vaddr offset length byteNum k data = .ok (n, k₁, data₂))
    (hmore : byteNum + n < length) : 0 < n := by
  obtain ⟨⟨k₂, data₃⟩, -, h⟩ := bind_eq_ok.mp h
  obtain ⟨k₃, -, h⟩ := bind_eq_ok.mp h
  cases h
  have hoffset := offsetFromAddress_lt (vaddr + byteNum)
  omega

/-- What the first iteration adds to the list. -/
theorem mem_tracedCopyLoop_succ {write : Bool} {vaddr offset : Int} {length fuel byteNum v : Nat}
    {data : List UInt8} :
    (v, k') ∈ (tracedCopyLoop write p vaddr offset length (fuel + 1) byteNum k data).1 ↔
      ∃ k₁, verifyVaddr p k (pageFromAddress (vaddr + byteNum)) write = .ok (true, k₁) ∧
        (v = pageFromAddress (vaddr + byteNum) ∧ k' = k₁ ∨
          ∃ n k₂ data₂, copyPage write p vaddr offset length byteNum k₁ data = .ok (n, k₂, data₂) ∧
            byteNum + n < length ∧
            (v, k') ∈ (tracedCopyLoop write p vaddr offset length fuel (byteNum + n) k₂ data₂).1) := by
  rw [tracedCopyLoop]
  dsimp only
  cases hverify : verifyVaddr p k (pageFromAddress (vaddr + byteNum)) write with
  | error e => simp
  | ok r =>
    obtain ⟨verified, k₁⟩ := r
    cases verified with
    | false => simp
    | true =>
      dsimp only
      cases hcopy : copyPage write p vaddr offset length byteNum k₁ data with
      | error e => simp [hcopy]
      | ok r =>
        obtain ⟨n, k₂, data₂⟩ := r
        by_cases hmore : byteNum + n < length <;> simp [hcopy, hmore]

/-- What the first iteration reaches. -/
theorem copyReaches_cases {write : Bool} {vaddr offset : Int} {length byteNum v : Nat}
    {data : List UInt8} :
    CopyReaches write p vaddr offset length byteNum k data v k' ↔
      ∃ k₁, verifyVaddr p k (pageFromAddress (vaddr + byteNum)) write = .ok (true, k₁) ∧
        (v = pageFromAddress (vaddr + byteNum) ∧ k' = k₁ ∨
          ∃ n k₂ data₂, copyPage write p vaddr offset length byteNum k₁ data = .ok (n, k₂, data₂) ∧
            byteNum + n < length ∧
            CopyReaches write p vaddr offset length (byteNum + n) k₂ data₂ v k') := by
  constructor
  · intro h
    cases h with
    | now hverify => exact ⟨_, hverify, .inl ⟨rfl, rfl⟩⟩
    | later hverify hcopy hmore hrest => exact ⟨_, hverify, .inr ⟨_, _, _, hcopy, hmore, hrest⟩⟩
  · rintro ⟨k₁, hverify, ⟨rfl, rfl⟩ | ⟨n, k₂, data₂, hcopy, hmore, hrest⟩⟩
    · exact .now hverify
    · exact .later hverify hcopy hmore hrest

/-- `CopyReaches` lists the `arraycopy`s of the copy loop, all of them and no others. The fuel of
    the calls is enough, as each iteration that is not the last copies a byte. -/
theorem copyReaches_iff {write : Bool} {vaddr offset : Int} {length fuel v : Nat} :
    ∀ {byteNum : Nat} {k : Kernel} {data : List UInt8}, length ≤ byteNum + fuel →
    (CopyReaches write p vaddr offset length byteNum k data v k' ↔
      (v, k') ∈ (tracedCopyLoop write p vaddr offset length (fuel + 1) byteNum k data).1) := by
  induction fuel with
  | zero =>
    intro byteNum k data hfuel
    rw [copyReaches_cases, mem_tracedCopyLoop_succ]
    refine exists_congr fun k₁ => and_congr_right fun _ => or_congr_right ?_
    -- no bytes are left
    constructor
    · rintro ⟨n, k₂, data₂, -, hmore, -⟩
      omega
    · rintro ⟨n, k₂, data₂, -, hmore, -⟩
      omega
  | succ fuel ih =>
    intro byteNum k data hfuel
    rw [copyReaches_cases, mem_tracedCopyLoop_succ]
    refine exists_congr fun k₁ => and_congr_right fun _ => or_congr_right ?_
    refine exists_congr fun n => exists_congr fun k₂ => exists_congr fun data₂ =>
      and_congr_right fun hcopy => and_congr_right fun hmore => ih ?_
    have hpos := copyPage_pos hcopy hmore
    omega

/-- The frame under page `v` of `p` is pinned, the page table of `p` maps the page to it, and
    the inverted page table gives it to `p`. -/
def Secured (k : Kernel) (p v : Nat) : Prop :=
  ∃ f < k.numPhysPages, (k.pte p v).valid = true ∧ (k.pte p v).ppn = f ∧
    (k.invertedPageTable f).pinned = true ∧ (k.invertedPageTable f).assigned = true ∧
    (k.invertedPageTable f).process = some p

/-- Every frame that the page table of `p` maps a page to is a frame of `p` in the inverted
    page table. -/
def OwnsFrames (k : Kernel) (p : Nat) : Prop :=
  ∀ v f : Nat, v < (k.process p).numPages → (k.pte p v).valid = true → (k.pte p v).ppn = f →
    f < k.numPhysPages →
    (k.invertedPageTable f).assigned = true ∧ (k.invertedPageTable f).process = some p

theorem owner_eq_some {b : InvertedBucket} {p w : Nat} :
    b.owner = some (some p, w) ↔ b.assigned = true ∧ b.process = some p ∧ b.tEntry.vpn = w := by
  cases h : b.assigned <;> simp [InvertedBucket.owner, h]

theorem OwnsFrames.owns (h : k.OwnsFrames p) : k.shape.Owns p := by
  intro v f hv he hf
  obtain ⟨hvalid, hppn⟩ := TranslationEntry.mapped_eq_some.mp he
  obtain ⟨ha, hp⟩ := h v f hv hvalid hppn hf
  exact ⟨(k.invertedPageTable f).tEntry.vpn, owner_eq_some.mpr ⟨ha, hp, rfl⟩⟩

/-- After `verifyVaddr` the frame of the page is secured. -/
theorem secured_of_verifyVaddr {v : Nat} {write : Bool} (hu : ∀ f, k.shape.pinned f = false)
    (hown : k.shape.Owns p) (h : verifyVaddr p k v write = .ok (true, k')) : k'.Secured p v := by
  obtain ⟨hv, howns, f, hentry, hf, hpinned, -⟩ := verifyVaddr_pins hu h
  obtain ⟨hvalid, hppn⟩ := TranslationEntry.mapped_eq_some.mp hentry
  obtain ⟨w, hw⟩ := howns hown v f hv hentry hf
  obtain ⟨ha, hp, -⟩ := owner_eq_some.mp hw
  exact ⟨f, hf, hvalid, hppn, hpinned, ha, hp⟩

/-- What one iteration leaves behind: nothing pinned, and no frame of `p` lost. -/
theorem copyPage_pins {write : Bool} {vaddr offset : Int} {length byteNum n : Nat}
    {k₁ k₂ : Kernel} {data data₂ : List UInt8} (hu : ∀ f, k.shape.pinned f = false)
    (h₁ : verifyVaddr p k (pageFromAddress (vaddr + byteNum)) write = .ok (true, k₁))
    (h₂ : copyPage write p vaddr offset length byteNum k₁ data = .ok (n, k₂, data₂)) :
    (∀ f, k₂.shape.pinned f = false) ∧ (k.shape.Owns p → k₂.shape.Owns p) := by
  obtain ⟨-, howns, f, hentry, -, -, hpins⟩ := verifyVaddr_pins hu h₁
  obtain ⟨⟨k₃, data₃⟩, hcopy, h₂⟩ := bind_eq_ok.mp h₂
  obtain ⟨k₄, hclean, h₂⟩ := bind_eq_ok.mp h₂
  cases h₂
  have hsame := (same_arraycopy hcopy).shape
  rw [← hsame] at hentry hpins howns
  obtain ⟨hfree, hkeep⟩ := verifyClean_pins hentry hpins hclean
  exact ⟨hfree, hkeep ∘ howns⟩

/-- Whatever the loop copies, it returns with no frame pinned. -/
theorem copyLoop_unpinned {write : Bool} {vaddr offset : Int} {length fuel : Nat} :
    ∀ {byteNum : Nat} {k : Kernel} {data : List UInt8} {n : Nat} {data' : List UInt8},
    (∀ f, k.shape.pinned f = false) →
    copyLoop (verifyVaddr p) (verifyClean p) write p vaddr offset length fuel byteNum k data =
      .ok (n, k', data') →
    ∀ f, k'.shape.pinned f = false := by
  induction fuel with
  | zero =>
    intro byteNum k data n data' _ h
    cases h
  | succ fuel ih =>
    intro byteNum k data n data' hu h
    rw [copyLoop_succ] at h
    obtain ⟨⟨verified, k₁⟩, h₁, h⟩ := bind_eq_ok.mp h
    cases verified with
    | false =>
      -- the range has left the address space: `verifyVaddr` has pinned nothing
      cases h
      exact verifyVaddr_refused h₁ ▸ hu
    | true =>
      obtain ⟨⟨m, k₂, data₂⟩, h₂, h⟩ := bind_eq_ok.mp h
      have hfree := (copyPage_pins hu h₁ h₂).1
      dsimp only at h
      split at h
      · exact ih hfree h
      · cases h
        exact hfree

/-- Each `arraycopy` the loop comes to finds its frame secured. -/
theorem secured_of_copyReaches {write : Bool} {vaddr offset : Int} {length byteNum v : Nat}
    {data : List UInt8} (h : CopyReaches write p vaddr offset length byteNum k data v k')
    (hu : ∀ f, k.shape.pinned f = false) (hown : k.shape.Owns p) : k'.Secured p v := by
  induction h with
  | now hverify => exact secured_of_verifyVaddr hu hown hverify
  | later hverify hcopy hmore hrest ih =>
    obtain ⟨hfree, howns⟩ := copyPage_pins hu hverify hcopy
    exact ih hfree (howns hown)

/-! ## The calls -/

/-- A kernel copy that starts with no frame pinned returns with no frame pinned, and where
    the two tables agree about the frames of the process, each page is copied while its
    frame is secured. -/
theorem copy_pinsBalanced {k : Kernel} (hu : k.Unpinned) (p : Nat) (vaddr : Int)
    (data : List UInt8) (offset length : Int) :
    (∀ n k' data', k.readVirtualMemory p vaddr data offset length = .ok (n, k', data') ∨
      k.writeVirtualMemory p vaddr data offset length = .ok (n, k', data') → k'.Unpinned) ∧
    (k.OwnsFrames p → ∀ write v k',
      CopyReaches write p vaddr offset length.toNat 0 k data v k' → k'.Secured p v) := by
  refine ⟨fun n k' data' h => ?_,
    fun hown write v k' h => secured_of_copyReaches h hu hown.owns⟩
  -- both calls are the same loop behind the same two checks
  have hcopy : ∀ write, copyVirtualMemory (verifyVaddr p) (verifyClean p) write k p vaddr data
      offset length = .ok (n, k', data') → k'.Unpinned := by
    intro write h
    unfold copyVirtualMemory at h
    split at h
    · cases h
      exact hu
    split at h
    · cases h
      exact hu
    · exact copyLoop_unpinned hu h
  exact h.elim (hcopy false) (hcopy true)

/-- The `arraycopy`s of a call that its two checks let through are those that `CopyReaches`
    lists. -/
theorem copyVirtualMemory_traced {write : Bool} {vaddr offset length : Int} {data : List UInt8}
    (hrange : ¬ (offset < 0 ∨ length < 0 ∨ (data.length : Int) < wrap32 (offset + length)))
    (haddr : ¬ (vaddr < 0 ∨ wrap32 ((k.process p).numPages * (pageSize - 1 : Nat)) ≤ vaddr)) :
    copyVirtualMemory (verifyVaddr p) (verifyClean p) write k p vaddr data offset length =
        (tracedCopyLoop write p vaddr offset length.toNat (length.toNat + 1) 0 k data).2 ∧
      ∀ v k', CopyReaches write p vaddr offset length.toNat 0 k data v k' ↔
        (v, k') ∈ (tracedCopyLoop write p vaddr offset length.toNat (length.toNat + 1) 0 k data).1 := by
  refine ⟨?_, fun v k' => copyReaches_iff (by omega)⟩
  rw [copyVirtualMemory, if_neg hrange, if_neg haddr, tracedCopyLoop_snd]

/-- In every state that whole operations lead to, no frame is pinned and the two tables agree. -/
theorem run_ownsFrames {numPhysPages : Nat} (hn : 0 < numPhysPages) {ioBlocks : Bool}
    {ops : List Op} {k : Kernel} (h : (initKernel numPhysPages ioBlocks).run ops = .ok k)
    {p : Nat} (hl : k.isLive p = true) : k.Unpinned ∧ k.OwnsFrames p := by
  have hwf₀ := wf_initKernel hn ioBlocks
  obtain ⟨hchain, hu⟩ := run_chain hwf₀ (fun _ => rfl) h
  have hwf := hchain.invariant WF.micro hwf₀
  refine ⟨hu, fun v f hv hvalid hppn _ => ?_⟩
  obtain ⟨g, hg, -, hframe⟩ := hwf.forward p v hl hv hvalid
  have hgf : (g : Int) = f := hg.symm.trans hppn
  obtain rfl : g = f := Int.ofNat.inj hgf
  obtain ⟨ha, hp, -⟩ := owner_eq_some.mp hframe
  exact ⟨ha, hp⟩

/-- One frame and two pages: the second copy evicts the page of the first. A third copy comes to
    both pages again, and finds the frame secured for each. -/
theorem copy_pinsBalanced_one_frame :
    ∃ k, (initKernel 1 true).run [.load emptySections,
        .kernelWrite 0 1020 [1, 2, 3, 4, 5, 6, 7, 8] 0 8] =
        .ok k ∧
      (∀ n k' data', k.readVirtualMemory 0 1020 [0, 0, 0, 0, 0, 0, 0, 0] 0 8 =
          .ok (n, k', data') ∨
        k.writeVirtualMemory 0 1020 [0, 0, 0, 0, 0, 0, 0, 0] 0 8 = .ok (n, k', data') →
        k'.Unpinned) ∧
      (k.OwnsFrames 0 → ∀ write v k',
        CopyReaches write 0 1020 0 (Int.toNat 8) 0 k [0, 0, 0, 0, 0, 0, 0, 0] v k' →
        k'.Secured 0 v) ∧ k.OwnsFrames 0 ∧
      ∀ v < 2, ∃ k', CopyReaches true 0 1020 0 (Int.toNat 8) 0 k [0, 0, 0, 0, 0, 0, 0, 0] v k' ∧
        k'.Secured 0 v := by
  obtain ⟨k, hk, htest⟩ := Except.exists_of_map_eq_ok
    (r := (initKernel 1 true).run [.load emptySections,
      .kernelWrite 0 1020 [1, 2, 3, 4, 5, 6, 7, 8] 0 8])
    (fun k => k.isLive 0 &&
      (tracedCopyLoop true 0 1020 0 8 9 0 k [0, 0, 0, 0, 0, 0, 0, 0]).1.map Prod.fst == [0, 1])
    (by decide +kernel)
  simp only [Bool.and_eq_true, beq_iff_eq] at htest
  obtain ⟨hlive, hpages⟩ := htest
  obtain ⟨hu, hown⟩ := run_ownsFrames (by decide) hk hlive
  obtain ⟨hreturns, hcopies⟩ := copy_pinsBalanced hu 0 1020 [0, 0, 0, 0, 0, 0, 0, 0] 0 8
  refine ⟨k, hk, hreturns, hcopies, hown, fun v hv => ?_⟩
  have hpage : v ∈ (tracedCopyLoop true 0 1020 0 8 9 0 k [0, 0, 0, 0, 0, 0, 0, 0]).1.map
      Prod.fst := by
    rw [hpages]
    simp
    omega
  obtain ⟨⟨_, k'⟩, hmem, rfl⟩ := List.mem_map.mp hpage
  have hreaches : CopyReaches true 0 1020 0 8 0 k [0, 0, 0, 0, 0, 0, 0, 0] _ k' :=
    (copyReaches_iff (by omega)).mpr hmem
  exact ⟨k', hreaches, hcopies hown true _ k' hreaches⟩

end Kernel

end Nachos
