import Mathlib.Data.List.Basic
import Mathlib.Order.Lattice

/-!
# Binary heaps over a comparison

A binary heap in an array, with the two sifts of a priority queue: the element to be placed
moves a hole up or down until a comparison stops it. `cmp a b` is negative, zero or positive,
as a comparison method returns it; nothing is asked of it. What comes out is still a heap in
the order of the keys when the comparisons that are made agree with the keys.
-/

namespace PriorityQueue

variable {α β : Type}

/-- The parent of a position. -/
def parent (k : Nat) : Nat := (k - 1) / 2

theorem parent_lt {k : Nat} (h : 0 < k) : parent k < k := by
  unfold parent
  omega

theorem child_cases {i k : Nat} (h : 0 < i) (hp : parent i = k) : i = 2 * k + 1 ∨ i = 2 * k + 2 := by
  unfold parent at hp
  omega

theorem parent_left (k : Nat) : parent (2 * k + 1) = k := by
  unfold parent
  omega

theorem parent_right (k : Nat) : parent (2 * k + 2) = k := by
  unfold parent
  omega

/-! ## The operations -/

section Operations

variable (cmp : α → α → Int)

/-- Move `x` up from the hole `k`. -/
def siftUp : Nat → List α → Nat → α → List α
  | 0, queue, k, x => queue.set k x
  | fuel + 1, queue, k, x =>
    if k = 0 then queue.set k x
    else
      let e := queue.getD (parent k) x
      if 0 ≤ cmp x e then queue.set k x else siftUp fuel (queue.set k e) (parent k) x

/-- The child of `k` that the hole moves to: the right one if it is there and less. -/
def lesserChild (queue : List α) (k : Nat) (x : α) : Nat :=
  let child := 2 * k + 1
  let right := child + 1
  if right < queue.length ∧ 0 < cmp (queue.getD child x) (queue.getD right x) then right else child

/-- Move `x` down from the hole `k`. -/
def siftDown : Nat → List α → Nat → α → List α
  | 0, queue, k, x => queue.set k x
  | fuel + 1, queue, k, x =>
    if k < queue.length / 2 then
      let child := lesserChild cmp queue k x
      let c := queue.getD child x
      if cmp x c ≤ 0 then queue.set k x else siftDown fuel (queue.set k c) child x
    else queue.set k x

/-- Add an element. -/
def offer (queue : List α) (x : α) : List α :=
  siftUp cmp queue.length (queue ++ [x]) queue.length x

/-- Remove the head: the last element takes its place and moves down. -/
def poll (queue : List α) : List α :=
  match queue.getLast? with
  | none => []
  | some x => siftDown cmp queue.length queue.dropLast 0 x

end Operations

/-! ## The same elements -/

section Elements

variable (cmp : α → α → Int)

/-- The hole goes from `k` to `j`, and the element of `j` to `k`. -/
theorem move_perm {queue : List α} {k j : Nat} {x e : α} (hk : k < queue.length)
    (he : queue[j]? = some e) : ((queue.set k e).set j x).Perm (queue.set k x) := by
  obtain ⟨hj, hje⟩ := List.getElem?_eq_some_iff.mp he
  by_cases hjk : j = k
  · subst hjk
    rw [List.set_set]
  · have hk' : k < (queue.set k x).length := by simpa using hk
    have hj' : j < (queue.set k x).length := by simpa using hj
    have hswap := List.set_set_perm hk' hj'
    have hx : (queue.set k x)[k] = x := by simp
    have he' : (queue.set k x)[j] = e := by simp [Ne.symm hjk, hje]
    rw [hx, he', List.set_set] at hswap
    exact hswap

theorem getElem?_getD {queue : List α} {k : Nat} (hk : k < queue.length) (x : α) :
    queue[k]? = some (queue.getD k x) := by
  rw [List.getD_eq_getElem?_getD, List.getElem?_eq_getElem hk]
  rfl

theorem siftUp_perm (fuel : Nat) {queue : List α} {k : Nat} (x : α) (hk : k < queue.length) :
    (siftUp cmp fuel queue k x).Perm (queue.set k x) := by
  induction fuel generalizing queue k with
  | zero => exact List.Perm.refl _
  | succ fuel ih =>
    unfold siftUp
    by_cases hzero : k = 0
    · rw [if_pos hzero]
    · have hp : parent k < queue.length := by
        have hlt := parent_lt (Nat.pos_of_ne_zero hzero)
        omega
      rw [if_neg hzero]
      dsimp only
      split
      · exact List.Perm.refl _
      · have hlen : parent k < (queue.set k (queue.getD (parent k) x)).length := by
          rw [List.length_set]
          exact hp
        exact (ih hlen).trans (move_perm hk (getElem?_getD hp x))

theorem lesserChild_cases (queue : List α) (k : Nat) (x : α) :
    lesserChild cmp queue k x = 2 * k + 1 ∨
      lesserChild cmp queue k x = 2 * k + 2 ∧ 2 * k + 2 < queue.length := by
  unfold lesserChild
  dsimp only
  split
  · rename_i h
    exact Or.inr ⟨rfl, h.1⟩
  · exact Or.inl rfl

theorem lesserChild_lt {queue : List α} {k : Nat} (hk : k < queue.length / 2) (x : α) :
    lesserChild cmp queue k x < queue.length := by
  rcases lesserChild_cases cmp queue k x with h | ⟨h, hlt⟩
  · rw [h]
    omega
  · rw [h]
    exact hlt

theorem siftDown_perm (fuel : Nat) (queue : List α) (k : Nat) (x : α) :
    (siftDown cmp fuel queue k x).Perm (queue.set k x) := by
  induction fuel generalizing queue k with
  | zero => exact List.Perm.refl _
  | succ fuel ih =>
    unfold siftDown
    by_cases hhalf : k < queue.length / 2
    · have hchild := lesserChild_lt cmp hhalf x
      rw [if_pos hhalf]
      dsimp only
      split
      · exact List.Perm.refl _
      · exact (ih _ _).trans (move_perm (by omega) (getElem?_getD hchild x))
    · rw [if_neg hhalf]

theorem offer_perm (queue : List α) (x : α) : (offer cmp queue x).Perm (x :: queue) := by
  have hk : queue.length < (queue ++ [x]).length := by simp
  have hset : (queue ++ [x]).set queue.length x = queue ++ [x] := by simp
  have h := siftUp_perm cmp queue.length x hk
  rw [hset] at h
  exact h.trans (List.perm_append_singleton x queue)

theorem poll_perm (a : α) (queue : List α) : (poll cmp (a :: queue)).Perm queue := by
  unfold poll
  cases hlast : (a :: queue).getLast? with
  | none => simp at hlast
  | some x =>
    refine (siftDown_perm cmp _ _ 0 x).trans ?_
    cases queue with
    | nil => simp
    | cons b rest =>
      have hx : (b :: rest).getLast? = some x := by simpa using hlast
      have hsplit := List.dropLast_append_getLast? x hx
      have hset : (a :: b :: rest).dropLast.set 0 x = x :: (b :: rest).dropLast := rfl
      rw [hset]
      conv => rhs; rw [← hsplit]
      exact (List.perm_append_singleton x _).symm

end Elements

/-! ## The order of the keys -/

section Order

variable [LinearOrder β] (cmp : α → α → Int) (key : α → β)

/-- No element has a key below that of its parent. -/
def HeapOrdered (queue : List α) : Prop :=
  ∀ i a b, 0 < i → queue[parent i]? = some a → queue[i]? = some b → key a ≤ key b

/-- The comparisons of `siftUp` come out as those of the keys. -/
def UpAgrees : Nat → List α → Nat → α → Prop
  | 0, _, _, _ => True
  | fuel + 1, queue, k, x =>
    k = 0 ∨
      let e := queue.getD (parent k) x
      (0 ≤ cmp x e ↔ key e ≤ key x) ∧
        (0 ≤ cmp x e ∨ UpAgrees fuel (queue.set k e) (parent k) x)

/-- The comparisons of `siftDown` come out as those of the keys. -/
def DownAgrees : Nat → List α → Nat → α → Prop
  | 0, _, _, _ => True
  | fuel + 1, queue, k, x =>
    queue.length / 2 ≤ k ∨
      let left := queue.getD (2 * k + 1) x
      let right := queue.getD (2 * k + 2) x
      let child := lesserChild cmp queue k x
      let c := queue.getD child x
      (2 * k + 2 < queue.length → (0 < cmp left right ↔ key right < key left)) ∧
        (cmp x c ≤ 0 ↔ key x ≤ key c) ∧
        (cmp x c ≤ 0 ∨ DownAgrees fuel (queue.set k c) child x)

/-- The comparisons that `offer` makes come out as those of the keys. -/
def OfferAgrees (queue : List α) (x : α) : Prop :=
  UpAgrees cmp key queue.length (queue ++ [x]) queue.length x

/-- The comparisons that `poll` makes come out as those of the keys. -/
def PollAgrees (queue : List α) : Prop :=
  ∀ x, queue.getLast? = some x → DownAgrees cmp key queue.length queue.dropLast 0 x

variable {cmp key}

theorem HeapOrdered.head_le {a : α} {queue : List α} (h : HeapOrdered key (a :: queue)) :
    ∀ b ∈ queue, key a ≤ key b := by
  have hall : ∀ (i : Nat) (b : α), (a :: queue)[i]? = some b → key a ≤ key b := by
    intro i
    induction i using Nat.strongRecOn with
    | _ i ih =>
      intro b hb
      by_cases hi : i = 0
      · subst hi
        cases hb
        exact le_refl _
      · -- the parent is in the array, and above it is the head
        have hlt := parent_lt (Nat.pos_of_ne_zero hi)
        obtain ⟨hlen, -⟩ := List.getElem?_eq_some_iff.mp hb
        have hp := List.getElem?_eq_getElem (l := a :: queue) (i := parent i) (by omega)
        exact le_trans (ih (parent i) hlt _ hp) (h i _ b (Nat.pos_of_ne_zero hi) hp hb)
  intro b hb
  obtain ⟨i, hi⟩ := List.mem_iff_getElem?.mp hb
  exact hall (i + 1) b hi

/-- The children of `k` are not below its parent. -/
def Skips (key : α → β) (queue : List α) (k : Nat) : Prop :=
  ∀ i a b, 0 < k → 0 < i → parent i = k → queue[parent k]? = some a → queue[i]? = some b →
    key a ≤ key b

/-- A heap but for the edge into `k`. -/
structure UpOrdered (key : α → β) (queue : List α) (k : Nat) : Prop where
  except : ∀ i a b, 0 < i → i ≠ k → queue[parent i]? = some a → queue[i]? = some b →
    key a ≤ key b
  skips : Skips key queue k

/-- A heap but for the edges out of `k`. -/
structure DownOrdered (key : α → β) (queue : List α) (k : Nat) : Prop where
  except : ∀ i a b, 0 < i → parent i ≠ k → queue[parent i]? = some a → queue[i]? = some b →
    key a ≤ key b
  skips : Skips key queue k

variable {queue : List α} {k : Nat} {x : α}

theorem UpOrdered.finish (h : UpOrdered key queue k)
    (hstop : ∀ a b, 0 < k → queue[parent k]? = some a → queue[k]? = some b → key a ≤ key b) :
    HeapOrdered key queue := by
  intro i a b hi ha hb
  by_cases hik : i = k
  · subst hik
    exact hstop a b hi ha hb
  · exact h.except i a b hi hik ha hb

/-! The array after the hole has moved from `k` to `j`: the positions but these two are as they
were, and `x` and the element of `j` have changed places. -/

theorem getElem?_moved {i j : Nat} {e : α} (hik : i ≠ k) (hij : i ≠ j) :
    ((queue.set k e).set j x)[i]? = (queue.set k x)[i]? := by
  rw [List.getElem?_set_ne (Ne.symm hij), List.getElem?_set_ne (Ne.symm hik),
    List.getElem?_set_ne (Ne.symm hik)]

theorem getElem?_moved_from {j : Nat} {e : α} (hjk : j ≠ k) (hk : k < queue.length) :
    ((queue.set k e).set j x)[k]? = some e := by
  rw [List.getElem?_set_ne hjk, List.getElem?_set_self hk]

theorem getElem?_moved_to {j : Nat} {e : α} (hj : j < queue.length) :
    ((queue.set k e).set j x)[j]? = some x :=
  List.getElem?_set_self (by rw [List.length_set]; exact hj)

theorem UpOrdered.move {e : α} (h : UpOrdered key (queue.set k x) k) (hk : k < queue.length)
    (hpos : 0 < k) (he : queue[parent k]? = some e) (hlt : key x < key e) :
    UpOrdered key ((queue.set k e).set (parent k) x) (parent k) := by
  have hp := parent_lt hpos
  have hparent : (queue.set k x)[parent k]? = some e := by
    rw [List.getElem?_set_ne (by omega)]
    exact he
  have hk' : ((queue.set k e).set (parent k) x)[k]? = some e :=
    getElem?_moved_from (Nat.ne_of_lt hp) hk
  have hp' : ((queue.set k e).set (parent k) x)[parent k]? = some x :=
    getElem?_moved_to (Nat.lt_trans hp hk)
  constructor
  · intro i a b hi hip ha hb
    by_cases hik : i = k
    · subst hik
      rw [hp'] at ha
      rw [hk'] at hb
      cases ha
      cases hb
      exact le_of_lt hlt
    · rw [getElem?_moved hik hip] at hb
      by_cases hsibling : parent i = parent k
      · -- `x` is below its new parent's old element, which is not above the sibling
        rw [hsibling, hp'] at ha
        cases ha
        exact le_trans (le_of_lt hlt) (h.except i e b hi hik (by rw [hsibling]; exact hparent) hb)
      · by_cases hchild : parent i = k
        · -- the children of the hole get their grandparent as parent
          rw [hchild, hk'] at ha
          cases ha
          exact h.skips i e b hpos hi hchild hparent hb
        · rw [getElem?_moved hchild hsibling] at ha
          exact h.except i a b hi hik ha hb
  · intro i a b hpos' hi hpi ha hb
    have hpp := parent_lt hpos'
    rw [getElem?_moved (by omega) (by omega)] at ha
    have hae : key a ≤ key e := h.except (parent k) a e hpos' (by omega) ha hparent
    by_cases hik : i = k
    · subst hik
      rw [hk'] at hb
      cases hb
      exact hae
    · have hlt' := parent_lt hi
      rw [getElem?_moved hik (by omega)] at hb
      exact le_trans hae (h.except i e b hi hik (by rw [hpi]; exact hparent) hb)

theorem siftUp_ordered {fuel : Nat} (hfuel : k ≤ fuel) (hk : k < queue.length)
    (h : UpOrdered key (queue.set k x) k) (hagrees : UpAgrees cmp key fuel queue k x) :
    HeapOrdered key (siftUp cmp fuel queue k x) := by
  induction fuel generalizing queue k with
  | zero =>
    exact h.finish fun a b hpos => by omega
  | succ fuel ih =>
    unfold siftUp
    by_cases hzero : k = 0
    · rw [if_pos hzero]
      exact h.finish fun a b hpos => by omega
    · have hpos := Nat.pos_of_ne_zero hzero
      have hp := parent_lt hpos
      obtain ⟨htest, hrest⟩ := hagrees.resolve_left hzero
      have he := @getElem?_getD _ queue (parent k) (by omega) x
      rw [if_neg hzero]
      dsimp only
      -- the comparison is the one of the parent's element, and it agrees with the keys
      generalize queue.getD (parent k) x = e at *
      split
      · -- the loop stops: the edge into the hole is in order
        rename_i hstop
        refine h.finish fun a b _ ha hb => ?_
        rw [List.getElem?_set_ne (by omega), he] at ha
        rw [List.getElem?_set_self hk] at hb
        cases ha
        cases hb
        exact htest.mp hstop
      · -- the parent's element moves down, and the hole up
        rename_i hgo
        have hlt : key x < key e := not_le.mp fun hle => hgo (htest.mpr hle)
        exact ih (by omega) (by rw [List.length_set]; omega) (h.move hk hpos he hlt)
          (hrest.resolve_left hgo)

theorem offer_ordered (h : HeapOrdered key queue) (hagrees : OfferAgrees cmp key queue x) :
    HeapOrdered key (offer cmp queue x) := by
  have hset : (queue ++ [x]).set queue.length x = queue ++ [x] := by simp
  refine siftUp_ordered (Nat.le_refl _) (by simp) ?_ hagrees
  rw [hset]
  constructor
  · intro i a b hi hne ha hb
    obtain ⟨hlen, -⟩ := List.getElem?_eq_some_iff.mp hb
    have hlt := parent_lt hi
    have hi' : i < queue.length := by
      simp at hlen
      omega
    rw [List.getElem?_append_left (by omega)] at ha hb
    exact h i a b hi ha hb
  · -- the new position has no children
    intro i a b hpos hi hpi ha hb
    obtain ⟨hlen, -⟩ := List.getElem?_eq_some_iff.mp hb
    have hlt := parent_lt hi
    simp at hlen
    omega

theorem DownOrdered.finish (h : DownOrdered key queue k)
    (hstop : ∀ i a b, 0 < i → parent i = k → queue[k]? = some a → queue[i]? = some b →
      key a ≤ key b) : HeapOrdered key queue := by
  intro i a b hi ha hb
  by_cases hik : parent i = k
  · rw [hik] at ha
    exact hstop i a b hi hik ha hb
  · exact h.except i a b hi hik ha hb

theorem DownOrdered.move {j : Nat} {c : α} (h : DownOrdered key (queue.set k x) k)
    (hk : k < queue.length) (hpos : 0 < j) (hj : parent j = k) (hc : queue[j]? = some c)
    (hlt : key c < key x)
    (hleast : ∀ i b, 0 < i → parent i = k → queue[i]? = some b → key c ≤ key b) :
    DownOrdered key ((queue.set k c).set j x) j := by
  have hkj : k < j := hj ▸ parent_lt hpos
  obtain ⟨hjlen, -⟩ := List.getElem?_eq_some_iff.mp hc
  have hk' : ((queue.set k c).set j x)[k]? = some c := getElem?_moved_from (Nat.ne_of_gt hkj) hk
  have hj' : ((queue.set k c).set j x)[j]? = some x := getElem?_moved_to hjlen
  have hchild : (queue.set k x)[j]? = some c := by
    rw [List.getElem?_set_ne (by omega)]
    exact hc
  constructor
  · intro i a b hi hij ha hb
    have hilt := parent_lt hi
    by_cases hik : i = k
    · -- the element that moved up, against the parent of its new place
      subst hik
      rw [getElem?_moved (by omega) (by omega)] at ha
      rw [hk'] at hb
      cases hb
      exact h.skips j a c hi hpos hj ha hchild
    · by_cases hparent : parent i = k
      · rw [hparent, hk'] at ha
        cases ha
        by_cases hii : i = j
        · subst hii
          rw [hj'] at hb
          cases hb
          exact le_of_lt hlt
        · -- the sibling of the place that `x` has got
          rw [getElem?_moved hik hii, List.getElem?_set_ne (Ne.symm hik)] at hb
          exact hleast i b hi hparent hb
      · have hii : i ≠ j := by
          intro heq
          rw [heq] at hparent
          exact hparent hj
        rw [getElem?_moved hparent hij] at ha
        rw [getElem?_moved hik hii] at hb
        exact h.except i a b hi hparent ha hb
  · intro i a b _ hi hpi ha hb
    have hilt := parent_lt hi
    rw [hj, hk'] at ha
    cases ha
    rw [getElem?_moved (by omega) (by omega)] at hb
    exact h.except i c b hi (by omega) (by rw [hpi]; exact hchild) hb

/-- The child that the hole moves to is the least. -/
theorem lesserChild_le
    (hagrees : 2 * k + 2 < queue.length → (0 < cmp (queue.getD (2 * k + 1) x)
      (queue.getD (2 * k + 2) x) ↔ key (queue.getD (2 * k + 2) x) < key (queue.getD (2 * k + 1) x)))
    {i : Nat} {b : α} (hi : 0 < i) (hpi : parent i = k) (hb : queue[i]? = some b) :
    key (queue.getD (lesserChild cmp queue k x) x) ≤ key b := by
  obtain ⟨hlen, -⟩ := List.getElem?_eq_some_iff.mp hb
  have hvalue : queue.getD i x = b := by
    rw [List.getD_eq_getElem?_getD, hb]
    rfl
  unfold lesserChild
  dsimp only
  rcases child_cases hi hpi with rfl | rfl
  · rw [hvalue] at hagrees ⊢
    split
    · rename_i hright
      exact le_of_lt ((hagrees hright.1).mp hright.2)
    · exact le_of_eq (congrArg key hvalue)
  · have hlt := hagrees hlen
    rw [hvalue] at hlt ⊢
    split
    · exact le_of_eq (congrArg key hvalue)
    · rename_i hleft
      exact not_lt.mp fun hbelow => hleft ⟨hlen, hlt.mpr hbelow⟩

theorem siftDown_ordered {fuel : Nat} (hfuel : queue.length ≤ k + fuel) (hk : k < queue.length)
    (h : DownOrdered key (queue.set k x) k) (hagrees : DownAgrees cmp key fuel queue k x) :
    HeapOrdered key (siftDown cmp fuel queue k x) := by
  induction fuel generalizing queue k with
  | zero => omega
  | succ fuel ih =>
    unfold siftDown
    by_cases hhalf : k < queue.length / 2
    · obtain ⟨hchildren, htest, hrest⟩ := hagrees.resolve_left (by omega)
      have hcases := lesserChild_cases cmp queue k x
      have hlt := lesserChild_lt cmp hhalf x
      have hleast := fun i b => lesserChild_le (i := i) (b := b) hchildren
      have hc := getElem?_getD hlt x
      rw [if_pos hhalf]
      dsimp only
      have hparent : parent (lesserChild cmp queue k x) = k := by
        rcases hcases with heq | ⟨heq, -⟩
        · rw [heq, parent_left]
        · rw [heq, parent_right]
      have hkj : k < lesserChild cmp queue k x := by omega
      generalize lesserChild cmp queue k x = j at *
      generalize queue.getD j x = c at *
      split
      · rename_i hstop
        refine h.finish fun i a b hi hpi ha hb => ?_
        have hilt := parent_lt hi
        rw [List.getElem?_set_self hk] at ha
        rw [List.getElem?_set_ne (by omega)] at hb
        cases ha
        exact le_trans (htest.mp hstop) (hleast i b hi hpi hb)
      · rename_i hgo
        have hbelow : key c < key x := not_le.mp fun hle => hgo (htest.mpr hle)
        exact ih (by rw [List.length_set]; omega) (by rw [List.length_set]; exact hlt)
          (h.move hk (by omega) hparent hc hbelow hleast) (hrest.resolve_left hgo)
    · -- the hole has no children
      rw [if_neg hhalf]
      refine h.finish fun i a b hi hpi _ hb => ?_
      obtain ⟨hlen, -⟩ := List.getElem?_eq_some_iff.mp hb
      rw [List.length_set] at hlen
      have hi' := child_cases hi hpi
      omega

theorem poll_ordered (h : HeapOrdered key queue) (hagrees : PollAgrees cmp key queue) :
    HeapOrdered key (poll cmp queue) := by
  unfold poll
  cases hlast : queue.getLast? with
  | none => exact fun i a b _ ha => by cases ha
  | some x =>
    dsimp only
    by_cases hempty : queue.dropLast = []
    · -- the last element was the only one
      rw [hempty]
      have hnil : siftDown cmp queue.length [] 0 x = [] := (siftDown_perm cmp _ [] 0 x).eq_nil
      rw [hnil]
      exact fun i a b _ ha => by cases ha
    · have hlen := List.length_pos_iff.mpr hempty
      refine siftDown_ordered ?_ hlen ?_ (hagrees x hlast)
      · rw [List.length_dropLast]
        omega
      · constructor
        · -- without its last element the heap is in order but for the head, which the hole replaces
          intro i a b hi hne ha hb
          have hilt := parent_lt hi
          rw [List.getElem?_set_ne (Ne.symm hne)] at ha
          rw [List.getElem?_set_ne (by omega)] at hb
          rw [List.getElem?_dropLast] at ha hb
          split at hb
          · rw [if_pos (by omega)] at ha
            exact h i a b hi ha hb
          · cases hb
        · intro i a b hpos
          exact absurd hpos (Nat.lt_irrefl 0)

/-! ## Elements that are compared rightly -/

/-- The comparison of two elements has the sign of that of their keys. -/
structure SignAgrees (cmp : α → α → Int) (key : α → β) (a b : α) : Prop where
  negative : cmp a b < 0 ↔ key a < key b
  positive : 0 < cmp a b ↔ key b < key a

theorem SignAgrees.nonneg {a b : α} (h : SignAgrees cmp key a b) : 0 ≤ cmp a b ↔ key b ≤ key a := by
  rw [← Int.not_lt, ← not_lt, h.negative]

theorem SignAgrees.nonpos {a b : α} (h : SignAgrees cmp key a b) : cmp a b ≤ 0 ↔ key a ≤ key b := by
  rw [← Int.not_lt, ← not_lt, h.positive]

theorem getD_mem_cons (queue : List α) (k : Nat) (x : α) : queue.getD k x ∈ x :: queue := by
  rw [List.getD_eq_getElem?_getD]
  cases h : queue[k]? with
  | none => exact List.mem_cons_self
  | some a => exact List.mem_cons_of_mem x (List.mem_of_getElem? h)

theorem mem_cons_set {e b : α} (he : e ∈ x :: queue) (hb : b ∈ x :: queue.set k e) :
    b ∈ x :: queue := by
  rcases List.mem_cons.mp hb with rfl | hmem
  · exact List.mem_cons_self
  · rcases List.mem_or_eq_of_mem_set hmem with hold | rfl
    · exact List.mem_cons_of_mem x hold
    · exact he

theorem upAgrees_of_forall {fuel : Nat}
    (h : ∀ a ∈ x :: queue, ∀ b ∈ x :: queue, SignAgrees cmp key a b) :
    UpAgrees cmp key fuel queue k x := by
  induction fuel generalizing queue k with
  | zero => trivial
  | succ fuel ih =>
    have he := getD_mem_cons queue (parent k) x
    refine Or.inr ⟨(h x List.mem_cons_self _ he).nonneg, Or.inr (ih fun a ha b hb => ?_)⟩
    exact h a (mem_cons_set he ha) b (mem_cons_set he hb)

theorem downAgrees_of_forall {fuel : Nat}
    (h : ∀ a ∈ x :: queue, ∀ b ∈ x :: queue, SignAgrees cmp key a b) :
    DownAgrees cmp key fuel queue k x := by
  induction fuel generalizing queue k with
  | zero => trivial
  | succ fuel ih =>
    have hc := getD_mem_cons queue (lesserChild cmp queue k x) x
    refine Or.inr ⟨fun _ => ?_, (h x List.mem_cons_self _ hc).nonpos,
      Or.inr (ih fun a ha b hb => ?_)⟩
    · exact (h _ (getD_mem_cons queue _ x) _ (getD_mem_cons queue _ x)).positive
    · exact h a (mem_cons_set hc ha) b (mem_cons_set hc hb)

theorem offerAgrees_of_forall
    (h : ∀ a ∈ x :: queue, ∀ b ∈ x :: queue, SignAgrees cmp key a b) :
    OfferAgrees cmp key queue x := by
  have hmem : ∀ a ∈ x :: (queue ++ [x]), a ∈ x :: queue := by
    intro a ha
    simp only [List.mem_cons, List.mem_append, List.not_mem_nil, or_false] at ha ⊢
    tauto
  exact upAgrees_of_forall fun a ha b hb => h a (hmem a ha) b (hmem b hb)

theorem pollAgrees_of_forall (h : ∀ a ∈ queue, ∀ b ∈ queue, SignAgrees cmp key a b) :
    PollAgrees cmp key queue := by
  intro x hx
  have hmem : ∀ a ∈ x :: queue.dropLast, a ∈ queue := by
    intro a ha
    rcases List.mem_cons.mp ha with rfl | hdrop
    · exact List.mem_of_getLast? hx
    · exact List.dropLast_subset _ hdrop
  exact downAgrees_of_forall fun a ha b hb => h a (hmem a ha) b (hmem b hb)

end Order

end PriorityQueue
