import Mathlib.Logic.Function.Basic
import Coursework.ForStd.List

/-!
# Ring buffers

A queue in an array of fixed capacity. `front` is the place of the oldest element and `rear`
the place after the newest one; both go round at the end of the array. The proof-facing view
is the list of the elements, oldest first.

## Key results

- `contents_push`, `contents_pop`, `contents_set`: the operations on the list of the elements
- `findLast_eq`: the scan from `front` to `rear` finds the last element that passes
-/

/-- A queue in an array. -/
structure RingBuffer (α : Type) where
  capacity : Nat
  front : Nat
  rear : Nat
  size : Nat
  slots : Nat → α

namespace RingBuffer

variable {α : Type} {r : RingBuffer α}

/-- The place after `i`. -/
def advance (r : RingBuffer α) (i : Nat) : Nat :=
  if i + 1 = r.capacity then 0 else i + 1

/-- The place before `i`. -/
def retreat (r : RingBuffer α) (i : Nat) : Nat :=
  if i = 0 then r.capacity - 1 else i - 1

def push (r : RingBuffer α) (a : α) : RingBuffer α :=
  { r with
    slots := Function.update r.slots r.rear a
    size := r.size + 1
    rear := r.advance r.rear }

def pop (r : RingBuffer α) : RingBuffer α :=
  { r with size := r.size - 1, front := r.advance r.front }

/-- Overwrites the element at place `i`. -/
def set (r : RingBuffer α) (i : Nat) (a : α) : RingBuffer α :=
  { r with slots := Function.update r.slots i a }

/-- Goes from place `i` to `rear`, and remembers the last place whose element passes `p`. -/
def scan (r : RingBuffer α) (p : α → Bool) : Nat → Nat → Option Nat → Option Nat
  | 0, _, found => found
  | fuel + 1, i, found =>
    if i = r.rear then found
    else r.scan p fuel (r.advance i) (if p (r.slots i) then some i else found)

/-- The place of the last element that passes `p`. A buffer that is not full has its `rear`
    within one round from `front`. -/
def findLast (r : RingBuffer α) (p : α → Bool) : Option Nat :=
  r.scan p r.capacity r.front none

/-! ## The list of the elements -/

/-- The numbers of a buffer fit together. -/
structure WF (r : RingBuffer α) : Prop where
  front_lt : r.front < r.capacity
  rear_eq : r.rear = (r.front + r.size) % r.capacity
  size_le : r.size ≤ r.capacity

/-- The place of the `k`-th oldest element. -/
def place (r : RingBuffer α) (k : Nat) : Nat :=
  (r.front + k) % r.capacity

/-- The elements, oldest first. -/
def contents (r : RingBuffer α) : List α :=
  (List.range r.size).map fun k => r.slots (r.place k)

@[simp] theorem length_contents (r : RingBuffer α) : r.contents.length = r.size := by
  simp [contents]

theorem getElem?_contents {k : Nat} (hk : k < r.size) :
    r.contents[k]? = some (r.slots (r.place k)) := by
  simp [contents, hk]

theorem getLast?_contents (hpos : 0 < r.size) :
    r.contents.getLast? = some (r.slots (r.place (r.size - 1))) := by
  rw [List.getLast?_eq_getElem?, length_contents, getElem?_contents (by omega)]

theorem place_eq (hwf : r.WF) {k : Nat} (hk : k ≤ r.capacity) :
    r.place k = if r.front + k < r.capacity then r.front + k else r.front + k - r.capacity := by
  have hf := hwf.front_lt
  rw [place]
  split
  · rename_i hlt
    exact Nat.mod_eq_of_lt hlt
  · rename_i hge
    rw [Nat.mod_eq_sub_mod (by omega)]
    exact Nat.mod_eq_of_lt (by omega)

theorem place_lt (hwf : r.WF) (k : Nat) : r.place k < r.capacity :=
  Nat.mod_lt _ (Nat.zero_lt_of_lt hwf.front_lt)

theorem place_zero (hwf : r.WF) : r.place 0 = r.front :=
  Nat.mod_eq_of_lt hwf.front_lt

theorem place_inj (hwf : r.WF) {j k : Nat} (hj : j < r.capacity) (hk : k < r.capacity)
    (h : r.place j = r.place k) : j = k := by
  have hf := hwf.front_lt
  rw [place_eq hwf (by omega), place_eq hwf (by omega)] at h
  split at h <;> split at h <;> omega

theorem advance_place (hwf : r.WF) {k : Nat} (hk : k < r.capacity) :
    r.advance (r.place k) = r.place (k + 1) := by
  have hf := hwf.front_lt
  rw [advance, place_eq hwf (by omega), place_eq hwf (by omega)]
  split <;> split <;> split <;> omega

theorem retreat_place (hwf : r.WF) {k : Nat} (hk : k < r.capacity) :
    r.retreat (r.place (k + 1)) = r.place k := by
  have hf := hwf.front_lt
  rw [retreat, place_eq hwf (by omega), place_eq hwf (by omega)]
  split <;> split <;> split <;> omega

theorem advance_front (hwf : r.WF) : r.advance r.front = r.place 1 := by
  have h := advance_place hwf (Nat.zero_lt_of_lt hwf.front_lt)
  rwa [place_zero hwf] at h

theorem rear_eq_place (hwf : r.WF) : r.rear = r.place r.size := hwf.rear_eq

/-! ## The operations -/

theorem WF.push (hwf : r.WF) (hroom : r.size < r.capacity) (a : α) : (r.push a).WF := by
  refine ⟨hwf.front_lt, ?_, hroom⟩
  show r.advance r.rear = _
  rw [rear_eq_place hwf, advance_place hwf hroom]
  rfl

theorem contents_push (hwf : r.WF) (hroom : r.size < r.capacity) (a : α) :
    (r.push a).contents = r.contents ++ [a] := by
  have hslot : ∀ k ≤ r.size, (r.push a).slots (r.place k) =
      if k = r.size then a else r.slots (r.place k) := by
    intro k hk
    show Function.update r.slots r.rear a (r.place k) = _
    rw [rear_eq_place hwf]
    by_cases hks : k = r.size
    · rw [hks, Function.update_self, if_pos rfl]
    · have hne : r.place k ≠ r.place r.size := fun h =>
        hks (place_inj hwf (by omega) (by omega) h)
      rw [Function.update_of_ne hne, if_neg hks]
  show (List.range (r.size + 1)).map (fun k => (r.push a).slots (r.place k)) = _
  rw [List.range_succ, List.map_append, List.map_singleton, hslot r.size (Nat.le_refl _),
    if_pos rfl, contents]
  congr 1
  apply List.map_congr_left
  intro k hk
  have hlt := List.mem_range.mp hk
  rw [hslot k (by omega), if_neg (by omega)]

theorem WF.pop (hwf : r.WF) (hpos : 0 < r.size) : r.pop.WF := by
  have hs := hwf.size_le
  refine ⟨?_, ?_, ?_⟩
  · show r.advance r.front < r.capacity
    rw [advance_front hwf]
    exact place_lt hwf 1
  · show r.rear = (r.advance r.front + (r.size - 1)) % r.capacity
    rw [advance_front hwf, place, Nat.mod_add_mod, hwf.rear_eq]
    congr 1
    omega
  · show r.size - 1 ≤ r.capacity
    omega

theorem contents_pop (hwf : r.WF) (hpos : 0 < r.size) :
    r.contents = r.slots r.front :: r.pop.contents := by
  have hplace : ∀ k, r.pop.place k = r.place (k + 1) := by
    intro k
    show (r.advance r.front + k) % r.capacity = (r.front + (k + 1)) % r.capacity
    rw [advance_front hwf, place, Nat.mod_add_mod]
    congr 1
    omega
  obtain ⟨n, hn⟩ : ∃ n, r.size = n + 1 := ⟨r.size - 1, by omega⟩
  have hsize : r.pop.size = n := by
    show r.size - 1 = n
    omega
  rw [contents, contents, hn, hsize, List.range_succ_eq_map, List.map_cons, List.map_map,
    place_zero hwf]
  congr 1
  apply List.map_congr_left
  intro k _
  show r.slots (r.place (k + 1)) = r.slots (r.pop.place k)
  rw [hplace]

theorem WF.set (hwf : r.WF) (i : Nat) (a : α) : (r.set i a).WF :=
  ⟨hwf.front_lt, hwf.rear_eq, hwf.size_le⟩

theorem contents_set (hwf : r.WF) {k : Nat} (hk : k < r.size) (a : α) :
    (r.set (r.place k) a).contents = r.contents.set k a := by
  have hs := hwf.size_le
  apply List.ext_getElem?
  intro j
  rw [List.getElem?_set]
  by_cases hj : j < r.size
  · rw [getElem?_contents (r := r.set (r.place k) a) hj, length_contents]
    show some (Function.update r.slots (r.place k) a (r.place j)) = _
    by_cases hkj : k = j
    · rw [if_pos hkj, if_pos hk, hkj, Function.update_self]
    · have hne : r.place j ≠ r.place k := fun h => hkj (place_inj hwf (by omega) (by omega) h.symm)
      rw [if_neg hkj, Function.update_of_ne hne, getElem?_contents hj]
  · have hlen : (r.set (r.place k) a).contents.length ≤ j := by
      rw [length_contents]
      exact Nat.le_of_not_lt hj
    rw [if_neg (by omega), List.getElem?_eq_none hlen,
      List.getElem?_eq_none (by rw [length_contents]; omega)]

theorem drop_contents {k : Nat} (hk : k < r.size) :
    r.contents.drop k = r.slots (r.place k) :: r.contents.drop (k + 1) := by
  have hlen : k < r.contents.length := by
    rw [length_contents]
    exact hk
  rw [List.drop_eq_getElem_cons hlen]
  congr 1
  exact Option.some.inj ((List.getElem?_eq_getElem hlen).symm.trans (getElem?_contents hk))

/-- The scan from the `k`-th element sees all elements from there on. -/
theorem scan_eq (hwf : r.WF) (hroom : r.size < r.capacity) (p : α → Bool) :
    ∀ (fuel k : Nat) (found : Option Nat), k ≤ r.size → r.size - k < fuel →
      r.scan p fuel (r.place k) found =
        match (r.contents.drop k).findLastIdx? p with
        | some j => some (r.place (k + j))
        | none => found := by
  intro fuel
  -- the fuel outlasts the elements that are left
  induction fuel with
  | zero => intro k found _ hfuel; omega
  | succ fuel ih =>
    intro k found hk hfuel
    simp only [scan]
    by_cases hend : k = r.size
    · rw [if_pos (by rw [hend, rear_eq_place hwf]), hend,
        List.drop_eq_nil_of_le (by rw [length_contents])]
      rfl
    · have hne : r.place k ≠ r.rear := by
        rw [rear_eq_place hwf]
        exact fun h => hend (place_inj hwf (by omega) hroom h)
      have hlt : k < r.size := by omega
      rw [if_neg hne, advance_place hwf (by omega), ih (k + 1) _ (by omega) (by omega),
        drop_contents hlt, List.findLastIdx?]
      -- a later element wins over this one
      cases (r.contents.drop (k + 1)).findLastIdx? p with
      | some j =>
        show some (r.place (k + 1 + j)) = some (r.place (k + (j + 1)))
        rw [show k + 1 + j = k + (j + 1) by omega]
      | none =>
        cases p (r.slots (r.place k)) with
        | true => rfl
        | false => rfl

/-- The search finds the last element that passes, in the order of the queue. -/
theorem findLast_eq (hwf : r.WF) (hroom : r.size < r.capacity) (p : α → Bool) :
    r.findLast p = (r.contents.findLastIdx? p).map r.place := by
  have hscan := scan_eq hwf hroom p r.capacity 0 none (Nat.zero_le _) (by omega)
  rw [place_zero hwf, List.drop_zero] at hscan
  rw [findLast, hscan]
  cases r.contents.findLastIdx? p with
  | none => rfl
  | some j =>
    show some (r.place (0 + j)) = some (r.place j)
    rw [Nat.zero_add]

theorem findLast_some (hwf : r.WF) (hroom : r.size < r.capacity) {p : α → Bool} {i : Nat}
    (h : r.findLast p = some i) : ∃ k < r.size, i = r.place k ∧ p (r.slots i) = true := by
  rw [findLast_eq hwf hroom] at h
  obtain ⟨k, hfound, rfl⟩ := Option.map_eq_some_iff.mp h
  obtain ⟨⟨a, ha, hp⟩, -⟩ := List.findLastIdx?_eq_some hfound
  have hk : k < r.size := by
    have hlt := (List.getElem?_eq_some_iff.mp ha).1
    rwa [length_contents] at hlt
  rw [getElem?_contents hk] at ha
  exact ⟨k, hk, rfl, by rw [Option.some.inj ha]; exact hp⟩

end RingBuffer
