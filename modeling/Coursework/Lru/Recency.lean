import Mathlib.Data.List.Basic
import Mathlib.Data.List.Nodup
import Mathlib.Data.Finite.Prod
import Mathlib.Data.Finset.Card
import Mathlib.Data.Fintype.EquivFin

/-!
# Recency lists

The distinct elements of a history, the one used last first, and how a bounded prefix of
that list changes with one more use. `Ranked` is the usual encoding of such a list: the
elements stand in fixed places, and each place has a number that says how recently its
element was used.

## Key results

- `take_touch_of_mem` / `take_touch_of_notMem`: the `k` most recent elements after a use
  depend only on the `k` most recent elements before it
- `Ranked.promote`, `Ranked.push`, `Ranked.replace`: the three updates of the numbers
-/

namespace Lru

section Recent

variable {α : Type} [DecidableEq α]

/-- `a` becomes the most recent element. -/
def touch (r : List α) (a : α) : List α :=
  a :: r.erase a

/-- The distinct elements of `l`, a history with the oldest use first, ordered by their last
    use, the most recent first. -/
def recent (l : List α) : List α :=
  l.foldl touch []

@[simp] theorem recent_nil : recent ([] : List α) = [] := rfl

@[simp] theorem recent_concat (l : List α) (a : α) :
    recent (l ++ [a]) = touch (recent l) a := by
  simp [recent]

theorem nodup_touch {r : List α} (h : r.Nodup) (a : α) : (touch r a).Nodup := by
  rw [touch, List.nodup_cons]
  exact ⟨h.not_mem_erase, h.erase a⟩

theorem nodup_recent (l : List α) : (recent l).Nodup := by
  induction l using List.reverseRecOn with
  | nil => exact List.nodup_nil
  | append_singleton l a ih => rw [recent_concat]; exact nodup_touch ih a

theorem mem_recent {l : List α} {a : α} : a ∈ recent l ↔ a ∈ l := by
  induction l using List.reverseRecOn with
  | nil => simp
  | append_singleton l b ih =>
    rw [recent_concat, touch, List.mem_cons, List.mem_append, List.mem_singleton, ← ih]
    by_cases hab : a = b
    · simp [hab]
    · simp [hab, List.mem_erase_of_ne hab]

theorem length_recent (l : List α) : (recent l).length = l.toFinset.card := by
  rw [← List.toFinset_card_of_nodup (nodup_recent l)]
  congr 1
  ext a
  simp [mem_recent]

/-- Using one of the `k` most recent elements only moves it to the front. -/
theorem take_touch_of_mem {r : List α} {k : Nat} {a : α} (h : a ∈ r.take k) :
    (touch r a).take k = touch (r.take k) a := by
  obtain ⟨n, rfl⟩ : ∃ n, k = n + 1 := ⟨k - 1, by cases k with
    | zero => simp at h
    | succ n => simp⟩
  have hsplit : r.erase a = (r.take (n + 1)).erase a ++ r.drop (n + 1) := by
    rw [← List.erase_append_left _ h, List.take_append_drop]
  have hlen : ((r.take (n + 1)).erase a).length = min n (r.length - 1) := by
    rw [List.length_erase_of_mem h, List.length_take]
    omega
  rw [touch, touch, List.take_succ_cons, hsplit]
  congr 1
  by_cases hn : n < r.length
  · exact List.take_left' (by omega)
  · rw [List.drop_of_length_le (by omega), List.append_nil, List.take_of_length_le (by omega)]

/-- Using any other element puts it in front of them, and the last one drops out. -/
theorem take_touch_of_notMem {r : List α} {k : Nat} {a : α} (h : a ∉ r.take k) :
    (touch r a).take k = (a :: r.take k).take k := by
  have hsplit : r.erase a = r.take k ++ (r.drop k).erase a := by
    rw [← List.erase_append_right _ h, List.take_append_drop]
  cases k with
  | zero => rfl
  | succ k =>
    rw [touch, hsplit, List.take_succ_cons, List.take_succ_cons]
    congr 1
    by_cases hk : k ≤ r.length
    · exact List.take_append_of_le_length (by rw [List.length_take]; omega)
    · rw [List.drop_of_length_le (by omega), List.erase_nil, List.append_nil]

end Recent

/-! ## Numbers for the places -/

/-- The places `0 .. r.length - 1` hold the elements of `r`: the element at place `i` is
    `key i`, and `rank i` says where in `r` it stands. -/
structure Ranked {α : Type} (r : List α) (key : Nat → α) (rank : Nat → Nat) : Prop where
  get : ∀ i < r.length, r[rank i]? = some (key i)
  inj : ∀ i < r.length, ∀ j < r.length, rank i = rank j → i = j

namespace Ranked

variable {α : Type} {r : List α} {key : Nat → α} {rank : Nat → Nat}

theorem rank_lt (h : Ranked r key rank) {i : Nat} (hi : i < r.length) : rank i < r.length := by
  by_contra hge
  have hget := h.get i hi
  rw [List.getElem?_eq_none (by omega)] at hget
  cases hget

/-- Every number below the number of places is that of a place. -/
theorem exists_rank (h : Ranked r key rank) {n : Nat} (hn : n < r.length) :
    ∃ i < r.length, rank i = n := by
  let f : Fin r.length → Fin r.length := fun i => ⟨rank i, h.rank_lt i.isLt⟩
  have hinj : Function.Injective f := by
    intro i j hij
    exact Fin.ext (h.inj i i.isLt j j.isLt (congrArg Fin.val hij))
  obtain ⟨i, hi⟩ := Finite.surjective_of_injective hinj ⟨n, hn⟩
  exact ⟨i, i.isLt, congrArg Fin.val hi⟩

theorem key_inj (h : Ranked r key rank) (hr : r.Nodup) {i j : Nat} (hi : i < r.length)
    (hj : j < r.length) (hkey : key i = key j) : i = j := by
  apply h.inj i hi j hj
  exact (List.getElem?_inj (h.rank_lt hi) hr).mp
    ((h.get i hi).trans ((congrArg some hkey).trans (h.get j hj).symm))

theorem mem_iff (h : Ranked r key rank) {a : α} : a ∈ r ↔ ∃ i < r.length, key i = a := by
  constructor
  · intro ha
    obtain ⟨n, hn, hget⟩ := List.getElem_of_mem ha
    obtain ⟨i, hi, hrank⟩ := h.exists_rank hn
    have hkey := h.get i hi
    rw [hrank, List.getElem?_eq_getElem hn, hget] at hkey
    exact ⟨i, hi, (Option.some.inj hkey).symm⟩
  · intro ⟨i, hi, hkey⟩
    exact List.mem_of_getElem? ((h.get i hi).trans (congrArg some hkey))

/-- The element at place `i` is used: the numbers below its number go up by one, and its
    number becomes `0`. -/
theorem promote [DecidableEq α] (h : Ranked r key rank) (hr : r.Nodup) {i : Nat} (hi : i < r.length)
    {rank' : Nat → Nat} (hself : rank' i = 0)
    (hother : ∀ j < r.length, j ≠ i →
      rank' j = if rank j < rank i then rank j + 1 else rank j) :
    Ranked (touch r (key i)) key rank' := by
  have hlt := h.rank_lt hi
  have hget : r[rank i] = key i := by
    have := h.get i hi
    rwa [List.getElem?_eq_getElem hlt, Option.some.injEq] at this
  -- `touch` takes the key out at its rank and puts it in front
  have htouch : touch r (key i) = key i :: r.eraseIdx (rank i) := by
    rw [touch, ← hget, hr.erase_getElem]
  have hlen : (touch r (key i)).length = r.length := by
    rw [htouch, List.length_cons, List.length_eraseIdx_of_lt hlt]
    omega
  have hne : ∀ j < r.length, j ≠ i → rank j ≠ rank i := fun j hj hji hEq =>
    hji (h.inj j hj i hi hEq)
  constructor
  · intro j hj
    rw [hlen] at hj
    by_cases hji : j = i
    · subst hji
      rw [hself, htouch, List.getElem?_cons_zero]
    · have hneq := hne j hj hji
      rw [hother j hj hji, htouch]
      split
      · -- it was more recent than the one moved to the front, so it moves back by one
        rename_i hbelow
        rw [List.getElem?_cons_succ, List.getElem?_eraseIdx_of_lt hbelow]
        exact h.get j hj
      · -- it was less recent, so its place does not change
        rename_i habove
        obtain ⟨n, hn⟩ : ∃ n, rank j = n + 1 := ⟨rank j - 1, by omega⟩
        rw [hn, List.getElem?_cons_succ, List.getElem?_eraseIdx_of_ge (by omega), ← hn]
        exact h.get j hj
  · intro j hj l hl heq
    rw [hlen] at hj hl
    by_cases hji : j = i
    · by_cases hli : l = i
      · rw [hji, hli]
      · have hneq := hne l hl hli
        rw [hji, hself, hother l hl hli] at heq
        split at heq <;> omega
    · by_cases hli : l = i
      · have hneq := hne j hj hji
        rw [hli, hself, hother j hj hji] at heq
        split at heq <;> omega
      · -- neither is the one moved: equal new ranks come from equal old ranks
        have hj' := hne j hj hji
        have hl' := hne l hl hli
        rw [hother j hj hji, hother l hl hli] at heq
        apply h.inj j hj l hl
        split at heq <;> split at heq <;> omega

/-- A new element is put into the first empty place: all numbers go up by one. -/
theorem push (h : Ranked r key rank) {a : α} {key' : Nat → α} {rank' : Nat → Nat}
    (hkey : key' r.length = a) (hrank : rank' r.length = 0)
    (hother : ∀ j < r.length, key' j = key j ∧ rank' j = rank j + 1) :
    Ranked (a :: r) key' rank' := by
  constructor
  · intro j hj
    by_cases hjr : j = r.length
    · subst hjr
      rw [hrank, hkey, List.getElem?_cons_zero]
    · obtain ⟨hk, hn⟩ := hother j (by rw [List.length_cons] at hj; omega)
      rw [hn, hk, List.getElem?_cons_succ]
      exact h.get j (by rw [List.length_cons] at hj; omega)
  · intro j hj l hl heq
    rw [List.length_cons] at hj hl
    by_cases hjr : j = r.length
    · by_cases hlr : l = r.length
      · omega
      · rw [hjr, hrank, (hother l (by omega)).2] at heq
        omega
    · by_cases hlr : l = r.length
      · rw [hlr, hrank, (hother j (by omega)).2] at heq
        omega
      · rw [(hother j (by omega)).2, (hother l (by omega)).2] at heq
        exact h.inj j (by omega) l (by omega) (by omega)

/-- All places are taken, and a new element replaces the one used longest ago: all numbers
    go up by one, and the place where the number reaches the number of places takes the new
    element. -/
theorem replace (h : Ranked r key rank) (hpos : 0 < r.length) {a : α} {key' : Nat → α}
    {rank' : Nat → Nat}
    (hlast : ∀ j < r.length, rank j + 1 = r.length → key' j = a ∧ rank' j = 0)
    (hother : ∀ j < r.length, rank j + 1 ≠ r.length → key' j = key j ∧ rank' j = rank j + 1) :
    Ranked (a :: r.dropLast) key' rank' := by
  have hlen : (a :: r.dropLast).length = r.length := by
    rw [List.length_cons, List.length_dropLast]
    omega
  constructor
  · intro j hj
    rw [hlen] at hj
    by_cases hl : rank j + 1 = r.length
    · rw [(hlast j hj hl).1, (hlast j hj hl).2, List.getElem?_cons_zero]
    · have hlt := h.rank_lt hj
      rw [(hother j hj hl).1, (hother j hj hl).2, List.getElem?_cons_succ, List.getElem?_dropLast,
        if_pos (by omega)]
      exact h.get j hj
  · intro j hj l hl heq
    rw [hlen] at hj hl
    apply h.inj j hj l hl
    by_cases hjr : rank j + 1 = r.length
    · by_cases hlr : rank l + 1 = r.length
      · omega
      · rw [(hlast j hj hjr).2, (hother l hl hlr).2] at heq
        omega
    · by_cases hlr : rank l + 1 = r.length
      · rw [(hother j hj hjr).2, (hlast l hl hlr).2] at heq
        omega
      · rw [(hother j hj hjr).2, (hother l hl hlr).2] at heq
        omega

end Ranked

end Lru
