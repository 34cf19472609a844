import Mathlib.Algebra.BigOperators.Group.List.Basic
import Mathlib.Data.List.Nodup
import Mathlib.Algebra.Ring.Int.Defs

/-!
# List lemmas for the standard library

Rows that are found and changed by a key. Candidates for upstreaming to Lean's standard library.
-/

namespace List

variable {α κ : Type} [DecidableEq κ] {key : α → κ} {k : κ} {l : List α}

/-- Changing the rows with key `k`. -/
def updateKey (l : List α) (key : α → κ) (k : κ) (f : α → α) : List α :=
  l.map fun a => if key a = k then f a else a

theorem mem_updateKey {f : α → α} {b : α} :
    b ∈ l.updateKey key k f ↔ ∃ a ∈ l, (if key a = k then f a else a) = b :=
  mem_map

/-- A change that keeps a column keeps the whole column. -/
theorem map_updateKey {β : Type} {column : α → β} {f : α → α}
    (h : ∀ a, column (f a) = column a) : (l.updateKey key k f).map column = l.map column := by
  rw [updateKey, map_map]
  apply map_congr_left
  intro a _
  simp only [Function.comp_apply]
  split
  · exact h a
  · rfl

/-- Nothing changes if no row has the key. -/
theorem updateKey_of_notMem {f : α → α} (h : k ∉ l.map key) : l.updateKey key k f = l := by
  rw [updateKey]
  conv => rhs; rw [← map_id l]
  apply map_congr_left
  intro a ha
  rw [if_neg]
  · rfl
  · intro heq
    exact h (heq ▸ mem_map_of_mem ha)

/-- With distinct keys, the sum of a column changes by what changes in the one row. -/
theorem sum_updateKey {value : α → Int} {f : α → α} :
    ∀ {l : List α}, (l.map key).Nodup → ∀ a ∈ l, key a = k →
    ((l.updateKey key k f).map value).sum = (l.map value).sum - value a + value (f a) := by
  intro l
  induction l with
  | nil => exact fun _ a ha => absurd ha not_mem_nil
  | cons b l ih =>
    intro hnd a ha hk
    rw [map_cons, nodup_cons] at hnd
    cases ha with
    | head =>
      have hrest : l.updateKey key k f = l := updateKey_of_notMem (hk ▸ hnd.1)
      have hcons : (b :: l).updateKey key k f = f b :: l := by
        rw [updateKey, map_cons, if_pos hk]
        exact congrArg _ hrest
      rw [hcons, map_cons, map_cons, sum_cons, sum_cons]
      omega
    | tail _ ha =>
      have hb : key b ≠ k := by
        intro heq
        exact hnd.1 (heq.trans hk.symm ▸ mem_map_of_mem ha)
      have hcons : (b :: l).updateKey key k f = b :: l.updateKey key k f := by
        rw [updateKey, map_cons, if_neg hb]
        rfl
      rw [hcons, map_cons, map_cons, sum_cons, sum_cons, ih hnd.2 a ha hk]
      omega

/-! ## The last element that passes a test -/

/-- The index of the last element that passes the test. -/
def findLastIdx? (p : α → Bool) : List α → Option Nat
  | [] => none
  | a :: l =>
    match findLastIdx? p l with
    | some i => some (i + 1)
    | none => if p a then some 0 else none

theorem findLastIdx?_eq_none {p : α → Bool} (h : l.findLastIdx? p = none) :
    ∀ a ∈ l, p a = false := by
  induction l with
  | nil => exact fun a ha => absurd ha not_mem_nil
  | cons b l ih =>
    rw [findLastIdx?] at h
    cases hrest : l.findLastIdx? p with
    | some i => simp [hrest] at h
    | none =>
      have hb : p b = false := by simpa [hrest] using h
      intro a ha
      cases ha with
      | head => exact hb
      | tail _ htail => exact ih hrest a htail

/-- No later element passes. -/
theorem findLastIdx?_eq_some {p : α → Bool} {i : Nat} (h : l.findLastIdx? p = some i) :
    (∃ a, l[i]? = some a ∧ p a = true) ∧ ∀ j a, i < j → l[j]? = some a → p a = false := by
  induction l generalizing i with
  | nil => cases h
  | cons b l ih =>
    rw [findLastIdx?] at h
    cases hrest : l.findLastIdx? p with
    | some k =>
      simp only [hrest, Option.some.injEq] at h
      obtain ⟨hk, hlater⟩ := ih hrest
      subst h
      refine ⟨hk, fun j a hj ha => ?_⟩
      obtain ⟨j, rfl⟩ : ∃ m, j = m + 1 := ⟨j - 1, by omega⟩
      exact hlater j a (by omega) ha
    | none =>
      have hb : p b = true ∧ i = 0 := by
        simp only [hrest] at h
        split at h
        · exact ⟨by assumption, (Option.some.inj h).symm⟩
        · cases h
      obtain ⟨hpass, rfl⟩ := hb
      refine ⟨⟨b, rfl, hpass⟩, fun j a hj ha => ?_⟩
      obtain ⟨j, rfl⟩ : ∃ m, j = m + 1 := ⟨j - 1, by omega⟩
      exact findLastIdx?_eq_none hrest a (mem_of_getElem? ha)

end List
