import Mathlib.Data.List.Sort
import Mathlib.Data.List.GetD

/-!
# Ranks

The element of a rank is what stands there after sorting. An element that splits a list, so that
nothing before it is greater and nothing after it is less, has the rank of its place. Candidates for
upstreaming to Lean's standard library.
-/

namespace List

variable {α : Type} [LinearOrder α] {l l' before after : List α} {d x : α} {i j : Nat}

/-- The elements in ascending order. -/
def sorted (l : List α) : List α := l.mergeSort (· ≤ ·)

theorem sorted_nil : sorted ([] : List α) = [] := mergeSort_nil

theorem sorted_perm (l : List α) : (sorted l).Perm l := mergeSort_perm l _

theorem mem_sorted {a : α} : a ∈ sorted l ↔ a ∈ l := (sorted_perm l).mem_iff

theorem length_sorted (l : List α) : (sorted l).length = l.length := (sorted_perm l).length_eq

theorem pairwise_sorted (l : List α) : (sorted l).Pairwise (· ≤ ·) := pairwise_mergeSort' (· ≤ ·) l

/-- There is only one way to sort. -/
theorem sorted_unique (hperm : l.Perm l') (hsorted : l.Pairwise (· ≤ ·)) : l = sorted l' :=
  Perm.eq_of_pairwise' hsorted (pairwise_sorted l') (hperm.trans (sorted_perm l').symm)

/-- An element that splits the list has the rank of its place. -/
theorem getElem?_sorted_of_split (hperm : (before ++ x :: after).Perm l)
    (hbefore : ∀ a ∈ before, a ≤ x) (hafter : ∀ a ∈ after, x ≤ a) :
    (sorted l)[before.length]? = some x := by
  have hlist : sorted before ++ x :: sorted after = sorted l := by
    apply sorted_unique
    · exact ((sorted_perm before).append ((sorted_perm after).cons x)).trans hperm
    · rw [pairwise_append, pairwise_cons]
      refine ⟨pairwise_sorted before, ⟨?_, pairwise_sorted after⟩, ?_⟩
      · exact fun a ha => hafter a (mem_sorted.1 ha)
      · intro a ha b hb
        have hax := hbefore a (mem_sorted.1 ha)
        cases hb with
        | head => exact hax
        | tail _ hmem => exact hax.trans (hafter b (mem_sorted.1 hmem))
  rw [← hlist, getElem?_append_right (Nat.le_of_eq (length_sorted before)), length_sorted,
    Nat.sub_self]
  rfl

theorem sorted_mono (hij : i ≤ j) (hj : j < l.length) :
    (sorted l).getD i d ≤ (sorted l).getD j d := by
  have hj' : j < (sorted l).length := by rwa [length_sorted]
  rw [getD_eq_getElem _ _ hj', getD_eq_getElem _ _ (Nat.lt_of_le_of_lt hij hj')]
  cases Nat.eq_or_lt_of_le hij with
  | inl heq =>
    subst heq
    exact le_refl _
  | inr hlt => exact pairwise_iff_getElem.1 (pairwise_sorted l) i j _ hj' hlt

/-- Different ranks have different elements if all elements are different. -/
theorem sorted_inj (hnodup : l.Nodup) (hi : i < l.length) (hj : j < l.length)
    (heq : (sorted l).getD i d = (sorted l).getD j d) : i = j := by
  have hi' : i < (sorted l).length := by rwa [length_sorted]
  have hj' : j < (sorted l).length := by rwa [length_sorted]
  rw [getD_eq_getElem _ _ hi', getD_eq_getElem _ _ hj'] at heq
  exact ((sorted_perm l).nodup_iff.2 hnodup).getElem_inj_iff.1 heq

end List
