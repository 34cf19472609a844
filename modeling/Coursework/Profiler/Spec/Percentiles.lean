import Coursework.ForStd.Ranking
import Coursework.Profiler.Mathx

/-!
# Percentiles are order statistics

The order statistic of a rank is what stands there after sorting. Selecting and sorting find it,
whatever the algorithms of the standard library do with equal elements. `Percentile` computes its
rank in 32 bits, and reads from an empty container at both ends.

## Key results

- `select_nthElement`: selecting finds the value of the rank
- `percentile_between`: the rank that `Percentile` uses
- `percentile_orderStatistics_iff`: for which datasets it is an order statistic
-/

namespace Profiler

namespace Mathx

open List (sorted)

variable {α : Type} {std : Algorithms} {data : List α} {selector : α → Int} {n p : Nat}

/-- The rank of a percentile among so many values. -/
def rank (n p : Nat) : Nat := if p = 100 then n - 1 else p * n / 100

/-- The percentile, 0 for the empty dataset. -/
def statistic (data : List α) (selector : α → Int) (p : Nat) : Int :=
  (sorted (data.map selector)).getD (rank data.length p) 0

/-- Every percentile is the order statistic of its rank, and so are the minimum, the median and the
    maximum; percentiles ascend. -/
structure OrderStatistics (std : Algorithms) (data : List α) (selector : α → Int) : Prop where
  percentile_eq : ∀ p : Nat, p ≤ 100 →
    percentile std data selector p = .ok (statistic data selector p)
  mono : ∀ (p q : Nat) (a b : Int), p ≤ q → q ≤ 100 → percentile std data selector p = .ok a →
    percentile std data selector q = .ok b → a ≤ b
  minimum_eq : minimum std data selector = .ok (statistic data selector 0)
  median_eq : median std data selector = .ok (statistic data selector 50)
  maximum_eq : maximum std data selector = .ok (statistic data selector 100)

/-- No read from the empty container, and a product that fits 32 bits. -/
def Safe (n p : Nat) : Prop :=
  (n = 0 → p ≠ 0 ∧ p ≠ 100) ∧ (p * n < 2 ^ 32 ∨ p = 0 ∨ p = 50 ∨ p = 100)

/-! ## What the four functions compute -/

theorem less_strictWeakOrder (selector : α → Int) : StrictWeakOrder (less selector) where
  irrefl a := decide_eq_false (Int.lt_irrefl _)
  trans a b c hab hbc := by
    simp only [less, decide_eq_true_eq] at hab hbc ⊢
    omega
  incomparable a b c hab hbc := by
    simp only [less, decide_eq_false_iff_not] at hab hbc ⊢
    omega

theorem less_eq_false {a b : α} : less selector a b = false ↔ selector b ≤ selector a := by
  rw [less, decide_eq_false_iff_not, Int.not_lt]

/-- Sorting the items sorts the values. -/
theorem map_sort (std : Algorithms) (data : List α) (selector : α → Int) :
    (std.sort (less selector) data).map selector = sorted (data.map selector) := by
  apply List.sorted_unique
  · exact (std.sort_perm _ data (less_strictWeakOrder selector)).map selector
  · rw [List.pairwise_map]
    exact (std.sort_sorted _ data (less_strictWeakOrder selector)).imp less_eq_false.1

/-- Selecting finds the value of the rank. -/
theorem select_nthElement (std : Algorithms) (selector : α → Int) {i : Nat}
    (hi : i < data.length) :
    select selector (std.nthElement (less selector) data i)[i]? =
      .ok ((sorted (data.map selector)).getD i 0) := by
  obtain ⟨before, x, after, hsplit, hlen, hbefore, hafter⟩ :=
    std.nthElement_split _ data i (less_strictWeakOrder selector) hi
  have hperm := std.nthElement_perm (less selector) data i (less_strictWeakOrder selector)
  rw [hsplit] at hperm ⊢
  subst hlen
  -- the split of the items is a split of the values
  have hvalues := hperm.map selector
  rw [List.map_append, List.map_cons] at hvalues
  have hrank := List.getElem?_sorted_of_split hvalues
    (List.forall_mem_map.2 fun a ha => less_eq_false.1 (hbefore a ha))
    (List.forall_mem_map.2 fun a ha => less_eq_false.1 (hafter a ha))
  rw [List.length_map] at hrank
  rw [List.getD_eq_getElem?_getD, hrank, List.getElem?_append_right (Nat.le_refl _), Nat.sub_self]
  rfl

theorem select_eq (selector : α → Int) (item : Option α) :
    select selector item =
      match item.map selector with
      | none => .error .undefined
      | some value => .ok value := by
  cases item <;> rfl

theorem minimum_eq (hdata : data ≠ []) :
    minimum std data selector = .ok (statistic data selector 0) := by
  have hpos : 0 < (sorted (data.map selector)).length := by
    rw [List.length_sorted, List.length_map]
    exact List.length_pos_of_ne_nil hdata
  have hrank : rank data.length 0 = 0 := by
    rw [rank, if_neg (by decide), Nat.zero_mul, Nat.zero_div]
  rw [minimum, select_eq, ← List.head?_map, map_sort, statistic, hrank,
    List.getD_eq_getElem _ _ hpos, List.head?_eq_getElem?, List.getElem?_eq_getElem hpos]

theorem maximum_eq (hdata : data ≠ []) :
    maximum std data selector = .ok (statistic data selector 100) := by
  have hpos : 0 < data.length := List.length_pos_of_ne_nil hdata
  have hlast : data.length - 1 < (sorted (data.map selector)).length := by
    rw [List.length_sorted, List.length_map]
    omega
  have hrank : rank data.length 100 = data.length - 1 := if_pos rfl
  rw [maximum, select_eq, ← List.getLast?_map, map_sort, statistic, hrank,
    List.getD_eq_getElem _ _ hlast, List.getLast?_eq_getElem?, List.length_sorted, List.length_map,
    List.getElem?_eq_getElem hlast]

theorem median_eq (std : Algorithms) (data : List α) (selector : α → Int) :
    median std data selector = .ok (statistic data selector 50) := by
  have hrank : rank data.length 50 = data.length / 2 := by
    rw [rank, if_neg (by decide)]
    omega
  rw [median, statistic, hrank]
  by_cases hdata : data = []
  · subst hdata
    rw [if_pos rfl, List.map_nil, List.sorted_nil, List.getD_nil]
  · have hpos : 0 < data.length := List.length_pos_of_ne_nil hdata
    rw [if_neg hdata]
    exact select_nthElement std selector (by omega)

/-- The general formula, with its product in 32 bits. -/
theorem percentile_between (std : Algorithms) (data : List α) (selector : α → Int) (h0 : p ≠ 0)
    (h50 : p ≠ 50) (h100 : p < 100) :
    percentile std data selector p =
      .ok ((sorted (data.map selector)).getD (p * data.length % 2 ^ 32 / 100) 0) := by
  have hrange : (p : Int) ≤ 100 ∧ (p : Int) ≥ 0 := by omega
  rw [percentile, if_pos hrange, if_neg (by omega), if_neg (by omega), if_neg (by omega)]
  by_cases hdata : data = []
  · subst hdata
    rw [if_pos rfl, List.map_nil, List.sorted_nil, List.getD_nil]
  · have hpos : 0 < data.length := List.length_pos_of_ne_nil hdata
    rw [if_neg hdata]
    show select selector (std.nthElement _ data (indexToUse p data.length))[_]? = _
    rw [indexToUse, Int.toNat_natCast]
    have hlt : p * data.length < 100 * data.length := Nat.mul_lt_mul_of_pos_right h100 hpos
    apply select_nthElement
    omega

theorem percentile_zero : percentile std data selector (0 : Nat) = minimum std data selector := rfl

theorem percentile_fifty : percentile std data selector (50 : Nat) = median std data selector := rfl

theorem percentile_hundred :
    percentile std data selector (100 : Nat) = maximum std data selector := rfl

/-! ## Which percentiles are order statistics -/

theorem percentile_eq (hp : p ≤ 100) (h : Safe data.length p) :
    percentile std data selector p = .ok (statistic data selector p) := by
  obtain ⟨hempty, hsize⟩ := h
  by_cases h0 : p = 0
  · subst h0
    exact percentile_zero.trans (minimum_eq fun hdata => (hempty (by rw [hdata]; rfl)).1 rfl)
  by_cases h100 : p = 100
  · subst h100
    exact percentile_hundred.trans (maximum_eq fun hdata => (hempty (by rw [hdata]; rfl)).2 rfl)
  by_cases h50 : p = 50
  · subst h50
    exact percentile_fifty.trans (median_eq std data selector)
  -- between them the product decides
  have hproduct : p * data.length < 2 ^ 32 := by
    simpa only [h0, h50, h100, or_false] using hsize
  rw [percentile_between std data selector h0 h50 (by omega), Nat.mod_eq_of_lt hproduct,
    statistic, rank, if_neg h100]

/-- Nothing can be read at either end of an empty container. -/
theorem sort_nil (std : Algorithms) (selector : α → Int) : std.sort (less selector) [] = [] :=
  (std.sort_perm _ [] (less_strictWeakOrder selector)).eq_nil

/-- Where all values are different, the wrong rank gives a wrong value. -/
theorem safe_of_nodup (hnodup : (data.map selector).Nodup) (hp : p ≤ 100)
    (h : percentile std data selector p = .ok (statistic data selector p)) :
    Safe data.length p := by
  apply And.intro
  · -- both ends of an empty container
    intro hempty
    rw [List.length_eq_zero_iff.1 hempty] at h
    apply And.intro
    · intro h0
      subst h0
      rw [percentile_zero, minimum, sort_nil] at h
      cases h
    · intro h100
      subst h100
      rw [percentile_hundred, maximum, sort_nil] at h
      cases h
  · apply Classical.byContradiction
    -- a product that is too large gives another rank
    intro hlarge
    simp only [not_or, Nat.not_lt] at hlarge
    obtain ⟨hproduct, h0, h50, h100⟩ := hlarge
    have hlt : p * data.length < 100 * data.length := by
      apply Nat.mul_lt_mul_of_pos_right
      · omega
      · apply Nat.pos_of_ne_zero
        intro hempty
        rw [hempty, Nat.mul_zero] at hproduct
        omega
    rw [percentile_between std _ _ h0 h50 (by omega), statistic, rank, if_neg h100] at h
    have hranks := List.sorted_inj hnodup (by rw [List.length_map]; omega)
      (by rw [List.length_map]; omega) (Except.ok.inj h)
    omega

theorem rank_lt (hn : 0 < n) (hp : p ≤ 100) : rank n p < n := by
  rw [rank]
  split
  · omega
  · have hlt : p * n < 100 * n := Nat.mul_lt_mul_of_pos_right (by omega) hn
    omega

theorem rank_mono (n : Nat) {q : Nat} (hpq : p ≤ q) (hq : q ≤ 100) : rank n p ≤ rank n q := by
  by_cases hn : n = 0
  · subst hn
    simp only [rank, Nat.mul_zero, Nat.zero_div, Nat.zero_sub, ite_self, Nat.le_refl]
  · by_cases h100 : q = 100
    · have hlt := rank_lt (Nat.pos_of_ne_zero hn) (Nat.le_trans hpq hq)
      rw [h100, rank.eq_1 n 100, if_pos rfl]
      omega
    · rw [rank, rank, if_neg (by omega), if_neg h100]
      exact Nat.div_le_div_right (Nat.mul_le_mul_right n hpq)

theorem safe_of_large (hn : 0 < n) (hlarge : 99 * n < 2 ^ 32) (hp : p ≤ 100) : Safe n p := by
  apply And.intro
  · intro hempty
    omega
  · by_cases h100 : p = 100
    · exact .inr (.inr (.inr h100))
    · have hle : p * n ≤ 99 * n := Nat.mul_le_mul_right n (by omega)
      exact .inl (Nat.lt_of_le_of_lt hle hlarge)

theorem orderStatistics_of_size (hdata : 0 < data.length) (hlarge : 99 * data.length < 2 ^ 32) :
    OrderStatistics std data selector where
  percentile_eq p hp := percentile_eq hp (safe_of_large hdata hlarge hp)
  mono p q a b hpq hq ha hb := by
    -- both are values of the sorted list
    rw [percentile_eq (Nat.le_trans hpq hq) (safe_of_large hdata hlarge (Nat.le_trans hpq hq))]
      at ha
    rw [percentile_eq hq (safe_of_large hdata hlarge hq)] at hb
    cases ha
    cases hb
    apply List.sorted_mono (rank_mono data.length hpq hq)
    rw [List.length_map]
    exact rank_lt hdata hq
  minimum_eq := percentile_eq (Nat.zero_le _) (safe_of_large hdata hlarge (Nat.zero_le _))
  median_eq := median_eq std data selector
  maximum_eq := percentile_eq (Nat.le_refl _) (safe_of_large hdata hlarge (Nat.le_refl _))

theorem size_of_orderStatistics (hnodup : (data.map selector).Nodup)
    (h : OrderStatistics std data selector) :
    0 < data.length ∧ 99 * data.length < 2 ^ 32 := by
  have hzero := safe_of_nodup hnodup (Nat.zero_le _) (h.percentile_eq 0 (Nat.zero_le _))
  have hmost := safe_of_nodup hnodup (by decide) (h.percentile_eq 99 (by decide))
  apply And.intro
  · exact Nat.pos_of_ne_zero fun hempty => (hzero.1 hempty).1 rfl
  · exact hmost.2.resolve_right (by decide)

theorem nodup_range (n : Nat) : ((List.range n).map Int.ofNat).Nodup :=
  List.nodup_range.map fun _ _ => Int.ofNat.inj

/-- Every percentile of every dataset of a size is an order statistic exactly when the size is not 0
    and 99 times the size fits 32 bits, and this decides for each dataset of different values. One
    percentile is an order statistic of all datasets of the size exactly when it is safe. -/
theorem percentile_orderStatistics_iff (std : Algorithms) (n : Nat) :
    ((∀ (α : Type) (data : List α) (selector : α → Int), data.length = n →
        OrderStatistics std data selector) ↔ 0 < n ∧ 99 * n < 2 ^ 32) ∧
      (∀ (α : Type) (data : List α) (selector : α → Int), data.length = n →
        (data.map selector).Nodup →
        (OrderStatistics std data selector ↔ 0 < n ∧ 99 * n < 2 ^ 32)) ∧
      ∀ p : Nat, p ≤ 100 → ((∀ (α : Type) (data : List α) (selector : α → Int), data.length = n →
        percentile std data selector p = .ok (statistic data selector p)) ↔ Safe n p) := by
  refine ⟨⟨?_, ?_⟩, ?_, ?_⟩
  · -- the dataset 0, 1, … has different values
    intro h
    have hrange := size_of_orderStatistics (nodup_range n) (h Nat _ _ List.length_range)
    rwa [List.length_range] at hrange
  · rintro ⟨hpos, hlarge⟩ α data selector rfl
    exact orderStatistics_of_size hpos hlarge
  · rintro α data selector rfl hnodup
    exact ⟨size_of_orderStatistics hnodup, fun h => orderStatistics_of_size h.1 h.2⟩
  · intro p hp
    apply Iff.intro
    · intro h
      have hrange := safe_of_nodup (nodup_range n) hp (h Nat _ _ List.length_range)
      rwa [List.length_range] at hrange
    · rintro h α data selector rfl
      exact percentile_eq hp h

end Mathx

/-! ## Algorithms that there are -/

theorem StrictWeakOrder.pairwise_mergeSort {α : Type} {less : α → α → Bool}
    (h : StrictWeakOrder less) (l : List α) :
    (l.mergeSort fun a b => !less b a).Pairwise fun a b => less b a = false := by
  have htrans : ∀ a b c, (!less b a) = true → (!less c b) = true → (!less c a) = true := by
    intro a b c hab hbc
    rw [Bool.not_eq_true'] at hab hbc ⊢
    exact h.incomparable c b a hbc hab
  have htotal : ∀ a b, (!less b a || !less a b) = true := by
    -- of two items one is not less
    intro a b
    cases hab : less a b with
    | false => exact Bool.or_true _
    | true =>
      cases hba : less b a with
      | false => rfl
      | true => exact absurd (h.trans a b a hab hba) (Bool.eq_false_iff.1 (h.irrefl a))
  apply (List.pairwise_mergeSort htrans htotal l).imp
  intro a b hle
  rwa [Bool.not_eq_true'] at hle

/-- Both of them sort. -/
def Algorithms.merge : Algorithms where
  sort less l := l.mergeSort fun a b => !less b a
  nthElement less l _ := l.mergeSort fun a b => !less b a
  sort_perm _ l _ := List.mergeSort_perm l _
  sort_sorted _ l h := h.pairwise_mergeSort l
  nthElement_perm _ l _ _ := List.mergeSort_perm l _
  nthElement_split less l nth h hnth := by
    have hsorted := h.pairwise_mergeSort l
    have hlen : nth < (l.mergeSort fun a b => !less b a).length := by rwa [List.length_mergeSort]
    generalize l.mergeSort (fun a b => !less b a) = sorted at hsorted hlen
    have hsplit : sorted = sorted.take nth ++ sorted[nth] :: sorted.drop (nth + 1) := by
      rw [List.getElem_cons_drop, List.take_append_drop]
    rw [hsplit, List.pairwise_append, List.pairwise_cons] at hsorted
    refine ⟨_, _, _, hsplit, List.length_take_of_le (Nat.le_of_lt hlen), ?_, hsorted.2.1.1⟩
    exact fun a ha => hsorted.2.2 a ha _ List.mem_cons_self

/-- The empty dataset has a percentile 0, which reads outside the container. -/
theorem not_orderStatistics_nil : ¬ Mathx.OrderStatistics .merge ([] : List Int) id := by
  intro h
  have hzero := h.minimum_eq
  rw [Mathx.minimum, Mathx.sort_nil] at hzero
  cases hzero

end Profiler
