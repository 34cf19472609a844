import Coursework.Nim.Monster
import Mathlib.Data.List.GetD
import Mathlib.Logic.Function.Iterate
import Mathlib.Tactic.Common

/-!
# The monster's turn

The monster plays by the rules when the search of `solve24` finds the winning move in the first
pile that has stones. The search takes 1, 2, 3 and so on from a pile without putting anything back,
so there must be a triangular number of stones to take.

## Key results

- `step_nonNegative`: no step of the turn makes a pile negative
- `plays_iff`: when the turn ends and is a move of the game
- `round_plays_iff`: the same after an answer that is accepted
-/

namespace Nim

/-- No pile is negative. -/
def NonNegative (board : Board) : Prop := ∀ p ∈ board, 0 ≤ p.toInt

instance (board : Board) : Decidable (NonNegative board) :=
  List.decidableBAll _ board

/-- Every one of `n` piles is drawn infinitely often. -/
def Fair (rand : Nat → Nat) (n : Nat) : Prop := ∀ i < n, ∀ k, ∃ k' ≥ k, rand k' % n = i

/-- A move takes between one and all stones of one pile. -/
def Move (before after : Board) : Prop :=
  ∃ i k, i < before.length ∧ 0 < k ∧ k ≤ (pile before i).toNat ∧
    after = remove before i (BitVec.ofNat 32 k)

/-- With fair random numbers no pile is ever negative, the turn ends, and if there are stones it is
    a move, to a board with xor 0 if there is one. -/
def Plays (board : Board) : Prop :=
  ∀ rand, Fair rand board.length →
    (∀ n, NonNegative ((step rand)^[n] (start board)).board) ∧
    ∃ n, ((step rand)^[n] (start board)).control = .finished ∧
      ((∃ p ∈ board, p ≠ 0) → Move board ((step rand)^[n] (start board)).board ∧
        (indicator board ≠ 0 → indicator ((step rand)^[n] (start board)).board = 0))

/-- The stones that are gone after `j` rounds of the inner loop. -/
def triangle : Nat → Nat
  | 0 => 0
  | j + 1 => triangle j + (j + 1)

/-- There are stones, and if the xor is not 0, the first pile that has stones has a triangular
    number of them more than it should. -/
def Finds (board : Board) : Prop :=
  (∃ p ∈ board, p ≠ 0) ∧ (indicator board ≠ 0 → ∃ p, board.find? (· ≠ 0) = some p ∧
    ∃ j, 0 < j ∧ p.toNat = (p ^^^ indicator board).toNat + triangle j)

variable {board : Board} {rand : Nat → Nat} {i j d : Nat} {c p x : BitVec 32}

/-! ## Piles -/

theorem toInt_nonneg : 0 ≤ p.toInt ↔ p.toNat < 2 ^ 31 := by
  rw [BitVec.toInt_eq_toNat_cond]
  split <;> omega

theorem toInt_eq (h : p.toNat < 2 ^ 31) : p.toInt = p.toNat :=
  BitVec.toInt_eq_toNat_of_lt (by omega)

theorem pile_eq (hi : i < board.length) : pile board i = board[i] := by
  rw [pile, List.getD_eq_getElem _ _ hi]

theorem pile_set (hi : i < board.length) : pile (board.set i x) i = x := by
  rw [pile_eq (by rwa [List.length_set]), List.getElem_set_self]

theorem pile_set_ne {k : Nat} (hne : i ≠ k) : pile (board.set i x) k = pile board k := by
  rw [pile, pile, List.getD_eq_getElem?_getD, List.getElem?_set_ne hne,
    List.getD_eq_getElem?_getD]

theorem set_pile (i : Nat) : board.set i (pile board i) = board := by
  by_cases hi : i < board.length
  · rw [pile_eq hi, List.set_getElem_self]
  · exact List.set_eq_of_length_le (Nat.le_of_not_lt hi)

theorem remove_set (hi : i < board.length) (k : BitVec 32) :
    remove (board.set i c) i k = board.set i (c - k) := by
  rw [remove, pile_set hi, List.set_set]

/-- A pile that is not there has no stones either. -/
theorem NonNegative.pile_lt (h : NonNegative board) (i : Nat) : (pile board i).toNat < 2 ^ 31 := by
  by_cases hi : i < board.length
  · rw [pile_eq hi]
    exact toInt_nonneg.1 (h _ (List.getElem_mem hi))
  · rw [pile, List.getD_eq_default _ _ (Nat.le_of_not_lt hi)]
    decide

theorem NonNegative.set (h : NonNegative board) (hx : x.toNat < 2 ^ 31) (i : Nat) :
    NonNegative (board.set i x) := by
  intro q hq
  cases List.mem_or_eq_of_mem_set hq with
  | inl hmem => exact h q hmem
  | inr heq => exact heq ▸ toInt_nonneg.2 hx

theorem sub_toNat {k : Nat} (hk : k ≤ c.toNat) : (c - BitVec.ofNat 32 k).toNat = c.toNat - k := by
  have := c.isLt
  rw [BitVec.toNat_sub, BitVec.toNat_ofNat]
  omega

theorem NonNegative.remove (h : NonNegative board) {k : Nat} (hk : k ≤ (pile board i).toNat) :
    NonNegative (remove board i (BitVec.ofNat 32 k)) := by
  have hlt := h.pile_lt i
  apply h.set
  rw [sub_toNat hk]
  omega

/-! ## The xor of a board -/

theorem foldl_xor (board : Board) (acc : BitVec 32) :
    board.foldl (· ^^^ ·) acc = acc ^^^ indicator board := by
  induction board generalizing acc with
  | nil => exact BitVec.xor_zero.symm
  | cons p board ih =>
    rw [indicator, List.foldl_cons, List.foldl_cons, ih, ih (0 ^^^ p), ← BitVec.xor_assoc]
    exact congrArg (fun q => acc ^^^ q ^^^ indicator board) BitVec.zero_xor.symm

theorem indicator_cons (p : BitVec 32) (board : Board) :
    indicator (p :: board) = p ^^^ indicator board := by
  rw [indicator, List.foldl_cons, foldl_xor]
  exact congrArg (fun q => q ^^^ indicator board) BitVec.zero_xor

theorem indicator_set (hi : i < board.length) (x : BitVec 32) :
    indicator (board.set i x) = x ^^^ (pile board i ^^^ indicator board) := by
  induction board generalizing i with
  | nil => cases hi
  | cons p board ih =>
    cases i with
    | zero =>
      show indicator (x :: board) = x ^^^ (p ^^^ indicator (p :: board))
      rw [indicator_cons, indicator_cons, ← BitVec.xor_assoc p p, BitVec.xor_self,
        BitVec.zero_xor]
    | succ i =>
      show indicator (p :: board.set i x) = x ^^^ (pile board i ^^^ indicator (p :: board))
      rw [indicator_cons, indicator_cons, ih (Nat.lt_of_succ_lt_succ hi)]
      ac_rfl

/-- The stones that pile `i` should have: the xor of the other piles. -/
def target (board : Board) (i : Nat) : BitVec 32 := pile board i ^^^ indicator board

theorem indicator_set_eq_zero (hi : i < board.length) :
    indicator (board.set i x) = 0 ↔ x = target board i := by
  rw [indicator_set hi]
  exact BitVec.xor_eq_zero_iff

/-! ## Steps -/

/-- The stones of a random move, for a pile of two or more. -/
theorem random_stones (hp : p.toNat < 2 ^ 31) (h0 : p ≠ 0) (h1 : p ≠ 1) (r : Nat) :
    ∃ k, 0 < k ∧ k ≤ p.toNat ∧
      BitVec.ofInt 32 (1 + Int.tmod r (p.toInt - 1)) = BitVec.ofNat 32 k := by
  have hpos : 2 ≤ p.toNat := by
    have h0' : p.toNat ≠ 0 := fun h => h0 (BitVec.eq_of_toNat_eq h)
    have h1' : p.toNat ≠ 1 := fun h => h1 (BitVec.eq_of_toNat_eq h)
    omega
  have hmod := Nat.mod_lt r (show 0 < p.toNat - 1 by omega)
  have hint : 1 + Int.tmod r (p.toInt - 1) = ((1 + r % (p.toNat - 1) : Nat) : Int) := by
    rw [toInt_eq hp, show (p.toNat : Int) - 1 = ((p.toNat - 1 : Nat) : Int) by omega,
      ← Int.ofNat_tmod]
    rfl
  refine ⟨1 + r % (p.toNat - 1), by omega, by omega, ?_⟩
  rw [hint, BitVec.ofInt_natCast]

/-- A draw of a pile with stones ends the turn with a move. -/
theorem step_draw (h : NonNegative board) (hlen : 0 < board.length)
    (hpile : pile board (rand d % board.length) ≠ 0) :
    (step rand ⟨board, .draw, d⟩).control = .finished ∧
      Move board (step rand ⟨board, .draw, d⟩).board := by
  have hidx := Nat.mod_lt (rand d) hlen
  have hlt := h.pile_lt (rand d % board.length)
  simp only [step, if_neg hpile]
  split
  · next hone =>
    refine ⟨rfl, _, 1, hidx, Nat.one_pos, ?_, rfl⟩
    rw [hone]
    decide
  · next hone =>
    obtain ⟨k, hpos, hle, heq⟩ := random_stones hlt hpile hone (rand (d + 1))
    exact ⟨rfl, _, k, hidx, hpos, hle, by rw [heq]⟩

theorem Move.nonNegative {after : Board} (h : NonNegative board) (hmove : Move board after) :
    NonNegative after := by
  obtain ⟨i, k, -, -, hle, rfl⟩ := hmove
  exact h.remove hle

theorem step_nonNegative {t : Turn} (h : NonNegative t.board) :
    NonNegative (step rand t).board := by
  obtain ⟨board, control, d⟩ := t
  replace h : NonNegative board := h
  cases control with
  | search i j =>
    have hint := toInt_eq (h.pile_lt i)
    simp only [step]
    split
    · split
      · next hle =>
        have hboard := h.remove (i := i) (k := j) (by omega)
        split
        · exact hboard
        · exact hboard
      · exact h
    · exact h
  | draw =>
    by_cases hpile : pile board (rand d % board.length) = 0
    · simp only [step, if_pos hpile]
      exact h
    · -- a pile that is drawn with stones is in the board
      have hlen : 0 < board.length := by
        cases board with
        | nil => exact absurd rfl hpile
        | cons => exact Nat.succ_pos _
      exact (step_draw h hlen hpile).2.nonNegative h
  | finished => exact h

theorem run_nonNegative {t : Turn} (h : NonNegative t.board) (n : Nat) :
    NonNegative ((step rand)^[n] t).board := by
  induction n with
  | zero => exact h
  | succ n ih =>
    rw [Function.iterate_succ_apply']
    exact step_nonNegative ih

theorem run_finished {t : Turn} (h : t.control = .finished) (n : Nat) : (step rand)^[n] t = t := by
  apply Function.iterate_fixed
  simp only [step, h]

/-- A turn that has ended by both counts has ended in the same way. -/
theorem run_unique {t : Turn} {m n : Nat} (hm : ((step rand)^[m] t).control = .finished)
    (hn : ((step rand)^[n] t).control = .finished) : (step rand)^[m] t = (step rand)^[n] t := by
  have hle : ∀ {m n : Nat}, m ≤ n → ((step rand)^[m] t).control = .finished →
      (step rand)^[n] t = (step rand)^[m] t := by
    intro m n hmn hm
    rw [← Nat.sub_add_cancel hmn, Function.iterate_add_apply, run_finished hm]
  cases Nat.le_total m n with
  | inl hmn => exact (hle hmn hm).symm
  | inr hnm => exact hle hnm hn

/-! ## The search -/

theorem step_take (hi : i < board.length) (hc : c.toNat < 2 ^ 31) (hj : j + 1 ≤ c.toNat) :
    step rand ⟨board.set i c, .search i (j + 1), d⟩ =
      ⟨board.set i (c - BitVec.ofNat 32 (j + 1)),
        if c - BitVec.ofNat 32 (j + 1) = target board i then .finished else .search i (j + 2),
        d⟩ := by
  have hlen : i < (board.set i c).length := by rwa [List.length_set]
  have hle : ((j + 1 : Nat) : Int) ≤ (pile (board.set i c) i).toInt := by
    rw [pile_set hi, toInt_eq hc]
    omega
  simp only [step, if_pos hlen, if_pos hle, remove_set hi, indicator_set_eq_zero hi]
  by_cases heq : c - BitVec.ofNat 32 (j + 1) = target board i
  · rw [if_pos heq, if_pos heq]
  · rw [if_neg heq, if_neg heq]

theorem step_next (hi : i < board.length) (hc : c.toNat < 2 ^ 31) (hj : c.toNat < j) :
    step rand ⟨board.set i c, .search i j, d⟩ = ⟨board.set i c, .search (i + 1) 1, d⟩ := by
  have hlen : i < (board.set i c).length := by rwa [List.length_set]
  have hlt : ¬ (j : Int) ≤ (pile (board.set i c) i).toInt := by
    rw [pile_set hi, toInt_eq hc]
    omega
  simp only [step, if_pos hlen, if_neg hlt]

theorem triangle_le {k : Nat} (h : j ≤ k) : triangle j ≤ triangle k := by
  induction k with
  | zero => rw [Nat.le_zero.1 h]
  | succ k ih =>
    cases Nat.le_succ_iff.1 h with
    | inl hle =>
      have := ih hle
      rw [triangle]
      omega
    | inr heq => rw [heq]

/-- The search ends in a pile that has a triangular number of stones too many. -/
theorem search_found (hi : i < board.length) (hpile : (pile board i).toNat < 2 ^ 31) {n : Nat}
    (hc : c.toNat + triangle j = (pile board i).toNat)
    (htarget : (target board i).toNat + triangle (j + 1 + n) = (pile board i).toNat) :
    (step rand)^[n + 1] ⟨board.set i c, .search i (j + 1), d⟩ =
      ⟨board.set i (target board i), .finished, d⟩ := by
  induction n generalizing j c with
  | zero =>
    have htri : triangle (j + 1) = triangle j + (j + 1) := rfl
    rw [Nat.add_zero] at htarget
    -- this take leaves what makes the xor 0
    have hlast : c - BitVec.ofNat 32 (j + 1) = target board i := by
      apply BitVec.eq_of_toNat_eq
      rw [sub_toNat (by omega)]
      omega
    rw [Function.iterate_succ_apply, step_take hi (by omega) (by omega), if_pos hlast, hlast]
    rfl
  | succ n ih =>
    have htri : triangle (j + 1) = triangle j + (j + 1) := rfl
    have htri' : triangle (j + 2) = triangle (j + 1) + (j + 2) := rfl
    have hle : triangle (j + 2) ≤ triangle (j + 1 + (n + 1)) := triangle_le (by omega)
    have hsub : (c - BitVec.ofNat 32 (j + 1)).toNat = c.toNat - (j + 1) := sub_toNat (by omega)
    -- there are more stones to take, so that the xor is not 0 yet
    have hmore : c - BitVec.ofNat 32 (j + 1) ≠ target board i := by
      intro heq
      rw [heq] at hsub
      omega
    rw [Function.iterate_succ_apply, step_take hi (by omega) (by omega), if_neg hmore]
    apply ih
    · rw [hsub]
      omega
    · rw [show j + 1 + 1 + n = j + 1 + (n + 1) by omega]
      exact htarget

/-- In any other pile it takes stones as long as there are enough, and goes on to the next pile. -/
theorem search_leaves (hi : i < board.length) (hpile : (pile board i).toNat < 2 ^ 31)
    (hnone : ∀ k, 0 < k → (target board i).toNat + triangle k ≠ (pile board i).toNat)
    (hc : c.toNat + triangle j = (pile board i).toNat) :
    ∃ n c', (step rand)^[n] ⟨board.set i c, .search i (j + 1), d⟩ =
        ⟨board.set i c', .search (i + 1) 1, d⟩ ∧
      c'.toNat ≤ c.toNat ∧ (j + 1 ≤ c.toNat → c'.toNat < c.toNat) ∧
      (c ≠ target board i → c' ≠ target board i) := by
  -- every take leaves fewer stones, and the inner loop ends when there are fewer than it would take
  induction hstones : c.toNat using Nat.strongRecOn generalizing j c with
  | _ stones ih =>
    by_cases hj : j + 1 ≤ c.toNat
    · have htri : triangle (j + 1) = triangle j + (j + 1) := rfl
      have hsub : (c - BitVec.ofNat 32 (j + 1)).toNat = c.toNat - (j + 1) := sub_toNat hj
      -- this take does not make the xor 0, as no sum of takes does
      have hnot : c - BitVec.ofNat 32 (j + 1) ≠ target board i := by
        intro heq
        apply hnone (j + 1) (Nat.succ_pos j)
        rw [← heq, hsub]
        omega
      obtain ⟨n, c', hrun, hle, -, hkeeps⟩ := ih _ (by omega) (j := j + 1)
        (c := c - BitVec.ofNat 32 (j + 1)) (by omega) rfl
      refine ⟨n + 1, c', ?_, by omega, fun _ => by omega, fun _ => hkeeps hnot⟩
      rw [Function.iterate_succ_apply, step_take hi (by omega) hj, if_neg hnot]
      exact hrun
    · refine ⟨1, c, ?_, by omega, fun h => absurd (hstones ▸ h) hj, id⟩
      rw [Function.iterate_one, step_next hi (by omega) (by omega)]

/-- It passes piles without stones. -/
theorem search_empty (n : Nat) (h : ∀ k < n, k < board.length ∧ pile board k = 0) :
    (step rand)^[n] ⟨board, .search 0 1, d⟩ = ⟨board, .search n 1, d⟩ := by
  induction n with
  | zero => rfl
  | succ n ih =>
    obtain ⟨hlen, hzero⟩ := h n (Nat.lt_succ_self n)
    have hnext : step rand ⟨board.set n 0, .search n 1, d⟩ =
        ⟨board.set n 0, .search (n + 1) 1, d⟩ := step_next hlen (by decide) (by decide)
    rw [← hzero, set_pile] at hnext
    rw [Function.iterate_succ_apply', ih fun k hk => h k (Nat.lt_succ_of_lt hk), hnext]

/-- The search has left pile `i` with `c` stones. -/
def Left (i : Nat) (c : BitVec 32) (t : Turn) : Prop :=
  pile t.board i = c ∧ t.control ≠ .draw ∧ ∀ k j, t.control = .search k j → i < k

theorem Left.step {t : Turn} (h : Left i c t) : Left i c (step rand t) := by
  obtain ⟨board, control, d⟩ := t
  obtain ⟨hpile, hdraw, hpast⟩ := h
  replace hpile : pile board i = c := hpile
  cases control with
  | search k j =>
    have hk : i < k := hpast k j rfl
    have hsame : pile (remove board k (BitVec.ofNat 32 j)) i = c := by
      rw [remove, pile_set_ne (Nat.ne_of_gt hk), hpile]
    simp only [Nim.step]
    split
    · split
      · split
        · exact ⟨hsame, nofun, nofun⟩
        · refine ⟨hsame, nofun, ?_⟩
          -- it goes on in the same pile
          intro k' j' heq
          cases heq
          exact hk
      · -- it goes on to the next pile
        refine ⟨hpile, nofun, ?_⟩
        intro k' j' heq
        cases heq
        omega
    · exact ⟨hpile, nofun, nofun⟩
  | draw => exact absurd rfl hdraw
  | finished => exact ⟨hpile, nofun, nofun⟩

theorem Left.run {t : Turn} (h : Left i c t) (n : Nat) : Left i c ((Nim.step rand)^[n] t) := by
  induction n with
  | zero => exact h
  | succ n ih =>
    rw [Function.iterate_succ_apply']
    exact ih.step

/-! ## The whole turn -/

theorem exists_pile (h : ∃ p ∈ board, p ≠ 0) : ∃ i < board.length, pile board i ≠ 0 := by
  obtain ⟨p, hp, hne⟩ := h
  obtain ⟨i, hi, rfl⟩ := List.getElem_of_mem hp
  exact ⟨i, hi, by rwa [pile_eq hi]⟩

/-- The draw ends when a pile with stones comes up. -/
theorem run_draw (h : NonNegative board) (hfair : Fair rand board.length)
    (hstones : ∃ p ∈ board, p ≠ 0) (d : Nat) :
    ∃ n, ((step rand)^[n] ⟨board, .draw, d⟩).control = .finished ∧
      Move board ((step rand)^[n] ⟨board, .draw, d⟩).board := by
  obtain ⟨i, hi, hne⟩ := exists_pile hstones
  obtain ⟨k, hk, heq⟩ := hfair i hi d
  have hlen := Nat.zero_lt_of_lt hi
  -- induction on how many numbers are left until pile `i` comes up
  induction hleft : k - d generalizing d with
  | zero =>
    have hd : d = k := by omega
    exact ⟨1, step_draw h hlen (by rwa [hd, heq])⟩
  | succ left ih =>
    by_cases hpile : pile board (rand d % board.length) = 0
    · obtain ⟨n, hrun⟩ := ih (d + 1) (by omega) (by omega)
      have hnext : step rand ⟨board, .draw, d⟩ = ⟨board, .draw, d + 1⟩ := by
        simp only [step, if_pos hpile]
      refine ⟨n + 1, ?_⟩
      rw [Function.iterate_succ_apply, hnext]
      exact hrun
    · exact ⟨1, step_draw h hlen hpile⟩

/-- Without stones it goes on for ever. -/
theorem run_draw_empty (hempty : ∀ p ∈ board, p = 0) (d n : Nat) :
    ((step rand)^[n] ⟨board, .draw, d⟩).control = .draw := by
  have hzero : ∀ i, pile board i = 0 := by
    intro i
    by_cases hi : i < board.length
    · rw [pile_eq hi]
      exact hempty _ (List.getElem_mem hi)
    · exact List.getD_eq_default _ _ (Nat.le_of_not_lt hi)
  induction n generalizing d with
  | zero => rfl
  | succ n ih =>
    have hnext : step rand ⟨board, .draw, d⟩ = ⟨board, .draw, d + 1⟩ := by
      simp only [step, if_pos (hzero _)]
    rw [Function.iterate_succ_apply, hnext]
    exact ih (d + 1)

theorem exists_fair (n : Nat) : ∃ rand, Fair rand n := by
  refine ⟨id, ?_⟩
  intro i hi k
  refine ⟨i + n * k, ?_, ?_⟩
  · have := Nat.le_mul_of_pos_left k (Nat.zero_lt_of_lt hi)
    omega
  · rw [id, Nat.add_mul_mod_self_left, Nat.mod_eq_of_lt hi]

theorem indicator_empty (hempty : ∀ p ∈ board, p = 0) : indicator board = 0 := by
  induction board with
  | nil => rfl
  | cons p board ih =>
    rw [indicator_cons, ih fun q hq => hempty q (List.mem_cons_of_mem p hq),
      hempty p List.mem_cons_self]
    rfl

/-- Where the search gets to when the piles before `i` have no stones. -/
theorem run_search (hfirst : board.find? (· ≠ 0) = some p) (hxor : indicator board ≠ 0) :
    ∃ i, i < board.length ∧ pile board i = p ∧ p ≠ 0 ∧
      ∀ rand, ∃ n, (step rand)^[n] (start board) = ⟨board.set i p, .search i 1, 0⟩ := by
  rw [List.find?_eq_some_iff_append] at hfirst
  obtain ⟨hne, as, bs, hboard, hzero⟩ := hfirst
  have hi : as.length < board.length := by
    rw [hboard, List.length_append, List.length_cons]
    omega
  have hpile : pile board as.length = p := by
    rw [pile_eq hi]
    simp only [hboard, List.getElem_append_right (Nat.le_refl _), Nat.sub_self,
      List.getElem_cons_zero]
  refine ⟨as.length, hi, hpile, by simpa using hne, ?_⟩
  intro rand
  refine ⟨as.length, ?_⟩
  rw [start, if_pos hxor, ← hpile, set_pile]
  -- the piles before the first one with stones are passed
  apply search_empty
  intro k hk
  refine ⟨Nat.lt_trans hk hi, ?_⟩
  rw [pile_eq (Nat.lt_trans hk hi)]
  simp only [hboard, List.getElem_append_left hk]
  simpa using hzero _ (List.getElem_mem hk)

/-- The target is another number than the pile, unless the xor is 0 already. -/
theorem pile_ne_target (hxor : indicator board ≠ 0) (i : Nat) : pile board i ≠ target board i := by
  intro heq
  apply hxor
  have hself : pile board i ^^^ (pile board i ^^^ indicator board) = 0 :=
    BitVec.xor_eq_zero_iff.2 heq
  rwa [← BitVec.xor_assoc, BitVec.xor_self, BitVec.zero_xor] at hself

/-- A move changes one pile. -/
theorem Move.eq_set {after : Board} (hmove : Move board after)
    (hne : pile after i ≠ pile board i) : after = board.set i (pile after i) := by
  obtain ⟨k, stones, hk, -, -, rfl⟩ := hmove
  by_cases heq : k = i
  · rw [← heq, remove, pile_set hk]
  · rw [remove, pile_set_ne heq] at hne
    exact absurd rfl hne

/-- A search that leaves a pile which it has taken from does not end in a winning move. -/
theorem not_move_of_left {c : BitVec 32} {m n : Nat} {after : Board} (hi : i < board.length)
    (hreach : (step rand)^[m] (start board) = ⟨board.set i c, .search (i + 1) 1, 0⟩)
    (hc : c ≠ pile board i) (hother : c ≠ target board i)
    (hfinished : ((step rand)^[n] (start board)).control = .finished)
    (hafter : ((step rand)^[n] (start board)).board = after) (hmove : Move board after) :
    indicator after ≠ 0 := by
  have hmn : m ≤ n := by
    -- a turn that had ended would not get to the next pile
    by_contra hlt
    have hstill : (step rand)^[m - n] ((step rand)^[n] (start board)) = _ :=
      run_finished hfinished (m - n)
    rw [← Function.iterate_add_apply, Nat.sub_add_cancel (by omega), hreach] at hstill
    rw [← hstill] at hfinished
    cases hfinished
  have hleft : Left i c ⟨board.set i c, .search (i + 1) 1, 0⟩ := by
    refine ⟨pile_set hi, nofun, ?_⟩
    intro k j heq
    cases heq
    exact Nat.lt_succ_self i
  have hpile : pile ((step rand)^[n - m] _).board i = c := (hleft.run (n - m)).1
  rw [← hreach, ← Function.iterate_add_apply, Nat.sub_add_cancel hmn, hafter] at hpile
  -- a move that changes pile `i` changes nothing else
  rw [hmove.eq_set (by rwa [hpile]), hpile, Ne, indicator_set_eq_zero hi]
  exact hother

/-- The winning move. -/
theorem move_target (h : NonNegative board) (hi : i < board.length) (hj : 0 < j)
    (heq : (pile board i).toNat = (target board i).toNat + triangle j) :
    Move board (board.set i (target board i)) := by
  have hlt := h.pile_lt i
  have hone : triangle 1 ≤ triangle j := triangle_le hj
  refine ⟨i, triangle j, hi, hone, by omega, ?_⟩
  have hsub : pile board i - BitVec.ofNat 32 (triangle j) = target board i := by
    apply BitVec.eq_of_toNat_eq
    rw [sub_toNat (by omega), heq, Nat.add_sub_cancel]
  rw [remove, hsub]

theorem plays_iff (h : NonNegative board) : Plays board ↔ Finds board := by
  constructor
  · intro hplays
    obtain ⟨rand, hfair⟩ := exists_fair board.length
    obtain ⟨-, n, hfinished, hmove⟩ := hplays rand hfair
    have hstones : ∃ p ∈ board, p ≠ 0 := by
      by_contra hnone
      have hempty : ∀ p ∈ board, p = 0 := fun p hp =>
        Decidable.byContradiction fun hne => hnone ⟨p, hp, hne⟩
      have hdraw : start board = ⟨board, .draw, 0⟩ := by
        rw [start, if_neg (not_not.2 (indicator_empty hempty))]
      rw [hdraw, run_draw_empty hempty] at hfinished
      cases hfinished
    refine ⟨hstones, ?_⟩
    intro hxor
    obtain ⟨hmove, hzero⟩ := hmove hstones
    replace hzero := hzero hxor
    obtain ⟨q, hq, hqne⟩ := hstones
    obtain ⟨p, hfirst⟩ : ∃ p, board.find? (· ≠ 0) = some p :=
      Option.isSome_iff_exists.1 (List.find?_isSome.2 ⟨q, hq, by simpa using hqne⟩)
    obtain ⟨i, hi, hpile, hne, hsearch⟩ := run_search hfirst hxor
    refine ⟨p, hfirst, ?_⟩
    by_contra hnone
    have hnot : ∀ k, 0 < k → (target board i).toNat + triangle k ≠ (pile board i).toNat := by
      intro k hk heq
      rw [target, hpile] at heq
      exact hnone ⟨k, hk, heq.symm⟩
    -- then the search leaves pile `i` with other stones than it had, and never comes back
    obtain ⟨m, hm⟩ := hsearch rand
    have hstart : p.toNat + triangle 0 = (pile board i).toNat := by
      rw [hpile]
      rfl
    obtain ⟨m', c, hleave, -, hless, hother⟩ :=
      search_leaves hi (h.pile_lt i) hnot hstart
    have hreach : (step rand)^[m' + m] (start board) = ⟨board.set i c, .search (i + 1) 1, 0⟩ := by
      rw [Function.iterate_add_apply, hm, hleave]
    have hc : c ≠ pile board i := by
      have hpos : p.toNat ≠ 0 := fun hzero => hne (BitVec.eq_of_toNat_eq hzero)
      have := hless (by omega)
      intro heq
      rw [heq, hpile] at this
      omega
    have htarget := hother (hpile ▸ pile_ne_target hxor i)
    exact not_move_of_left hi hreach hc htarget hfinished rfl hmove hzero
  · intro hfinds rand hfair
    refine ⟨run_nonNegative h, ?_⟩
    obtain ⟨hstones, hfound⟩ := hfinds
    by_cases hxor : indicator board = 0
    · have hdraw : start board = ⟨board, .draw, 0⟩ := by
        rw [start, if_neg (not_not.2 hxor)]
      rw [hdraw]
      obtain ⟨n, hfinished, hmove⟩ := run_draw h hfair hstones 0
      exact ⟨n, hfinished, fun _ => ⟨hmove, fun hne => absurd hxor hne⟩⟩
    · obtain ⟨p, hfirst, j, hj, heq⟩ := hfound hxor
      obtain ⟨i, hi, hpile, hne, hsearch⟩ := run_search hfirst hxor
      obtain ⟨m, hm⟩ := hsearch rand
      have htarget : (pile board i).toNat = (target board i).toNat + triangle j := by
        rw [target, hpile, heq]
      have hrun : (step rand)^[j - 1 + 1 + m] (start board) =
          ⟨board.set i (target board i), .finished, 0⟩ := by
        rw [Function.iterate_add_apply, hm]
        apply search_found hi (h.pile_lt i) (j := 0)
        · rw [hpile]
          rfl
        · rw [htarget, show 0 + 1 + (j - 1) = j by omega]
      refine ⟨_, by rw [hrun], fun _ => ?_⟩
      rw [hrun]
      refine ⟨move_target h hi hj htarget, fun _ => ?_⟩
      exact (indicator_set_eq_zero hi).2 rfl

/-! ## Rounds -/

theorem desc24_nonNegative (rand : Nat → Nat) : NonNegative (desc24 rand) := by
  intro p hp
  rw [desc24, List.mem_map] at hp
  obtain ⟨i, -, rfl⟩ := hp
  rw [toInt_nonneg, BitVec.toNat_ofNat]
  omega

/-- The answers that are accepted. -/
theorem round_monster {g g' : Game} {response response2 : BitVec 32}
    (h : round g response response2 = .monster g') :
    0 ≤ response.toInt ∧ response.toInt < g.board.length ∧ 0 < response2.toInt ∧
      g'.board = remove g.board response.toNat response2 := by
  have hhurt : ∀ next : Game → Round, (∀ g₁, next g₁ ≠ .monster g') →
      hurt g next ≠ .monster g' := by
    intro next hnext heq
    simp only [hurt] at heq
    split at heq
    · cases heq
    · exact hnext _ heq
  simp only [round] at h
  split at h
  · cases h
  · split at h
    · exact absurd h (hhurt _ nofun)
    · split at h
      · exact absurd h (hhurt _ nofun)
      · split at h
        · exact absurd h (hhurt _ nofun)
        · -- the answers have passed the checks, which look at `response` for both
          next hpile hstones =>
          cases h
          exact ⟨by omega, by omega, by omega, rfl⟩

/-- Taking stones leaves the board without negative piles when there were enough. -/
theorem remove_nonNegative_iff (h : NonNegative board) (hi : i < board.length)
    (hpos : 0 < x.toInt) : NonNegative (remove board i x) ↔ x.toInt ≤ (pile board i).toInt := by
  have hpile := h.pile_lt i
  have hx : x.toNat < 2 ^ 31 := toInt_nonneg.1 (Int.le_of_lt hpos)
  rw [toInt_eq hpile, toInt_eq hx]
  constructor
  · intro hremove
    have hlt := hremove.pile_lt i
    rw [remove, pile_set hi, BitVec.toNat_sub] at hlt
    omega
  · intro hle
    have hsub := h.remove (i := i) (k := x.toNat) (by omega)
    rwa [BitVec.ofNat_toNat, BitVec.setWidth_eq] at hsub

/-- After answers that are accepted no pile is ever negative and the monster plays by the rules
    exactly when the player has not taken more stones than there were and the search finds a winning
    move in the first pile with stones, if there is one at all; and there are stones. -/
theorem round_plays_iff {g g' : Game} {response response2 : BitVec 32}
    (hboard : NonNegative g.board) (hround : round g response response2 = .monster g') :
    (NonNegative g'.board ∧ Plays g'.board) ↔
      response2.toInt ≤ (pile g.board response.toNat).toInt ∧
        Finds (remove g.board response.toNat response2) := by
  obtain ⟨hnonneg, hlt, hpos, hg'⟩ := round_monster hround
  have hi : response.toNat < g.board.length := by
    rw [toInt_eq (toInt_nonneg.1 hnonneg)] at hlt
    omega
  rw [hg', ← remove_nonNegative_iff hboard hi hpos]
  exact and_congr_right plays_iff

/-- From [3, 1, 2] the player takes the pile in the middle. -/
theorem round_plays_iff_middle : NonNegative [3, 0, 2] ∧ Plays [3, 0, 2] := by
  have hround : round ⟨[3, 1, 2], 50, false, true⟩ 1 1 =
      .monster ⟨[3, 0, 2], 50, false, true⟩ := by decide
  apply (round_plays_iff (by decide) hround).2
  exact ⟨by decide, ⟨3, by decide, by decide⟩,
    fun _ => ⟨3, by decide, 1, by decide, by decide⟩⟩

/-- From [3, 1, 1] the player takes the pile in the middle; the monster takes all the others. -/
theorem not_plays_middle :
    round ⟨[3, 1, 1], 50, false, true⟩ 1 1 = .monster ⟨[3, 0, 1], 50, false, true⟩ ∧
      NonNegative [3, 1, 1] ∧ ¬ Plays [3, 0, 1] := by
  refine ⟨by decide, by decide, ?_⟩
  rw [plays_iff (by decide)]
  intro hfinds
  obtain ⟨p, hp, j, hj, heq⟩ := hfinds.2 (by decide)
  have hfirst : [3, 0, 1].find? (fun p : BitVec 32 => p ≠ 0) = some 3 := by decide
  have hthree : p.toNat = 3 := by
    rw [Option.some.inj (hp.symm.trans hfirst)]
    rfl
  have hone : (p ^^^ indicator [3, 0, 1]).toNat = 1 := by
    rw [Option.some.inj (hp.symm.trans hfirst)]
    decide +kernel
  rw [hthree, hone] at heq
  -- 2 is between the first two triangular numbers
  cases j with
  | zero => exact absurd hj (by decide)
  | succ j =>
    cases j with
    | zero => exact absurd heq (by decide)
    | succ j =>
      have hthird : triangle 2 ≤ triangle (j + 1 + 1) := triangle_le (by omega)
      rw [show triangle 2 = 3 from rfl] at hthird
      omega

end Nim
