import Coursework.Nim.FlatSolver
import Coursework.Nim.Spec.Turn
import Mathlib.Data.Nat.Bitwise

/-!
# The winning moves

The player to move wins when the xor of the piles is not 0: then some move makes it 0, and from 0
every move leads away. `flat_solver` prints the moves that make it 0.

## Key results

- `exists_winning`: there is a move to xor 0
- `flatSolver_eq`: what the solver prints
- `flatSolver_solves_iff`: when it solves the game
-/

namespace Nim

/-- A move takes `j` stones, at least one and at most all, from pile `i`. -/
def Removal (game : Board) (i j : Nat) : Prop :=
  i < game.length ∧ 1 ≤ j ∧ j ≤ (pile game i).toNat

/-- All moves, in the order of the loops. -/
def removals (game : Board) : List (Nat × Nat) :=
  (List.range game.length).flatMap fun i => (List.range' 1 (pile game i).toNat).map fun j => (i, j)

/-- `flat_solver` returns false. -/
def returnsFalse (game : Board) : Bool :=
  match flatSolver game with
  | some (false, _) => true
  | _ => false

/-- The move leaves a board on which `flat_solver` returns false. -/
def wins (game : Board) (i j : Nat) : Bool := returnsFalse (remove game i (BitVec.ofNat 32 j))

/-- The solver returns, with the board as it was; it returns true exactly when a move wins; it
    prints a line for every winning move and no others, in the order of the loops, and at least one
    when it returns true. A line names the pile by its stones, and the move wins from every pile
    that has so many. -/
def Solves (game : Board) : Prop :=
  ∃ win output, flatSolver game = some (win, ⟨game, output⟩) ∧
    (win = true ↔ ∃ i j, Removal game i j ∧ wins game i j = true) ∧
    output = ((removals game).filter fun m => wins game m.1 m.2).map
      (fun m => ⟨m.2, pile game m.1⟩) ∧
    (win = true → output ≠ []) ∧
    ∀ line ∈ output, ∀ i < game.length, pile game i = line.pile →
      Removal game i line.stones ∧ wins game i line.stones = true

variable {game : Board} {i j k : Nat} {output : List Line}

/-! ## Winning moves -/

/-- A bit of the xor is a bit of some pile. -/
theorem exists_getLsbD (h : (indicator game).getLsbD k = true) :
    ∃ i < game.length, (pile game i).getLsbD k = true := by
  induction game with
  | nil => cases h.symm.trans BitVec.getLsbD_zero
  | cons p game ih =>
    rw [indicator_cons, BitVec.getLsbD_xor] at h
    -- either the first pile has the bit, or the xor of the others has it
    by_cases hp : p.getLsbD k = true
    · exact ⟨0, Nat.succ_pos _, hp⟩
    · rw [Bool.not_eq_true] at hp
      rw [hp, Bool.false_xor] at h
      obtain ⟨i, hi, hpile⟩ := ih h
      exact ⟨i + 1, Nat.succ_lt_succ hi, hpile⟩

/-- Some pile has more stones than it should: one with the highest bit of the xor. -/
theorem exists_target_lt (hxor : indicator game ≠ 0) :
    ∃ i < game.length, (target game i).toNat < (pile game i).toNat := by
  have hne : (indicator game).toNat ≠ 0 := fun h => hxor (BitVec.eq_of_toNat_eq h)
  obtain ⟨k, hk, hhigh⟩ := Nat.exists_most_significant_bit hne
  obtain ⟨i, hi, hbit⟩ := exists_getLsbD hk
  refine ⟨i, hi, ?_⟩
  have htarget : (target game i).toNat = (pile game i).toNat ^^^ (indicator game).toNat :=
    BitVec.toNat_xor ..
  rw [htarget]
  apply Nat.lt_of_testBit k
  · rw [Nat.testBit_xor, hk]
    exact congrArg (· ^^ true) hbit
  · exact hbit
  · -- above that bit the target and the pile agree
    intro m hm
    rw [Nat.testBit_xor, hhigh m hm, Bool.xor_false]

theorem indicator_remove (hi : i < game.length) :
    indicator (remove game i (BitVec.ofNat 32 j)) = 0 ↔
      pile game i - BitVec.ofNat 32 j = target game i := indicator_set_eq_zero hi

/-- If the xor is not 0, a move makes it 0. -/
theorem exists_winning (hxor : indicator game ≠ 0) :
    ∃ i j, Removal game i j ∧ indicator (remove game i (BitVec.ofNat 32 j)) = 0 := by
  obtain ⟨i, hi, hlt⟩ := exists_target_lt hxor
  refine ⟨i, (pile game i).toNat - (target game i).toNat, ⟨hi, by omega, by omega⟩, ?_⟩
  -- taking the difference leaves the target
  rw [indicator_remove hi]
  apply BitVec.eq_of_toNat_eq
  rw [sub_toNat (by omega)]
  omega

/-- If it is 0, no move leaves it so. -/
theorem indicator_remove_ne (hxor : indicator game = 0) (h : Removal game i j) :
    indicator (remove game i (BitVec.ofNat 32 j)) ≠ 0 := by
  obtain ⟨hi, hpos, hle⟩ := h
  have htarget : target game i = pile game i := by
    rw [target, hxor]
    exact BitVec.xor_zero
  rw [Ne, indicator_remove hi, htarget]
  intro heq
  have hsub := sub_toNat hle
  rw [heq] at hsub
  omega

/-! ## The loops -/

/-- A move that is tried is taken back. -/
theorem tryMove_eq (hi : i < game.length) (j : Nat) :
    tryMove i j ⟨game, output⟩ =
      ⟨game, output ++
        if indicator (remove game i (BitVec.ofNat 32 j)) = 0 then [⟨j, pile game i⟩] else []⟩ := by
  have hback : (remove game i (BitVec.ofNat 32 j)).set i
      (pile (remove game i (BitVec.ofNat 32 j)) i + BitVec.ofNat 32 j) = game := by
    rw [remove, pile_set hi, List.set_set, BitVec.sub_add_cancel, set_pile]
  simp only [tryMove, hback]
  split
  · rfl
  · rw [List.append_nil]

/-- The lines for pile `i`, from `j` stones on. -/
def linesFrom (game : Board) (i j : Nat) : List Line :=
  ((List.range' j ((pile game i).toNat + 1 - j)).filter fun j =>
    indicator (remove game i (BitVec.ofNat 32 j)) = 0).map fun j => ⟨j, pile game i⟩

theorem linesFrom_succ (hle : j ≤ (pile game i).toNat) :
    linesFrom game i j =
      (if indicator (remove game i (BitVec.ofNat 32 j)) = 0 then [⟨j, pile game i⟩] else []) ++
        linesFrom game i (j + 1) := by
  have hcount : (pile game i).toNat + 1 - j = (pile game i).toNat + 1 - (j + 1) + 1 := by omega
  rw [linesFrom, hcount, List.range'_succ, List.filter_cons]
  by_cases hzero : indicator (remove game i (BitVec.ofNat 32 j)) = 0
  · rw [if_pos (decide_eq_true hzero), if_pos hzero]
    rfl
  · rw [if_neg (by simpa using hzero), if_neg hzero]
    rfl

theorem linesFrom_end (hlt : (pile game i).toNat < j) : linesFrom game i j = [] := by
  have hcount : (pile game i).toNat + 1 - j = 0 := by omega
  rw [linesFrom, hcount]
  rfl

/-- The inner loop ends unless the counter has to go beyond its room. -/
theorem tryMoves_eq (hi : i < game.length) (hpile : (pile game i).toNat < 2 ^ 31) (room : Nat) :
    tryMoves i room j ⟨game, output⟩ =
      if (pile game i).toNat < j + room then some ⟨game, output ++ linesFrom game i j⟩
      else none := by
  have hint := toInt_eq hpile
  induction room generalizing j output with
  | zero =>
    rw [tryMoves, hint, Nat.add_zero]
    by_cases hlt : (pile game i).toNat < j
    · -- the pile is done
      rw [if_neg (by omega), if_pos hlt, linesFrom_end hlt, List.append_nil]
    · rw [if_pos (by omega), if_neg hlt]
  | succ room ih =>
    rw [tryMoves, hint]
    by_cases hlt : (pile game i).toNat < j
    · rw [if_neg (by omega), if_pos (by omega), linesFrom_end hlt, List.append_nil]
    · -- the move with `j` stones is tried, then the rest of the pile
      have hlines := linesFrom_succ (Nat.le_of_not_lt hlt)
      have hroom : j + 1 + room = j + (room + 1) := by omega
      rw [if_pos (by omega), tryMove_eq hi, ih, hlines, hroom, List.append_assoc]

/-- The piles that the counter can reach. -/
theorem foldlM_tryMoves {is : List Nat} (his : ∀ i ∈ is, i < game.length)
    (hgame : NonNegative game) :
    is.foldlM (fun s i => tryMoves i (intMax - 1) 1 s) ⟨game, output⟩ =
      if ∀ i ∈ is, (pile game i).toNat ≠ intMax then
        some ⟨game, output ++ is.flatMap fun i => linesFrom game i 1⟩
      else none := by
  induction is generalizing output with
  | nil =>
    rw [if_pos nofun, List.flatMap_nil, List.append_nil]
    rfl
  | cons i is ih =>
    have hpile := hgame.pile_lt i
    have hmax : (pile game i).toNat < 1 + (intMax - 1) ↔ (pile game i).toNat ≠ intMax := by
      unfold intMax
      omega
    rw [List.foldlM_cons, tryMoves_eq (his i List.mem_cons_self) hpile]
    simp only [hmax, List.forall_mem_cons]
    -- one pile the counter cannot pass ends the whole loop
    by_cases hi : (pile game i).toNat ≠ intMax
    · rw [if_pos hi]
      show is.foldlM _ _ = _
      rw [ih fun i hi => his i (List.mem_cons_of_mem _ hi), List.flatMap_cons, List.append_assoc]
      simp only [hi, not_false_eq_true, ne_eq, true_and]
    · rw [if_neg hi, if_neg fun h => hi h.1]
      rfl

theorem forall_pile :
    (∀ i ∈ List.range game.length, (pile game i).toNat ≠ intMax) ↔
      ∀ p ∈ game, p.toNat ≠ intMax := by
  apply Iff.intro
  · intro h p hp
    obtain ⟨i, hi, rfl⟩ := List.getElem_of_mem hp
    have hpile := h i (List.mem_range.2 hi)
    rwa [pile_eq hi] at hpile
  · intro h i hi
    rw [pile_eq (List.mem_range.1 hi)]
    exact h _ (List.getElem_mem _)

/-- The lines that the solver prints on a board with xor other than 0. -/
def winningLines (game : Board) : List Line :=
  (List.range game.length).flatMap fun i => linesFrom game i 1

/-- What the solver does: it needs a pile that the counter cannot reach to go wrong. -/
theorem flatSolver_eq (h : NonNegative game) :
    flatSolver game =
      if indicator game = 0 then some (false, ⟨game, []⟩)
      else if ∀ p ∈ game, p.toNat ≠ intMax then some (true, ⟨game, winningLines game⟩)
      else none := by
  by_cases hxor : indicator game = 0
  · rw [flatSolver, if_neg (not_not_intro hxor), if_pos hxor]
  · rw [flatSolver, if_pos hxor, if_neg hxor,
      foldlM_tryMoves (fun i hi => List.mem_range.1 hi) h]
    simp only [forall_pile]
    split <;> rfl

/-- The solver returns false exactly when the xor is 0. -/
theorem returnsFalse_iff (h : NonNegative game) :
    returnsFalse game = true ↔ indicator game = 0 := by
  rw [returnsFalse, flatSolver_eq h]
  by_cases hxor : indicator game = 0
  · rw [if_pos hxor]
    exact iff_of_true rfl hxor
  · rw [if_neg hxor]
    apply iff_of_false _ hxor
    by_cases hpiles : ∀ p ∈ game, p.toNat ≠ intMax
    · rw [if_pos hpiles]
      exact Bool.false_ne_true
    · rw [if_neg hpiles]
      exact Bool.false_ne_true

/-- So a move wins exactly when it makes the xor 0. -/
theorem wins_iff (h : NonNegative game) (hmove : Removal game i j) :
    wins game i j = true ↔ indicator (remove game i (BitVec.ofNat 32 j)) = 0 :=
  returnsFalse_iff (h.remove hmove.2.2)

/-! ## The printed lines -/

theorem mem_removals {m : Nat × Nat} : m ∈ removals game ↔ Removal game m.1 m.2 := by
  simp only [removals, List.mem_flatMap, List.mem_range, List.mem_map, List.mem_range'_1, Removal]
  apply Iff.intro
  · rintro ⟨i, hi, j, hj, rfl⟩
    have hle : j ≤ (pile game i).toNat := by omega
    exact ⟨hi, hj.1, hle⟩
  · intro ⟨hi, hpos, hle⟩
    exact ⟨m.1, hi, m.2, ⟨hpos, by omega⟩, rfl⟩

/-- The lines are the winning moves, in the order of the loops. -/
theorem winningLines_eq (h : NonNegative game) :
    winningLines game = ((removals game).filter fun m => wins game m.1 m.2).map
      (fun m => ⟨m.2, pile game m.1⟩) := by
  have hwins : (removals game).filter (fun m => wins game m.1 m.2) =
      (removals game).filter fun m =>
        indicator (remove game m.1 (BitVec.ofNat 32 m.2)) = 0 := by
    apply List.filter_congr
    intro m hm
    rw [Bool.eq_iff_iff, decide_eq_true_iff]
    exact wins_iff h (mem_removals.1 hm)
  -- pile by pile, both sides are the same filter
  rw [hwins, removals, List.filter_flatMap, List.map_flatMap, winningLines]
  simp only [List.filter_map, List.map_map]
  rfl

theorem mem_winningLines (h : NonNegative game) {line : Line} :
    line ∈ winningLines game ↔ ∃ i, Removal game i line.stones ∧
      wins game i line.stones = true ∧ line.pile = pile game i := by
  rw [winningLines_eq h, List.mem_map]
  simp only [List.mem_filter, mem_removals]
  apply Iff.intro
  · rintro ⟨m, ⟨hmove, hwin⟩, rfl⟩
    exact ⟨m.1, hmove, hwin, rfl⟩
  · intro ⟨i, hmove, hwin, hpile⟩
    exact ⟨(i, line.stones), ⟨hmove, hwin⟩, by rw [← hpile]⟩

/-- The xor of a board decides whether a move wins from one of two equal piles. -/
theorem wins_pile (h : NonNegative game) {i' : Nat} (hi' : i' < game.length)
    (hpile : pile game i' = pile game i) (hmove : Removal game i j)
    (hwin : wins game i j = true) : Removal game i' j ∧ wins game i' j = true := by
  have hmove' : Removal game i' j := ⟨hi', hmove.2.1, by rw [hpile]; exact hmove.2.2⟩
  refine ⟨hmove', ?_⟩
  rw [wins_iff h hmove, indicator_remove hmove.1] at hwin
  rw [wins_iff h hmove', indicator_remove hi', target, hpile]
  exact hwin

/-! ## The solver -/

/-- The solver solves every board on which its counter does not overflow. -/
theorem flatSolver_solves_iff (h : NonNegative game) :
    Solves game ↔ indicator game = 0 ∨ ∀ p ∈ game, p.toNat ≠ intMax := by
  by_cases hxor : indicator game = 0
  · apply iff_of_true _ (.inl hxor)
    -- from xor 0 no move wins, and nothing is printed
    have hnone : ∀ i j, Removal game i j → ¬ wins game i j = true := by
      intro i j hmove
      rw [wins_iff h hmove]
      exact indicator_remove_ne hxor hmove
    have hempty : (removals game).filter (fun m => wins game m.1 m.2) = [] := by
      rw [List.filter_eq_nil_iff]
      exact fun m hm => hnone _ _ (mem_removals.1 hm)
    refine ⟨false, [], by rw [flatSolver_eq h, if_pos hxor], ?_, by rw [hempty]; rfl, nofun, nofun⟩
    exact iff_of_false Bool.false_ne_true fun ⟨i, j, hmove, hwin⟩ => hnone i j hmove hwin
  · obtain ⟨i, j, hmove, hzero⟩ := exists_winning hxor
    have hwin : wins game i j = true := (wins_iff h hmove).2 hzero
    by_cases hpiles : ∀ p ∈ game, p.toNat ≠ intMax
    · apply iff_of_true _ (.inr hpiles)
      refine ⟨true, winningLines game, ?_, iff_of_true rfl ⟨i, j, hmove, hwin⟩,
        winningLines_eq h, ?_, ?_⟩
      · rw [flatSolver_eq h, if_neg hxor, if_pos hpiles]
      · intro _
        have hline : (⟨j, pile game i⟩ : Line) ∈ winningLines game :=
          (mem_winningLines h).2 ⟨i, hmove, hwin, rfl⟩
        exact List.ne_nil_of_mem hline
      · intro line hline i' hi' hpile
        obtain ⟨i, hmove, hwin, hi⟩ := (mem_winningLines h).1 hline
        exact wins_pile h hi' (hpile.trans hi) hmove hwin
    · -- the counter overflows at the first such pile
      apply iff_of_false _ (by simp only [hxor, hpiles, or_self, not_false_eq_true])
      intro ⟨win, output, heq, _⟩
      rw [flatSolver_eq h, if_neg hxor, if_neg hpiles] at heq
      cases heq

theorem flatSolver_solves_iff_three : Solves [3, 1] ↔ indicator [3, 1] = 0 ∨
    ∀ p ∈ ([3, 1] : Board), p.toNat ≠ intMax :=
  flatSolver_solves_iff (by decide)

/-- One pile of the largest `int`. -/
theorem not_solves_intMax : ¬ Solves [BitVec.ofNat 32 intMax] := by
  intro ⟨win, output, heq, _⟩
  rw [flatSolver_eq (by decide), if_neg (by decide), if_neg fun h => h _ List.mem_cons_self rfl]
    at heq
  cases heq

end Nim
