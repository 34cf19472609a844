import Coursework.Nim.Monster

/-!
# The solver

`flat_solver` of `puzzles.c`, which prints the winning moves of a board. It tries every move on the
board itself and puts the stones back. The counter of a move's stones is an `int`: where it cannot
be increased any more the behaviour is undefined, and the model stops.
-/

namespace Nim

/-- A printed line, `winning move: remove %d from the %d pile`: the second number is `game[i]`. -/
structure Line where
  stones : Nat
  pile : BitVec 32
  deriving DecidableEq

/-- The board and what has been printed. -/
structure Solver where
  game : Board
  output : List Line
  deriving DecidableEq

/-- The body of the inner loop. -/
def tryMove (i j : Nat) (s : Solver) : Solver :=
  let game := remove s.game i (BitVec.ofNat 32 j)
  let nimber := indicator game
  let game := game.set i (pile game i + BitVec.ofNat 32 j)
  ⟨game, if nimber = 0 then s.output ++ [⟨j, pile game i⟩] else s.output⟩

/-- The inner loop, where `j` can be increased so many times. -/
def tryMoves (i : Nat) : Nat → Nat → Solver → Option Solver
  | 0, j, s => if (j : Int) ≤ (pile s.game i).toInt then none else some s
  | room + 1, j, s =>
    if (j : Int) ≤ (pile s.game i).toInt then tryMoves i room (j + 1) (tryMove i j s) else some s

/-- The largest `int`. -/
def intMax : Nat := 2 ^ 31 - 1

/-- `flat_solver` -/
def flatSolver (game : Board) : Option (Bool × Solver) :=
  if indicator game ≠ 0 then
    ((List.range game.length).foldlM (fun s i => tryMoves i (intMax - 1) 1 s) ⟨game, []⟩).map
      fun s => (true, s)
  else some (false, ⟨game, []⟩)

end Nim
