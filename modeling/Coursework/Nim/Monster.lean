import Mathlib.Data.BitVec

/-!
# The monster of room 24

The game of Nim in `puzzles.c`. A round of `solve24` up to the monster's turn is a function of the
two answers. The turn itself, which may wait for its random numbers, is a machine with one step for
each round of its loops: the search for a winning move, which takes stones as it goes, and the draw
of a pile.
-/

namespace Nim

/-- `board`; an `int` has 32 bits. -/
abbrev Board := List (BitVec 32)

def indicator (game : Board) : BitVec 32 := game.foldl (· ^^^ ·) 0

/-- `board[i]` -/
def pile (board : Board) (i : Nat) : BitVec 32 := board.getD i 0

/-- `board[i] -= k` -/
def remove (board : Board) (i : Nat) (k : BitVec 32) : Board := board.set i (pile board i - k)

/-- The board of `desc24`, from the random numbers that it draws. -/
def desc24 (rand : Nat → Nat) : Board :=
  (List.range (3 + rand 0 % 5)).map fun i => BitVec.ofNat 32 (1 + rand (i + 1) % 4)

structure Game where
  board : Board
  hp : Int
  /-- `solved_puzzles[24]` -/
  solved : Bool
  /-- The lock of the exit upwards. -/
  locked : Bool
  deriving DecidableEq

/-- How a round goes on. -/
inductive Round where
  /-- `solve24` returns. -/
  | returns (g : Game)
  /-- The player is dead. -/
  | exits (g : Game)
  /-- The next round follows. -/
  | again (g : Game)
  /-- It is the monster's turn. -/
  | monster (g : Game)
  deriving DecidableEq

/-- The player loses 10 points and, unless that was the last of them, goes on. -/
def hurt (g : Game) (next : Game → Round) : Round :=
  let g := { g with hp := g.hp - 10 }
  if g.hp ≤ 0 then .exits g else next g

/-- A round with the player's answers: the pile, and how many stones. -/
def round (g : Game) (response response2 : BitVec 32) : Round :=
  let numLeft := g.board.foldl (· + ·) 0
  if numLeft = 1 then .returns { g with solved := true, locked := false }
  else if numLeft = 0 then hurt g .returns
  else if response.toInt ≥ g.board.length ∨ response.toInt < 0 then hurt g .again
  -- the first answer, not the second, is compared with the pile
  else if response2.toInt ≤ 0 ∨ response.toInt > (pile g.board response.toNat).toInt then
    hurt g .again
  else .monster { g with board := remove g.board response.toNat response2 }

/-! ## The monster's turn -/

inductive Control where
  /-- The test of the inner loop, at these `i` and `j`. -/
  | search (i j : Nat)
  /-- The draw of a pile. -/
  | draw
  | finished
  deriving DecidableEq

structure Turn where
  board : Board
  control : Control
  /-- How many random numbers have been used. -/
  draws : Nat
  deriving DecidableEq

def start (board : Board) : Turn :=
  ⟨board, if indicator board ≠ 0 then .search 0 1 else .draw, 0⟩

/-- A step of the turn, where `rand` are the random numbers. -/
def step (rand : Nat → Nat) (t : Turn) : Turn :=
  match t.control with
  | .search i j =>
    if i < t.board.length then
      if (j : Int) ≤ (pile t.board i).toInt then
        let board := remove t.board i (BitVec.ofNat 32 j)
        if indicator board = 0 then { t with board := board, control := .finished }
        else { t with board := board, control := .search i (j + 1) }
      else { t with control := .search (i + 1) 1 }
    else { t with control := .finished }
  | .draw =>
    let idx := rand t.draws % t.board.length
    if pile t.board idx = 0 then { t with draws := t.draws + 1 }
    else if pile t.board idx = 1 then ⟨remove t.board idx 1, .finished, t.draws + 1⟩
    else
      let stones := 1 + Int.tmod (rand (t.draws + 1)) ((pile t.board idx).toInt - 1)
      ⟨remove t.board idx (BitVec.ofInt 32 stones), .finished, t.draws + 2⟩
  | .finished => t

end Nim
