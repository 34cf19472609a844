import Coursework.Nachos.Threads

/-!
# Synchronized lists

`add` and `removeFirst` of `nachos.threads.SynchList`, one program point for each statement,
as a program for the threads of `Threads.lean`.
-/

namespace Nachos

namespace SynchList

variable {T α : Type}

/-- A call by a thread. A `null` object is `none`. -/
inductive Call (α : Type) where
  | add (o : Option α)
  | removeFirst

/-- The field `list`. The others are history: the objects in the order in which they were
    added, and in the order in which threads have removed them. -/
structure Fields (T α : Type) where
  list : List α := []
  added : List α := []
  removed : List (T × α) := []
  deriving DecidableEq

/-- The statements of `add`. -/
inductive AddLine where
  | acquire
  /-- `list.add(o)` -/
  | append
  /-- `listEmpty.wake()` -/
  | wake
  | release
  deriving DecidableEq

/-- The statements of `removeFirst`. -/
inductive RemoveLine where
  | acquire
  /-- `while (list.isEmpty())` -/
  | whileEmpty
  /-- `listEmpty.sleep()` -/
  | sleep
  /-- `o = list.removeFirst()` -/
  | remove
  | release
  deriving DecidableEq

/-- A thread is outside the list, or at a statement of a call. -/
inductive Point (α : Type) where
  | outside
  | add (o : α) (line : AddLine)
  | removeFirst (line : RemoveLine)
  deriving DecidableEq

/-- A statement. -/
abbrev Stmt (T α : Type) := Mesa.Instr Unit Unit (Point α) (Fields T α)

/-- `add(o)`. -/
def add (f : Fields T α) (o : α) : AddLine → Stmt T α
  | .acquire => .acquire () (.add o .append)
  | .append => .act { f with list := f.list ++ [o], added := f.added ++ [o] } (.add o .wake)
  | .wake => .wake () (.add o .release)
  | .release => .release () .outside

/-- `removeFirst()`, by thread `t`. A `NoSuchElementException` is `stuck`. -/
def removeFirst (f : Fields T α) (t : T) : RemoveLine → Stmt T α
  | .acquire => .acquire () (.removeFirst .whileEmpty)
  | .whileEmpty => .act f (.removeFirst (if f.list.isEmpty then .sleep else .remove))
  | .sleep => .sleep () (.removeFirst .whileEmpty)
  | .remove =>
    match f.list with
    | [] => .stuck
    | o :: rest =>
      .act { f with list := rest, removed := f.removed ++ [(t, o)] } (.removeFirst .release)
  | .release => .release () .outside

/-- A thread outside makes the call that is its input. -/
def enter (f : Fields T α) : Call α → Stmt T α
  | .add none => .stuck
  | .add (some o) => .act f (.add o .acquire)
  | .removeFirst => .act f (.removeFirst .acquire)

/-- The program of every thread. -/
def program (T α : Type) : Mesa.Program T Unit Unit (Point α) (Fields T α) (Call α) where
  lockOf _ := ()
  instr t point f call :=
    match point with
    | .outside => enter f call
    | .add o line => add f o line
    | .removeFirst line => removeFirst f t line

/-- A new list, and all threads outside. -/
def init (T α : Type) : Threads T Unit Unit (Point α) (Fields T α) where
  shared := {}
  status _ := .ready .outside

end SynchList

end Nachos
