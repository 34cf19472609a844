import Mathlib.Data.BitVec
import Mathlib.Logic.Function.Basic

/-!
# Nested stopwatches

`StopwatchStack` of the profiler. A push is dropped when the stack has its maximum depth; a pop
takes the entry on top. The readings of the timer are inputs. A failed assertion ends the run.
-/

namespace Profiler

/-- An `int64_t`, whose subtraction wraps around. -/
abbrev TickValue := BitVec 64

variable {τ : Type} [DecidableEq τ]

/-- A tag is null or one of the pointers `τ`. -/
structure StopwatchEntry (τ : Type) where
  startTime : TickValue
  tag : Option τ
  deriving DecidableEq

structure StopwatchStack (τ : Type) where
  maxDepth : Nat
  /-- The back of the vector is the head. -/
  stack : List (StopwatchEntry τ)
  tagHistorySize : Nat
  tagHistory : τ → Option (List TickValue)

namespace StopwatchStack

/-- `StopwatchStack::StopwatchStack` -/
def new (reservationSize tagHistorySize : Nat) : StopwatchStack τ :=
  ⟨reservationSize, [], tagHistorySize, fun _ => none⟩

def pushWithValue (s : StopwatchStack τ) (tag : Option τ) (value : TickValue) : StopwatchStack τ :=
  if s.maxDepth ≤ s.stack.length then s else { s with stack := ⟨value, tag⟩ :: s.stack }

def storeResultWithTag (s : StopwatchStack τ) (result : TickValue) (tag : τ) :
    StopwatchStack τ :=
  if s.tagHistorySize = 0 then s
  else
    let historyOfTag := (s.tagHistory tag).getD []
    let historyOfTag :=
      if historyOfTag.length ≥ s.tagHistorySize then historyOfTag.tail else historyOfTag
    { s with tagHistory := Function.update s.tagHistory tag (some (historyOfTag ++ [result])) }

/-- The end of a pop, with the entry that was on top. -/
def finish (s : StopwatchStack τ) (entry : StopwatchEntry τ) (value : TickValue) :
    TickValue × StopwatchStack τ :=
  let delta := value - entry.startTime
  (delta, match entry.tag with
    | none => s
    | some tag => s.storeResultWithTag delta tag)

/-- None stands for the failed assertion `entry.tag == tag`. -/
def popWithValue (s : StopwatchStack τ) (tag : Option τ) (value : TickValue) :
    Option (TickValue × StopwatchStack τ) :=
  match s.stack with
  | [] => some (0, s)
  | entry :: stack =>
    if entry.tag = tag then some (finish { s with stack := stack } entry value) else none

/-- `Push`, with the reading of the timer. `Push()` is `Push(0)`. -/
def push (s : StopwatchStack τ) (tag : Option τ) (timerValue : TickValue) : StopwatchStack τ :=
  s.pushWithValue tag timerValue

/-- `Pop`, with the reading of the timer. It has no tag to compare with. -/
def pop (s : StopwatchStack τ) (timerValue : TickValue) : TickValue × StopwatchStack τ :=
  match s.stack with
  | [] => (0, s)
  | entry :: stack => finish { s with stack := stack } entry timerValue

def getTagHistory (s : StopwatchStack τ) (tag : τ) : List TickValue := (s.tagHistory tag).getD []

end StopwatchStack

/-- A call, with the value or the reading of the timer. -/
inductive Call (τ : Type) where
  | pushWithValue (tag : Option τ) (value : TickValue)
  | popWithValue (tag : Option τ) (value : TickValue)
  | push (tag : Option τ) (timerValue : TickValue)
  | pop (timerValue : TickValue)
  deriving DecidableEq

namespace StopwatchStack

/-- A call returns a value if it is a pop. -/
def call (s : StopwatchStack τ) : Call τ → Option (List TickValue × StopwatchStack τ)
  | .pushWithValue tag value => some ([], s.pushWithValue tag value)
  | .popWithValue tag value => (s.popWithValue tag value).map fun (result, s) => ([result], s)
  | .push tag timerValue => some ([], s.push tag timerValue)
  | .pop timerValue => some ([(s.pop timerValue).1], (s.pop timerValue).2)

/-- The values that the pops return, and the state after the calls. -/
def run (s : StopwatchStack τ) : List (Call τ) → Option (List TickValue × StopwatchStack τ)
  | [] => some ([], s)
  | c :: calls =>
    (s.call c).bind fun (results, s) =>
      (s.run calls).map fun (rest, s) => (results ++ rest, s)

end StopwatchStack

end Profiler
