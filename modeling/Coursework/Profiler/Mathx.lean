import Mathlib.Algebra.Group.Nat.Defs
import Mathlib.Data.List.Sort

/-!
# Statistics of a dataset

`Mathx` of the profiler: `Minimum` and `Maximum` sort a copy of the container, `Median` and
`Percentile` select in it. The algorithms of the standard library are a parameter. A `size_type` has
32 bits, as the profiler is built for Win32 only.
-/

namespace Profiler

/-- A comparison as the algorithms need it. -/
structure StrictWeakOrder {α : Type} (less : α → α → Bool) : Prop where
  irrefl : ∀ a, less a a = false
  trans : ∀ a b c, less a b → less b c → less a c
  incomparable : ∀ a b c, less a b = false → less b c = false → less a c = false

/-- `std::sort` and `std::nth_element`. -/
structure Algorithms where
  sort : {α : Type} → (α → α → Bool) → List α → List α
  nthElement : {α : Type} → (α → α → Bool) → List α → Nat → List α
  sort_perm : ∀ {α : Type} (less : α → α → Bool) (l : List α), StrictWeakOrder less →
    (sort less l).Perm l
  sort_sorted : ∀ {α : Type} (less : α → α → Bool) (l : List α), StrictWeakOrder less →
    (sort less l).Pairwise fun a b => less b a = false
  nthElement_perm : ∀ {α : Type} (less : α → α → Bool) (l : List α) (nth : Nat),
    StrictWeakOrder less → (nthElement less l nth).Perm l
  /-- No element before the nth is greater, and none after it is less. -/
  nthElement_split : ∀ {α : Type} (less : α → α → Bool) (l : List α) (nth : Nat),
    StrictWeakOrder less → nth < l.length →
    ∃ (before : List α) (x : α) (after : List α),
      nthElement less l nth = before ++ x :: after ∧ before.length = nth ∧
      (∀ a ∈ before, less x a = false) ∧ ∀ a ∈ after, less a x = false

/-- Why a call does not return. -/
inductive Stop where
  | assertion
  /-- A read outside the container. -/
  | undefined
  deriving DecidableEq

namespace Mathx

variable {α : Type}

/-- The comparison of all four functions. -/
def less (selector : α → Int) (item1 item2 : α) : Bool := selector item1 < selector item2

/-- `selector(*iter)` -/
def select (selector : α → Int) : Option α → Except Stop Int
  | none => .error .undefined
  | some item => .ok (selector item)

def median (std : Algorithms) (container : List α) (selector : α → Int) : Except Stop Int :=
  if container = [] then .ok 0
  else
    let middleIndex := container.length / 2
    select selector (std.nthElement (less selector) container middleIndex)[middleIndex]?

def minimum (std : Algorithms) (container : List α) (selector : α → Int) : Except Stop Int :=
  select selector (std.sort (less selector) container).head?

def maximum (std : Algorithms) (container : List α) (selector : α → Int) : Except Stop Int :=
  select selector (std.sort (less selector) container).getLast?

/-- `percentile * container2.size() / 100`, in the arithmetic of `size_type` -/
def indexToUse (percentile : Int) (size : Nat) : Nat := percentile.toNat * size % 2 ^ 32 / 100

def percentile (std : Algorithms) (container : List α) (selector : α → Int) (percentile : Int) :
    Except Stop Int :=
  if percentile ≤ 100 ∧ percentile ≥ 0 then
    if percentile = 100 then maximum std container selector
    else if percentile = 0 then minimum std container selector
    else if percentile = 50 then median std container selector
    else if container = [] then .ok 0
    else
      let index := indexToUse percentile container.length
      select selector (std.nthElement (less selector) container index)[index]?
  else .error .assertion

end Mathx

end Profiler
