import Mathlib.Algebra.Group.Nat.Defs
import Mathlib.Data.BitVec
import Mathlib.Logic.Function.Basic

/-!
# The set-associative cache

`Cache` of the cache simulator (`cache.C`). The four arrays `tags`, `valid`, `dirty` and
`lru` are one array of ways here; a loop over the ways of a set that treats every way by
itself is a function on the ways.
-/

namespace CacheSim

/-- One way of a set: `tags[i][j]`, `valid[i][j]`, `dirty[i][j]` and `lru[i][j]`. -/
structure Way where
  tag : BitVec 32
  valid : Bool
  dirty : Bool
  lru : Nat
  deriving DecidableEq, Repr

/-- A way after `reset`. -/
def Way.empty : Way := ⟨0, false, false, 0⟩

/-- A cache. `rand` has the results of the calls of `rand()` since `srand`, and `calls` how
    many of them there were. -/
structure Cache where
  numSets : Nat
  assoc : Nat
  blockSize : Nat
  randReplacement : Bool
  writeAlloc : Bool
  writeThrough : Bool
  sets : Nat → Nat → Way
  rand : Nat → Nat
  calls : Nat

namespace Cache

def reset (c : Cache) : Cache :=
  { c with sets := fun _ _ => .empty, calls := 0 }

/-- The constructor. -/
def new (numSets assoc blockSize : Nat) (randRep writeAlloc writeThrough : Bool)
    (rand : Nat → Nat) : Cache :=
  reset ⟨numSets, assoc, blockSize, randRep, writeAlloc, writeThrough, fun _ _ => .empty, rand, 0⟩

/-! ## Addresses -/

/-- `(int)log2((double)_blockSize)`. -/
def b (c : Cache) : Nat := Nat.log2 c.blockSize

/-- `(int)log2((double)_numSets)`. -/
def s (c : Cache) : Nat := Nat.log2 c.numSets

def getTag (c : Cache) (addr : BitVec 32) : BitVec 32 :=
  addr >>> (c.b + c.s)

def getIndex (c : Cache) (addr : BitVec 32) : BitVec 32 :=
  ((addr >>> c.b) <<< (32 - c.s)) >>> (32 - c.s)

/-! ## Lookups -/

/-- The first way of a set that holds `tag`. -/
def findTag (c : Cache) (ways : Nat → Way) (tag : BitVec 32) : Option Nat :=
  (List.range c.assoc).find? fun i => tag == (ways i).tag && (ways i).valid

/-- The first way of a set that holds nothing. -/
def findEmpty (c : Cache) (ways : Nat → Way) : Option Nat :=
  (List.range c.assoc).find? fun i => !(ways i).valid

def check (c : Cache) (addr : BitVec 32) (_load : Bool) : Bool :=
  (c.findTag (c.sets (c.getIndex addr).toNat) (c.getTag addr)).isSome

/-! ## Shifts by 32

With one set `32 - s` is 32, and a shift of a 32-bit word by 32 has no meaning in the language:
what comes out is the machine's. `access` goes round it by setting the index to 0 then; `check`
and `getIndex` do not. -/

/-- What a machine computes for `x << 32` and for `x >> 32`. -/
structure Shifts where
  left32 : BitVec 32 → BitVec 32
  right32 : BitVec 32 → BitVec 32

namespace Shifts

def shl (m : Shifts) (x : BitVec 32) (n : Nat) : BitVec 32 :=
  if n < 32 then x <<< n else m.left32 x

def shr (m : Shifts) (x : BitVec 32) (n : Nat) : BitVec 32 :=
  if n < 32 then x >>> n else m.right32 x

/-- The count is taken modulo 32, as on x86. -/
def masked : Shifts := ⟨fun x => x, fun x => x⟩

end Shifts

/-- `getIndex` on a machine. -/
def getIndexOn (m : Shifts) (c : Cache) (addr : BitVec 32) : BitVec 32 :=
  m.shr (m.shl (addr >>> c.b) (32 - c.s)) (32 - c.s)

/-- `check` on a machine; nothing if it reads outside the arrays. -/
def checkOn (m : Shifts) (c : Cache) (addr : BitVec 32) (_load : Bool) : Option Bool :=
  let index := (c.getIndexOn m addr).toNat
  if 0 < c.assoc ∧ c.numSets ≤ index then none
  else some (c.findTag (c.sets index) (c.getTag addr)).isSome

/-! ## Accesses -/

/-- Whether the `lru` numbers are kept at all. -/
def keepsLru (c : Cache) : Bool :=
  decide (1 < c.assoc) && !c.randReplacement

/-- The access hits way `i`. -/
def hit (c : Cache) (ways : Nat → Way) (i : Nat) (load : Bool) : Nat → Way :=
  let ways := if load then ways else Function.update ways i { ways i with dirty := true }
  if c.keepsLru then
    -- for all that had smaller LRU numbers, add 1 to them
    let bumped := fun j =>
      if (ways j).lru < (ways i).lru && (ways j).valid then
        { ways j with lru := (ways j).lru + 1 }
      else ways j
    Function.update bumped i { bumped i with lru := 0 }
  else ways

/-- The block is brought into way `i`, which is empty. -/
def fill (c : Cache) (ways : Nat → Way) (i : Nat) (tag : BitVec 32) (load : Bool) : Nat → Way :=
  let way := { ways i with tag := tag, valid := true }
  let ways := Function.update ways i (if load then way else { way with dirty := true })
  if c.keepsLru then
    let bumped := fun j =>
      if (ways j).valid then { ways j with lru := (ways j).lru + 1 } else ways j
    Function.update bumped i { bumped i with lru := 0 }
  else ways

/-- The block replaces the one in way `i`, whatever the policy. -/
def replace (ways : Nat → Way) (i : Nat) (tag : BitVec 32) (load : Bool) : Nat → Way :=
  Function.update ways i { ways i with tag := tag, valid := true, dirty := !load }

/-- The block replaces the least recently used one. -/
def replaceLru (c : Cache) (ways : Nat → Way) (tag : BitVec 32) (load : Bool) : Nat → Way :=
  fun j =>
    if j < c.assoc then
      if (ways j).lru + 1 = c.assoc then ⟨tag, true, !load, 0⟩
      else { ways j with lru := (ways j).lru + 1 }
    else ways j

def setWays (c : Cache) (index : Nat) (ways : Nat → Way) : Cache :=
  { c with sets := Function.update c.sets index ways }

/-- All ways of the set are valid, so one of them has to go. -/
def evict (c : Cache) (index : Nat) (tag : BitVec 32) (load : Bool) : Cache :=
  let ways := c.sets index
  if c.assoc = 1 then c.setWays index (replace ways 0 tag load)
  else if c.randReplacement then
    let temp := c.rand c.calls % c.assoc
    { c.setWays index (replace ways temp tag load) with calls := c.calls + 1 }
  else c.setWays index (c.replaceLru ways tag load)

/-- The set that `access` uses. -/
def setOf (c : Cache) (addr : BitVec 32) : Nat :=
  if c.numSets = 1 then 0 else (c.getIndex addr).toNat

/-- Accesses the cache, and says whether this was a hit. -/
def access (c : Cache) (addr : BitVec 32) (load : Bool) : Bool × Cache :=
  let index := c.setOf addr
  let tag := c.getTag addr
  match c.findTag (c.sets index) tag with
  | some i => (true, c.setWays index (c.hit (c.sets index) i load))
  | none =>
    -- a store that misses brings the block in only with write-allocate
    if load || c.writeAlloc then
      match c.findEmpty (c.sets index) with
      | some i => (false, c.setWays index (c.fill (c.sets index) i tag load))
      | none => (false, c.evict index tag load)
    else (false, c)

end Cache

end CacheSim
