import Coursework.CacheSim.Prefetcher

/-!
# The bit array of the tagged prefetcher

`tagged/prefetcher.C` has the bit functions of the submitted prefetcher for its one array, and a
test of them.
-/

namespace CacheSim

open BitArray

namespace Tagged

/-- `STATE_SIZE`. -/
def stateSize : Nat := 4096

def checkPrefetched (addr : BitVec 32) (tags : BitArray) : Bool := checkBit addr tags stateSize

def markPrefetched (addr : BitVec 32) (tags : BitArray) : BitArray := markBit addr tags stateSize

def markUnPrefetched (addr : BitVec 32) (tags : BitArray) : BitArray :=
  unmarkBit addr tags stateSize

/-- The first loop of `bitArrayTest`: false when a bit is set before it is marked. -/
def markEven (tags : BitArray) : Bool × BitArray :=
  (List.range 16).foldl (fun (ok, tags) i =>
    (ok && !checkPrefetched (BitVec.ofNat 32 (2 * i)) tags,
      markPrefetched (BitVec.ofNat 32 (2 * i)) tags)) (true, tags)

/-- The second loop. -/
def unmarkThird (tags : BitArray) : BitArray :=
  (List.range 11).foldl (fun tags i => markUnPrefetched (BitVec.ofNat 32 (3 * i)) tags) tags

/-- `bitArrayTest`, which runs on an array of zeros. -/
def bitArrayTest : Bool :=
  let (ok, tags) := markEven (List.replicate stateSize 0)
  let tags := unmarkThird tags
  ok && (List.range 32).all fun i =>
    checkPrefetched (BitVec.ofNat 32 i) tags == (i % 2 == 0 && i % 6 != 0)

end Tagged

end CacheSim
