import Coursework.CacheSim.Spec.PrefetcherBits
import Coursework.CacheSim.TaggedPrefetcher

/-!
# Reading bits back

A bit reads back as it was left by the last call on it, unless it is at place 7 of its byte. That
is the sign bit of a `char`, and `checkBit` asks for a positive number.

## Key results

- `bit_run`: a bit after any calls is what the last call on it made it
- `readsBack_iff`: when an address reads back
- `checkPrefetched_mark`: the same for the tagged prefetcher, whose own test marks even addresses
-/

namespace CacheSim

namespace BitArray

/-- A call that changes the array. -/
inductive BitOp where
  | mark (addr : BitVec 32)
  | unmark (addr : BitVec 32)

def BitOp.addr : BitOp → BitVec 32
  | .mark addr => addr
  | .unmark addr => addr

/-- What the call makes of its bit. -/
def BitOp.marks : BitOp → Bool
  | .mark _ => true
  | .unmark _ => false

def perform (size : Nat) (bits : BitArray) : BitOp → BitArray
  | .mark addr => markBit addr bits size
  | .unmark addr => unmarkBit addr bits size

def run (size : Nat) (bits : BitArray) (ops : List BitOp) : BitArray :=
  ops.foldl (perform size) bits

/-- The last call on the bit at a place. -/
def lastOn (size i : Nat) (ops : List BitOp) : Option BitOp :=
  (ops.filter fun op => bitIndex op.addr size = i).getLast?

/-- A mark and an unmark of `a` read back and change no other bit, and after any calls `a` reads as
    the last one on its bit, or as before if there is none. -/
def ReadsBack (a : BitVec 32) (bits : BitArray) (size : Nat) : Prop :=
  checkBit a (markBit a bits size) size = true ∧
  checkBit a (unmarkBit a bits size) size = false ∧
  (∀ i, i ≠ bitIndex a size →
    (markBit a bits size).bit i = bits.bit i ∧ (unmarkBit a bits size).bit i = bits.bit i) ∧
  ∀ ops, checkBit a (run size bits ops) size =
    ((lastOn size (bitIndex a size) ops).map BitOp.marks).getD (checkBit a bits size)

variable {a : BitVec 32} {bits : BitArray} {size i : Nat}

theorem place_in_array (hsize : 0 < size) (hlen : bits.length = size) (addr : BitVec 32) :
    bitIndex addr size / 8 < bits.length := by
  have hlt : bitIndex addr size < size := Nat.mod_lt _ hsize
  omega

theorem length_perform (op : BitOp) : (perform size bits op).length = bits.length := by
  cases op with
  | mark addr => exact length_markBit ..
  | unmark addr => exact length_unmarkBit ..

/-- A call sets the bit of its address and leaves the others. -/
theorem bit_perform (hsize : 0 < size) (hlen : bits.length = size) (op : BitOp) :
    (perform size bits op).bit i = if bitIndex op.addr size = i then op.marks else bits.bit i := by
  cases op with
  | mark addr =>
    rw [perform, bit_markBit (place_in_array hsize hlen addr)]
    by_cases hi : i = bitIndex addr size
    · simp [hi, BitOp.addr, BitOp.marks]
    · simp [hi, Ne.symm hi, BitOp.addr]
  | unmark addr =>
    rw [perform, bit_unmarkBit (place_in_array hsize hlen addr)]
    by_cases hi : i = bitIndex addr size
    · simp [hi, BitOp.addr, BitOp.marks]
    · simp [hi, Ne.symm hi, BitOp.addr]

/-- A bit after any calls. -/
theorem bit_run (hsize : 0 < size) (hlen : bits.length = size) (ops : List BitOp) :
    (run size bits ops).bit i = ((lastOn size i ops).map BitOp.marks).getD (bits.bit i) := by
  induction ops generalizing bits with
  | nil => rfl
  | cons op ops ih =>
    show (run size (perform size bits op) ops).bit i = _
    rw [ih ((length_perform op).trans hlen), bit_perform hsize hlen, lastOn, lastOn]
    by_cases hop : bitIndex op.addr size = i
    · rw [if_pos hop, List.filter_cons_of_pos (by simpa using hop), List.getLast?_cons]
      -- a later call on the bit counts, and without one this call does
      cases (ops.filter fun op => bitIndex op.addr size = i).getLast? <;> rfl
    · rw [if_neg hop, List.filter_cons_of_neg (by simpa using hop)]

/-- An address reads back exactly when its bit is not the sign bit of its byte. -/
theorem readsBack_iff (a : BitVec 32) (hsize : 8 ≤ size) (hlen : bits.length = size) :
    ReadsBack a bits size ↔ bitIndex a size % 8 ≠ 7 := by
  have hpos : 0 < size := by omega
  have hplace := place_in_array hpos hlen a
  constructor
  · -- the sign bit is never seen
    intro hback hsign
    have hmark := hback.1
    rw [checkBit_eq, hsign] at hmark
    simp at hmark
  · -- at other places `checkBit` reads the bit
    intro hplain
    have hcheck : ∀ bits : BitArray, checkBit a bits size = bits.bit (bitIndex a size) := by
      intro bits
      rw [checkBit_eq, decide_eq_true hplain, Bool.and_true]
    refine ⟨?_, ?_, ?_, ?_⟩
    · rw [hcheck, bit_markBit hplace, decide_eq_true rfl, Bool.true_or]
    · rw [hcheck, bit_unmarkBit hplace, decide_eq_true rfl, Bool.not_true, Bool.false_and]
    · intro i hi
      rw [bit_markBit hplace, bit_unmarkBit hplace, decide_eq_false hi]
      exact ⟨Bool.false_or _, Bool.true_and _⟩
    · intro ops
      rw [hcheck, hcheck, bit_run hpos hlen]

theorem readsBack_zero : ReadsBack 0 (List.replicate 8 0) 8 :=
  (readsBack_iff 0 (by decide) rfl).2 (by decide)

/-- A mark at place 7 is not seen. -/
theorem not_readsBack_seven : ¬ ReadsBack 7 (List.replicate 8 0) 8 := by
  intro hback
  exact absurd hback.1 (by decide)

end BitArray

namespace Tagged

open BitArray

theorem bitIndex_tags (addr : BitVec 32) : bitIndex addr stateSize % 8 = addr.toNat % 8 := by
  show addr.toNat % 4096 % 8 = addr.toNat % 8
  omega

/-- A mark of the tagged prefetcher reads back when its address is not 7 modulo 8. -/
theorem checkPrefetched_mark {tags : BitArray} (hlen : tags.length = stateSize)
    (addr : BitVec 32) :
    checkPrefetched addr (markPrefetched addr tags) = decide (addr.toNat % 8 ≠ 7) := by
  have hplace := place_in_array (by decide) hlen addr
  rw [checkPrefetched, markPrefetched, checkBit_eq, bit_markBit hplace, decide_eq_true rfl,
    Bool.true_or, Bool.true_and, bitIndex_tags]

example : bitArrayTest = true := by decide +kernel

end Tagged

end CacheSim
