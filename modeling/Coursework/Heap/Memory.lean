import Mathlib.Algebra.Group.Nat.Defs
import Mathlib.Data.BitVec
import Mathlib.Tactic.Common

/-!
# Byte memory with words

A memory of bytes under 32-bit addresses, with little-endian words of four bytes. At addresses
that are multiples of four two words are the same or have no byte in common, so a store is seen by
loads of its own address only.
-/

namespace Heap

/-- A byte for every address. -/
abbrev Memory := BitVec 32 → BitVec 8

namespace Memory

variable {m m' : Memory} {a b v : BitVec 32}

/-- The word at an address. -/
def load (m : Memory) (a : BitVec 32) : BitVec 32 :=
  m (a + 3) ++ m (a + 2) ++ m (a + 1) ++ m a

/-- The memory with one byte written. -/
def setByte (m : Memory) (a : BitVec 32) (byte : BitVec 8) : Memory :=
  fun x => if x = a then byte else m x

/-- The memory with a word written. -/
def store (m : Memory) (a v : BitVec 32) : Memory :=
  fun x =>
    if x = a then v.extractLsb' 0 8
    else if x = a + 1 then v.extractLsb' 8 8
    else if x = a + 2 then v.extractLsb' 16 8
    else if x = a + 3 then v.extractLsb' 24 8
    else m x

/-- `memcpy` between areas that do not overlap. -/
def copy (m : Memory) (dst src n : BitVec 32) : Memory :=
  fun x => if x - dst < n then m (src + (x - dst)) else m x

/-- `memset`. -/
def fill (m : Memory) (dst : BitVec 32) (byte : BitVec 8) (n : BitVec 32) : Memory :=
  fun x => if x - dst < n then byte else m x

/-- The address is a multiple of four. -/
def Aligned (a : BitVec 32) : Prop := a.toNat % 4 = 0

theorem load_store_self (m : Memory) (a v : BitVec 32) : (m.store a v).load a = v := by
  have h1 : a + 1 ≠ a := by bv_omega
  have h2 : a + 2 ≠ a := by bv_omega
  have h3 : a + 3 ≠ a := by bv_omega
  have h21 : a + 2 ≠ a + 1 := by bv_omega
  have h31 : a + 3 ≠ a + 1 := by bv_omega
  have h32 : a + 3 ≠ a + 2 := by bv_omega
  simp only [load, store, if_true, if_neg h1, if_neg h2, if_neg h3, if_neg h21, if_neg h31,
    if_neg h32]
  apply BitVec.eq_of_getLsbD_eq
  intro i hi
  simp only [BitVec.getLsbD_append, BitVec.getLsbD_extractLsb']
  grind

/-- A store leaves every byte of another word alone. -/
theorem store_byte (ha : Aligned a) (hb : Aligned b) (hne : a ≠ b) (m : Memory) (v : BitVec 32)
    {x : BitVec 32} (hlow : b.toNat ≤ x.toNat) (hhigh : x.toNat < b.toNat + 4) :
    m.store a v x = m x := by
  unfold Aligned at ha hb
  have h0 : x ≠ a := by bv_omega
  have h1 : x ≠ a + 1 := by bv_omega
  have h2 : x ≠ a + 2 := by bv_omega
  have h3 : x ≠ a + 3 := by bv_omega
  rw [store, if_neg h0, if_neg h1, if_neg h2, if_neg h3]

/-- A word is made of its four bytes. -/
theorem load_congr (hb : Aligned b)
    (h : ∀ x : BitVec 32, b.toNat ≤ x.toNat → x.toNat < b.toNat + 4 → m' x = m x) :
    m'.load b = m.load b := by
  unfold Aligned at hb
  rw [load, load, h (b + 3) (by bv_omega) (by bv_omega), h (b + 2) (by bv_omega) (by bv_omega),
    h (b + 1) (by bv_omega) (by bv_omega), h b (by bv_omega) (by bv_omega)]

theorem load_store_ne (ha : Aligned a) (hb : Aligned b) (hne : a ≠ b) (m : Memory)
    (v : BitVec 32) : (m.store a v).load b = m.load b :=
  load_congr hb fun _ hlow hhigh => store_byte ha hb hne m v hlow hhigh

theorem copy_outside {dst src n : BitVec 32} (hfit : dst.toNat + n.toNat ≤ 2 ^ 32) (m : Memory)
    {x : BitVec 32} (hx : x.toNat < dst.toNat ∨ dst.toNat + n.toNat ≤ x.toNat) :
    m.copy dst src n x = m x := by
  have hout : ¬ x - dst < n := by bv_omega
  rw [copy, if_neg hout]

theorem fill_outside {dst n : BitVec 32} (hfit : dst.toNat + n.toNat ≤ 2 ^ 32) (m : Memory)
    (byte : BitVec 8) {x : BitVec 32}
    (hx : x.toNat < dst.toNat ∨ dst.toNat + n.toNat ≤ x.toNat) : m.fill dst byte n x = m x := by
  have hout : ¬ x - dst < n := by bv_omega
  rw [fill, if_neg hout]

theorem setByte_outside (m : Memory) (byte : BitVec 8) {x : BitVec 32} (hx : x ≠ a) :
    m.setByte a byte x = m x := if_neg hx

end Memory

end Heap
