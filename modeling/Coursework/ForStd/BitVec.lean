import Mathlib.Init

/-!
# Bytes of a bit vector

A bit vector of `8 * n` bits as `n` bytes, the lowest first, and what laying the shifted bytes
of one vector over another does to them. Candidates for upstreaming to Lean's standard
library.
-/

namespace BitVec

variable {w n : Nat}

/-- Byte number `i`, the lowest first. -/
def byte (x : BitVec w) (i : Nat) : BitVec 8 := x.extractLsb' (8 * i) 8

@[simp] theorem getElem_byte (x : BitVec w) (i : Nat) {j : Nat} (hj : j < 8) :
    (x.byte i)[j] = x.getLsbD (8 * i + j) := by
  simp [byte]

/-- A bit vector is its bytes. -/
theorem eq_of_byte_eq {x y : BitVec w} (hw : w = 8 * n) (h : ∀ i < n, x.byte i = y.byte i) :
    x = y := by
  apply eq_of_getLsbD_eq
  intro k hk
  have hmod : k % 8 < 8 := Nat.mod_lt _ (by decide)
  have hbyte := congrArg (fun b => b[k % 8]) (h (k / 8) (by omega))
  have hsplit : 8 * (k / 8) + k % 8 = k := Nat.div_add_mod k 8
  simpa only [getElem_byte, hsplit] using hbyte

/-- The bytes of `x`, moved up by `q` places, over those of `y`. -/
def overlayUp (x y : BitVec w) (q : Nat) : BitVec w :=
  x <<< (8 * q) &&& allOnes w <<< (8 * q) ||| y &&& ~~~ (allOnes w <<< (8 * q))

/-- The bytes of `x`, moved down by `q` places, over those of `y`. -/
def overlayDown (x y : BitVec w) (q : Nat) : BitVec w :=
  x >>> (8 * q) &&& allOnes w >>> (8 * q) ||| y &&& ~~~ (allOnes w >>> (8 * q))

theorem byte_overlayUp (x y : BitVec w) (hw : w = 8 * n) {i : Nat} (hi : i < n) (q : Nat) :
    (x.overlayUp y q).byte i = if q ≤ i then x.byte (i - q) else y.byte i := by
  ext j hj
  have hlt : 8 * i + j < w := by omega
  by_cases hq : q ≤ i
  · have hge : ¬ 8 * i + j < 8 * q := by omega
    have hsub : 8 * i + j - 8 * q = 8 * (i - q) + j := by omega
    have hsub_lt : 8 * (i - q) + j < w := by omega
    simp [overlayUp, hq, hlt, hge, hsub, hsub_lt]
  · have hlow : 8 * i + j < 8 * q := by omega
    simp [overlayUp, hq, hlt, hlow]

theorem byte_overlayDown (x y : BitVec w) (hw : w = 8 * n) {i : Nat} (hi : i < n) (q : Nat) :
    (x.overlayDown y q).byte i = if i + q < n then x.byte (i + q) else y.byte i := by
  ext j hj
  have hlt : 8 * i + j < w := by omega
  have hadd : 8 * q + (8 * i + j) = 8 * (i + q) + j := by omega
  by_cases hq : i + q < n
  · have hin : 8 * (i + q) + j < w := by omega
    simp [overlayDown, hq, hlt, hadd, hin]
  · have hout : ¬ 8 * (i + q) + j < w := by omega
    simp [overlayDown, hq, hlt, hadd, hout]

/-- A number is what a mask leaves and what it takes. -/
theorem and_not_add_and (a m : BitVec w) : (a &&& ~~~ m) + (a &&& m) = a := by
  have hdisjoint : (a &&& ~~~ m) &&& (a &&& m) = 0 := by
    ext i hi
    cases hm : m[i] <;> simp [hm]
  rw [add_eq_or_of_and_eq_zero _ _ hdisjoint]
  ext i hi
  cases hm : m[i] <;> simp [hm]

end BitVec
