import Coursework.CacheSim.Spec.CacheLru

/-!
# `check`, `access` and `getIndex` compute one index

Three functions compute the set of an address with the same shifts, and only `access` has a
special case for a single set, where the shifts are by 32. With two sets or more the three agree
on every machine; with one set it depends on the machine whether `check` stays inside the arrays.
-/

namespace CacheSim

namespace Cache

variable {c : Cache} {m : Shifts}

/-- The powers of two that the shifts are meant for. -/
structure Shifted (c : Cache) : Prop where
  sets : ∃ n, c.numSets = 2 ^ n
  block : ∃ n, c.blockSize = 2 ^ n
  two_le_block : 2 ≤ c.blockSize
  bits : c.numSets * c.blockSize < 2 ^ 32

theorem log2_pos {n : Nat} (h : 2 ≤ n) : 0 < Nat.log2 n := by
  have hle := (Nat.le_log2 (show n ≠ 0 by omega)).mpr (show 2 ^ 1 ≤ n from h)
  omega

/-- With two sets or more no shift is by 32. -/
theorem getIndexOn_eq (h : 2 ≤ c.numSets) (m : Shifts) (addr : BitVec 32) :
    c.getIndexOn m addr = c.getIndex addr := by
  have hs : 0 < c.s := log2_pos h
  rw [getIndexOn, getIndex, Shifts.shr, Shifts.shl, if_pos (by omega), if_pos (by omega)]

theorem getIndexOn_one (h : c.numSets = 1) (m : Shifts) (addr : BitVec 32) :
    c.getIndexOn m addr = m.right32 (m.left32 (addr >>> c.b)) := by
  have hs : c.s = 0 := by
    rw [Cache.s, h]
    rfl
  rw [getIndexOn, Shifts.shr, Shifts.shl, hs, if_neg (by omega), if_neg (by omega)]

theorem Shifted.geometry (h : c.Shifted) (hsets : 2 ≤ c.numSets) :
    Geometry c.numSets (c.assoc + 1) c.blockSize :=
  ⟨h.sets, h.block, hsets, h.bits, Nat.le_add_left 1 c.assoc⟩

/-- An access hits when the set holds the tag. -/
theorem access_hit (c : Cache) (addr : BitVec 32) (load : Bool) :
    (c.access addr load).1 = (c.findTag (c.sets (c.setOf addr)) (c.getTag addr)).isSome := by
  simp only [access]
  cases hfind : c.findTag (c.sets (c.setOf addr)) (c.getTag addr) with
  | some i => rfl
  | none =>
    -- a miss is one whether or not the block is brought in
    simp only [Option.isSome_none]
    split
    · split <;> rfl
    · rfl

/-- The index of an address is inside the arrays when there are two sets or more. -/
theorem Shifted.getIndex_toNat (h : c.Shifted) (hsets : 2 ≤ c.numSets) (addr : BitVec 32) :
    (c.getIndex addr).toNat = addr.toNat / c.blockSize % c.numSets :=
  Cache.getIndex_toNat (c := { c with assoc := c.assoc + 1 }) (h.geometry hsets) addr

/-- `check` stays inside the arrays and says what `access` says, and the tag and the index of an
    address say in which block it lies. -/
structure Agrees (m : Shifts) (c : Cache) : Prop where
  check : ∀ addr load, c.checkOn m addr load = some (c.access addr load).1
  block : ∀ addr addr' : BitVec 32,
    c.getTag addr = c.getTag addr' ∧ c.getIndexOn m addr = c.getIndexOn m addr' ↔
      addr.toNat / c.blockSize = addr'.toNat / c.blockSize

/-- Quotient and remainder tell two block numbers apart. -/
theorem Shifted.block_iff (h : c.Shifted) (hsets : 2 ≤ c.numSets) (addr addr' : BitVec 32) :
    c.getTag addr = c.getTag addr' ∧ c.getIndex addr = c.getIndex addr' ↔
      addr.toNat / c.blockSize = addr'.toNat / c.blockSize := by
  have htag := getTag_toNat_of_two_pow h.sets h.block
  have hindex := h.getIndex_toNat hsets
  constructor
  · intro hsame
    have hdiv := congrArg BitVec.toNat hsame.1
    have hmod := congrArg BitVec.toNat hsame.2
    rw [htag, htag] at hdiv
    rw [hindex, hindex] at hmod
    calc addr.toNat / c.blockSize
        = c.numSets * (addr.toNat / c.blockSize / c.numSets) +
            addr.toNat / c.blockSize % c.numSets := (Nat.div_add_mod _ _).symm
      _ = c.numSets * (addr'.toNat / c.blockSize / c.numSets) +
            addr'.toNat / c.blockSize % c.numSets := by rw [hdiv, hmod]
      _ = addr'.toNat / c.blockSize := Nat.div_add_mod _ _
  · intro hblock
    constructor
    · apply BitVec.eq_of_toNat_eq
      rw [htag, htag, hblock]
    · apply BitVec.eq_of_toNat_eq
      rw [hindex, hindex, hblock]

/-- With one set the tag is the block number. -/
theorem Shifted.tag_iff_one (h : c.Shifted) (hone : c.numSets = 1) (addr addr' : BitVec 32) :
    c.getTag addr = c.getTag addr' ↔ addr.toNat / c.blockSize = addr'.toNat / c.blockSize := by
  have htag := getTag_toNat_of_two_pow h.sets h.block
  simp only [hone, Nat.div_one] at htag
  constructor
  · intro hsame
    have hdiv := congrArg BitVec.toNat hsame
    rwa [htag, htag] at hdiv
  · intro hblock
    apply BitVec.eq_of_toNat_eq
    rw [htag, htag, hblock]

theorem Shifted.agrees_of_two_le (h : c.Shifted) (hsets : 2 ≤ c.numSets) (m : Shifts) :
    c.Agrees m := by
  constructor
  · intro addr load
    have hlt : (c.getIndex addr).toNat < c.numSets := by
      rw [h.getIndex_toNat hsets]
      exact Nat.mod_lt _ (by omega)
    rw [checkOn, getIndexOn_eq hsets, if_neg (by omega), access_hit, setOf, if_neg (by omega)]
  · intro addr addr'
    rw [getIndexOn_eq hsets, getIndexOn_eq hsets]
    exact h.block_iff hsets addr addr'

theorem findTag_no_ways (h : c.assoc = 0) (ways : Nat → Way) (tag : BitVec 32) :
    c.findTag ways tag = none := by
  rw [findTag, h]
  rfl

theorem Shifted.agrees_one_iff (h : c.Shifted) (hone : c.numSets = 1) (m : Shifts) :
    c.Agrees m ↔
      c.assoc = 0 ∨ ∀ addr : BitVec 32, m.right32 (m.left32 (addr >>> c.b)) = 0 := by
  have hset : ∀ addr, c.setOf addr = 0 := fun addr => by rw [setOf, if_pos hone]
  constructor
  · intro hagrees
    by_contra hnot
    rw [not_or] at hnot
    -- an address that the machine shifts out of the one set
    obtain ⟨addr, hne⟩ := not_forall.mp hnot.2
    have hcheck := hagrees.check addr true
    have hout : c.numSets ≤ (c.getIndexOn m addr).toNat := by
      rw [getIndexOn_one hone, hone, Nat.one_le_iff_ne_zero]
      exact fun hzero => hne (BitVec.eq_of_toNat_eq hzero)
    rw [checkOn, if_pos ⟨Nat.pos_of_ne_zero hnot.1, hout⟩] at hcheck
    cases hcheck
  · intro hcond
    constructor
    · intro addr load
      rw [access_hit, hset]
      cases hcond with
      | inl hways => rw [checkOn, if_neg (by omega), findTag_no_ways hways, findTag_no_ways hways]
      | inr hzero =>
        have hindex : (c.getIndexOn m addr).toNat = 0 := by
          rw [getIndexOn_one hone, hzero addr]
          rfl
        rw [checkOn, hindex, if_neg (by omega)]
    · intro addr addr'
      rw [← h.tag_iff_one hone addr addr']
      constructor
      · exact fun hsame => hsame.1
      · intro htag
        refine ⟨htag, ?_⟩
        -- the index comes from the same bits as the tag
        have hbits : addr >>> c.b = addr' >>> c.b := by
          have hs : c.s = 0 := by
            rw [Cache.s, hone]
            rfl
          rwa [getTag, getTag, hs, Nat.add_zero] at htag
        rw [getIndexOn_one hone, getIndexOn_one hone, hbits]

/-- The three functions agree, in every state, exactly when there are two sets or more, or there
    is no way to look at, or the machine shifts every block number to 0. -/
theorem agrees_iff (h : c.Shifted) (m : Shifts) :
    c.Agrees m ↔ 2 ≤ c.numSets ∨ c.assoc = 0 ∨
      ∀ addr : BitVec 32, m.right32 (m.left32 (addr >>> c.b)) = 0 := by
  by_cases hsets : 2 ≤ c.numSets
  · exact ⟨fun _ => Or.inl hsets, fun _ => h.agrees_of_two_le hsets m⟩
  · have hone : c.numSets = 1 := by
      obtain ⟨n, hn⟩ := h.sets
      have hpos := Nat.two_pow_pos n
      omega
    rw [h.agrees_one_iff hone]
    exact ⟨Or.inr, fun hcond => hcond.resolve_left hsets⟩

/-- What `main` makes of 1 KB with lines of 32 bytes if the associativity is given as 0. -/
def fullyAssociative : Cache := Cache.new 1 32 32 false false true fun _ => 0

theorem fullyAssociative_shifted : fullyAssociative.Shifted :=
  ⟨⟨0, rfl⟩, ⟨5, rfl⟩, by decide, by decide⟩

theorem agrees_iff_fullyAssociative :
    fullyAssociative.Shifted ∧
      (fullyAssociative.Agrees ⟨fun _ => 0, fun x => x⟩ ↔ 2 ≤ fullyAssociative.numSets ∨
        fullyAssociative.assoc = 0 ∨ ∀ _ : BitVec 32, (0 : BitVec 32) = 0) :=
  ⟨fullyAssociative_shifted, agrees_iff fullyAssociative_shifted ⟨fun _ => 0, fun x => x⟩⟩

/-- Where the count of a shift is taken modulo 32, `check` looks for address 0x1000 in set 128
    of one. -/
theorem not_agrees_masked :
    fullyAssociative.Shifted ∧
      fullyAssociative.getIndexOn .masked 0x1000 = 128 ∧
      fullyAssociative.checkOn .masked 0x1000 true = none ∧
      (fullyAssociative.access 0x1000 true).1 = false ∧
      ¬ fullyAssociative.Agrees .masked := by
  have hcheck : fullyAssociative.checkOn .masked 0x1000 true = none := by decide
  refine ⟨fullyAssociative_shifted, by decide, hcheck, by decide, fun h => ?_⟩
  have hsome := h.check 0x1000 true
  rw [hcheck] at hsome
  cases hsome

end Cache

end CacheSim
