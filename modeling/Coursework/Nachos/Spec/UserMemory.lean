import Mathlib.Data.List.Perm.Subperm
import Mathlib.Data.List.Nodup
import Coursework.Nachos.UserMemory

/-!
# Kernel copies without paging: what is written

For a process whose pages are in frames of their own, `writeVirtualMemory` writes each
byte of the array to the physical address of its virtual address, and nothing else.
-/

namespace Nachos

namespace UserProcess

/-- The pages of a process that has been loaded: each is in a frame of its own. -/
structure Mapped (numPhysPages : Nat) (pageTable : List TranslationEntry) : Prop where
  inRange : ∀ e ∈ pageTable, 0 ≤ e.ppn ∧ e.ppn < numPhysPages
  nodup : (pageTable.map TranslationEntry.ppn).Nodup

variable {numPhysPages : Nat} {pageTable : List TranslationEntry}

theorem Mapped.frames_nodup (hm : Mapped numPhysPages pageTable) :
    (pageTable.map (·.ppn.toNat)).Nodup := by
  have hmap : pageTable.map (·.ppn.toNat) =
      (pageTable.map TranslationEntry.ppn).map Int.toNat := by
    simp [Function.comp_def]
  rw [hmap]
  refine List.Nodup.map_on (fun a ha b hb hab => ?_) hm.nodup
  obtain ⟨e, he, rfl⟩ := List.mem_map.mp ha
  obtain ⟨e', he', rfl⟩ := List.mem_map.mp hb
  have h := hm.inRange e he
  have h' := hm.inRange e' he'
  omega

theorem Mapped.length_le (hm : Mapped numPhysPages pageTable) :
    pageTable.length ≤ numPhysPages := by
  have hsub : pageTable.map (·.ppn.toNat) ⊆ List.range numPhysPages := by
    intro k hk
    obtain ⟨e, he, rfl⟩ := List.mem_map.mp hk
    have h := hm.inRange e he
    simp only [List.mem_range]
    omega
  simpa using (List.Nodup.subperm hm.frames_nodup hsub).length_le

theorem translate_eq_some {x a : Nat} : translate pageTable x = some a ↔
    ∃ e, pageTable[x / pageSize]? = some e ∧ frameAddr e.ppn.toNat (x % pageSize) = a := by
  simp [translate, Option.map_eq_some_iff]

/-- Distinct virtual addresses have distinct physical addresses. -/
theorem translate_inj (hm : Mapped numPhysPages pageTable) {x y a : Nat}
    (hx : translate pageTable x = some a) (hy : translate pageTable y = some a) : x = y := by
  obtain ⟨e, he, rfl⟩ := translate_eq_some.mp hx
  obtain ⟨e', he', heq⟩ := translate_eq_some.mp hy
  have hmod : ∀ z : Nat, z % pageSize < pageSize := fun z => Nat.mod_lt _ (by decide)
  obtain ⟨hppn, hoff⟩ := (frameAddr_inj (hmod y) (hmod x)).mp heq
  have hrange := hm.inRange e (List.mem_of_getElem? he)
  have hrange' := hm.inRange e' (List.mem_of_getElem? he')
  have hsame : e'.ppn = e.ppn := by omega
  have hpage : y / pageSize = x / pageSize := by
    obtain ⟨hlt, hget⟩ := List.getElem?_eq_some_iff.mp he
    obtain ⟨hlt', hget'⟩ := List.getElem?_eq_some_iff.mp he'
    have hnd := hm.nodup
    rw [List.nodup_iff_injective_get] at hnd
    have hinj := @hnd ⟨y / pageSize, by simpa using hlt'⟩ ⟨x / pageSize, by simpa using hlt⟩
      (by simp [hget, hget', hsame])
    simpa using hinj
  calc x = x / pageSize * pageSize + x % pageSize := (Nat.div_add_mod' x pageSize).symm
    _ = y / pageSize * pageSize + y % pageSize := by rw [hpage, hoff]
    _ = y := Nat.div_add_mod' y pageSize

/-- A virtual address of a mapped page has a physical address. -/
theorem translate_of_lt (pageTable : List TranslationEntry) {x : Nat}
    (hx : x < pageTable.length * pageSize) :
    ∃ e, pageTable[x / pageSize]? = some e ∧
      translate pageTable x = some (frameAddr e.ppn.toNat (x % pageSize)) := by
  have hlt : x / pageSize < pageTable.length :=
    Nat.div_lt_of_lt_mul (by rw [Nat.mul_comm]; exact hx)
  refine ⟨pageTable[x / pageSize], List.getElem?_eq_getElem hlt, ?_⟩
  exact translate_eq_some.mpr ⟨_, List.getElem?_eq_getElem hlt, rfl⟩

/-- The bytes of one page follow each other in memory. -/
theorem translate_add {x d a : Nat} (hd : x % pageSize + d < pageSize)
    (hx : translate pageTable x = some a) : translate pageTable (x + d) = some (a + d) := by
  obtain ⟨e, he, rfl⟩ := translate_eq_some.mp hx
  have hpos : 0 < pageSize := by decide
  have hsplit : x + d = pageSize * (x / pageSize) + (x % pageSize + d) := by
    have := Nat.div_add_mod x pageSize
    omega
  have hdiv : (x + d) / pageSize = x / pageSize := by
    rw [hsplit, Nat.mul_add_div hpos, Nat.div_eq_of_lt hd, Nat.add_zero]
  have hmod : (x + d) % pageSize = x % pageSize + d := by
    rw [hsplit, Nat.mul_add_mod, Nat.mod_eq_of_lt hd]
  refine translate_eq_some.mpr ⟨e, hdiv ▸ he, ?_⟩
  rw [hmod]
  simp only [frameAddr]
  omega

/-- A small address is its own unsigned reading. -/
theorem toUnsigned_natCast {x : Nat} (hx : x < 2 ^ 32) : toUnsigned (x : Int) = x := by
  simp only [toUnsigned]
  omega

theorem wrap32_natCast {x : Nat} (hx : x < 2 ^ 31) : wrap32 (x : Int) = x := by
  unfold wrap32
  rw [Int.bmod_def]
  omega

/-- A sum of two `int`s that is not negative has not overflowed. -/
theorem wrap32_of_nonneg {x : Nat} (hx : x < 2 ^ 32) (h : 0 ≤ wrap32 (x : Int)) :
    wrap32 (x : Int) = x := by
  unfold wrap32 at h ⊢
  rw [Int.bmod_def] at h ⊢
  omega

/-- The memory after the bytes from `byteNum` on have been written. -/
structure Written (pageTable : List TranslationEntry) (vaddr offset : Nat) (data : List UInt8)
    (byteNum length : Nat) (memory memory' : Nat → UInt8) : Prop where
  inside : ∀ i, byteNum ≤ i → i < length → ∀ a, translate pageTable (vaddr + i) = some a →
    memory' a = data.getD (offset + i) 0
  outside : ∀ a, (∀ i, byteNum ≤ i → i < length → translate pageTable (vaddr + i) ≠ some a) →
    memory' a = memory a

/-- Writing two parts one after the other. -/
theorem Written.trans (hm : Mapped numPhysPages pageTable) {vaddr offset b m n : Nat}
    {data : List UInt8} {memory memory₁ memory₂ : Nat → UInt8} (hbm : b ≤ m) (hmn : m ≤ n)
    (h : Written pageTable vaddr offset data b m memory memory₁)
    (h' : Written pageTable vaddr offset data m n memory₁ memory₂) :
    Written pageTable vaddr offset data b n memory memory₂ where
  inside i hi hin a ha := by
    by_cases him : m ≤ i
    · exact h'.inside i him hin a ha
    · rw [h'.outside a fun j hj _ hja => ?_]
      · exact h.inside i hi (by omega) a ha
      · have := translate_inj hm ha hja
        omega
  outside a ha := by
    rw [h'.outside a fun i hi hin => ha i (by omega) hin]
    exact h.outside a fun i hi him => ha i hi (by omega)

/-- One `System.arraycopy`, within a page. -/
theorem written_blit (offset : Nat) (data : List UInt8) (memory : Nat → UInt8)
    {vaddr byteNum n base : Nat} (hpage : (vaddr + byteNum) % pageSize + n ≤ pageSize)
    (hbase : translate pageTable (vaddr + byteNum) = some base) :
    Written pageTable vaddr offset data byteNum (byteNum + n) memory
      (blit memory base n fun i => ((data.drop (offset + byteNum)).take n).getD i 0) := by
  have hat : ∀ d, d < n → translate pageTable (vaddr + (byteNum + d)) = some (base + d) := by
    intro d hd
    rw [← Nat.add_assoc]
    exact translate_add (by omega) hbase
  refine ⟨fun i hi hin a ha => ?_, fun a ha => ?_⟩
  · obtain ⟨d, rfl⟩ := Nat.exists_eq_add_of_le hi
    have hd : d < n := by omega
    rw [hat d hd] at ha
    obtain rfl := Option.some.inj ha
    rw [blit_inside hd, List.getD_eq_getElem?_getD, List.getD_eq_getElem?_getD,
      List.getElem?_take_of_lt hd, List.getElem?_drop, Nat.add_assoc]
  · refine blit_outside ?_
    by_contra hcon
    have hd : a - base < n := by omega
    refine ha (byteNum + (a - base)) (by omega) (by omega) ?_
    rw [hat _ hd]
    congr 1
    omega

/-- What one iteration of either loop copies, when the whole range is in the page table: `n`
    bytes of one page, which are at `base` in memory. -/
structure Chunk (numPhysPages : Nat) (pageTable : List TranslationEntry) (vaddr offset : Nat)
    (dataLength length byteNum : Nat) (entry : TranslationEntry) (n base : Nat) : Prop where
  verified : verifyVaddr pageTable.length (pageFromAddress ((vaddr : Int) + byteNum)) = true
  page : pageTable[pageFromAddress ((vaddr : Int) + byteNum)]? = some entry
  amount : min (pageSize - offsetFromAddress ((vaddr : Int) + byteNum)) (length - byteNum) = n
  pos : 0 < n
  le : n ≤ length - byteNum
  addr : entry.ppn * (pageSize : Int) + (offsetFromAddress ((vaddr : Int) + byteNum) : Nat) = base
  inMemory : base + n ≤ numPhysPages * pageSize
  dataPos : wrap32 ((offset : Int) + byteNum) = ((offset + byteNum : Nat) : Int)
  inData : offset + byteNum + n ≤ dataLength
  inPage : (vaddr + byteNum) % pageSize + n ≤ pageSize
  mapped : translate pageTable (vaddr + byteNum) = some base

theorem exists_chunk (hm : Mapped numPhysPages pageTable) {vaddr offset length dataLength : Nat}
    (hend : vaddr + length ≤ pageTable.length * pageSize)
    (hint : pageTable.length * pageSize ≤ 2 ^ 31) (hdata : offset + length ≤ dataLength)
    (hlen : dataLength < 2 ^ 31) {byteNum : Nat} (hb : byteNum < length) :
    ∃ entry n base, Chunk numPhysPages pageTable vaddr offset dataLength length byteNum
      entry n base := by
  have hcast : (vaddr : Int) + (byteNum : Int) = ((vaddr + byteNum : Nat) : Int) := by
    push_cast
    rfl
  obtain ⟨e, he, htr⟩ := translate_of_lt pageTable (x := vaddr + byteNum) (by omega)
  obtain ⟨hppn, hppn'⟩ := hm.inRange e (List.mem_of_getElem? he)
  have hmod : (vaddr + byteNum) % pageSize < pageSize := Nat.mod_lt _ (by decide)
  -- the address is small enough that its unsigned form is itself
  have hpage : pageFromAddress ((vaddr : Int) + byteNum) = (vaddr + byteNum) / pageSize := by
    rw [hcast, pageFromAddress, toUnsigned_natCast (by omega)]
  have hoffset : offsetFromAddress ((vaddr : Int) + byteNum) = (vaddr + byteNum) % pageSize := by
    rw [hcast, offsetFromAddress, toUnsigned_natCast (by omega)]
  have hverify : verifyVaddr pageTable.length ((vaddr + byteNum) / pageSize) = true := by
    simpa [verifyVaddr] using (List.getElem?_eq_some_iff.mp he).1
  have hphys : e.ppn * (pageSize : Int) + ((vaddr + byteNum) % pageSize : Nat) =
      (frameAddr e.ppn.toNat ((vaddr + byteNum) % pageSize) : Nat) := by
    simp only [frameAddr]
    push_cast
    rw [Int.toNat_of_nonneg hppn]
  -- the frame is one of the machine, so the whole page lies in memory
  have hbound : ∀ n, (vaddr + byteNum) % pageSize + n ≤ pageSize →
      frameAddr e.ppn.toNat ((vaddr + byteNum) % pageSize) + n ≤ numPhysPages * pageSize := by
    intro n hn
    have hle : (e.ppn.toNat + 1) * pageSize ≤ numPhysPages * pageSize :=
      Nat.mul_le_mul_right _ (by omega)
    simp only [frameAddr]
    rw [Nat.add_mul, Nat.one_mul] at hle
    omega
  generalize hn : min (pageSize - (vaddr + byteNum) % pageSize) (length - byteNum) = n
  have hinPage : (vaddr + byteNum) % pageSize + n ≤ pageSize := by omega
  refine ⟨e, n, _, ⟨by rw [hpage]; exact hverify, by rw [hpage]; exact he, by rw [hoffset]; exact hn,
    by omega, by omega, by rw [hoffset]; exact hphys, hbound n hinPage, ?_, ?_, hinPage, htr⟩⟩
  · have hoff : (offset : Int) + (byteNum : Int) = ((offset + byteNum : Nat) : Int) := by
      push_cast
      rfl
    rw [hoff]
    exact wrap32_natCast (by omega)
  · clear * - hn hdata hb
    omega

/-- Every iteration of the loop writes the part of the array that fits in the page. -/
theorem writeLoop_spec (hm : Mapped numPhysPages pageTable) {vaddr offset length : Nat}
    {data : List UInt8} (hend : vaddr + length ≤ pageTable.length * pageSize)
    (hint : pageTable.length * pageSize ≤ 2 ^ 31) (hdata : offset + length ≤ data.length)
    (hlen : data.length < 2 ^ 31) {fuel : Nat} :
    ∀ {byteNum : Nat} {memory : Nat → UInt8}, byteNum < length → length < byteNum + fuel →
    ∃ memory', writeLoop numPhysPages pageTable vaddr offset data length fuel byteNum memory =
      .ok (length, memory') ∧ Written pageTable vaddr offset data byteNum length memory memory' := by
  induction fuel with
  | zero => intro byteNum memory hb hfuel; omega
  | succ fuel ih =>
    intro byteNum memory hb hfuel
    -- the round copies one chunk, which lies in a frame and in the data, so no test fails
    obtain ⟨e, n, base, hc⟩ := exists_chunk hm hend hint hdata hlen hb
    have hpos := hc.pos
    have hle := hc.le
    unfold writeLoop
    dsimp only
    rw [hc.verified, hc.page, hc.amount, hc.dataPos]
    simp only [Bool.not_true, Bool.false_eq_true, if_false]
    rw [hc.addr, if_pos ⟨Int.natCast_nonneg _, by exact_mod_cast hc.inMemory,
      Int.natCast_nonneg _, by exact_mod_cast hc.inData⟩]
    simp only [Int.toNat_natCast]
    have hone := written_blit offset data memory (n := n) hc.inPage hc.mapped
    split
    · obtain ⟨memory', hrun, hrest⟩ := @ih (byteNum + n) _ ‹_› (by omega)
      exact ⟨memory', hrun, hone.trans hm (by omega) (by omega) hrest⟩
    · -- the last round ends exactly at `length`
      have hlast : byteNum + n = length := by omega
      rw [hlast] at hone ⊢
      exact ⟨_, rfl, hone⟩

/-! ## Reads -/

/-- The array after the bytes from `byteNum` on have been read into it. -/
structure ReadInto (pageTable : List TranslationEntry) (vaddr offset : Nat)
    (memory : Nat → UInt8) (byteNum length : Nat) (data data' : List UInt8) : Prop where
  size : data'.length = data.length
  inside : ∀ i, byteNum ≤ i → i < length → ∀ a, translate pageTable (vaddr + i) = some a →
    data'[offset + i]? = some (memory a)
  outside : ∀ j, j < offset + byteNum ∨ offset + length ≤ j → data'[j]? = data[j]?

/-- Reading two parts one after the other. -/
theorem ReadInto.trans {vaddr offset b m n : Nat} {memory : Nat → UInt8}
    {data data₁ data₂ : List UInt8} (hbm : b ≤ m) (hmn : m ≤ n)
    (h : ReadInto pageTable vaddr offset memory b m data data₁)
    (h' : ReadInto pageTable vaddr offset memory m n data₁ data₂) :
    ReadInto pageTable vaddr offset memory b n data data₂ where
  size := h'.size.trans h.size
  inside i hi hin a ha := by
    by_cases him : m ≤ i
    · exact h'.inside i him hin a ha
    · rw [h'.outside (offset + i) (Or.inl (by omega))]
      exact h.inside i hi (by omega) a ha
  outside j hj := by
    rw [h'.outside j (by omega)]
    exact h.outside j (by omega)

/-- One `System.arraycopy`, within a page. -/
theorem readInto_copy {vaddr offset byteNum n base : Nat} {data : List UInt8}
    (memory : Nat → UInt8) (hpage : (vaddr + byteNum) % pageSize + n ≤ pageSize)
    (hbase : translate pageTable (vaddr + byteNum) = some base)
    (hdata : offset + byteNum + n ≤ data.length) :
    ReadInto pageTable vaddr offset memory byteNum (byteNum + n) data
      (data.take (offset + byteNum) ++ (List.range n).map (fun i => memory (base + i)) ++
        data.drop (offset + byteNum + n)) := by
  have htake : (data.take (offset + byteNum)).length = offset + byteNum := by
    rw [List.length_take]
    omega
  refine ⟨?_, ?_, ?_⟩
  · simp only [List.length_append, htake, List.length_map, List.length_range, List.length_drop]
    omega
  · -- inside the range: the part in the middle
    intro i hi hin a ha
    obtain ⟨d, rfl⟩ := Nat.exists_eq_add_of_le hi
    rw [← Nat.add_assoc, translate_add (by omega) hbase] at ha
    obtain rfl := Option.some.inj ha
    rw [List.append_assoc, List.getElem?_append_right (by omega), htake,
      List.getElem?_append_left (by simp; omega)]
    have hd : offset + (byteNum + d) - (offset + byteNum) = d := by omega
    rw [hd, List.getElem?_map, List.getElem?_range (by omega)]
    rfl
  · -- outside it: before the copied part, or after it
    intro j hj
    cases hj with
    | inl hlt =>
      rw [List.append_assoc, List.getElem?_append_left (by omega), List.getElem?_take, if_pos hlt]
    | inr hge =>
      rw [List.getElem?_append_right (by simp; omega), List.getElem?_drop]
      congr 1
      simp only [List.length_append, htake, List.length_map, List.length_range]
      omega

/-- Every iteration of the loop reads the part of the page that fits in the array. -/
theorem readLoop_spec (hm : Mapped numPhysPages pageTable) {vaddr offset length : Nat}
    {memory : Nat → UInt8} (hend : vaddr + length ≤ pageTable.length * pageSize)
    (hint : pageTable.length * pageSize ≤ 2 ^ 31) {fuel : Nat} :
    ∀ {byteNum : Nat} {data : List UInt8}, offset + length ≤ data.length → data.length < 2 ^ 31 →
    byteNum < length → length < byteNum + fuel →
    ∃ data', readLoop numPhysPages pageTable memory vaddr offset length fuel byteNum data =
      .ok (length, data') ∧ ReadInto pageTable vaddr offset memory byteNum length data data' := by
  induction fuel with
  | zero => intro byteNum data _ _ hb hfuel; omega
  | succ fuel ih =>
    intro byteNum data hdata hlen hb hfuel
    -- the round copies one chunk, which lies in a frame and in the buffer, so no test fails
    obtain ⟨e, n, base, hc⟩ := exists_chunk hm hend hint hdata hlen hb
    have hpos := hc.pos
    have hle := hc.le
    unfold readLoop
    dsimp only
    rw [hc.verified, hc.page, hc.amount, hc.dataPos]
    simp only [Bool.not_true, Bool.false_eq_true, if_false]
    rw [hc.addr, if_pos ⟨Int.natCast_nonneg _, by exact_mod_cast hc.inMemory,
      Int.natCast_nonneg _, by exact_mod_cast hc.inData⟩]
    simp only [Int.toNat_natCast]
    have hone := readInto_copy memory hc.inPage hc.mapped hc.inData
    split
    · obtain ⟨data', hrun, hrest⟩ := @ih (byteNum + n) _ (hone.size ▸ hdata)
        (hone.size ▸ hlen) ‹_› (by omega)
      exact ⟨data', hrun, hone.trans (by omega) (by omega) hrest⟩
    · -- the last round ends exactly at `length`
      have hlast : byteNum + n = length := by omega
      rw [hlast] at hone ⊢
      exact ⟨_, rfl, hone⟩

/-! ## What a successful write says about its arguments -/

/-- A write that returns more than 0 stays inside the page table and inside the array. -/
theorem range_of_writeLoop {vaddr offset length r : Nat} {data : List UInt8}
    {memory' : Nat → UInt8} (hv : vaddr < 2 ^ 31) (ho : offset < 2 ^ 31) (hl : length < 2 ^ 31)
    (hr : r ≠ 0) {fuel : Nat} :
    ∀ {byteNum : Nat} {memory : Nat → UInt8}, byteNum < length →
    writeLoop numPhysPages pageTable vaddr offset data length fuel byteNum memory =
      .ok (r, memory') →
    vaddr + length ≤ pageTable.length * pageSize ∧ offset + length ≤ data.length := by
  induction fuel with
  | zero =>
    intro byteNum memory _ h
    cases h
  | succ fuel ih =>
    intro byteNum memory hb h
    have hcast : (vaddr : Int) + (byteNum : Int) = ((vaddr + byteNum : Nat) : Int) := by
      push_cast
      rfl
    have hpage : pageFromAddress ((vaddr : Int) + byteNum) = (vaddr + byteNum) / pageSize := by
      rw [hcast, pageFromAddress, toUnsigned_natCast (by omega)]
    have hoffset : offsetFromAddress ((vaddr : Int) + byteNum) = (vaddr + byteNum) % pageSize := by
      rw [hcast, offsetFromAddress, toUnsigned_natCast (by omega)]
    unfold writeLoop at h
    dsimp only at h
    rw [hpage, hoffset] at h
    split at h
    · -- the page is not in the table
      obtain ⟨rfl, -⟩ := Prod.mk.inj (Except.ok.inj h)
      exact absurd rfl hr
    · rename_i hverify
      have hin : (vaddr + byteNum) / pageSize < pageTable.length := by
        simpa [verifyVaddr] using hverify
      split at h
      · cases h
      · split at h
        · rename_i hbounds
          split at h
          · exact ih ‹_› h
          · -- the last chunk
            rename_i hlast
            generalize hn : min (pageSize - (vaddr + byteNum) % pageSize) (length - byteNum) = n at *
            have hsplit := Nat.div_add_mod (vaddr + byteNum) pageSize
            have hpages : ((vaddr + byteNum) / pageSize + 1) * pageSize ≤
                pageTable.length * pageSize := Nat.mul_le_mul_right _ hin
            have hmod : (vaddr + byteNum) % pageSize < pageSize := Nat.mod_lt _ (by decide)
            have hwrap : wrap32 ((offset : Int) + byteNum) = ((offset + byteNum : Nat) : Int) := by
              have hsum : (offset : Int) + (byteNum : Int) = ((offset + byteNum : Nat) : Int) := by
                push_cast
                rfl
              have hpos := hbounds.2.2.1
              rw [hsum] at hpos ⊢
              exact wrap32_of_nonneg (by omega) hpos
            have hfits : offset + byteNum + n ≤ data.length := by
              have h := hbounds.2.2.2
              rw [hwrap] at h
              exact_mod_cast h
            rw [Nat.add_mul, Nat.one_mul, Nat.mul_comm ((vaddr + byteNum) / pageSize)] at hpages
            clear * - hn hlast hsplit hpages hmod hfits
            omega
        · cases h

/-! ## Copies of several processes -/

/-- The page tables of several processes map to pairwise disjoint frames. -/
structure Apart {P : Type} (numPhysPages : Nat) (tables : P → List TranslationEntry) : Prop where
  mapped : ∀ p, Mapped numPhysPages (tables p)
  disjoint : ∀ p q, p ≠ q → ∀ e ∈ tables p, ∀ e' ∈ tables q, e.ppn ≠ e'.ppn

/-- Virtual addresses of different processes have different physical addresses. -/
theorem Apart.translate_ne {P : Type} {tables : P → List TranslationEntry}
    (h : Apart numPhysPages tables) {p q : P} (hpq : p ≠ q) {x y a b : Nat}
    (hx : translate (tables p) x = some a) (hy : translate (tables q) y = some b) : a ≠ b := by
  obtain ⟨e, he, rfl⟩ := translate_eq_some.mp hx
  obtain ⟨e', he', rfl⟩ := translate_eq_some.mp hy
  intro heq
  have hmod : ∀ z : Nat, z % pageSize < pageSize := fun z => Nat.mod_lt _ (by decide)
  have hppn := ((frameAddr_inj (hmod x) (hmod y)).mp heq).1
  have hmem := List.mem_of_getElem? he
  have hmem' := List.mem_of_getElem? he'
  have hrange := (h.mapped p).inRange e hmem
  have hrange' := (h.mapped q).inRange e' hmem'
  exact h.disjoint p q hpq e hmem e' hmem' (by omega)

/-- The arguments of a copy are Java `int`s, and so is the length of the array. -/
structure IntArgs (vaddr offset length : Int) (data : List UInt8) : Prop where
  vaddr : vaddr < 2 ^ 31
  offset : offset < 2 ^ 31
  length : length < 2 ^ 31
  data : data.length < 2 ^ 31

/-- A write that returns `length` is a run of the loop, with arguments that are in range. -/
theorem writeVirtualMemory_eq_ok {memory memory' : Nat → UInt8} {vaddr offset length : Int}
    {data : List UInt8} {n : Nat} (hargs : IntArgs vaddr offset length data)
    (hwrite : writeVirtualMemory numPhysPages pageTable memory vaddr data offset length =
      .ok (n, memory')) (hn : (n : Int) = length) (hpos : 0 < length) :
    ∃ v o : Nat, vaddr = v ∧ offset = o ∧ vaddr < wrap32 (pageTable.length * (pageSize - 1 : Nat)) ∧
      v + n ≤ pageTable.length * pageSize ∧ o + n ≤ data.length ∧
      writeLoop numPhysPages pageTable v o data n (n + 1) 0 memory = .ok (n, memory') := by
  subst hn
  have hne : n ≠ 0 := by omega
  unfold writeVirtualMemory at hwrite
  split at hwrite
  · -- refused, and then nothing would be counted
    obtain ⟨rfl, -⟩ := Prod.mk.inj (Except.ok.inj hwrite)
    exact absurd rfl hne
  · rename_i hsizes
    split at hwrite
    · obtain ⟨rfl, -⟩ := Prod.mk.inj (Except.ok.inj hwrite)
      exact absurd rfl hne
    · rename_i haddr
      obtain ⟨v, rfl⟩ := Int.eq_ofNat_of_zero_le (show 0 ≤ vaddr by omega)
      obtain ⟨o, rfl⟩ := Int.eq_ofNat_of_zero_le (show 0 ≤ offset by omega)
      rw [Int.toNat_natCast] at hwrite
      have hv := hargs.vaddr
      have ho := hargs.offset
      have hl := hargs.length
      obtain ⟨hend, hdata⟩ := range_of_writeLoop (by omega) (by omega) (by omega) hne
        (Nat.pos_of_ne_zero hne) hwrite
      exact ⟨v, o, rfl, rfl, by omega, hend, hdata, hwrite⟩

/-- Kernel copies are exact and isolated: after a write that returns `length`, a read of the
    same range gives the bytes that were written, and no other byte of any process has
    changed. The memory is a Java array, so it has less than `2 ^ 31` bytes. -/
theorem writeVirtualMemory_exact {P : Type} {tables : P → List TranslationEntry}
    (happart : Apart numPhysPages tables) (hmemory : numPhysPages * pageSize < 2 ^ 31) (p : P)
    {memory memory' : Nat → UInt8} {vaddr offset length : Int} {data : List UInt8} {n : Nat}
    (hargs : IntArgs vaddr offset length data)
    (hwrite : writeVirtualMemory numPhysPages (tables p) memory vaddr data offset length =
      .ok (n, memory')) (hn : (n : Int) = length) (hpos : 0 < length) :
    (∀ (buffer : List UInt8) (pos : Int), 0 ≤ pos → pos + length ≤ buffer.length →
      buffer.length < 2 ^ 31 →
      ∃ buffer', readVirtualMemory numPhysPages (tables p) memory' vaddr buffer pos length =
        .ok (n, buffer') ∧ buffer'.length = buffer.length ∧
        (∀ i < n, buffer'[pos.toNat + i]? = data[offset.toNat + i]?) ∧
        ∀ j : Nat, (j : Int) < pos ∨ pos + length ≤ j → buffer'[j]? = buffer[j]?) ∧
    (∀ x a : Nat, translate (tables p) x = some a → ¬ (vaddr ≤ x ∧ x < vaddr + length) →
      memory' a = memory a) ∧
    ∀ q, q ≠ p → ∀ x a : Nat, translate (tables q) x = some a → memory' a = memory a := by
  have hm := happart.mapped p
  have hint : (tables p).length * pageSize ≤ 2 ^ 31 :=
    Nat.le_trans (Nat.mul_le_mul_right _ hm.length_le) (Nat.le_of_lt hmemory)
  obtain ⟨v, o, rfl, rfl, hlimit, hend, hdata, hloop⟩ :=
    writeVirtualMemory_eq_ok hargs hwrite hn hpos
  subst hn
  obtain ⟨memory₁, hrun, hwritten⟩ := @writeLoop_spec _ _ hm v o n data hend hint hdata
    hargs.data (n + 1) 0 memory (by omega) (by omega)
  obtain rfl : memory₁ = memory' := (Prod.mk.inj (Except.ok.inj (hrun.symm.trans hloop))).2
  refine ⟨?_, ?_, ?_⟩
  · intro buffer pos hpos0 hfits hsize
    obtain ⟨k, rfl⟩ := Int.eq_ofNat_of_zero_le hpos0
    have hfits' : k + n ≤ buffer.length := by omega
    obtain ⟨buffer', hread, hinto⟩ := @readLoop_spec _ _ hm v k n memory₁ hend hint (n + 1) 0
      buffer hfits' hsize (by omega) (by omega)
    refine ⟨buffer', ?_, hinto.size, ?_, ?_⟩
    · unfold readVirtualMemory
      have hsum : wrap32 ((k : Int) + n) = ((k + n : Nat) : Int) := by
        rw [← wrap32_natCast (x := k + n) (by omega)]
        congr 1
      rw [hsum, if_neg (by omega), if_neg (by omega), Int.toNat_natCast]
      exact hread
    · -- the byte read at `i` is the one in the frame, and that is the one written
      intro i hi
      obtain ⟨e, he, htr⟩ := translate_of_lt (tables p) (x := v + i) (by omega)
      rw [Int.toNat_natCast, Int.toNat_natCast, hinto.inside i (Nat.zero_le i) hi _ htr,
        hwritten.inside i (Nat.zero_le i) hi _ htr, List.getD_eq_getElem?_getD,
        List.getElem?_eq_getElem (by omega)]
      rfl
    · intro j hj
      exact hinto.outside j (by omega)
  · -- two addresses of one process share a physical byte only if they are equal
    intro x a hx hout
    apply hwritten.outside
    intro i _ hi hvi
    have heq := translate_inj hm hx hvi
    omega
  · -- the frames of two processes are disjoint
    intro q hq x a hx
    apply hwritten.outside
    intro i _ hi hvi
    exact happart.translate_ne hq hx hvi rfl

/-- Two processes with one page each, and a write of two bytes at the address 5. -/
theorem writeVirtualMemory_exact_twoProcesses :
    ∃ memory', writeVirtualMemory 2 [⟨0, 1, true, false, false, false⟩] (fun _ => 0) 5
        [7, 8, 9] 1 2 =
      .ok (2, memory') ∧
      ∀ a, translate [⟨0, 0, true, false, false, false⟩] 5 = some a → memory' a = 0 := by
  have happart : Apart (P := Bool) 2
      fun b => [⟨0, if b then 1 else 0, true, false, false, false⟩] := by
    refine ⟨?_, by decide⟩
    intro b
    cases b with
    | false => exact ⟨by decide, by decide⟩
    | true => exact ⟨by decide, by decide⟩
  have hargs : IntArgs 5 1 2 [7, 8, 9] := ⟨by decide, by decide, by decide, by decide⟩
  refine ⟨_, rfl, ?_⟩
  exact (writeVirtualMemory_exact happart (by decide) true hargs rfl rfl (by decide)).2.2
    false (by decide) 5

end UserProcess

end Nachos
