import Coursework.Nachos.Spec.UserMemory

/-!
# Kernel copies without paging: how much is copied

What both loops do with any arguments that pass the checks at entry: they copy until the range,
the page table or the array ends. A range that runs past the last page is copied up to there,
and then the methods return 0. The limit they compare the address with is
`pageTable.length*(pageSize-1)`, one byte for each page below the end of the last page.
-/

namespace Nachos

namespace UserProcess

variable {numPhysPages : Nat} {pageTable : List TranslationEntry}

/-- How many bytes of a range are in the page table. -/
def reach (pageTable : List TranslationEntry) (vaddr length : Nat) : Nat :=
  min (pageTable.length * pageSize - vaddr) length

theorem reach_eq_length {vaddr length : Nat} (h : vaddr + length ≤ pageTable.length * pageSize) :
    reach pageTable vaddr length = length := by
  unfold reach
  omega

theorem vaddr_add_reach {vaddr : Nat} (length : Nat) (hv : vaddr ≤ pageTable.length * pageSize)
    (h : pageTable.length * pageSize < vaddr + length) :
    vaddr + reach pageTable vaddr length = pageTable.length * pageSize := by
  unfold reach
  omega

/-- The pages of a process have addresses that are positive `int`s, like the memory. -/
theorem Mapped.size_lt (hm : Mapped numPhysPages pageTable)
    (hmemory : numPhysPages * pageSize < 2 ^ 31) : pageTable.length * pageSize < 2 ^ 31 :=
  Nat.lt_of_le_of_lt (Nat.mul_le_mul_right _ hm.length_le) hmemory

/-- One iteration of either loop before the end of the range and of the page table. The array
    is left out: the chunk is one of an array that is as long as the part in the page table. -/
theorem exists_chunk_reach (hm : Mapped numPhysPages pageTable) {vaddr byteNum : Nat} (length : Nat)
    (hv : vaddr < pageTable.length * pageSize) (hint : pageTable.length * pageSize < 2 ^ 31)
    (hb : byteNum < reach pageTable vaddr length) :
    ∃ entry n base, Chunk numPhysPages pageTable vaddr 0 (reach pageTable vaddr length)
      (reach pageTable vaddr length) byteNum entry n base ∧
      min (pageSize - offsetFromAddress ((vaddr : Int) + byteNum)) (length - byteNum) = n := by
  have hend : vaddr + reach pageTable vaddr length ≤ pageTable.length * pageSize := by
    unfold reach
    omega
  obtain ⟨e, n, base, hc⟩ := @exists_chunk _ _ hm vaddr 0 _ (reach pageTable vaddr length) hend
    (Nat.le_of_lt hint) (Nat.le_of_eq (Nat.zero_add _)) (by omega) _ hb
  refine ⟨e, n, base, hc, ?_⟩
  have hamount := hc.amount
  have hcast : (vaddr : Int) + (byteNum : Int) = ((vaddr + byteNum : Nat) : Int) := by
    push_cast
    rfl
  have hoffset : offsetFromAddress ((vaddr : Int) + byteNum) = (vaddr + byteNum) % pageSize := by
    rw [hcast, offsetFromAddress, toUnsigned_natCast (by omega)]
  rw [hoffset] at hamount ⊢
  -- the rest of the page is in the page table, so only the end of the range can cut it
  unfold reach at *
  simp only [pageSize] at *
  omega

/-- Past the last page, `verifyVaddr` fails. -/
theorem verifyVaddr_end {vaddr byteNum : Nat} (hint : pageTable.length * pageSize < 2 ^ 31)
    (hend : vaddr + byteNum = pageTable.length * pageSize) :
    verifyVaddr pageTable.length (pageFromAddress ((vaddr : Int) + byteNum)) = false := by
  have hcast : (vaddr : Int) + (byteNum : Int) = ((vaddr + byteNum : Nat) : Int) := by
    push_cast
    rfl
  have hpage : pageFromAddress ((vaddr : Int) + byteNum) = pageTable.length := by
    rw [hcast, pageFromAddress, toUnsigned_natCast (by omega), hend]
    exact Nat.mul_div_cancel _ (by decide)
  rw [hpage]
  simp [verifyVaddr]

/-- Within the first page, `verifyVaddr` succeeds and a copy of no bytes is in memory. -/
theorem exists_page (hm : Mapped numPhysPages pageTable) {vaddr : Nat}
    (hv : vaddr < pageTable.length * pageSize) (hint : pageTable.length * pageSize < 2 ^ 31) :
    ∃ entry base, verifyVaddr pageTable.length (pageFromAddress (vaddr : Int)) = true ∧
      pageTable[pageFromAddress (vaddr : Int)]? = some entry ∧
      entry.ppn * (pageSize : Int) + (offsetFromAddress (vaddr : Int) : Nat) = (base : Nat) ∧
      base ≤ numPhysPages * pageSize := by
  have hb : 0 < reach pageTable vaddr 1 := by
    unfold reach
    omega
  obtain ⟨e, n, base, hc, -⟩ := exists_chunk_reach hm 1 hv hint hb
  have hverified := hc.verified
  have hpage := hc.page
  have haddr := hc.addr
  have hmem := hc.inMemory
  simp only [Int.ofNat_zero, Int.add_zero] at hverified hpage haddr
  exact ⟨e, base, hverified, hpage, haddr, by omega⟩

/-! ## Copying by chunks -/

section Chunks

variable {S : Type} {loop : Nat → Nat → S → Except Halt (Nat × S)}
  {vaddr offset length dataLength : Nat}

/-- One iteration of a loop that copies by chunks, at byte `byteNum` of the range: it copies `n`
    bytes, and throws if the array ends before. -/
structure CopiesChunk (loop : Nat → Nat → S → Except Halt (Nat × S)) (good : S → Prop)
    (copied : Nat → Nat → S → S → Prop) (reached offset length dataLength byteNum : Nat) (s : S)
    (n : Nat) (s' : S) : Prop where
  pos : 0 < n
  le : byteNum + n ≤ reached
  iteration : ∀ fuel, loop (fuel + 1) byteNum s =
    if offset + byteNum + n ≤ dataLength then
      if byteNum + n < length then loop fuel (byteNum + n) s' else .ok (byteNum + n, s')
    else .error .indexOutOfBounds
  good : offset + byteNum + n ≤ dataLength → good s'
  copied : offset + byteNum + n ≤ dataLength → copied byteNum (byteNum + n) s s'

/-- A loop that copies by chunks copies the bytes that have a page, if the array has them, and
    returns `length` if these were all; it throws if the array ends before. -/
theorem chunks_outcome (good : S → Prop) (copied : Nat → Nat → S → S → Prop)
    (hv : vaddr < pageTable.length * pageSize)
    (hrefl : ∀ k s, copied k k s s)
    (htrans : ∀ {i j k s s' s''}, i ≤ j → j ≤ k → copied i j s s' → copied j k s' s'' →
      copied i k s s'')
    (hend : ∀ fuel byteNum s, vaddr + byteNum = pageTable.length * pageSize →
      loop (fuel + 1) byteNum s = .ok (0, s))
    (hchunk : ∀ byteNum s, good s → byteNum < reach pageTable vaddr length →
      byteNum = 0 ∨ offset + byteNum ≤ dataLength →
      ∃ n s', CopiesChunk loop good copied (reach pageTable vaddr length) offset length dataLength
        byteNum s n s') {fuel : Nat} :
    ∀ {byteNum : Nat} {s : S}, good s → byteNum < length →
    byteNum ≤ reach pageTable vaddr length → byteNum = 0 ∨ offset + byteNum ≤ dataLength →
    length < byteNum + fuel →
    (offset + reach pageTable vaddr length ≤ dataLength →
      ∃ s', loop fuel byteNum s =
        .ok (if vaddr + length ≤ pageTable.length * pageSize then length else 0, s') ∧
        copied byteNum (reach pageTable vaddr length) s s') ∧
    (dataLength < offset + reach pageTable vaddr length →
      loop fuel byteNum s = .error .indexOutOfBounds) := by
  induction fuel with
  | zero => intro byteNum s _ hb _ _ hfuel; omega
  | succ fuel ih =>
    intro byteNum s hgood hb hreach hdata hfuel
    by_cases hlast : byteNum = reach pageTable vaddr length
    · -- the next page is not in the table
      have hat : vaddr + byteNum = pageTable.length * pageSize := by
        unfold reach at hlast
        omega
      rw [hend fuel byteNum s hat]
      constructor
      · intro _
        refine ⟨s, ?_, ?_⟩
        · rw [if_neg (by omega)]
        · rw [← hlast]
          exact hrefl byteNum s
      · intro hshort
        cases hdata with
        | inl hzero =>
          unfold reach at hlast
          omega
        | inr hfits => omega
    · obtain ⟨n, s', hc⟩ := hchunk byteNum s hgood (Nat.lt_of_le_of_ne hreach hlast) hdata
      have hpos := hc.pos
      have hle := hc.le
      have hreachle : reach pageTable vaddr length ≤ length := Nat.min_le_right _ _
      rw [hc.iteration]
      by_cases hfits : offset + byteNum + n ≤ dataLength
      · -- the chunk is in the array
        rw [if_pos hfits]
        have hone := hc.copied hfits
        by_cases hmore : byteNum + n < length
        · rw [if_pos hmore]
          obtain ⟨hok, herr⟩ := ih (hc.good hfits) hmore hle (Or.inr (by omega)) (by omega)
          constructor
          · intro hall
            obtain ⟨s'', hrest, hcopied⟩ := hok hall
            exact ⟨s'', hrest, htrans (by omega) hle hone hcopied⟩
          · exact herr
        · rw [if_neg hmore]
          have hwhole : byteNum + n = length := by omega
          have hreach' : reach pageTable vaddr length = length := by omega
          constructor
          · intro _
            refine ⟨s', ?_, ?_⟩
            · rw [if_pos (by unfold reach at hreach'; omega), hwhole]
            · rw [hreach', ← hwhole]
              exact hone
          · intro hshort
            omega
      · rw [if_neg hfits]
        constructor
        · intro hall
          omega
        · intro _
          rfl

end Chunks

/-! ## Writes -/

/-- Writing nothing changes nothing. -/
theorem Written.refl (vaddr offset byteNum : Nat) (data : List UInt8) (memory : Nat → UInt8) :
    Written pageTable vaddr offset data byteNum byteNum memory memory :=
  ⟨fun i hi hin => absurd hin (by omega), fun _ _ => rfl⟩

/-- One iteration of the loop of `writeVirtualMemory`: `System.arraycopy` throws if the array
    ends before the chunk does. -/
theorem writeLoop_chunk {vaddr offset length byteNum dataLength n base fuel : Nat}
    {entry : TranslationEntry} (data : List UInt8) (memory : Nat → UInt8)
    (hc : Chunk numPhysPages pageTable vaddr 0 dataLength dataLength byteNum entry n base)
    (hamount : min (pageSize - offsetFromAddress ((vaddr : Int) + byteNum)) (length - byteNum) = n)
    (ho : offset + byteNum < 2 ^ 31) :
    writeLoop numPhysPages pageTable vaddr offset data length (fuel + 1) byteNum memory =
      if offset + byteNum + n ≤ data.length then
        if byteNum + n < length then
          writeLoop numPhysPages pageTable vaddr offset data length fuel (byteNum + n)
            (blit memory base n fun i => ((data.drop (offset + byteNum)).take n).getD i 0)
        else .ok (byteNum + n,
          blit memory base n fun i => ((data.drop (offset + byteNum)).take n).getD i 0)
      else .error .indexOutOfBounds := by
  have hdataPos : wrap32 ((offset : Int) + byteNum) = ((offset + byteNum : Nat) : Int) := by
    rw [← wrap32_natCast ho]
    congr 1
  conv => lhs; unfold writeLoop
  dsimp only
  rw [hc.verified, hc.page, hamount, hdataPos]
  simp only [Bool.not_true, Bool.false_eq_true, if_false]
  rw [hc.addr]
  -- `System.arraycopy` checks both ranges; only that of the data can fail
  by_cases hfits : offset + byteNum + n ≤ data.length
  · rw [if_pos ⟨Int.natCast_nonneg _, by exact_mod_cast hc.inMemory, Int.natCast_nonneg _,
      by exact_mod_cast hfits⟩, if_pos hfits]
    simp only [Int.toNat_natCast]
  · rw [if_neg hfits, if_neg]
    intro hcon
    exact hfits (by exact_mod_cast hcon.2.2.2)

/-- The loop of `writeVirtualMemory`: it writes the bytes that have a page, if the array has
    them, and returns `length` if these were all; it throws if the array ends before. -/
theorem writeLoop_outcome (hm : Mapped numPhysPages pageTable) {vaddr offset length : Nat}
    {data : List UInt8} (hv : vaddr < pageTable.length * pageSize)
    (hint : pageTable.length * pageSize < 2 ^ 31) (ho : offset < 2 ^ 31)
    (hlen : data.length < 2 ^ 31) {fuel : Nat} :
    ∀ {byteNum : Nat} {memory : Nat → UInt8}, byteNum < length →
    byteNum ≤ reach pageTable vaddr length → byteNum = 0 ∨ offset + byteNum ≤ data.length →
    length < byteNum + fuel →
    (offset + reach pageTable vaddr length ≤ data.length →
      ∃ memory', writeLoop numPhysPages pageTable vaddr offset data length fuel byteNum memory =
        .ok (if vaddr + length ≤ pageTable.length * pageSize then length else 0, memory') ∧
        Written pageTable vaddr offset data byteNum (reach pageTable vaddr length) memory memory') ∧
    (data.length < offset + reach pageTable vaddr length →
      writeLoop numPhysPages pageTable vaddr offset data length fuel byteNum memory =
        .error .indexOutOfBounds) := by
  intro byteNum memory hb hreach hdata hfuel
  apply chunks_outcome (fun _ => True) (Written pageTable vaddr offset data) hv _ _ _ _ trivial hb
    hreach hdata hfuel
  · exact fun k memory => Written.refl vaddr offset k data memory
  · exact fun hij hjk h h' => h.trans hm hij hjk h'
  · -- past the last page the loop returns 0
    intro fuel byteNum memory hend
    unfold writeLoop
    dsimp only
    rw [verifyVaddr_end hint hend]
    rfl
  · intro byteNum memory _ hb hdata
    obtain ⟨e, n, base, hc, hamount⟩ := exists_chunk_reach hm length hv hint hb
    have hpos := hc.pos
    have hle := hc.le
    refine ⟨n, _, hpos, by omega, fun fuel => writeLoop_chunk data memory hc hamount (by omega),
      fun _ => trivial, fun _ => ?_⟩
    exact written_blit offset data memory hc.inPage hc.mapped

/-! ## Reads -/

/-- Reading nothing changes nothing. -/
theorem ReadInto.refl (vaddr offset byteNum : Nat) (memory : Nat → UInt8) (data : List UInt8) :
    ReadInto pageTable vaddr offset memory byteNum byteNum data data :=
  ⟨rfl, fun i hi hin => absurd hin (by omega), fun _ _ => rfl⟩

/-- One iteration of the loop of `readVirtualMemory`. -/
theorem readLoop_chunk {vaddr offset length byteNum dataLength n base fuel : Nat}
    {entry : TranslationEntry} (data : List UInt8) (memory : Nat → UInt8)
    (hc : Chunk numPhysPages pageTable vaddr 0 dataLength dataLength byteNum entry n base)
    (hamount : min (pageSize - offsetFromAddress ((vaddr : Int) + byteNum)) (length - byteNum) = n)
    (ho : offset + byteNum < 2 ^ 31) :
    readLoop numPhysPages pageTable memory vaddr offset length (fuel + 1) byteNum data =
      if offset + byteNum + n ≤ data.length then
        let data' := data.take (offset + byteNum) ++
          (List.range n).map (fun i => memory (base + i)) ++ data.drop (offset + byteNum + n)
        if byteNum + n < length then
          readLoop numPhysPages pageTable memory vaddr offset length fuel (byteNum + n) data'
        else .ok (byteNum + n, data')
      else .error .indexOutOfBounds := by
  have hdataPos : wrap32 ((offset : Int) + byteNum) = ((offset + byteNum : Nat) : Int) := by
    rw [← wrap32_natCast ho]
    congr 1
  conv => lhs; unfold readLoop
  dsimp only
  rw [hc.verified, hc.page, hamount, hdataPos]
  simp only [Bool.not_true, Bool.false_eq_true, if_false]
  rw [hc.addr]
  -- `System.arraycopy` checks both ranges; only that of the data can fail
  by_cases hfits : offset + byteNum + n ≤ data.length
  · rw [if_pos ⟨Int.natCast_nonneg _, by exact_mod_cast hc.inMemory, Int.natCast_nonneg _,
      by exact_mod_cast hfits⟩, if_pos hfits]
    simp only [Int.toNat_natCast]
  · rw [if_neg hfits, if_neg]
    intro hcon
    exact hfits (by exact_mod_cast hcon.2.2.2)

/-- The loop of `readVirtualMemory`, like that of `writeVirtualMemory`. -/
theorem readLoop_outcome (hm : Mapped numPhysPages pageTable) {vaddr offset length : Nat}
    {memory : Nat → UInt8} (hv : vaddr < pageTable.length * pageSize)
    (hint : pageTable.length * pageSize < 2 ^ 31) (ho : offset < 2 ^ 31) {fuel : Nat} :
    ∀ {byteNum : Nat} {data : List UInt8}, data.length < 2 ^ 31 → byteNum < length →
    byteNum ≤ reach pageTable vaddr length → byteNum = 0 ∨ offset + byteNum ≤ data.length →
    length < byteNum + fuel →
    (offset + reach pageTable vaddr length ≤ data.length →
      ∃ data', readLoop numPhysPages pageTable memory vaddr offset length fuel byteNum data =
        .ok (if vaddr + length ≤ pageTable.length * pageSize then length else 0, data') ∧
        ReadInto pageTable vaddr offset memory byteNum (reach pageTable vaddr length) data data') ∧
    (data.length < offset + reach pageTable vaddr length →
      readLoop numPhysPages pageTable memory vaddr offset length fuel byteNum data =
        .error .indexOutOfBounds) := by
  intro byteNum data hlen hb hreach hdata hfuel
  -- the loop keeps the length of the array
  apply chunks_outcome (fun data' : List UInt8 => data'.length = data.length)
    (ReadInto pageTable vaddr offset memory) hv _ _ _ _ rfl hb hreach hdata hfuel
  · exact fun k data => ReadInto.refl vaddr offset k memory data
  · exact fun hij hjk h h' => h.trans hij hjk h'
  · intro fuel byteNum data hend
    unfold readLoop
    dsimp only
    rw [verifyVaddr_end hint hend]
    rfl
  · intro byteNum data' hsize hb hdata
    obtain ⟨e, n, base, hc, hamount⟩ := exists_chunk_reach hm length hv hint hb
    have hpos := hc.pos
    have hle := hc.le
    have hcopy : offset + byteNum + n ≤ data.length → ReadInto pageTable vaddr offset memory byteNum
        (byteNum + n) data' (data'.take (offset + byteNum) ++
          (List.range n).map (fun i => memory (base + i)) ++ data'.drop (offset + byteNum + n)) :=
      fun hfits => readInto_copy memory hc.inPage hc.mapped (by omega)
    refine ⟨n, _, hpos, by omega, fun fuel => ?_, fun hfits => ?_, hcopy⟩
    · rw [readLoop_chunk data' memory hc hamount (by omega), hsize]
    · exact (hcopy hfits).size.trans hsize

/-! ## The methods -/

/-- Both methods return 0 at once for these arguments. -/
def Refused (pageTable : List TranslationEntry) (vaddr offset length : Int) (dataLength : Nat) :
    Prop :=
  offset < 0 ∨ length < 0 ∨ (dataLength : Int) < wrap32 (offset + length) ∨
    vaddr < 0 ∨ (pageTable.length * (pageSize - 1) : Nat) ≤ vaddr

instance (pageTable : List TranslationEntry) (vaddr offset length : Int) (dataLength : Nat) :
    Decidable (Refused pageTable vaddr offset length dataLength) := by
  unfold Refused
  infer_instance

/-- The limit on the address is an `int` product that does not overflow. -/
theorem wrap32_limit (hint : pageTable.length * pageSize < 2 ^ 31) :
    wrap32 (pageTable.length * (pageSize - 1 : Nat)) = (pageTable.length * (pageSize - 1) : Nat) := by
  have hle : pageTable.length * (pageSize - 1) ≤ pageTable.length * pageSize :=
    Nat.mul_le_mul_left _ (Nat.sub_le _ _)
  rw [← wrap32_natCast (x := pageTable.length * (pageSize - 1)) (by omega)]
  congr 1

theorem writeVirtualMemory_refused (hint : pageTable.length * pageSize < 2 ^ 31)
    (memory : Nat → UInt8) {vaddr offset length : Int} {data : List UInt8}
    (h : Refused pageTable vaddr offset length data.length) :
    writeVirtualMemory numPhysPages pageTable memory vaddr data offset length =
      .ok (0, memory) := by
  unfold writeVirtualMemory
  rw [wrap32_limit hint]
  unfold Refused at h
  split
  · rfl
  · split
    · rfl
    · omega

theorem readVirtualMemory_refused (hint : pageTable.length * pageSize < 2 ^ 31)
    (memory : Nat → UInt8) {vaddr offset length : Int} {data : List UInt8}
    (h : Refused pageTable vaddr offset length data.length) :
    readVirtualMemory numPhysPages pageTable memory vaddr data offset length = .ok (0, data) := by
  unfold readVirtualMemory
  rw [wrap32_limit hint]
  unfold Refused at h
  split
  · rfl
  · split
    · rfl
    · omega

/-- Arguments that pass the checks are not negative. -/
theorem exists_of_not_refused {vaddr offset length : Int} {dataLength : Nat}
    (h : ¬ Refused pageTable vaddr offset length dataLength) :
    ∃ v o l : Nat, vaddr = v ∧ offset = o ∧ length = l := by
  unfold Refused at h
  obtain ⟨v, rfl⟩ := Int.eq_ofNat_of_zero_le (show 0 ≤ vaddr by omega)
  obtain ⟨o, rfl⟩ := Int.eq_ofNat_of_zero_le (show 0 ≤ offset by omega)
  obtain ⟨l, rfl⟩ := Int.eq_ofNat_of_zero_le (show 0 ≤ length by omega)
  exact ⟨v, o, l, rfl, rfl, rfl⟩

/-- The checks let through addresses of the page table, and ranges of the array unless
    `offset+length` overflows. -/
theorem bounds_of_not_refused {v o l dataLength : Nat}
    (h : ¬ Refused pageTable v o l dataLength) :
    v < pageTable.length * pageSize ∧ (o + l < 2 ^ 31 → o + l ≤ dataLength) := by
  have hle : pageTable.length * (pageSize - 1) ≤ pageTable.length * pageSize :=
    Nat.mul_le_mul_left _ (Nat.sub_le _ _)
  unfold Refused at h
  refine ⟨by omega, ?_⟩
  intro hsum
  have hwrap : wrap32 ((o : Int) + l) = ((o + l : Nat) : Int) := by
    rw [← wrap32_natCast hsum]
    congr 1
  rw [hwrap] at h
  omega

/-- A write of no bytes. -/
theorem writeLoop_zero (hm : Mapped numPhysPages pageTable) {vaddr offset : Nat}
    {data : List UInt8} (memory : Nat → UInt8) (hv : vaddr < pageTable.length * pageSize)
    (hint : pageTable.length * pageSize < 2 ^ 31) (hdata : offset ≤ data.length)
    (hlen : data.length < 2 ^ 31) :
    writeLoop numPhysPages pageTable vaddr offset data 0 1 0 memory = .ok (0, memory) := by
  obtain ⟨e, base, hverified, hpage, haddr, hbase⟩ := exists_page hm hv hint
  have hnothing : ∀ bytes, blit memory base 0 bytes = memory := by
    intro bytes
    funext a
    exact blit_outside (by omega)
  unfold writeLoop
  simp only [Int.ofNat_zero, Int.add_zero, hverified, hpage, haddr,
    wrap32_natCast (show offset < 2 ^ 31 by omega)]
  rw [if_neg (by simp), if_pos ⟨Int.natCast_nonneg _, by simpa using (by exact_mod_cast hbase),
    Int.natCast_nonneg _, by simpa using hdata⟩]
  simp [hnothing]

/-- A read of no bytes. -/
theorem readLoop_zero (hm : Mapped numPhysPages pageTable) {vaddr offset : Nat}
    {data : List UInt8} (memory : Nat → UInt8) (hv : vaddr < pageTable.length * pageSize)
    (hint : pageTable.length * pageSize < 2 ^ 31) (hdata : offset ≤ data.length)
    (hlen : data.length < 2 ^ 31) :
    readLoop numPhysPages pageTable memory vaddr offset 0 1 0 data = .ok (0, data) := by
  obtain ⟨e, base, hverified, hpage, haddr, hbase⟩ := exists_page hm hv hint
  unfold readLoop
  simp only [Int.ofNat_zero, Int.add_zero, hverified, hpage, haddr,
    wrap32_natCast (show offset < 2 ^ 31 by omega)]
  rw [if_neg (by simp), if_pos ⟨Int.natCast_nonneg _, by simpa using (by exact_mod_cast hbase),
    Int.natCast_nonneg _, by simpa using hdata⟩]
  simp

/-- What `writeVirtualMemory` does with arguments that pass its checks. -/
theorem writeVirtualMemory_outcome (hm : Mapped numPhysPages pageTable)
    (hint : pageTable.length * pageSize < 2 ^ 31) (memory : Nat → UInt8) {v o l : Nat}
    {data : List UInt8} (hargs : IntArgs v o l data)
    (h : ¬ Refused pageTable v o l data.length) :
    (o + reach pageTable v l ≤ data.length →
      ∃ memory', writeVirtualMemory numPhysPages pageTable memory v data o l =
        .ok (if v + l ≤ pageTable.length * pageSize then l else 0, memory') ∧
        Written pageTable v o data 0 (reach pageTable v l) memory memory') ∧
    (data.length < o + reach pageTable v l →
      writeVirtualMemory numPhysPages pageTable memory v data o l =
        .error .indexOutOfBounds) := by
  obtain ⟨hv, hfits⟩ := bounds_of_not_refused h
  have hloop : writeVirtualMemory numPhysPages pageTable memory v data o l =
      writeLoop numPhysPages pageTable v o data l (l + 1) 0 memory := by
    unfold writeVirtualMemory
    rw [wrap32_limit hint, Int.toNat_natCast]
    unfold Refused at h
    rw [if_neg (by omega), if_neg (by omega)]
  have ho := hargs.offset
  rw [hloop]
  -- a call with length 0 still enters the loop once
  by_cases hl : l = 0
  · subst hl
    have hreach : reach pageTable v 0 = 0 := Nat.min_zero _
    have hdata : o ≤ data.length := hfits (by omega)
    rw [writeLoop_zero hm memory hv hint hdata hargs.data, hreach]
    constructor
    · intro _
      exact ⟨memory, by rw [ite_self], Written.refl v o 0 data memory⟩
    · intro hshort
      omega
  · exact writeLoop_outcome hm hv hint (by omega) hargs.data (Nat.pos_of_ne_zero hl)
      (Nat.zero_le _) (Or.inl rfl) (by omega)

/-- What `readVirtualMemory` does with arguments that pass its checks. -/
theorem readVirtualMemory_outcome (hm : Mapped numPhysPages pageTable)
    (hint : pageTable.length * pageSize < 2 ^ 31) (memory : Nat → UInt8) {v o l : Nat}
    {data : List UInt8} (hargs : IntArgs v o l data)
    (h : ¬ Refused pageTable v o l data.length) :
    (o + reach pageTable v l ≤ data.length →
      ∃ data', readVirtualMemory numPhysPages pageTable memory v data o l =
        .ok (if v + l ≤ pageTable.length * pageSize then l else 0, data') ∧
        ReadInto pageTable v o memory 0 (reach pageTable v l) data data') ∧
    (data.length < o + reach pageTable v l →
      readVirtualMemory numPhysPages pageTable memory v data o l =
        .error .indexOutOfBounds) := by
  obtain ⟨hv, hfits⟩ := bounds_of_not_refused h
  have hloop : readVirtualMemory numPhysPages pageTable memory v data o l =
      readLoop numPhysPages pageTable memory v o l (l + 1) 0 data := by
    unfold readVirtualMemory
    rw [wrap32_limit hint, Int.toNat_natCast]
    unfold Refused at h
    rw [if_neg (by omega), if_neg (by omega)]
  have ho := hargs.offset
  rw [hloop]
  -- a call with length 0 still enters the loop once
  by_cases hl : l = 0
  · subst hl
    have hreach : reach pageTable v 0 = 0 := Nat.min_zero _
    have hdata : o ≤ data.length := hfits (by omega)
    rw [readLoop_zero hm memory hv hint hdata hargs.data, hreach]
    constructor
    · intro _
      exact ⟨data, by rw [ite_self], ReadInto.refl v o 0 memory data⟩
    · intro hshort
      omega
  · exact readLoop_outcome hm hv hint (by omega) hargs.data (Nat.pos_of_ne_zero hl)
      (Nat.zero_le _) (Or.inl rfl) (by omega)

/-! ## The return value -/

/-- The first `n` bytes of a range: none, or `n` bytes that are in the page table and in the
    array. -/
def Prefix (pageTable : List TranslationEntry) (vaddr offset length : Int) (dataLength n : Nat) :
    Prop :=
  n = 0 ∨ 0 ≤ vaddr ∧ 0 ≤ offset ∧ (n : Int) ≤ length ∧
    vaddr + n ≤ (pageTable.length * pageSize : Nat) ∧ offset + n ≤ dataLength

/-- `readVirtualMemory` returns the number of bytes it has read. -/
def ReadCounted (numPhysPages : Nat) (pageTable : List TranslationEntry) (memory : Nat → UInt8)
    (vaddr : Int) (data : List UInt8) (offset length : Int) : Prop :=
  ∃ n data', readVirtualMemory numPhysPages pageTable memory vaddr data offset length =
    .ok (n, data') ∧ Prefix pageTable vaddr offset length data.length n ∧
    ReadInto pageTable vaddr.toNat offset.toNat memory 0 n data data'

/-- `writeVirtualMemory` returns the number of bytes it has written. -/
def WriteCounted (numPhysPages : Nat) (pageTable : List TranslationEntry) (memory : Nat → UInt8)
    (vaddr : Int) (data : List UInt8) (offset length : Int) : Prop :=
  ∃ n memory', writeVirtualMemory numPhysPages pageTable memory vaddr data offset length =
    .ok (n, memory') ∧ Prefix pageTable vaddr offset length data.length n ∧
    Written pageTable vaddr.toNat offset.toNat data 0 n memory memory'

/-- The range runs past the last page, the bytes up to there are in the array, and the array and
    the memory agree on them already. -/
def AgreesToEnd (pageTable : List TranslationEntry) (memory : Nat → UInt8) (vaddr : Int)
    (data : List UInt8) (offset length : Int) : Prop :=
  (pageTable.length * pageSize : Nat) < vaddr + length ∧
    offset + ((pageTable.length * pageSize : Nat) - vaddr) ≤ data.length ∧
    ∀ i : Nat, vaddr + i < (pageTable.length * pageSize : Nat) →
      ∀ a, translate pageTable (vaddr.toNat + i) = some a → data[offset.toNat + i]? = some (memory a)

/-- When the number that a copy returns is that of the bytes it has copied: it has copied the
    whole range, or it returns 0, having copied the bytes up to the last page, and has changed
    nothing by that. -/
theorem counted_iff_of_outcome {S : Type} {outcome : Except Halt (Nat × S)}
    {copied : Nat → S → Prop} {agrees : Prop} {v o l dataLength : Nat}
    (hv : v < pageTable.length * pageSize)
    (hok : o + reach pageTable v l ≤ dataLength →
      ∃ s', outcome = .ok (if v + l ≤ pageTable.length * pageSize then l else 0, s') ∧
        copied (reach pageTable v l) s')
    (herr : dataLength < o + reach pageTable v l → outcome = .error .indexOutOfBounds)
    (hagrees : pageTable.length * pageSize < v + l → o + reach pageTable v l ≤ dataLength →
      ∀ s', copied (reach pageTable v l) s' → (copied 0 s' ↔ agrees)) :
    (∃ n s', outcome = .ok (n, s') ∧ Prefix pageTable v o l dataLength n ∧ copied n s') ↔
      (v : Int) + l ≤ (pageTable.length * pageSize : Nat) ∧ (o : Int) + l ≤ dataLength ∨
      (pageTable.length * pageSize : Nat) < (v : Int) + l ∧
        (o : Int) + ((pageTable.length * pageSize : Nat) - v) ≤ dataLength ∧ agrees := by
  constructor
  · -- the call did not throw, so the data had room for all that was copied
    rintro ⟨n, s', hrun, -, hcopied⟩
    by_cases hfits : o + reach pageTable v l ≤ dataLength
    · obtain ⟨s₁, hrun₁, hcopied₁⟩ := hok hfits
      rw [hrun] at hrun₁
      obtain ⟨rfl, rfl⟩ := Prod.mk.inj (Except.ok.inj hrun₁)
      by_cases hinside : v + l ≤ pageTable.length * pageSize
      · left
        rw [reach_eq_length hinside] at hfits
        omega
      · -- past the end the result is 0, which is right only if the copy changed nothing
        right
        rw [if_neg hinside] at hcopied
        have hend := vaddr_add_reach l (Nat.le_of_lt hv) (by omega)
        exact ⟨by omega, by omega, (hagrees (by omega) hfits s' hcopied₁).mp hcopied⟩
    · rw [herr (by omega)] at hrun
      cases hrun
  · rintro (⟨hinside, hdata⟩ | ⟨hpast, hdata, hsame⟩)
    · have hreach : reach pageTable v l = l := reach_eq_length (by omega)
      obtain ⟨s', hrun, hcopied⟩ := hok (by omega)
      rw [if_pos (by omega)] at hrun
      rw [hreach] at hcopied
      exact ⟨l, s', hrun, Or.inr (by omega), hcopied⟩
    · have hend := vaddr_add_reach l (Nat.le_of_lt hv) (by omega)
      have hfits : o + reach pageTable v l ≤ dataLength := by omega
      obtain ⟨s', hrun, hcopied⟩ := hok hfits
      rw [if_neg (by omega)] at hrun
      exact ⟨0, s', hrun, Or.inl rfl, (hagrees (by omega) hfits s' hcopied).mpr hsame⟩

theorem readCounted_iff (hm : Mapped numPhysPages pageTable)
    (hint : pageTable.length * pageSize < 2 ^ 31) (memory : Nat → UInt8)
    {vaddr offset length : Int} {data : List UInt8} (hargs : IntArgs vaddr offset length data) :
    ReadCounted numPhysPages pageTable memory vaddr data offset length ↔
      Refused pageTable vaddr offset length data.length ∨
      vaddr + length ≤ (pageTable.length * pageSize : Nat) ∧ offset + length ≤ data.length ∨
      AgreesToEnd pageTable memory vaddr data offset length := by
  by_cases h : Refused pageTable vaddr offset length data.length
  · refine iff_of_true ?_ (Or.inl h)
    exact ⟨0, data, readVirtualMemory_refused hint memory h, Or.inl rfl,
      ReadInto.refl vaddr.toNat offset.toNat 0 memory data⟩
  · obtain ⟨v, o, l, rfl, rfl, rfl⟩ := exists_of_not_refused h
    obtain ⟨hv, -⟩ := bounds_of_not_refused h
    obtain ⟨hok, herr⟩ := readVirtualMemory_outcome hm hint memory hargs h
    refine Iff.trans ?_ (or_iff_right h).symm
    refine counted_iff_of_outcome hv hok herr fun hpast hfits data' hcopied => ?_
    have hinto : ReadInto pageTable v o memory 0 (reach pageTable v l) data data' := hcopied
    have hend := vaddr_add_reach l (Nat.le_of_lt hv) hpast
    constructor
    · -- nothing may have changed, but the bytes of the last pages were copied
      intro hnothing i hi a ha
      have hsame := hnothing.outside (o + i) (Or.inr (by simp))
      rw [← hinto.inside i (Nat.zero_le _) (by omega) a ha]
      exact hsame.symm
    · intro hagrees
      have hsame : data' = data := by
        apply List.ext_getElem?
        intro j
        by_cases hj : o ≤ j ∧ j < o + reach pageTable v l
        · obtain ⟨i, rfl⟩ := Nat.exists_eq_add_of_le hj.1
          obtain ⟨e, -, htr⟩ := translate_of_lt pageTable (x := v + i) (by omega)
          rw [hinto.inside i (Nat.zero_le _) (by omega) _ htr]
          exact (hagrees i (by omega) _ htr).symm
        · exact hinto.outside j (by omega)
      subst hsame
      exact ReadInto.refl v o 0 memory data'

theorem writeCounted_iff (hm : Mapped numPhysPages pageTable)
    (hint : pageTable.length * pageSize < 2 ^ 31) (memory : Nat → UInt8)
    {vaddr offset length : Int} {data : List UInt8} (hargs : IntArgs vaddr offset length data) :
    WriteCounted numPhysPages pageTable memory vaddr data offset length ↔
      Refused pageTable vaddr offset length data.length ∨
      vaddr + length ≤ (pageTable.length * pageSize : Nat) ∧ offset + length ≤ data.length ∨
      AgreesToEnd pageTable memory vaddr data offset length := by
  by_cases h : Refused pageTable vaddr offset length data.length
  · refine iff_of_true ?_ (Or.inl h)
    exact ⟨0, memory, writeVirtualMemory_refused hint memory h, Or.inl rfl,
      Written.refl vaddr.toNat offset.toNat 0 data memory⟩
  · obtain ⟨v, o, l, rfl, rfl, rfl⟩ := exists_of_not_refused h
    obtain ⟨hv, -⟩ := bounds_of_not_refused h
    obtain ⟨hok, herr⟩ := writeVirtualMemory_outcome hm hint memory hargs h
    refine Iff.trans ?_ (or_iff_right h).symm
    refine counted_iff_of_outcome hv hok herr fun hpast hfits memory' hcopied => ?_
    have hwritten : Written pageTable v o data 0 (reach pageTable v l) memory memory' := hcopied
    have hend := vaddr_add_reach l (Nat.le_of_lt hv) hpast
    constructor
    · -- a write of nothing leaves the byte as it was, and it is the byte that was written
      intro hnothing i hi a ha
      have hsame := hnothing.outside a fun j _ hj => absurd hj (by omega)
      have hbyte := hwritten.inside i (Nat.zero_le _) (by omega) a ha
      rw [← hsame, hbyte, List.getD_eq_getElem?_getD, Int.toNat_natCast,
        List.getElem?_eq_getElem (by omega)]
      rfl
    · -- bytes that are written over themselves leave the memory as it was
      intro hagrees
      have hsame : memory' = memory := by
        funext a
        by_cases ha : ∃ i < reach pageTable v l, translate pageTable (v + i) = some a
        · obtain ⟨i, hi, htr⟩ := ha
          rw [hwritten.inside i (Nat.zero_le _) hi a htr, List.getD_eq_getElem?_getD]
          have hbyte := hagrees i (by omega) a htr
          rw [Int.toNat_natCast] at hbyte
          rw [hbyte]
          rfl
        · apply hwritten.outside
          intro i _ hi htr
          exact ha ⟨i, hi, htr⟩
      subst hsame
      exact Written.refl v o 0 data memory'

/-- A kernel copy returns the number of bytes it has copied, and does not throw, exactly if it
    is refused at entry, or the range is in the page table and in the array, or it copies up to
    the end of the last page what was there already. -/
theorem kernelCopy_counted_iff (hm : Mapped numPhysPages pageTable)
    (hmemory : numPhysPages * pageSize < 2 ^ 31) (memory : Nat → UInt8)
    {vaddr offset length : Int} {data : List UInt8} (hargs : IntArgs vaddr offset length data) :
    (ReadCounted numPhysPages pageTable memory vaddr data offset length ↔
      Refused pageTable vaddr offset length data.length ∨
      vaddr + length ≤ (pageTable.length * pageSize : Nat) ∧ offset + length ≤ data.length ∨
      AgreesToEnd pageTable memory vaddr data offset length) ∧
    (WriteCounted numPhysPages pageTable memory vaddr data offset length ↔
      Refused pageTable vaddr offset length data.length ∨
      vaddr + length ≤ (pageTable.length * pageSize : Nat) ∧ offset + length ≤ data.length ∨
      AgreesToEnd pageTable memory vaddr data offset length) :=
  ⟨readCounted_iff hm (hm.size_lt hmemory) memory hargs,
    writeCounted_iff hm (hm.size_lt hmemory) memory hargs⟩

/-- The pages of a process in the first frames. -/
def firstFrames (numPages : Nat) : List TranslationEntry :=
  (List.range numPages).map fun i : Nat => { vpn := i, ppn := i, valid := true }

/-- Two bytes of a process with one page. -/
theorem kernelCopy_counted_iff_twoBytes :
    WriteCounted 1 (firstFrames 1) (fun _ => 0) 5 [7, 8, 9] 1 2 :=
  (kernelCopy_counted_iff (show Mapped 1 (firstFrames 1) from ⟨by decide, by decide⟩) (by decide)
    (fun _ => 0) ⟨by decide, by decide, by decide, by decide⟩).2.mpr (Or.inr (Or.inl (by decide)))

/-- A process with ten pages, and 12 bytes of which 11 are in its last page: they are copied,
    and the return value is 0. With `offset+length` past the largest `int`, the copy throws. -/
theorem kernelCopy_not_counted :
    ¬ ReadCounted 10 (firstFrames 10) (fun _ => 1) 10229 (List.replicate 12 0) 0 12 ∧
    ¬ WriteCounted 10 (firstFrames 10) (fun _ => 1) 10229 (List.replicate 12 0) 0 12 ∧
    ¬ ReadCounted 10 (firstFrames 10) (fun _ => 1) 0 [0] 1 (2 ^ 31 - 1) := by
  refine ⟨?_, ?_, ?_⟩
  · rintro ⟨n, data', hrun, -, hinto⟩
    have hread : readVirtualMemory 10 (firstFrames 10) (fun _ => 1) 10229 (List.replicate 12 0) 0 12 =
      .ok (0, List.replicate 11 1 ++ [0]) := by decide +kernel
    rw [hrun] at hread
    obtain ⟨rfl, rfl⟩ := Prod.mk.inj (Except.ok.inj hread)
    have hsame := hinto.outside 0 (Or.inr (by decide))
    exact absurd hsame (by decide)
  · rintro ⟨n, memory', hrun, -, hwritten⟩
    have hwrite : (writeVirtualMemory 10 (firstFrames 10) (fun _ => 1) 10229
      (List.replicate 12 0) 0 12).map (fun r => (r.1, r.2 10229)) = .ok (0, 0) := by decide +kernel
    rw [hrun] at hwrite
    obtain ⟨rfl, hbyte⟩ := Prod.mk.inj (Except.ok.inj hwrite)
    have hkept := hwritten.outside 10229 fun i _ hi => absurd hi (Nat.not_lt_zero i)
    exact absurd (hkept.symm.trans hbyte) (by decide)
  · rintro ⟨n, data', hrun, -⟩
    have hread : readVirtualMemory 10 (firstFrames 10) (fun _ => 1) 0 [0] 1 (2 ^ 31 - 1) =
      .error .indexOutOfBounds := by decide +kernel
    rw [hrun] at hread
    cases hread

/-! ## The last bytes of the last page -/

/-- The whole range is read, and its length is returned. -/
def ReadWhole (numPhysPages : Nat) (pageTable : List TranslationEntry) (memory : Nat → UInt8)
    (vaddr : Nat) (data : List UInt8) (offset length : Nat) : Prop :=
  ∃ data', readVirtualMemory numPhysPages pageTable memory vaddr data offset length =
    .ok (length, data') ∧ ReadInto pageTable vaddr offset memory 0 length data data'

/-- The whole range is written, and its length is returned. -/
def WrittenWhole (numPhysPages : Nat) (pageTable : List TranslationEntry) (memory : Nat → UInt8)
    (vaddr : Nat) (data : List UInt8) (offset length : Nat) : Prop :=
  ∃ memory', writeVirtualMemory numPhysPages pageTable memory vaddr data offset length =
    .ok (length, memory') ∧ Written pageTable vaddr offset data 0 length memory memory'

/-- The checks at entry let through what is in the page table and in the array, below the limit
    on the address. -/
theorem not_refused_of_lt {vaddr offset length dataLength : Nat}
    (hlimit : vaddr < pageTable.length * (pageSize - 1)) (hdata : offset + length ≤ dataLength)
    (hlen : dataLength < 2 ^ 31) : ¬ Refused pageTable vaddr offset length dataLength := by
  have hwrap : wrap32 ((offset : Int) + length) = ((offset + length : Nat) : Int) := by
    rw [← wrap32_natCast (x := offset + length) (by omega)]
    congr 1
  unfold Refused
  rw [hwrap]
  omega

theorem readWhole_of_lt (hm : Mapped numPhysPages pageTable)
    (hint : pageTable.length * pageSize < 2 ^ 31) (memory : Nat → UInt8)
    {vaddr offset length : Nat} {data : List UInt8}
    (hlimit : vaddr < pageTable.length * (pageSize - 1))
    (hrange : vaddr + length ≤ pageTable.length * pageSize)
    (hdata : offset + length ≤ data.length) (hlen : data.length < 2 ^ 31) :
    ReadWhole numPhysPages pageTable memory vaddr data offset length := by
  have hargs : IntArgs vaddr offset length data := ⟨by omega, by omega, by omega, by omega⟩
  have hreach := reach_eq_length hrange
  obtain ⟨data', hrun, hinto⟩ := (readVirtualMemory_outcome hm hint memory hargs
    (not_refused_of_lt hlimit hdata hlen)).1 (by rw [hreach]; exact hdata)
  rw [if_pos hrange] at hrun
  rw [hreach] at hinto
  exact ⟨data', hrun, hinto⟩

theorem writtenWhole_of_lt (hm : Mapped numPhysPages pageTable)
    (hint : pageTable.length * pageSize < 2 ^ 31) (memory : Nat → UInt8)
    {vaddr offset length : Nat} {data : List UInt8}
    (hlimit : vaddr < pageTable.length * (pageSize - 1))
    (hrange : vaddr + length ≤ pageTable.length * pageSize)
    (hdata : offset + length ≤ data.length) (hlen : data.length < 2 ^ 31) :
    WrittenWhole numPhysPages pageTable memory vaddr data offset length := by
  have hargs : IntArgs vaddr offset length data := ⟨by omega, by omega, by omega, by omega⟩
  have hreach := reach_eq_length hrange
  obtain ⟨memory', hrun, hwritten⟩ := (writeVirtualMemory_outcome hm hint memory hargs
    (not_refused_of_lt hlimit hdata hlen)).1 (by rw [hreach]; exact hdata)
  rw [if_pos hrange] at hrun
  rw [hreach] at hwritten
  exact ⟨memory', hrun, hwritten⟩

/-- A range of mapped bytes is copied as a whole exactly if it does not start in the last bytes
    of the last page, one for each page of the process. -/
theorem kernelCopy_whole_iff (hm : Mapped numPhysPages pageTable)
    (hmemory : numPhysPages * pageSize < 2 ^ 31) (memory : Nat → UInt8)
    {vaddr offset length : Nat} {data : List UInt8} (hpos : 1 ≤ length)
    (hrange : vaddr + length ≤ pageTable.length * pageSize)
    (hdata : offset + length ≤ data.length) (hlen : data.length < 2 ^ 31) :
    (ReadWhole numPhysPages pageTable memory vaddr data offset length ↔
      vaddr < pageTable.length * (pageSize - 1)) ∧
    (WrittenWhole numPhysPages pageTable memory vaddr data offset length ↔
      vaddr < pageTable.length * (pageSize - 1)) := by
  have hint := hm.size_lt hmemory
  by_cases hlimit : vaddr < pageTable.length * (pageSize - 1)
  · exact ⟨iff_of_true (readWhole_of_lt hm hint memory hlimit hrange hdata hlen) hlimit,
      iff_of_true (writtenWhole_of_lt hm hint memory hlimit hrange hdata hlen) hlimit⟩
  · -- an address in the last bytes of the space is refused, though it is in range
    have hrefused : Refused pageTable vaddr offset length data.length := by
      unfold Refused
      omega
    refine ⟨iff_of_false ?_ hlimit, iff_of_false ?_ hlimit⟩
    · rintro ⟨data', hrun, -⟩
      rw [readVirtualMemory_refused hint memory hrefused] at hrun
      obtain ⟨hzero, -⟩ := Prod.mk.inj (Except.ok.inj hrun)
      omega
    · rintro ⟨memory', hrun, -⟩
      rw [writeVirtualMemory_refused hint memory hrefused] at hrun
      obtain ⟨hzero, -⟩ := Prod.mk.inj (Except.ok.inj hrun)
      omega

/-- One byte of a process with one page. -/
theorem kernelCopy_whole_iff_oneByte :
    ReadWhole 1 (firstFrames 1) (fun _ => 0) 1022 [7] 0 1 :=
  (kernelCopy_whole_iff (show Mapped 1 (firstFrames 1) from ⟨by decide, by decide⟩) (by decide)
    (fun _ => 0) (by decide) (by decide) (by decide) (by decide)).1.mpr (by decide)

/-- The last byte of a process with ten pages. -/
theorem lastByte_not_copied :
    ¬ ReadWhole 10 (firstFrames 10) (fun _ => 1) 10239 [0] 0 1 ∧
    ¬ WrittenWhole 10 (firstFrames 10) (fun _ => 1) 10239 [0] 0 1 := by
  constructor
  · rintro ⟨data', hrun, -⟩
    have hread : readVirtualMemory 10 (firstFrames 10) (fun _ => 1) 10239 [0] 0 1 =
      .ok (0, [0]) := by decide +kernel
    exact absurd (hrun.symm.trans hread) (by simp)
  · rintro ⟨memory', hrun, -⟩
    have hwrite : (writeVirtualMemory 10 (firstFrames 10) (fun _ => 1) 10239 [0] 0 1).map
      (fun r => r.1) = .ok 0 := by decide +kernel
    exact absurd ((congrArg _ hrun).symm.trans hwrite) (by simp [Except.map])

end UserProcess

end Nachos
