import Coursework.Nachos.Coff
import Coursework.Nachos.Spec.UnalignedAccess

/-!
# What is accepted as an executable

The constructor of `Coff` is safe on any file: it gives an executable in order, or throws
`EOFException`. It gives every executable in order, from the file that has its headers. Such an
executable can be loaded but for the sections whose end, as an `int`, is negative: these pass the
check against the length of the file.
-/

namespace Nachos

namespace CoffFormat

open Processor (byteFromInt)

/-! ## Sections -/

namespace Section

/-- What the constructor of `CoffSection` promises. -/
structure WellFormed (file : HostFile) (s : Section) : Prop where
  size_nonneg : 0 ≤ s.size.toInt
  contents : s.initialized = true → 0 ≤ s.contentOffset.toInt ∧
    (s.contentOffset + s.size).toInt ≤ (fileLength file).toInt
  numPages : s.numPages = divRoundUp s.size 0x400
  firstVPN : -2 ^ 21 ≤ s.firstVPN.toInt ∧ s.firstVPN.toInt < 2 ^ 21
  executable : s.executable = true → s.readOnly = true
  readOnly : s.readOnly = true → s.initialized = true

theorem kind_eq_some {flags : BitVec 32} {executable readOnly initialized : Bool}
    (h : kind flags = some (executable, readOnly, initialized)) :
    (executable = true → readOnly = true) ∧ (readOnly = true → initialized = true) := by
  simp only [kind] at h
  repeat' split at h
  all_goals cases h <;> decide

/-- A page number is the number of an address that is aligned. -/
theorem firstVPN_bounds {vaddr : BitVec 32} (h : vaddr.srem 0x400 = 0) :
    -2 ^ 21 ≤ (vaddr.sdiv 0x400).toInt ∧ (vaddr.sdiv 0x400).toInt < 2 ^ 21 := by
  have hquot := BitVec.toInt_sdiv_of_ne_or_ne vaddr 0x400 (Or.inr (by decide))
  have hrem : vaddr.toInt.tmod 1024 = 0 := by
    simpa [BitVec.toInt_srem] using congrArg BitVec.toInt h
  have hvaddr := Int.tdiv_mul_cancel_of_tmod_eq_zero hrem
  have hlow := BitVec.le_toInt vaddr
  have hhigh := BitVec.toInt_lt (x := vaddr)
  rw [hquot, show (0x400 : BitVec 32).toInt = 1024 from rfl]
  omega

/-- The addresses are checked, or the section is refused. -/
theorem ofAddresses_wellFormed (file : HostFile) {executable readOnly initialized : Bool}
    (hkind : (executable = true → readOnly = true) ∧ (readOnly = true → initialized = true))
    (vaddr size contentOffset : BitVec 32) :
    ofAddresses file executable readOnly initialized vaddr size contentOffset = .error .eof ∨
      ∃ s, ofAddresses file executable readOnly initialized vaddr size contentOffset = .ok s ∧
        s.WellFormed file := by
  simp only [ofAddresses]
  split
  · exact .inl rfl
  · rename_i hvalid
    simp only [not_or, not_and, Int.not_lt, ne_eq, not_not] at hvalid
    obtain ⟨haligned, hsize, hcontents⟩ := hvalid
    exact .inr ⟨_, rfl, hsize, hcontents, rfl, firstVPN_bounds haligned, hkind.1, hkind.2⟩

end Section

/-- What `file.length()` says is there, is there. -/
theorem fileLength_le (file : HostFile) : (fileLength file).toInt ≤ file.length := by
  have hle : (BitVec.ofNat 32 file.length).toNat ≤ file.length := by
    rw [BitVec.toNat_ofNat]
    exact Nat.mod_le _ _
  rw [fileLength, BitVec.toInt_eq_toNat_cond]
  split <;> omega

/-- A read of what is there does not fail. -/
theorem strictReadFile_eq {file : HostFile} {position : BitVec 32} {length : Nat}
    (hposition : 0 ≤ position.toInt) (h : position.toInt + length ≤ (fileLength file).toInt) :
    strictReadFile file position length =
      .ok (file.read position.toInt length (fun _ => 0) 0) := by
  have hlength := fileLength_le file
  have hnat : position.toInt = position.toNat :=
    BitVec.toInt_eq_toNat_of_lt (BitVec.toInt_pos_iff.mp hposition)
  rw [strictReadFile, if_neg (by omega)]

/-- The sum of two offsets that is no overflow. -/
theorem toInt_add_ofNat {offset : BitVec 32} {n : Nat} (h : 0 ≤ offset.toInt)
    (hn : offset.toInt + n < 2 ^ 31) : (offset + BitVec.ofNat 32 n).toInt = offset.toInt + n := by
  have hnat : offset.toInt = offset.toNat :=
    BitVec.toInt_eq_toNat_of_lt (BitVec.toInt_pos_iff.mp h)
  rw [BitVec.toInt_eq_toNat_cond, BitVec.toNat_add, BitVec.toNat_ofNat]
  split <;> omega

namespace Section

/-- A section header is read in order, or refused. -/
theorem ofFile_wellFormed (file : HostFile) {headerOffset : BitVec 32}
    (hoffset : 0 ≤ headerOffset.toInt) (hlt : headerOffset.toInt < 2 ^ 30) :
    ofFile file headerOffset = .error .eof ∨
      ∃ s, ofFile file headerOffset = .ok s ∧ s.WellFormed file := by
  rw [ofFile, if_neg (by omega)]
  split
  · exact .inl rfl
  · -- the header is in the file, so that the read does not fail
    rename_i hlength
    have hsum : (headerOffset + BitVec.ofNat 32 headerLength).toInt =
        headerOffset.toInt + headerLength :=
      toInt_add_ofNat hoffset (by simp only [headerLength]; omega)
    rw [strictReadFile_eq hoffset (by omega)]
    simp only [bind, Except.bind]
    split
    · exact .inl rfl
    · split
      · exact .inl rfl
      · rename_i hkind
        exact ofAddresses_wellFormed file (kind_eq_some hkind) _ _ _

end Section

/-! ## Executables -/

theorem bytesToUnsignedShort_lt (array : Nat → UInt8) (offset : Nat) :
    (bytesToUnsignedShort array offset).toNat < 2 ^ 16 := by
  rw [bytesToUnsignedShort, BitVec.toNat_and]
  exact Nat.and_lt_two_pow _ (by decide)

namespace Coff

/-- The section headers are read in order, or one of them is refused. -/
theorem readSections_wellFormed (file : HostFile) {offset : BitVec 32} (h : 0 ≤ offset.toInt)
    (n : Nat) : ∀ s, offset.toInt + ((s + n) * Section.headerLength : Nat) < 2 ^ 30 →
      readSections file offset s n = .error .eof ∨
        ∃ sections, readSections file offset s n = .ok sections ∧ sections.length = n ∧
          ∀ sec ∈ sections, sec.WellFormed file := by
  induction n with
  | zero => exact fun s _ => .inr ⟨[], rfl, rfl, by simp⟩
  | succ n ih =>
    intro s hlt
    -- the offset of the header is the sum that is meant, since it is far below `2 ^ 31`
    simp only [Section.headerLength] at hlt ih
    have hsum : (offset + BitVec.ofNat 32 (s * Section.headerLength)).toInt =
        offset.toInt + (s * Section.headerLength : Nat) :=
      toInt_add_ofNat h (by simp only [Section.headerLength]; omega)
    simp only [Section.headerLength] at hsum
    simp only [readSections, bind, Except.bind, Section.headerLength]
    rcases Section.ofFile_wellFormed file
      (show 0 ≤ (offset + BitVec.ofNat 32 (s * 40)).toInt by omega) (by omega)
      with hfirst | ⟨first, hfirst, hwf⟩
    · exact .inl (by rw [hfirst])
    · rw [hfirst]
      rcases ih (s + 1) (by omega) with hrest | ⟨rest, hrest, hlength, hall⟩
      · exact .inl (by rw [hrest])
      · refine .inr ⟨first :: rest, by rw [hrest], by rw [List.length_cons, hlength], ?_⟩
        exact List.forall_mem_cons.mpr ⟨hwf, hall⟩

/-- The number of sections, and where their headers start. -/
theorem header_bounds (headers : Nat → UInt8) :
    (bytesToUnsignedShort headers 2).toInt = (bytesToUnsignedShort headers 2).toNat ∧
      0 ≤ (BitVec.ofNat 32 headerLength + bytesToUnsignedShort headers 16).toInt ∧
      (BitVec.ofNat 32 headerLength + bytesToUnsignedShort headers 16).toInt < 2 ^ 17 := by
  have hnum := bytesToUnsignedShort_lt headers 2
  have hoptional := bytesToUnsignedShort_lt headers 16
  have hsum : (BitVec.ofNat 32 headerLength + bytesToUnsignedShort headers 16).toNat =
      headerLength + (bytesToUnsignedShort headers 16).toNat := by
    rw [BitVec.toNat_add, BitVec.toNat_ofNat, headerLength]
    omega
  rw [headerLength] at hsum
  refine ⟨BitVec.toInt_eq_toNat_of_lt (by omega), ?_⟩
  rw [BitVec.toInt_eq_toNat_of_lt (by rw [headerLength]; omega), headerLength]
  omega

/-- The constructor gives sections in order, or throws. -/
theorem ofFile_wellFormed (file : HostFile) : ofFile file = .error .eof ∨
    ∃ c, ofFile file = .ok c ∧ 2 ≤ c.sections.length ∧ c.sections.length ≤ 10 ∧
      ∀ s ∈ c.sections, s.WellFormed file := by
  simp only [ofFile]
  split
  · exact .inl rfl
  · -- the headers of the file are there; each test that follows may refuse them
    rename_i hlength
    rw [strictReadFile_eq (by decide) (by simpa using hlength)]
    simp only [bind, Except.bind]
    generalize file.read (BitVec.toInt 0) (headerLength + aoutHeaderLength) (fun _ => 0) 0 = headers
    split
    · exact .inl rfl
    · split
      · exact .inl rfl
      · rename_i hnum
        split
        · exact .inl rfl
        · -- the offsets are far below `2 ^ 31`: two numbers of 16 bits, and ten headers
          obtain ⟨hcount, hoffset⟩ := header_bounds headers
          rcases readSections_wellFormed file hoffset.1
            (bytesToUnsignedShort headers 2).toNat 0 (by simp only [Section.headerLength]; omega)
            with hstop | ⟨sections, hsections, hlen, hall⟩
          · exact .inl (by rw [hstop])
          · refine .inr ⟨⟨_, sections⟩, by rw [hsections], ?_, ?_, hall⟩
            · show 2 ≤ sections.length
              omega
            · show sections.length ≤ 10
              omega

/-- An executable in order, as the handler of `exec` gets it. -/
def toCoffFile (file : HostFile) (c : Coff) (h : ∀ s ∈ c.sections, s.WellFormed file) :
    CoffFile where
  coff := c.toCoff file
  firstVPN_lt := by
    intro sec hsec
    obtain ⟨s, hs, rfl⟩ := List.mem_map.mp hsec
    exact (h s hs).firstVPN.2
  size_lt := by
    intro sec hsec
    obtain ⟨s, hs, rfl⟩ := List.mem_map.mp hsec
    have hsize := BitVec.toInt_pos_iff.mp (h s hs).size_nonneg
    show s.size.toNat < 2 ^ 31
    omega

/-- Whatever is in the file, no assertion fails in the constructor: it throws `EOFException`, or
    it gives an executable in order, one that the handler of `exec` can be given. -/
theorem ofFile_accepts (file : HostFile) : ofFile file = .error .eof ∨
    ∃ c, ofFile file = .ok c ∧ 2 ≤ c.sections.length ∧ c.sections.length ≤ 10 ∧
      (∀ s ∈ c.sections, s.WellFormed file) ∧
      ∃ executable : CoffFile, executable.coff = c.toCoff file := by
  rcases ofFile_wellFormed file with hstop | ⟨c, hc, hlow, hhigh, hall⟩
  · exact .inl hstop
  · exact .inr ⟨c, hc, hlow, hhigh, hall, c.toCoffFile file hall, rfl⟩

end Coff

/-! ## Writing an executable -/

namespace Section

/-- The flags of a section. -/
def flags (s : Section) : BitVec 32 :=
  if s.executable then 0x0020
  else if !s.initialized then 0x0080
  else if s.readOnly then 0x0100
  else 0x0040

/-- The bytes of a header for the section, without a name. -/
def header (s : Section) (i : Nat) : UInt8 :=
  if i < 12 then 0
  else if i < 16 then byteFromInt (s.firstVPN * 0x400) (i - 12)
  else if i < 20 then byteFromInt s.size (i - 16)
  else if i < 24 then byteFromInt s.contentOffset (i - 20)
  else if i < 36 then 0
  else byteFromInt s.flags (i - 36)

variable {file : HostFile} {s : Section}

theorem WellFormed.kind_flags (h : s.WellFormed file) :
    kind s.flags = some (s.executable, s.readOnly, s.initialized) := by
  have hexecutable := h.executable
  have hreadOnly := h.readOnly
  rw [flags]
  generalize s.executable = executable at *
  generalize s.readOnly = readOnly at *
  generalize s.initialized = initialized at *
  revert executable readOnly initialized
  decide

theorem WellFormed.ofAddresses_eq (h : s.WellFormed file) :
    ofAddresses file s.executable s.readOnly s.initialized (s.firstVPN * 0x400) s.size
      s.contentOffset = .ok s := by
  have hvaddr : (s.firstVPN * 0x400).toInt = s.firstVPN.toInt * 1024 := by
    have hbounds := h.firstVPN
    rw [BitVec.toInt_mul, show (0x400 : BitVec 32).toInt = 1024 from rfl]
    exact Int.bmod_eq_of_le (by omega) (by omega)
  have hrem : (s.firstVPN * 0x400).srem 0x400 = 0 := by
    apply BitVec.eq_of_toInt_eq
    rw [BitVec.toInt_srem, hvaddr]
    exact Int.mul_tmod_left _ _
  have hquot : (s.firstVPN * 0x400).sdiv 0x400 = s.firstVPN := by
    apply BitVec.eq_of_toInt_eq
    rw [BitVec.toInt_sdiv_of_ne_or_ne _ _ (Or.inr (by decide)), hvaddr]
    exact Int.mul_tdiv_cancel _ (by decide)
  have hsize := h.size_nonneg
  rw [ofAddresses, if_neg, hquot, ← h.numPages]
  rintro (hodd | hneg | ⟨hinitialized, hout⟩)
  · exact hodd hrem
  · omega
  · have hcontents := h.contents hinitialized
    omega

end Section

/-- An `int` is read as it was written. -/
theorem bytesToInt_eq {array : Nat → UInt8} {offset : Nat} {value : BitVec 32}
    (h : ∀ i < 4, array (offset + i) = byteFromInt value i) :
    Processor.bytesToInt array offset 4 = value := by
  refine Processor.word_ext fun i hi => ?_
  rw [Processor.byte_bytesToInt _ _ hi, h i hi, Processor.byteFromInt_eq _ hi]

theorem bytesToUnsignedShort_eq {array : Nat → UInt8} {offset : Nat} {low high : UInt8}
    (hlow : array offset = low) (hhigh : array (offset + 1) = high) :
    bytesToUnsignedShort array offset =
      (low.toBitVec.setWidth 16 ||| high.toBitVec.setWidth 16 <<< 8).signExtend 32 &&& 0xFFFF := by
  rw [bytesToUnsignedShort, Processor.bytesToInt, hlow, hhigh]

/-- What a read of the file finds. -/
theorem read_eq {file : HostFile} {position : Int} {n i : Nat} (hposition : 0 ≤ position)
    (hn : position + n ≤ file.length) (hi : i < n) :
    file.read position n (fun _ => 0) 0 i = file.bytes (position.toNat + i) := by
  rw [HostFile.read, if_neg (by omega), Nat.min_eq_left (by omega), blit,
    if_pos ⟨Nat.zero_le i, by omega⟩, Nat.sub_zero]

namespace Section

variable {file : HostFile} {s : Section}

/-- The section is read from its header. -/
theorem WellFormed.ofFile_eq (h : s.WellFormed file) {headerOffset : BitVec 32}
    (hoffset : 0 ≤ headerOffset.toInt)
    (hlength : headerOffset.toInt + headerLength ≤ (fileLength file).toInt)
    (hbytes : ∀ i < headerLength, file.bytes (headerOffset.toInt.toNat + i) = s.header i) :
    ofFile file headerOffset = .ok s := by
  have hfile := fileLength_le file
  have hhigh := BitVec.toInt_lt (x := fileLength file)
  have hsum : (headerOffset + BitVec.ofNat 32 headerLength).toInt =
      headerOffset.toInt + headerLength := toInt_add_ofNat hoffset (by omega)
  rw [ofFile, if_neg (by omega), if_neg (by omega), strictReadFile_eq hoffset hlength]
  simp only [bind, Except.bind]
  have hbuf (i : Nat) (hi : i < headerLength) :
      file.read headerOffset.toInt headerLength (fun _ => 0) 0 i = s.header i :=
    (read_eq hoffset (by omega) hi).trans (hbytes i hi)
  generalize file.read headerOffset.toInt headerLength (fun _ => 0) 0 = buf at hbuf ⊢
  simp only [headerLength] at hbuf
  have hword {k : Nat} {value : BitVec 32} (hk : k + 4 ≤ 40)
      (hvalue : ∀ i < 4, s.header (k + i) = byteFromInt value i) :
      Processor.bytesToInt buf k 4 = value :=
    bytesToInt_eq fun i hi => (hbuf (k + i) (by omega)).trans (hvalue i hi)
  have hrelocations : bytesToUnsignedShort buf 32 = 0 :=
    bytesToUnsignedShort_eq (show buf 32 = 0 from hbuf 32 (by omega))
      (show buf 33 = 0 from hbuf 33 (by omega))
  have hvaddr : Processor.bytesToInt buf 12 4 = s.firstVPN * 0x400 := by
    refine hword (by omega) fun i hi => ?_
    rw [header, if_neg (by omega), if_pos (by omega), Nat.add_sub_cancel_left]
  have hsize : Processor.bytesToInt buf 16 4 = s.size := by
    refine hword (by omega) fun i hi => ?_
    rw [header, if_neg (by omega), if_neg (by omega), if_pos (by omega), Nat.add_sub_cancel_left]
  have hcontents : Processor.bytesToInt buf 20 4 = s.contentOffset := by
    refine hword (by omega) fun i hi => ?_
    rw [header, if_neg (by omega), if_neg (by omega), if_neg (by omega), if_pos (by omega),
      Nat.add_sub_cancel_left]
  have hflags : Processor.bytesToInt buf 36 4 = s.flags := by
    refine hword (by omega) fun i hi => ?_
    rw [header, if_neg (by omega), if_neg (by omega), if_neg (by omega), if_neg (by omega),
      if_neg (by omega), Nat.add_sub_cancel_left]
  rw [if_neg (not_not_intro hrelocations), hvaddr, hsize, hcontents, hflags, h.kind_flags]
  exact h.ofAddresses_eq

end Section

namespace Coff

/-- The bytes before the section headers. -/
def header (c : Coff) (i : Nat) : UInt8 :=
  if i = 0 then 0x62 else if i = 1 then 0x01
  else if i = 2 then UInt8.ofNat c.sections.length
  else if i = 16 then UInt8.ofNat aoutHeaderLength
  else if i = 18 then 0x03
  else if 36 ≤ i then byteFromInt c.entryPoint (i - 36)
  else 0

/-- A file of the largest length, with the headers of the executable. -/
def image (c : Coff) : HostFile where
  length := 2 ^ 31 - 1
  bytes i :=
    if i < 48 then c.header i
    else
      match c.sections[(i - 48) / 40]? with
      | some s => s.header ((i - 48) % 40)
      | none => 0

/-- Sections that are in order, each for some file, and not too many. -/
structure WellFormed (c : Coff) : Prop where
  two_le : 2 ≤ c.sections.length
  le_ten : c.sections.length ≤ 10
  sections : ∀ s ∈ c.sections, ∃ file, s.WellFormed file

theorem fileLength_image (c : Coff) : (fileLength c.image).toInt = 2 ^ 31 - 1 := by
  show (BitVec.ofNat 32 (2 ^ 31 - 1)).toInt = 2 ^ 31 - 1
  decide

/-- In a file of the largest length there is room for any section. -/
theorem wellFormed_image {s : Section} {file : HostFile} (h : s.WellFormed file) (c : Coff) :
    s.WellFormed c.image := by
  refine ⟨h.size_nonneg, fun hinitialized => ⟨(h.contents hinitialized).1, ?_⟩, h.numPages,
    h.firstVPN, h.executable, h.readOnly⟩
  have hlt := BitVec.toInt_lt (x := s.contentOffset + s.size)
  rw [fileLength_image]
  omega

/-- The loop reads the sections one after the other. -/
theorem readSections_eq {file : HostFile} {offset : BitVec 32} {sections : List Section} :
    ∀ k, (∀ j, (hj : j < sections.length) → Section.ofFile file
      (offset + BitVec.ofNat 32 ((k + j) * Section.headerLength)) = .ok sections[j]) →
    readSections file offset k sections.length = .ok sections := by
  induction sections with
  | nil => exact fun _ _ => rfl
  | cons s sections ih =>
    intro k h
    have hfirst := h 0 (by simp)
    have hrest := ih (k + 1) fun j hj => by
      have hnext := h (j + 1) (by simpa using hj)
      rwa [← Nat.add_assoc, Nat.add_right_comm] at hnext
    simp only [Nat.add_zero, List.getElem_cons_zero] at hfirst
    simp only [List.length_cons, readSections, bind, Except.bind, hfirst, hrest]

/-- The two bytes of the number of sections. -/
theorem numSections_eq (c : Coff) (hhigh : c.sections.length ≤ 10) {headers : Nat → UInt8}
    (h₂ : headers 2 = c.header 2) (h₃ : headers 3 = c.header 3) :
    bytesToUnsignedShort headers 2 = BitVec.ofNat 32 c.sections.length := by
  have hall : ∀ n < 11, (((UInt8.ofNat n).toBitVec.setWidth 16 |||
      (0 : UInt8).toBitVec.setWidth 16 <<< 8).signExtend 32 &&& 0xFFFF : BitVec 32) =
        BitVec.ofNat 32 n := by
    decide
  exact (bytesToUnsignedShort_eq h₂ h₃).trans (hall _ (by omega))

/-- The section headers are where the constructor looks for them. -/
theorem WellFormed.readSections_image {c : Coff} (h : c.WellFormed) :
    readSections c.image (BitVec.ofNat 32 headerLength + 28) 0 c.sections.length =
      .ok c.sections := by
  have hhigh := h.le_ten
  have hstart : (BitVec.ofNat 32 headerLength + 28).toInt = 48 := rfl
  refine readSections_eq 0 fun j hj => ?_
  obtain ⟨file, hfile⟩ := h.sections _ (List.getElem_mem hj)
  have hoffset : (BitVec.ofNat 32 headerLength + 28 +
      BitVec.ofNat 32 ((0 + j) * Section.headerLength)).toInt = (48 + j * 40 : Nat) := by
    have hj' : (0 + j) * Section.headerLength = j * 40 := by rw [Nat.zero_add]; rfl
    rw [hj', toInt_add_ofNat (by decide) (by omega), hstart]
    omega
  refine (wellFormed_image hfile c).ofFile_eq (by omega) ?_ fun i hi => ?_
  · rw [hoffset, fileLength_image, Section.headerLength]
    omega
  · -- the byte is in the header number `j` of the image
    rw [hoffset, Int.toNat_natCast]
    simp only [Section.headerLength] at hi
    have hindex : (48 + j * 40 + i - 48) / 40 = j := by omega
    have hplace : (48 + j * 40 + i - 48) % 40 = i := by omega
    simp only [image, hindex, hplace, List.getElem?_eq_getElem hj]
    rw [if_neg (by omega)]

/-- What is written is read. -/
theorem WellFormed.ofFile_image {c : Coff} (h : c.WellFormed) : ofFile c.image = .ok c := by
  have hlow := h.two_le
  have hhigh := h.le_ten
  rw [ofFile, if_neg (by rw [fileLength_image]; decide),
    strictReadFile_eq (by decide) (by rw [fileLength_image]; decide)]
  simp only [bind, Except.bind]
  have hbuf (i : Nat) (hi : i < 48) : c.image.read (0 : BitVec 32).toInt
      (headerLength + aoutHeaderLength) (fun _ => 0) 0 i = c.header i := by
    have hlength : (0 : BitVec 32).toInt + (headerLength + aoutHeaderLength : Nat) ≤
        c.image.length := by
      show (0 : Int) + (48 : Nat) ≤ (2 ^ 31 - 1 : Nat)
      decide
    rw [read_eq (by decide) hlength hi, show (0 : BitVec 32).toInt.toNat + i = i from Nat.zero_add i]
    exact if_pos hi
  generalize c.image.read (0 : BitVec 32).toInt (headerLength + aoutHeaderLength) (fun _ => 0) 0 =
    headers at hbuf ⊢
  have hmagic : bytesToUnsignedShort headers 0 = 0x0162 :=
    bytesToUnsignedShort_eq (show headers 0 = 0x62 from hbuf 0 (by omega))
      (show headers 1 = 1 from hbuf 1 (by omega))
  have hnum : bytesToUnsignedShort headers 2 = BitVec.ofNat 32 c.sections.length :=
    c.numSections_eq hhigh (hbuf 2 (by omega)) (hbuf 3 (by omega))
  have hoptional : bytesToUnsignedShort headers 16 = 28 :=
    bytesToUnsignedShort_eq (show headers 16 = 28 from hbuf 16 (by omega))
      (show headers 17 = 0 from hbuf 17 (by omega))
  have hflags : bytesToUnsignedShort headers 18 = 3 :=
    bytesToUnsignedShort_eq (show headers 18 = 3 from hbuf 18 (by omega))
      (show headers 19 = 0 from hbuf 19 (by omega))
  have hentry : Processor.bytesToInt headers (headerLength + 16) 4 = c.entryPoint := by
    refine bytesToInt_eq fun i hi => ?_
    rw [hbuf _ (by simp only [headerLength]; omega), headerLength, header, if_neg (by omega),
      if_neg (by omega), if_neg (by omega), if_neg (by omega), if_neg (by omega),
      if_pos (by omega), Nat.add_sub_cancel_left]
  have htoNat : (BitVec.ofNat 32 c.sections.length).toNat = c.sections.length := by
    rw [BitVec.toNat_ofNat]
    omega
  have htoInt : (BitVec.ofNat 32 c.sections.length).toInt = c.sections.length := by
    rw [BitVec.toInt_eq_toNat_of_lt (by omega), htoNat]
  rw [hmagic, hnum, hoptional, hflags, hentry, htoNat, htoInt, if_neg (by decide),
    if_neg (by omega), if_neg (by decide), h.readSections_image]

/-- The constructor gives the executables in order and no others, and each of them can be
    written to a file from which it is read back. -/
theorem ofFile_eq_ok_iff (c : Coff) : (ofFile c.image = .ok c ↔ c.WellFormed) ∧
    ((∃ file, ofFile file = .ok c) ↔ c.WellFormed) := by
  have hread : (∃ file, ofFile file = .ok c) → c.WellFormed := by
    rintro ⟨file, hfile⟩
    rcases ofFile_wellFormed file with hstop | ⟨c', hc', hlow, hhigh, hall⟩
    · rw [hstop] at hfile
      cases hfile
    · rw [hc', Except.ok.injEq] at hfile
      subst hfile
      exact ⟨hlow, hhigh, fun s hs => ⟨file, hall s hs⟩⟩
  exact ⟨⟨fun h => hread ⟨_, h⟩, fun h => h.ofFile_image⟩,
    ⟨hread, fun h => ⟨_, h.ofFile_image⟩⟩⟩

end Coff

/-! ## Loading -/

namespace Section

/-- The pages of a section, when their number is no overflow. -/
theorem divRoundUp_eq {size : BitVec 32} (h : size.toNat + 1023 < 2 ^ 31) :
    (divRoundUp size 0x400).toInt = ((size.toNat + 1023) / 1024 : Nat) := by
  have hsize : size.toInt = size.toNat := BitVec.toInt_eq_toNat_of_lt (by omega)
  have hsum : (size + BitVec.ofNat 32 1023).toInt = size.toInt + (1023 : Nat) :=
    toInt_add_ofNat (by omega) (by omega)
  rw [divRoundUp, BitVec.toInt_sdiv_of_ne_or_ne _ _ (Or.inr (by decide)),
    show (0x400 - 1 : BitVec 32) = BitVec.ofNat 32 1023 from rfl, hsum,
    show (0x400 : BitVec 32).toInt = 1024 from rfl, Int.tdiv_eq_ediv_of_nonneg (by omega)]
  omega

/-- The number of pages of a section that is too large is negative. -/
theorem divRoundUp_neg {size : BitVec 32} (hsize : size.toNat < 2 ^ 31)
    (h : 2 ^ 31 ≤ size.toNat + 1023) : (divRoundUp size 0x400).toInt < 0 := by
  have hsum : (size + BitVec.ofNat 32 1023).toInt = -(2 ^ 32 - size.toNat - 1023 : Int) := by
    rw [BitVec.toInt_eq_toNat_cond, BitVec.toNat_add, BitVec.toNat_ofNat]
    split <;> omega
  rw [divRoundUp, BitVec.toInt_sdiv_of_ne_or_ne _ _ (Or.inr (by decide)),
    show (0x400 - 1 : BitVec 32) = BitVec.ofNat 32 1023 from rfl, hsum,
    show (0x400 : BitVec 32).toInt = 1024 from rfl, Int.neg_tdiv,
    Int.tdiv_eq_ediv_of_nonneg (by omega)]
  omega

variable {file : HostFile} {s : Section} {numPhysPages : Nat}

/-- The loaders count the pages as the constructor does, unless its sum overflows. -/
theorem WellFormed.numPages_eq (h : s.WellFormed file) (hsize : s.size.toNat + 1023 < 2 ^ 31) :
    s.numPages.toInt = (s.toCoffSection file).numPages :=
  h.numPages ▸ divRoundUp_eq hsize

/-- `loadPage` does not fail for a page of the section if the file has its bytes. -/
theorem loadPage_iff {spn : Nat} (hspn : spn < (s.toCoffSection file).numPages) {ppn : Int}
    (hppn : 0 ≤ ppn ∧ ppn < numPhysPages) (memory : Nat → UInt8) :
    (∃ memory', UserProcess.loadPage numPhysPages file.length (s.toCoffSection file) spn ppn memory =
      .ok memory') ↔ (s.toCoffSection file).initlen spn = 0 ∨
        s.contentOffset.toNat + spn * pageSize + (s.toCoffSection file).initlen spn ≤
          file.length := by
  have hcontents : (s.toCoffSection file).contentOffset = s.contentOffset.toNat := rfl
  simp only [UserProcess.loadPage, hspn, not_true, if_false, hcontents]
  rw [if_neg (by omega)]
  split
  · rename_i hshort
    constructor
    · rintro ⟨memory', h⟩
      cases h
    · intro h
      omega
  · rename_i hfits
    exact ⟨fun _ => by omega, fun _ => ⟨_, rfl⟩⟩

/-- The pages of a section of the file, as `loadSections` counts them. -/
def Loads (numPhysPages : Nat) (file : HostFile) (s : Section) : Prop :=
  ∀ (spn : Nat) (ppn : Int) (memory : Nat → UInt8), (spn : Int) < s.numPages.toInt →
    0 ≤ ppn → ppn < numPhysPages →
    ∃ memory', UserProcess.loadPage numPhysPages file.length (s.toCoffSection file) spn ppn memory =
      .ok memory'

/-- The bytes of a section are in the file, or `loadPage` does not read them. -/
theorem WellFormed.loads_iff (h : s.WellFormed file) (hlength : file.length + pageSize < 2 ^ 31)
    (hpages : 0 < numPhysPages) : s.Loads numPhysPages file ↔
      s.initialized = false ∨ s.size = 1024 ∨ s.contentOffset.toNat + s.size.toNat < 2 ^ 31 ∨
        2 ^ 31 ≤ s.size.toNat + 1023 := by
  have hsize : s.size.toNat < 2 ^ 31 := by
    have := BitVec.toInt_pos_iff.mp h.size_nonneg
    omega
  have hnum : (s.toCoffSection file).numPages = (s.size.toNat + 1023) / 1024 := rfl
  have hinit (spn : Nat) : (s.toCoffSection file).initlen spn =
      if s.initialized = false then 0
      else if spn + 1 = (s.size.toNat + 1023) / 1024 then s.size.toNat % 1024 else 1024 := by
    show (if (!s.initialized) = true then 0
      else if spn + 1 = (s.size.toNat + 1023) / 1024 then s.size.toNat % 1024 else 1024) = _
    cases s.initialized <;> rfl
  simp only [pageSize] at hlength
  by_cases hlarge : 2 ^ 31 ≤ s.size.toNat + 1023
  · -- no page is loaded
    have hneg := divRoundUp_neg hsize hlarge
    rw [← h.numPages] at hneg
    refine ⟨fun _ => .inr (.inr (.inr hlarge)), fun _ spn ppn memory hspn => ?_⟩
    omega
  have hcount := h.numPages_eq (by omega)
  have hpage {spn : Nat} (hspn : (spn : Int) < s.numPages.toInt) :
      spn < (s.toCoffSection file).numPages := by omega
  have hone : s.size = 1024 ↔ s.size.toNat = 1024 := by
    rw [← BitVec.toNat_inj]
    rfl
  constructor
  · intro hloads
    by_contra hnot
    simp only [not_or, hone] at hnot
    obtain ⟨hinitialized, hsize', hend, -⟩ := hnot
    have hcontents := h.contents (by simpa using hinitialized)
    have hoffset := BitVec.toInt_pos_iff.mp hcontents.1
    -- the last page of which `loadPage` reads something ends where the file does not reach
    obtain ⟨spn, hspn, hlast⟩ : ∃ spn : Nat, (spn : Int) < s.numPages.toInt ∧
        ((s.size.toNat % 1024 ≠ 0 ∧ spn + 1 = (s.size.toNat + 1023) / 1024) ∨
          (s.size.toNat % 1024 = 0 ∧ spn + 2 = (s.size.toNat + 1023) / 1024)) := by
      by_cases hmod : s.size.toNat % 1024 = 0
      · exact ⟨(s.size.toNat + 1023) / 1024 - 2, by omega, .inr ⟨hmod, by omega⟩⟩
      · exact ⟨(s.size.toNat + 1023) / 1024 - 1, by omega, .inl ⟨hmod, by omega⟩⟩
    have hread := (loadPage_iff (hpage hspn) (show (0 : Int) ≤ 0 ∧ (0 : Int) < numPhysPages by omega)
      fun _ => 0).mp
      (hloads spn 0 _ hspn (by omega) (by omega))
    rw [hinit, if_neg hinitialized, pageSize] at hread
    split at hread <;> omega
  · intro hfits spn ppn memory hspn hppn hlt
    rw [loadPage_iff (hpage hspn) ⟨hppn, hlt⟩, hinit, pageSize]
    by_cases hinitialized : s.initialized = false
    · exact .inl (if_pos hinitialized)
    have hcontents := h.contents (by simpa using hinitialized)
    have hoffset := BitVec.toInt_pos_iff.mp hcontents.1
    rw [if_neg hinitialized]
    rcases hfits with hfits | hfits | hfits | hfits
    · exact absurd hfits hinitialized
    · -- the length of the last page is 0, and this is the only page
      rw [hone] at hfits
      left
      rw [if_pos (by omega), hfits]
    · have hsum : (s.contentOffset + s.size).toInt =
          (s.contentOffset.toNat + s.size.toNat : Nat) := by
        rw [BitVec.toInt_eq_toNat_cond, BitVec.toNat_add]
        split <;> omega
      have hle := fileLength_le file
      right
      split <;> omega
    · exact absurd hfits hlarge

end Section

/-- A section of an executable that was accepted can be loaded unless its end, as an `int`, is
    negative: then `loadPage` reads past the end of the file, and an assertion fails. A section
    of one page is safe, since `loadPage` takes the length of a full last page to be 0. -/
theorem ofFile_loads_iff {file : HostFile} {c : Coff} (hfile : Coff.ofFile file = .ok c)
    {s : Section} (hs : s ∈ c.sections) (hlength : file.length + pageSize < 2 ^ 31)
    {numPhysPages : Nat} (hpages : 0 < numPhysPages) : s.Loads numPhysPages file ↔
      s.initialized = false ∨ s.size = 1024 ∨ s.contentOffset.toNat + s.size.toNat < 2 ^ 31 ∨
        2 ^ 31 ≤ s.size.toNat + 1023 := by
  rcases Coff.ofFile_wellFormed file with hstop | ⟨c', hc', -, -, hall⟩
  · rw [hstop] at hfile
    cases hfile
  · rw [hc', Except.ok.injEq] at hfile
    exact (hall s (hfile ▸ hs)).loads_iff hlength hpages

/-- An executable of 128 bytes, with a code section that starts at `0x7FFFF000`. -/
def overlong : HostFile where
  length := 128
  bytes
    | 0 => 0x62 | 1 => 0x01 | 2 => 2 | 16 => 28 | 18 => 3
    -- `size`, `contentOffset` and `flags` of the code, `vaddr` and `flags` of the other section
    | 65 => 0x20 | 69 => 0xF0 | 70 => 0xFF | 71 => 0x7F | 84 => 0x20
    | 101 => 0x20 | 124 => 0x80
    | _ => 0

theorem ofFile_overlong : Coff.ofFile overlong = .ok ⟨0,
    [⟨true, true, true, 0x2000, 0x7FFFF000, 8, 0⟩, ⟨false, false, false, 0, 0, 0, 8⟩]⟩ := by
  decide +kernel

theorem ofFile_loads_iff_overlong : ∃ c, Coff.ofFile overlong = .ok c ∧
    ∃ s ∈ c.sections, ¬ s.Loads 1 overlong := by
  refine ⟨_, ofFile_overlong, _, List.mem_cons_self, fun hloads => ?_⟩
  have h := (ofFile_loads_iff ofFile_overlong List.mem_cons_self (by decide) (by decide)).mp hloads
  revert h
  decide

end CoffFormat

end Nachos
