import Coursework.Nachos.Spec.Arguments
import Coursework.Nachos.SystemCalls

/-!
# Strings in the memory of a process

`readVirtualMemoryString` asks for all of its `maxLength+1` bytes at once. A copy that runs past
the last page reports no bytes, so a string in the last page is found only if the whole range
is in the page table.
-/

namespace Nachos

/-- The bytes before the first 0, by their places. -/
theorem terminated_eq_some {bytes : List UInt8} :
    ∀ {s : List UInt8}, terminated bytes = some s ↔
      (∀ (i : Nat) (b : UInt8), s[i]? = some b → b ≠ 0 ∧ bytes[i]? = some b) ∧
        bytes[s.length]? = some 0 := by
  induction bytes with
  | nil =>
    intro s
    simp [terminated]
  | cons c bytes ih =>
    intro s
    unfold terminated
    by_cases hc : c = 0
    · -- the string ends here
      rw [if_pos hc]
      constructor
      · intro h
        obtain rfl := Option.some.inj h
        exact ⟨nofun, by rw [hc]; rfl⟩
      · rintro ⟨hs, -⟩
        cases s with
        | nil => rfl
        | cons b s =>
          have hfirst := hs 0 b rfl
          obtain rfl : c = b := Option.some.inj hfirst.2
          exact absurd hc hfirst.1
    · rw [if_neg hc, Option.map_eq_some_iff]
      constructor
      · rintro ⟨s', h, rfl⟩
        obtain ⟨hs, hend⟩ := ih.mp h
        refine ⟨fun i b hi => ?_, hend⟩
        cases i with
        | zero =>
          obtain rfl := Option.some.inj hi
          exact ⟨hc, rfl⟩
        | succ i => exact hs i b hi
      · rintro ⟨hs, hend⟩
        cases s with
        | nil => exact absurd (Option.some.inj hend) hc
        | cons b s =>
          obtain rfl : c = b := Option.some.inj (hs 0 b rfl).2
          exact ⟨s, ih.mpr ⟨fun i b hi => hs (i + 1) b hi, hend⟩, rfl⟩

theorem terminated_eq_none {bytes : List UInt8} : terminated bytes = none ↔ 0 ∉ bytes := by
  induction bytes with
  | nil => simp [terminated]
  | cons c bytes ih =>
    unfold terminated
    by_cases hc : c = 0
    · simp [hc]
    · rw [if_neg hc, Option.map_eq_none_iff, ih, List.mem_cons, not_or]
      exact ⟨fun h => ⟨fun h0 => hc h0.symm, h⟩, fun h => h.2⟩

namespace UserProcess

variable {numPhysPages : Nat} {pageTable : List TranslationEntry}

/-- `s` is the string at this address: its bytes and the 0 after them are mapped, and no byte of
    it is 0. -/
structure IsString (pageTable : List TranslationEntry) (memory : Nat → UInt8)
    (vaddr maxLength : Int) (s : List UInt8) : Prop where
  length : s.length ≤ maxLength
  bytes : ∀ (i : Nat) (b : UInt8), s[i]? = some b →
    b ≠ 0 ∧ byteAt pageTable memory (toUnsigned (vaddr + i)) = some b
  zero : byteAt pageTable memory (toUnsigned (vaddr + s.length)) = some 0

/-- The call returns the string at this address if there is one, and null otherwise. -/
def FindsString (numPhysPages : Nat) (pageTable : List TranslationEntry) (memory : Nat → UInt8)
    (vaddr maxLength : Int) : Prop :=
  ∃ r, readString numPhysPages pageTable memory vaddr maxLength = .ok r ∧
    ∀ s, r = some s ↔ IsString pageTable memory vaddr maxLength s

/-- No byte from this address on, as far as they are mapped, is 0. -/
def Unterminated (pageTable : List TranslationEntry) (memory : Nat → UInt8)
    (vaddr maxLength : Int) : Prop :=
  ∀ k : Nat, k ≤ maxLength →
    (∀ i : Nat, i ≤ k → (byteAt pageTable memory (toUnsigned (vaddr + i))).isSome) →
    byteAt pageTable memory (toUnsigned (vaddr + k)) ≠ some 0

/-- The whole range of `maxLength+1` bytes is in the pages, and passes the limit on the address. -/
def WholeRange (pageTable : List TranslationEntry) (vaddr maxLength : Int) : Prop :=
  0 ≤ vaddr ∧ vaddr < (pageTable.length * (pageSize - 1) : Nat) ∧
    vaddr + maxLength + 1 ≤ (pageTable.length * pageSize : Nat)

/-- There is no string where no mapped byte is 0, and only there. -/
theorem unterminated_iff {memory : Nat → UInt8} {vaddr maxLength : Int} :
    Unterminated pageTable memory vaddr maxLength ↔
      ∀ s, ¬ IsString pageTable memory vaddr maxLength s := by
  constructor
  · intro h s hs
    refine h s.length hs.length (fun i hi => ?_) hs.zero
    by_cases hlt : i < s.length
    · rw [(hs.bytes i _ (List.getElem?_eq_getElem hlt)).2]
      rfl
    · obtain rfl : i = s.length := by omega
      rw [hs.zero]
      rfl
  · intro h k hk hmapped hzero
    -- the bytes before the first 0, of the `k + 1` that are mapped
    have hlist : ∃ bytes : List UInt8, bytes.length = k + 1 ∧
        ∀ i ≤ k, bytes[i]? = byteAt pageTable memory (toUnsigned (vaddr + i)) := by
      refine ⟨(List.range (k + 1)).map fun i : Nat =>
        (byteAt pageTable memory (toUnsigned (vaddr + i))).getD 0,
        by simp, fun i hi => ?_⟩
      obtain ⟨b, hb⟩ := Option.isSome_iff_exists.mp (hmapped i hi)
      simp [show i < k + 1 by omega, hb]
    obtain ⟨bytes, hlen, hbytes⟩ := hlist
    cases hs : terminated bytes with
    | some s =>
      obtain ⟨hin, hend⟩ := terminated_eq_some.mp hs
      have hle : s.length < bytes.length := (List.getElem?_eq_some_iff.mp hend).1
      refine h s ⟨by omega, fun i b hi => ?_, ?_⟩
      · have hlt : i < s.length := (List.getElem?_eq_some_iff.mp hi).1
        rw [← hbytes i (by omega)]
        exact hin i b hi
      · rw [← hbytes s.length (by omega)]
        exact hend
    | none =>
      have hk0 : bytes[k]? = some 0 := (hbytes k (Nat.le_refl k)).trans hzero
      exact terminated_eq_none.mp hs (List.mem_of_getElem? hk0)

theorem readString_eq {memory : Nat → UInt8} {vaddr maxLength : Int} (hmax : 0 ≤ maxLength)
    (hsize : maxLength + 1 < 2 ^ 31) :
    readString numPhysPages pageTable memory vaddr maxLength =
      (readVirtualMemory numPhysPages pageTable memory vaddr
        (List.replicate (maxLength + 1).toNat 0) 0 (maxLength + 1)).bind
        fun r => .ok (terminated (r.2.take r.1)) := by
  have hwrap : wrap32 (maxLength + 1) = maxLength + 1 := by
    unfold wrap32
    rw [Int.bmod_def]
    omega
  unfold readString
  rw [if_neg (by omega)]
  simp only [hwrap]
  rw [if_neg (by omega)]
  rfl

/-- The method that the handlers call. -/
theorem readVirtualMemoryString_eq {s : Machine} {p : Nat} {image : Image}
    (h : s.process p = some image) (vaddr : Int) {maxLength : Nat}
    (hsize : maxLength + 1 < 2 ^ 31) :
    userProcess.readVirtualMemoryString s p vaddr maxLength =
      (readString s.frames.numPhysPages image.pageTable s.frames.memory vaddr maxLength).map
        (·, s) := by
  rw [readString_eq (Int.natCast_nonneg maxLength) (by exact_mod_cast hsize)]
  simp only [ProcessClass.readVirtualMemoryString, userProcess, h]
  have hcast : ((maxLength : Int) + 1) = ((maxLength + 1 : Nat) : Int) := rfl
  rw [hcast, Int.toNat_natCast]
  cases readVirtualMemory s.frames.numPhysPages image.pageTable s.frames.memory vaddr
    (List.replicate (maxLength + 1) 0) 0 ((maxLength + 1 : Nat) : Int) with
  | error e => rfl
  | ok r => rfl

/-- A range that is in the pages is searched as a whole. -/
theorem findsString_of_wholeRange (hm : Mapped numPhysPages pageTable)
    (hint : pageTable.length * pageSize < 2 ^ 31) (memory : Nat → UInt8) {vaddr maxLength : Int}
    (hmax : 0 ≤ maxLength) (hsize : maxLength + 1 < 2 ^ 31)
    (hwhole : WholeRange pageTable vaddr maxLength) :
    FindsString numPhysPages pageTable memory vaddr maxLength := by
  obtain ⟨hpos, hlimit, hend⟩ := hwhole
  obtain ⟨v, rfl⟩ := Int.eq_ofNat_of_zero_le hpos
  obtain ⟨n, rfl⟩ := Int.eq_ofNat_of_zero_le hmax
  have hlen : (List.replicate (n + 1) (0 : UInt8)).length = n + 1 := List.length_replicate
  have hread : ReadWhole numPhysPages pageTable memory v (List.replicate (n + 1) 0) 0 (n + 1) :=
    readWhole_of_lt hm hint memory (by omega) (by omega) (by omega) (by omega)
  obtain ⟨bytes, hrun, hinto⟩ := hread
  -- what has been read is what the process has there
  have hbytes : ∀ i < n + 1, bytes[i]? = byteAt pageTable memory (toUnsigned ((v : Int) + i)) := by
    intro i hi
    have hadr : toUnsigned ((v : Int) + i) = v + i := by
      rw [← Int.natCast_add, toUnsigned_natCast (by omega)]
    obtain ⟨e, -, htr⟩ := translate_of_lt pageTable (x := v + i) (by omega)
    have hbyte := hinto.inside i (Nat.zero_le i) hi _ htr
    rw [Nat.zero_add] at hbyte
    rw [hbyte, hadr, byteAt, htr]
    rfl
  have hsize' : bytes.length = n + 1 := hinto.size.trans hlen
  refine ⟨terminated bytes, ?_, fun s => ?_⟩
  · rw [readString_eq (Int.natCast_nonneg n) hsize]
    have hcast : ((n : Int) + 1) = ((n + 1 : Nat) : Int) := rfl
    have hzero : ((0 : Nat) : Int) = 0 := rfl
    rw [hcast, Int.toNat_natCast, ← hzero, hrun]
    -- all of the range has been read, so the search is in the whole buffer
    show Except.ok (terminated (bytes.take (n + 1))) = _
    rw [← hsize', List.take_length]
  · -- a string that ends in the buffer is one of the process and the other way round: both are
    -- at the same bytes
    rw [terminated_eq_some]
    constructor
    · rintro ⟨hin, hend⟩
      have hlt : s.length < bytes.length := (List.getElem?_eq_some_iff.mp hend).1
      refine ⟨by omega, fun i b hi => ?_, ?_⟩
      · have his : i < s.length := (List.getElem?_eq_some_iff.mp hi).1
        rw [← hbytes i (by omega)]
        exact hin i b hi
      · rw [← hbytes s.length (by omega)]
        exact hend
    · intro hs
      have hle := hs.length
      refine ⟨fun i b hi => ?_, ?_⟩
      · have his : i < s.length := (List.getElem?_eq_some_iff.mp hi).1
        rw [hbytes i (by omega)]
        exact hs.bytes i b hi
      · rw [hbytes s.length (by omega)]
        exact hs.zero

/-- A range that is refused, or runs past the last page, gives null. -/
theorem readString_of_not_wholeRange (hm : Mapped numPhysPages pageTable)
    (hint : pageTable.length * pageSize < 2 ^ 31) (memory : Nat → UInt8) {vaddr maxLength : Int}
    (hvaddr : vaddr < 2 ^ 31) (hmax : 0 ≤ maxLength) (hsize : maxLength + 1 < 2 ^ 31)
    (hwhole : ¬ WholeRange pageTable vaddr maxLength) :
    readString numPhysPages pageTable memory vaddr maxLength = .ok none := by
  obtain ⟨n, rfl⟩ := Int.eq_ofNat_of_zero_le hmax
  have hcast : ((n : Int) + 1) = ((n + 1 : Nat) : Int) := rfl
  have hlen : (List.replicate (n + 1) (0 : UInt8)).length = n + 1 := List.length_replicate
  -- the read returns 0, and then no byte is searched
  have hnone : ∃ bytes, readVirtualMemory numPhysPages pageTable memory vaddr
      (List.replicate (n + 1) 0) 0 ((n + 1 : Nat) : Int) = .ok (0, bytes) := by
    by_cases hrefused : Refused pageTable vaddr 0 ((n + 1 : Nat) : Int) (n + 1)
    · exact ⟨_, readVirtualMemory_refused hint memory (by rw [hlen]; exact hrefused)⟩
    · obtain ⟨v, o, l, rfl, -, -⟩ := exists_of_not_refused hrefused
      have hbounds := bounds_of_not_refused (o := 0) hrefused
      -- the checks let the range through, so it runs past the last page
      have hend : ¬ v + (n + 1) ≤ pageTable.length * pageSize := by
        unfold WholeRange at hwhole
        unfold Refused at hrefused
        omega
      have hreach : reach pageTable v (n + 1) ≤ n + 1 := Nat.min_le_right _ _
      have hargs : IntArgs v (0 : Nat) (n + 1 : Nat) (List.replicate (n + 1) 0) :=
        ⟨hvaddr, by decide, by omega, by omega⟩
      obtain ⟨bytes, hrun, -⟩ := (readVirtualMemory_outcome hm hint memory hargs
        (by rw [hlen]; exact hrefused)).1 (by omega)
      rw [if_neg hend] at hrun
      exact ⟨bytes, hrun⟩
  obtain ⟨bytes, hrun⟩ := hnone
  rw [readString_eq hmax hsize, hcast, Int.toNat_natCast, hrun]
  rfl

/-- `readVirtualMemoryString` finds every terminated string exactly if the array it makes has a
    positive `int` length, and either the whole range of `maxLength+1` bytes is in the pages and
    passes the limit on the address, or there is no 0 to find. -/
theorem readString_finds_iff (hm : Mapped numPhysPages pageTable)
    (hmemory : numPhysPages * pageSize < 2 ^ 31) (memory : Nat → UInt8) {vaddr maxLength : Int}
    (hvaddr : vaddr < 2 ^ 31) (hmax : 0 ≤ maxLength) (hint : maxLength < 2 ^ 31) :
    FindsString numPhysPages pageTable memory vaddr maxLength ↔
      maxLength + 1 < 2 ^ 31 ∧ (WholeRange pageTable vaddr maxLength ∨
        Unterminated pageTable memory vaddr maxLength) := by
  have hpages := hm.size_lt hmemory
  by_cases hsize : maxLength + 1 < 2 ^ 31
  · by_cases hwhole : WholeRange pageTable vaddr maxLength
    · exact iff_of_true (findsString_of_wholeRange hm hpages memory hmax hsize hwhole)
        ⟨hsize, Or.inl hwhole⟩
    · have hrun := readString_of_not_wholeRange hm hpages memory hvaddr hmax hsize hwhole
      constructor
      · rintro ⟨r, hrun', hfinds⟩
        obtain rfl := Except.ok.inj (hrun.symm.trans hrun')
        exact ⟨hsize, Or.inr (unterminated_iff.mpr fun s hs => by cases (hfinds s).mpr hs)⟩
      · rintro ⟨-, hor⟩
        have hno := unterminated_iff.mp (hor.resolve_left hwhole)
        exact ⟨none, hrun, fun s => iff_of_false nofun (hno s)⟩
  · -- the array would have `-2 ^ 31` bytes
    obtain rfl : maxLength = 2 ^ 31 - 1 := by omega
    refine iff_of_false ?_ fun h => hsize h.1
    rintro ⟨r, hrun, -⟩
    have herror : readString numPhysPages pageTable memory vaddr (2 ^ 31 - 1) =
        .error .negativeArraySize := rfl
    rw [herror] at hrun
    cases hrun

/-- The string `hi` at address 3 of a page table with one page. -/
theorem readString_finds_hi :
    FindsString 1 (firstFrames 1) (fun a => if a = 3 then 104 else if a = 4 then 105 else 0) 3 7 ∧
      readString 1 (firstFrames 1) (fun a => if a = 3 then 104 else if a = 4 then 105 else 0) 3 7 =
        .ok (some [104, 105]) :=
  ⟨(readString_finds_iff (show Mapped 1 (firstFrames 1) from ⟨by decide, by decide⟩) (by decide)
      _ (by decide) (by decide) (by decide)).mpr
    ⟨by decide, Or.inl ⟨by decide, by decide, by decide⟩⟩, by decide +kernel⟩

/-- The string `a` is 14 bytes before the end of the last of ten pages, and `handleOpen` asks for
    up to 256 characters. -/
theorem string_not_found :
    ¬ FindsString 10 (firstFrames 10) (fun a => if a = 10226 then 97 else 0) 10226 256 := by
  rintro ⟨r, hrun, hfinds⟩
  have hnone : readString 10 (firstFrames 10) (fun a => if a = 10226 then 97 else 0) 10226 256 =
      .ok none := by decide +kernel
  obtain rfl := Except.ok.inj (hnone.symm.trans hrun)
  have hstring : IsString (firstFrames 10) (fun a => if a = 10226 then 97 else 0) 10226 256 [97] := by
    refine ⟨by decide, fun i b hi => ?_, by decide⟩
    cases i with
    | zero =>
      obtain rfl := Option.some.inj hi
      exact ⟨by decide, by decide⟩
    | succ i => cases hi
  cases (hfinds [97]).mpr hstring

end UserProcess

end Nachos
