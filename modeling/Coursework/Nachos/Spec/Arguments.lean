import Coursework.ForStd.Except
import Coursework.Nachos.UserLoad
import Coursework.Nachos.Spec.CopyLength

/-!
# Program arguments

What a program finds at `argv` after `load`. The table of pointers and the strings are in the
last page, which has `pageSize` bytes, and `load` checks that they fit; but `writeVirtualMemory`
refuses the last bytes of that page, one for each page of the process.
-/

namespace Nachos

namespace UserProcess

variable {numPhysPages : Nat} {pageTable : List TranslationEntry}

/-! ## What a program reads -/

/-- The byte at a virtual address. -/
def byteAt (pageTable : List TranslationEntry) (memory : Nat → UInt8) (vaddr : Nat) :
    Option UInt8 :=
  (translate pageTable vaddr).map memory

/-- The word at a virtual address, the lowest byte first. -/
def wordAt (byteAt : Nat → Option UInt8) (vaddr : Nat) : Option Nat := do
  let b₀ ← byteAt vaddr
  let b₁ ← byteAt (vaddr + 1)
  let b₂ ← byteAt (vaddr + 2)
  let b₃ ← byteAt (vaddr + 3)
  return b₀.toNat + 2 ^ 8 * b₁.toNat + 2 ^ 16 * b₂.toNat + 2 ^ 24 * b₃.toNat

/-- The bytes up to the first 0, if it is one of the next `limit` bytes. -/
def stringAt (byteAt : Nat → Option UInt8) : Nat → Nat → Option (List UInt8)
  | 0, _ => none
  | limit + 1, vaddr =>
    match byteAt vaddr with
    | none => none
    | some b => if b = 0 then some [] else (stringAt byteAt limit (vaddr + 1)).map (b :: ·)

/-- The strings that the next `argc` words point to. -/
def argumentsAt (byteAt : Nat → Option UInt8) : Nat → Nat → Option (List (List UInt8))
  | 0, _ => some []
  | argc + 1, argv => do
    let pointer ← wordAt byteAt argv
    let arg ← stringAt byteAt pageSize pointer
    let rest ← argumentsAt byteAt argc (argv + 4)
    return arg :: rest

/-- The pointers at `e` and the strings at `s`, each with its terminator. -/
def Stored (byteAt : Nat → Option UInt8) : Nat → Nat → List (List UInt8) → Prop
  | _, _, [] => True
  | e, s, arg :: rest =>
    (∀ i < 4, byteAt (e + i) = (bytesFromInt (BitVec.ofNat 32 s))[i]?) ∧
      (∀ i < arg.length + 1, byteAt (s + i) = (arg ++ [0])[i]?) ∧
      Stored byteAt (e + 4) (s + arg.length + 1) rest

/-- The bytes of the strings with their terminators. -/
def stringsSize (args : List (List UInt8)) : Nat := (args.map fun arg => arg.length + 1).sum

/-- The bytes of the arguments: a pointer and a string with its terminator for each. -/
def totalSize (args : List (List UInt8)) : Nat := (args.map fun arg => 4 + arg.length + 1).sum

@[simp] theorem stringsSize_cons (arg : List UInt8) (rest : List (List UInt8)) :
    stringsSize (arg :: rest) = arg.length + 1 + stringsSize rest := rfl

@[simp] theorem totalSize_cons (arg : List UInt8) (rest : List (List UInt8)) :
    totalSize (arg :: rest) = 4 + arg.length + 1 + totalSize rest := rfl

theorem totalSize_eq (args : List (List UInt8)) :
    totalSize args = 4 * args.length + stringsSize args := by
  induction args with
  | nil => rfl
  | cons arg rest ih =>
    rw [totalSize_cons, stringsSize_cons, List.length_cons]
    omega

/-- `argsSize` does not overflow for arguments that fit in a page. -/
theorem argsSize_eq {args : List (List UInt8)} :
    ∀ {size : Nat}, size + totalSize args < 2 ^ 31 → argsSize args size = size + totalSize args := by
  induction args with
  | nil =>
    intro size _
    rfl
  | cons arg rest ih =>
    intro size hsize
    rw [totalSize_cons] at hsize ⊢
    have hcast : (size : Int) + (4 + arg.length + 1) =
        ((size + (4 + arg.length + 1) : Nat) : Int) := by
      push_cast
      rfl
    rw [argsSize, hcast, wrap32_natCast (by omega), ih (by omega)]
    push_cast
    omega

/-- The word that `Lib.bytesFromInt` wrote. -/
theorem wordAt_eq {byteAt : Nat → Option UInt8} {e s : Nat} (hs : s < 2 ^ 32)
    (h : ∀ i < 4, byteAt (e + i) = (bytesFromInt (BitVec.ofNat 32 s))[i]?) :
    wordAt byteAt e = some s := by
  have h₀ := h 0 (by decide)
  have h₁ := h 1 (by decide)
  have h₂ := h 2 (by decide)
  have h₃ := h 3 (by decide)
  rw [Nat.add_zero] at h₀
  simp only [wordAt, h₀, h₁, h₂, h₃, bytesFromInt, List.map_cons, List.getElem?_cons_zero,
    List.getElem?_cons_succ, Option.bind_eq_bind, Option.bind_some, Option.pure_def]
  congr 1
  simp only [UInt8.toNat_ofBitVec, BitVec.toNat_setWidth, BitVec.toNat_ushiftRight,
    BitVec.toNat_ofNat, Nat.shiftRight_eq_div_pow]
  omega

/-- A string without 0 is read up to its terminator. -/
theorem stringAt_eq {byteAt : Nat → Option UInt8} {arg : List UInt8} (hnul : 0 ∉ arg) :
    ∀ {limit s : Nat}, arg.length < limit →
    (∀ i < arg.length + 1, byteAt (s + i) = (arg ++ [0])[i]?) →
    stringAt byteAt limit s = some arg := by
  induction arg with
  | nil =>
    intro limit s hlimit h
    obtain ⟨limit, rfl⟩ := Nat.exists_eq_add_of_lt hlimit
    have h₀ : byteAt s = some 0 := h 0 (by decide)
    simp [stringAt, h₀]
  | cons b rest ih =>
    intro limit s hlimit h
    obtain ⟨limit, rfl⟩ := Nat.exists_eq_succ_of_ne_zero (Nat.ne_zero_of_lt hlimit)
    have h₀ : byteAt s = some b := h 0 (by simp)
    have hb : b ≠ 0 := by
      intro hb
      exact hnul (hb ▸ List.mem_cons_self)
    have hrest : stringAt byteAt limit (s + 1) = some rest := by
      apply ih (fun hmem => hnul (List.mem_cons_of_mem b hmem)) (by simpa using hlimit)
      intro i hi
      have hbyte := h (i + 1) (by simpa using hi)
      rw [Nat.add_assoc, Nat.add_comm 1 i, hbyte]
      rfl
    simp [stringAt, h₀, hb, hrest]

/-- A program reads back the arguments that are stored. -/
theorem argumentsAt_eq {byteAt : Nat → Option UInt8} {args : List (List UInt8)} :
    ∀ {e s : Nat}, (∀ arg ∈ args, 0 ∉ arg) → s + stringsSize args < 2 ^ 32 →
    stringsSize args ≤ pageSize → Stored byteAt e s args →
    argumentsAt byteAt args.length e = some args := by
  induction args with
  | nil =>
    intro e s _ _ _ _
    rfl
  | cons arg rest ih =>
    intro e s hnul hs hsize h
    obtain ⟨hpointer, hstring, hrest⟩ := h
    rw [stringsSize_cons] at hs hsize
    have hone := stringAt_eq (hnul arg List.mem_cons_self) (show arg.length < pageSize by omega)
      hstring
    have hothers := ih (fun a ha => hnul a (List.mem_cons_of_mem arg ha)) (by omega) (by omega) hrest
    simp [argumentsAt, wordAt_eq (by omega) hpointer, hone, hothers]

/-! ## Storing the arguments -/

/-- The bytes a program sees after a write, and those it saw before. -/
theorem byteAt_of_written (hm : Mapped numPhysPages pageTable) {v : Nat} {data : List UInt8}
    {memory memory' : Nat → UInt8} (hend : v + data.length ≤ pageTable.length * pageSize)
    (h : Written pageTable v 0 data 0 data.length memory memory') (x : Nat) :
    byteAt pageTable memory' x =
      if v ≤ x ∧ x < v + data.length then data[x - v]? else byteAt pageTable memory x := by
  split
  · rename_i hx
    obtain ⟨i, rfl⟩ := Nat.exists_eq_add_of_le hx.1
    have hi : i < data.length := by omega
    obtain ⟨e, -, htr⟩ := translate_of_lt pageTable (x := v + i) (by omega)
    have hbyte := h.inside i (Nat.zero_le i) hi _ htr
    rw [Nat.zero_add, List.getD_eq_getElem?_getD, List.getElem?_eq_getElem hi] at hbyte
    rw [byteAt, htr, Option.map_some, hbyte, Nat.add_sub_cancel_left, List.getElem?_eq_getElem hi]
    rfl
  · rename_i hx
    unfold byteAt
    cases htr : translate pageTable x with
    | none => rfl
    | some a =>
      -- an address outside the range has another physical address than those inside
      have hsame : memory' a = memory a := by
        apply h.outside
        intro i _ hi hvi
        have := translate_inj hm htr hvi
        omega
      rw [Option.map_some, Option.map_some, hsame]

theorem assertWritten_eq {memory memory' : Nat → UInt8} {v n : Nat} {data : List UInt8}
    (h : writeVirtualMemory numPhysPages pageTable memory v data 0 data.length = .ok (n, memory')) :
    assertWritten numPhysPages pageTable memory v data =
      if n = data.length then .ok memory' else .error .assertion := by
  unfold assertWritten
  rw [h]
  rfl

/-- `Lib.assertTrue` passes for a write below the limit on the address. -/
theorem assertWritten_ok (hm : Mapped numPhysPages pageTable)
    (hint : pageTable.length * pageSize < 2 ^ 31) (memory : Nat → UInt8) {v : Nat}
    {data : List UInt8} (hlimit : v < pageTable.length * (pageSize - 1))
    (hend : v + data.length ≤ pageTable.length * pageSize) :
    ∃ memory', assertWritten numPhysPages pageTable memory v data = .ok memory' ∧
      ∀ x, byteAt pageTable memory' x =
        if v ≤ x ∧ x < v + data.length then data[x - v]? else byteAt pageTable memory x := by
  obtain ⟨memory', hrun, hwritten⟩ := writtenWhole_of_lt hm hint memory hlimit hend
    (Nat.le_of_eq (Nat.zero_add data.length)) (by omega)
  refine ⟨memory', ?_, byteAt_of_written hm hend hwritten⟩
  rw [assertWritten_eq hrun, if_pos rfl]

/-- `Lib.assertTrue` fails for a write of at least one byte at the limit or above. -/
theorem lt_of_assertWritten (hint : pageTable.length * pageSize < 2 ^ 31)
    {memory memory' : Nat → UInt8} {v : Nat} {data : List UInt8} (hne : data ≠ [])
    (h : assertWritten numPhysPages pageTable memory v data = .ok memory') :
    v < pageTable.length * (pageSize - 1) := by
  by_contra hlimit
  have hrefused : Refused pageTable v 0 data.length data.length := by
    unfold Refused
    omega
  rw [assertWritten_eq (writeVirtualMemory_refused hint memory hrefused), if_neg] at h
  · cases h
  · intro hzero
    exact hne (List.length_eq_zero_iff.mp hzero.symm)

/-- What is stored does not depend on other bytes. -/
theorem Stored.congr {byteAt byteAt' : Nat → Option UInt8} {args : List (List UInt8)} :
    ∀ {e s : Nat}, (∀ x, e ≤ x → x < e + 4 * args.length → byteAt' x = byteAt x) →
    (∀ x, s ≤ x → x < s + stringsSize args → byteAt' x = byteAt x) →
    Stored byteAt e s args → Stored byteAt' e s args := by
  induction args with
  | nil =>
    intro e s _ _ _
    exact trivial
  | cons arg rest ih =>
    intro e s he hs h
    obtain ⟨hpointer, hstring, hrest⟩ := h
    rw [List.length_cons] at he
    rw [stringsSize_cons] at hs
    refine ⟨?_, ?_, ?_⟩
    · intro i hi
      rw [he (e + i) (by omega) (by omega)]
      exact hpointer i hi
    · intro i hi
      rw [hs (s + i) (by omega) (by omega)]
      exact hstring i hi
    · exact ih (fun x hx hx' => he x (by omega) (by omega))
        (fun x hx hx' => hs x (by omega) (by omega)) hrest

/-- The loop stores the arguments if the last byte is below the limit. The table of pointers
    ends where the strings begin. -/
theorem storeArguments_stored (hm : Mapped numPhysPages pageTable)
    (hint : pageTable.length * pageSize < 2 ^ 31) {args : List (List UInt8)} :
    ∀ {e s : Nat} {memory : Nat → UInt8}, e + 4 * args.length ≤ s →
    s + stringsSize args ≤ pageTable.length * (pageSize - 1) →
    ∃ memory', storeArguments numPhysPages pageTable args e s memory = .ok memory' ∧
      Stored (byteAt pageTable memory') e s args ∧
      ∀ x, ¬ (e ≤ x ∧ x < e + 4 * args.length) → ¬ (s ≤ x ∧ x < s + stringsSize args) →
        byteAt pageTable memory' x = byteAt pageTable memory x := by
  induction args with
  | nil =>
    intro e s memory _ _
    exact ⟨memory, rfl, trivial, fun _ _ _ => rfl⟩
  | cons arg rest ih =>
    intro e s memory he hs
    have hle : pageTable.length * (pageSize - 1) ≤ pageTable.length * pageSize :=
      Nat.mul_le_mul_left _ (Nat.sub_le _ _)
    rw [List.length_cons] at he
    rw [stringsSize_cons] at hs
    have hfour : (bytesFromInt (BitVec.ofNat 32 s)).length = 4 := rfl
    obtain ⟨memory₁, hrun₁, hbytes₁⟩ := assertWritten_ok hm hint memory
      (show e < pageTable.length * (pageSize - 1) by omega)
      (show e + (bytesFromInt (BitVec.ofNat 32 s)).length ≤ _ by omega)
    obtain ⟨memory₂, hrun₂, hbytes₂⟩ := assertWritten_ok hm hint memory₁
      (show s < pageTable.length * (pageSize - 1) by omega) (show s + arg.length ≤ _ by omega)
    obtain ⟨memory₃, hrun₃, hbytes₃⟩ := assertWritten_ok hm hint memory₂
      (show s + arg.length < pageTable.length * (pageSize - 1) by omega)
      (show s + arg.length + [(0 : UInt8)].length ≤ _ by rw [List.length_singleton]; omega)
    obtain ⟨memory', hrun, hstored, hframe⟩ := @ih (e + 4) (s + arg.length + 1) memory₃ (by omega)
      (by omega)
    rw [hfour] at hbytes₁
    rw [List.length_singleton] at hbytes₃
    refine ⟨memory', ?_, ⟨?_, ?_, hstored⟩, ?_⟩
    · rw [storeArguments, Except.bind_eq_ok]
      refine ⟨memory₁, hrun₁, Except.bind_eq_ok.mpr ⟨memory₂, hrun₂, ?_⟩⟩
      exact Except.bind_eq_ok.mpr ⟨memory₃, hrun₃, hrun⟩
    · -- the pointer
      intro i hi
      rw [hframe _ (by omega) (by omega), hbytes₃, if_neg (by omega), hbytes₂, if_neg (by omega),
        hbytes₁, if_pos (by omega), Nat.add_sub_cancel_left]
    · -- the string
      intro i hi
      rw [hframe _ (by omega) (by omega), hbytes₃]
      by_cases hlast : i = arg.length
      · subst hlast
        rw [if_pos (by omega), Nat.sub_self, List.getElem?_append_right (Nat.le_refl _),
          Nat.sub_self]
      · rw [if_neg (by omega), hbytes₂, if_pos (by omega), Nat.add_sub_cancel_left,
          List.getElem?_append_left (by omega)]
    · intro x hx hx'
      rw [List.length_cons] at hx
      rw [stringsSize_cons] at hx'
      rw [hframe x (by omega) (by omega), hbytes₃, if_neg (by omega), hbytes₂,
        if_neg (by omega), hbytes₁, if_neg (by omega)]

/-- If the loop passes its assertions, the last byte is below the limit. -/
theorem limit_of_storeArguments (hint : pageTable.length * pageSize < 2 ^ 31)
    {args : List (List UInt8)} (hne : args ≠ []) :
    ∀ {e s : Nat} {memory memory' : Nat → UInt8},
    storeArguments numPhysPages pageTable args e s memory = .ok memory' →
    s + stringsSize args ≤ pageTable.length * (pageSize - 1) := by
  induction args with
  | nil => exact absurd rfl hne
  | cons arg rest ih =>
    intro e s memory memory' h
    rw [storeArguments, Except.bind_eq_ok] at h
    obtain ⟨memory₁, -, h⟩ := h
    obtain ⟨memory₂, -, h⟩ := Except.bind_eq_ok.mp h
    obtain ⟨memory₃, hnul, h⟩ := Except.bind_eq_ok.mp h
    rw [stringsSize_cons]
    cases rest with
    | nil =>
      have hlast := lt_of_assertWritten hint (List.cons_ne_nil _ _) hnul
      have hnone : stringsSize [] = 0 := rfl
      omega
    | cons arg' rest =>
      have := ih (List.cons_ne_nil _ _) h
      omega

/-! ## Loading the sections -/

/-- The file has the bytes of a page of a section. -/
def PageInFile (fileLength : Nat) (s : CoffSection) (spn : Nat) : Prop :=
  s.initlen spn = 0 ∨ s.contentOffset + spn * pageSize + s.initlen spn ≤ fileLength

/-- The file has the bytes of all sections. The constructor of `CoffSection` checks it, unless
    `contentOffset+size` overflows. -/
def SectionsInFile (coff : Coff) : Prop :=
  ∀ s ∈ coff.sections, ∀ spn ∈ List.range s.numPages, PageInFile coff.fileLength s spn

/-- The pool has frames of the memory, each once. -/
structure FreePages (f : Frames) : Prop where
  inRange : ∀ page ∈ f.freePagesPool, 0 ≤ page ∧ page < f.numPhysPages
  nodup : f.freePagesPool.Nodup

/-- Contiguous sections are below the pages they add up to. -/
theorem coffPages_bounds {sections : List CoffSection} :
    ∀ {v n : Nat}, Kernel.coffPages v sections = some n →
    v ≤ n ∧ ∀ s ∈ sections, ∃ k : Nat, s.firstVPN = k ∧ k + s.numPages ≤ n := by
  induction sections with
  | nil =>
    intro v n h
    exact ⟨Nat.le_of_eq (Option.some.inj h), nofun⟩
  | cons s rest ih =>
    intro v n h
    rw [Kernel.coffPages] at h
    split at h
    · cases h
    · rename_i hfirst
      obtain ⟨hle, hrest⟩ := ih h
      refine ⟨by omega, ?_⟩
      intro s' hs'
      cases hs' with
      | head => exact ⟨v, not_not.mp hfirst, hle⟩
      | tail _ hs' => exact hrest s' hs'

theorem newPageTable_ppn (pages : List Int) :
    (newPageTable pages).map TranslationEntry.ppn = pages := by
  apply List.ext_getElem?
  intro i
  rw [newPageTable, List.getElem?_map, List.getElem?_mapIdx]
  cases pages[i]? <;> rfl

section Sections

variable {fileLength : Nat} {pages : List Int}

/-- The frames of a page table that is being filled. -/
def HasFrames (pages : List Int) (state : List TranslationEntry × (Nat → UInt8)) : Prop :=
  state.1.map TranslationEntry.ppn = pages

/-- Reading one page succeeds if the file has it, and keeps the frames. -/
theorem copyPage_spec (hpages : ∀ page ∈ pages, 0 ≤ page ∧ page < numPhysPages)
    {s : CoffSection} {k i : Nat} (hfirst : s.firstVPN = k) (hk : k + s.numPages ≤ pages.length)
    (hi : i < s.numPages) {state : List TranslationEntry × (Nat → UInt8)}
    (hstate : HasFrames pages state) :
    ((∃ state', copyPage numPhysPages fileLength s state i = .ok state') ↔
      PageInFile fileLength s i) ∧
    ∀ state', copyPage numPhysPages fileLength s state i = .ok state' → HasFrames pages state' := by
  have hlen : state.1.length = pages.length := by
    rw [← hstate, List.length_map]
  obtain ⟨entry, hget⟩ : ∃ entry, state.1[k + i]? = some entry :=
    ⟨_, List.getElem?_eq_getElem (show k + i < state.1.length by omega)⟩
  have hmem : entry.ppn ∈ pages := by
    rw [← hstate]
    exact List.mem_map_of_mem (List.mem_of_getElem? hget)
  obtain ⟨hppn, hppn'⟩ := hpages _ hmem
  have hvpn : (s.firstVPN + (i : Int)) = ((k + i : Nat) : Int) := by
    rw [hfirst]
    push_cast
    rfl
  have hrun : copyPage numPhysPages fileLength s state i =
      if 0 < s.initlen i ∧ fileLength < s.contentOffset + i * pageSize + s.initlen i then
        .error .assertion
      else .ok (state.1.set (k + i) { entry with readOnly := s.readOnly },
        blit state.2 (entry.ppn.toNat * pageSize) pageSize (s.pageByte i)) := by
    unfold copyPage
    dsimp only
    rw [hvpn, if_neg (by omega), Int.toNat_natCast, hget]
    dsimp only
    unfold loadPage
    rw [if_neg (not_not.mpr hi), if_neg (by omega)]
    split <;> rfl
  rw [hrun]
  unfold PageInFile
  refine ⟨⟨?_, ?_⟩, ?_⟩
  · rintro ⟨state', h⟩
    split at h
    · cases h
    · omega
  · intro hfile
    exact ⟨_, if_neg (by omega)⟩
  · intro state' h
    split at h
    · cases h
    · obtain rfl := Except.ok.inj h
      -- only `readOnly` changes in the entry
      unfold HasFrames at hstate ⊢
      rw [← hstate]
      apply List.ext_getElem?
      intro j
      rw [List.getElem?_map, List.getElem?_map, List.getElem?_set]
      split
      · subst_vars
        simp [hget]
        omega
      · rfl

/-- Reading one section. -/
theorem copySection_spec (hpages : ∀ page ∈ pages, 0 ≤ page ∧ page < numPhysPages)
    {s : CoffSection} {k : Nat} (hfirst : s.firstVPN = k) (hk : k + s.numPages ≤ pages.length)
    {state : List TranslationEntry × (Nat → UInt8)} (hstate : HasFrames pages state) :
    ((∃ state', copySection numPhysPages fileLength state s = .ok state') ↔
      ∀ i ∈ List.range s.numPages, PageInFile fileLength s i) ∧
    ∀ state', copySection numPhysPages fileLength state s = .ok state' → HasFrames pages state' := by
  apply Except.foldlM_isOk_iff ?_ ?_ state hstate
  · intro state i hi hstate
    exact (copyPage_spec hpages hfirst hk (List.mem_range.mp hi) hstate).1
  · intro state i hi hstate
    exact (copyPage_spec hpages hfirst hk (List.mem_range.mp hi) hstate).2

end Sections

/-- A process in pages of the pool is in frames of its own. -/
theorem FreePages.mapped {f : Frames} (hf : FreePages f) {pageTable : List TranslationEntry}
    {numPages : Nat} (h : pageTable.map TranslationEntry.ppn = f.freePagesPool.take numPages) :
    Mapped f.numPhysPages pageTable where
  inRange e he := by
    have hmem : e.ppn ∈ f.freePagesPool.take numPages := h ▸ List.mem_map_of_mem he
    exact hf.inRange e.ppn (List.mem_of_mem_take hmem)
  nodup := by
    rw [h]
    exact hf.nodup.sublist (List.take_sublist _ _)

theorem FreePages.length_le {f : Frames} (hf : FreePages f) :
    f.freePagesPool.length ≤ f.numPhysPages := by
  have htable : (newPageTable f.freePagesPool).map TranslationEntry.ppn =
      f.freePagesPool.take f.freePagesPool.length := by
    rw [newPageTable_ppn, List.take_length]
  have h := (hf.mapped htable).length_le
  rwa [← List.length_map (f := TranslationEntry.ppn), newPageTable_ppn] at h

/-- `loadSections` returns true if the file has the sections, and otherwise fails an assertion.
    The process is in pages of the pool. -/
theorem loadSections_spec {f : Frames} (hf : FreePages f) {coff : Coff} {n numPages : Nat}
    (hsections : Kernel.coffPages 0 coff.sections = some n) (hn : n ≤ numPages)
    (hfit : numPages ≤ f.freePagesPool.length) :
    ((∃ r, loadSections f numPages coff = .ok r) ↔ SectionsInFile coff) ∧
    ∀ r, loadSections f numPages coff = .ok r → ∃ pageTable f', r = some (pageTable, f') ∧
      pageTable.map TranslationEntry.ppn = f.freePagesPool.take numPages ∧
      f'.numPhysPages = f.numPhysPages := by
  have hlen : (f.freePagesPool.take numPages).length = numPages := by
    rw [List.length_take]
    omega
  have hpages : ∀ page ∈ f.freePagesPool.take numPages, 0 ≤ page ∧ page < f.numPhysPages := by
    intro page hpage
    exact hf.inRange page (List.mem_of_mem_take hpage)
  have hphys := hf.length_le
  -- one section succeeds if its pages are in the file, since the table has frames for all of them
  have hspec : ∀ state, ∀ s ∈ coff.sections, HasFrames (f.freePagesPool.take numPages) state →
      ((∃ state', copySection f.numPhysPages coff.fileLength state s = .ok state') ↔
        ∀ i ∈ List.range s.numPages, PageInFile coff.fileLength s i) ∧
      ∀ state', copySection f.numPhysPages coff.fileLength state s = .ok state' →
        HasFrames (f.freePagesPool.take numPages) state' := by
    intro state s hs hstate
    obtain ⟨k, hfirst, hk⟩ := (coffPages_bounds hsections).2 s hs
    exact copySection_spec hpages hfirst (by omega) hstate
  -- the loop over the sections succeeds if each of them does
  have hloop := Except.foldlM_isOk_iff (fun state s hs hstate => (hspec state s hs hstate).1)
    (fun state s hs hstate => (hspec state s hs hstate).2)
    (newPageTable (f.freePagesPool.take numPages), f.memory) (newPageTable_ppn _)
  unfold loadSections
  rw [if_neg (by omega), if_neg (by omega)]
  refine ⟨⟨?_, ?_⟩, ?_⟩
  · rintro ⟨r, h⟩
    obtain ⟨state, hrun, -⟩ := Except.bind_eq_ok.mp h
    exact hloop.1.mp ⟨state, hrun⟩
  · intro hfile
    obtain ⟨state, hrun⟩ := hloop.1.mpr hfile
    exact ⟨_, Except.bind_eq_ok.mpr ⟨state, hrun, rfl⟩⟩
  · intro r h
    obtain ⟨state, hrun, h⟩ := Except.bind_eq_ok.mp h
    exact ⟨_, _, (Except.ok.inj h).symm, hloop.2 state hrun, rfl⟩

/-! ## Loading -/

/-- `load` returns true without failing an assertion, and the program finds its arguments. -/
def ArgumentsSurvive (f : Frames) (coff : Coff) (args : List (List UInt8)) : Prop :=
  ∃ p f', load f (some coff) args = .ok (some (p, f')) ∧
    argumentsAt (byteAt p.pageTable f'.memory) p.argc p.argv = some args

section Load

variable {f : Frames} {coff : Coff} {n : Nat} {args : List (List UInt8)}

/-- `load` of an executable that it does not refuse. -/
theorem load_eq (hsections : Kernel.coffPages 0 coff.sections = some n)
    (hargs : totalSize args ≤ pageSize) {p : Image} {f' : Frames} :
    load f (some coff) args = .ok (some (p, f')) ↔
      ∃ pageTable f₁ memory, loadSections f (n + stackPages + 1) coff =
          .ok (some (pageTable, f₁)) ∧
        storeArguments f₁.numPhysPages pageTable args ((n + stackPages) * pageSize)
          ((n + stackPages) * pageSize + args.length * 4) f₁.memory = .ok memory ∧
        p = ⟨n + stackPages + 1, pageTable, coff.entryPoint,
          wrap32 ((n + stackPages) * pageSize : Nat), args.length, (n + stackPages) * pageSize⟩ ∧
        f' = { f₁ with memory := memory } := by
  have hpage : pageSize < 2 ^ 31 := by decide
  have hsize := @argsSize_eq args 0 (by omega)
  rw [Int.ofNat_zero, Int.zero_add] at hsize
  unfold load
  dsimp only
  rw [hsections]
  dsimp only
  rw [hsize, if_neg (by omega)]
  constructor
  · intro h
    obtain ⟨r, hload, h⟩ := Except.bind_eq_ok.mp h
    cases r with
    | none => cases h
    | some r =>
      obtain ⟨pageTable, f₁⟩ := r
      obtain ⟨memory, hstore, h⟩ := Except.bind_eq_ok.mp h
      obtain ⟨rfl, rfl⟩ := Prod.mk.inj (Option.some.inj (Except.ok.inj h))
      exact ⟨pageTable, f₁, memory, hload, hstore, rfl, rfl⟩
  · rintro ⟨pageTable, f₁, memory, hload, hstore, rfl, rfl⟩
    exact Except.bind_eq_ok.mpr ⟨_, hload, Except.bind_eq_ok.mpr ⟨memory, hstore, rfl⟩⟩

/-- The arguments that fit below the limit on the addresses of a process with `numPages` pages,
    when they are in its last page. -/
theorem limit_iff {numPages : Nat} :
    numPages * pageSize + args.length * 4 + stringsSize args ≤ (numPages + 1) * (pageSize - 1) ↔
      totalSize args + (numPages + 1) ≤ pageSize := by
  rw [totalSize_eq]
  simp only [pageSize]
  omega

/-- The arguments survive if they fit below the limit on the addresses. -/
theorem survive_of_fit (hmemory : f.numPhysPages * pageSize < 2 ^ 31) (hf : FreePages f)
    (hsections : Kernel.coffPages 0 coff.sections = some n)
    (hfit : n + stackPages + 1 ≤ f.freePagesPool.length) (hargs : totalSize args ≤ pageSize)
    (hnul : ∀ arg ∈ args, 0 ∉ arg) (hfile : SectionsInFile coff)
    (hroom : args = [] ∨ totalSize args + (n + stackPages + 1) ≤ pageSize) :
    ArgumentsSurvive f coff args := by
  obtain ⟨hok, hspec⟩ := loadSections_spec hf hsections (by omega) hfit
  obtain ⟨r, hload⟩ := hok.mpr hfile
  obtain ⟨pageTable, f₁, rfl, hframes, hphys⟩ := hspec r hload
  have hm := hf.mapped hframes
  have hint := hm.size_lt hmemory
  have hlen : pageTable.length = n + stackPages + 1 := by
    rw [← List.length_map (f := TranslationEntry.ppn), hframes, List.length_take]
    omega
  cases hroom with
  | inl hempty =>
    -- without arguments nothing is written, so there is nothing to have room for
    subst hempty
    exact ⟨_, _, (load_eq hsections hargs).mpr ⟨pageTable, f₁, _, hload, rfl, rfl, rfl⟩, rfl⟩
  | inr hroom =>
    -- the room is what the address check of the last byte asks for
    have hlimit := limit_iff.mpr hroom
    rw [← hphys] at hm
    obtain ⟨memory, hstore, hstored, -⟩ := @storeArguments_stored _ _ hm hint args
      ((n + stackPages) * pageSize) ((n + stackPages) * pageSize + args.length * 4) f₁.memory
      (by omega) (by rw [hlen]; exact hlimit)
    refine ⟨_, _, (load_eq hsections hargs).mpr ⟨pageTable, f₁, memory, hload, hstore, rfl, rfl⟩, ?_⟩
    have htotal := totalSize_eq args
    have hend : (n + stackPages + 1) * (pageSize - 1) ≤ (n + stackPages + 1) * pageSize :=
      Nat.mul_le_mul_left _ (Nat.sub_le _ _)
    rw [hlen] at hint
    have hstrings : (n + stackPages) * pageSize + args.length * 4 + stringsSize args < 2 ^ 32 := by
      omega
    exact argumentsAt_eq hnul hstrings (by omega) hstored

/-- If the arguments survive, the assertions of `load` passed. -/
theorem fit_of_survive (hmemory : f.numPhysPages * pageSize < 2 ^ 31) (hf : FreePages f)
    (hsections : Kernel.coffPages 0 coff.sections = some n)
    (hfit : n + stackPages + 1 ≤ f.freePagesPool.length) (hargs : totalSize args ≤ pageSize)
    (h : ArgumentsSurvive f coff args) :
    SectionsInFile coff ∧ (args = [] ∨ totalSize args + (n + stackPages + 1) ≤ pageSize) := by
  obtain ⟨p, f', hrun, -⟩ := h
  obtain ⟨pageTable, f₁, memory, hload, hstore, -, -⟩ := (load_eq hsections hargs).mp hrun
  obtain ⟨hok, hspec⟩ := loadSections_spec hf hsections (by omega) hfit
  obtain ⟨pageTable', f₁', heq, hframes, hphys⟩ := hspec _ hload
  obtain ⟨rfl, rfl⟩ := Prod.mk.inj (Option.some.inj heq)
  refine ⟨hok.mp ⟨_, hload⟩, ?_⟩
  by_cases hempty : args = []
  · exact Or.inl hempty
  · right
    have hlen : pageTable.length = n + stackPages + 1 := by
      rw [← List.length_map (f := TranslationEntry.ppn), hframes, List.length_take]
      omega
    have hlimit := limit_of_storeArguments ((hf.mapped hframes).size_lt hmemory) hempty hstore
    rw [hlen] at hlimit
    exact limit_iff.mp hlimit

/-- The arguments survive exactly if the file has the sections and the arguments, when there
    are any, leave free a byte of their page for each page of the process. -/
theorem load_arguments_iff (hmemory : f.numPhysPages * pageSize < 2 ^ 31) (hf : FreePages f)
    (hsections : Kernel.coffPages 0 coff.sections = some n)
    (hfit : n + stackPages + 1 ≤ f.freePagesPool.length) (hargs : totalSize args ≤ pageSize)
    (hnul : ∀ arg ∈ args, 0 ∉ arg) :
    ArgumentsSurvive f coff args ↔
      SectionsInFile coff ∧ (args = [] ∨ totalSize args + (n + stackPages + 1) ≤ pageSize) := by
  constructor
  · exact fit_of_survive hmemory hf hsections hfit hargs
  · rintro ⟨hfile, hroom⟩
    exact survive_of_fit hmemory hf hsections hfit hargs hnul hfile hroom

end Load

/-- A machine with 16 free pages. -/
def sixteenPages : Frames where
  numPhysPages := 16
  memory := fun _ => 0
  freePagesPool := (List.range 16).map fun i : Nat => (i : Int)

theorem sixteenPages_free : FreePages sixteenPages := ⟨by decide, by decide⟩

/-- An executable with one page of code and no data. -/
def onePage : Coff where
  sections := [⟨fun _ => 0, 128, 12, 0, true, true⟩, ⟨fun _ => 0, 140, 0, 1, true, false⟩]
  entryPoint := 0
  fileLength := 140

theorem load_arguments_iff_twoArguments :
    ArgumentsSurvive sixteenPages onePage [[108, 115], [45, 108]] :=
  (load_arguments_iff (n := 1) (by decide) sixteenPages_free rfl (by decide) (by decide)
    (by decide)).mpr ⟨by unfold SectionsInFile PageInFile; decide, Or.inr (by decide)⟩

/-- Four arguments of 250 bytes are 1020 bytes, less than a page. -/
theorem fourArguments_lost :
    totalSize (List.replicate 4 (List.replicate 250 97)) ≤ pageSize ∧
      ¬ ArgumentsSurvive sixteenPages onePage (List.replicate 4 (List.replicate 250 97)) := by
  have htotal : totalSize (List.replicate 4 (List.replicate 250 97)) = 1020 := by
    decide +kernel
  refine ⟨by rw [htotal]; decide, ?_⟩
  intro h
  obtain ⟨-, hempty | hroom⟩ := fit_of_survive (n := 1) (by decide) sixteenPages_free rfl (by decide)
    (by rw [htotal]; decide) h
  · exact absurd hempty (by simp)
  · rw [htotal] at hroom
    exact absurd hroom (by decide)

end UserProcess

end Nachos
