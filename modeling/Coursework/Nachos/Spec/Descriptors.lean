import Coursework.Nachos.Files
import Mathlib.Data.Set.Insert

/-!
# The table of descriptors

What a program is told about its descriptors against what `file_descriptors` holds, over any
sequence of `creat`, `open`, `close` and `unlink` and any answers of the file system.
`handleCreate` hands a descriptor out whether or not the file system has opened a file, and
`handleUnlink` returns 0 whether or not the file system has removed one.
-/

namespace Nachos

namespace Files

variable {t : Files} {chars : List UInt8}

/-- The names in the table are `String` objects that have been made. -/
def NamesMade (t : Files) : Prop :=
  ∀ fd file, t.fileDescriptors fd = some file → file.name.reference < t.strings

/-- No descriptor is free. -/
def Full (t : Files) : Prop := ∀ fd < numFD, t.fileDescriptors fd ≠ none

/-- The descriptors with a file. -/
def slots (t : Files) : Set Nat := {fd | fd < numFD ∧ t.fileDescriptors fd ≠ none}

/-! ## The law -/

/-- `creat` and `open`: the result `r` and the table afterwards. -/
structure OpenLaw (t t' : Files) (chars : List UInt8) (inode : Option Nat) (r : Int) : Prop where
  refused : t.Full ∨ inode = none → r = -1 ∧ t'.fileDescriptors = t.fileDescriptors
  opened : ¬ t.Full → ∀ i, inode = some i → ∃ fd < numFD, ∃ name : JavaString, r = fd ∧
    t.fileDescriptors fd = none ∧ name.chars = chars ∧
    t'.fileDescriptors = Function.update t.fileDescriptors fd (some ⟨name, i, 0⟩)

/-- `close`: the result and the table afterwards. -/
structure CloseLaw (t t' : Files) (fd r : Int) : Prop where
  refused : t.descriptor fd = none → r = -1 ∧ t'.fileDescriptors = t.fileDescriptors
  closed : ∀ file, t.descriptor fd = some file →
    r = 0 ∧ t'.fileDescriptors = Function.update t.fileDescriptors fd.toNat none

/-- `unlink`: the result and the table afterwards. -/
structure UnlinkLaw (t t' : Files) (killed : Bool) (r : Int) : Prop where
  result : r = if killed then 0 else -1
  table : t'.fileDescriptors = t.fileDescriptors

/-- What a call must do. -/
def Lawful (t : Files) (call : Call) : Prop :=
  match call with
  | .create chars inode | .open chars inode =>
    OpenLaw t (t.step call).2 chars inode (t.step call).1
  | .close fd => CloseLaw t (t.step call).2 fd (t.step call).1
  | .unlink _ killed => UnlinkLaw t (t.step call).2 killed (t.step call).1

/-- The descriptors that a program has been handed and has not closed, after a call that
    returned `r`. -/
def handedOut (handed : Set Nat) (r : Int) : Call → Set Nat
  | .create .. | .open .. => if 0 ≤ r then insert r.toNat handed else handed
  | .close fd => if r = 0 then handed \ {fd.toNat} else handed
  | .unlink .. => handed

/-- Every call does what it must, and the table always has a file at exactly the descriptors
    that the program believes to have. -/
def Faithful (handed : Set Nat) (t : Files) : List Call → Prop
  | [] => t.slots = handed
  | call :: calls => t.slots = handed ∧ t.Lawful call ∧
    Faithful (handedOut handed (t.step call).1 call) (t.step call).2 calls

/-- What makes a call do what it must: the file system opens the file of a `creat` that finds
    a free descriptor, and removes the file of an `unlink`. -/
def Answered (t : Files) : Call → Prop
  | .create _ inode => inode = none → t.Full
  | .unlink _ killed => killed = true
  | _ => True

/-- Every call of the sequence is answered so. -/
def AllAnswered (t : Files) : List Call → Prop
  | [] => True
  | call :: calls => t.Answered call ∧ AllAnswered (t.step call).2 calls

/-! ## The table -/

theorem setDescriptor_self (t : Files) (fd : Nat) (file : Option OpenFile) :
    (t.setDescriptor fd file).fileDescriptors fd = file :=
  Function.update_self ..

theorem setDescriptor_of_ne (t : Files) {i fd : Nat} (h : i ≠ fd) (file : Option OpenFile) :
    (t.setDescriptor fd file).fileDescriptors i = t.fileDescriptors i :=
  Function.update_of_ne h ..

theorem getNextFileDescriptor_some {fd : Nat} (h : t.getNextFileDescriptor = some fd) :
    fd < numFD ∧ t.fileDescriptors fd = none := by
  constructor
  · exact List.mem_range.mp (List.mem_of_find?_eq_some h)
  · exact Option.isNone_iff_eq_none.mp
      (List.find?_some (p := fun i => (t.fileDescriptors i).isNone) h)

theorem getNextFileDescriptor_none : t.getNextFileDescriptor = none ↔ t.Full := by
  unfold getNextFileDescriptor Full
  rw [List.find?_eq_none]
  constructor
  · intro h fd hfd hnone
    exact h fd (List.mem_range.mpr hfd) (by rw [hnone]; rfl)
  · intro h fd hfd hnone
    exact h fd (List.mem_range.mp hfd) (Option.isNone_iff_eq_none.mp hnone)

/-- A name that has just been read is not in the table: `==` compares objects. -/
theorem searchName_newString (ht : t.NamesMade) (chars : List UInt8) :
    (t.newString chars).2.searchNameFileDescriptor (t.newString chars).1 = none := by
  unfold searchNameFileDescriptor
  rw [List.find?_eq_none]
  intro i _ hi
  obtain ⟨file, hfile, hname⟩ := Option.any_eq_true _ _ |>.mp hi
  have hlt : file.name.reference < t.strings := ht i file hfile
  have heq : file.name.reference = t.strings := beq_iff_eq.mp hname
  omega

theorem closeNamed_newString (ht : t.NamesMade) (chars : List UInt8) (fuel : Nat) :
    (t.newString chars).2.closeNamed (t.newString chars).1 fuel = (t.newString chars).2 := by
  cases fuel with
  | zero => rfl
  | succ fuel =>
    unfold closeNamed
    rw [searchName_newString ht]

/-! ## One call -/

theorem handleOpen_law (chars : List UInt8) (inode : Option Nat) :
    OpenLaw t (t.handleOpen chars inode).2 chars inode (t.handleOpen chars inode).1 := by
  unfold handleOpen
  cases hnext : t.getNextFileDescriptor with
  | none =>
    have hfull := getNextFileDescriptor_none.mp hnext
    exact ⟨fun _ => ⟨rfl, rfl⟩, fun hfree => absurd hfull hfree⟩
  | some fd =>
    obtain ⟨hlt, hnone⟩ := getNextFileDescriptor_some hnext
    have hfree : ¬ t.Full := fun hfull => hfull fd hlt hnone
    cases inode with
    | none => exact ⟨fun _ => ⟨rfl, rfl⟩, fun _ i hi => by cases hi⟩
    | some i =>
      constructor
      · intro h
        cases h with
        | inl hfull => exact absurd hfull hfree
        | inr hnull => cases hnull
      · intro _ j hj
        cases hj
        exact ⟨fd, hlt, _, rfl, hnone, rfl, rfl⟩

/-- When the file system opens the file, `creat` puts the same in the table as `open`. -/
theorem handleCreate_table (t : Files) (chars : List UInt8) {inode : Option Nat}
    (h : inode = none → t.Full) :
    (t.handleCreate chars inode).1 = (t.handleOpen chars inode).1 ∧
      (t.handleCreate chars inode).2.fileDescriptors =
        (t.handleOpen chars inode).2.fileDescriptors := by
  unfold handleCreate handleOpen
  cases hnext : t.getNextFileDescriptor with
  | none => exact ⟨rfl, rfl⟩
  | some fd =>
    cases inode with
    | none =>
      obtain ⟨hlt, hnone⟩ := getNextFileDescriptor_some hnext
      exact absurd hnone (h rfl fd hlt)
    | some i => exact ⟨rfl, rfl⟩

theorem handleCreate_law_iff (chars : List UInt8) (inode : Option Nat) :
    OpenLaw t (t.handleCreate chars inode).2 chars inode (t.handleCreate chars inode).1 ↔
      (inode = none → t.Full) := by
  constructor
  · intro hlaw hnull
    cases hnext : t.getNextFileDescriptor with
    | none => exact getNextFileDescriptor_none.mp hnext
    | some fd =>
      -- the descriptor is returned although there is no file
      obtain ⟨hr, -⟩ := hlaw.refused (Or.inr hnull)
      have hfd : (t.handleCreate chars inode).1 = fd := by
        unfold handleCreate
        rw [hnext]
      omega
  · intro h
    obtain ⟨hresult, htable⟩ := handleCreate_table t chars h
    have hopen := handleOpen_law (t := t) chars inode
    constructor
    · rw [hresult, htable]
      exact hopen.refused
    · rw [hresult, htable]
      exact hopen.opened

theorem handleClose_law (fd : Int) :
    CloseLaw t (t.handleClose fd).2 fd (t.handleClose fd).1 := by
  unfold handleClose
  by_cases hrange : fd < 0 ∨ 15 < fd
  · rw [if_pos hrange]
    refine ⟨fun _ => ⟨rfl, rfl⟩, fun file hfile => ?_⟩
    unfold descriptor at hfile
    rw [if_pos hrange] at hfile
    cases hfile
  · have hslot : t.descriptor fd = t.fileDescriptors fd.toNat := if_neg hrange
    rw [if_neg hrange]
    cases hfd : t.fileDescriptors fd.toNat with
    | none =>
      refine ⟨fun _ => ⟨rfl, rfl⟩, fun file hfile => ?_⟩
      rw [hslot, hfd] at hfile
      cases hfile
    | some file =>
      refine ⟨fun hnone => ?_, fun _ _ => ⟨rfl, rfl⟩⟩
      rw [hslot, hfd] at hnone
      cases hnone

theorem handleUnlink_law_iff (ht : t.NamesMade) (chars : List UInt8) (killed : Bool) :
    UnlinkLaw t (t.handleUnlink chars killed).2 killed (t.handleUnlink chars killed).1 ↔
      killed = true := by
  have htable : ((t.newString chars).2.closeNamed (t.newString chars).1 numFD).fileDescriptors =
      t.fileDescriptors := by
    rw [closeNamed_newString ht]
    rfl
  constructor
  · intro hlaw
    have hresult : (0 : Int) = if killed then 0 else -1 := hlaw.result
    cases killed with
    | true => rfl
    | false => exact absurd hresult (by decide)
  · intro hkilled
    subst hkilled
    exact ⟨rfl, htable⟩

/-- A call does what it must exactly when it is answered so. -/
theorem lawful_iff (ht : t.NamesMade) (call : Call) : t.Lawful call ↔ t.Answered call := by
  cases call with
  | create chars inode => exact handleCreate_law_iff chars inode
  | «open» chars inode => exact ⟨fun _ => trivial, fun _ => handleOpen_law chars inode⟩
  | close fd => exact ⟨fun _ => trivial, fun _ => handleClose_law fd⟩
  | unlink chars killed => exact handleUnlink_law_iff ht chars killed

/-! ## Sequences of calls -/

theorem NamesMade.setDescriptor_none (ht : t.NamesMade) (fd : Nat) :
    (t.setDescriptor fd none).NamesMade := by
  intro i file hfile
  by_cases hi : i = fd
  · subst hi
    rw [setDescriptor_self] at hfile
    cases hfile
  · rw [setDescriptor_of_ne t hi] at hfile
    exact ht i file hfile

theorem NamesMade.handleClose (ht : t.NamesMade) (fd : Int) : (t.handleClose fd).2.NamesMade := by
  unfold Files.handleClose
  split
  · exact ht
  · split
    · exact ht
    · exact ht.setDescriptor_none fd.toNat

theorem NamesMade.newString (ht : t.NamesMade) (chars : List UInt8) :
    (t.newString chars).2.NamesMade :=
  fun fd file hfile => Nat.lt_succ_of_lt (ht fd file hfile)

/-- The file that is opened has the name that has just been read. -/
theorem NamesMade.opened (ht : t.NamesMade) (chars : List UInt8) (fd i : Nat) :
    ((t.newString chars).2.setDescriptor fd
      (some ⟨(t.newString chars).1, i, 0⟩)).NamesMade := by
  intro j file hfile
  by_cases hj : j = fd
  · subst hj
    rw [setDescriptor_self] at hfile
    cases hfile
    exact Nat.lt_succ_self _
  · rw [setDescriptor_of_ne _ hj] at hfile
    exact ht.newString chars j file hfile

theorem NamesMade.step (ht : t.NamesMade) (call : Call) : (t.step call).2.NamesMade := by
  cases call with
  | create chars inode =>
    simp only [Files.step, handleCreate]
    cases t.getNextFileDescriptor with
    | none => exact ht
    | some fd =>
      cases inode with
      | none => exact (ht.newString chars).setDescriptor_none fd
      -- the name of the new file is the string that was made for the call
      | some i => exact ht.opened chars fd i
  | «open» chars inode =>
    simp only [Files.step, handleOpen]
    cases t.getNextFileDescriptor with
    | none => exact ht
    | some fd =>
      cases inode with
      | none => exact ht.newString chars
      | some i => exact ht.opened chars fd i
  | close fd => exact ht.handleClose fd
  | unlink chars killed =>
    -- a name that has just been made is none of those in the table, so nothing is closed
    have htable : (t.handleUnlink chars killed).2 = (t.newString chars).2 :=
      closeNamed_newString ht chars numFD
    simp only [Files.step]
    rw [htable]
    exact ht.newString chars

theorem slots_congr {t' : Files} (h : t'.fileDescriptors = t.fileDescriptors) :
    t'.slots = t.slots := by
  unfold slots
  rw [h]

theorem OpenLaw.slots {t' : Files} {inode : Option Nat} {r : Int}
    (h : OpenLaw t t' chars inode r) :
    t'.slots = if 0 ≤ r then insert r.toNat t.slots else t.slots := by
  by_cases hrefused : t.Full ∨ inode = none
  · obtain ⟨rfl, hsame⟩ := h.refused hrefused
    exact slots_congr hsame
  · obtain ⟨hfree, hfile⟩ := not_or.mp hrefused
    obtain ⟨i, hi⟩ := Option.ne_none_iff_exists'.mp hfile
    obtain ⟨fd, hlt, name, rfl, hnone, -, htable⟩ := h.opened hfree i hi
    rw [if_pos (Int.natCast_nonneg fd), Int.toNat_natCast]
    ext j
    by_cases hj : j = fd
    · subst hj
      simp [Files.slots, htable, hlt]
    · simp [Files.slots, htable, hj]

theorem CloseLaw.slots {t' : Files} {fd r : Int} (h : CloseLaw t t' fd r) :
    t'.slots = if r = 0 then t.slots \ {fd.toNat} else t.slots := by
  cases hfd : t.descriptor fd with
  | none =>
    obtain ⟨rfl, hsame⟩ := h.refused hfd
    exact slots_congr hsame
  | some file =>
    obtain ⟨rfl, htable⟩ := h.closed file hfd
    rw [if_pos rfl]
    ext j
    by_cases hj : j = fd.toNat
    · subst hj
      simp [Files.slots, htable]
    · simp [Files.slots, htable, hj]

/-- After a lawful call the table has a file where the program believes it to have one. -/
theorem Lawful.slots {call : Call} (h : t.Lawful call) :
    (t.step call).2.slots = handedOut t.slots (t.step call).1 call := by
  cases call with
  | create chars inode => exact OpenLaw.slots h
  | «open» chars inode => exact OpenLaw.slots h
  | close fd => exact CloseLaw.slots h
  | unlink chars killed => exact slots_congr (UnlinkLaw.table h)

/-- Over a sequence of calls, what the program is told is true of the table exactly when every
    `creat` that finds a free descriptor has its file opened and every `unlink` removes its
    file. -/
theorem faithful_iff_allAnswered (ht : t.NamesMade) (calls : List Call) :
    Faithful t.slots t calls ↔ AllAnswered t calls := by
  induction calls generalizing t with
  | nil => exact ⟨fun _ => trivial, fun _ => rfl⟩
  | cons call calls ih =>
    have hrest := ih (ht.step call)
    constructor
    · intro h
      obtain ⟨-, hlawful, hfaithful⟩ := h
      rw [← hlawful.slots] at hfaithful
      exact ⟨(lawful_iff ht call).mp hlawful, hrest.mp hfaithful⟩
    · intro h
      obtain ⟨hanswered, hall⟩ := h
      have hlawful := (lawful_iff ht call).mpr hanswered
      refine ⟨rfl, hlawful, ?_⟩
      rw [← hlawful.slots]
      exact hrest.mpr hall

/-- The table of a new process: descriptors 0 and 1 are open. -/
def newTable : Files where
  fileDescriptors := fun fd => if fd < 2 then some ⟨⟨0, []⟩, fd, 0⟩ else none
  disk := fun _ => HostFile.empty
  strings := 1

theorem namesMade_newTable : newTable.NamesMade := by
  intro fd file hfile
  simp only [newTable] at hfile
  split at hfile
  · cases hfile
    exact Nat.one_pos
  · cases hfile

/-- A file is created, opened once more, closed and unlinked. -/
theorem faithful_iff_allAnswered_fourCalls :
    Faithful newTable.slots newTable
        [.create [102] (some 2), .open [102] (some 2), .close 2, .unlink [102] true] ↔
      AllAnswered newTable
        [.create [102] (some 2), .open [102] (some 2), .close 2, .unlink [102] true] :=
  faithful_iff_allAnswered namesMade_newTable _

/-- A `creat` that the file system refuses returns 2, and an `unlink` that it refuses
    returns 0. -/
theorem not_faithful_refused :
    ¬ (Faithful newTable.slots newTable [.create [47] none] ∨
      Faithful newTable.slots newTable [.unlink [47] false]) := by
  intro h
  cases h with
  | inl hcreate =>
    obtain ⟨hresult, -⟩ := hcreate.2.1.refused (Or.inr rfl)
    exact absurd hresult (by decide)
  | inr hunlink => exact absurd hunlink.2.1.result (by decide)

end Files

end Nachos
