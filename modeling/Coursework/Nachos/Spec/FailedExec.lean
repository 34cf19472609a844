import Coursework.ForStd.Except
import Coursework.Nachos.Exec

/-!
# A failed `exec` leaves no trace

`load` returns false in five places: where the file system does not open the file, where it
is no COFF, where its sections are not contiguous, where the arguments are too long, and in
`loadSections`, where there is not enough memory. All but the first have an open file to
close, and nothing else to undo; `handleExec` takes back what the constructor has counted.
-/

namespace Nachos

namespace ExecKernel

open Except (bind_eq_ok)

variable {k k' : ExecKernel}

/-- Closing a file that has just been opened undoes the opening. -/
theorem close_openFile {name : List UInt8} {executable : Executable}
    (h : k.openFile name = (some executable, k')) : k'.close executable = k := by
  unfold openFile at h
  split at h
  · cases h
  split at h
  · cases h
  · cases h
    simp [close]
  · cases h
    simp [close]

/-- An open that fails does not count. -/
theorem openFile_none {name : List UInt8} (h : k.openFile name = (none, k')) : k' = k := by
  unfold openFile at h
  split at h
  · cases h
    rfl
  split at h
  · cases h
    rfl
  · cases h
  · cases h

/-- Where `loadSections` returns false, it has only closed the file. -/
theorem loadSections_none {executable : Executable} {numPages : Nat} {coff : UserProcess.Coff}
    (h : k.loadSections executable numPages coff = .ok (none, k')) :
    k' = k.close executable := by
  unfold loadSections at h
  obtain ⟨found, -, h⟩ := bind_eq_ok.mp h
  cases found with
  | none =>
    cases h
    rfl
  | some r => cases h

/-- Where `load` returns false, it has closed what it has opened, and done nothing else. -/
theorem load_false {child : Nat} {name : Option (List UInt8)} {args : List (Option (List UInt8))}
    (h : k.load child name args = .ok (false, k')) : k' = k := by
  unfold load at h
  split at h
  · cases h
  split at h
  · rename_i hopen
    cases h
    -- the file is not found, and nothing has been opened
    exact openFile_none hopen
  rename_i executable k₁ hopen
  have hclose := close_openFile hopen
  split at h
  · cases h
    exact hclose
  split at h
  · cases h
    exact hclose
  split at h
  · cases h
  split at h
  · cases h
    exact hclose
  -- the remaining exit is that of a program with too many pages
  obtain ⟨⟨pageTable, k₂⟩, hsections, h⟩ := bind_eq_ok.mp h
  cases pageTable with
  | none =>
    cases h
    rw [loadSections_none hsections]
    exact hclose
  | some pageTable =>
    obtain ⟨memory, -, h⟩ := bind_eq_ok.mp h
    cases h

theorem execute_false {child : Nat} {name : Option (List UInt8)}
    {args : List (Option (List UInt8))} (h : k.execute child name args = .ok (false, k')) :
    k' = k := by
  unfold execute at h
  obtain ⟨⟨loaded, k₁⟩, hload, h⟩ := bind_eq_ok.mp h
  cases loaded with
  | false =>
    cases h
    exact load_false hload
  | true => cases h

/-- A call of `handleExec` in which `execute` returns false returns `-1`. The free pages and the
    memory, the number of active processes, the open files and all that belongs to the other
    processes are as before; only the number of the process that failed is used up. -/
theorem handleExec_failed {p : Nat} {filenameAddr count argAddr : Int}
    {filename : Option (List UInt8)} {args : List (Option (List UInt8))}
    {s : UserProcess.Machine} {k₁ : ExecKernel} (hcount : 0 ≤ count)
    (hstrings : UserProcess.userProcess.execStrings k.machine p filenameAddr count argAddr =
      .ok (filename, args, s))
    (hfail : k.newUserProcess.execute k.globalPid filename args = .ok (false, k₁)) :
    ∃ k', k.handleExec p filenameAddr count argAddr = .ok (-1, k') ∧
      k'.frames = k.frames ∧ k'.numActiveProcesses = k.numActiveProcesses ∧
      k'.openCount = k.openCount ∧ ∀ q, q ≠ k.globalPid → k'.process q = k.process q := by
  have hk₁ := execute_false hfail
  refine ⟨{ k₁ with numActiveProcesses := k₁.numActiveProcesses - 1 }, ?_, ?_, ?_, ?_, ?_⟩
  · unfold handleExec
    rw [if_neg (by omega), hstrings]
    show (execute _ _ _ _ >>= _) = _
    rw [hfail]
    rfl
  · rw [hk₁]
    rfl
  · rw [hk₁]
    -- the count goes up in `execute` and down in the caller
    show k.numActiveProcesses + 1 - 1 = k.numActiveProcesses
    omega
  · rw [hk₁]
    rfl
  · intro q hq
    rw [hk₁]
    exact Function.update_of_ne hq _ _

/-- A machine with one page, which holds the only process, and an executable with two empty
    sections that needs nine. -/
def onePage : ExecKernel where
  frames := ⟨1, fun _ => 0, []⟩
  numActiveProcesses := 1
  globalPid := 1
  process := fun p =>
    if p = 0 then { image := some ⟨1, [{ valid := true }], 0, 0, 0, 0⟩, forked := true } else {}
  openCount := 3
  found := fun _ => .coff ⟨emptySections, 0, 0⟩

/-- The process executes the file whose name is the empty string, without arguments. -/
theorem handleExec_failed_onePage :
    ∃ k', onePage.handleExec 0 0 0 0 = .ok (-1, k') ∧ k'.frames = onePage.frames ∧
      k'.numActiveProcesses = onePage.numActiveProcesses ∧ k'.openCount = onePage.openCount ∧
      ∀ q, q ≠ onePage.globalPid → k'.process q = onePage.process q := by
  obtain ⟨⟨filename, args, s⟩, hstrings, htest⟩ := Except.exists_of_map_eq_ok
    (r := UserProcess.userProcess.execStrings onePage.machine 0 0 0 0)
    (fun r => r.1 == some [] && r.2.1 == []) (by decide +kernel)
  simp only [Bool.and_eq_true, beq_iff_eq] at htest
  obtain ⟨rfl, rfl⟩ := htest
  exact handleExec_failed (by decide) hstrings rfl

end ExecKernel

end Nachos
