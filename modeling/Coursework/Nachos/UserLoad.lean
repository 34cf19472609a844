import Coursework.Nachos.UserMemory
import Coursework.Nachos.VirtualMemory
import Mathlib.Algebra.GroupWithZero.Nat
import Mathlib.Algebra.Ring.Int.Defs

/-!
# Loading a program without paging

`load` and `loadSections` of `UserProcess` with the bytes they leave in memory. `load` is taken
from where the pool has enough pages for the process: until then it sleeps on
`UserKernel.processWait`.
-/

namespace Nachos

namespace UserProcess

/-- What `load` asks the `Coff` of the executable, and the length of its file. -/
structure Coff where
  sections : List CoffSection
  entryPoint : Int
  fileLength : Nat

/-- The memory and the free pages. -/
structure Frames where
  numPhysPages : Nat
  memory : Nat → UInt8
  freePagesPool : List Int

/-- The fields of a `UserProcess` that `load` assigns. The sections start below the page
    `2 ^ 21`, so none of these sums overflows. -/
structure Image where
  numPages : Nat
  pageTable : List TranslationEntry
  initialPC : Int
  initialSP : Int
  argc : Nat
  argv : Nat

/-- `CoffSection.loadPage`, with the assertion of `Lib.strictReadFile` that the file has the
    bytes. -/
def loadPage (numPhysPages fileLength : Nat) (s : CoffSection) (spn : Nat) (ppn : Int)
    (memory : Nat → UInt8) : Except Halt (Nat → UInt8) :=
  let faddr := s.contentOffset + spn * pageSize
  if ¬ spn < s.numPages then .error .assertion
  else if ppn < 0 ∨ (numPhysPages : Int) ≤ ppn then .error .assertion
  else if 0 < s.initlen spn ∧ fileLength < faddr + s.initlen spn then .error .assertion
  else .ok (blit memory (ppn.toNat * pageSize) pageSize (s.pageByte spn))

/-- One page of a section in `loadSections`. -/
def copyPage (numPhysPages fileLength : Nat) (s : CoffSection)
    (state : List TranslationEntry × (Nat → UInt8)) (i : Nat) :
    Except Halt (List TranslationEntry × (Nat → UInt8)) :=
  let vpn := s.firstVPN + i
  if vpn < 0 then .error .indexOutOfBounds
  else
    match state.1[vpn.toNat]? with
    | none => .error .indexOutOfBounds
    | some entry => do
      let memory ← loadPage numPhysPages fileLength s i entry.ppn state.2
      .ok (state.1.set vpn.toNat { entry with readOnly := s.readOnly }, memory)

/-- The loop of `loadSections` over the pages of a section. -/
def copySection (numPhysPages fileLength : Nat)
    (state : List TranslationEntry × (Nat → UInt8)) (s : CoffSection) :
    Except Halt (List TranslationEntry × (Nat → UInt8)) :=
  (List.range s.numPages).foldlM (copyPage numPhysPages fileLength s) state

/-- The page table before the sections are read: the first pages of the pool. -/
def newPageTable (pages : List Int) : List TranslationEntry :=
  pages.mapIdx fun i page => { vpn := i, ppn := page, valid := true }

/-- `UserProcess.loadSections`: the page table, or none where it returns false. -/
def loadSections (f : Frames) (numPages : Nat) (coff : Coff) :
    Except Halt (Option (List TranslationEntry × Frames)) :=
  if f.numPhysPages < numPages then .ok none
  else if f.freePagesPool.length < numPages then .error .asleep
  else do
    let (pageTable, memory) ← coff.sections.foldlM (copySection f.numPhysPages coff.fileLength)
      (newPageTable (f.freePagesPool.take numPages), f.memory)
    .ok (some (pageTable,
      { f with memory := memory, freePagesPool := f.freePagesPool.drop numPages }))

/-- `Lib.assertTrue(writeVirtualMemory(vaddr, data) == data.length)`. -/
def assertWritten (numPhysPages : Nat) (pageTable : List TranslationEntry)
    (memory : Nat → UInt8) (vaddr : Nat) (data : List UInt8) : Except Halt (Nat → UInt8) := do
  let (n, memory) ← writeVirtualMemory numPhysPages pageTable memory vaddr data 0 data.length
  if n = data.length then .ok memory else .error .assertion

/-- `UserProcess.storeArguments`, which is also the loop at the end of `load`. -/
def storeArguments (numPhysPages : Nat) (pageTable : List TranslationEntry) :
    List (List UInt8) → Nat → Nat → (Nat → UInt8) → Except Halt (Nat → UInt8)
  | [], _, _, memory => .ok memory
  | arg :: rest, entryOffset, stringOffset, memory => do
    let memory ← assertWritten numPhysPages pageTable memory entryOffset
      (bytesFromInt (BitVec.ofNat 32 stringOffset))
    let memory ← assertWritten numPhysPages pageTable memory stringOffset arg
    let memory ← assertWritten numPhysPages pageTable memory (stringOffset + arg.length) [0]
    storeArguments numPhysPages pageTable rest (entryOffset + 4) (stringOffset + arg.length + 1)
      memory

/-- The loop of `load` over the arguments: `argsSize`. -/
def argsSize : List (List UInt8) → Int → Int
  | [], size => size
  | arg :: rest, size => argsSize rest (wrap32 (size + (4 + arg.length + 1)))

/-- `UserProcess.load`, without the executable if the file cannot be opened or is no COFF file:
    the process and the memory, or none where it returns false. -/
def load (f : Frames) (executable : Option Coff) (args : List (List UInt8)) :
    Except Halt (Option (Image × Frames)) :=
  match executable with
  | none => .ok none
  | some coff =>
    match Kernel.coffPages 0 coff.sections with
    | none => .ok none
    | some coffPages =>
      if (pageSize : Int) < argsSize args 0 then .ok none
      else do
        let initialSP := (coffPages + stackPages) * pageSize
        let numPages := coffPages + stackPages + 1
        match ← loadSections f numPages coff with
        | none => .ok none
        | some (pageTable, f) =>
          let entryOffset := (numPages - 1) * pageSize
          let stringOffset := entryOffset + args.length * 4
          let memory ← storeArguments f.numPhysPages pageTable args entryOffset stringOffset
            f.memory
          .ok (some (
            { numPages := numPages
              pageTable := pageTable
              initialPC := coff.entryPoint
              initialSP := wrap32 initialSP
              argc := args.length
              argv := entryOffset },
            { f with memory := memory }))

end UserProcess

end Nachos
