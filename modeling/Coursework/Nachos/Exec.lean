import Coursework.Nachos.Files

/-!
# `exec` and the executable

`handleExec` of a `UserProcess` from its call to its return, with the file that `load` opens
and the places where it closes the file again. Processes are named by the number of
processes made before them. No other thread runs during the call.
-/

namespace Nachos

/-- What an entry of `file_descriptors` refers to: the console, or a file of the disk. -/
inductive Descriptor where
  | stdin
  | stdout
  | disk (file : OpenFile)
  deriving DecidableEq

/-- The fields of a `UserProcess`. Those that `load` assigns are null before. `freeChildren` are
    buckets of a status and a pid. -/
structure ProcessFields where
  pid : BitVec 32 := 0
  parent : Option Nat := none
  children : List Nat := []
  freeChildren : List (BitVec 32 × BitVec 32) := []
  fileDescriptors : Nat → Option Descriptor := fun _ => none
  image : Option UserProcess.Image := none
  forked : Bool := false

/-- What the file system has under a name. -/
inductive Found where
  /-- No file, or a name that is not allowed. -/
  | missing
  /-- A file for which the constructor of `Coff` throws an `EOFException`. -/
  | corrupt
  | coff (coff : UserProcess.Coff)

/-- A `StubOpenFile` that `load` has opened. -/
structure Executable where
  content : Option UserProcess.Coff
  isOpen : Bool

/-- The static fields of `UserKernel` and `UserProcess`, the processes, and `openCount` of the
    file system. The counts are `int`s in the source, with the same values below `2^31`. -/
structure ExecKernel where
  frames : UserProcess.Frames
  numActiveProcesses : Int
  globalPid : Nat
  process : Nat → ProcessFields
  openCount : Int
  found : List UInt8 → Found

namespace ExecKernel

/-- `StubFileSystem.maxOpenFiles`. -/
def maxOpenFiles : Int := 16

/-- `fileSystem.open(name, false)`. -/
def openFile (k : ExecKernel) (name : List UInt8) : Option Executable × ExecKernel :=
  if k.openCount = maxOpenFiles then (none, k)
  else
    match k.found name with
    | .missing => (none, k)
    | .corrupt => (some ⟨none, true⟩, { k with openCount := k.openCount + 1 })
    | .coff coff => (some ⟨some coff, true⟩, { k with openCount := k.openCount + 1 })

/-- `executable.close()`, which is what `coff.close()` does too. -/
def close (k : ExecKernel) (executable : Executable) : ExecKernel :=
  if executable.isOpen then { k with openCount := k.openCount - 1 } else k

/-- Assign to fields of process `p`. -/
def modify (k : ExecKernel) (p : Nat) (g : ProcessFields → ProcessFields) : ExecKernel :=
  { k with process := Function.update k.process p (g (k.process p)) }

/-- The memory of the processes, as the methods that copy from it see it. -/
def machine (k : ExecKernel) : UserProcess.Machine where
  frames := k.frames
  process := fun p => (k.process p).image
  numProcesses := k.globalPid

/-- The constructor of `UserProcess`. -/
def newUserProcess (k : ExecKernel) : ExecKernel :=
  { k with
    numActiveProcesses := k.numActiveProcesses + 1
    globalPid := k.globalPid + 1
    process := Function.update k.process k.globalPid
      { pid := BitVec.ofNat 32 k.globalPid
        fileDescriptors := fun fd =>
          if fd = 0 then some .stdin else if fd = 1 then some .stdout else none } }

/-- `UserProcess.loadSections`: the page table, or none where it returns false. -/
def loadSections (k : ExecKernel) (executable : Executable) (numPages : Nat)
    (coff : UserProcess.Coff) : Except Halt (Option (List TranslationEntry) × ExecKernel) := do
  match ← UserProcess.loadSections k.frames numPages coff with
  -- "insufficient physical memory"
  | none => .ok (none, k.close executable)
  | some (pageTable, frames) => .ok (some pageTable, { k with frames := frames })

/-- `UserProcess.load` of process `child`. A null name is an exception in the file system, a null
    argument one in `args[i].getBytes()`. -/
def load (k : ExecKernel) (child : Nat) (name : Option (List UInt8))
    (args : List (Option (List UInt8))) : Except Halt (Bool × ExecKernel) :=
  match name with
  | none => .error .nullPointer
  | some name =>
    match k.openFile name with
    -- "open failed"
    | (none, k) => .ok (false, k)
    | (some executable, k) =>
      match executable.content with
      -- "coff load failed"
      | none => .ok (false, k.close executable)
      | some coff =>
        match Kernel.coffPages 0 coff.sections with
        -- "fragmented executable"
        | none => .ok (false, k.close executable)
        | some coffPages =>
          match args.mapM id with
          | none => .error .nullPointer
          | some argv =>
            -- "arguments too long"
            if (pageSize : Int) < UserProcess.argsSize argv 0 then .ok (false, k.close executable)
            else do
              let numPages := coffPages + stackPages + 1
              match ← k.loadSections executable numPages coff with
              | (none, k) => .ok (false, k)
              | (some pageTable, k) =>
                let entryOffset := (numPages - 1) * pageSize
                let stringOffset := entryOffset + argv.length * 4
                let memory ← UserProcess.storeArguments k.frames.numPhysPages pageTable argv
                  entryOffset stringOffset k.frames.memory
                let image : UserProcess.Image :=
                  { numPages := numPages
                    pageTable := pageTable
                    initialPC := coff.entryPoint
                    initialSP := wrap32 ((coffPages + stackPages) * pageSize : Nat)
                    argc := argv.length
                    argv := entryOffset }
                .ok (true, { k with frames := { k.frames with memory := memory } }.modify child
                  fun c => { c with image := some image })

/-- `UserProcess.execute`. -/
def execute (k : ExecKernel) (child : Nat) (name : Option (List UInt8))
    (args : List (Option (List UInt8))) : Except Halt (Bool × ExecKernel) := do
  let (loaded, k) ← k.load child name args
  if !loaded then .ok (false, k)
  else .ok (true, k.modify child fun c => { c with forked := true })

/-- `UserProcess.handleExec`, by process `p`: the result and the kernel. -/
def handleExec (k : ExecKernel) (p : Nat) (filenameAddr count argAddr : Int) :
    Except Halt (BitVec 32 × ExecKernel) :=
  if count < 0 then .ok (-1, k)
  else do
    -- reading the strings does not change the memory
    let (filename, args, _) ←
      UserProcess.userProcess.execStrings k.machine p filenameAddr count argAddr
    let child := k.globalPid
    let (success, k) ← k.newUserProcess.execute child filename args
    if !success then .ok (-1, { k with numActiveProcesses := k.numActiveProcesses - 1 })
    else
      let k := k.modify child fun c => { c with parent := some p }
      let k := k.modify p fun c => { c with children := c.children ++ [child] }
      .ok ((k.process child).pid, k)

end ExecKernel

end Nachos
