import Coursework.Nachos.UserLoad

/-!
# System calls that copy to and from a process

The handlers of `UserProcess` reach the memory of a process through methods that `VMProcess`
overrides, so they are written here over a class of processes, and run on both. A call that
waits for another process is taken from where it goes on: `join` knows what it has found in
`freeChildren`, and an `exec` that sleeps for free pages goes on as a `load` of its own.
-/

namespace Nachos

/-- An executable with section headers that `CoffSection` accepts: addresses and sizes are
    `int`s. -/
structure CoffFile where
  coff : UserProcess.Coff
  firstVPN_lt : ∀ s ∈ coff.sections, s.firstVPN < 2 ^ 21
  size_lt : ∀ s ∈ coff.sections, s.size < 2 ^ 31

/-- What comes of a call of `execute`. -/
inductive Execution (σ : Type) where
  /-- `load` returns false. -/
  | refused
  /-- `loadSections` sleeps until there are enough free pages. -/
  | waits
  /-- The new process is loaded. -/
  | runs (s : σ)

/-- What the handlers call on a process, and what there is to say about its pages. A process is
    named by the number of processes that were loaded before it. -/
structure ProcessClass (σ : Type) where
  /-- The processor is given to the thread of a process. -/
  restoreState : σ → Nat → Except Halt σ
  readVirtualMemory : σ → Nat → Int → List UInt8 → Int → Int → Except Halt (Nat × σ × List UInt8)
  writeVirtualMemory : σ → Nat → Int → List UInt8 → Int → Int → Except Halt (Nat × σ)
  execute : σ → Option CoffFile → List (List UInt8) → Except Halt (Execution σ)
  handleExit : σ → Nat → Except Halt σ
  numProcesses : σ → Nat
  isLive : σ → Nat → Bool
  numPages : σ → Nat → Nat
  /-- The bit `readOnly` of a page table entry. -/
  readOnly : σ → Nat → Nat → Bool
  /-- The byte of a process at a virtual address. -/
  byteAt : σ → Nat → Nat → Option UInt8

/-! ## Strings and integers -/

/-- The bytes before the first 0. -/
def terminated : List UInt8 → Option (List UInt8)
  | [] => none
  | b :: bytes => if b = 0 then some [] else (terminated bytes).map (b :: ·)

/-- `UserProcess.readVirtualMemoryString` with any `int` for `maxLength`, for the pages of a
    process that are all in memory. `new byte[maxLength+1]` throws for a negative size. -/
def UserProcess.readString (numPhysPages : Nat) (pageTable : List TranslationEntry)
    (memory : Nat → UInt8) (vaddr maxLength : Int) : Except Halt (Option (List UInt8)) :=
  if maxLength < 0 then .error .assertion
  else
    let size := wrap32 (maxLength + 1)
    if size < 0 then .error .negativeArraySize
    else do
      let (bytesRead, bytes) ← readVirtualMemory numPhysPages pageTable memory vaddr
        (List.replicate size.toNat 0) 0 size
      .ok (terminated (bytes.take bytesRead))

/-- `Lib.bytesToInt`. -/
def bytesToInt (array : List UInt8) (offset : Nat) : Except Halt Int :=
  match array[offset]?, array[offset + 1]?, array[offset + 2]?, array[offset + 3]? with
  | some b₀, some b₁, some b₂, some b₃ =>
    .ok (wrap32 (b₀.toNat + 2 ^ 8 * b₁.toNat + 2 ^ 16 * b₂.toNat + 2 ^ 24 * b₃.toNat))
  | _, _, _, _ => .error .indexOutOfBounds

namespace ProcessClass

variable {σ : Type} (C : ProcessClass σ)

/-- `UserProcess.readVirtualMemoryString`. -/
def readVirtualMemoryString (s : σ) (p : Nat) (vaddr : Int) (maxLength : Nat) :
    Except Halt (Option (List UInt8) × σ) := do
  let (bytesRead, s, bytes) ← C.readVirtualMemory s p vaddr (List.replicate (maxLength + 1) 0) 0
    (maxLength + 1 : Nat)
  .ok (terminated (bytes.take bytesRead), s)

/-! ## `read` and `write` -/

/-- `buffSize` of `handleRead` and `handleWrite`. -/
def buffSize : Nat := 4096

/-- One iteration of the loop of `handleRead`, given the answer of `read(buffer, 0, toRead)`:
    some bytes, or none for `-1`. The result is `read`, or none where the handler returns `-1`. -/
def readPiece (s : σ) (p : Nat) (address : Int) (toRead : Nat) (buffer : List UInt8) :
    Option (List UInt8) → Except Halt (Option Nat × List UInt8 × σ)
  | none => .ok (none, buffer, s)
  | some bytes => do
    let bytes := bytes.take toRead
    let buffer := bytes ++ buffer.drop bytes.length
    let (written, s) ← C.writeVirtualMemory s p address buffer 0 bytes.length
    if bytes.length ≠ written then .ok (none, buffer, s)
    else .ok (some bytes.length, buffer, s)

/-- The loop of `handleRead`. A file answers as often as the list says, and is at its end
    then. -/
def readLoop (p : Nat) : List (Option (List UInt8)) → Int → Nat → Int → List UInt8 → σ →
    Except Halt (Int × σ)
  | [], address, remaining, total, buffer, s =>
    if remaining = 0 then .ok (total, s)
    else do
      match ← C.readPiece s p address (min buffSize remaining) buffer (some []) with
      | (none, _, s) => .ok (-1, s)
      | (some _, _, s) => .ok (total, s)
  | answer :: answers, address, remaining, total, buffer, s =>
    if remaining = 0 then .ok (total, s)
    else do
      let toRead := min buffSize remaining
      match ← C.readPiece s p address toRead buffer answer with
      | (none, _, s) => .ok (-1, s)
      | (some read, buffer, s) =>
        if read < toRead then .ok (total + read, s)
        else readLoop p answers (wrap32 (address + read)) (remaining - read) (total + read) buffer s

/-- `UserProcess.handleRead`, given `file_descriptors[fd]`, or none if there is no such file. -/
def handleRead (s : σ) (p : Nat) (file : Option (List (Option (List UInt8))))
    (address numBytes : Int) : Except Halt (Int × σ) :=
  match file with
  | none => .ok (-1, s)
  | some answers =>
    C.readLoop p answers address numBytes.toNat 0 (List.replicate buffSize 0) s

/-- The loop of `handleWrite`, given the answers of `write(buffer, 0, read)`; a file that has
    no more answers fails. -/
def writeLoop (p : Nat) : List Int → Int → Nat → Int → List UInt8 → σ → Except Halt (Int × σ)
  | [], address, remaining, total, buffer, s =>
    if remaining = 0 then .ok (total, s)
    else do
      let (_, s, _) ← C.readVirtualMemory s p address buffer 0 (min buffSize remaining : Nat)
      .ok (-1, s)
  | written :: answers, address, remaining, total, buffer, s =>
    if remaining = 0 then .ok (total, s)
    else do
      let toWrite := min buffSize remaining
      let (read, s, buffer) ← C.readVirtualMemory s p address buffer 0 toWrite
      if (read : Int) ≠ written then .ok (-1, s)
      else if toWrite ≠ read then .ok (-1, s)
      else writeLoop p answers (wrap32 (address + read)) (remaining - read) (total + read) buffer s

/-- `UserProcess.handleWrite`. -/
def handleWrite (s : σ) (p : Nat) (file : Option (List Int)) (address numBytes : Int) :
    Except Halt (Int × σ) :=
  match file with
  | none => .ok (-1, s)
  | some answers =>
    C.writeLoop p answers address numBytes.toNat 0 (List.replicate buffSize 0) s

/-! ## `exec` -/

/-- The loop of `handleExec` over the arguments. -/
def readArguments (p : Nat) (pointers : List UInt8) :
    Nat → Nat → σ → Except Halt (List (Option (List UInt8)) × σ)
  | 0, _, s => .ok ([], s)
  | count + 1, argNum, s => do
    let pointer ← bytesToInt pointers (argNum * 4)
    let (arg, s) ← C.readVirtualMemoryString s p pointer 256
    let (args, s) ← readArguments p pointers count (argNum + 1) s
    .ok (arg :: args, s)

/-- The part of `handleExec` that reads the memory of the process: the name and the arguments.
    `new byte[4*count]` throws for a negative size. -/
def execStrings (s : σ) (p : Nat) (filenameAddr count argAddr : Int) :
    Except Halt (Option (List UInt8) × List (Option (List UInt8)) × σ) := do
  let (filename, s) ← C.readVirtualMemoryString s p filenameAddr 256
  let size := wrap32 (4 * count)
  if size < 0 then .error .negativeArraySize
  else if count = 0 then .ok (filename, [], s)
  else
    let (_, s, pointers) ← C.readVirtualMemory s p argAddr (List.replicate size.toNat 0) 0 size
    let (args, s) ← C.readArguments p pointers count.toNat 0 s
    .ok (filename, args, s)

/-- `execute` with arguments that may be null: `args[i].getBytes()` throws, if `load` comes so
    far. -/
def executeStrings (s : σ) (executable : Option CoffFile) (args : List (Option (List UInt8))) :
    Except Halt (Execution σ) :=
  match args.mapM id with
  | some args => C.execute s executable args
  | none =>
    match executable with
    | none => .ok .refused
    | some file =>
      if (Kernel.coffPages 0 file.coff.sections).isNone then .ok .refused
      else .error .nullPointer

/-- `UserProcess.handleExec`: the result, or none if it does not return yet. The file system
    says what the name opens. -/
def handleExec (s : σ) (p : Nat) (filenameAddr count argAddr : Int)
    (fileSystem : Option (List UInt8) → Option CoffFile) : Except Halt (Option Int × σ) :=
  if count < 0 then .ok (some (-1), s)
  else do
    let (filename, args, s) ← C.execStrings s p filenameAddr count argAddr
    match ← C.executeStrings s (fileSystem filename) args with
    | .refused => .ok (some (-1), s)
    | .waits => .ok (none, s)
    | .runs s' => .ok (some (C.numProcesses s), s')

/-! ## `join` -/

/-- `UserProcess.handleJoin`, from where the child has been looked for: none if there is no
    such child, else what `searchFreeChildren` has returned last. It is `-2` until the child
    has exited. -/
def handleJoin (s : σ) (p : Nat) (statusAddress : Int) (found : Option (BitVec 32)) :
    Except Halt (Option Int × σ) :=
  match found with
  | none => .ok (some (-1), s)
  | some status =>
    if status = -2 then .ok (none, s)
    else if status = -1 then .ok (some 0, s)
    else do
      let (_, s) ← C.writeVirtualMemory s p statusAddress (UserProcess.bytesFromInt status) 0 4
      .ok (some 1, s)

end ProcessClass

/-! ## Runs -/

/-- A system call with its arguments, and what the kernel finds when it handles the call. -/
inductive Call where
  /-- `UserKernel.run` executes the shell, or an `exec` that has slept goes on. -/
  | load (executable : Option CoffFile) (args : List (List UInt8))
  | exec (p : Nat) (filenameAddr count argAddr : BitVec 32)
      (fileSystem : Option (List UInt8) → Option CoffFile)
  | join (p : Nat) (statusAddress : BitVec 32) (found : Option (BitVec 32))
  | read (p : Nat) (file : Option (List (Option (List UInt8)))) (address numBytes : BitVec 32)
  | write (p : Nat) (file : Option (List Int)) (address numBytes : BitVec 32)
  /-- The part of `creat`, `open` and `unlink` that reads the memory. -/
  | filename (p : Nat) (filenameAddr : BitVec 32)
  | exit (p : Nat)

namespace ProcessClass

variable {σ : Type} (C : ProcessClass σ)

/-- The thread of a process gets the processor, and the handler runs to its end. A process that
    is not there does nothing. -/
def handleSyscall (s : σ) (p : Nat) (handler : σ → Except Halt (Option Int × σ)) :
    Except Halt (Option Int × σ) :=
  if C.isLive s p then do
    let s ← C.restoreState s p
    handler s
  else .ok (none, s)

/-- Perform one call: its result, if it returns one, and the state. -/
def step (s : σ) : Call → Except Halt (Option Int × σ)
  | .load executable args => do
    match ← C.execute s executable args with
    | .runs s => .ok (none, s)
    | _ => .ok (none, s)
  | .exec p filenameAddr count argAddr fileSystem => C.handleSyscall s p fun s =>
    C.handleExec s p filenameAddr.toInt count.toInt argAddr.toInt fileSystem
  | .join p statusAddress found => C.handleSyscall s p fun s =>
    C.handleJoin s p statusAddress.toInt found
  | .read p file address numBytes => C.handleSyscall s p fun s => do
    let (result, s) ← C.handleRead s p file address.toInt numBytes.toInt
    .ok (some result, s)
  | .write p file address numBytes => C.handleSyscall s p fun s => do
    let (result, s) ← C.handleWrite s p file address.toInt numBytes.toInt
    .ok (some result, s)
  | .filename p filenameAddr => C.handleSyscall s p fun s => do
    let (_, s) ← C.readVirtualMemoryString s p filenameAddr.toInt 256
    .ok (none, s)
  | .exit p => C.handleSyscall s p fun s => do
    let s ← C.handleExit s p
    .ok (none, s)

/-- Perform a sequence of calls, each to its end before the next one starts. -/
def run (s : σ) (calls : List Call) : Except Halt σ :=
  calls.foldlM (fun s call => do let (_, s) ← C.step s call; .ok s) s

end ProcessClass

/-! ## The two classes -/

namespace UserProcess

/-- The memory, the free pages and the processes that are loaded. -/
structure Machine where
  frames : Frames
  process : Nat → Option Image := fun _ => none
  numProcesses : Nat := 0

/-- `UserKernel.initialize`: all pages are free. -/
def boot (numPhysPages : Nat) (memory : Nat → UInt8) : Machine where
  frames := ⟨numPhysPages, memory, (List.range numPhysPages).map fun n : Nat => n⟩

/-- The methods of `UserProcess`. -/
def userProcess : ProcessClass Machine where
  restoreState s _ := .ok s
  readVirtualMemory s p vaddr data offset length :=
    match s.process p with
    | none => .error .nullPointer
    | some image => do
      let (n, data) ← readVirtualMemory s.frames.numPhysPages image.pageTable s.frames.memory
        vaddr data offset length
      .ok (n, s, data)
  writeVirtualMemory s p vaddr data offset length :=
    match s.process p with
    | none => .error .nullPointer
    | some image => do
      let (n, memory) ← writeVirtualMemory s.frames.numPhysPages image.pageTable s.frames.memory
        vaddr data offset length
      .ok (n, { s with frames := { s.frames with memory := memory } })
  execute s executable args :=
    match load s.frames (executable.map (·.coff)) args with
    | .error .asleep => .ok .waits
    | .error e => .error e
    | .ok none => .ok .refused
    | .ok (some (image, frames)) => .ok (.runs
      { frames := frames
        process := Function.update s.process s.numProcesses (some image)
        numProcesses := s.numProcesses + 1 })
  handleExit s p :=
    match s.process p with
    | none => .error .nullPointer
    | some image =>
      let pages := image.pageTable.map (·.ppn)
      .ok { s with
        frames := { s.frames with freePagesPool := s.frames.freePagesPool ++ pages }
        process := Function.update s.process p none }
  numProcesses s := s.numProcesses
  isLive s p := (s.process p).isSome
  numPages s p := ((s.process p).map (·.pageTable.length)).getD 0
  readOnly s p v := ((s.process p).bind fun image => (image.pageTable[v]?).map (·.readOnly)).getD false
  byteAt s p vaddr := (s.process p).bind fun image =>
    (translate image.pageTable vaddr).map s.frames.memory

end UserProcess

namespace Kernel

/-- `Lib.assertTrue(writeVirtualMemory(vaddr, data) == data.length)`. -/
def assertWritten (k : Kernel) (p : Nat) (vaddr : Int) (data : List UInt8) : Except Halt Kernel := do
  let (n, k, _) ← k.writeVirtualMemory p vaddr data 0 data.length
  if n = data.length then .ok k else .error .assertion

/-- The loop over the arguments at the end of `UserProcess.load`. -/
def storeArguments (p : Nat) : List (List UInt8) → Int → Int → Kernel → Except Halt Kernel
  | [], _, _, k => .ok k
  | arg :: rest, entryOffset, stringOffset, k => do
    let k ← k.assertWritten p entryOffset (UserProcess.bytesFromInt (BitVec.ofInt 32 stringOffset))
    let k ← k.assertWritten p stringOffset arg
    let stringOffset := wrap32 (stringOffset + arg.length)
    let k ← k.assertWritten p stringOffset [0]
    storeArguments p rest (wrap32 (entryOffset + 4)) (wrap32 (stringOffset + 1)) k

/-- `UserProcess.load` of a new `VMProcess`, with the copy of the arguments. -/
def execute (k : Kernel) (executable : Option CoffFile) (args : List (List UInt8)) :
    Except Halt (Execution Kernel) :=
  match executable with
  | none => .ok .refused
  | some file =>
    match coffPages 0 file.coff.sections with
    | none => .ok .refused
    | some n =>
      if (pageSize : Int) < UserProcess.argsSize args 0 then .ok .refused
      else do
        let entryOffset := wrap32 (((n + stackPages + 1 : Nat) - 1) * (pageSize : Int))
        let stringOffset := wrap32 (entryOffset + args.length * 4)
        let k ← storeArguments k.numProcesses args entryOffset stringOffset
          (k.load file.coff.sections)
        .ok (.runs k)

/-- The byte of process `p` at a virtual address: in its frame, on swap, or what
    `initializePage` would put there. -/
def byteAt (k : Kernel) (p vaddr : Nat) : Option UInt8 :=
  let v := vaddr / pageSize
  let offset := vaddr % pageSize
  let entry := k.pte p v
  if entry.valid then some (k.memory (frameAddr entry.ppn.toNat offset))
  else if entry.dirty then some (k.swapFile.bytes (entry.ppn.toNat * pageSize + offset))
  else if v < (k.process p).numCoffPages then
    let bucket := (k.process p).coffMap v
    bucket.coffSection.map fun s => s.pageByte bucket.sectionPage.toNat offset
  else some 0

/-- The methods of `VMProcess`. -/
def vmProcess : ProcessClass Kernel where
  restoreState k p := k.step (.contextSwitch (some p))
  readVirtualMemory := readVirtualMemory
  writeVirtualMemory k p vaddr data offset length := do
    let (n, k, _) ← k.writeVirtualMemory p vaddr data offset length
    .ok (n, k)
  execute := execute
  handleExit := handleExit
  numProcesses k := k.numProcesses
  isLive := isLive
  numPages k p := (k.process p).numPages
  readOnly k p v := (k.pte p v).readOnly
  byteAt := byteAt

end Kernel

end Nachos
