import Coursework.Nachos.Paging

/-!
# Processes over demand paging

What a user program and the system calls do to the paged memory: loads and stores
through the TLB (`Processor.translate`), the kernel's copies to and from a process
(`UserProcess.readVirtualMemory` and `writeVirtualMemory`, with the page hooks that
`VMProcess` overrides), loading, context switches and exit. `Kernel.step` performs one
such operation to its end, `Kernel.run` a sequence of them.
-/

namespace Nachos

/-- The `MipsException`s of `Processor.translate`. -/
inductive MipsException where
  | addressError
  | tlbMiss
  | readOnly
  | busError
  deriving DecidableEq, Repr

namespace Kernel

/-! ## User loads and stores -/

/-- The first valid TLB entry for `vpn`. -/
def lookup (k : Kernel) (vpn : Nat) : Option Nat :=
  (List.range tlbSize).find? fun i => (k.tlb i).valid && (k.tlb i).vpn == vpn

/-- `Processor.translate` with a TLB: the physical address, and the used and dirty bits
    of the entry set. The alignment test `(vaddr & (size-1)) != 0` is written with `%`,
    as `size` is 1, 2 or 4. -/
def translate (k : Kernel) (vaddr : Int) (size : Nat) (writing : Bool) :
    Except MipsException (Nat × Kernel) :=
  if vaddr % size ≠ 0 then .error .addressError
  else
    match k.lookup (pageFromAddress vaddr) with
    | none => .error .tlbMiss
    | some i =>
      let entry := k.tlb i
      if entry.readOnly && writing then .error .readOnly
      else if entry.ppn < 0 ∨ (k.numPhysPages : Int) ≤ entry.ppn then .error .busError
      else
        let entry := { entry with used := true, dirty := entry.dirty || writing }
        .ok (frameAddr entry.ppn.toNat (offsetFromAddress vaddr), k.writeTLBEntry i entry)

/-- `Processor.readMem`: the bytes a load of `size` bytes is assembled from. -/
def readMem (k : Kernel) (p : Nat) (vaddr : Int) (size : Nat) : Except MipsException Kernel := do
  let (paddr, k) ← k.translate vaddr size false
  let bytes := (List.range size).map fun i => k.memory (paddr + i)
  .ok (k.emit (.read p (toUnsigned vaddr) bytes))

/-- `Processor.writeMem`, given the bytes that `Lib.bytesFromInt` makes of the value. -/
def writeMem (k : Kernel) (p : Nat) (vaddr : Int) (bytes : List UInt8) :
    Except MipsException Kernel := do
  let (paddr, k) ← k.translate vaddr bytes.length true
  let k := { k with memory := blit k.memory paddr bytes.length fun i => bytes.getD i 0 }
  .ok (k.emit (.wrote p (toUnsigned vaddr) bytes))

/-! ## Exit -/

/-- One iteration of the loop of `VMProcess.unloadSections`. -/
def unloadPage (p : Nat) (k : Kernel) (i : Nat) : Except Halt Kernel :=
  if (k.pte p i).valid then
    k.modifyFrame (k.pte p i).ppn fun b =>
      { b with assigned := false, used := false, process := none }
  else .ok k

/-- `VMProcess.unloadSections`. -/
def unloadSections (k : Kernel) (p : Nat) : Except Halt Kernel :=
  (List.range (k.process p).numPages).foldlM (unloadPage p) k

/-- The VM side of `UserProcess.handleExit`: `unloadSections`, and the switch to another
    thread in `UThread.finish`. -/
def handleExit (k : Kernel) (p : Nat) : Except Halt Kernel := do
  let k ← k.unloadSections p
  let dead := { k.process p with live := false }
  let k ← { k with process := Function.update k.process p dead }.switchOut
  .ok { k with current := none }

/-- `VMProcess.handleException`: a TLB miss is handled, every other exception ends the
    process through `UserProcess.handleException`. -/
def handleException (k : Kernel) (p : Nat) (vaddr : Int) (random : Fin tlbSize) :
    MipsException → Except Halt Kernel
  | .tlbMiss => k.handleTLBMiss p vaddr random
  | _ => k.handleExit p

/-! ## Kernel copies -/

/-- The end of `VMProcess.verifyVaddr`, once the page is in memory: mark the frame used
    and pinned, and dirty if the copy writes to it. -/
def pinPage (p : Nat) (k : Kernel) (vpn : Nat) (write : Bool) : Except Halt Kernel := do
  let ppn := (k.pte p vpn).ppn
  let k := k.emit (.pin p vpn ppn.toNat (k.invertedPageTable ppn.toNat).pinned)
  let k ← k.modifyFrame ppn fun b =>
    { b with used := true, pinned := true
             tEntry := { b.tEntry with dirty := b.tEntry.dirty || write } }
  if write then k.modifyPTE p vpn fun e => { e with dirty := true } else .ok k

/-- `VMProcess.verifyVaddr`. -/
def verifyVaddr (p : Nat) (k : Kernel) (vpn : Nat) (write : Bool) :
    Except Halt (Bool × Kernel) := do
  if (k.process p).numPages ≤ vpn then .ok (false, k)
  else
    let k ← if (k.pte p vpn).valid then .ok k else k.pageFault p vpn
    let k ← pinPage p k vpn write
    .ok (true, k)

/-- `VMProcess.verifyClean`. -/
def verifyClean (p : Nat) (k : Kernel) (vpn : Nat) : Except Halt Kernel :=
  k.unpin (k.pte p vpn).ppn

/-- One `System.arraycopy` of a kernel copy: `n` bytes between `data` at `dataPos` and
    memory at `physicalAddr`, into memory when `write` is set. -/
def arraycopy (k : Kernel) (write : Bool) (p va : Nat) (physicalAddr dataPos : Int) (n : Nat)
    (data : List UInt8) : Except Halt (Kernel × List UInt8) :=
  if 0 ≤ physicalAddr ∧ physicalAddr + n ≤ (k.numPhysPages * pageSize : Nat) ∧
      0 ≤ dataPos ∧ dataPos + n ≤ data.length then
    let base := physicalAddr.toNat
    let pos := dataPos.toNat
    if write then
      let bytes := (data.drop pos).take n
      let k := { k with memory := blit k.memory base n fun i => bytes.getD i 0 }
      .ok (k.emit (.wrote p va bytes), data)
    else
      let bytes := (List.range n).map fun i => k.memory (base + i)
      .ok (k.emit (.read p va bytes), data.take pos ++ bytes ++ data.drop (pos + n))
  else .error .indexOutOfBounds

/-- The loop of `readVirtualMemory` and `writeVirtualMemory`. The result is the return
    value, the kernel and the array. -/
def copyLoop (verifyVaddr : Kernel → Nat → Bool → Except Halt (Bool × Kernel))
    (verifyClean : Kernel → Nat → Except Halt Kernel) (write : Bool) (p : Nat)
    (vaddr offset : Int) (length : Nat) :
    Nat → Nat → Kernel → List UInt8 → Except Halt (Nat × Kernel × List UInt8)
  | 0, _, _, _ => .error .outOfFuel
  | fuel + 1, byteNum, k, data => do
    let pageIndex := pageFromAddress (vaddr + byteNum)
    let (verified, k) ← verifyVaddr k pageIndex write
    if !verified then .ok (0, k, data)
    else
      let pageOffset := offsetFromAddress (vaddr + byteNum)
      let bytesLeftInPage := pageSize - pageOffset
      let bytesToCopy := min bytesLeftInPage (length - byteNum)
      let physicalAddr := (k.pte p pageIndex).ppn * pageSize + pageOffset
      let (k, data) ← k.arraycopy write p (toUnsigned (vaddr + byteNum)) physicalAddr
        (wrap32 (offset + byteNum)) bytesToCopy data
      let k ← verifyClean k pageIndex
      if byteNum + bytesToCopy < length then
        copyLoop verifyVaddr verifyClean write p vaddr offset length fuel
          (byteNum + bytesToCopy) k data
      else .ok (byteNum + bytesToCopy, k, data)

/-- `UserProcess.readVirtualMemory` and `writeVirtualMemory` differ only in the direction
    of the copy. Both hooks are those of the process's class. -/
def copyVirtualMemory (verifyVaddr : Kernel → Nat → Bool → Except Halt (Bool × Kernel))
    (verifyClean : Kernel → Nat → Except Halt Kernel) (write : Bool) (k : Kernel) (p : Nat)
    (vaddr : Int) (data : List UInt8) (offset length : Int) :
    Except Halt (Nat × Kernel × List UInt8) :=
  if offset < 0 ∨ length < 0 ∨ (data.length : Int) < wrap32 (offset + length) then
    .ok (0, k, data)
  else if vaddr < 0 ∨ wrap32 ((k.process p).numPages * (pageSize - 1 : Nat)) ≤ vaddr then
    .ok (0, k, data)
  else copyLoop verifyVaddr verifyClean write p vaddr offset length.toNat (length.toNat + 1)
    0 k data

/-- `VMProcess.readVirtualMemory`. -/
def readVirtualMemory (k : Kernel) (p : Nat) (vaddr : Int) (data : List UInt8)
    (offset length : Int) : Except Halt (Nat × Kernel × List UInt8) :=
  copyVirtualMemory (verifyVaddr p) (verifyClean p) false k p vaddr data offset length

/-- `VMProcess.writeVirtualMemory`. -/
def writeVirtualMemory (k : Kernel) (p : Nat) (vaddr : Int) (data : List UInt8)
    (offset length : Int) : Except Halt (Nat × Kernel × List UInt8) :=
  copyVirtualMemory (verifyVaddr p) (verifyClean p) true k p vaddr data offset length

/-! ## Loading -/

/-- The contiguity check of `UserProcess.load`: the pages below the stack, or `none` for
    a fragmented executable. -/
def coffPages : Nat → List CoffSection → Option Nat
  | numPages, [] => some numPages
  | numPages, s :: rest =>
    if s.firstVPN ≠ numPages then none else coffPages (numPages + s.numPages) rest

/-- The section loop of `VMProcess.loadSections`: later sections overwrite earlier ones. -/
def mapSections (sections : List CoffSection) (v : Nat) : PtBucket :=
  match sections.reverse.find? (·.covers v) with
  | some s => ⟨some s, v - s.firstVPN⟩
  | none => {}

/-- `VMProcess.loadSections`: the page table of a new process has only invalid, clean
    entries, and `coffMap` records where the bytes of a page come from. -/
def loadSections (numPages : Nat) (sections : List CoffSection) : VMProcess where
  numPages := numPages
  numCoffPages := numPages - (stackPages + 1)
  pageTable := fun v =>
    { vpn := v, ppn := -1
      readOnly := ((mapSections sections v).coffSection.map (·.readOnly)).getD false }
  coffMap := mapSections sections
  live := true

/-- `UserProcess.load` of a new `VMProcess`, without the copy of the arguments, which is
    a `writeVirtualMemory` like any other. -/
def load (k : Kernel) (sections : List CoffSection) : Kernel :=
  match coffPages 0 sections with
  | none => k
  | some n =>
    let child := loadSections (n + stackPages + 1) sections
    { k with process := Function.update k.process k.numProcesses child
             numProcesses := k.numProcesses + 1 }

end Kernel

/-! ## Runs -/

/-- One operation of a run. User accesses and `exit` are those of the running process;
    the processor retries a load or store after a TLB miss as a new operation. -/
inductive Op where
  /-- A process is created and its sections are loaded. -/
  | load (sections : List CoffSection)
  /-- A user load of `size` bytes. -/
  | userLoad (vaddr : Int) (size : Nat) (random : Fin tlbSize)
  /-- A user store of these bytes. -/
  | userStore (vaddr : Int) (bytes : List UInt8) (random : Fin tlbSize)
  /-- `readVirtualMemory` of process `p`. -/
  | kernelRead (p : Nat) (vaddr : Int) (data : List UInt8) (offset length : Int)
  /-- `writeVirtualMemory` of process `p`. -/
  | kernelWrite (p : Nat) (vaddr : Int) (data : List UInt8) (offset length : Int)
  /-- The processor is given to a thread of process `p`, or to a thread of no process. -/
  | contextSwitch (p : Option Nat)
  /-- The running process exits. -/
  | exit

namespace Kernel

/-- Is `p` a process that has been loaded and has not exited? -/
def isLive (k : Kernel) (p : Nat) : Bool := (k.process p).live

/-- The running process performs a memory access; an exception enters the kernel. -/
def userAccess (k : Kernel) (vaddr : Int) (size : Nat) (random : Fin tlbSize)
    (access : Nat → Except MipsException Kernel) : Except Halt Kernel :=
  match k.current with
  | none => .ok k
  | some p =>
    if size = 1 ∨ size = 2 ∨ size = 4 then
      match access p with
      | .ok k => .ok k
      | .error e => k.handleException p vaddr random e
    else .error .assertion

/-- Perform one operation to its end. An operation of a process that is not there to
    perform it does nothing. -/
def step (k : Kernel) : Op → Except Halt Kernel
  | .load sections => .ok (k.load sections)
  | .userLoad vaddr size random =>
    k.userAccess vaddr size random fun p => k.readMem p vaddr size
  | .userStore vaddr bytes random =>
    k.userAccess vaddr bytes.length random fun p => k.writeMem p vaddr bytes
  | .kernelRead p vaddr data offset length =>
    if k.isLive p then do
      let (_, k, _) ← k.readVirtualMemory p vaddr data offset length
      .ok k
    else .ok k
  | .kernelWrite p vaddr data offset length =>
    if k.isLive p then do
      let (_, k, _) ← k.writeVirtualMemory p vaddr data offset length
      .ok k
    else .ok k
  | .contextSwitch next =>
    if next.all k.isLive then do
      let k ← k.switchOut
      .ok { k with current := next }
    else .ok k
  | .exit =>
    match k.current with
    | none => .ok k
    | some p => k.handleExit p

/-- Perform a sequence of operations, each to its end before the next one starts. -/
def run (k : Kernel) (ops : List Op) : Except Halt Kernel := ops.foldlM step k

/-- `VMKernel.initialize`: no process, no page in use, an empty swap file. -/
def initKernel (numPhysPages : Nat) (ioBlocks : Bool) : Kernel :=
  { numPhysPages := numPhysPages, ioBlocks := ioBlocks }

end Kernel

end Nachos
