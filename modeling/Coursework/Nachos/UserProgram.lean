import Coursework.Nachos.Processor
import Coursework.Nachos.VirtualMemory

/-!
# A user program over demand paging

The processor of the simulator with the kernel that pages: `Instruction.run` loads and stores
through the TLB of the kernel state, and an exception carries the virtual address that
`MipsException.handle` puts in `regBadVAddr`.
-/

namespace Nachos

open Processor (Fault Bus Machine Instruction byteFromInt)

/-- The exception as `Processor.translate` throws it for a virtual address. -/
def MipsException.fault (vaddr : BitVec 32) : MipsException → Fault
  | .addressError => .mips .addressError (some vaddr)
  | .tlbMiss => .mips .tlbMiss (some vaddr)
  | .readOnly => .mips .readOnly (some vaddr)
  | .busError => .mips .busError (some vaddr)

namespace Kernel

/-- `Processor.readMem` for an instruction of the running process. -/
def busRead (vaddr : BitVec 32) (size : Nat) : EStateM Fault Kernel (BitVec 32) := do
  if ¬ (size = 1 ∨ size = 2 ∨ size = 4) then throw (.java .assertion)
  else
    let k ← get
    match k.current with
    | none => throw (.java .nullPointer)
    | some p =>
      match k.translate vaddr.toInt size false with
      | .error e => throw (e.fault vaddr)
      | .ok (paddr, k) =>
        set (k.emit (.read p vaddr.toNat ((List.range size).map fun i => k.memory (paddr + i))))
        return Processor.bytesToInt k.memory paddr size

/-- `Processor.writeMem` for an instruction of the running process. -/
def busWrite (vaddr : BitVec 32) (size : Nat) (value : BitVec 32) : EStateM Fault Kernel Unit := do
  if ¬ (size = 1 ∨ size = 2 ∨ size = 4) then throw (.java .assertion)
  else
    let k ← get
    match k.current with
    | none => throw (.java .nullPointer)
    | some p =>
      match k.writeMem p vaddr.toInt ((List.range size).map (byteFromInt value)) with
      | .error e => throw (e.fault vaddr)
      | .ok k => set k

end Kernel

instance : Bus Kernel := ⟨Kernel.busRead, Kernel.busWrite⟩

namespace Kernel

/-- An instruction of process `p` misses in the TLB: `MipsException.handle`, and
    `VMProcess.handleException` with the address it finds in `regBadVAddr`. -/
def serviceTLBMiss (p : Nat) (random : Fin tlbSize) (s : Machine Kernel) :
    Option (Machine Kernel) :=
  match Instruction.run s with
  | .error (.mips .tlbMiss badVAddr) s =>
    match Processor.handle .tlbMiss badVAddr s.cpu with
    | .ok () c =>
      -- the PC still is that of the instruction, which is run again
      let vaddr := (c.registers Processor.regBadVAddr).toInt
      match s.memory.handleException p vaddr random .tlbMiss with
      | .ok k => some ⟨c, k⟩
      | .error _ => none
    | .error _ _ => none
  | _ => none

/-- An interrupt flushes the pipe and gives the processor to other threads, until the thread of
    `p` has it back; `UThread` saves and restores the registers. -/
def serviceInterrupt (ops : List Op) (s : Machine Kernel) : Option (Machine Kernel) :=
  match Processor.finishLoad s.cpu with
  | .ok () c =>
    match s.memory.run ops with
    | .ok k => some ⟨c, k⟩
    | .error _ => none
  | .error _ _ => none

end Kernel

end Nachos
