import Coursework.ForStd.EStateM
import Coursework.Nachos.Mips

/-!
# The processor

The instruction interpreter of `machine/Processor.java`: address translation by a page table
or a TLB, memory accesses, delayed loads, and `Instruction.run` with its four parts. A
`MipsException` and a Java exception both end an instruction in the state it has reached,
which is what `EStateM` keeps.

The instructions only meet memory through `readMem` and `writeMem`, so they are written over
a type of memories with these two operations. `Memory` is the memory of the simulator, with
its translations; a plain byte array is another one.
-/

namespace Nachos

namespace Processor

/-! ## Registers by number -/

/-- `Processor.regRA`. -/
def regRA : Nat := 31

/-- `Processor.regLo`. -/
def regLo : Nat := 32

/-- `Processor.regHi`. -/
def regHi : Nat := 33

/-- `Processor.regPC`. -/
def regPC : Nat := 34

/-- `Processor.regNextPC`. -/
def regNextPC : Nat := 35

/-- `Processor.regCause`. -/
def regCause : Nat := 36

/-- `Processor.regBadVAddr`. -/
def regBadVAddr : Nat := 37

/-- `Processor.numUserRegisters`. -/
def numUserRegisters : Nat := 38

/-! ## Exceptions -/

/-- The causes of a `MipsException`, in the order of `exceptionNames`. -/
inductive Cause where
  | syscall | pageFault | tlbMiss | readOnly | busError | addressError | overflow
  | illegalInstruction
  deriving DecidableEq, Repr

/-- The value of the constant `exception...`. -/
def Cause.code : Cause → BitVec 32
  | .syscall => 0
  | .pageFault => 1
  | .tlbMiss => 2
  | .readOnly => 3
  | .busError => 4
  | .addressError => 5
  | .overflow => 6
  | .illegalInstruction => 7

/-- How an instruction ends when it does not complete. -/
inductive Fault where
  /-- A `MipsException`; the second constructor sets `badVAddr`. -/
  | mips (cause : Cause) (badVAddr : Option (BitVec 32))
  /-- A Java exception or a failed assertion, which ends the simulation. -/
  | java (halt : Halt)
  deriving DecidableEq, Repr

/-! ## Byte strings -/

/-- `Lib.bytesToInt(array, offset, length)`; a byte and a short keep their sign. -/
def bytesToInt (array : Nat → UInt8) (offset : Nat) : Nat → BitVec 32
  | 1 => (array offset).toBitVec.signExtend 32
  | 2 => ((array offset).toBitVec.setWidth 16 |||
      (array (offset + 1)).toBitVec.setWidth 16 <<< 8).signExtend 32
  | 4 => (array offset).toBitVec.setWidth 32 ||| (array (offset + 1)).toBitVec.setWidth 32 <<< 8 |||
      (array (offset + 2)).toBitVec.setWidth 32 <<< 16 |||
      (array (offset + 3)).toBitVec.setWidth 32 <<< 24
  | _ => -1

/-- `Lib.bytesFromInt(array, offset, length, value)`: the byte it stores `i` places after
    `offset`, for `i` below `length`. -/
def byteFromInt (value : BitVec 32) (i : Nat) : UInt8 :=
  UInt8.ofBitVec ((value.sshiftRight (8 * i)).setWidth 8)

/-! ## Memory -/

/-- The field `translations`: a page table, which may be missing and may miss entries, or
    the TLB. -/
inductive Translations where
  | pageTable (table : Option (List (Option TranslationEntry)))
  | tlb (entries : Nat → TranslationEntry)

/-- Where the entry for a virtual page is and what it holds: an index into the page table,
    or a search through all TLB entries. -/
def Translations.lookup : Translations → Nat → Option (Nat × TranslationEntry)
  | .pageTable none, _ => none
  | .pageTable (some table), vpn =>
    match table[vpn]? with
    | some (some entry) => if entry.valid then some (vpn, entry) else none
    | _ => none
  | .tlb entries, vpn =>
    ((List.range tlbSize).find? fun i => (entries i).valid && (entries i).vpn == vpn).map
      fun i => (i, entries i)

/-- The exception for a virtual page without an entry. -/
def Translations.missing : Translations → Cause
  | .pageTable _ => .pageFault
  | .tlb _ => .tlbMiss

/-- Assign to the entry at an index. -/
def Translations.set : Translations → Nat → TranslationEntry → Translations
  | .pageTable table, i, entry => .pageTable (table.map fun t => t.set i (some entry))
  | .tlb entries, i, entry => .tlb (Function.update entries i entry)

/-- Physical memory and the translations. The bytes are a Java array, so their number fits
    an `int`. -/
structure Memory where
  numPhysPages : Nat
  translations : Translations
  mainMemory : Nat → UInt8
  length_lt : numPhysPages * pageSize < 2 ^ 31

namespace Memory

/-- `Processor.translate`. -/
def translate (vaddr : BitVec 32) (size : Nat) (writing : Bool) : EStateM Fault Memory Nat := do
  let m ← get
  if vaddr &&& BitVec.ofNat 32 (size - 1) ≠ 0 then
    throw (.mips .addressError (some vaddr))
  else
    let vpn := pageFromAddress vaddr.toInt
    let offset := offsetFromAddress vaddr.toInt
    match m.translations.lookup vpn with
    | none => throw (.mips m.translations.missing (some vaddr))
    | some (i, entry) =>
      if entry.readOnly && writing then throw (.mips .readOnly (some vaddr))
      else if entry.ppn < 0 ∨ (m.numPhysPages : Int) ≤ entry.ppn then
        throw (.mips .busError (some vaddr))
      else
        -- the bits are set in the entry itself, of the page table or of the TLB
        let entry := { entry with used := true, dirty := entry.dirty || writing }
        set { m with translations := m.translations.set i entry }
        return frameAddr entry.ppn.toNat offset

/-- `Processor.readMem`. -/
def readMem (vaddr : BitVec 32) (size : Nat) : EStateM Fault Memory (BitVec 32) := do
  if ¬ (size = 1 ∨ size = 2 ∨ size = 4) then throw (.java .assertion)
  else
    let paddr ← translate vaddr size false
    let m ← get
    -- `Lib.bytesToInt` would leave the array
    if m.numPhysPages * pageSize < paddr + size then throw (.java .indexOutOfBounds)
    else return bytesToInt m.mainMemory paddr size

/-- `Processor.writeMem`. -/
def writeMem (vaddr : BitVec 32) (size : Nat) (value : BitVec 32) :
    EStateM Fault Memory Unit := do
  if ¬ (size = 1 ∨ size = 2 ∨ size = 4) then throw (.java .assertion)
  else
    let paddr ← translate vaddr size true
    let m ← get
    if m.numPhysPages * pageSize < paddr + size then throw (.java .indexOutOfBounds)
    else set { m with mainMemory := blit m.mainMemory paddr size (byteFromInt value) }

end Memory

/-- What an instruction asks of a memory. -/
class Bus (M : Type) where
  readMem (vaddr : BitVec 32) (size : Nat) : EStateM Fault M (BitVec 32)
  writeMem (vaddr : BitVec 32) (size : Nat) (value : BitVec 32) : EStateM Fault M Unit

instance : Bus Memory := ⟨Memory.readMem, Memory.writeMem⟩

/-! ## The registers and the load in progress -/

/-- The registers and the delayed load. A target of `0` means that no load is in progress. -/
structure Cpu where
  registers : Nat → BitVec 32
  loadTarget : Int
  loadValue : BitVec 32
  loadMask : BitVec 32

/-- The processor with a memory. -/
structure Machine (M : Type) where
  cpu : Cpu
  memory : M

/-- An action that may fail. -/
abbrev Exec (M : Type) := EStateM Fault (Machine M)

/-- `registers[i] = value`, with the bounds of the Java array. -/
def setRegister (i : Int) (value : BitVec 32) : EStateM Fault Cpu Unit := do
  if 0 ≤ i ∧ i < numUserRegisters then
    modify fun c => { c with registers := Function.update c.registers i.toNat value }
  else throw (.java .indexOutOfBounds)

/-- `registers[i]`, with the bounds of the Java array. -/
def getRegister (i : Int) : EStateM Fault Cpu (BitVec 32) := do
  if 0 ≤ i ∧ i < numUserRegisters then return (← get).registers i.toNat
  else throw (.java .indexOutOfBounds)

/-- The first statement of `delayedLoad`: complete previous delayed load, if not modifying r0. -/
def completeLoad : EStateM Fault Cpu Unit := do
  let c ← get
  if c.loadTarget = 0 then pure ()
  else
    let savedBits := (← getRegister c.loadTarget) &&& ~~~ c.loadMask
    let newBits := c.loadValue &&& c.loadMask
    setRegister c.loadTarget (savedBits ||| newBits)

/-- `Processor.delayedLoad`. -/
def delayedLoad (nextLoadTarget : Int) (nextLoadValue nextLoadMask : BitVec 32) :
    EStateM Fault Cpu Unit := do
  completeLoad
  -- schedule next load
  modify fun c => { c with
    loadTarget := nextLoadTarget, loadValue := nextLoadValue, loadMask := nextLoadMask }

/-- `Processor.finishLoad`; also `flushPipe`, which an interrupt calls. -/
def finishLoad : EStateM Fault Cpu Unit := delayedLoad 0 0 0

/-- `Processor.advancePC(nextPC)`. -/
def advancePC (nextPC : BitVec 32) : EStateM Fault Cpu Unit :=
  modify fun c => { c with
    registers := Function.update (Function.update c.registers regPC (c.registers regNextPC))
      regNextPC nextPC }

/-- Run an action on the registers. -/
def onCpu {M : Type} {α : Type} (x : EStateM Fault Cpu α) : Exec M α := fun s =>
  match x s.cpu with
  | .ok a c => .ok a { s with cpu := c }
  | .error e c => .error e { s with cpu := c }

/-- Run an action on the memory. -/
def onMemory {M : Type} {α : Type} (x : EStateM Fault M α) : Exec M α := fun s =>
  match x s.memory with
  | .ok a m => .ok a { s with memory := m }
  | .error e m => .error e { s with memory := m }

/-! ## Instructions -/

/-- The fields of `Instruction` that `execute` and `writeBack` use. The field `dst` keeps
    its value from one instruction to the next in the source, but it is only read by
    instructions that have written it, so it starts from 0 here. -/
structure Instruction where
  info : Mips
  size : Nat
  imm : BitVec 32
  addr : BitVec 32
  nextPC : BitVec 32
  dstReg : Int
  jtarget : BitVec 32
  src1 : BitVec 64
  src2 : BitVec 64
  dst : BitVec 64 := 0
  mask : BitVec 32 := -1
  branch : Bool := true

/-- The `int` in the low half of a `long`. -/
def int (x : BitVec 64) : BitVec 32 := x.setWidth 32

/-- An `int` as a `long`. -/
def long (x : BitVec 32) : BitVec 64 := x.signExtend 64

/-- `Lib.test(flag, bits)`: `(bits & flag) != 0`. -/
def Lib.test (flag bits : BitVec 64) : Bool := bits &&& flag != 0

namespace Instruction

/-- The fields of an instruction word. -/
structure Fields where
  op : BitVec 6
  rs : BitVec 5
  rt : BitVec 5
  rd : BitVec 5
  sh : BitVec 5
  func : BitVec 6
  target : BitVec 26
  imm : BitVec 32

/-- The `Lib.extract` calls of `decode`, and the `Lib.extend` of the immediate. -/
def fields (value : BitVec 32) : Fields where
  op := value.extractLsb' 26 6
  rs := value.extractLsb' 21 5
  rt := value.extractLsb' 16 5
  rd := value.extractLsb' 11 5
  sh := value.extractLsb' 6 5
  func := value.extractLsb' 0 6
  target := value.extractLsb' 0 26
  imm := (value.extractLsb' 0 16).signExtend 32

/-- `Instruction.decode`. The operands are read here, before a load in progress completes. -/
def decode (registers : Nat → BitVec 32) (value : BitVec 32) : Instruction :=
  let f := fields value
  let info := Mips.info f.op f.rt f.func
  let imm := if info.test .unsigned then f.imm &&& 0xFFFF else f.imm
  let src1 := if info.test .src1sh then f.sh.setWidth 64 else long (registers f.rs.toNat)
  let src2 := if info.test .src2imm then long imm else long (registers f.rt.toNat)
  { info
    size := if info.test .sizeb then 1 else if info.test .sizeh then 2
      else if info.test .sizew then 4 else 0
    nextPC := registers regNextPC + 4
    dstReg := if info.test .dstra then regRA else
      match info.format with
      | .ifmt => f.rt.toNat
      | .rfmt => f.rd.toNat
      | _ => -1
    jtarget := match info.format with
      | .rfmt => registers f.rs.toNat
      -- the immediate is taken before it loses its sign
      | .ifmt => registers regNextPC + f.imm <<< 2
      | .jfmt => (registers regNextPC &&& 0xF0000000) ||| f.target.setWidth 32 <<< 2
      | .none => -1
    imm
    addr := registers f.rs.toNat + imm
    src1 := if info.test .unsigned then src1 &&& 0xFFFFFFFF else src1
    src2 := if info.test .unsigned then src2 &&& 0xFFFFFFFF else src2 }

/-- The case `DIV` of `execute`: `Lo` and `Hi` are written before the check of the result. -/
def divide (src1 src2 : BitVec 64) : EStateM Fault Cpu Unit := do
  if src2 = 0 then throw (.mips .overflow none)
  else
    setRegister regLo (int (src1.sdiv src2))
    setRegister regHi (int (src1.srem src2))
    -- the registers are read back as `int`s, with a sign
    if long (← getRegister regLo) * src2 + long (← getRegister regHi) ≠ src1 then
      throw (.mips .overflow none)

variable {M : Type} [Bus M]

/-- `Instruction.fetch`. -/
def fetch : Exec M (BitVec 32) := do
  let pc := (← get).cpu.registers regPC
  onMemory (Bus.readMem pc 4)

/-- `Instruction.execute`: the instruction with the fields `dst`, `mask` and `branch` it
    leaves. -/
def execute (i : Instruction) : Exec M Instruction := do
  -- the shift of a partial word, for the byte an address is in
  let left := (3 - (i.addr &&& 3).toNat) * 8
  let right := (i.addr &&& 3).toNat * 8
  let shift := (i.src1 &&& 0x1F).toNat
  match i.info.operation with
  | .add => return { i with dst := i.src1 + i.src2 }
  | .sub => return { i with dst := i.src1 - i.src2 }
  | .mult =>
    let dst := i.src1 * i.src2
    onCpu (setRegister regLo (dst.extractLsb' 0 32))
    onCpu (setRegister regHi (dst.extractLsb' 32 32))
    return { i with dst }
  | .div =>
    onCpu (divide i.src1 i.src2)
    return i
  | .sll => return { i with dst := i.src2 <<< shift }
  | .sra => return { i with dst := i.src2.sshiftRight shift }
  | .srl => return { i with dst := i.src2 >>> shift }
  | .slt => return { i with dst := if i.src1.slt i.src2 then 1 else 0 }
  | .and => return { i with dst := i.src1 &&& i.src2 }
  | .or => return { i with dst := i.src1 ||| i.src2 }
  | .nor => return { i with dst := ~~~ (i.src1 ||| i.src2) }
  | .xor => return { i with dst := i.src1 ^^^ i.src2 }
  | .lui => return { i with dst := long (i.imm <<< 16) }
  | .beq => return { i with branch := i.src1 == i.src2 }
  | .bne => return { i with branch := i.src1 != i.src2 }
  | .bgez => return { i with branch := (0 : BitVec 64).sle i.src1 }
  | .bgtz => return { i with branch := (0 : BitVec 64).slt i.src1 }
  | .blez => return { i with branch := i.src1.sle 0 }
  | .bltz => return { i with branch := i.src1.slt 0 }
  | .jump => return i
  | .mflo => return { i with dst := long (← onCpu (getRegister regLo)) }
  | .mfhi => return { i with dst := long (← onCpu (getRegister regHi)) }
  | .mtlo =>
    onCpu (setRegister regLo (int i.src1))
    return i
  | .mthi =>
    onCpu (setRegister regHi (int i.src1))
    return i
  | .syscall => throw (.mips .syscall none)
  | .load =>
    let value ← onMemory (Bus.readMem i.addr i.size)
    if !i.info.test .unsigned then
      return { i with dst := long ((value.setWidth (8 * i.size)).signExtend 32) }
    else return { i with dst := long value }
  | .lwl =>
    let value ← onMemory (Bus.readMem (i.addr &&& ~~~ 3) 4)
    -- the addressed byte is highest; preserved bits are 0 in the mask
    return { i with mask := (-1 : BitVec 32) <<< left, dst := long (value <<< left) }
  | .lwr =>
    let value ← onMemory (Bus.readMem (i.addr &&& ~~~ 3) 4)
    return { i with mask := (-1 : BitVec 32) >>> right, dst := long (value >>> right) }
  | .store =>
    onMemory (Bus.writeMem i.addr i.size (int i.src2))
    return i
  -- a partial store reads the word, and writes it back with some of its bytes replaced
  | .swl =>
    let value ← onMemory (Bus.readMem (i.addr &&& ~~~ 3) 4)
    let mask := (-1 : BitVec 32) >>> left
    let dst := i.src2 >>> left &&& long mask ||| long (value &&& ~~~ mask)
    onMemory (Bus.writeMem (i.addr &&& ~~~ 3) 4 (int dst))
    return { i with mask, dst }
  | .swr =>
    let value ← onMemory (Bus.readMem (i.addr &&& ~~~ 3) 4)
    let mask := (-1 : BitVec 32) <<< right
    let dst := i.src2 <<< right &&& long mask ||| long (value &&& ~~~ mask)
    onMemory (Bus.writeMem (i.addr &&& ~~~ 3) 4 (int dst))
    return { i with mask, dst }
  | .unimpl | .invalid => throw (.mips .illegalInstruction none)

/-- Does `writeBack` raise an overflow? The source compares the bits of the constants 31 and
    32, not bits number 31 and 32. -/
def overflows (i : Instruction) : Bool :=
  i.info.test .overflow && Lib.test i.dst 31 != Lib.test i.dst 32

/-- The first statement of `writeBack`. -/
def checkOverflow (i : Instruction) : EStateM Fault Cpu Unit :=
  if i.overflows then throw (.mips .overflow none) else pure ()

/-- `writeBack` completes the load in progress, and starts the one of this instruction. -/
def advanceLoad (i : Instruction) : EStateM Fault Cpu Unit :=
  if i.info.test .delayedload then delayedLoad i.dstReg (int i.dst) i.mask else finishLoad

/-- `writeBack` writes the destination register. -/
def writeDst (i : Instruction) : EStateM Fault Cpu Unit :=
  -- a link instruction stores its return address
  let dst := if i.info.test .link then i.nextPC else int i.dst
  if i.info.test .dst && i.dstReg ≠ 0 then setRegister i.dstReg dst else pure ()

/-- `Instruction.writeBack`. -/
def writeBack (i : Instruction) : EStateM Fault Cpu Unit := do
  checkOverflow i
  advanceLoad i
  writeDst i
  advancePC (if i.info.test .branch && i.branch then i.jtarget else i.nextPC)

/-- `Instruction.run`. -/
def run : Exec M Unit := do
  let value ← fetch
  let i := decode (← get).cpu.registers value
  let i ← execute i
  onCpu (writeBack i)

end Instruction

/-- `MipsException.handle`, up to the call of the exception handler. -/
def handle (cause : Cause) (badVAddr : Option (BitVec 32)) : EStateM Fault Cpu Unit := do
  setRegister regCause cause.code
  match badVAddr with
  | none => pure ()
  | some vaddr => setRegister regBadVAddr vaddr
  finishLoad

end Processor

end Nachos
