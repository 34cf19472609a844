import Coursework.Nachos.Processor
import Coursework.Nachos.SystemCalls

/-!
# COFF files

The constructors of `machine/Coff.java` and `machine/CoffSection.java`, which read the headers
of an executable. The numbers in a header are `int`s, and so are the sums that check them. The
file stays as it is while it is read.
-/

namespace Nachos

namespace CoffFormat

/-- How a constructor ends without an object. -/
inductive Stop where
  /-- An `EOFException`: the executable is corrupt. -/
  | eof
  /-- A failed assertion, which ends the simulation. -/
  | assertion
  deriving DecidableEq

/-- `Lib.bytesToUnsignedShort(array, offset)`. -/
def bytesToUnsignedShort (array : Nat → UInt8) (offset : Nat) : BitVec 32 :=
  Processor.bytesToInt array offset 2 &&& 0xFFFF

/-- `Lib.divRoundUp(a, b)`, after its assertion. -/
def divRoundUp (a b : BitVec 32) : BitVec 32 := (a + (b - 1)).sdiv b

/-- `StubOpenFile.length()`. -/
def fileLength (file : HostFile) : BitVec 32 := BitVec.ofNat 32 file.length

/-- `Lib.strictReadFile(file, position, buf, 0, length)`, where `buf` is a new array and `length`
    is positive. -/
def strictReadFile (file : HostFile) (position : BitVec 32) (length : Nat) :
    Except Stop (Nat → UInt8) :=
  if position.toInt < 0 ∨ file.length < position.toNat + length then .error .assertion
  else .ok (file.read position.toInt length (fun _ => 0) 0)

/-! ## Sections -/

/-- The fields of a `CoffSection`, but for its name. -/
structure Section where
  executable : Bool
  readOnly : Bool
  initialized : Bool
  size : BitVec 32
  contentOffset : BitVec 32
  numPages : BitVec 32
  firstVPN : BitVec 32
  deriving DecidableEq

namespace Section

/-- `CoffSection.headerLength`. -/
def headerLength : Nat := 40

/-- The cases of `switch (flags & 0x0FFF)`: `executable`, `readOnly` and `initialized`. -/
def kind (flags : BitVec 32) : Option (Bool × Bool × Bool) :=
  if flags &&& 0x0FFF = 0x0020 then some (true, true, true)
  else if flags &&& 0x0FFF = 0x0040 then some (false, false, true)
  else if flags &&& 0x0FFF = 0x0080 then some (false, false, false)
  else if flags &&& 0x0FFF = 0x0100 then some (false, true, true)
  else none

/-- The last part of the constructor: the section with these addresses, if they are valid. -/
def ofAddresses (file : HostFile) (executable readOnly initialized : Bool)
    (vaddr size contentOffset : BitVec 32) : Except Stop Section :=
  if vaddr.srem 0x400 ≠ 0 ∨ size.toInt < 0 ∨ initialized ∧ (contentOffset.toInt < 0 ∨
      (fileLength file).toInt < (contentOffset + size).toInt) then .error .eof
  else .ok { executable, readOnly, initialized, size, contentOffset,
             numPages := divRoundUp size 0x400, firstVPN := vaddr.sdiv 0x400 }

/-- `new CoffSection(file, coff, headerOffset)`. -/
def ofFile (file : HostFile) (headerOffset : BitVec 32) : Except Stop Section :=
  if headerOffset.toInt < 0 then .error .assertion
  else if (fileLength file).toInt < (headerOffset + BitVec.ofNat 32 headerLength).toInt then
    .error .eof
  else do
    let buf ← strictReadFile file headerOffset headerLength
    -- a section that needs relocation is refused
    if bytesToUnsignedShort buf 32 ≠ 0 then .error .eof
    else
      match kind (Processor.bytesToInt buf 36 4) with
      | none => .error .eof
      | some (executable, readOnly, initialized) =>
        ofAddresses file executable readOnly initialized (Processor.bytesToInt buf 12 4)
          (Processor.bytesToInt buf 16 4) (Processor.bytesToInt buf 20 4)

/-- The section as the loaders see it. -/
def toCoffSection (file : HostFile) (s : Section) : CoffSection where
  file := file.bytes
  contentOffset := s.contentOffset.toNat
  size := s.size.toNat
  firstVPN := s.firstVPN.toInt
  initialized := s.initialized
  readOnly := s.readOnly

end Section

/-! ## Executables -/

/-- The fields of a `Coff`. -/
structure Coff where
  entryPoint : BitVec 32
  sections : List Section
  deriving DecidableEq

namespace Coff

/-- `Coff.headerLength`. -/
def headerLength : Nat := 20

/-- `Coff.aoutHeaderLength`. -/
def aoutHeaderLength : Nat := 28

/-- The loop over the section headers, which start at `offset`, from section `s` on. -/
def readSections (file : HostFile) (offset : BitVec 32) : Nat → Nat → Except Stop (List Section)
  | _, 0 => .ok []
  | s, n + 1 => do
    let first ← Section.ofFile file (offset + BitVec.ofNat 32 (s * Section.headerLength))
    let rest ← readSections file offset (s + 1) n
    .ok (first :: rest)

/-- `new Coff(file)`, where the autograder has no loader of its own. -/
def ofFile (file : HostFile) : Except Stop Coff :=
  if (fileLength file).toInt < (headerLength + aoutHeaderLength : Nat) then .error .eof
  else do
    let headers ← strictReadFile file 0 (headerLength + aoutHeaderLength)
    let magic := bytesToUnsignedShort headers 0
    let numSections := bytesToUnsignedShort headers 2
    let optionalHeaderLength := bytesToUnsignedShort headers 16
    let flags := bytesToUnsignedShort headers 18
    if magic ≠ 0x0162 then .error .eof
    else if numSections.toInt < 2 ∨ 10 < numSections.toInt then .error .eof
    else if flags &&& 0x0003 ≠ 0x0003 then .error .eof
    else do
      let sections ← readSections file (BitVec.ofNat 32 headerLength + optionalHeaderLength) 0
        numSections.toNat
      -- the entry point is read where an `a.out` header of the usual length has it
      .ok ⟨Processor.bytesToInt headers (headerLength + 16) 4, sections⟩

/-- The executable as the loaders see it. -/
def toCoff (file : HostFile) (c : Coff) : UserProcess.Coff where
  sections := c.sections.map (Section.toCoffSection file)
  entryPoint := c.entryPoint.toInt
  fileLength := file.length

end Coff

end CoffFormat

end Nachos
