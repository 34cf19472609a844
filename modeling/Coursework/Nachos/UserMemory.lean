import Coursework.Nachos.Machine

/-!
# Kernel copies without paging

`readVirtualMemory` and `writeVirtualMemory` of `UserProcess`, for a process whose pages are
all in memory. Its `verifyVaddr` only looks at the page number, and the address is first
compared with `pageTable.length*(pageSize-1)`.
-/

namespace Nachos

namespace UserProcess

/-- `UserProcess.verifyVaddr`. -/
def verifyVaddr (numPages vpn : Nat) : Bool := decide (vpn < numPages)

/-- The loop of `writeVirtualMemory`: the return value and the memory. `numPhysPages` is
    the length of the memory array. -/
def writeLoop (numPhysPages : Nat) (pageTable : List TranslationEntry) (vaddr offset : Int)
    (data : List UInt8) (length : Nat) :
    Nat → Nat → (Nat → UInt8) → Except Halt (Nat × (Nat → UInt8))
  | 0, _, _ => .error .outOfFuel
  | fuel + 1, byteNum, memory =>
    let pageIndex := pageFromAddress (vaddr + byteNum)
    if !verifyVaddr pageTable.length pageIndex then .ok (0, memory)
    else
      let pageOffset := offsetFromAddress (vaddr + byteNum)
      let bytesLeftInPage := pageSize - pageOffset
      let bytesToWrite := min bytesLeftInPage (length - byteNum)
      match pageTable[pageIndex]? with
      | none => .error .indexOutOfBounds
      | some entry =>
        let physicalAddr := entry.ppn * pageSize + pageOffset
        let dataPos := wrap32 (offset + byteNum)
        if 0 ≤ physicalAddr ∧ physicalAddr + bytesToWrite ≤ (numPhysPages * pageSize : Nat) ∧
            0 ≤ dataPos ∧ dataPos + bytesToWrite ≤ data.length then
          let bytes := (data.drop dataPos.toNat).take bytesToWrite
          let memory := blit memory physicalAddr.toNat bytesToWrite fun i => bytes.getD i 0
          if byteNum + bytesToWrite < length then
            writeLoop numPhysPages pageTable vaddr offset data length fuel
              (byteNum + bytesToWrite) memory
          else .ok (byteNum + bytesToWrite, memory)
        else .error .indexOutOfBounds

/-- `UserProcess.writeVirtualMemory`. -/
def writeVirtualMemory (numPhysPages : Nat) (pageTable : List TranslationEntry)
    (memory : Nat → UInt8) (vaddr : Int) (data : List UInt8) (offset length : Int) :
    Except Halt (Nat × (Nat → UInt8)) :=
  if offset < 0 ∨ length < 0 ∨ (data.length : Int) < wrap32 (offset + length) then .ok (0, memory)
  else if vaddr < 0 ∨ wrap32 (pageTable.length * (pageSize - 1 : Nat)) ≤ vaddr then .ok (0, memory)
  else
    writeLoop numPhysPages pageTable vaddr offset data length.toNat (length.toNat + 1) 0 memory

/-- The loop of `readVirtualMemory`: the return value and the array. -/
def readLoop (numPhysPages : Nat) (pageTable : List TranslationEntry) (memory : Nat → UInt8)
    (vaddr offset : Int) (length : Nat) :
    Nat → Nat → List UInt8 → Except Halt (Nat × List UInt8)
  | 0, _, _ => .error .outOfFuel
  | fuel + 1, byteNum, data =>
    let pageIndex := pageFromAddress (vaddr + byteNum)
    if !verifyVaddr pageTable.length pageIndex then .ok (0, data)
    else
      let pageOffset := offsetFromAddress (vaddr + byteNum)
      let bytesLeftInPage := pageSize - pageOffset
      let bytesToRead := min bytesLeftInPage (length - byteNum)
      match pageTable[pageIndex]? with
      | none => .error .indexOutOfBounds
      | some entry =>
        let physicalAddr := entry.ppn * pageSize + pageOffset
        let dataPos := wrap32 (offset + byteNum)
        if 0 ≤ physicalAddr ∧ physicalAddr + bytesToRead ≤ (numPhysPages * pageSize : Nat) ∧
            0 ≤ dataPos ∧ dataPos + bytesToRead ≤ data.length then
          let bytes := (List.range bytesToRead).map fun i => memory (physicalAddr.toNat + i)
          let data := data.take dataPos.toNat ++ bytes ++ data.drop (dataPos.toNat + bytesToRead)
          if byteNum + bytesToRead < length then
            readLoop numPhysPages pageTable memory vaddr offset length fuel
              (byteNum + bytesToRead) data
          else .ok (byteNum + bytesToRead, data)
        else .error .indexOutOfBounds

/-- `UserProcess.readVirtualMemory`. -/
def readVirtualMemory (numPhysPages : Nat) (pageTable : List TranslationEntry)
    (memory : Nat → UInt8) (vaddr : Int) (data : List UInt8) (offset length : Int) :
    Except Halt (Nat × List UInt8) :=
  if offset < 0 ∨ length < 0 ∨ (data.length : Int) < wrap32 (offset + length) then .ok (0, data)
  else if vaddr < 0 ∨ wrap32 (pageTable.length * (pageSize - 1 : Nat)) ≤ vaddr then .ok (0, data)
  else
    readLoop numPhysPages pageTable memory vaddr offset length.toNat (length.toNat + 1) 0 data

/-- `Lib.bytesFromInt`: the four bytes of an `int`, the lowest first. -/
def bytesFromInt (value : BitVec 32) : List UInt8 :=
  [0, 8, 16, 24].map fun k => UInt8.ofBitVec ((value >>> k).setWidth 8)

/-- The physical address of a virtual address. -/
def translate (pageTable : List TranslationEntry) (vaddr : Nat) : Option Nat :=
  pageTable[vaddr / pageSize]?.map fun entry => frameAddr entry.ppn.toNat (vaddr % pageSize)

end UserProcess

end Nachos
