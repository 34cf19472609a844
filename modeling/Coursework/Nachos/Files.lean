import Coursework.Nachos.SystemCalls

/-!
# Open files

The descriptors of a `UserProcess` and the disk files behind them. Two descriptors can be
open on one file of the disk; each has a position of its own. `read` and `write` move a
whole buffer in pieces of `buffSize` bytes; `creat`, `open`, `close` and `unlink` change
the table of descriptors.
-/

namespace Nachos

/-- A `String` object. Java's `==` compares where it is, not its characters. -/
structure JavaString where
  reference : Nat
  chars : List UInt8
  deriving DecidableEq

/-- An `OpenFileWithPosition`: the name it was opened with, the file of the disk, and the
    position in it. -/
structure OpenFile where
  name : JavaString
  inode : Nat
  position : Nat
  deriving DecidableEq

namespace OpenFile

/-- `read(buf, offset, length)` of a disk file: the return value, the array and the file. -/
def read (file : OpenFile) (disk : HostFile) (buf : List UInt8) (offset length : Nat) :
    Nat × List UInt8 × OpenFile :=
  let amount := min length (disk.length - file.position)
  let bytes := (List.range amount).map fun i => disk.bytes (file.position + i)
  (amount, buf.take offset ++ bytes ++ buf.drop (offset + amount),
    { file with position := file.position + amount })

/-- `write(buf, offset, length)` of a disk file: the return value, the disk and the file. -/
def write (file : OpenFile) (disk : HostFile) (buf : List UInt8) (offset length : Nat) :
    Nat × HostFile × OpenFile :=
  (length, disk.write file.position length fun i => buf.getD (offset + i) 0,
    { file with position := file.position + length })

end OpenFile

/-- The array `file_descriptors` of a process, the files of the disk, and how many `String`
    objects there are. -/
structure Files where
  fileDescriptors : Nat → Option OpenFile
  disk : Nat → HostFile
  strings : Nat

namespace Files

/-- `NUM_FD`. -/
def numFD : Nat := 16

/-- Assign to `file_descriptors[fd]`. -/
def setDescriptor (t : Files) (fd : Nat) (file : Option OpenFile) : Files :=
  { t with fileDescriptors := Function.update t.fileDescriptors fd file }

/-- Overwrite a file of the disk. -/
def setDisk (t : Files) (inode : Nat) (file : HostFile) : Files :=
  { t with disk := Function.update t.disk inode file }

/-- `file_descriptors[fd]`, where `fd<0||fd>15` counts as null. -/
def descriptor (t : Files) (fd : Int) : Option OpenFile :=
  if fd < 0 ∨ 15 < fd then none else t.fileDescriptors fd.toNat

/-! ## `read` and `write` -/

section Transfers

variable {σ : Type} (C : ProcessClass σ)

open ProcessClass (buffSize)

/-- The loop of `handleRead`. -/
def readLoop (p : Nat) (disk : HostFile) :
    Nat → OpenFile → Int → Int → Int → List UInt8 → σ → Except Halt (Int × OpenFile × σ)
  | 0, _, _, _, _, _, _ => .error .outOfFuel
  | fuel + 1, file, address, remaining, total, buffer, s =>
    if remaining ≤ 0 then .ok (total, file, s)
    else do
      let toRead := min buffSize remaining.toNat
      let (read, buffer, file) := file.read disk buffer 0 toRead
      let (written, s) ← C.writeVirtualMemory s p address buffer 0 read
      if read ≠ written then .ok (-1, file, s)
      else if read < toRead then .ok (total + read, file, s)
      else
        readLoop p disk fuel file (wrap32 (address + read)) (remaining - read) (total + read)
          buffer s

/-- `UserProcess.handleRead`: the result, the process and the files. Each iteration reads a
    byte or is the last. -/
def handleRead (t : Files) (s : σ) (p : Nat) (fd address numBytes : Int) :
    Except Halt (Int × σ × Files) :=
  match t.descriptor fd with
  | none => .ok (-1, s, t)
  | some file => do
    let (result, file, s) ← readLoop C p (t.disk file.inode) (numBytes.toNat + 1) file address
      numBytes 0 (List.replicate buffSize 0) s
    .ok (result, s, t.setDescriptor fd.toNat (some file))

/-- The loop of `handleWrite`. -/
def writeLoop (p : Nat) : Nat → HostFile → OpenFile → Int → Int → Int → List UInt8 → σ →
    Except Halt (Int × HostFile × OpenFile × σ)
  | 0, _, _, _, _, _, _, _ => .error .outOfFuel
  | fuel + 1, disk, file, address, remaining, total, buffer, s =>
    if remaining ≤ 0 then .ok (total, disk, file, s)
    else do
      let toWrite := min buffSize remaining.toNat
      let (read, s, buffer) ← C.readVirtualMemory s p address buffer 0 toWrite
      let (written, disk, file) := file.write disk buffer 0 read
      if read ≠ written then .ok (-1, disk, file, s)
      else if toWrite ≠ written then .ok (-1, disk, file, s)
      else
        writeLoop p fuel disk file (wrap32 (address + written)) (remaining - written)
          (total + written) buffer s

/-- `UserProcess.handleWrite`. -/
def handleWrite (t : Files) (s : σ) (p : Nat) (fd address numBytes : Int) :
    Except Halt (Int × σ × Files) :=
  match t.descriptor fd with
  | none => .ok (-1, s, t)
  | some file => do
    let (result, disk, file, s) ← writeLoop C p (numBytes.toNat + 1) (t.disk file.inode) file
      address numBytes 0 (List.replicate buffSize 0) s
    .ok (result, s, (t.setDescriptor fd.toNat (some file)).setDisk file.inode disk)

end Transfers

/-! ## `creat`, `open`, `close` and `unlink` -/

/-- `getNextFileDescriptor`; `none` for `-1`. -/
def getNextFileDescriptor (t : Files) : Option Nat :=
  (List.range numFD).find? fun i => (t.fileDescriptors i).isNone

/-- `searchNameFileDescriptor`, which compares the names with `==`. -/
def searchNameFileDescriptor (t : Files) (name : JavaString) : Option Nat :=
  (List.range numFD).find? fun i =>
    (t.fileDescriptors i).any fun file => file.name.reference == name.reference

/-- `new String(bytes, 0, length)` at the end of `readVirtualMemoryString`. -/
def newString (t : Files) (chars : List UInt8) : JavaString × Files :=
  (⟨t.strings, chars⟩, { t with strings := t.strings + 1 })

/-- What `fileSystem.open(filename, create)` does: the file of the disk it opens, or null.
    A file that is created is emptied. -/
def fileSystemOpen (t : Files) (name : JavaString) (truncate : Bool) (inode : Option Nat) :
    Option OpenFile × Files :=
  match inode with
  | none => (none, t)
  | some i => (some ⟨name, i, 0⟩, if truncate then t.setDisk i HostFile.empty else t)

/-- `UserProcess.handleCreate`, with the name that it reads and the answer of the file system. -/
def handleCreate (t : Files) (chars : List UInt8) (inode : Option Nat) : Int × Files :=
  match t.getNextFileDescriptor with
  | none => (-1, t)
  | some fd =>
    let (filename, t) := t.newString chars
    let (file, t) := t.fileSystemOpen filename true inode
    (fd, t.setDescriptor fd file)

/-- `UserProcess.handleOpen`. -/
def handleOpen (t : Files) (chars : List UInt8) (inode : Option Nat) : Int × Files :=
  match t.getNextFileDescriptor with
  | none => (-1, t)
  | some fd =>
    let (filename, t) := t.newString chars
    match t.fileSystemOpen filename false inode with
    | (none, t) => (-1, t)
    | (some file, t) => (fd, t.setDescriptor fd (some file))

/-- `UserProcess.handleClose`. -/
def handleClose (t : Files) (fd : Int) : Int × Files :=
  if fd < 0 ∨ 15 < fd then (-1, t)
  else if (t.fileDescriptors fd.toNat).isNone then (-1, t)
  else (0, t.setDescriptor fd.toNat none)

/-- The loop of `handleUnlink`: close the descriptors that `searchNameFileDescriptor` finds. -/
def closeNamed (name : JavaString) : Nat → Files → Files
  | 0, t => t
  | fuel + 1, t =>
    match t.searchNameFileDescriptor name with
    | none => t
    | some i => closeNamed name fuel (t.handleClose i).2

/-- `UserProcess.handleUnlink`, with the answer of `fileSystem.remove(filename)`, which it
    prints. -/
def handleUnlink (t : Files) (chars : List UInt8) (_killed : Bool) : Int × Files :=
  let (filename, t) := t.newString chars
  (0, t.closeNamed filename numFD)

/-- A call that is about the table, with the file name and the answer of the file system. -/
inductive Call where
  | create (chars : List UInt8) (inode : Option Nat)
  | open (chars : List UInt8) (inode : Option Nat)
  | close (fd : Int)
  | unlink (chars : List UInt8) (killed : Bool)

/-- Perform one call: its result and the files. -/
def step (t : Files) : Call → Int × Files
  | .create chars inode => t.handleCreate chars inode
  | .open chars inode => t.handleOpen chars inode
  | .close fd => t.handleClose fd
  | .unlink chars killed => t.handleUnlink chars killed

end Files

end Nachos
