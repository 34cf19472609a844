import Mathlib.Algebra.Group.Int.Defs
import Mathlib.Algebra.Group.Nat.Defs
import Mathlib.Logic.Function.Basic
import Mathlib.Data.List.Basic

/-!
# The simulated machine

The part of `nachos.machine` that the kernel code is written against: Java
integers, virtual addresses, translation entries and the sections of a COFF
executable. Memory and files are byte functions; the arrays that carry them in
the simulator have the bounds checked where the kernel indexes them.
-/

namespace Nachos

/-- Why a kernel operation does not return. -/
inductive Halt where
  /-- A failed `Lib.assertTrue`. -/
  | assertion
  /-- A Java `NullPointerException`. -/
  | nullPointer
  /-- A Java `ArrayIndexOutOfBoundsException`. -/
  | indexOutOfBounds
  /-- A Java `NegativeArraySizeException`. -/
  | negativeArraySize
  /-- `pinneded.sleep()` with no other thread to wake the caller. -/
  | asleep
  /-- The iteration bound of a modelled loop is used up. -/
  | outOfFuel
  deriving DecidableEq, Repr

/-- A Java `int` result: the value modulo `2^32`, as a signed number. -/
def wrap32 (x : Int) : Int := Int.bmod x (2 ^ 32)

/-- `Processor.pageSize`. -/
def pageSize : Nat := 0x400

/-- `Processor.tlbSize`. -/
def tlbSize : Nat := 4

/-- `UserProcess.stackPages`. -/
def stackPages : Nat := 8

/-- The 32 bits of a Java `int`, read as an unsigned number: `(long) x & 0xFFFFFFFFL`. -/
def toUnsigned (x : Int) : Nat := (x % 2 ^ 32).toNat

/-- `Processor.pageFromAddress`. -/
def pageFromAddress (address : Int) : Nat := toUnsigned address / pageSize

/-- `Processor.offsetFromAddress`. -/
def offsetFromAddress (address : Int) : Nat := toUnsigned address % pageSize

theorem offsetFromAddress_lt (address : Int) : offsetFromAddress address < pageSize :=
  Nat.mod_lt _ (by decide)

/-- A virtual address is its page number followed by its offset. -/
theorem page_mul_add_offset (address : Int) :
    pageFromAddress address * pageSize + offsetFromAddress address = toUnsigned address := by
  rw [Nat.mul_comm]
  exact Nat.div_add_mod _ _

/-- `nachos.machine.TranslationEntry`. The field `ppn` is a frame number while the
    entry is valid; the VM kernel also keeps the swap slot of a saved page in it. -/
structure TranslationEntry where
  vpn : Nat := 0
  ppn : Int := 0
  valid : Bool := false
  readOnly : Bool := false
  used : Bool := false
  dirty : Bool := false
  deriving DecidableEq, Repr

/-- `nachos.machine.CoffSection`: a section of an executable, with the bytes of the
    file it was read from. The constructor refuses a section whose bytes run past the
    end of the file, so the file needs no length here. -/
structure CoffSection where
  file : Nat → UInt8
  contentOffset : Nat
  size : Nat
  firstVPN : Int
  initialized : Bool
  readOnly : Bool

namespace CoffSection

/-- `CoffSection.getLength`: `Lib.divRoundUp(size, pageSize)`. -/
def numPages (s : CoffSection) : Nat := (s.size + (pageSize - 1)) / pageSize

/-- Is virtual page `v` one of this section's pages? -/
def covers (s : CoffSection) (v : Nat) : Bool :=
  decide (s.firstVPN ≤ v ∧ v < s.firstVPN + s.numPages)

/-- The local `initlen` of `loadPage`: how many bytes of page `spn` come from the file. -/
def initlen (s : CoffSection) (spn : Nat) : Nat :=
  if !s.initialized then 0
  else if spn + 1 = s.numPages then s.size % pageSize
  else pageSize

/-- The bytes `loadPage` leaves in the frame: `initlen` bytes of the file, then zeros. -/
def pageByte (s : CoffSection) (spn offset : Nat) : UInt8 :=
  if offset < s.initlen spn then s.file (s.contentOffset + spn * pageSize + offset) else 0

end CoffSection

/-- The sections of an executable without bytes. `Coff` takes two to ten sections, so that there
    are two of them; they have no pages. -/
def emptySections : List CoffSection :=
  [⟨fun _ => 0, 0, 0, 0, true, true⟩, ⟨fun _ => 0, 0, 0, 0, true, false⟩]

/-- The byte `offset` places above the base of frame `ppn`. -/
def frameAddr (ppn offset : Nat) : Nat := ppn * pageSize + offset

/-- Addresses of distinct frames are distinct. -/
theorem frameAddr_inj {f g i j : Nat} (hi : i < pageSize) (hj : j < pageSize) :
    frameAddr f i = frameAddr g j ↔ f = g ∧ i = j := by
  simp only [frameAddr, pageSize] at *
  omega

/-- Overwrite `n` bytes of a byte array, starting at `base`, with `bytes 0 .. bytes (n-1)`. -/
def blit (memory : Nat → UInt8) (base n : Nat) (bytes : Nat → UInt8) : Nat → UInt8 :=
  fun a => if base ≤ a ∧ a < base + n then bytes (a - base) else memory a

theorem blit_inside {memory bytes : Nat → UInt8} {base n i : Nat} (hi : i < n) :
    blit memory base n bytes (base + i) = bytes i := by
  simp only [blit]
  rw [if_pos ⟨by omega, by omega⟩]
  congr 1
  omega

theorem blit_outside {memory bytes : Nat → UInt8} {base n a : Nat}
    (ha : a < base ∨ base + n ≤ a) : blit memory base n bytes a = memory a := by
  simp only [blit]
  rw [if_neg (by omega)]

/-- An open file of the host: its bytes, zero past the end, and its length. -/
structure HostFile where
  bytes : Nat → UInt8
  length : Nat

namespace HostFile

/-- A file just created or truncated. -/
def empty : HostFile := ⟨fun _ => 0, 0⟩

/-- `StubOpenFile.write(pos, buf, offset, length)`, with `buf` read from `offset` on.
    Seeking to a negative position throws, and the caller gets `-1` and no write. -/
def write (f : HostFile) (pos : Int) (n : Nat) (buf : Nat → UInt8) : HostFile :=
  if pos < 0 then f
  else ⟨blit f.bytes pos.toNat n buf, max f.length (pos.toNat + n)⟩

/-- `StubOpenFile.read(pos, buf, offset, length)` into `buf` at `base`. Only the bytes
    below the end of the file are transferred. -/
def read (f : HostFile) (pos : Int) (n : Nat) (buf : Nat → UInt8) (base : Nat) : Nat → UInt8 :=
  if pos < 0 then buf
  else blit buf base (min n (f.length - pos.toNat)) (fun i => f.bytes (pos.toNat + i))

end HostFile

end Nachos
