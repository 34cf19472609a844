import Coursework.Heap.Memory

/-!
# The allocator `tmalloc`

The functions of `tmalloc.c` on a byte memory. A chunk header is two words, `l` and `r`, at the
address of the chunk; the low bit of `r` is the free bit. Pointers and `unsigned` are 32 bits wide
and a `CHUNK` has 8 bytes. The list walk of `tmalloc` has a bound on its steps, and a call gives
`none` when the walk has not ended within it.
-/

namespace Tmalloc

open Heap

/-- Where the linker puts `arena`: not at NULL, as a pointer needs it, and without going round the
    end of the address space. -/
structure Arena where
  base : BitVec 32
  pos : 0 < base.toNat
  aligned : base.toNat % 4 = 0
  fits : base.toNat + 65536 ≤ 2 ^ 32

/-- The memory and the two static pointers. -/
structure State where
  mem : Memory
  bot : BitVec 32
  top : BitVec 32

def null : BitVec 32 := 0

/-- `sizeof(CHUNK)` -/
def chunkBytes : BitVec 32 := 8

/-- `ARENA_CHUNKS` -/
def arenaChunks : BitVec 32 := 8192

/-! ## Chunk headers -/

/-- `chunk->s.l` -/
def leftLink (m : Memory) (chunk : BitVec 32) : BitVec 32 := m.load chunk

/-- `chunk->s.r` -/
def rightLink (m : Memory) (chunk : BitVec 32) : BitVec 32 := m.load (chunk + 4)

def setLeft (m : Memory) (chunk v : BitVec 32) : Memory := m.store chunk v

def setRight (m : Memory) (chunk v : BitVec 32) : Memory := m.store (chunk + 4) v

/-- `SET_FREEBIT` -/
def setFreebit (m : Memory) (chunk : BitVec 32) : Memory :=
  setRight m chunk (rightLink m chunk ||| 1)

/-- `CLR_FREEBIT` -/
def clrFreebit (m : Memory) (chunk : BitVec 32) : Memory :=
  setRight m chunk (rightLink m chunk &&& ~~~1)

/-- `GET_FREEBIT` -/
def getFreebit (m : Memory) (chunk : BitVec 32) : Bool := rightLink m chunk &&& 1 != 0

/-- `RIGHT` -/
def right (m : Memory) (chunk : BitVec 32) : BitVec 32 := ~~~1 &&& rightLink m chunk

/-- `CHUNKSIZE` -/
def chunkSize (m : Memory) (chunk : BitVec 32) : BitVec 32 := right m chunk - chunk

/-- `TOCHUNK` -/
def toChunk (vp : BitVec 32) : BitVec 32 := vp - chunkBytes

/-- `FROMCHUNK` -/
def fromChunk (chunk : BitVec 32) : BitVec 32 := chunk + chunkBytes

/-! ## The functions -/

def init (A : Arena) (s : State) : State :=
  let bot := A.base
  let top := A.base + chunkBytes * (arenaChunks - 1)
  let m := setLeft s.mem bot null
  let m := setRight m bot top
  let m := setLeft m top bot
  let m := setRight m top null
  let m := setFreebit m bot
  let m := clrFreebit m top
  ⟨m, bot, top⟩

/-- `init` where `bot` is still NULL. -/
def ready (A : Arena) (s : State) : State := if s.bot = null then init A s else s

/-- The size of a chunk for `nbytes` bytes, with its header. -/
def sizeFor (nbytes : BitVec 32) : BitVec 32 :=
  chunkBytes * ((nbytes + chunkBytes - 1) / chunkBytes + 1)

/-- The walk over the chunks to the first free one that is large enough; NULL if there is none. -/
def findChunk (m : Memory) (size : BitVec 32) : Nat → BitVec 32 → Option (BitVec 32)
  | 0, _ => none
  | fuel + 1, p =>
    if p = null then some null
    else if getFreebit m p && decide (size ≤ chunkSize m p) then some p
    else findChunk m size fuel (right m p)

/-- A larger chunk keeps its lower part, the remainder; the upper part is returned. -/
def split (m : Memory) (p size : BitVec 32) : Memory × BitVec 32 :=
  if size < chunkSize m p then
    let m := clrFreebit m p
    let q := p + chunkSize m p - size
    let pr := rightLink m p
    let m := setLeft m q p
    let m := setRight m q pr
    let m := setRight m p q
    let m := setLeft m pr q
    let m := setFreebit m p
    (m, q)
  else (m, p)

def tmalloc (A : Arena) (fuel : Nat) (s : State) (nbytes : BitVec 32) :
    Option (State × BitVec 32) :=
  let s := ready A s
  let size := sizeFor nbytes
  match findChunk s.mem size fuel s.bot with
  | none => none
  | some p =>
    if p = null then some (s, null)
    else
      let (m, p) := split s.mem p size
      some ({ s with mem := clrFreebit m p }, fromChunk p)

/-- The first half of `tfree`: the chunk is joined with a free chunk on its left. -/
def consolidateLeft (m : Memory) (p : BitVec 32) : Memory × BitVec 32 :=
  let q := leftLink m p
  if q ≠ null ∧ getFreebit m q = true then
    let m := clrFreebit m q
    let m := setRight m q (rightLink m p)
    let m := setLeft m (rightLink m p) q
    let m := setFreebit m q
    (m, q)
  else (m, p)

/-- The second half of `tfree`: the chunk is joined with a free chunk on its right. -/
def consolidateRight (m : Memory) (p : BitVec 32) : Memory :=
  let q := right m p
  if q ≠ null ∧ getFreebit m q = true then
    let m := clrFreebit m q
    let m := setRight m p (rightLink m q)
    let m := setLeft m (rightLink m q) p
    setFreebit m q
  else m

def tfree (s : State) (vp : BitVec 32) : State :=
  if vp = null then s
  else
    let p := toChunk vp
    let m := clrFreebit s.mem p
    let (m, p) := consolidateLeft m p
    let m := consolidateRight m p
    { s with mem := setFreebit m p }

def trealloc (A : Arena) (fuel : Nat) (s : State) (vp newbytes : BitVec 32) :
    Option (State × BitVec 32) :=
  if vp = null then tmalloc A fuel s newbytes
  else if newbytes ≠ 0 then
    match tmalloc A fuel s newbytes with
    | none => none
    | some (s, newp) =>
      if newp = null then some (s, null)
      else
        let oldchunk := toChunk vp
        let bytes := chunkSize s.mem oldchunk - chunkBytes
        let bytes := if newbytes < bytes then newbytes else bytes
        let s := { s with mem := s.mem.copy newp vp bytes }
        some (tfree s vp, newp)
  else some (tfree s vp, null)

def tcalloc (A : Arena) (fuel : Nat) (s : State) (nelem elsize : BitVec 32) :
    Option (State × BitVec 32) :=
  let nbytes := nelem * elsize
  match tmalloc A fuel s nbytes with
  | none => none
  | some (s, vp) =>
    if vp = null then some (s, null)
    else some ({ s with mem := s.mem.fill vp 0 nbytes }, vp)

end Tmalloc
