import Coursework.CacheSim.Simulator

/-!
# The submitted prefetcher

`prefetcher.C`: a tagged prefetcher with a reference prediction table (RPT). Two sets of bits
are kept in `char` arrays: `tags` says which addresses were prefetched, `rpt_check` says which
rows of the table have a stride that is worth using. `char` is signed.
-/

namespace CacheSim

/-- `STATE_SIZE`. -/
def stateSize : Nat := 2048

/-- `L2_BLOCK_SIZE`. -/
def l2BlockSize : BitVec 32 := 32

/-- `NUM_REQS_PER_MISS`. -/
def numReqsPerMiss : Int := 3

/-- `NUM_RPT_ENTRIES`. -/
def numRptEntries : Nat := 128

/-- `WORTHWHILE_RPT`. -/
def worthwhileRpt : Int := 128

/-! ## Bit arrays -/

/-- A `char` array that is used as a set of bits. -/
abbrev BitArray := List (BitVec 8)

namespace BitArray

/-- `bit_index`: `size` is the number of bytes. -/
def bitIndex (addr : BitVec 32) (size : Nat) : Nat := addr.toNat % size

/-- `bitArray[char_index]`. -/
def char (bitArray : BitArray) (addr : BitVec 32) (size : Nat) : BitVec 8 :=
  bitArray.getD (bitIndex addr size / 8) 0

def selector (addr : BitVec 32) (size : Nat) : BitVec 8 :=
  1#8 <<< (bitIndex addr size - bitIndex addr size / 8 * 8)

def checkBit (addr : BitVec 32) (bitArray : BitArray) (size : Nat) : Bool :=
  decide (0 < (bitArray.char addr size &&& selector addr size).toInt)

def markBit (addr : BitVec 32) (bitArray : BitArray) (size : Nat) : BitArray :=
  bitArray.set (bitIndex addr size / 8) (bitArray.char addr size ||| selector addr size)

def unmarkBit (addr : BitVec 32) (bitArray : BitArray) (size : Nat) : BitArray :=
  bitArray.set (bitIndex addr size / 8) (bitArray.char addr size &&& ~~~ selector addr size)

end BitArray

open BitArray

/-! ## The prefetcher -/

/-- `rpt_row_entry_t`. -/
structure RptRow where
  pc : BitVec 32
  lastMem : BitVec 32
  lastStride : BitVec 32
  deriving DecidableEq, Repr

/-- The private members and the static arrays. -/
structure RptPrefetcher where
  ready : Bool
  nextReq : Request
  reqLeft : Int
  tags : BitArray
  rptCheck : BitArray
  rptTable : Nat → RptRow

namespace RptPrefetcher

/-- The size that is given for `rpt_check`, in bytes. -/
def rptCheckSize : Nat := numRptEntries / 8 + 1

/-- The constructor. `nextReq` and `reqLeft` are what it leaves unset. -/
def new (nextReq : Request) (reqLeft : Int) : RptPrefetcher where
  ready := false
  nextReq := nextReq
  reqLeft := reqLeft
  tags := List.replicate stateSize 0
  rptCheck := (List.range numRptEntries).foldl
    (fun bits i => unmarkBit (BitVec.ofNat 32 i) bits rptCheckSize)
    (List.replicate rptCheckSize 0)
  rptTable := fun _ => ⟨0, 0, 0⟩

def hasRequest (p : RptPrefetcher) (_cycle : BitVec 32) : Bool × RptPrefetcher := (p.ready, p)

def getRequest (p : RptPrefetcher) (_cycle : BitVec 32) : Request × RptPrefetcher := (p.nextReq, p)

/-- `rpt_row_num`. -/
def rptRowNum (pc : BitVec 32) : Nat := pc.toNat % numRptEntries

/-- The row for this pc holds it and is marked as strong. -/
def usesRpt (p : RptPrefetcher) (pc : BitVec 32) : Bool :=
  (p.rptTable (rptRowNum pc)).pc == pc &&
    checkBit (BitVec.ofNat 32 (rptRowNum pc)) p.rptCheck rptCheckSize

/-- The address to prefetch after `addr`. -/
def nextAddr (p : RptPrefetcher) (pc addr : BitVec 32) : BitVec 32 :=
  if p.usesRpt pc then addr + (p.rptTable (rptRowNum pc)).lastStride else addr + l2BlockSize

def completeRequest (p : RptPrefetcher) (_cycle : BitVec 32) : RptPrefetcher :=
  if p.reqLeft = 0 then { p with ready := false }
  else
    let addr := p.nextAddr p.nextReq.pc p.nextReq.addr
    { p with
      reqLeft := p.reqLeft - 1
      nextReq := { p.nextReq with addr }
      tags := markBit addr p.tags stateSize }

/-- A hit on a prefetched block: prefetch the next one. -/
def tagHit (p : RptPrefetcher) (req : Request) : RptPrefetcher :=
  let addr := p.nextAddr req.pc req.addr
  { p with
    nextReq := { p.nextReq with addr }
    tags := markBit addr p.tags stateSize
    ready := true
    reqLeft := numReqsPerMiss - 1 }

/-- `curr_stride`. -/
def currStride (p : RptPrefetcher) (req : Request) : BitVec 32 :=
  req.addr - (p.rptTable (rptRowNum req.pc)).lastMem

/-- The stride of this miss is that of the one before, and it is worth using. -/
def sameStride (p : RptPrefetcher) (req : Request) : Bool :=
  p.currStride req == (p.rptTable (rptRowNum req.pc)).lastStride &&
    decide (worthwhileRpt < (p.currStride req).toInt)

/-- The RPT processing of a miss. -/
def miss (p : RptPrefetcher) (req : Request) : RptPrefetcher :=
  let row := rptRowNum req.pc
  let bit := BitVec.ofNat 32 row
  let currRow := p.rptTable row
  let p :=
    if currRow.pc == req.pc then
      if p.sameStride req then
        { p with
          rptCheck := markBit bit p.rptCheck rptCheckSize
          nextReq := { p.nextReq with addr := req.addr + p.currStride req } }
      else
        { p with
          rptTable := Function.update p.rptTable row
            { currRow with lastStride := p.currStride req }
          nextReq := { p.nextReq with addr := req.addr + l2BlockSize }
          rptCheck := unmarkBit bit p.rptCheck rptCheckSize }
    else
      { p with
        nextReq := { p.nextReq with addr := req.addr + l2BlockSize }
        rptTable := Function.update p.rptTable row { currRow with lastStride := 0 }
        rptCheck := unmarkBit bit p.rptCheck rptCheckSize }
  { p with
    rptTable := Function.update p.rptTable row
      { p.rptTable row with pc := req.pc, lastMem := req.addr }
    ready := true
    reqLeft := numReqsPerMiss - 1 }

def cpuRequest (p : RptPrefetcher) (req : Request) : RptPrefetcher :=
  let p :=
    if req.hitL1 && checkBit req.addr p.tags stateSize && !p.ready then p.tagHit req
    else if !req.hitL1 then p.miss req
    else p
  { p with tags := unmarkBit req.addr p.tags stateSize }

/-- The prefetcher that `main` is linked with. -/
def prefetcher : Prefetcher RptPrefetcher :=
  ⟨hasRequest, getRequest, completeRequest, cpuRequest⟩

/-! ## Runs -/

/-- A call of a method that changes the prefetcher. -/
inductive Call where
  | cpuRequest (req : Request)
  | completeRequest (cycle : BitVec 32)

def call (p : RptPrefetcher) : Call → RptPrefetcher
  | .cpuRequest req => prefetcher.cpuRequest p req
  | .completeRequest cycle => prefetcher.completeRequest p cycle

def run (p : RptPrefetcher) (calls : List Call) : RptPrefetcher := calls.foldl call p

end RptPrefetcher

end CacheSim
