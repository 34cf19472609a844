import Coursework.CacheSim.MemQueue

/-!
# The cache simulator

The CPU that reads a trace (`CPU.C`) and the loop of `main` (`main.C`), one call of `cycle`
for each pass through the loop. The prefetcher is a parameter: it is any object with the
four methods of `prefetcher.h`. A trace is the list of the lines that `fscanf` reads in
full; the first other line ends it.
-/

namespace CacheSim

/-- `cpuState` (`mem-sim.h`). -/
inductive CpuState where
  | idle
  | ready
  | waiting
  | stalledL2
  | stalledWB
  deriving DecidableEq, Repr

/-- What `fscanf` reads from one line of the trace. -/
structure TraceLine where
  ld : Char
  pc : BitVec 32
  addr : BitVec 32
  cyclesSinceLast : BitVec 32
  deriving DecidableEq, Repr

/-- A call of `completeRequest`: the request that was current then, and the request whose
    departure from a queue made `main` call it, if it was one. -/
structure Completion where
  request : Request
  served : Option Request
  deriving DecidableEq, Repr

/-- The CPU. `unread` is the rest of the trace file; `completions` records the calls of
    `completeRequest`. -/
structure CPU where
  unread : List TraceLine
  currReq : Request
  state : CpuState
  readyAt : BitVec 32
  done : Bool
  nRequests : BitVec 32
  hitsL1 : BitVec 32
  hitsL2 : BitVec 32
  totalAccessTime : BitVec 64
  completions : List Completion

namespace CPU

def readNextRequest (cpu : CPU) (cycle : BitVec 32) : CPU :=
  match cpu.unread with
  | line :: rest =>
    { cpu with
      unread := rest
      currReq := { cpu.currReq with
        addr := line.addr
        load := line.ld == 'l'
        pc := line.pc
        hitL1 := false
        hitL2 := false }
      readyAt := cycle + line.cyclesSinceLast + 1
      nRequests := cpu.nRequests + 1 }
  | [] => { cpu with done := true }

/-- The constructor. -/
def new (trace : List TraceLine) : CPU :=
  readNextRequest
    { unread := trace
      currReq := ⟨0, 0, false, true, 0, false, false⟩
      state := .idle
      readyAt := 0
      done := false
      nRequests := 0
      hitsL1 := 0
      hitsL2 := 0
      totalAccessTime := 0
      completions := [] } 0

def isDone (cpu : CPU) : Bool := cpu.done

def issueRequest (cpu : CPU) (cycle : BitVec 32) : Request × CPU :=
  let cpu := { cpu with currReq := { cpu.currReq with issuedAt := cycle } }
  (cpu.currReq, cpu)

def getRequest (cpu : CPU) : Request := cpu.currReq

def completeRequest (cpu : CPU) (cycle : BitVec 32) (served : Option Request) : CPU :=
  readNextRequest
    { cpu with
      state := .idle
      totalAccessTime :=
        cpu.totalAccessTime + (cycle - cpu.currReq.issuedAt + 1).setWidth 64
      hitsL1 := if cpu.currReq.hitL1 then cpu.hitsL1 + 1 else cpu.hitsL1
      hitsL2 := if !cpu.currReq.hitL1 && cpu.currReq.hitL2 then cpu.hitsL2 + 1 else cpu.hitsL2
      completions := cpu.completions ++ [⟨cpu.currReq, served⟩] } cycle

def hitL1 (cpu : CPU) (isHit : Bool) : CPU :=
  { cpu with currReq := { cpu.currReq with hitL1 := isHit } }

def loadHitL2 (cpu : CPU) (isHit : Bool) : CPU :=
  { cpu with currReq := { cpu.currReq with hitL2 := isHit } }

def storeHitL2 (cpu : CPU) (isHit : Bool) : CPU :=
  if isHit then { cpu with hitsL2 := cpu.hitsL2 + 1 } else cpu

def getStatus (cpu : CPU) (cycle : BitVec 32) : CpuState × CPU :=
  if cpu.state = .idle ∧ cpu.readyAt ≤ cycle then (.ready, { cpu with state := .ready })
  else (cpu.state, cpu)

def setStatus (cpu : CPU) (state : CpuState) : CPU := { cpu with state }

end CPU

/-- The methods of a prefetcher with state `σ`. -/
structure Prefetcher (σ : Type) where
  hasRequest : σ → BitVec 32 → Bool × σ
  getRequest : σ → BitVec 32 → Request × σ
  completeRequest : σ → BitVec 32 → σ
  cpuRequest : σ → Request → σ

/-- The variables of `main`. -/
structure Sim (σ : Type) where
  cpu : CPU
  dCache : Cache
  l2Cache : Cache
  writeBuffer : MemQueue
  queueL2 : MemQueue
  queueMem : MemQueue
  pf : σ
  currCycle : BitVec 32
  nRequestsL2 : BitVec 32
  memCycles : BitVec 32
  memQsize : BitVec 32

namespace Sim

variable {σ : Type}

/-- `main` before its loop: the D-cache is write through without write-allocate, the L2 cache
    writes back and allocates. -/
def new (trace : List TraceLine) (pf : σ) : Sim σ where
  cpu := .new trace
  dCache := .new 1024 2 16 false false true fun _ => 0
  l2Cache := .new 1024 8 32 false true false fun _ => 0
  writeBuffer := .new 10 20 true true
  queueL2 := .new 20 20 true false
  queueMem := .new 10 50 false false
  pf := pf
  currCycle := 1
  nRequestsL2 := 0
  memCycles := 0
  memQsize := 0

/-- The CPU has a request ready. -/
def issueReady (P : Prefetcher σ) (s : Sim σ) : Sim σ :=
  let (req, cpu) := s.cpu.issueRequest s.currCycle
  let isHit := s.dCache.check req.addr req.load
  let cpu := cpu.hitL1 isHit
  let req := { req with hitL1 := isHit }
  let s := { s with cpu, pf := P.cpuRequest s.pf req }
  if isHit then
    { s with
      dCache := (s.dCache.access req.addr req.load).2
      cpu := s.cpu.completeRequest s.currCycle none }
  else
    let s := { s with nRequestsL2 := s.nRequestsL2 + 1 }
    if req.load then
      match s.queueL2.add s.dCache req s.currCycle with
      | (true, queueL2) => { s with queueL2, cpu := s.cpu.setStatus .waiting }
      | (false, _) => { s with cpu := s.cpu.setStatus .stalledL2 }
    else
      match s.writeBuffer.add s.dCache req s.currCycle with
      | (true, writeBuffer) =>
        { s with writeBuffer, cpu := s.cpu.completeRequest s.currCycle none }
      | (false, _) => { s with cpu := s.cpu.setStatus .stalledWB }

/-- The CPU after it has issued its request: the request has its time and the result of the
    check of the D-cache. -/
def issued (s : Sim σ) : CPU :=
  ((s.cpu.issueRequest s.currCycle).2).hitL1
    (s.dCache.check s.cpu.currReq.addr s.cpu.currReq.load)

theorem issueReady_eq (P : Prefetcher σ) (s : Sim σ) : s.issueReady P =
    if s.dCache.check s.cpu.currReq.addr s.cpu.currReq.load then
      { s with
        cpu := s.issued.completeRequest s.currCycle none
        pf := P.cpuRequest s.pf s.issued.currReq
        dCache := (s.dCache.access s.cpu.currReq.addr s.cpu.currReq.load).2 }
    else if s.issued.currReq.load then
      match s.queueL2.add s.dCache s.issued.currReq s.currCycle with
      | (true, queueL2) => { s with
          cpu := s.issued.setStatus .waiting
          queueL2 := queueL2
          pf := P.cpuRequest s.pf s.issued.currReq
          nRequestsL2 := s.nRequestsL2 + 1 }
      | (false, _) => { s with
          cpu := s.issued.setStatus .stalledL2
          pf := P.cpuRequest s.pf s.issued.currReq
          nRequestsL2 := s.nRequestsL2 + 1 }
    else
      match s.writeBuffer.add s.dCache s.issued.currReq s.currCycle with
      | (true, writeBuffer) => { s with
          cpu := s.issued.completeRequest s.currCycle none
          writeBuffer := writeBuffer
          pf := P.cpuRequest s.pf s.issued.currReq
          nRequestsL2 := s.nRequestsL2 + 1 }
      | (false, _) => { s with
          cpu := s.issued.setStatus .stalledWB
          pf := P.cpuRequest s.pf s.issued.currReq
          nRequestsL2 := s.nRequestsL2 + 1 } := rfl

/-- The bus to L2 is free, so the prefetcher may use it. -/
def prefetch (P : Prefetcher σ) (s : Sim σ) : Sim σ :=
  match P.hasRequest s.pf s.currCycle with
  | (true, pf) =>
    let (req, pf) := P.getRequest pf s.currCycle
    let req := { req with fromCPU := false, load := true }
    let s := { s with pf, nRequestsL2 := s.nRequestsL2 + 1 }
    match s.queueL2.add s.dCache req s.currCycle with
    | (true, queueL2) => { s with queueL2, pf := P.completeRequest s.pf s.currCycle }
    | (false, _) => s
  | (false, pf) => { s with pf }

/-- The CPU tries again to put its store into the write buffer. -/
def retryWB (s : Sim σ) : Sim σ :=
  match s.writeBuffer.add s.dCache s.cpu.getRequest s.currCycle with
  | (true, writeBuffer) => { s with writeBuffer, cpu := s.cpu.completeRequest s.currCycle none }
  | (false, _) => s

/-- The CPU tries again to put its load into the L2 queue. -/
def retryL2 (s : Sim σ) : Sim σ :=
  match s.queueL2.add s.dCache s.cpu.getRequest s.currCycle with
  | (true, queueL2) => { s with queueL2, cpu := s.cpu.setStatus .waiting }
  | (false, _) => s

/-- The part of the loop that depends on the state of the CPU. -/
def issue (P : Prefetcher σ) (s : Sim σ) : Sim σ :=
  let (status, cpu) := s.cpu.getStatus s.currCycle
  let s := { s with cpu }
  match status with
  | .ready => s.issueReady P
  | .waiting => s.prefetch P
  | .idle => s.prefetch P
  | .stalledWB => (s.prefetch P).retryWB
  | .stalledL2 => s.retryL2

/-- Service the L2 queue. -/
def serviceL2 (s : Sim σ) : Sim σ :=
  if s.queueL2.frontReady s.currCycle then
    let req := s.queueL2.getFront
    let isHit := s.l2Cache.check req.addr req.load
    let s := { s with cpu := s.cpu.loadHitL2 isHit }
    if isHit then
      let s := { s with dCache := (s.dCache.access req.addr req.load).2 }
      let s := if req.fromCPU then
        { s with cpu := s.cpu.completeRequest s.currCycle (some req) } else s
      { s with queueL2 := s.queueL2.remove.2 }
    else
      match s.queueMem.add s.l2Cache req s.currCycle with
      | (true, queueMem) => { s with queueMem, queueL2 := s.queueL2.remove.2 }
      | (false, _) => s
  else s

/-- Service the memory queue. -/
def serviceMem (s : Sim σ) : Sim σ :=
  if s.queueMem.frontReady s.currCycle then
    let req := s.queueMem.getFront
    let s := { s with queueMem := s.queueMem.remove.2 }
    let s := { s with l2Cache := (s.l2Cache.access req.addr req.load).2 }
    let s := if req.load then
      { s with dCache := (s.dCache.access req.addr req.load).2 } else s
    if req.fromCPU && req.load then
      { s with cpu := s.cpu.completeRequest s.currCycle (some req) } else s
  else s

/-- The statistics of the memory queue. -/
def countMem (s : Sim σ) : Sim σ :=
  { s with
    memCycles := if 0 < s.queueMem.getSize then s.memCycles + 1 else s.memCycles
    memQsize := s.memQsize + BitVec.ofNat 32 s.queueMem.getSize }

/-- Service the write buffer. -/
def serviceWB (s : Sim σ) : Sim σ :=
  if s.writeBuffer.frontReady s.currCycle then
    let req := s.writeBuffer.getFront
    let isHit := s.l2Cache.check req.addr req.load
    let s := { s with cpu := s.cpu.storeHitL2 isHit }
    if isHit then
      { s with
        l2Cache := (s.l2Cache.access req.addr req.load).2
        writeBuffer := s.writeBuffer.remove.2 }
    else
      match s.queueMem.add s.l2Cache req s.currCycle with
      | (true, queueMem) => { s with queueMem, writeBuffer := s.writeBuffer.remove.2 }
      | (false, _) => s
  else s

/-- One pass through the loop. -/
def cycle (P : Prefetcher σ) (s : Sim σ) : Sim σ :=
  let s := (s.issue P).serviceL2.serviceMem.countMem.serviceWB
  { s with currCycle := s.currCycle + 1 }

/-- The loop, for at most `n` passes. -/
def run (P : Prefetcher σ) : Nat → Sim σ → Sim σ
  | 0, s => s
  | n + 1, s => if s.cpu.isDone then s else run P n (s.cycle P)

end Sim

end CacheSim
