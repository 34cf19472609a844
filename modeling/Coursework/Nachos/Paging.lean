import Coursework.Nachos.Machine

/-!
# Demand paging: `VMKernel` and the fault path of `VMProcess`

The state of the VM kernel together with the machine it drives, and the functions
that move pages between the COFF file, the frames and the swap file. Every function
keeps the name it has in `vm/VMKernel.java` or `vm/VMProcess.java`. A Java exception
or a failed `Lib.assertTrue` ends the simulation and is an `Except.error`.

`Kernel.trace` is a history variable: the kernel never reads it. It records the
bytes that processes read and write, and the places where the code takes a decision
about a page (a page dropped, a TLB entry overwritten, a dirty bit copied back), so
that properties of whole runs can be stated.
-/

namespace Nachos

/-- What a run records. Processes and pages are numbers, the most recent event is first. -/
inductive Event where
  /-- Process `p` read these bytes at virtual address `va` and up. -/
  | read (p va : Nat) (bytes : List UInt8)
  /-- Process `p` wrote these bytes at virtual address `va` and up. -/
  | wrote (p va : Nat) (bytes : List UInt8)
  /-- `VMKernel.zero` filled the frame of page `v` of `p`; the frame's bytes afterwards. -/
  | zeroed (p v : Nat) (frame : Nat → UInt8)
  /-- `savePage` gave up page `v` of `p` without a copy on swap; the bytes of its frame. -/
  | dropped (p v : Nat) (frame : Nat → UInt8)
  /-- `updateTLB` was called for page `v` of `p`; was that page in the TLB? -/
  | updateTLB (p v : Nat) (inTLB : Bool)
  /-- `addToTLB` overwrote the valid entry `old`; the dirty bit of its page table entry. -/
  | replaced (old : TranslationEntry) (tableDirty : Bool)
  /-- `saveState` copied a dirty bit to page `v` of `p`, whose entry was `before`. -/
  | markDirty (p v : Nat) (before : TranslationEntry)
  /-- `verifyVaddr` pinned frame `f` for page `v` of `p`; was it pinned already? -/
  | pin (p v f : Nat) (already : Bool)
  /-- The clock handed out the unassigned frame `f`; was it pinned? -/
  | claim (f : Nat) (pinned : Bool)

/-- `vm/ptBucket.java`: the COFF page behind a virtual page. -/
structure PtBucket where
  coffSection : Option CoffSection := none
  sectionPage : Int := -1

/-- `vm/invertedBucket.java`; a process reference is the number of the process. -/
structure InvertedBucket where
  tEntry : TranslationEntry := {}
  used : Bool := false
  pinned : Bool := false
  assigned : Bool := false
  process : Option Nat := none
  deriving DecidableEq, Repr

/-- The paging state of a `VMProcess`. A process is live from `loadSections` to its exit. -/
structure VMProcess where
  numPages : Nat := 0
  numCoffPages : Nat := 0
  pageTable : Nat → TranslationEntry := fun _ => {}
  coffMap : Nat → PtBucket := fun _ => {}
  live : Bool := false

/-- The static fields of `VMKernel`, the processes, and the machine. `current` is the
    process of the running thread. `ioBlocks` says whether file I/O gives up the
    processor: `StubFileSystem.delay` does, by sleeping on the alarm. The source counts
    `numSwapPages` in an `int`, with the same values while there are fewer than `2^31` slots. -/
structure Kernel where
  numPhysPages : Nat
  ioBlocks : Bool
  memory : Nat → UInt8 := fun _ => 0
  tlb : Nat → TranslationEntry := fun _ => {}
  invertedPageTable : Nat → InvertedBucket := fun _ => {}
  currentPage : Nat := 0
  swapFile : HostFile := HostFile.empty
  numSwapPages : Nat := 0
  freeSwap : List Nat := []
  process : Nat → VMProcess := fun _ => {}
  numProcesses : Nat := 0
  current : Option Nat := none
  trace : List Event := []

namespace Kernel

/-- Record an event. -/
def emit (k : Kernel) (e : Event) : Kernel := { k with trace := e :: k.trace }

/-- The page table entry of page `v` of process `p`. -/
def pte (k : Kernel) (p v : Nat) : TranslationEntry := (k.process p).pageTable v

/-- Overwrite the page table entry of page `v` of process `p`. -/
def setPTE (k : Kernel) (p v : Nat) (e : TranslationEntry) : Kernel :=
  let owner := k.process p
  let owner := { owner with pageTable := Function.update owner.pageTable v e }
  { k with process := Function.update k.process p owner }

/-- Assign to fields of `pageTable[v]` of process `p`. -/
def modifyPTE (k : Kernel) (p v : Nat) (f : TranslationEntry → TranslationEntry) :
    Except Halt Kernel :=
  if v < (k.process p).numPages then .ok (k.setPTE p v (f (k.pte p v)))
  else .error .indexOutOfBounds

/-- Overwrite `invertedPageTable[f]`. -/
def setFrame (k : Kernel) (f : Nat) (b : InvertedBucket) : Kernel :=
  { k with invertedPageTable := Function.update k.invertedPageTable f b }

/-- Assign to fields of `invertedPageTable[ppn]`. -/
def modifyFrame (k : Kernel) (ppn : Int) (f : InvertedBucket → InvertedBucket) :
    Except Halt Kernel :=
  if 0 ≤ ppn ∧ ppn < k.numPhysPages then
    .ok (k.setFrame ppn.toNat (f (k.invertedPageTable ppn.toNat)))
  else .error .indexOutOfBounds

/-! ## The TLB -/

/-- `Processor.readTLBEntry`: a copy of the entry. -/
def readTLBEntry (k : Kernel) (i : Nat) : TranslationEntry := k.tlb i

/-- `Processor.writeTLBEntry`: stores a copy of the entry. -/
def writeTLBEntry (k : Kernel) (i : Nat) (entry : TranslationEntry) : Kernel :=
  { k with tlb := Function.update k.tlb i entry }

/-- Is page `v` of process `p` in the TLB? The TLB belongs to the running process. -/
def inTLB (k : Kernel) (p v : Nat) : Bool :=
  decide (k.current = some p) &&
    (List.range tlbSize).any fun i => (k.tlb i).valid && (k.tlb i).vpn == v

/-- `if(entry.dirty)` in the loop of `saveState`. -/
def copyDirty (p : Nat) (entry : TranslationEntry) (k : Kernel) : Except Halt Kernel :=
  if entry.dirty then
    (k.emit (.markDirty p entry.vpn (k.pte p entry.vpn))).modifyPTE p entry.vpn
      fun e => { e with dirty := true }
  else .ok k

/-- `if(entry.used)` in the loop of `saveState`. -/
def copyUsed (p : Nat) (entry : TranslationEntry) (k : Kernel) : Except Halt Kernel :=
  if entry.used then do
    let k ← k.modifyPTE p entry.vpn fun e => { e with used := true }
    k.modifyFrame entry.ppn fun b => { b with used := true }
  else .ok k

/-- One iteration of the loop of `saveState`. -/
def saveEntry (p : Nat) (k : Kernel) (i : Nat) : Except Halt Kernel := do
  let entry := k.readTLBEntry i
  if entry.valid then
    let k ← copyDirty p entry k
    let k ← copyUsed p entry k
    .ok (k.writeTLBEntry i { entry with valid := false })
  else .ok k

/-- `VMProcess.saveState`. -/
def saveState (k : Kernel) (p : Nat) : Except Halt Kernel :=
  (List.range tlbSize).foldlM (saveEntry p) k

/-- The running thread is switched out: `UThread.saveState` saves its process. -/
def switchOut (k : Kernel) : Except Halt Kernel :=
  match k.current with
  | some p => k.saveState p
  | none => .ok k

/-- `StubFileSystem.delay`: the running thread sleeps on the alarm and comes back. -/
def delay (k : Kernel) : Except Halt Kernel :=
  if k.ioBlocks then k.switchOut else .ok k

/-- `VMProcess.updateTLB`. The loop assigns to `entry.valid`, but each `entry` is a copy
    made by `readTLBEntry` and none is written back: the TLB does not change. -/
def updateTLB (k : Kernel) (p vpn : Nat) : Kernel :=
  k.emit (.updateTLB p vpn (k.inTLB p vpn))

/-- The index `addToTLB` writes to: the first invalid entry, or a random one. -/
def freeEntry (k : Kernel) (random : Fin tlbSize) : Nat :=
  ((List.range tlbSize).find? fun i => !(k.readTLBEntry i).valid).getD random

/-- `VMProcess.addToTLB`; `random` is the next value of the random generator. -/
def addToTLB (k : Kernel) (p vpn : Nat) (random : Fin tlbSize) : Kernel :=
  let i := k.freeEntry random
  let old := k.readTLBEntry i
  let k := if old.valid then k.emit (.replaced old (k.pte p old.vpn).dirty) else k
  k.writeTLBEntry i (k.pte p vpn)

/-! ## Swap -/

/-- The first half of `VMKernel.addToSwap`, up to `memLock.release()`: choose a slot
    (`freeSwap.poll()` is the least free slot) and pin the frame. -/
def addToSwapBegin (k : Kernel) (ppn : Int) : Except Halt (Nat × Kernel) := do
  let (spn, k) :=
    match k.freeSwap.min? with
    | none => (k.numSwapPages, { k with numSwapPages := k.numSwapPages + 1 })
    | some spn => (spn, { k with freeSwap := k.freeSwap.erase spn })
  let k ← k.modifyFrame ppn fun b => { b with pinned := true }
  .ok (spn, k)

/-- `swapFile.write(swapAddr, memory, physicalAddr, pageSize)` in `addToSwap`. -/
def swapWrite (k : Kernel) (spn : Int) (ppn : Nat) : Kernel :=
  let swapAddr := wrap32 (spn * pageSize)
  let page := fun i => k.memory (frameAddr ppn i)
  { k with swapFile := k.swapFile.write swapAddr pageSize page }

/-- `swapFile.read(swapAddr, memory, physicalAddr, pageSize)` in `loadFromSwap`. -/
def swapRead (k : Kernel) (spn : Int) (ppn : Nat) : Kernel :=
  let swapAddr := wrap32 (spn * pageSize)
  { k with memory := k.swapFile.read swapAddr pageSize k.memory (frameAddr ppn 0) }

/-- `invertedPageTable[ppn].pinned=false`, after the swap I/O. -/
def unpin (k : Kernel) (ppn : Int) : Except Halt Kernel :=
  k.modifyFrame ppn fun b => { b with pinned := false }

/-- `VMKernel.addToSwap`. -/
def addToSwap (k : Kernel) (ppn : Int) : Except Halt (Nat × Kernel) := do
  let (spn, k) ← k.addToSwapBegin ppn
  let k ← k.delay
  let k ← (k.swapWrite spn ppn.toNat).unpin ppn
  .ok (spn, k)

/-- `VMKernel.loadFromSwap`. The slot is free again afterwards. -/
def loadFromSwap (k : Kernel) (spn : Int) (ppn : Nat) : Except Halt Kernel := do
  let k ← k.modifyFrame ppn fun b => { b with pinned := true }
  let k ← k.delay
  let k ← (k.swapRead spn ppn).unpin ppn
  .ok { k with freeSwap := spn.toNat :: k.freeSwap }

/-! ## Eviction and the clock -/

/-- The end of `VMProcess.savePage`: the mapping is no longer valid. -/
def invalidate (k : Kernel) (p vpn : Nat) : Except Halt Kernel := do
  let k ← k.modifyPTE p vpn fun e => { e with valid := false }
  .ok (k.updateTLB p vpn)

/-- `VMProcess.savePage`. -/
def savePage (k : Kernel) (p vpn : Nat) : Except Halt Kernel := do
  if (k.process p).numPages ≤ vpn then .error .indexOutOfBounds
  else
    let tEntry := k.pte p vpn
    if tEntry.dirty then
      let (swapLocation, k) ← k.addToSwap tEntry.ppn
      let k ← k.modifyPTE p vpn fun e => { e with ppn := swapLocation }
      k.invalidate p vpn
    else
      (k.emit (.dropped p vpn fun i => k.memory (frameAddr tEntry.ppn.toNat i))).invalidate p vpn

/-- `VMKernel.evictPage`. -/
def evictPage (k : Kernel) (ppn : Nat) : Except Halt Kernel :=
  let bucket := k.invertedPageTable ppn
  match bucket.process with
  | none => .error .nullPointer
  | some p => k.savePage p bucket.tEntry.vpn

/-- `VMKernel.assignPage`. -/
def assignPage (k : Kernel) (ppn p vpn : Nat) : Kernel :=
  let bucky := k.invertedPageTable ppn
  k.setFrame ppn { bucky with
    tEntry := { bucky.tEntry with ppn := ppn, vpn := vpn, valid := true }
    assigned := true, used := true, process := some p }

/-- The clock passes over frame `c`: the used bits of the frame and of its page are
    cleared. The code does this in its pinned and in its unpinned branch alike. -/
def passOver (k : Kernel) (c : Nat) : Except Halt Kernel := do
  let bucket := k.invertedPageTable c
  let k := k.setFrame c { bucket with used := false }
  match bucket.process with
  | none => .error .nullPointer
  | some p =>
    let k ← k.modifyPTE p bucket.tEntry.vpn fun e => { e with used := false }
    .ok { k with currentPage := c + 1 }

/-- The loop of `VMKernel.clockAlgorithm`; `none` when it goes to sleep because it has
    passed over `numPhysPages` frames and all of them were pinned. -/
def clockLoop : Nat → Nat → Bool → Kernel → Except Halt (Option Nat × Kernel)
  | 0, _, _, _ => .error .outOfFuel
  | fuel + 1, total, notPinned, k =>
    let c := k.currentPage % k.numPhysPages
    let bucket := k.invertedPageTable c
    if !bucket.assigned then
      .ok (some c, { k with currentPage := c + 1 }.emit (.claim c bucket.pinned))
    else if !bucket.pinned && !bucket.used then
      .ok (some c, { k with currentPage := c + 1 })
    else do
      let notPinned := notPinned || !bucket.pinned
      let k ← k.passOver c
      if k.numPhysPages ≤ total + 1 && !notPinned then .ok (none, k)
      else clockLoop fuel (total + 1) notPinned k

/-- `VMKernel.clockAlgorithm`, up to its return or to `pinneded.sleep()`. Two sweeps are
    enough iterations: the first clears the used bit of every unpinned frame. -/
def clockAlgorithm (k : Kernel) : Except Halt (Option Nat × Kernel) :=
  clockLoop (2 * k.numPhysPages + 1) 0 false k

/-- The rest of `VMKernel.getAvailablePage`, once the clock has chosen a frame. -/
def takePage (k : Kernel) (availablePage p vpn : Nat) : Except Halt Kernel := do
  let k ←
    if (k.invertedPageTable availablePage).assigned then k.evictPage availablePage
    else .ok k
  .ok (k.assignPage availablePage p vpn)

/-- `VMKernel.getAvailablePage`. No other thread runs during the call, so a caller
    that goes to sleep in the clock is not woken. -/
def getAvailablePage (k : Kernel) (p vpn : Nat) : Except Halt (Nat × Kernel) := do
  match ← k.clockAlgorithm with
  | (none, _) => .error .asleep
  | (some f, k) =>
    let k ← k.takePage f p vpn
    .ok (f, k)

/-! ## Filling a page -/

/-- `VMKernel.zero`: `Arrays.fill(memory, physAddress, physAddress+pageSize-1, 0)`. The
    upper bound of `Arrays.fill` is exclusive, so the last byte of the frame is not filled. -/
def zero (k : Kernel) (ppn : Nat) : Kernel :=
  { k with memory := blit k.memory (frameAddr ppn 0) (pageSize - 1) fun _ => 0 }

/-- `CoffSection.loadPage`. -/
def loadPage (k : Kernel) (s : CoffSection) (spn : Int) (ppn : Nat) : Except Halt Kernel := do
  if 0 ≤ spn ∧ spn < s.numPages ∧ ppn < k.numPhysPages then
    let k ← if 0 < s.initlen spn.toNat then k.delay else .ok k
    .ok { k with memory := blit k.memory (frameAddr ppn 0) pageSize (s.pageByte spn.toNat) }
  else .error .assertion

/-- The first part of `VMProcess.initializePage`: put the bytes of page `vpn` in frame `ppn`. -/
def fillPage (k : Kernel) (ppn p vpn : Nat) : Except Halt Kernel :=
  if (k.pte p vpn).dirty then k.loadFromSwap (k.pte p vpn).ppn ppn
  else if vpn < (k.process p).numCoffPages then
    let bucket := (k.process p).coffMap vpn
    match bucket.coffSection with
    | none => .error .nullPointer
    | some s => k.loadPage s bucket.sectionPage ppn
  else
    let k := k.zero ppn
    .ok (k.emit (.zeroed p vpn fun i => k.memory (frameAddr ppn i)))

/-- `VMProcess.initializePage`. -/
def initializePage (k : Kernel) (ppn p vpn : Nat) : Except Halt Kernel := do
  let k ← k.fillPage ppn p vpn
  k.modifyPTE p vpn fun e => { e with ppn := ppn, used := true, valid := true }

/-- `VMProcess.pageFault`. -/
def pageFault (k : Kernel) (p vpn : Nat) : Except Halt Kernel := do
  let (newPage, k) ← k.getAvailablePage p vpn
  k.initializePage newPage p vpn

/-- `VMProcess.handleTLBMiss`. -/
def handleTLBMiss (k : Kernel) (p : Nat) (vAddr : Int) (random : Fin tlbSize) :
    Except Halt Kernel := do
  let vpn := pageFromAddress vAddr
  if vpn < (k.process p).numPages then
    let k ← if (k.pte p vpn).valid then .ok k else k.pageFault p vpn
    .ok (k.addToTLB p vpn random)
  else .error .assertion

end Kernel

end Nachos
