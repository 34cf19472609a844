import Coursework.Nachos.VirtualMemory

/-!
# Interleaved paging

The functions of `Paging.lean` and `VirtualMemory.lean` cut where the code gives up
`memLock`: around the swap I/O of `addToSwap` and `loadFromSwap`, in `pinneded.sleep()`,
and between `verifyVaddr` and `verifyClean`. Every process has one thread. A step runs
the thread of the running process from one such point to the next, or gives the
processor to another thread; what a thread does while it has the lock is one step.
-/

namespace Nachos

/-- The caller of `pageFault`, and what it still needs to know. -/
inductive Caller where
  | handleTLBMiss (random : Fin tlbSize)
  | verifyVaddr (write : Bool)
  deriving DecidableEq

/-- Where a thread is while it does not have `memLock`. `vpn` is the page it needs and
    `caller` the function that called `pageFault` for it. -/
inductive Pc where
  /-- Outside the paging code. -/
  | idle
  /-- In `pinneded.sleep()`; `woken` once it has been woken. -/
  | asleep (vpn : Nat) (caller : Caller) (woken : Bool)
  /-- In `addToSwap(ppn)`, called by `savePage(victim)` of process `owner` for the frame
      `availablePage`; `written` once the page is in slot `spn`. -/
  | saving (vpn : Nat) (caller : Caller) (availablePage owner victim : Nat) (ppn : Int) (spn : Nat)
      (written : Bool)
  /-- In `loadFromSwap(spn, ppn)`; `done` once the page is in the frame. -/
  | loading (vpn : Nat) (caller : Caller) (ppn : Nat) (spn : Int) (done : Bool)
  /-- In a kernel copy, between `verifyVaddr(vpn)` and `verifyClean(vpn)`. The frame that
      `verifyVaddr` pinned is a history variable. -/
  | copying (vpn frame : Nat)
  deriving DecidableEq

/-- `pinneded.wakeAll()` for one thread. -/
def Pc.wake : Pc → Pc
  | .asleep vpn caller _ => .asleep vpn caller true
  | pc => pc

/-- The kernel and the threads. -/
structure World where
  kernel : Kernel
  pc : Nat → Pc := fun _ => .idle

namespace World

/-- The thread of `p` goes to `pc`, with the kernel as it left it. -/
def goto (w : World) (p : Nat) (pc : Pc) (k : Kernel) : World :=
  ⟨k, Function.update w.pc p pc⟩

/-- `pinneded.wakeAll()`. -/
def wakeAll (w : World) : World := { w with pc := fun p => (w.pc p).wake }

/-- The caller of `pageFault` goes on to its end. -/
def finishFault (w : World) (p vpn : Nat) (k : Kernel) : Caller → Except Halt World
  | .handleTLBMiss random => .ok (w.goto p .idle (k.addToTLB p vpn random))
  | .verifyVaddr write => do
    let k' ← Kernel.pinPage p k vpn write
    .ok (w.goto p (.copying vpn (k.pte p vpn).ppn.toNat) k')

/-- `assignPage`, and `initializePage` up to its end or to the read from swap. -/
def fill (w : World) (p vpn : Nat) (caller : Caller) (availablePage : Nat) (k : Kernel) :
    Except Halt World := do
  let k := k.assignPage availablePage p vpn
  let spn := (k.pte p vpn).ppn
  if (k.pte p vpn).dirty then
    let k ← k.modifyFrame availablePage fun b => { b with pinned := true }
    .ok (w.goto p (.loading vpn caller availablePage spn false) k)
  else
    let k ← k.initializePage availablePage p vpn
    w.finishFault p vpn k caller

/-- `evictPage`, up to the write to swap, or to the end of the fault if the page is clean. -/
def evict (w : World) (p vpn : Nat) (caller : Caller) (availablePage : Nat) (k : Kernel) :
    Except Halt World := do
  let bucket := k.invertedPageTable availablePage
  let victim := bucket.tEntry.vpn
  match bucket.process with
  | none => .error .nullPointer
  | some owner =>
    if (k.process owner).numPages ≤ victim then .error .indexOutOfBounds
    else
      let tEntry := k.pte owner victim
      if tEntry.dirty then
        let (spn, k) ← k.addToSwapBegin tEntry.ppn
        .ok (w.goto p (.saving vpn caller availablePage owner victim tEntry.ppn spn false) k)
      else
        let k ← k.invalidate owner victim
        w.fill p vpn caller availablePage k

/-- `pageFault`: the clock, and what follows it. -/
def pageFault (w : World) (p vpn : Nat) (caller : Caller) (k : Kernel) : Except Halt World := do
  match ← k.clockAlgorithm with
  | (none, k) => .ok (w.goto p (.asleep vpn caller false) k)
  | (some f, k) =>
    if (k.invertedPageTable f).assigned then w.evict p vpn caller f k
    else w.fill p vpn caller f k

/-- `checkValidAddress`, and `pageFault` if the page is not in memory. -/
def needPage (w : World) (p vpn : Nat) (caller : Caller) : Except Halt World :=
  if (w.kernel.pte p vpn).valid then w.finishFault p vpn w.kernel caller
  else w.pageFault p vpn caller w.kernel

/-- The thread of `p` gets `memLock` back. -/
def resume (w : World) (p : Nat) : Except Halt World :=
  match w.pc p with
  | .asleep vpn caller true => w.pageFault p vpn caller w.kernel
  | .saving vpn caller availablePage owner victim ppn spn true => do
    let k ← w.kernel.unpin ppn
    let k ← k.modifyPTE owner victim fun e => { e with ppn := spn }
    let k ← k.invalidate owner victim
    w.wakeAll.fill p vpn caller availablePage k
  | .loading vpn caller ppn spn true => do
    let k ← w.kernel.unpin ppn
    let k := { k with freeSwap := spn.toNat :: k.freeSwap }
    let k ← k.modifyPTE p vpn fun e => { e with ppn := ppn, used := true, valid := true }
    w.wakeAll.finishFault p vpn k caller
  | _ => .ok w

/-- The swap I/O of the thread of `p`. -/
def transfer (w : World) (p : Nat) : World :=
  match w.pc p with
  | .saving vpn caller availablePage owner victim ppn spn false =>
    w.goto p (.saving vpn caller availablePage owner victim ppn spn true)
      (w.kernel.swapWrite spn ppn.toNat)
  | .loading vpn caller ppn spn false =>
    w.goto p (.loading vpn caller ppn spn true) (w.kernel.swapRead spn ppn)
  | _ => w

/-- `verifyClean` at the end of a kernel copy. -/
def clean (w : World) (p : Nat) : Except Halt World :=
  match w.pc p with
  | .copying vpn _ => do
    let k ← Kernel.verifyClean p w.kernel vpn
    .ok (w.wakeAll.goto p .idle k)
  | _ => .ok w

/-- A `System.arraycopy` of the kernel copy. -/
def copy (w : World) (p : Nat) (write : Bool) (pageOffset n : Nat) (data : List UInt8) :
    Except Halt World :=
  match w.pc p with
  | .copying vpn _ => do
    let (k, _) ← w.kernel.arraycopy write p (vpn * pageSize + pageOffset)
      ((w.kernel.pte p vpn).ppn * pageSize + pageOffset) 0 n data
    .ok { w with kernel := k }
  | _ => .ok w

/-- A load or store of the running process; a trap enters the kernel. -/
def userAccess (w : World) (p : Nat) (vaddr : Int) (random : Fin tlbSize)
    (result : Except MipsException Kernel) : Except Halt World :=
  match result with
  | .ok k => .ok { w with kernel := k }
  | .error .tlbMiss =>
    if pageFromAddress vaddr < (w.kernel.process p).numPages then
      w.needPage p (pageFromAddress vaddr) (.handleTLBMiss random)
    else .error .assertion
  | .error _ => do
    let k ← w.kernel.handleExit p
    .ok { w with kernel := k }

end World

/-- A step of the running thread, or a context switch. -/
inductive Action where
  | load (sections : List CoffSection)
  | contextSwitch (next : Option Nat)
  | userLoad (vaddr : Int) (size : Nat) (random : Fin tlbSize)
  | userStore (vaddr : Int) (bytes : List UInt8) (random : Fin tlbSize)
  | verifyVaddr (vpn : Nat) (write : Bool)
  | copy (write : Bool) (pageOffset n : Nat) (data : List UInt8)
  | verifyClean
  | transfer
  | resume
  | exit

namespace World

/-- What the running thread of `p` does. Only a thread outside the paging code can start
    an operation. -/
def act (w : World) (p : Nat) : Action → Except Halt World
  | .load sections => .ok { w with kernel := w.kernel.load sections }
  | .contextSwitch _ => .ok w
  | .userLoad vaddr size random =>
    if w.pc p = .idle then w.userAccess p vaddr random (w.kernel.readMem p vaddr size) else .ok w
  | .userStore vaddr bytes random =>
    if w.pc p = .idle then w.userAccess p vaddr random (w.kernel.writeMem p vaddr bytes) else .ok w
  | .verifyVaddr vpn write =>
    if w.pc p = .idle ∧ vpn < (w.kernel.process p).numPages then
      w.needPage p vpn (.verifyVaddr write)
    else .ok w
  | .copy write pageOffset n data => w.copy p write pageOffset n data
  | .verifyClean => w.clean p
  | .transfer => .ok (w.transfer p)
  | .resume => w.resume p
  | .exit =>
    if w.pc p = .idle then do
      let k ← w.kernel.handleExit p
      .ok { w with kernel := k }
    else .ok w

/-- One step. A context switch saves the state of the process that was running. -/
def step (w : World) : Action → Except Halt World
  | .contextSwitch next =>
    if next.all w.kernel.isLive then do
      let k ← w.kernel.switchOut
      .ok { w with kernel := { k with current := next } }
    else .ok w
  | action =>
    match w.kernel.current, action with
    | some p, action => w.act p action
    | none, .load sections => .ok { w with kernel := w.kernel.load sections }
    | none, _ => .ok w

/-- Any interleaving is a sequence of steps. -/
def run (w : World) (actions : List Action) : Except Halt World := actions.foldlM step w

/-- The booted kernel. -/
def init (numPhysPages : Nat) (ioBlocks : Bool) : World :=
  { kernel := Kernel.initKernel numPhysPages ioBlocks }

end World

end Nachos
