import Coursework.Nachos.Alarm
import Coursework.Scheduler.Board
import Mathlib.Algebra.Group.Int.Defs
import Mathlib.Algebra.Group.Nat.Defs

/-!
# Kernel threads and interrupts

`KThread` with the round-robin scheduler, `Alarm`, `Semaphore`, `Lock` and `Condition2`, on
one processor. A step is one call of the current thread, or a timer interrupt, with the
context switch that it makes and the rest of the call in which the next thread had stopped;
it ends where that thread goes on with its program. Interrupts are taken only there, if they
are enabled. Threads are numbered; one that has not been forked is new.
-/

namespace Nachos

namespace KThread

/-- The objects that have a wait queue. -/
inductive Waitable where
  | lock (l : Nat)
  | semaphore (s : Nat)
  | condition (c : Nat)
  deriving DecidableEq

/-- The rest of the call in which a thread has given up the processor. -/
inductive Rest where
  /-- `Machine.interrupt().restore(intStatus)`, in `yield`, `P` and `Condition2.sleep`. `begin`
      and the end of an interrupt handler enable interrupts. -/
  | restore (intStatus : Bool)
  /-- The assertion and the `restore` of `Lock.acquire`. -/
  | acquire (l : Nat) (intStatus : Bool)
  /-- Nothing: `join`, `waitUntil` and `sleep` return. -/
  | ret
  deriving DecidableEq

/-- Where a thread is in its program: outside these calls, in `Condition2.sleep` before
    `conditionLock.acquire()`, or in the loop of `Condition2.wakeAll`. -/
inductive Point where
  | client
  | reacquire (l : Nat)
  | wakeAll (c : Nat)
  deriving DecidableEq

/-- The assertions that can fail. -/
inductive Assertion where
  /-- `Machine.interrupt().disabled()` -/
  | disabled
  /-- `status == statusNew`, in `fork` -/
  | statusNew
  /-- `status != statusReady`, in `ready` -/
  | statusReady
  /-- `currentThread.status == statusRunning`, in `yield` -/
  | statusRunning
  /-- `toBeDestroyed == null`, in `finish` -/
  | toBeDestroyed
  /-- `this != currentThread`, in `join` -/
  | currentThread
  /-- `isHeldByCurrentThread()`, or its negation in `acquire` -/
  | held
  /-- `lockHolder == thread`, in `acquire` -/
  | lockHolder
  /-- `waitQueue.isEmpty()`, in `FifoQueue.acquire` -/
  | isEmpty
  deriving DecidableEq

/-- A call of `ready()`: the thread that it makes ready, the thread that makes it, and whether
    that thread is in `finish()`. -/
structure Readied where
  thread : Nat
  current : Nat
  finishing : Bool
  deriving DecidableEq

/-- The state of the kernel. `conditionLock` is the lock of each condition. `sleepers` and
    `readied` are history: the threads that have called `KThread.sleep` themselves, and the
    calls of `ready`. The `value` of a semaphore is an `int` in the source, with the same values
    while there are fewer than `2^31` calls of `V` more than of `P`. -/
structure Kernel where
  conditionLock : Nat → Nat
  enabled : Bool
  currentThread : Nat
  toBeDestroyed : Option Nat := none
  readyQueue : List Nat := []
  status : Nat → Scheduler.Status
  joinedThread : Nat → Option Nat := fun _ => none
  rest : Nat → Rest
  point : Nat → Point := fun _ => .client
  lockHolder : Nat → Option Nat := fun _ => none
  value : Nat → Int
  waitQueue : Waitable → List Nat := fun _ => []
  alarmQueue : List AlarmBucket := []
  sleepers : List Nat := []
  readied : List Readied := []

/-- The main thread is thread 0. -/
def idleThread : Nat := 1

namespace Kernel

/-! ## KThread -/

/-- `ready()`. -/
def ready (k : Kernel) (t : Nat) : Except Assertion Kernel :=
  if k.enabled then .error .disabled
  else if k.status t = .ready then .error .statusReady
  else
    .ok { k with
      status := Function.update k.status t .ready
      readyQueue := if t = idleThread then k.readyQueue else k.readyQueue ++ [t]
      readied := k.readied ++ [⟨t, k.currentThread, k.status k.currentThread == .finished⟩] }

/-- `restoreState()`. -/
def restoreState (k : Kernel) : Kernel :=
  { k with status := Function.update k.status k.currentThread .running, toBeDestroyed := none }

/-- The current thread goes on where it had stopped. -/
def resume (k : Kernel) : Except Assertion Kernel :=
  match k.rest k.currentThread with
  | .restore intStatus => .ok { k with enabled := intStatus }
  | .acquire l intStatus =>
    if k.lockHolder l = some k.currentThread then .ok { k with enabled := intStatus }
    else .error .lockHolder
  | .ret => .ok k

/-- `runNextThread()`, with the context switch. -/
def runNextThread (k : Kernel) : Except Assertion Kernel :=
  if k.enabled then .error .disabled
  else
    { k with
      currentThread := k.readyQueue.head?.getD idleThread
      readyQueue := k.readyQueue.tail }.restoreState.resume

/-- `sleep()`. The caller of `sleep` does `rest` when the thread runs again. -/
def sleep (k : Kernel) (rest : Rest) : Except Assertion Kernel :=
  if k.enabled then .error .disabled
  else
    runNextThread { k with
      status := if k.status k.currentThread = .finished then k.status
        else Function.update k.status k.currentThread .blocked
      rest := Function.update k.rest k.currentThread rest }

/-- The body of `yield()`, with interrupts disabled. -/
def yieldThen (k : Kernel) (rest : Rest) : Except Assertion Kernel :=
  if k.status k.currentThread = .running then do
    let k ← { k with rest := Function.update k.rest k.currentThread rest }.ready k.currentThread
    k.runNextThread
  else .error .statusRunning

/-- `yield()`. -/
def yield (k : Kernel) : Except Assertion Kernel :=
  { k with enabled := false }.yieldThen (.restore k.enabled)

/-- `fork()`, of thread `t`. -/
def fork (k : Kernel) (t : Nat) : Except Assertion Kernel :=
  if k.status t = .new then do
    let k' ← { k with enabled := false
                      rest := Function.update k.rest t (.restore true) }.ready t
    .ok { k' with enabled := k.enabled }
  else .error .statusNew

/-- `finish()`. -/
def finish (k : Kernel) : Except Assertion Kernel :=
  if k.toBeDestroyed = none then do
    let k := { k with
      enabled := false
      toBeDestroyed := some k.currentThread
      status := Function.update k.status k.currentThread .finished }
    let k ← match k.joinedThread k.currentThread with
      | some joinedThread => k.ready joinedThread
      | none => .ok k
    k.sleep .ret
  else .error .toBeDestroyed

/-- `join()`, of thread `t`. Interrupts stay disabled. -/
def join (k : Kernel) (t : Nat) : Except Assertion Kernel :=
  if t = k.currentThread then .error .currentThread
  else if k.status t = .finished then .ok { k with enabled := false }
  else
    match k.joinedThread t with
    | none =>
      { k with enabled := false
               joinedThread := Function.update k.joinedThread t (some k.currentThread) }.sleep .ret
    | some _ => .ok { k with enabled := false }

/-! ## Alarm -/

/-- `waitUntil(x)`, at time `now`. -/
def waitUntil (k : Kernel) (now x : BitVec 64) : Except Assertion Kernel :=
  sleep { k with enabled := false
                 alarmQueue := PriorityQueue.offer AlarmBucket.compareTo k.alarmQueue
                   ⟨now + x, k.currentThread⟩ } .ret

/-- The loop of `timerInterrupt`. Every iteration but the last removes a bucket. -/
def wakeDue (k : Kernel) (now : BitVec 64) : Nat → Except Assertion Kernel
  | 0 => .ok k
  | count + 1 =>
    match k.alarmQueue.head? with
    | none => .ok k
    | some placeholder =>
      if placeholder.time.sle now then do
        let k ← { k with
          alarmQueue := PriorityQueue.poll AlarmBucket.compareTo k.alarmQueue
          }.ready placeholder.kthread
        k.wakeDue now count
      else .ok k

/-- `timerInterrupt()`. After the handler the machine enables interrupts again. -/
def timerInterrupt (k : Kernel) (now : BitVec 64) : Except Assertion Kernel := do
  let k ← { k with enabled := false }.wakeDue now k.alarmQueue.length
  k.yieldThen (.restore true)

/-! ## Semaphore, Lock and Condition2 -/

/-- The first thread of a wait queue is removed and made ready. -/
def readyFirst (k : Kernel) (o : Waitable) (u : Nat) : Except Assertion Kernel := do
  let k' ← { k with enabled := false
                    waitQueue := Function.update k.waitQueue o (k.waitQueue o).tail }.ready u
  .ok { k' with enabled := k.enabled }

/-- The current thread goes to the end of a wait queue and sleeps. -/
def waitFor (k : Kernel) (o : Waitable) (rest : Rest) : Except Assertion Kernel :=
  { k with enabled := false
           waitQueue := Function.update k.waitQueue o (k.waitQueue o ++ [k.currentThread]) }.sleep rest

/-- `Semaphore.P`. -/
def semaphoreP (k : Kernel) (s : Nat) : Except Assertion Kernel :=
  if k.value s = 0 then k.waitFor (.semaphore s) (.restore k.enabled)
  else .ok { k with value := Function.update k.value s (k.value s - 1) }

/-- `Semaphore.V`. -/
def semaphoreV (k : Kernel) (s : Nat) : Except Assertion Kernel :=
  match (k.waitQueue (.semaphore s)).head? with
  | some thread => k.readyFirst (.semaphore s) thread
  | none => .ok { k with value := Function.update k.value s (k.value s + 1) }

/-- `Lock.acquire`. It also ends `Condition2.sleep`. -/
def acquire (k : Kernel) (l : Nat) : Except Assertion Kernel :=
  let k := { k with point := Function.update k.point k.currentThread .client }
  match k.lockHolder l with
  | some holder =>
    if holder = k.currentThread then .error .held
    else k.waitFor (.lock l) (.acquire l k.enabled)
  | none =>
    if k.waitQueue (.lock l) = [] then
      .ok { k with lockHolder := Function.update k.lockHolder l (some k.currentThread) }
    else .error .isEmpty

/-- `Lock.release`. -/
def release (k : Kernel) (l : Nat) : Except Assertion Kernel :=
  if k.lockHolder l = some k.currentThread then
    match (k.waitQueue (.lock l)).head? with
    | some thread =>
      { k with lockHolder := Function.update k.lockHolder l (some thread) }.readyFirst (.lock l) thread
    | none => .ok { k with lockHolder := Function.update k.lockHolder l none }
  else .error .held

/-- `Condition2.sleep`, up to `conditionLock.acquire()`. -/
def conditionSleep (k : Kernel) (c : Nat) : Except Assertion Kernel :=
  if k.lockHolder (k.conditionLock c) = some k.currentThread then do
    let k' ← { k with enabled := false }.release (k.conditionLock c)
    { k' with point := Function.update k'.point k'.currentThread
                (.reacquire (k.conditionLock c)) }.waitFor (.condition c) (.restore k.enabled)
  else .error .held

/-- `Condition2.wake`. -/
def wake (k : Kernel) (c : Nat) : Except Assertion Kernel :=
  if k.lockHolder (k.conditionLock c) = some k.currentThread then
    match (k.waitQueue (.condition c)).head? with
    | some thread => k.readyFirst (.condition c) thread
    | none => .ok k
  else .error .held

/-- The loop of `Condition2.wakeAll`: its test, and the `wake`. -/
def wakeAllLoop (k : Kernel) (c : Nat) : Except Assertion Kernel :=
  if k.waitQueue (.condition c) = [] then
    .ok { k with point := Function.update k.point k.currentThread .client }
  else { k with point := Function.update k.point k.currentThread (.wakeAll c) }.wake c

/-- `Condition2.wakeAll`. -/
def wakeAll (k : Kernel) (c : Nat) : Except Assertion Kernel :=
  if k.lockHolder (k.conditionLock c) = some k.currentThread then k.wakeAllLoop c
  else .error .held

/-! ## Runs -/

/-- The calls of a thread. With `setStatus` its program disables or enables interrupts
    itself. -/
inductive Call where
  | fork (t : Nat)
  | yield
  | sleep
  | finish
  | join (t : Nat)
  | waitUntil (now x : BitVec 64)
  | semaphoreP (s : Nat)
  | semaphoreV (s : Nat)
  | acquire (l : Nat)
  | release (l : Nat)
  | conditionSleep (c : Nat)
  | wake (c : Nat)
  | wakeAll (c : Nat)
  | setStatus (status : Bool)
  deriving DecidableEq

/-- A call of the current thread. -/
def call (k : Kernel) : Call → Except Assertion Kernel
  | .fork t => k.fork t
  | .yield => k.yield
  | .sleep => { k with sleepers := k.sleepers ++ [k.currentThread] }.sleep .ret
  | .finish => k.finish
  | .join t => k.join t
  | .waitUntil now x => k.waitUntil now x
  | .semaphoreP s => k.semaphoreP s
  | .semaphoreV s => k.semaphoreV s
  | .acquire l => k.acquire l
  | .release l => k.release l
  | .conditionSleep c => k.conditionSleep c
  | .wake c => k.wake c
  | .wakeAll c => k.wakeAll c
  | .setStatus status => .ok { k with enabled := status }

/-- What happens next: the current thread goes on, with a call if its program can choose, or
    there is a timer interrupt. -/
inductive Action where
  | go (call : Call)
  | timerInterrupt (now : BitVec 64)
  deriving DecidableEq

/-- One step. The idle thread only yields. While interrupts are disabled, an interrupt is
    not taken. -/
def step (k : Kernel) : Action → Except Assertion Kernel
  | .timerInterrupt now => if k.enabled then k.timerInterrupt now else .ok k
  | .go call =>
    if k.currentThread = idleThread then k.yield
    else
      match k.point k.currentThread with
      | .reacquire l => k.acquire l
      | .wakeAll c => k.wakeAllLoop c
      | .client => k.call call

/-- Any sequence of steps. -/
def run (k : Kernel) (actions : List Action) : Except Assertion Kernel := actions.foldlM step k

/-- The main thread runs, and the idle thread has been forked. -/
def boot (conditionLock : Nat → Nat) (value : Nat → Int) : Kernel where
  conditionLock := conditionLock
  enabled := true
  currentThread := 0
  status := fun t => if t = 0 then .running else if t = idleThread then .ready else .new
  rest := fun _ => .restore true
  value := value

end Kernel

end KThread

end Nachos
