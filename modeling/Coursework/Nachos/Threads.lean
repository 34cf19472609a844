import Coursework.Monitor.Mesa

/-!
# Kernel threads

`Lock`, `Semaphore` and `Condition` of `nachos.threads`, for threads that execute a
program. A step is one thread going from one point where it can be interrupted to the
next: `Lock` and `Semaphore` disable interrupts. `release` gives the lock to the thread
that the scheduler takes from its queue, and that thread has the lock when it runs again.
-/

namespace Nachos

open Mesa (Instr Program)

/-- Where a thread is. -/
inductive Status (L C P : Type) where
  /-- Running or ready, at a statement of the program. -/
  | ready (pc : P)
  /-- In the `KThread.sleep()` of `Lock.acquire`. -/
  | waitLock (l : L) (next : P)
  /-- In `Condition.sleep`, before `waiter.P()`. -/
  | beforeP (c : C) (next : P)
  /-- In the `KThread.sleep()` of `waiter.P()`. -/
  | waitSemaphore (c : C) (next : P)
  /-- In `Condition.sleep`, before `conditionLock.acquire()`. -/
  | beforeAcquire (c : C) (next : P)
  deriving DecidableEq

/-- `KThread.ready()`, for a thread in `KThread.sleep()`. -/
def Status.wake {L C P : Type} : Status L C P → Status L C P
  | .waitLock _ next => .ready next
  | .waitSemaphore c next => .beforeAcquire c next
  | status => status

/-- The threads with their locks and conditions. A semaphore is made by every call of
    `Condition.sleep`, so it is named by the thread that sleeps; `value` is its value. -/
structure Threads (T L C P S : Type) where
  shared : S
  lockHolder : L → Option T := fun _ => none
  lockQueue : L → List T := fun _ => []
  waitQueue : C → List T := fun _ => []
  value : T → Nat := fun _ => 0
  status : T → Status L C P

/-- What decides the next step: the thread that runs, the input to its statement, and the
    thread that the scheduler prefers if a lock is released. -/
structure Choice (T I : Type) where
  thread : T
  input : I
  prefer : T

/-- `ThreadQueue.nextThread()`: some thread of the queue, or none if it is empty. -/
def nextThread {T : Type} [DecidableEq T] (queue : List T) (prefer : T) : Option T :=
  if prefer ∈ queue then some prefer else queue.head?

namespace Threads

variable {T L C P S I : Type} [DecidableEq T] [DecidableEq L] [DecidableEq C]

/-- The thread goes on to `status`. -/
def setStatus (st : Threads T L C P S) (t : T) (status : Status L C P) : Threads T L C P S :=
  { st with status := Function.update st.status t status }

/-- `Lock.acquire`. -/
def acquire (st : Threads T L C P S) (t : T) (l : L) (next : P) : Option (Threads T L C P S) :=
  match st.lockHolder l with
  | none =>
    some { st.setStatus t (.ready next) with
      lockHolder := Function.update st.lockHolder l (some t) }
  | some holder =>
    if holder = t then none
    else
      some { st.setStatus t (.waitLock l next) with
        lockQueue := Function.update st.lockQueue l (st.lockQueue l ++ [t]) }

/-- `Lock.release`. -/
def release (st : Threads T L C P S) (t : T) (l : L) (prefer : T) : Option (Threads T L C P S) :=
  if st.lockHolder l = some t then
    match nextThread (st.lockQueue l) prefer with
    | none => some { st with lockHolder := Function.update st.lockHolder l none }
    | some u =>
      some { st.setStatus u (st.status u).wake with
        lockHolder := Function.update st.lockHolder l (some u)
        lockQueue := Function.update st.lockQueue l ((st.lockQueue l).erase u) }
  else none

/-- `Semaphore.P` on the semaphore of the thread itself, in `Condition.sleep`. -/
def semaphoreP (st : Threads T L C P S) (t : T) (c : C) (next : P) : Threads T L C P S :=
  if st.value t = 0 then st.setStatus t (.waitSemaphore c next)
  else { st.setStatus t (.beforeAcquire c next) with
    value := Function.update st.value t (st.value t - 1) }

/-- `Semaphore.V` on the semaphore of thread `u`, which waits in `P` if any thread does. -/
def semaphoreV (st : Threads T L C P S) (u : T) : Threads T L C P S :=
  match st.status u with
  | .waitSemaphore _ _ => st.setStatus u (st.status u).wake
  | _ => { st with value := Function.update st.value u (st.value u + 1) }

/-- `Condition.sleep`, up to `waiter.P()`. The thread has the lock until then, so nothing
    can come between `waitQueue.add` and the release. -/
def sleep (m : Program T L C P S I) (st : Threads T L C P S) (t : T) (c : C) (next : P)
    (prefer : T) : Option (Threads T L C P S) :=
  { st.setStatus t (.beforeP c next) with
    value := Function.update st.value t 0
    waitQueue := Function.update st.waitQueue c (st.waitQueue c ++ [t]) }.release
      t (m.lockOf c) prefer

/-- `Condition.wake`. -/
def wake (m : Program T L C P S I) (st : Threads T L C P S) (t : T) (c : C) :
    Option (Threads T L C P S) :=
  if st.lockHolder (m.lockOf c) = some t then
    match st.waitQueue c with
    | [] => some st
    | waiter :: rest =>
      some ({ st with waitQueue := Function.update st.waitQueue c rest }.semaphoreV waiter)
  else none

/-- A statement of the program. `none` is a failed assertion, or a thread that cannot go
    on. -/
def exec (m : Program T L C P S I) (st : Threads T L C P S) (t prefer : T) :
    Instr L C P S → Option (Threads T L C P S)
  | .act shared next => some { st.setStatus t (.ready next) with shared := shared }
  | .acquire l next => st.acquire t l next
  | .release l next => (st.setStatus t (.ready next)).release t l prefer
  | .sleep c next => sleep m st t c next prefer
  | .wake c next => (wake m st t c).map fun st => st.setStatus t (.ready next)
  | .stuck => none

/-- One step of a thread. A thread in `KThread.sleep()` has none. -/
def step (m : Program T L C P S I) (st : Threads T L C P S) (choice : Choice T I) :
    Option (Threads T L C P S) :=
  match st.status choice.thread with
  | .ready pc =>
    exec m st choice.thread choice.prefer (m.instr choice.thread pc st.shared choice.input)
  | .waitLock _ _ => none
  | .beforeP c next => some (st.semaphoreP choice.thread c next)
  | .waitSemaphore _ _ => none
  | .beforeAcquire c next => st.acquire choice.thread (m.lockOf c) next

/-- Any interleaving is a sequence of steps. -/
def run (m : Program T L C P S I) (st : Threads T L C P S) (choices : List (Choice T I)) :
    Option (Threads T L C P S) := choices.foldlM (step m) st

end Threads

end Nachos
