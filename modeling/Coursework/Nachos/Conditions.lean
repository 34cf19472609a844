import Coursework.Nachos.Threads

/-!
# Condition variables

`Condition`, which queues a semaphore for each thread that sleeps, and `Condition2`, which
queues the thread itself with interrupts disabled: one condition of either class with its
`Lock`. A step is one thread going from one point where it can be interrupted to the next,
and these are the points where interrupts are enabled again.
-/

namespace Nachos

namespace Conditions

/-- The class of the condition. -/
inductive Kind where
  | condition
  | condition2
  deriving DecidableEq

/-- The methods of the lock and of the condition. -/
inductive Method where
  | acquire
  | release
  | sleep
  | wake
  | wakeAll
  deriving DecidableEq

/-- Where a thread is. -/
inductive Status where
  /-- Running or ready, and in none of the methods. -/
  | client
  /-- In the `KThread.sleep()` of `Lock.acquire`, which the client called, or `sleep`. -/
  | waitLock (inSleep : Bool)
  /-- In `Condition.sleep`, before `waiter.P()`. -/
  | beforeP
  /-- In the `KThread.sleep()` of `waiter.P()`. -/
  | waitSemaphore
  /-- In the `KThread.sleep()` of `Condition2.sleep`. -/
  | waitThread
  /-- In `sleep`, before `conditionLock.acquire()`. -/
  | beforeAcquire
  /-- At the test of the loop of `wakeAll`. -/
  | wakingAll
  deriving DecidableEq

/-- The lock and the condition. `Condition.sleep` makes a semaphore in every call, which is
    named by the thread that sleeps: `value` and `semaphoreQueue` are its fields, and
    `waitQueue` is the list of these semaphores, or the list `waitingThreads` of
    `Condition2`. `moved` is history: what was removed from this list. -/
structure Monitor (T : Type) where
  lockHolder : Option T := none
  lockQueue : List T := []
  waitQueue : List T := []
  moved : List T := []
  value : T → Nat := fun _ => 0
  semaphoreQueue : T → List T := fun _ => []
  status : T → Status := fun _ => .client

variable {T : Type} [DecidableEq T]

namespace Monitor

/-- The thread goes on to `status`. -/
def setStatus (st : Monitor T) (t : T) (status : Status) : Monitor T :=
  { st with status := Function.update st.status t status }

/-- `KThread.ready()`. The thread must not be ready: it is in a `KThread.sleep()`. -/
def ready (st : Monitor T) (u : T) : Option (Monitor T) :=
  match st.status u with
  | .waitLock _ => some (st.setStatus u .client)
  | .waitSemaphore => some (st.setStatus u .beforeAcquire)
  | .waitThread => some (st.setStatus u .beforeAcquire)
  | .client | .beforeP | .beforeAcquire | .wakingAll => none

/-- `Lock.acquire`. -/
def acquire (st : Monitor T) (t : T) (inSleep : Bool) : Option (Monitor T) :=
  match st.lockHolder with
  | some holder =>
    if holder = t then none
    else some { st.setStatus t (.waitLock inSleep) with lockQueue := st.lockQueue ++ [t] }
  -- `waitQueue.acquire(thread)` asserts that nobody waits
  | none =>
    if st.lockQueue = [] then some { st.setStatus t .client with lockHolder := some t } else none

/-- `Lock.release`. -/
def release (st : Monitor T) (t prefer : T) : Option (Monitor T) :=
  if st.lockHolder = some t then
    match nextThread st.lockQueue prefer with
    | none => some { st with lockHolder := none }
    | some u => { st with lockHolder := some u, lockQueue := st.lockQueue.erase u }.ready u
  else none

/-- `Semaphore.P`, by the thread that has made the semaphore. -/
def semaphoreP (st : Monitor T) (t : T) : Monitor T :=
  if st.value t = 0 then
    { st.setStatus t .waitSemaphore with
      semaphoreQueue := Function.update st.semaphoreQueue t (st.semaphoreQueue t ++ [t]) }
  else
    { st.setStatus t .beforeAcquire with value := Function.update st.value t (st.value t - 1) }

/-- `Semaphore.V`, on the semaphore of thread `u`. -/
def semaphoreV (st : Monitor T) (u prefer : T) : Option (Monitor T) :=
  match nextThread (st.semaphoreQueue u) prefer with
  | some thread =>
    { st with semaphoreQueue :=
        Function.update st.semaphoreQueue u ((st.semaphoreQueue u).erase thread) }.ready thread
  | none => some { st with value := Function.update st.value u (st.value u + 1) }

/-- `Condition.sleep`, up to `waiter.P()`. -/
def conditionSleep (st : Monitor T) (t prefer : T) : Option (Monitor T) :=
  { st.setStatus t .beforeP with
    value := Function.update st.value t 0
    semaphoreQueue := Function.update st.semaphoreQueue t []
    waitQueue := st.waitQueue ++ [t] }.release t prefer

/-- `Condition2.sleep`, up to the end of `KThread.sleep()`. -/
def condition2Sleep (st : Monitor T) (t prefer : T) : Option (Monitor T) :=
  (st.release t prefer).map fun st =>
    { st.setStatus t .waitThread with waitQueue := st.waitQueue ++ [t] }

/-- `sleep`. -/
def sleep (kind : Kind) (st : Monitor T) (t prefer : T) : Option (Monitor T) :=
  match kind with
  | .condition => st.conditionSleep t prefer
  | .condition2 => st.condition2Sleep t prefer

/-- `wake`. -/
def wake (kind : Kind) (st : Monitor T) (t prefer : T) : Option (Monitor T) :=
  if st.lockHolder = some t then
    match st.waitQueue with
    | [] => some st
    | u :: rest =>
      match kind with
      | .condition => { st with waitQueue := rest, moved := st.moved ++ [u] }.semaphoreV u prefer
      | .condition2 => { st with waitQueue := rest, moved := st.moved ++ [u] }.ready u
  else none

/-- The loop of `wakeAll`: its test, and one call of `wake`. -/
def wakeAllLoop (kind : Kind) (st : Monitor T) (t prefer : T) : Option (Monitor T) :=
  if st.waitQueue.isEmpty then some (st.setStatus t .client) else st.wake kind t prefer

/-- A call of a method by thread `t`. -/
def call (kind : Kind) (st : Monitor T) (t prefer : T) : Method → Option (Monitor T)
  | .acquire => st.acquire t false
  | .release => st.release t prefer
  | .sleep => st.sleep kind t prefer
  | .wake => st.wake kind t prefer
  | .wakeAll => if st.lockHolder = some t then some (st.setStatus t .wakingAll) else none

/-- One step of a thread, with the method it calls if it is in none. `none` is a failed
    assertion, or a thread in `KThread.sleep()`. -/
def step (kind : Kind) (st : Monitor T) (choice : Choice T Method) : Option (Monitor T) :=
  match st.status choice.thread with
  | .client => st.call kind choice.thread choice.prefer choice.input
  | .beforeP => some (st.semaphoreP choice.thread)
  | .beforeAcquire => st.acquire choice.thread true
  | .wakingAll => st.wakeAllLoop kind choice.thread choice.prefer
  | .waitLock _ | .waitSemaphore | .waitThread => none

/-- Any program of the threads and any schedule: a sequence of steps. -/
def run (kind : Kind) (st : Monitor T) (choices : List (Choice T Method)) : Option (Monitor T) :=
  choices.foldlM (step kind) st

end Monitor

end Conditions

end Nachos
