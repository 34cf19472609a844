import Coursework.Nachos.Threads

/-!
# Devices behind a lock and a semaphore

The kernel lets one thread at a time use a device. A call takes a lock, starts the device,
waits on a semaphore until the interrupt handler of the device calls `V`, and releases the
lock. `Gate` is the lock with the semaphore. `Transmitter` is a device that sends: the link
under `PostOffice.send`, and the console under `SynchConsole.writeByte`.
-/

namespace Nachos

/-- Where a thread is in a call `C`. -/
inductive Gate.Stage (C : Type) where
  | outside
  /-- In the `KThread.sleep()` of `Lock.acquire()`. -/
  | waitLock (call : C)
  /-- After `Lock.acquire()`. -/
  | locked (call : C)
  /-- Before `Semaphore.P()`. -/
  | beforeP
  /-- In the `KThread.sleep()` of `Semaphore.P()`. -/
  | waitP
  /-- After `Semaphore.P()`. -/
  | afterP
  deriving DecidableEq

/-- The thread gets the lock that it waits for. -/
def Gate.Stage.admitted {C : Type} : Stage C → Stage C
  | .waitLock call => .locked call
  | stage => stage

/-- A lock with the threads that wait for it, a semaphore with the threads that wait in `P`, and
    where each thread is. -/
structure Gate (T C : Type) where
  holder : Option T := none
  lockQueue : List T := []
  value : Nat := 0
  waitQueue : List T := []
  stage : T → Gate.Stage C := fun _ => .outside

namespace Gate

variable {T C : Type} [DecidableEq T]

/-- The thread goes on to `stage`. -/
def setStage (g : Gate T C) (t : T) (stage : Stage C) : Gate T C :=
  { g with stage := Function.update g.stage t stage }

/-- `Lock.acquire()`. `none` is a failed assertion. -/
def acquire (g : Gate T C) (t : T) (call : C) : Option (Gate T C) :=
  match g.holder with
  | none => some ({ g with holder := some t }.setStage t (.locked call))
  | some u =>
    -- a thread must not acquire a lock that it has
    if u = t then none
    else some ({ g with lockQueue := g.lockQueue ++ [t] }.setStage t (.waitLock call))

/-- `Lock.release()`. `none` is a failed assertion. -/
def release (g : Gate T C) (t prefer : T) : Option (Gate T C) :=
  if g.holder = some t then
    let g := g.setStage t .outside
    match nextThread g.lockQueue prefer with
    | none => some { g with holder := none }
    | some u =>
      some ({ g with holder := some u, lockQueue := g.lockQueue.erase u }.setStage u
        (g.stage u).admitted)
  else none

/-- `Semaphore.P()`. -/
def semaphoreP (g : Gate T C) (t : T) : Gate T C :=
  if g.value = 0 then { g with waitQueue := g.waitQueue ++ [t] }.setStage t .waitP
  else { g with value := g.value - 1 }.setStage t .afterP

/-- `Semaphore.V()`. -/
def semaphoreV (g : Gate T C) (prefer : T) : Gate T C :=
  match nextThread g.waitQueue prefer with
  | none => { g with value := g.value + 1 }
  -- the value stays 0: the thread that wakes up has it
  | some u => { g with waitQueue := g.waitQueue.erase u }.setStage u .afterP

end Gate

/-- A device that sends `P` for a message `M`: its lock and semaphore, what it is sending, and
    the number of its send interrupts that are pending. The last two are history: what each
    thread has started the device with, and what the device has sent. -/
structure Transmitter (T M P : Type) where
  gate : Gate T M := {}
  outgoing : Option P := none
  sendInterrupts : Nat := 0
  sent : List (T × M) := []
  carried : List P := []

namespace Transmitter

variable {T M P : Type}

/-- Start the device. -/
def start (m : Transmitter T M P) (p : P) : Transmitter T M P :=
  -- a device that is already at work has its interrupt scheduled
  { m with
    sendInterrupts := if m.outgoing.isNone then m.sendInterrupts + 1 else m.sendInterrupts
    outgoing := some p }

variable [DecidableEq T]

/-- A thread calls the driver, which acquires the lock. -/
def call (m : Transmitter T M P) (t : T) (message : M) : Option (Transmitter T M P) := do
  let gate ← m.gate.acquire t message
  return { m with gate }

/-- The next step of a thread in a call. -/
def step (load : M → P) (m : Transmitter T M P) (t prefer : T) : Option (Transmitter T M P) :=
  match m.gate.stage t with
  | .outside | .waitLock _ | .waitP => some m
  | .locked message =>
    some { m.start (load message) with
      gate := m.gate.setStage t .beforeP, sent := m.sent ++ [(t, message)] }
  | .beforeP => some { m with gate := m.gate.semaphoreP t }
  | .afterP => do
    let gate ← m.gate.release t prefer
    return { m with gate }

/-- The send interrupt of the device, with what it has sent. -/
def interrupt (m : Transmitter T M P) (handlers : Bool) (prefer : T) :
    Option (P × Transmitter T M P) := do
  let p ← m.outgoing
  return (p, { m with
    gate := if handlers then m.gate.semaphoreV prefer else m.gate
    outgoing := none
    carried := m.carried ++ [p] })

end Transmitter

end Nachos
