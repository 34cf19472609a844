import Mathlib.Data.List.Basic

/-!
# The interrupt controller and the timer

`machine/Interrupt.java` with `machine/Timer.java`. Simulated time advances when interrupts
are enabled and when an instruction has been executed, and `tick` then invokes the pending
interrupts that are due. A handler may schedule interrupts, enable interrupts, and give the
processor to a thread that is itself in the middle of a `tick`, so the calls of `checkIfDue`
that have not returned are part of the state, and any of them may go on next.
-/

namespace Nachos

namespace Interrupt

/-- The handler of a pending interrupt: the two of the timer, or one of another device. -/
inductive Handler where
  | timer
  | timerAG
  | device (type : String)
  deriving DecidableEq, Repr

/-- `PendingInterrupt`. -/
structure Pending where
  time : Nat
  handler : Handler
  id : Nat
  deriving DecidableEq, Repr

/-- `PendingInterrupt.compareTo`. -/
def Pending.compareTo (p q : Pending) : Ordering :=
  if p.time < q.time then .lt
  else if q.time < p.time then .gt
  else if p.id < q.id then .lt
  else if q.id < p.id then .gt
  else .eq

/-- `TreeSet.add`, on the elements in order. -/
def add (p : Pending) : List Pending → List Pending
  | [] => [p]
  | q :: rest =>
    match p.compareTo q with
    | .lt => p :: q :: rest
    -- a set does not take an element that is equal to one it has
    | .eq => q :: rest
    | .gt => q :: add p rest

/-- `Stats.TimerTicks`. -/
def timerTicks : Nat := 500

/-- The fields of `Interrupt`, `Stats` and `Timer`, and the calls of `checkIfDue` that are in
    progress, each by its variable `time`. `invoked` is history, in reverse. -/
structure State where
  totalTicks : Nat := 0
  kernelTicks : Nat := 0
  userTicks : Nat := 0
  enabled : Bool := false
  pending : List Pending := []
  numPendingInterruptsCreated : Nat := 0
  lastTimerInterrupt : Nat := 0
  checks : List Nat := []
  invoked : List Pending := []

namespace State

/-- `Interrupt.schedule(when, type, handler)`, after its assertion that `when` is positive. -/
def schedule (s : State) (when : Nat) (handler : Handler) : State :=
  { s with
    pending := add ⟨s.totalTicks + when, handler, s.numPendingInterruptsCreated⟩ s.pending
    numPendingInterruptsCreated := s.numPendingInterruptsCreated + 1 }

/-- `Interrupt.tick(inKernelMode)`, up to the loop of `checkIfDue`. -/
def tick (s : State) (inKernelMode : Bool) : State :=
  let ticks := if inKernelMode then 10 else 1
  { s with
    totalTicks := s.totalTicks + ticks
    kernelTicks := if inKernelMode then s.kernelTicks + ticks else s.kernelTicks
    userTicks := if inKernelMode then s.userTicks else s.userTicks + ticks
    enabled := false
    -- the variable `time` of the call of `checkIfDue` that begins here
    checks := (s.totalTicks + ticks) :: s.checks }

/-- The delay of `Timer.scheduleInterrupt`, where `random` is the value of `Lib.random(50)`. -/
def timerDelay (random : Nat) : Nat := timerTicks + random - timerTicks / 20

/-- `Timer.timerInterrupt()`, up to the call of the kernel's handler. -/
def timerInterrupt (s : State) (random : Nat) : State :=
  let s := s.schedule (timerDelay random) .timer
  let s := s.schedule 1 .timerAG
  { s with lastTimerInterrupt := s.totalTicks }

/-- `handler.run()`: what the timer does itself. -/
def run (s : State) (random : Nat) : Handler → State
  | .timer => s.timerInterrupt random
  | _ => s

/-- The body of the loop of `checkIfDue`, for the first pending interrupt. -/
def invoke (s : State) (random : Nat) (next : Pending) : State :=
  { s with pending := s.pending.erase next, invoked := next :: s.invoked }.run random next.handler

/-- The end of `tick`, when a call of `checkIfDue` returns. -/
def endCheck (s : State) (time : Nat) : State :=
  { s with checks := s.checks.erase time, enabled := true }

end State

/-- The machine after `new Interrupt(privilege)` and `new Timer(privilege)`. -/
def start (random : Nat) : State := ({} : State).schedule (State.timerDelay random) .timer

/-- One step of the simulation. -/
inductive Step : State → State → Prop where
  /-- `setStatus(true)` with interrupts disabled. -/
  | enable {s : State} (hdisabled : s.enabled = false) : Step s (s.tick true)
  /-- `setStatus(false)`. -/
  | disable {s : State} : Step s { s with enabled := false }
  /-- The `tick` after an instruction of a user program. -/
  | instruction {s : State} : Step s (s.tick false)
  /-- A device schedules an interrupt of its own. -/
  | schedule {s : State} {when : Nat} (hwhen : 0 < when) (type : String) :
      Step s (s.schedule when (.device type))
  /-- A call of `checkIfDue` finds that the first interrupt is due. -/
  | invoke {s : State} {time random : Nat} {next : Pending} (hcheck : time ∈ s.checks)
      (hfirst : s.pending.head? = some next) (hdue : next.time ≤ time) (hrandom : random < 50) :
      Step s (s.invoke random next)
  /-- A call of `checkIfDue` finds that no interrupt is due. -/
  | endCheck {s : State} {time : Nat} (hcheck : time ∈ s.checks)
      (hdue : ∀ next ∈ s.pending.head?, time < next.time) : Step s (s.endCheck time)

/-- The states of a simulation. -/
inductive Reachable : State → Prop where
  | start {random : Nat} (hrandom : random < 50) : Reachable (start random)
  | step {s s' : State} (h : Reachable s) (hstep : Step s s') : Reachable s'

end Interrupt

end Nachos
