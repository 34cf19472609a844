import Coursework.Nachos.Transmitter

/-!
# The console

`machine/StandardConsole.java` and `userprog/SynchConsole.java`. The machine looks for a key
at every receive interrupt, and holds one until the kernel reads it; the kernel counts the
keys that are there with a semaphore, and reads one at a time under a lock. `readByte` runs
with interrupts disabled, and is left only where the thread sleeps.

An event is one thread going from one point where it can be interrupted to the next, or an
interrupt. A key that is not there, -1 in the source, is `none`.
-/

namespace Nachos

namespace SynchConsole

/-! ## Keys -/

/-- The second half of `StandardConsole.translateCharacter`: every kind of backspace is 8, every
    kind of newline is 10, and other characters that are no text are ignored. -/
def asciiKey (c : Int) : Option Int :=
  if 0x80 ≤ c then none
  else if c = 0x04 ∨ c = 0x08 ∨ c = 0x19 ∨ c = 0x1B ∨ c = 0x7F then some 8
  else if 0x20 ≤ c then some c
  else if c = 0x0A ∨ c = 0x0D then some 10
  else none

/-- `StandardConsole.translateCharacter(c)`, with the new value of `prevCarriageReturn`. -/
def translateCharacter (prevCarriageReturn : Bool) (c : Int) : Option Int × Bool :=
  if c = 0x0A ∧ prevCarriageReturn then (none, false)
  else (asciiKey c, decide (c = 0x0D))

/-! ## The state -/

/-- History: what a call of `readByte` has returned, to which thread, and whether the thread had
    to sleep for it. -/
structure Return (T : Type) where
  thread : T
  value : Option Int
  waited : Bool
  deriving DecidableEq

/-- The keys that come in: fields of the machine's console with the number of its receive
    interrupts that are pending, and `readLock`, `readWait` and `charAvailable` of the kernel's.
    The last two are history: what each interrupt has found, and what was returned. -/
structure Reading (T : Type) where
  gate : Gate T Bool := {}
  charAvailable : Bool := false
  incomingKey : Option Int := none
  prevCarriageReturn : Bool := false
  receiveInterrupts : Nat := 1
  polled : List Int := []
  returned : List (Return T) := []

/-- The bytes that go out: `outgoingKey`, and `writeLock` and `writeWait` of the kernel. -/
abbrev Writing (T : Type) := Transmitter T Int Int

namespace Reading

variable {T : Type} [DecidableEq T]

/-- `readLock.release()`, and the return of `readByte`. -/
def leave (m : Reading T) (t : T) (value : Option Int) (waited : Bool) (prefer : T) :
    Option (Reading T) := do
  let gate ← m.gate.release t prefer
  return { m with gate, returned := m.returned ++ [⟨t, value, waited⟩] }

/-- `readByte` after `readWait.P()`: `StandardConsole.readByte()` takes the key, and there has to
    be one. -/
def take (m : Reading T) (t : T) (waited : Bool) (prefer : T) : Option (Reading T) := do
  let key ← m.incomingKey
  { m with incomingKey := none, receiveInterrupts := m.receiveInterrupts + 1 }.leave t (some key)
    waited prefer

/-- `readByte(block)` after `readLock.acquire()`. -/
def test (m : Reading T) (t : T) (block : Bool) (prefer : T) : Option (Reading T) :=
  if block || m.charAvailable then
    let m := { m with charAvailable := false, gate := m.gate.semaphoreP t }
    -- once it has the lock, `P` is where the thread may sleep
    if m.gate.stage t = .waitP then some m else m.take t false prefer
  else m.leave t none false prefer

/-- A thread calls `readByte(block)`. -/
def readByte (m : Reading T) (t : T) (block : Bool) (prefer : T) : Option (Reading T) := do
  let gate ← m.gate.acquire t block
  let m := { m with gate }
  if gate.stage t = .locked block then m.test t block prefer else return m

/-- A thread that has slept in `readByte` goes on, if it has been woken up. -/
def resume (m : Reading T) (t prefer : T) : Option (Reading T) :=
  match m.gate.stage t with
  | .locked block => m.test t block prefer
  | .afterP => m.take t true prefer
  | .outside | .waitLock _ | .beforeP | .waitP => some m

/-- `StandardConsole.receiveInterrupt()`, where `in()` is `c`; a key is reported to
    `SynchConsole.receiveInterrupt()`. -/
def receiveInterrupt (m : Reading T) (c : Int) (prefer : T) : Option (Reading T) :=
  -- the assertion that the last key has been read
  if m.incomingKey.isSome then none
  else
    let (key, prevCarriageReturn) := translateCharacter m.prevCarriageReturn c
    let m := { m with incomingKey := key, prevCarriageReturn, polled := m.polled ++ [c] }
    match key with
    | none => some { m with receiveInterrupts := m.receiveInterrupts + 1 }
    -- the next receive interrupt is scheduled when this key is read
    | some _ => some { m with charAvailable := true, gate := m.gate.semaphoreV prefer }

end Reading

/-- The console. -/
structure Console (T : Type) where
  reading : Reading T := {}
  writing : Writing T := {}

/-- What can happen next. -/
inductive Event (T : Type) where
  | readByte (t : T) (block : Bool) (prefer : T)
  | resume (t prefer : T)
  /-- The receive interrupt finds `c`, which is -1 if no key was pressed. -/
  | receiveInterrupt (c : Int) (prefer : T)
  | writeByte (t : T) (value : Int)
  | writeStep (t prefer : T)
  | sendInterrupt (prefer : T)
  deriving DecidableEq

namespace Console

variable {T : Type} [DecidableEq T]

/-- One event, which changes nothing when it cannot happen: for a thread that is in a call, and
    without an interrupt that is pending. `none` is a failed assertion. -/
def step (c : Console T) : Event T → Option (Console T)
  | .readByte t block prefer =>
    if c.reading.gate.stage t = .outside then do
      let reading ← c.reading.readByte t block prefer
      return { c with reading }
    else some c
  | .resume t prefer => do
    let reading ← c.reading.resume t prefer
    return { c with reading }
  | .receiveInterrupt key prefer =>
    if c.reading.receiveInterrupts = 0 then some c
    else do
      let reading ← { c.reading with
        receiveInterrupts := c.reading.receiveInterrupts - 1 }.receiveInterrupt key prefer
      return { c with reading }
  | .writeByte t value =>
    if c.writing.gate.stage t = .outside then do
      let writing ← c.writing.call t value
      return { c with writing }
    else some c
  | .writeStep t prefer => do
    -- the upper 24 bits of the value are ignored
    let writing ← c.writing.step (· % 256) t prefer
    return { c with writing }
  | .sendInterrupt prefer =>
    if c.writing.sendInterrupts = 0 then some c
    else do
      let (_, writing) ← { c.writing with
        sendInterrupts := c.writing.sendInterrupts - 1 }.interrupt true prefer
      return { c with writing }

/-- A run of the console. -/
def run (c : Console T) (events : List (Event T)) : Option (Console T) :=
  events.foldlM step c

end Console

end SynchConsole

end Nachos
