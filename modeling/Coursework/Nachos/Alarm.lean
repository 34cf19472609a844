import Coursework.PriorityQueue.BinaryHeap

/-!
# The alarm

`Alarm` with its priority queue of `AlarmBucket`s. `waitUntil` adds a bucket for the thread
that goes to sleep; the timer interrupt handler takes the head of the queue for as long as it
is due. `java.util.PriorityQueue` is a binary heap over `compareTo`.
-/

namespace Nachos

namespace KThread

open PriorityQueue (offer poll)

/-- `AlarmBucket`. -/
structure AlarmBucket where
  time : BitVec 64
  kthread : Nat
  deriving DecidableEq

/-- `AlarmBucket.compareTo`: the difference of two `long`s, as an `int`. -/
def AlarmBucket.compareTo (a b : AlarmBucket) : Int := ((a.time - b.time).setWidth 32).toInt

/-- The array of `waitQueue`. `readied` is history: the buckets whose threads `timerInterrupt`
    has made ready, in order. -/
structure Alarm where
  waitQueue : List AlarmBucket := []
  readied : List AlarmBucket := []
  deriving DecidableEq

namespace Alarm

/-- `waitUntil(x)` of a thread, at time `now`. -/
def waitUntil (a : Alarm) (now x : BitVec 64) (kthread : Nat) : Alarm :=
  { a with waitQueue := offer AlarmBucket.compareTo a.waitQueue ⟨now + x, kthread⟩ }

/-- The loop of `timerInterrupt`. Every iteration but the last removes a bucket. -/
def wakeDue (now : BitVec 64) : Nat → Alarm → Alarm
  | 0, a => a
  | count + 1, a =>
    match a.waitQueue.head? with
    | none => a
    | some placeholder =>
      if placeholder.time.sle now then
        wakeDue now count
          { waitQueue := poll AlarmBucket.compareTo a.waitQueue
            readied := a.readied ++ [placeholder] }
      else a

/-- `timerInterrupt()`, at time `now`. -/
def timerInterrupt (a : Alarm) (now : BitVec 64) : Alarm := a.wakeDue now a.waitQueue.length

/-- What happens to the alarm, with the time it happens at. -/
inductive Event where
  | waitUntil (now x : BitVec 64) (kthread : Nat)
  | timerInterrupt (now : BitVec 64)
  deriving DecidableEq

def step (a : Alarm) : Event → Alarm
  | .waitUntil now x kthread => a.waitUntil now x kthread
  | .timerInterrupt now => a.timerInterrupt now

/-- Any sequence of events. -/
def run (a : Alarm) (events : List Event) : Alarm := events.foldl step a

end Alarm

end KThread

end Nachos
