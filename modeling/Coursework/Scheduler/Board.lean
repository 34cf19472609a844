import Mathlib.Data.List.Basic
import Mathlib.Logic.Function.Basic

/-!
# Threads on a processor

The board of a dispatcher for one processor: the status of every thread, the queue of the
ready ones, and the places where threads wait. The idle thread is never queued; it runs when
nobody else is ready. Between two dispatches no thread is running.
-/

namespace Scheduler

/-- The status of a thread. -/
inductive Status where
  | new
  | ready
  | running
  | blocked
  | finished
  deriving DecidableEq

/-- The board, for threads `T` and waiting places `P`. -/
structure Board (T P : Type) where
  idle : T
  status : T → Status
  readyQueue : List T
  queue : P → List T

/-- The board is in order, and thread `r` is running if there is one. -/
@[grind cases] structure Ok {T P : Type} (b : Board T P) (r : Option T) : Prop where
  running : ∀ t, b.status t = .running ↔ r = some t
  ready : ∀ t, t ∈ b.readyQueue ↔ b.status t = .ready ∧ t ≠ b.idle
  nodup : b.readyQueue.Nodup
  waits : ∀ p, ∀ t ∈ b.queue p, b.status t = .blocked
  waitNodup : ∀ p, (b.queue p).Nodup
  unique : ∀ p q t, t ∈ b.queue p → t ∈ b.queue q → p = q
  placed : ∀ t, b.status t = .blocked → ∃ p, t ∈ b.queue p
  idle : b.status b.idle = .ready ∨ r = some b.idle

variable {T P : Type} [DecidableEq T] {b b' : Board T P} {r : Option T} {t u : T} {p : P}

/-! ## The processor changes hands -/

/-- `b'` is `b` with thread `t` made ready. -/
structure MadeReady (b : Board T P) (t : T) (b' : Board T P) : Prop where
  idle : b'.idle = b.idle
  status : ∀ u, b'.status u = if u = t then .ready else b.status u
  readyQueue : b'.readyQueue = if t = b.idle then b.readyQueue else b.readyQueue ++ [t]

/-- The thread that is dispatched next. -/
def Board.next (b : Board T P) : T := b.readyQueue.head?.getD b.idle

/-- `b'` is `b` with the next thread running. -/
structure Dispatched (b b' : Board T P) : Prop where
  idle : b'.idle = b.idle
  status : ∀ u, b'.status u = if u = b.next then .running else b.status u
  readyQueue : b'.readyQueue = b.readyQueue.tail
  queue : ∀ q, b'.queue q = b.queue q

/-- The running thread gives up the processor and stays ready. -/
theorem Ok.yield (h : Ok b (some t)) (hr : MadeReady b t b') (hq : ∀ q, b'.queue q = b.queue q) :
    Ok b' none := by
  obtain ⟨hidle, hstatus, hready⟩ := hr
  constructor <;> grind

/-- The next thread gets the processor. -/
theorem Ok.dispatch (h : Ok b none) (hd : Dispatched b b') : Ok b' (some b.next) := by
  obtain ⟨hidle, hstatus, hready, hqueue⟩ := hd
  cases hq : b.readyQueue with
  | nil =>
    have hnext : b.next = b.idle := by simp [Board.next, hq]
    constructor <;> grind
  | cons v rest =>
    have hnext : b.next = v := by simp [Board.next, hq]
    constructor <;> grind

/-- A new thread starts. -/
theorem Ok.start (h : Ok b r) (hnew : b.status t = .new) (hr : MadeReady b t b')
    (hq : ∀ q, b'.queue q = b.queue q) : Ok b' r := by
  obtain ⟨hidle, hstatus, hready⟩ := hr
  constructor <;> grind

/-- The running thread ends. -/
theorem Ok.finish (h : Ok b (some t)) (ht : t ≠ b.idle) (hidle : b'.idle = b.idle)
    (hstatus : ∀ u, b'.status u = if u = t then .finished else b.status u)
    (hready : b'.readyQueue = b.readyQueue) (hq : ∀ q, b'.queue q = b.queue q) : Ok b' none := by
  constructor <;> grind

/-! ## Waiting -/

variable [DecidableEq P]

/-- `b'` is `b` with thread `t` blocked at place `p`, in any order there. -/
structure BlockedAt (b : Board T P) (t : T) (p : P) (b' : Board T P) : Prop where
  idle : b'.idle = b.idle
  status : ∀ u, b'.status u = if u = t then .blocked else b.status u
  readyQueue : b'.readyQueue = b.readyQueue
  queue : ∀ q, (b'.queue q).Perm (if q = p then b.queue q ++ [t] else b.queue q)

/-- The running thread waits. -/
theorem Ok.block (h : Ok b (some t)) (ht : t ≠ b.idle) (hb : BlockedAt b t p b') : Ok b' none := by
  obtain ⟨hidle, hstatus, hready, hqueue⟩ := hb
  have hmem : ∀ q v, v ∈ b'.queue q ↔ v ∈ if q = p then b.queue q ++ [t] else b.queue q :=
    fun q v => (hqueue q).mem_iff
  have hnodup : ∀ q, (b'.queue q).Nodup ↔ (if q = p then b.queue q ++ [t] else b.queue q).Nodup :=
    fun q => (hqueue q).nodup_iff
  have hplaced : t ∈ b'.queue p := by simp [hmem]
  constructor <;> grind

/-- A thread is taken from the place where it waits. -/
theorem Ok.wake (h : Ok b r) (hu : u ∈ b.queue p) (hr : MadeReady b u b')
    (hq : ∀ q, (b'.queue q).Perm (if q = p then (b.queue q).erase u else b.queue q)) :
    Ok b' r := by
  obtain ⟨hidle, hstatus, hready⟩ := hr
  have hmem : ∀ q v, v ∈ b'.queue q ↔ v ∈ if q = p then (b.queue q).erase u else b.queue q :=
    fun q v => (hq q).mem_iff
  have hnodup : ∀ q, (b'.queue q).Nodup ↔
      (if q = p then (b.queue q).erase u else b.queue q).Nodup :=
    fun q => (hq q).nodup_iff
  constructor <;> grind

end Scheduler
