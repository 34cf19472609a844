import Coursework.Nachos.KThread

/-!
# Calls and their returns

A call of a thread can return many steps after it was made. The history of a run keeps the
calls that every thread has made and that have not returned, with the kernel as it was when
they were made, and the calls that have returned.
-/

namespace Nachos

namespace KThread

/-- A call in progress, with the kernel when it was made. -/
structure Pending where
  call : Kernel.Call
  before : Kernel

/-- A call that has returned, with the kernel when it was made and when it returned. -/
structure Return where
  thread : Nat
  call : Kernel.Call
  before : Kernel
  after : Kernel

/-- The kernel, the calls in progress of each thread (the innermost first), and the calls that
    have been made and have returned. -/
structure History where
  kernel : Kernel
  calls : Nat → List Pending := fun _ => []
  made : List (Nat × Kernel.Call) := []
  returns : List Return := []

namespace Kernel

/-- The calls that the current thread makes in a step, the innermost first: those of its
    program, and those that `Condition2.sleep` and `wakeAll` make between two steps. `finish`
    does not return, and `setStatus` is a call of the machine. -/
def made (k : Kernel) : Action → List Call
  | .timerInterrupt _ => []
  | .go call =>
    if k.currentThread = idleThread then [.yield]
    else
      match k.point k.currentThread with
      | .reacquire l => [.acquire l]
      | .wakeAll c => if k.waitQueue (.condition c) = [] then [] else [.wake c]
      | .client =>
        match call with
        | .finish | .setStatus _ => []
        | .wakeAll c =>
          if k.waitQueue (.condition c) = [] then [.wakeAll c] else [.wake c, .wakeAll c]
        | call => [call]

/-- `conditionLock.release()` in `Condition2.sleep`, which returns within the step. -/
def released (k : Kernel) (action : Action) : List Return :=
  match k.made action with
  | [.conditionSleep c] =>
    match { k with enabled := false }.release (k.conditionLock c) with
    | .ok after =>
      [⟨k.currentThread, .release (k.conditionLock c), { k with enabled := false }, after⟩]
    | .error _ => []
  | _ => []

/-- How many calls a thread is still in when it goes on. -/
def depth (k : Kernel) (t : Nat) : Nat :=
  match k.point t with
  | .client => 0
  | .reacquire _ | .wakeAll _ => 1

end Kernel

namespace History

/-- One step of the kernel. The thread that goes on returns from the calls that it is not in
    any more. -/
def step (h : History) (action : Kernel.Action) : Except Assertion History := do
  let t := h.kernel.currentThread
  let made := h.kernel.made action
  let kernel ← h.kernel.step action
  let calls := Function.update h.calls t (made.map (⟨·, h.kernel⟩) ++ h.calls t)
  let u := kernel.currentThread
  let returned := (calls u).length - kernel.depth u
  .ok {
    kernel := kernel
    calls := Function.update calls u ((calls u).drop returned)
    made := h.made ++ made.map (t, ·)
    returns := h.returns ++ h.kernel.released action ++
      ((calls u).take returned).map fun p => ⟨u, p.call, p.before, kernel⟩ }

/-- Any sequence of steps. -/
def run (h : History) (actions : List Kernel.Action) : Except Assertion History :=
  actions.foldlM step h

/-- Nothing has been called. -/
def boot (conditionLock : Nat → Nat) (value : Nat → Int) : History where
  kernel := Kernel.boot conditionLock value

end History

end KThread

end Nachos
