import Mathlib.Data.List.Basic
import Mathlib.Logic.Function.Basic

/-!
# A lock with a condition variable

One lock and one condition variable with Mesa semantics, as a machine whose steps are the
calls of its threads. `sleep` enters the waiting list and gives up the lock in one step;
`wake` and `wakeAll` move threads out of the list; a thread that has been moved has to enter
again like any other.
-/

namespace ConditionVariable

/-- Where a thread is. -/
inductive Phase where
  /-- Outside the calls, with or without the lock. -/
  | outside
  /-- In `acquire`. -/
  | entering
  /-- In `sleep`, in the waiting list. -/
  | asleep
  /-- In `sleep`, moved out of the waiting list. -/
  | woken
  deriving DecidableEq

/-- The lock, the waiting list with the longest waiting thread first, and the threads.
    `moved` is history: the threads that were moved out of the list, in order. -/
@[ext] structure State (T : Type) where
  holder : Option T := none
  waiting : List T := []
  moved : List T := []
  phase : T → Phase := fun _ => .outside

/-- What a thread does. `enter` ends an `acquire` or a `sleep`: the thread has the lock. -/
inductive Operation (T : Type) where
  | acquire (t : T)
  | enter (t : T)
  | release (t : T)
  | sleep (t : T)
  | wake (t : T)
  | wakeAll (t : T)
  deriving DecidableEq

variable {T : Type} [DecidableEq T]

/-- A step, or none where the thread cannot take it. -/
def State.step (s : State T) : Operation T → Option (State T)
  | .acquire t =>
    if s.phase t = .outside ∧ s.holder ≠ some t then
      some { s with phase := Function.update s.phase t .entering }
    else none
  | .enter t =>
    if s.holder = none ∧ (s.phase t = .entering ∨ s.phase t = .woken) then
      some { s with holder := some t, phase := Function.update s.phase t .outside }
    else none
  | .release t => if s.holder = some t then some { s with holder := none } else none
  | .sleep t =>
    if s.holder = some t then
      some { s with holder := none, waiting := s.waiting ++ [t]
                    phase := Function.update s.phase t .asleep }
    else none
  | .wake t =>
    if s.holder = some t then
      match s.waiting with
      | [] => some s
      | u :: rest =>
        some { s with waiting := rest, moved := s.moved ++ [u]
                      phase := Function.update s.phase u .woken }
    else none
  | .wakeAll t =>
    if s.holder = some t then
      some { s with waiting := [], moved := s.moved ++ s.waiting
                    phase := fun u => if u ∈ s.waiting then .woken else s.phase u }
    else none

/-- Any sequence of steps. -/
def State.run (s : State T) (operations : List (Operation T)) : Option (State T) :=
  operations.foldlM State.step s

@[simp] theorem State.run_nil (s : State T) : s.run [] = some s := rfl

@[simp] theorem State.run_cons (s : State T) (e : Operation T) (operations : List (Operation T)) :
    s.run (e :: operations) = (s.step e).bind fun s' => s'.run operations := rfl

theorem State.run_append (s : State T) (es es' : List (Operation T)) :
    s.run (es ++ es') = (s.run es).bind fun s' => s'.run es' := by
  simp [State.run, List.foldlM_append]

/-! ## Critical sections -/

/-- The thread of an operation. -/
def Operation.thread : Operation T → T
  | .acquire t | .enter t | .release t | .sleep t | .wake t | .wakeAll t => t

/-- A thread that is in its critical section has the lock once it is outside the calls. -/
def State.Guarded (s : State T) (inside : T → Prop) : Prop :=
  ∀ t, inside t → s.phase t = .outside → s.holder = some t

/-- What an operation asks of its thread: it is in its critical section `before` the call or
    not, and is in it `after` the call or not. -/
def Operation.Allows (e : Operation T) (before after : Prop) : Prop :=
  match e with
  | .acquire _ | .enter _ | .sleep _ => True
  | .release _ => ¬ after
  | .wake _ | .wakeAll _ => after → before

/-- The critical sections stay guarded if every thread enters and leaves its own with the
    lock. -/
theorem State.Guarded.step {s s' : State T} {e : Operation T} {inside inside' : T → Prop}
    (h : s.Guarded inside) (hstep : s.step e = some s')
    (hother : ∀ u, u ≠ e.thread → inside' u → inside u)
    (hself : e.Allows (inside e.thread) (inside' e.thread)) : s'.Guarded inside' := by
  intro u hu hout
  cases e with
  | acquire t =>
    simp only [State.step] at hstep
    split at hstep
    · obtain rfl := Option.some.inj hstep
      by_cases hut : u = t
      · simp [hut] at hout
      · simp only [Function.update_of_ne hut] at hout
        exact h u (hother u hut hu) hout
    · cases hstep
  | enter t =>
    simp only [State.step] at hstep
    split at hstep
    · rename_i hfree
      obtain rfl := Option.some.inj hstep
      by_cases hut : u = t
      · rw [hut]
      · -- nobody else is inside: the lock was free
        simp only [Function.update_of_ne hut] at hout
        exact absurd (h u (hother u hut hu) hout) (by simp [hfree.1])
    · cases hstep
  | release t =>
    simp only [State.step] at hstep
    split at hstep
    · rename_i hheld
      obtain rfl := Option.some.inj hstep
      have hut : u ≠ t := by
        rintro rfl
        exact hself hu
      have hholds := h u (hother u hut hu) hout
      exact absurd (Option.some.inj (hholds.symm.trans hheld)) hut
    · cases hstep
  | sleep t =>
    simp only [State.step] at hstep
    split at hstep
    · rename_i hheld
      obtain rfl := Option.some.inj hstep
      have hut : u ≠ t := by
        rintro rfl
        simp at hout
      simp only [Function.update_of_ne hut] at hout
      have hholds := h u (hother u hut hu) hout
      exact absurd (Option.some.inj (hholds.symm.trans hheld)) hut
    · cases hstep
  | wake t =>
    have hin : inside u := by
      by_cases hut : u = t
      · subst hut
        exact hself hu
      · exact hother u hut hu
    simp only [State.step] at hstep
    split at hstep
    · split at hstep
      · obtain rfl := Option.some.inj hstep
        exact h u hin hout
      · rename_i v rest hq
        obtain rfl := Option.some.inj hstep
        have huv : u ≠ v := by
          rintro rfl
          simp at hout
        simp only [Function.update_of_ne huv] at hout
        exact h u hin hout
    · cases hstep
  | wakeAll t =>
    have hin : inside u := by
      by_cases hut : u = t
      · subst hut
        exact hself hu
      · exact hother u hut hu
    simp only [State.step] at hstep
    split at hstep
    · obtain rfl := Option.some.inj hstep
      simp only at hout
      split at hout
      · cases hout
      · exact h u hin hout
    · cases hstep

/-- Threads that enter leave the critical sections guarded. -/
theorem State.Guarded.enters {s s' : State T} {inside : T → Prop} {threads : List T}
    (h : s.Guarded inside) (hrun : s.run (threads.map .enter) = some s') : s'.Guarded inside := by
  induction threads generalizing s with
  | nil =>
    obtain rfl := Option.some.inj hrun
    exact h
  | cons t threads ih =>
    rw [List.map_cons, State.run_cons, Option.bind_eq_some_iff] at hrun
    obtain ⟨s₁, hstep, hrest⟩ := hrun
    have h₁ : s₁.Guarded inside := h.step hstep (fun _ _ hu => hu) trivial
    exact ih h₁ hrest

end ConditionVariable
