import Coursework.Monitor.ConditionVariable
import Coursework.Nachos.Conditions
import Coursework.Nachos.Spec.ThreadsMesa

/-!
# Condition and Condition2 are the same condition variable

Both classes implement the machine of `Monitor/ConditionVariable.lean`. A thread is in the
waiting list from the step in which it gives up the lock. `Condition` can wake it before it
has called `P`, and then its semaphore keeps the wake. `wakeAll` takes effect where it is
called: while it is in its loop, the threads in its queue count as woken.
-/

namespace Nachos

namespace Conditions

open ConditionVariable (Phase Operation State)

variable {T : Type} [DecidableEq T]

/-- Is the thread in the queue of the lock? -/
def Status.waitsForLock : Status → Bool
  | .waitLock _ => true
  | .client | .beforeP | .waitSemaphore | .waitThread | .beforeAcquire | .wakingAll => false

/-- Where a thread is in the methods; one that sleeps may be in the waiting list. -/
def Status.phase (listed : Bool) : Status → Phase
  | .client | .wakingAll => .outside
  | .waitLock false => .entering
  | .waitLock true | .beforeAcquire => .woken
  | .beforeP | .waitSemaphore | .waitThread => if listed then .asleep else .woken

namespace Monitor

/-! ## The abstract condition variable -/

/-- Is the holder of the lock in `wakeAll`? -/
def waking (st : Monitor T) : Bool := st.lockHolder.any fun t => st.status t == .wakingAll

/-- The waiting list. -/
def waiting (st : Monitor T) : List T := if st.waking then [] else st.waitQueue

def phase (st : Monitor T) (t : T) : Phase := (st.status t).phase (t ∈ st.waiting)

/-- The condition variable that the monitor implements. -/
def view (st : Monitor T) : State T where
  holder := st.lockHolder
  waiting := st.waiting
  moved := if st.waking then st.moved ++ st.waitQueue else st.moved
  phase := st.phase

/-- A released lock is given to a thread that waits for it. -/
def handOver (st : Monitor T) (prefer : T) : List (Operation T) :=
  (nextThread st.lockQueue prefer).toList.map .enter

/-- What a step of the monitor is for the condition variable. -/
def operations (st : Monitor T) (choice : Choice T Method) : List (Operation T) :=
  let t := choice.thread
  match st.status t with
  | .client =>
    match choice.input with
    | .acquire => if st.lockHolder = none then [.acquire t, .enter t] else [.acquire t]
    | .release => .release t :: st.handOver choice.prefer
    | .sleep => .sleep t :: st.handOver choice.prefer
    | .wake => [.wake t]
    | .wakeAll => [.wakeAll t]
  | .beforeAcquire => if st.lockHolder = none then [.enter t] else []
  | .beforeP | .wakingAll | .waitLock _ | .waitSemaphore | .waitThread => []

/-- What a run of the monitor is for the condition variable. -/
def trace (kind : Kind) (st : Monitor T) : List (Choice T Method) → List (Operation T)
  | [] => []
  | choice :: choices =>
    st.operations choice ++ ((st.step kind choice).elim [] fun st' => st'.trace kind choices)

/-! ## The invariant -/

/-- What holds of the queues. -/
@[grind cases] structure Queues (kind : Kind) (st : Monitor T) : Prop where
  nodup : st.waitQueue.Nodup
  lockNodup : st.lockQueue.Nodup
  condition : kind = .condition → ∀ t, st.status t ≠ .waitThread
  condition2 : kind = .condition2 → ∀ t, st.status t ≠ .beforeP ∧ st.status t ≠ .waitSemaphore
  waits : ∀ t ∈ st.waitQueue,
    st.status t = .beforeP ∨ st.status t = .waitSemaphore ∨ st.status t = .waitThread
  semaphoreWaits : ∀ t, st.status t = .waitSemaphore → t ∈ st.waitQueue
  threadWaits : ∀ t, st.status t = .waitThread → t ∈ st.waitQueue
  value : ∀ t, st.status t = .beforeP → (st.value t = 0 ↔ t ∈ st.waitQueue)
  semaphore : ∀ t, st.semaphoreQueue t = if st.status t = .waitSemaphore then [t] else []
  lockWaits : ∀ t, t ∈ st.lockQueue ↔ (st.status t).waitsForLock = true
  free : st.lockHolder = none → st.lockQueue = []

/-- The invariant. -/
@[grind cases] structure Inv (kind : Kind) (st : Monitor T) : Prop extends Queues kind st where
  holder : ∀ t, st.lockHolder = some t → st.status t = .client ∨ st.status t = .wakingAll
  waking : ∀ t, st.status t = .wakingAll → st.lockHolder = some t

/-- A thread that returns from `acquire` or `sleep` has the lock, and was not in the waiting
    list. -/
def Returns (st st' : Monitor T) : Prop :=
  ∀ t, st.phase t ≠ .outside → st'.phase t = .outside →
    st.phase t ≠ .asleep ∧ st'.lockHolder = some t

/-- The state after a step that is `operations` for the condition variable. -/
structure Refines (kind : Kind) (st : Monitor T) (operations : List (Operation T))
    (st' : Monitor T) :
    Prop where
  inv : Inv kind st'
  view : st.view.run operations = some st'.view
  returns : Returns st st'

@[grind =] theorem status_setStatus (st : Monitor T) (t : T) (s : Status) (u : T) :
    (st.setStatus t s).status u = if u = t then s else st.status u := by
  simp [setStatus, Function.update_apply]

section View

variable {kind : Kind} {st st' : Monitor T} {t u : T}

omit [DecidableEq T] in
theorem waking_eq_true_iff : st.waking = true ↔
    ∃ t, st.lockHolder = some t ∧ st.status t = .wakingAll := by
  cases hl : st.lockHolder <;> simp [waking, hl]

omit [DecidableEq T] in
theorem waking_eq_false (h : ∀ t, st.lockHolder = some t → st.status t ≠ .wakingAll) :
    st.waking = false := by
  rw [← Bool.not_eq_true, waking_eq_true_iff]
  rintro ⟨t, hholder, hstatus⟩
  exact h t hholder hstatus

/-- What a thread without the lock does makes no difference. -/
theorem waking_setStatus (hnot : st.lockHolder ≠ some t) (s : Status) :
    (st.setStatus t s).waking = st.waking := by
  cases hl : st.lockHolder with
  | none => simp [waking, setStatus, hl]
  | some v =>
    have hv : v ≠ t := by
      rintro rfl
      exact hnot hl
    simp [waking, setStatus, hl, hv]

/-- A step of the lock or of a semaphore: only thread `t` goes on, and the waiting list stays. -/
structure Moves (st : Monitor T) (t : T) (st' : Monitor T) : Prop where
  waking : st'.waking = st.waking
  waitQueue : st'.waitQueue = st.waitQueue
  moved : st'.moved = st.moved
  status : ∀ u, u ≠ t → st'.status u = st.status u

omit [DecidableEq T] in
theorem Moves.waiting_eq (h : Moves st t st') : st'.waiting = st.waiting := by
  rw [waiting, h.waking, h.waitQueue, ← waiting]

theorem Moves.phase_eq (h : Moves st t st') (hu : u ≠ t) : st'.phase u = st.phase u := by
  rw [phase, phase, h.waiting_eq, h.status u hu]

theorem Moves.view_eq (h : Moves st t st') :
    st'.view = { st.view with holder := st'.lockHolder
                              phase := Function.update st.phase t (st'.phase t) } := by
  refine State.ext rfl h.waiting_eq ?_ (funext fun u => ?_)
  · simp only [view, h.waking, h.moved, h.waitQueue]
  · by_cases hu : u = t
    · subst hu
      simp [view]
    · simp [view, hu, h.phase_eq hu]

theorem Moves.returns (h : Moves st t st') (hasleep : st.phase t ≠ .asleep)
    (hholder : st.phase t ≠ .outside → st'.phase t = .outside → st'.lockHolder = some t) :
    Returns st st' := by
  intro u hout hout'
  by_cases hu : u = t
  · subst hu
    exact ⟨hasleep, hholder hout hout'⟩
  · rw [h.phase_eq hu] at hout'
    exact absurd hout' hout

/-! ## The lock -/

/-- `acquire` takes a free lock, or waits for it. -/
theorem acquire_spec (h : Inv kind st) (ht : st.status t = .client ∨ st.status t = .beforeAcquire)
    (hnot : st.lockHolder ≠ some t) (b : Bool) :
    ∃ st', st.acquire t b = some st' ∧ Inv kind st' ∧ Moves st t st' ∧
      if st.lockHolder = none then st'.lockHolder = some t ∧ st'.status t = .client
      else st'.lockHolder = st.lockHolder ∧ st'.status t = .waitLock b := by
  cases hl : st.lockHolder with
  | none =>
    refine ⟨{ st.setStatus t .client with lockHolder := some t }, ?_, ⟨?_, ?_, ?_⟩, ?_, ?_⟩
    · simp [acquire, hl, h.free hl]
    · constructor <;> grind [setStatus, Status.waitsForLock]
    · grind
    · grind
    · refine ⟨?_, rfl, rfl, fun u hu => by simp [setStatus, hu]⟩
      rw [waking_eq_false (by grind), waking_eq_false (by grind)]
    · simp [setStatus]
  | some v =>
    have hv : v ≠ t := by grind
    refine ⟨{ st.setStatus t (.waitLock b) with lockQueue := st.lockQueue ++ [t] }, ?_,
      ⟨?_, ?_, ?_⟩, ?_, ?_⟩
    · simp [acquire, hl, hv]
    · constructor <;> grind [setStatus, Status.waitsForLock]
    · grind [setStatus]
    · grind [setStatus]
    · exact ⟨waking_setStatus hnot _, rfl, rfl, fun u hu => by simp [setStatus, hu]⟩
    · simp [setStatus, hl]

theorem acquire_refines (h : Inv kind st) (ht : st.status t = .client)
    (hnot : st.lockHolder ≠ some t) :
    ∃ st', st.acquire t false = some st' ∧
      Refines kind st (if st.lockHolder = none then [.acquire t, .enter t] else [.acquire t]) st' := by
  obtain ⟨st', hst', hinv, hm, hif⟩ := acquire_spec h (.inl ht) hnot false
  have hphase : st.phase t = .outside := by rw [phase, ht, Status.phase]
  refine ⟨st', hst', hinv, ?_, hm.returns (by simp [hphase]) (by simp [hphase])⟩
  rw [hm.view_eq]
  split at hif
  · rename_i hl
    have hphase' : st'.phase t = .outside := by rw [phase, hif.2, Status.phase]
    simp [hl, hif.1, hphase', State.step, view, hphase]
  · rename_i hl
    have hphase' : st'.phase t = .entering := by rw [phase, hif.2, Status.phase]
    simp [hl, hif.1, hphase', State.step, view, hphase, hnot]

/-- The `acquire` at the end of `sleep`. -/
theorem reacquire_refines (h : Inv kind st) (ht : st.status t = .beforeAcquire) :
    ∃ st', st.acquire t true = some st' ∧
      Refines kind st (if st.lockHolder = none then [.enter t] else []) st' := by
  have hnot : st.lockHolder ≠ some t := by grind
  obtain ⟨st', hst', hinv, hm, hif⟩ := acquire_spec h (.inr ht) hnot true
  have hphase : st.phase t = .woken := by rw [phase, ht, Status.phase]
  split at hif
  · rename_i hl
    have hphase' : st'.phase t = .outside := by rw [phase, hif.2, Status.phase]
    refine ⟨st', hst', hinv, ?_, hm.returns (by simp [hphase]) fun _ _ => hif.1⟩
    rw [hm.view_eq]
    simp [hl, hif.1, hphase', State.step, view, hphase]
  · rename_i hl
    have hphase' : st'.phase t = .woken := by rw [phase, hif.2, Status.phase]
    refine ⟨st', hst', hinv, ?_, hm.returns (by simp [hphase]) (by simp [hphase'])⟩
    rw [hm.view_eq]
    simp [hl, hif.1, hphase', view, ← hphase]

theorem nextThread_eq_none {queue : List T} {prefer : T} (h : nextThread queue prefer = none) :
    queue = [] := by
  unfold nextThread at h
  split at h
  · cases h
  · exact List.head?_eq_none_iff.mp h

omit [DecidableEq T] in
theorem Queues.waitLock_of_mem (h : Queues kind st) (hu : u ∈ st.lockQueue) :
    ∃ b, st.status u = .waitLock b := by
  have hwaits := (h.lockWaits u).mp hu
  cases hs : st.status u <;> simp [hs, Status.waitsForLock] at hwaits
  exact ⟨_, rfl⟩

/-- `release` frees the lock, or gives it to a thread that waits for it. -/
theorem release_spec (h : Queues kind st) (hheld : st.lockHolder = some t)
    (ht : (st.status t).waitsForLock = false) (hnot : ∀ x, st.status x ≠ .wakingAll) (prefer : T) :
    ∃ st', st.release t prefer = some st' ∧ Inv kind st' ∧
      { st.view with holder := none }.run (st.handOver prefer) = some st'.view ∧ Returns st st' := by
  have hwaking : st.waking = false := waking_eq_false fun x _ => hnot x
  cases hn : nextThread st.lockQueue prefer with
  | none =>
    -- no thread waits for the lock: it becomes free, and no operation is handed over
    have hempty : st.lockQueue = [] := nextThread_eq_none hn
    have hm : Moves st t { st with lockHolder := none } := by
      refine ⟨?_, rfl, rfl, fun _ _ => rfl⟩
      rw [hwaking, waking_eq_false (by simp)]
    have hphase : phase { st with lockHolder := none } t = st.phase t := by
      rw [phase, phase, hm.waiting_eq]
    refine ⟨{ st with lockHolder := none }, ?_, ⟨?_, ?_, ?_⟩, ?_, ?_⟩
    · simp [release, hheld, hn]
    · exact { h with free := fun _ => hempty }
    · simp
    · exact fun x hx => absurd hx (hnot x)
    · rw [hm.view_eq, hphase]
      simp [handOver, hn, view]
    · intro x hout hout'
      by_cases hx : x = t
      · subst hx
        exact absurd (hphase ▸ hout') hout
      · exact absurd (hm.phase_eq hx ▸ hout') hout
  | some u =>
    -- the lock goes to `u`, which for the abstract monitor is `u` entering
    have hmem : u ∈ st.lockQueue := Threads.nextThread_mem hn
    obtain ⟨b, hb⟩ := h.waitLock_of_mem hmem
    have hut : u ≠ t := by grind
    have hm : Moves st u (setStatus { st with lockHolder := some u
                                              lockQueue := st.lockQueue.erase u } u .client) := by
      refine ⟨?_, rfl, rfl, fun x hx => by simp [setStatus, hx]⟩
      rw [hwaking, waking_eq_false (by grind)]
    have hphase : st.phase u ≠ .asleep ∧ (st.phase u = .entering ∨ st.phase u = .woken) := by
      cases b <;> simp [phase, hb, Status.phase]
    have hphase' : (setStatus { st with lockHolder := some u
                                        lockQueue := st.lockQueue.erase u } u .client).phase u =
        .outside := by simp [phase, setStatus, Status.phase]
    refine ⟨_, ?_, ⟨?_, ?_, ?_⟩, ?_, hm.returns hphase.1 fun _ _ => rfl⟩
    · simp only [release, hheld, if_true, hn, ready, hb]
    · constructor <;> grind [setStatus, Status.waitsForLock]
    · grind [setStatus]
    · grind [setStatus]
    · rw [hm.view_eq, hphase']
      simp [handOver, hn, view, State.step, hphase.2, setStatus]

theorem release_refines (h : Inv kind st) (ht : st.status t = .client)
    (hheld : st.lockHolder = some t) (prefer : T) :
    ∃ st', st.release t prefer = some st' ∧
      Refines kind st (.release t :: st.handOver prefer) st' := by
  obtain ⟨st', hst', hinv, hview, hreturns⟩ :=
    release_spec h.toQueues hheld (by simp [ht, Status.waitsForLock]) (by grind) prefer
  refine ⟨st', hst', hinv, ?_, hreturns⟩
  have hholder : st.view.holder = some t := hheld
  simpa [State.step, hholder] using hview

/-! ## sleep -/

/-- The thread in the queue of the condition, with its semaphore if it has one. -/
def enqueue (kind : Kind) (st : Monitor T) (t : T) : Monitor T :=
  match kind with
  | .condition =>
    { st.setStatus t .beforeP with
      value := Function.update st.value t 0
      semaphoreQueue := Function.update st.semaphoreQueue t []
      waitQueue := st.waitQueue ++ [t] }
  | .condition2 => { st.setStatus t .waitThread with waitQueue := st.waitQueue ++ [t] }

/-- In both classes a thread enters the queue and gives up the lock. -/
theorem sleep_eq (h : Inv kind st) (ht : st.status t = .client) (hheld : st.lockHolder = some t)
    (prefer : T) : st.sleep kind t prefer = (enqueue kind st t).release t prefer := by
  cases kind with
  | condition => rfl
  | condition2 =>
    simp only [sleep, condition2Sleep, enqueue, release, setStatus, hheld, if_true]
    cases hn : nextThread st.lockQueue prefer with
    | none => rfl
    | some u =>
      -- the thread that gets the lock is another one, so the order does not matter
      obtain ⟨b, hb⟩ := h.waitLock_of_mem (Threads.nextThread_mem hn)
      have hut : u ≠ t := by grind
      simp [ready, hb, hut, setStatus, Function.update_comm hut]

theorem sleep_eq_none (hnot : st.lockHolder ≠ some t) (prefer : T) :
    st.sleep kind t prefer = none := by
  cases kind <;> simp [sleep, conditionSleep, condition2Sleep, release, setStatus, hnot]

theorem enqueue_queues (h : Inv kind st) (ht : st.status t = .client)
    (hheld : st.lockHolder = some t) : Queues kind (enqueue kind st t) := by
  cases kind with
  | condition =>
    simp only [enqueue]
    constructor <;> grind [setStatus, Status.waitsForLock]
  | condition2 =>
    simp only [enqueue]
    constructor <;> grind [setStatus, Status.waitsForLock]

theorem sleep_refines (h : Inv kind st) (ht : st.status t = .client)
    (hheld : st.lockHolder = some t) (prefer : T) :
    ∃ st', st.sleep kind t prefer = some st' ∧
      Refines kind st (.sleep t :: st.handOver prefer) st' := by
  have hq := enqueue_queues h ht hheld
  -- a sleep joins the waiting list and then lets the lock go: first what joining does to the
  -- abstract state, then `release_spec` for the rest
  have hstatus : (enqueue kind st t).status t = .beforeP ∨
      (enqueue kind st t).status t = .waitThread := by
    cases kind <;> simp [enqueue, setStatus]
  have hholder : (enqueue kind st t).lockHolder = some t := by cases kind <;> exact hheld
  have hother : ∀ x, x ≠ t → (enqueue kind st t).status x = st.status x := by
    intro x hx
    cases kind <;> simp [enqueue, setStatus, hx]
  have hnot : ∀ x, (enqueue kind st t).status x ≠ .wakingAll := by
    intro x hx
    by_cases hxt : x = t
    · rw [hxt] at hx
      simp [hx] at hstatus
    · have hholds := h.waking x (hother x hxt ▸ hx)
      exact hxt (Option.some.inj (hholds.symm.trans hheld))
  have hwaking : st.waking = false := waking_eq_false (by grind)
  have hwaking' : (enqueue kind st t).waking = false := waking_eq_false fun x _ => hnot x
  have hwaiting : (enqueue kind st t).waiting = st.waiting ++ [t] := by
    rw [waiting, hwaking', waiting, hwaking]
    cases kind <;> rfl
  have hphase : (enqueue kind st t).phase = Function.update st.phase t .asleep := by
    funext x
    by_cases hx : x = t
    · subst hx
      rcases hstatus with hs | hs <;> simp [phase, hs, hwaiting, Status.phase]
    · simp [phase, hother x hx, hwaiting, hx]
  obtain ⟨st', hst', hinv, hview, hreturns⟩ :=
    release_spec hq hholder (by grind [Status.waitsForLock]) hnot prefer
  rw [← sleep_eq h ht hheld] at hst'
  have hhand : (enqueue kind st t).handOver prefer = st.handOver prefer := by cases kind <;> rfl
  have hmoved : (enqueue kind st t).moved = st.moved := by cases kind <;> rfl
  refine ⟨st', hst', hinv, ?_, fun x hout hout' => ?_⟩
  · rw [hhand] at hview
    rw [State.run_cons, ← hview]
    simp [State.step, view, hheld, hwaiting, hphase, hwaking, hwaking', hmoved]
  · -- the sleeper was a client before the step, so it is not one that returns from a wait
    have hx : x ≠ t := by
      rintro rfl
      simp [phase, ht, Status.phase] at hout
    have hsame : (enqueue kind st t).phase x = st.phase x := by simp [hphase, hx]
    rw [← hsame] at hout ⊢
    exact hreturns x hout hout'

/-! ## Semaphores -/

/-- `P` ends if the thread has been woken, and otherwise waits. -/
theorem semaphoreP_spec (h : Inv kind st) (ht : st.status t = .beforeP) :
    Inv kind (st.semaphoreP t) ∧ Moves st t (st.semaphoreP t) ∧
      (st.semaphoreP t).phase t = st.phase t := by
  have hheld : st.lockHolder ≠ some t := by grind
  unfold semaphoreP
  split
  · have hm : Moves st t { st.setStatus t .waitSemaphore with
        semaphoreQueue := Function.update st.semaphoreQueue t (st.semaphoreQueue t ++ [t]) } :=
      ⟨waking_setStatus hheld _, rfl, rfl, fun x hx => by simp [setStatus, hx]⟩
    refine ⟨⟨?_, ?_, ?_⟩, hm, ?_⟩
    · constructor <;> grind [setStatus, Status.waitsForLock]
    · grind [setStatus]
    · grind [setStatus]
    · rw [phase, hm.waiting_eq, phase, ht]
      simp [setStatus, Status.phase]
  · rename_i hv
    have hm : Moves st t { st.setStatus t .beforeAcquire with
        value := Function.update st.value t (st.value t - 1) } :=
      ⟨waking_setStatus hheld _, rfl, rfl, fun x hx => by simp [setStatus, hx]⟩
    have hmem : t ∉ st.waitQueue := fun hmem => hv ((h.value t ht).mpr hmem)
    have hlist : t ∉ st.waiting := by grind [waiting]
    refine ⟨⟨?_, ?_, ?_⟩, hm, ?_⟩
    · constructor <;> grind [setStatus, Status.waitsForLock]
    · grind [setStatus]
    · grind [setStatus]
    · rw [phase, hm.waiting_eq, phase, ht]
      simp [setStatus, Status.phase, hlist]

/-- A step that the condition variable does not see. -/
theorem refines_nil (hinv : Inv kind st') (hm : Moves st t st') (hphase : st'.phase t = st.phase t)
    (hholder : st'.lockHolder = st.lockHolder) : Refines kind st [] st' := by
  refine ⟨hinv, ?_, fun x hout hout' => ?_⟩
  · rw [hm.view_eq, hphase, hholder, Function.update_eq_self]
    rfl
  · by_cases hx : x = t
    · subst hx
      exact absurd (hphase ▸ hout') hout
    · exact absurd (hm.phase_eq hx ▸ hout') hout

theorem semaphoreP_refines (h : Inv kind st) (ht : st.status t = .beforeP) :
    Refines kind st [] (st.semaphoreP t) := by
  obtain ⟨hinv, hm, hphase⟩ := semaphoreP_spec h ht
  refine refines_nil hinv hm hphase ?_
  unfold semaphoreP
  split <;> rfl

/-! ## wake -/

/-- The thread that waits longest is woken: it is ready, or its semaphore keeps the wake. -/
theorem wake_spec (h : Inv kind st) (hheld : st.lockHolder = some t) {rest : List T}
    (hq : st.waitQueue = u :: rest) (prefer : T) :
    ∃ st', st.wake kind t prefer = some st' ∧ Inv kind st' ∧ st'.lockHolder = st.lockHolder ∧
      st'.waitQueue = rest ∧ st'.moved = st.moved ++ [u] ∧
      (∀ x, x ≠ u → st'.status x = st.status x) ∧
      (st'.status u = .beforeP ∨ st'.status u = .beforeAcquire) := by
  have hu := h.waits u (by simp [hq])
  have hnodup : (u :: rest).Nodup := hq ▸ h.nodup
  cases kind with
  | condition =>
    simp only [wake, hheld, if_true, hq, semaphoreV]
    have hsem := h.semaphore u
    by_cases hs : st.status u = .waitSemaphore
    · -- the thread is in `P`
      rw [if_pos hs] at hsem
      have hnext : nextThread (st.semaphoreQueue u) prefer = some u := by
        simp [nextThread, hsem]
      simp only [hnext, ready, hs, setStatus]
      refine ⟨_, rfl, ⟨?_, ?_, ?_⟩, rfl, rfl, rfl, ?_, ?_⟩
      · constructor <;> grind [Status.waitsForLock, Function.update_apply]
      · grind
      · grind
      · grind
      · grind
    · -- the thread has not called `P` yet
      have hs' : st.status u = .beforeP := by grind
      rw [if_neg hs] at hsem
      have hnext : nextThread (st.semaphoreQueue u) prefer = none := by simp [nextThread, hsem]
      simp only [hnext]
      refine ⟨_, rfl, ⟨?_, ?_, ?_⟩, rfl, rfl, rfl, ?_, ?_⟩
      · constructor <;> grind [Status.waitsForLock]
      · grind
      · grind
      · exact fun _ _ => rfl
      · exact .inl hs'
  | condition2 =>
    have hs : st.status u = .waitThread := by grind
    simp only [wake, hheld, if_true, hq, ready, hs]
    refine ⟨_, rfl, ⟨?_, ?_, ?_⟩, rfl, rfl, rfl, ?_, ?_⟩
    · constructor <;> grind [setStatus, Status.waitsForLock]
    · grind [setStatus]
    · grind [setStatus]
    · grind [setStatus]
    · grind [setStatus]

theorem wake_refines (h : Inv kind st) (ht : st.status t = .client)
    (hheld : st.lockHolder = some t) (prefer : T) :
    ∃ st', st.wake kind t prefer = some st' ∧ Refines kind st [.wake t] st' := by
  have hwaking : st.waking = false := waking_eq_false (by grind)
  cases hq : st.waitQueue with
  | nil =>
    refine ⟨st, by simp [wake, hheld, hq], h, ?_, fun x hout hout' => absurd hout' hout⟩
    simp [State.step, view, hheld, waiting, hwaking, hq]
  | cons u rest =>
    obtain ⟨st', hst', hinv, hholder, hqueue, hmoved, hother, hu⟩ := wake_spec h hheld hq prefer
    have hwaking' : st'.waking = false := waking_eq_false (by grind)
    have hnodup : u ∉ rest := (List.nodup_cons.mp (hq ▸ h.nodup)).1
    have hphase : st'.phase = Function.update st.phase u .woken := by
      funext x
      by_cases hx : x = u
      · subst hx
        rcases hu with hs | hs <;> simp [phase, hs, Status.phase, waiting, hwaking', hqueue, hnodup]
      · simp [phase, hother x hx, waiting, hwaking, hwaking', hqueue, hq, hx]
    have hasleep : st.phase u = .asleep := by
      rcases h.waits u (by simp [hq]) with hs | hs | hs <;>
        simp [phase, hs, Status.phase, waiting, hwaking, hq]
    refine ⟨st', hst', hinv, ?_, fun x hout hout' => ?_⟩
    · simp [State.step, view, hheld, hholder, waiting, hwaking, hwaking', hq, hqueue, hmoved, hphase]
    · by_cases hx : x = u
      · subst hx
        simp [hphase] at hout'
      · rw [hphase, Function.update_of_ne hx] at hout'
        exact absurd hout' hout

/-! ## wakeAll -/

/-- `wakeAll` takes effect where it is called. -/
theorem wakeAll_refines (h : Inv kind st) (ht : st.status t = .client)
    (hheld : st.lockHolder = some t) :
    Refines kind st [.wakeAll t] (st.setStatus t .wakingAll) := by
  have hwaking : st.waking = false := waking_eq_false (by grind)
  have hwaking' : (st.setStatus t .wakingAll).waking = true :=
    waking_eq_true_iff.mpr ⟨t, hheld, by simp [setStatus]⟩
  -- the loop over the waiters has not started, yet every waiter already counts as woken: the
  -- abstract operation happens at once
  have hlist : st.waiting = st.waitQueue := by simp [waiting, hwaking]
  have hlist' : (st.setStatus t .wakingAll).waiting = [] := by simp [waiting, hwaking']
  have hphase : ∀ x, (st.setStatus t .wakingAll).phase x =
      if x ∈ st.waitQueue then .woken else st.phase x := by
    intro x
    rw [phase, hlist', status_setStatus, phase, hlist]
    -- the waker is not in the waiting list, since it holds the lock
    by_cases hx : x = t
    · subst hx
      have hmem : x ∉ st.waitQueue := by grind
      simp [ht, Status.phase, hmem]
    · by_cases hmem : x ∈ st.waitQueue
      · rcases h.waits x hmem with hs | hs | hs <;> simp [hx, hs, Status.phase, hmem]
      · simp [hx, hmem]
  refine ⟨⟨?_, ?_, ?_⟩, ?_, fun x hout hout' => ?_⟩
  · constructor <;> grind [setStatus, Status.waitsForLock]
  · grind [setStatus]
  · grind [setStatus]
  · have hview : (st.setStatus t .wakingAll).view = { st.view with
        waiting := [], moved := st.moved ++ st.waitQueue
        phase := fun x => if x ∈ st.waitQueue then .woken else st.phase x } :=
      State.ext rfl hlist' (by simp only [view, hwaking', if_true]; rfl) (funext hphase)
    rw [hview]
    simp [State.step, view, hheld, hlist, hwaking]
  · rw [hphase] at hout'
    split at hout'
    · cases hout'
    · exact absurd hout' hout

/-- The threads that a `wakeAll` takes from the queue count as woken already. -/
theorem wakeAllLoop_refines (h : Inv kind st) (ht : st.status t = .wakingAll) (prefer : T) :
    ∃ st', st.wakeAllLoop kind t prefer = some st' ∧ Refines kind st [] st' := by
  have hheld := h.waking t ht
  have hwaking : st.waking = true := waking_eq_true_iff.mpr ⟨t, hheld, ht⟩
  have hlist : st.waiting = [] := by simp [waiting, hwaking]
  cases hq : st.waitQueue with
  | nil =>
    -- the loop is over: only the status of the waker changes
    have hwaking' : (st.setStatus t .client).waking = false := waking_eq_false (by grind [setStatus])
    have hlist' : (st.setStatus t .client).waiting = [] := by
      rw [waiting, hwaking']
      exact hq
    have hphase : ∀ x, (st.setStatus t .client).phase x = st.phase x := by
      intro x
      rw [phase, hlist', status_setStatus, phase, hlist]
      split
      · rename_i hx
        simp [hx, ht, Status.phase]
      · rfl
    refine ⟨st.setStatus t .client, by simp [wakeAllLoop, hq], ⟨⟨?_, ?_, ?_⟩, ?_, ?_⟩⟩
    · constructor <;> grind [setStatus, Status.waitsForLock]
    · grind [setStatus]
    · grind [setStatus]
    · have hview : (st.setStatus t .client).view = st.view := by
        refine State.ext rfl (hlist'.trans hlist.symm) ?_ (funext hphase)
        simp only [view, hwaking, hwaking', if_true, hq, List.append_nil]
        rfl
      rw [hview, State.run_nil]
    · exact fun x hout hout' => absurd (hphase x ▸ hout') hout
  | cons u rest =>
    -- the loop wakes one more thread, which the abstract monitor woke at the start of it
    obtain ⟨st', hst', hinv, hholder, hqueue, hmoved, hother, hu⟩ := wake_spec h hheld hq prefer
    have hut : t ≠ u := by grind
    have hwaking' : st'.waking = true :=
      waking_eq_true_iff.mpr ⟨t, hholder.trans hheld, (hother t hut).trans ht⟩
    have hlist' : st'.waiting = [] := by simp [waiting, hwaking']
    have hphase : ∀ x, st'.phase x = st.phase x := by
      intro x
      rw [phase, hlist', phase, hlist]
      by_cases hx : x = u
      · subst hx
        rcases h.waits x (by simp [hq]) with hs | hs | hs <;>
          rcases hu with hs' | hs' <;> simp [hs, hs', Status.phase]
      · rw [hother x hx]
    refine ⟨st', by simpa [wakeAllLoop, hq] using hst', hinv, ?_, ?_⟩
    · have hview : st'.view = st.view := by
        refine State.ext hholder (hlist'.trans hlist.symm) ?_ (funext hphase)
        simp [view, hwaking, hwaking', hq, hqueue, hmoved]
      rw [hview, State.run_nil]
    · exact fun x hout hout' => absurd (hphase x ▸ hout') hout

/-! ## Runs -/

/-- The step fails an assertion of the client: it acquires a lock that it has, or calls
    another method without having the lock. -/
def Misuses (st : Monitor T) (choice : Choice T Method) : Prop :=
  st.status choice.thread = .client ∧
    (choice.input = .acquire ↔ st.lockHolder = some choice.thread)

/-- The thread is in a `KThread.sleep()`. -/
def Blocked (st : Monitor T) (t : T) : Prop :=
  st.status t = .waitLock false ∨ st.status t = .waitLock true ∨ st.status t = .waitSemaphore ∨
    st.status t = .waitThread

/-- Every step is one of the condition variable, and no other assertion fails. -/
theorem step_refines (h : Inv kind st) (choice : Choice T Method) :
    (Misuses st choice ∨ Blocked st choice.thread) ∧ st.step kind choice = none ∨
      ∃ st', st.step kind choice = some st' ∧ Refines kind st (st.operations choice) st' := by
  obtain ⟨t, method, prefer⟩ := choice
  cases hs : st.status t with
  | client =>
    -- what a method may do depends on whether its caller holds the lock
    by_cases hheld : st.lockHolder = some t
    · cases method with
      | acquire =>
        refine .inl ⟨.inl ⟨hs, by simp [hheld]⟩, ?_⟩
        simp [step, hs, call, acquire, hheld]
      | release =>
        refine .inr ?_
        simpa [step, hs, call, operations] using release_refines h hs hheld prefer
      | sleep =>
        refine .inr ?_
        simpa [step, hs, call, operations] using sleep_refines h hs hheld prefer
      | wake =>
        refine .inr ?_
        simpa [step, hs, call, operations] using wake_refines h hs hheld prefer
      | wakeAll =>
        refine .inr ⟨_, by simp [step, hs, call, hheld]; rfl, ?_⟩
        simpa [operations, hs] using wakeAll_refines h hs hheld
    · cases method with
      | acquire =>
        refine .inr ?_
        simpa [step, hs, call, operations] using acquire_refines h hs hheld
      | release | sleep | wake | wakeAll =>
        refine .inl ⟨.inl ⟨hs, by simp [hheld]⟩, ?_⟩
        simp [step, hs, call, release, sleep_eq_none hheld, wake, hheld]
  | beforeP =>
    refine .inr ⟨_, by simp [step, hs]; rfl, ?_⟩
    simpa [operations, hs] using semaphoreP_refines h hs
  | beforeAcquire =>
    refine .inr ?_
    simpa [step, hs, operations] using reacquire_refines h hs
  | wakingAll =>
    refine .inr ?_
    simpa [step, hs, operations] using wakeAllLoop_refines h hs prefer
  | waitLock b =>
    -- the last three are blocked threads, which take no step of their own
    refine .inl ⟨.inr ?_, by simp [step, hs]⟩
    cases b <;> simp [Blocked, hs]
  | waitSemaphore => exact .inl ⟨.inr (by simp [Blocked, hs]), by simp [step, hs]⟩
  | waitThread => exact .inl ⟨.inr (by simp [Blocked, hs]), by simp [step, hs]⟩

/-- A woken thread goes on: it is ready, or it waits for a lock that is taken, or a
    `wakeAll` that is in its loop has yet to take it from the queue. -/
def GoesOn (st : Monitor T) (t : T) : Prop :=
  ¬ Blocked st t ∨ (t ∈ st.lockQueue ∧ st.lockHolder ≠ none) ∨
    (st.waking = true ∧ t ∈ st.waitQueue)

theorem Inv.goesOn (h : Inv kind st) (ht : st.phase t = .woken) : GoesOn st t := by
  have hlisted : st.status t = .waitSemaphore ∨ st.status t = .waitThread →
      st.waking = true ∧ t ∈ st.waitQueue := by
    intro hs
    have hmem : t ∈ st.waitQueue := by grind
    refine ⟨?_, hmem⟩
    by_contra hnot
    rcases hs with hs | hs <;> simp [phase, hs, Status.phase, waiting, hnot, hmem] at ht
  have hlock : (st.status t).waitsForLock = true → t ∈ st.lockQueue ∧ st.lockHolder ≠ none := by
    intro hs
    have hmem := (h.lockWaits t).mpr hs
    exact ⟨hmem, fun hnone => by simp [h.free hnone] at hmem⟩
  cases hs : st.status t with
  | waitLock b => exact .inr (.inl (hlock (by rw [hs]; rfl)))
  | waitSemaphore => exact .inr (.inr (hlisted (.inl hs)))
  | waitThread => exact .inr (.inr (hlisted (.inr hs)))
  | client | beforeP | beforeAcquire | wakingAll => exact .inl (by simp [Blocked, hs])

omit [DecidableEq T] in
theorem init_inv : Inv kind ({} : Monitor T) := by
  refine ⟨?_, by simp, by simp⟩
  constructor <;> simp [Status.waitsForLock]

/-- A run keeps the invariant and is a run of the condition variable. -/
theorem run_view {choices : List (Choice T Method)} (h : Inv kind st)
    (hrun : st.run kind choices = some st') :
    Inv kind st' ∧ st.view.run (st.trace kind choices) = some st'.view := by
  induction choices generalizing st with
  | nil =>
    obtain rfl := Option.some.inj hrun
    exact ⟨h, rfl⟩
  | cons choice choices ih =>
    simp only [run, List.foldlM_cons, Option.bind_eq_bind, Option.bind_eq_some_iff] at hrun
    obtain ⟨st₁, hstep, hrest⟩ := hrun
    rcases step_refines h choice with ⟨-, hnone⟩ | ⟨st₂, hsome, hrefines⟩
    · simp [hnone] at hstep
    · obtain rfl := Option.some.inj (hsome.symm.trans hstep)
      obtain ⟨hinv, hview⟩ := ih hrefines.inv hrest
      refine ⟨hinv, ?_⟩
      simp only [trace, hstep, Option.elim_some, State.run_append, hrefines.view]
      exact hview

/-- `Condition` and `Condition2` implement the same condition variable, for every program of
    the threads and every schedule: the run is one of its runs; a thread that returns from
    `sleep` has been moved out of the list and has the lock; a thread that has been moved goes
    on; and only the assertions about the use of the lock can fail. -/
theorem run_refines {choices : List (Choice T Method)}
    (hrun : ({} : Monitor T).run kind choices = some st) :
    State.run {} (({} : Monitor T).trace kind choices) = some st.view ∧
    (∀ choice st', st.step kind choice = some st' → Returns st st') ∧
    (∀ t, st.view.phase t = .woken → GoesOn st t) ∧
    (∀ choice, st.step kind choice = none → Misuses st choice ∨ Blocked st choice.thread) := by
  obtain ⟨hinv, hview⟩ := run_view init_inv hrun
  refine ⟨hview, fun choice st' hstep => ?_, fun t ht => hinv.goesOn ht, fun choice hnone => ?_⟩
  · rcases step_refines hinv choice with ⟨-, hnone⟩ | ⟨st₁, hsome, hrefines⟩
    · simp [hnone] at hstep
    · obtain rfl := Option.some.inj (hsome.symm.trans hstep)
      exact hrefines.returns
  · rcases step_refines hinv choice with ⟨hwhy, -⟩ | ⟨st₁, hsome, -⟩
    · exact hwhy
    · simp [hnone] at hsome

end View

/-- Thread 0 sleeps and is woken by thread 1 before it has called `P`. -/
def earlyWake : List (Choice Nat Method) :=
  [⟨0, .acquire, 0⟩, ⟨0, .sleep, 0⟩, ⟨1, .acquire, 1⟩, ⟨1, .wake, 1⟩, ⟨1, .release, 1⟩,
   ⟨0, .sleep, 0⟩, ⟨0, .sleep, 0⟩]

theorem run_refines_earlyWake :
    ∃ st : Monitor Nat, ({} : Monitor Nat).run .condition earlyWake = some st ∧
      st.lockHolder = some 0 ∧
      State.run {} [.acquire 0, .enter 0, .sleep 0, .acquire 1, .enter 1, .wake 1, .release 1,
        .enter 0] = some st.view := by
  have hmap : (({} : Monitor Nat).run .condition earlyWake).map (·.lockHolder) = some (some 0) := by
    decide +kernel
  have htrace : ({} : Monitor Nat).trace .condition earlyWake = [.acquire 0, .enter 0, .sleep 0,
      .acquire 1, .enter 1, .wake 1, .release 1, .enter 0] := by decide +kernel
  obtain ⟨st, hrun, hholder⟩ := Option.map_eq_some_iff.mp hmap
  exact ⟨st, hrun, hholder, htrace ▸ (run_refines hrun).1⟩

end Monitor

end Conditions

end Nachos
