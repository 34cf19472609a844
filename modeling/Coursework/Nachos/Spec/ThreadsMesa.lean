import Coursework.Nachos.Threads

/-!
# The kernel's threads are a Mesa monitor

`Lock`, `Semaphore` and `Condition` implement the monitor of `Monitor/Mesa.lean`: what a
thread does between two statements of its program is not seen there, and a released lock
that is given to a waiting thread is a release followed by that thread entering. An
invariant of the monitor is therefore an invariant of every run of the threads.
-/

namespace Nachos

open Mesa (Instr Program Phase Step Steps Queued)

variable {T L C P S I : Type}

/-- A thread in `Condition.sleep` has been woken once its semaphore has been increased, or
    once it is past `P`. -/
def Status.phase (value : Nat) : Status L C P → Phase L C P
  | .ready pc => .run pc
  | .waitLock l next => .entering l next
  | .beforeP c next => if value = 0 then .asleep c next else .woken c next
  | .waitSemaphore c next => .asleep c next
  | .beforeAcquire c next => .woken c next

namespace Threads

/-- The monitor that the threads implement. -/
def monitor (st : Threads T L C P S) : Mesa.State T L C P S where
  shared := st.shared
  holder := st.lockHolder
  queue := st.waitQueue
  thread := fun t => (st.status t).phase (st.value t)

/-- The threads in the queue of a lock are asleep in its `acquire`. -/
structure LockQueued (st : Threads T L C P S) : Prop where
  waits : ∀ l t, t ∈ st.lockQueue l → ∃ next, st.status t = .waitLock l next
  nodup : ∀ l, (st.lockQueue l).Nodup

theorem nextThread_mem [DecidableEq T] {queue : List T} {prefer u : T}
    (h : nextThread queue prefer = some u) : u ∈ queue := by
  unfold nextThread at h
  split at h
  · exact Option.some.inj h ▸ ‹_›
  · exact List.mem_of_mem_head? h

theorem LockQueued.of_eq {st st' : Threads T L C P S} (h : LockQueued st)
    (hq : st'.lockQueue = st.lockQueue) (hs : st'.status = st.status) : LockQueued st' :=
  ⟨by rw [hq, hs]; exact h.waits, by rw [hq]; exact h.nodup⟩

variable [DecidableEq T]

theorem thread_update (st : Threads T L C P S) (t : T) (s : Status L C P) (n : Nat) :
    (fun u => (Function.update st.status t s u).phase (Function.update st.value t n u)) =
      Function.update st.monitor.thread t (s.phase n) := by
  funext u
  by_cases hu : u = t
  · subst hu
    simp
  · simp [hu, monitor]

/-- Setting the status of one thread sets its phase. -/
theorem monitor_setStatus (st : Threads T L C P S) (t : T) (s : Status L C P) :
    (st.setStatus t s).monitor =
      { st.monitor with thread := Function.update st.monitor.thread t (s.phase (st.value t)) } := by
  have h := st.thread_update t s (st.value t)
  rw [Function.update_eq_self] at h
  simp only [setStatus, monitor, Mesa.State.mk.injEq, true_and]
  exact h

/-- A thread that is not in the `acquire` of a lock can go anywhere. -/
theorem LockQueued.setStatus {st : Threads T L C P S} (h : LockQueued st) {t : T}
    (ht : ∀ l next, st.status t ≠ .waitLock l next) (s : Status L C P) :
    LockQueued (st.setStatus t s) where
  waits l u hu := by
    obtain ⟨next, hnext⟩ := h.waits l u hu
    have hut : u ≠ t := by
      rintro rfl
      exact ht l next hnext
    exact ⟨next, by simpa [Threads.setStatus, hut] using hnext⟩
  nodup := h.nodup

section Semaphore

variable {st : Threads T L C P S} {t : T} {l : L} {c : C} {next : P}

/-- `Semaphore.V` wakes a thread that is asleep on a condition. -/
theorem monitor_semaphoreV {u : T} {n : P} (hu : st.monitor.thread u = .asleep c n) :
    (st.semaphoreV u).monitor =
      { st.monitor with thread := Function.update st.monitor.thread u (.woken c n) } := by
  simp only [monitor] at hu
  unfold semaphoreV
  split
  · rename_i c' n' hs
    rw [hs] at hu
    simp only [Status.phase, Phase.asleep.injEq] at hu
    obtain ⟨rfl, rfl⟩ := hu
    rw [monitor_setStatus, hs]
    rfl
  · rename_i hs
    have hb : st.status u = .beforeP c n ∧ st.value u = 0 := by
      cases hst : st.status u with
      | beforeP c' n' =>
        rw [hst] at hu
        by_cases hv : st.value u = 0
        · simp only [Status.phase, hv, if_true, Phase.asleep.injEq] at hu
          exact ⟨by rw [hu.1, hu.2], hv⟩
        · simp [Status.phase, hv] at hu
      | waitSemaphore c' n' => exact absurd hst (hs c' n')
      | ready _ => simp [hst, Status.phase] at hu
      | waitLock _ _ => simp [hst, Status.phase] at hu
      | beforeAcquire _ _ => simp [hst, Status.phase] at hu
    have h := st.thread_update u (st.status u) (st.value u + 1)
    rw [Function.update_eq_self] at h
    simp only [monitor, Mesa.State.mk.injEq, true_and]
    rw [h, hb.1]
    simp [Status.phase, monitor]

theorem status_semaphoreV (u : T) (hu : st.monitor.thread u = .asleep c next) {x : T} {n : P}
    (hx : st.status x = .waitLock l n) : (st.semaphoreV u).status x = .waitLock l n := by
  have hxu : x ≠ u := by
    rintro rfl
    simp [monitor, hx, Status.phase] at hu
  unfold semaphoreV
  split
  · simpa [setStatus, hxu] using hx
  · exact hx

theorem lockQueue_semaphoreV (u : T) : (st.semaphoreV u).lockQueue = st.lockQueue := by
  unfold semaphoreV
  split <;> rfl

/-- `Semaphore.P` is not seen in the monitor. -/
theorem monitor_semaphoreP (ht : st.status t = .beforeP c next) :
    (st.semaphoreP t c next).monitor = st.monitor := by
  have hself : ∀ s : Status L C P, s.phase (st.value t) = st.monitor.thread t →
      Function.update st.monitor.thread t (s.phase (st.value t)) = st.monitor.thread := by
    intro s hs
    rw [hs, Function.update_eq_self]
  unfold semaphoreP
  split
  · rename_i hv
    rw [monitor_setStatus, hself]
    simp [monitor, ht, Status.phase, hv]
  · rename_i hv
    have h := st.thread_update t (.beforeAcquire c next) (st.value t - 1)
    simp only [monitor, Mesa.State.mk.injEq, true_and, setStatus]
    rw [h]
    have hwoken : (Status.beforeAcquire c next : Status L C P).phase (st.value t) =
        st.monitor.thread t := by
      simp [monitor, ht, Status.phase, hv]
    exact hself _ hwoken

end Semaphore

variable [DecidableEq L] [DecidableEq C] {m : Program T L C P S I} {st st' : Threads T L C P S}
  {t prefer : T} {l : L} {c : C} {next : P}

/-- `Lock.acquire`, by a thread that in the monitor waits to enter. -/
theorem acquire_steps (hq : LockQueued st) (ht : ∀ l next, st.status t ≠ .waitLock l next)
    (h : st.acquire t l next = some st') :
    Steps m { st.monitor with thread := Function.update st.monitor.thread t (.entering l next) }
      st'.monitor ∧ LockQueued st' := by
  unfold acquire at h
  split at h
  · -- the lock is free: the thread enters the monitor in the same step
    rename_i hfree
    obtain rfl := Option.some.inj h
    refine ⟨?_, (hq.setStatus ht (.ready next)).of_eq rfl rfl⟩
    have henters : Function.update st.monitor.thread t (.entering l next) t = .entering l next :=
      Function.update_self ..
    have hstep : Step m { st.monitor with
        thread := Function.update st.monitor.thread t (.entering l next) } _ := .enter henters hfree
    simp only [Function.update_idem] at hstep
    have hmon := congrArg (fun s : Mesa.State T L C P S =>
      { s with holder := Function.update st.lockHolder l (some t) })
      (st.monitor_setStatus t (.ready next))
    exact .of_eq hmon (.single hstep)
  · -- the lock is taken: the thread joins its queue, where for the monitor it is still entering
    split at h
    · simp at h
    obtain rfl := Option.some.inj h
    have hmon := st.monitor_setStatus t (.waitLock l next)
    refine ⟨Relation.ReflTransGen.refl.trans (by exact hmon ▸ .refl), ?_, ?_⟩
    · -- whoever waits in a lock queue has the status of a thread waiting for that lock
      intro l' u hu
      by_cases hl : l' = l
      · subst hl
        simp only [Function.update_self, List.mem_append, List.mem_singleton] at hu
        by_cases hut : u = t
        · exact ⟨next, by simp [setStatus, hut]⟩
        · obtain ⟨n, hn⟩ := hq.waits l' u (hu.resolve_right hut)
          exact ⟨n, by simpa [setStatus, hut] using hn⟩
      · simp only [Function.update_of_ne hl] at hu
        exact (hq.setStatus ht _).waits l' u hu
    · intro l'
      by_cases hl : l' = l
      · subst hl
        simp only [Function.update_self]
        refine List.nodup_append.mpr ⟨hq.nodup l', by simp, ?_⟩
        -- it was not waiting for any lock before, so it appears once in the queue
        rintro a ha b hb rfl
        obtain ⟨n, hn⟩ := hq.waits l' a ha
        exact ht l' n (List.mem_singleton.mp hb ▸ hn)
      · simpa [hl] using hq.nodup l'

/-- `Lock.release`, by a thread that in the monitor has given up the lock. -/
theorem release_steps (hq : LockQueued st) (h : st.release t l prefer = some st') :
    st.lockHolder l = some t ∧
      Steps m { st.monitor with holder := Function.update st.lockHolder l none } st'.monitor ∧
      LockQueued st' := by
  unfold release at h
  split at h
  · rename_i hheld
    refine ⟨hheld, ?_⟩
    split at h
    · obtain rfl := Option.some.inj h
      exact ⟨.refl, hq.of_eq rfl rfl⟩
    · -- the lock is handed to a waiting thread
      rename_i u hu
      obtain rfl := Option.some.inj h
      have hmem := nextThread_mem hu
      obtain ⟨n, hn⟩ := hq.waits l u hmem
      refine ⟨?_, ?_, ?_⟩
      · have henters : st.monitor.thread u = .entering l n := by simp [monitor, hn, Status.phase]
        have hstep : Step m { st.monitor with
            holder := Function.update st.lockHolder l none } _ := .enter henters (by simp)
        have hmon := congrArg (fun s : Mesa.State T L C P S =>
          { s with holder := Function.update st.lockHolder l (some u) })
          (st.monitor_setStatus u (st.status u).wake)
        simp only [Function.update_idem] at hstep
        rw [hn] at hmon ⊢
        exact .of_eq hmon (.single hstep)
      · intro l' x hx
        have hx' : x ∈ st.lockQueue l' ∧ x ≠ u := by
          by_cases hl : l' = l
          · subst hl
            simp only [Function.update_self, (hq.nodup l').mem_erase_iff] at hx
            exact ⟨hx.2, hx.1⟩
          · simp only [Function.update_of_ne hl] at hx
            refine ⟨hx, ?_⟩
            rintro rfl
            obtain ⟨n', hn'⟩ := hq.waits l' x hx
            simp only [hn, Status.waitLock.injEq] at hn'
            exact hl hn'.1.symm
        obtain ⟨n', hn'⟩ := hq.waits l' x hx'.1
        exact ⟨n', by simpa [setStatus, hx'.2] using hn'⟩
      · intro l'
        by_cases hl : l' = l
        · subst hl
          simpa using (hq.nodup l').erase u
        · simpa [hl] using hq.nodup l'
  · simp at h

omit [DecidableEq L] in
/-- `Condition.wake`, by a thread that has the lock. -/
theorem wake_spec (hq : LockQueued st) (hmem : Queued st.monitor) (h : wake m st t c = some st') :
    st.lockHolder (m.lockOf c) = some t ∧ LockQueued st' ∧
      ((st.waitQueue c = [] ∧ st' = st) ∨
      ∃ u rest, st.waitQueue c = u :: rest ∧ st'.monitor = { st.monitor with
        queue := Function.update st.waitQueue c rest
        thread := Function.update st.monitor.thread u (st.monitor.thread u).wake }) := by
  unfold wake at h
  split at h
  · rename_i hheld
    refine ⟨hheld, ?_⟩
    split at h
    · rename_i hnil
      obtain rfl := Option.some.inj h
      exact ⟨hq, Or.inl ⟨hnil, rfl⟩⟩
    · rename_i u rest hcons
      obtain rfl := Option.some.inj h
      obtain ⟨n, hn⟩ := hmem.head_asleep hcons
      have hn' : (Threads.monitor { st with
          waitQueue := Function.update st.waitQueue c rest }).thread u = .asleep c n := hn
      refine ⟨⟨?_, ?_⟩, Or.inr ⟨u, rest, hcons, ?_⟩⟩
      · intro l x hx
        rw [lockQueue_semaphoreV] at hx
        obtain ⟨n', hx'⟩ := hq.waits l x hx
        exact ⟨n', status_semaphoreV u hn' hx'⟩
      · rw [lockQueue_semaphoreV]
        exact hq.nodup
      · rw [monitor_semaphoreV hn', hn]
        rfl
  · simp at h

/-- A statement of the program is a sequence of steps of the monitor. -/
theorem exec_steps {pc : P} {i : I} (hq : LockQueued st) (hmem : Queued st.monitor)
    (hpc : st.status t = .ready pc)
    (h : exec m st t prefer (m.instr t pc st.shared i) = some st') :
    Steps m st.monitor st'.monitor ∧ LockQueued st' := by
  have hrun : st.monitor.thread t = .run pc := by simp [monitor, hpc, Status.phase]
  have hnot : ∀ l next, st.status t ≠ .waitLock l next := by simp [hpc]
  cases hinstr : m.instr t pc st.shared i with
  | act shared next =>
    rw [hinstr] at h
    obtain rfl := Option.some.inj h
    refine ⟨.of_eq ?_ (.single (Step.act hrun hinstr)), (hq.setStatus hnot _).of_eq rfl rfl⟩
    exact congrArg (fun s : Mesa.State T L C P S => { s with shared := shared })
      (st.monitor_setStatus t (.ready next))
  | acquire l next =>
    rw [hinstr] at h
    obtain ⟨hsteps, hq'⟩ := acquire_steps (m := m) hq hnot h
    exact ⟨.head (Step.acquire hrun hinstr) hsteps, hq'⟩
  | release l next =>
    rw [hinstr] at h
    obtain ⟨hheld, hsteps, hq'⟩ := release_steps (m := m) (hq.setStatus hnot (.ready next)) h
    refine ⟨.head (Step.release hrun hinstr hheld) ?_, hq'⟩
    rw [monitor_setStatus] at hsteps
    exact hsteps
  | sleep c next =>
    rw [hinstr] at h
    have hq₁ : LockQueued { st.setStatus t (.beforeP c next) with
        value := Function.update st.value t 0
        waitQueue := Function.update st.waitQueue c (st.waitQueue c ++ [t]) } :=
      (hq.setStatus hnot (.beforeP c next)).of_eq rfl rfl
    obtain ⟨hheld, hsteps, hq'⟩ := release_steps (m := m) hq₁ h
    refine ⟨.head (Step.sleep hrun hinstr hheld) ?_, hq'⟩
    have hthread := st.thread_update t (.beforeP c next) 0
    simp only [monitor, setStatus] at hsteps
    rw [hthread] at hsteps
    exact hsteps
  | wake c next =>
    rw [hinstr] at h
    simp only [exec, Option.map_eq_some_iff] at h
    obtain ⟨st₁, h₁, rfl⟩ := h
    obtain ⟨hheld, hq₁, hcase⟩ := wake_spec hq hmem h₁
    rcases hcase with ⟨hnil, rfl⟩ | ⟨u, rest, hcons, hmon⟩
    · refine ⟨.of_eq ?_ (.single (Step.wakeNone hrun hinstr hheld hnil)), hq.setStatus hnot _⟩
      exact st₁.monitor_setStatus t (.ready next)
    · -- the woken thread is not the one that runs
      have hut : t ≠ u := by
        rintro rfl
        exact hmem.not_mem_of_run hrun c (by rw [show st.monitor.queue c = _ from hcons]; simp)
      have hrun₁ : st₁.monitor.thread t = .run pc := by
        rw [hmon]
        simpa [hut] using hrun
      have hnot₁ : ∀ l next, st₁.status t ≠ .waitLock l next := by
        intro l n hw
        simp [monitor, hw, Status.phase] at hrun₁
      refine ⟨.of_eq ?_ (.single (Step.wakeSome hrun hinstr hheld hcons)), hq₁.setStatus hnot₁ _⟩
      rw [monitor_setStatus, hmon]
      rfl
  | stuck =>
    rw [hinstr] at h
    simp [exec] at h

/-- One step of a thread is a sequence of steps of the monitor. -/
theorem step_steps {choice : Choice T I} (hq : LockQueued st) (hmem : Queued st.monitor)
    (h : step m st choice = some st') : Steps m st.monitor st'.monitor ∧ LockQueued st' := by
  unfold step at h
  split at h
  · exact exec_steps hq hmem ‹_› h
  · simp at h
  · rename_i c next hs
    obtain rfl := Option.some.inj h
    rw [monitor_semaphoreP hs]
    refine ⟨.refl, ?_⟩
    have hnot : ∀ l next, st.status choice.thread ≠ .waitLock l next := by simp [hs]
    unfold semaphoreP
    split
    · exact hq.setStatus hnot _
    · exact (hq.setStatus hnot (.beforeAcquire c next)).of_eq rfl rfl
  · simp at h
  · rename_i c next hs
    have hnot : ∀ l next, st.status choice.thread ≠ .waitLock l next := by simp [hs]
    obtain ⟨hsteps, hq'⟩ := acquire_steps (m := m) hq hnot h
    exact ⟨.head (Step.retry (by simp [monitor, hs, Status.phase])) hsteps, hq'⟩

/-- Every run of the threads is an interleaving of the monitor. -/
theorem run_steps {choices : List (Choice T I)} (hq : LockQueued st) (hmem : Queued st.monitor)
    (h : run m st choices = some st') : Steps m st.monitor st'.monitor := by
  induction choices generalizing st with
  | nil =>
    obtain rfl := Option.some.inj h
    exact .refl
  | cons choice choices ih =>
    simp only [run, List.foldlM_cons, Option.bind_eq_bind, Option.bind_eq_some_iff] at h
    obtain ⟨st₁, h₁, h₂⟩ := h
    obtain ⟨hsteps, hq₁⟩ := step_steps hq hmem h₁
    exact hsteps.trans (ih hq₁ (hsteps.invariant Queued.step hmem) h₂)

/-! ## A thread while others run -/

section Other

variable {p : T} {pc : P} {choice : Choice T I}

omit [DecidableEq L] [DecidableEq C] in
theorem status_setStatus (st : Threads T L C P S) (hpt : p ≠ t) (s : Status L C P) :
    (st.setStatus t s).status p = st.status p := by
  simp [setStatus, hpt]

omit [DecidableEq C] in
/-- `Lock.release` only moves a thread that waits for the lock. -/
theorem release_other (hq : LockQueued st) (h : st.release t l prefer = some st') :
    st'.shared = st.shared ∧ st'.value = st.value ∧
      ∀ p, (∀ next, st.status p ≠ .waitLock l next) → st'.status p = st.status p := by
  unfold release at h
  split at h
  · split at h
    · obtain rfl := Option.some.inj h
      exact ⟨rfl, rfl, fun _ _ => rfl⟩
    · rename_i u hu
      obtain rfl := Option.some.inj h
      obtain ⟨n, hn⟩ := hq.waits l u (nextThread_mem hu)
      refine ⟨rfl, rfl, fun p hp => status_setStatus _ ?_ _⟩
      rintro rfl
      exact hp n hn
  · simp at h

omit [DecidableEq C] in
theorem acquire_other (hpt : p ≠ t) (h : st.acquire t l next = some st') :
    st'.status p = st.status p ∧ st'.shared = st.shared := by
  unfold acquire at h
  split at h
  · obtain rfl := Option.some.inj h
    exact ⟨status_setStatus _ hpt _, rfl⟩
  · split at h
    · simp at h
    · obtain rfl := Option.some.inj h
      exact ⟨status_setStatus _ hpt _, rfl⟩

omit [DecidableEq L] [DecidableEq C] in
theorem semaphoreV_other {u : T} (hp : st.status p = .ready pc) :
    (st.semaphoreV u).status p = .ready pc ∧ (st.semaphoreV u).shared = st.shared := by
  unfold semaphoreV
  split
  · rename_i hs
    have hpu : p ≠ u := by
      rintro rfl
      simp [hp] at hs
    exact ⟨(status_setStatus _ hpu _).trans hp, rfl⟩
  · exact ⟨hp, rfl⟩

omit [DecidableEq L] in
theorem wake_other (hp : st.status p = .ready pc) (h : wake m st t c = some st') :
    st'.status p = .ready pc ∧ st'.shared = st.shared := by
  unfold wake at h
  split at h
  · split at h
    · obtain rfl := Option.some.inj h
      exact ⟨hp, rfl⟩
    · obtain rfl := Option.some.inj h
      exact semaphoreV_other hp
  · simp at h

/-- A ready thread stays where it is while another one runs. What is shared is changed by
    a statement of that one, if at all. -/
theorem step_other (hq : LockQueued st) (hpt : p ≠ choice.thread) (hp : st.status p = .ready pc)
    (h : step m st choice = some st') :
    st'.status p = .ready pc ∧ (st'.shared = st.shared ∨ ∃ q next,
      st.status choice.thread = .ready q ∧
      m.instr choice.thread q st.shared choice.input = .act st'.shared next) := by
  unfold step at h
  split at h
  · rename_i q hs
    cases hinstr : m.instr choice.thread q st.shared choice.input with
    | act shared next =>
      -- the only instruction that writes the shared variables
      rw [hinstr] at h
      obtain rfl := Option.some.inj h
      exact ⟨(status_setStatus _ hpt _).trans hp, .inr ⟨q, next, hs, hinstr⟩⟩
    | acquire l next =>
      rw [hinstr] at h
      obtain ⟨hstatus, hshared⟩ := acquire_other hpt h
      exact ⟨hstatus.trans hp, .inl hshared⟩
    | release l next =>
      -- giving the lock away can change the status of another thread, but only of one that waits
      -- for the lock, and `p` is ready
      rw [hinstr] at h
      have hp₁ := (st.status_setStatus hpt (.ready next)).trans hp
      obtain ⟨hshared, -, hstatus⟩ := release_other (hq.setStatus (by simp [hs]) _) h
      exact ⟨(hstatus p (by simp [hp₁])).trans hp₁, .inl hshared⟩
    | sleep c next =>
      rw [hinstr] at h
      have hp₁ := (st.status_setStatus hpt (.beforeP c next)).trans hp
      have hq₁ : LockQueued { st.setStatus choice.thread (.beforeP c next) with
          value := Function.update st.value choice.thread 0
          waitQueue := Function.update st.waitQueue c (st.waitQueue c ++ [choice.thread]) } :=
        (hq.setStatus (by simp [hs]) (.beforeP c next)).of_eq rfl rfl
      obtain ⟨hshared, -, hstatus⟩ := release_other hq₁ h
      exact ⟨(hstatus p (by simp [hp₁])).trans hp₁, .inl hshared⟩
    | wake c next =>
      rw [hinstr] at h
      simp only [exec, Option.map_eq_some_iff] at h
      obtain ⟨st₁, h₁, rfl⟩ := h
      obtain ⟨hstatus, hshared⟩ := wake_other hp h₁
      exact ⟨(status_setStatus _ hpt _).trans hstatus, .inl hshared⟩
    | stuck =>
      rw [hinstr] at h
      simp [exec] at h
  · simp at h
  · -- `p` of the semaphore, where a thread either goes on or falls asleep
    obtain rfl := Option.some.inj h
    unfold semaphoreP
    split
    · exact ⟨(status_setStatus _ hpt _).trans hp, .inl rfl⟩
    · exact ⟨(status_setStatus _ hpt _).trans hp, .inl rfl⟩
  · simp at h
  · obtain ⟨hstatus, hshared⟩ := acquire_other hpt h
    exact ⟨hstatus.trans hp, .inl hshared⟩

/-- A statement that neither waits nor wakes. -/
theorem step_act {shared : S} {i : I} (prefer : T) (hpc : st.status t = .ready pc)
    (hinstr : m.instr t pc st.shared i = .act shared next) :
    ∃ st', step m st ⟨t, i, prefer⟩ = some st' ∧ st'.status t = .ready next ∧
      st'.shared = shared := by
  refine ⟨{ st.setStatus t (.ready next) with shared := shared }, ?_, ?_, rfl⟩
  · simp [step, hpc, exec, hinstr]
  · simp [setStatus]

/-- A statement that gives up a lock. -/
theorem step_release (hq : LockQueued st) {i : I} (prefer : T) (hpc : st.status t = .ready pc)
    (hinstr : m.instr t pc st.shared i = .release l next) (hheld : st.lockHolder l = some t) :
    ∃ st', step m st ⟨t, i, prefer⟩ = some st' ∧ st'.status t = .ready next ∧
      st'.shared = st.shared := by
  have hready : (st.setStatus t (.ready next)).status t = .ready next := by simp [setStatus]
  have hsome : ∃ st', (st.setStatus t (.ready next)).release t l prefer = some st' := by
    unfold release
    rw [if_pos (show (st.setStatus t (.ready next)).lockHolder l = some t from hheld)]
    split
    · exact ⟨_, rfl⟩
    · exact ⟨_, rfl⟩
  obtain ⟨st', h⟩ := hsome
  obtain ⟨hshared, -, hstatus⟩ := release_other (hq.setStatus (by simp [hpc]) _) h
  refine ⟨st', ?_, (hstatus t (by simp [hready])).trans hready, hshared⟩
  simpa [step, hpc, exec, hinstr] using h

/-- A thread that goes to sleep does not wake up by itself. -/
theorem run_sleep (hq : LockQueued st) {i : I} (hpc : st.status t = .ready pc)
    (hinstr : m.instr t pc st.shared i = .sleep c next) (prefer : T) (k : Nat) :
    run m st (List.replicate (k + 3) ⟨t, i, prefer⟩) = none := by
  by_contra hne
  obtain ⟨st', h⟩ := Option.ne_none_iff_exists'.mp hne
  simp only [run, List.replicate_succ, List.foldlM_cons, Option.bind_eq_bind,
    Option.bind_eq_some_iff] at h
  obtain ⟨st₁, h₁, st₂, h₂, st₃, h₃, -⟩ := h
  -- after the first step the thread is about to call `P` on a semaphore of value 0
  simp only [step, hpc, exec, hinstr, sleep] at h₁
  have hq₁ : LockQueued { st.setStatus t (.beforeP c next) with
      value := Function.update st.value t 0
      waitQueue := Function.update st.waitQueue c (st.waitQueue c ++ [t]) } :=
    (hq.setStatus (by simp [hpc]) (.beforeP c next)).of_eq rfl rfl
  obtain ⟨-, hvalue, hstatus⟩ := release_other hq₁ h₁
  have hstatus₁ : st₁.status t = .beforeP c next := by
    rw [hstatus t (by simp [setStatus])]
    simp [setStatus]
  have hvalue₁ : st₁.value t = 0 := by simp [hvalue]
  simp only [step, hstatus₁, semaphoreP, hvalue₁, if_true, Option.some.injEq] at h₂
  subst h₂
  simp [step, setStatus] at h₃

end Other

end Threads

end Nachos
