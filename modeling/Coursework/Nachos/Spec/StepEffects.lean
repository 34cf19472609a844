import Coursework.Nachos.Spec.Alarm
import Coursework.Nachos.Spec.ThreadStates

/-!
# What a step does to the other threads

A step is made by the current thread. What it can do to the other threads is little: make some
of them ready, and give one of them the processor, which goes on with the interrupt status it
had saved. One lemma for each function says so, and one for the step.
-/

namespace Nachos

namespace KThread

/-- The interrupt status with which a thread goes on. `runNextThread` is called with
    interrupts disabled. -/
def Rest.status : Rest → Bool
  | .restore intStatus => intStatus
  | .acquire _ intStatus => intStatus
  | .ret => false

namespace Kernel

variable {k k' k₁ : Kernel} {t u : Nat} {r : Rest}

/-- The interrupt status that a thread has when it goes on with its program. -/
def statusOf (k : Kernel) (t : Nat) : Bool :=
  if t = k.currentThread then k.enabled else (k.rest t).status

theorem statusOf_current : k.statusOf k.currentThread = k.enabled := if_pos rfl

theorem statusOf_other (h : t ≠ k.currentThread) : k.statusOf t = (k.rest t).status := if_neg h

/-! ## The current thread keeps the processor -/

/-- A part of a step in which the current thread makes the threads `woken` ready. -/
structure Within (k : Kernel) (woken : List Nat) (k' : Kernel) : Prop where
  current : k'.currentThread = k.currentThread
  rest : ∀ t, k.status t ≠ .new → k'.rest t = k.rest t
  status : ∀ t, k'.status t = if t ∈ woken then .ready else k.status t
  joined : k'.joinedThread = k.joinedThread
  point : ∀ t, t ≠ k.currentThread → k'.point t = k.point t
  queued : ∀ t ∈ k'.readyQueue, t ∈ k.readyQueue ∨ t ∈ woken
  readied : k'.readied = k.readied ++
    woken.map (⟨·, k.currentThread, k.status k.currentThread == .finished⟩)

theorem Within.same (hc : k'.currentThread = k.currentThread) (hr : k'.rest = k.rest)
    (hs : k'.status = k.status) (hj : k'.joinedThread = k.joinedThread)
    (hp : k'.point = k.point) (hq : k'.readyQueue = k.readyQueue) (hl : k'.readied = k.readied) :
    Within k [] k' where
  current := hc
  rest _ _ := by rw [hr]
  status _ := by rw [hs, if_neg List.not_mem_nil]
  joined := hj
  point _ _ := by rw [hp]
  queued _ ht := Or.inl (hq ▸ ht)
  readied := by rw [hl, List.map_nil, List.append_nil]

theorem ready_spec (h : k.ready t = .ok k') : k.enabled = false ∧
    k' = { k with
      status := Function.update k.status t .ready
      readyQueue := if t = idleThread then k.readyQueue else k.readyQueue ++ [t]
      readied := k.readied ++
        [⟨t, k.currentThread, k.status k.currentThread == .finished⟩] } := by
  unfold ready at h
  split at h
  · cases h
  · rename_i henabled
    split at h
    · cases h
    · cases h
      exact ⟨Bool.eq_false_iff.mpr henabled, rfl⟩

/-- Nothing has been done. -/
theorem Within.refl (k : Kernel) : Within k [] k := Within.same rfl rfl rfl rfl rfl rfl rfl

/-- `ready` puts the thread at the end of the ready queue, unless it is the idle thread. -/
theorem mem_queue_ready (hu : u ∈ if t = idleThread then k.readyQueue else k.readyQueue ++ [t]) :
    u ∈ k.readyQueue ∨ u ∈ [t] := by
  split at hu
  · exact Or.inl hu
  · exact List.mem_append.mp hu

theorem Within.ready (h : k.ready t = .ok k') : Within k [t] k' := by
  obtain ⟨-, rfl⟩ := ready_spec h
  constructor
  · rfl
  · exact fun _ _ => rfl
  · intro u
    simp only [Function.update_apply, List.mem_singleton]
  · rfl
  · exact fun _ _ => rfl
  · exact fun _ => mem_queue_ready
  · rfl

/-- The current thread gets to another point of its program. -/
theorem Within.moves {woken : List Nat} (h : Within k woken k') (p : Point) :
    Within k woken { k' with point := Function.update k'.point k.currentThread p } where
  current := h.current
  rest := h.rest
  status := h.status
  joined := h.joined
  point t ht := (Function.update_of_ne ht ..).trans (h.point t ht)
  queued := h.queued
  readied := h.readied

/-- Two parts of a step; the current thread is not made ready in the first. -/
theorem Within.trans {woken woken' : List Nat} (h : Within k woken k₁) (h' : Within k₁ woken' k')
    (hself : k.currentThread ∉ woken) : Within k (woken ++ woken') k' := by
  constructor
  · exact h'.current.trans h.current
  · intro t ht
    -- a new thread that the first part has woken is not new for the second
    have ht₁ : k₁.status t ≠ .new := by
      rw [h.status]
      split
      · decide
      · exact ht
    exact (h'.rest t ht₁).trans (h.rest t ht)
  · intro t
    rw [h'.status, h.status]
    by_cases hlast : t ∈ woken'
    · rw [if_pos hlast, if_pos (List.mem_append_right woken hlast)]
    · simp only [List.mem_append, hlast, or_false, if_false]
  · exact h'.joined.trans h.joined
  · intro t ht
    have ht₁ : t ≠ k₁.currentThread := by
      rw [h.current]
      exact ht
    exact (h'.point t ht₁).trans (h.point t ht)
  · intro t ht
    rcases h'.queued t ht with hqueue | hlast
    · exact (h.queued t hqueue).imp_right (List.mem_append_left woken')
    · exact Or.inr (List.mem_append_right woken hlast)
  · -- the first part leaves the current thread its status, which the log records
    have hstatus : k₁.status k₁.currentThread = k.status k.currentThread := by
      rw [h.current, h.status, if_neg hself]
    rw [h'.readied, h.readied, hstatus, h.current, List.append_assoc, List.map_append]

/-! ## The processor changes hands -/

/-- The thread that runs next. -/
def next (k : Kernel) : Nat := k.readyQueue.head?.getD idleThread

theorem next_ne (hready : t ∉ k.readyQueue) (hidle : t ≠ idleThread) : k.next ≠ t := by
  unfold next
  cases hqueue : k.readyQueue with
  | nil => exact Ne.symm hidle
  | cons u rest =>
    rw [hqueue, List.mem_cons, not_or] at hready
    exact Ne.symm hready.1

theorem runNextThread_spec (h : k.runNextThread = .ok k') :
    k'.currentThread = k.next ∧ (∀ t, k'.statusOf t = (k.rest t).status) ∧
      (∀ t, k'.status t = if t = k.next then .running else k.status t) ∧
      k'.joinedThread = k.joinedThread ∧ k'.point = k.point ∧ k'.readied = k.readied := by
  unfold runNextThread at h
  split at h
  · cases h
  rename_i henabled
  unfold resume at h
  have hnext : k.readyQueue.head?.getD idleThread = k.next := rfl
  simp only [restoreState, hnext] at h
  have hstatus : ∀ t, Function.update k.status k.next .running t =
      if t = k.next then .running else k.status t :=
    fun t => Function.update_apply k.status k.next .running t
  -- the next thread takes the status it had saved, so every thread has its own
  have hother : ∀ (b : Bool), (k.rest k.next).status = b → ∀ t,
      (if t = k.next then b else (k.rest t).status) = (k.rest t).status := by
    intro b hb t
    split
    · rename_i ht
      rw [ht, hb]
    · rfl
  cases hrest : k.rest k.next with
  | restore b =>
    -- the thread was in `yield`, `P` or `Condition2.sleep`
    rw [hrest] at h
    cases h
    exact ⟨rfl, hother b (by rw [hrest]; rfl), hstatus, rfl, rfl, rfl⟩
  | acquire l b =>
    -- `Lock.acquire` asserts that it holds the lock before it restores
    rw [hrest] at h
    dsimp only at h
    split at h
    · cases h
      exact ⟨rfl, hother b (by rw [hrest]; rfl), hstatus, rfl, rfl, rfl⟩
    · cases h
  | ret =>
    rw [hrest] at h
    cases h
    -- nothing is restored, and interrupts are disabled here
    refine ⟨rfl, hother k.enabled ?_, hstatus, rfl, rfl, rfl⟩
    rw [hrest]
    exact (Bool.eq_false_iff.mpr henabled).symm

/-- What a step does. The current thread goes on with the interrupt status `b`, now or when it
    runs again, and the threads `woken` are made ready. -/
structure Effect (k : Kernel) (b : Bool) (woken : List Nat) (k' : Kernel) : Prop where
  goesOn : ∀ t, k.status t ≠ .new →
    k'.statusOf t = if t = k.currentThread then b else k.statusOf t
  isNew : ∀ t, k'.status t = .new → k.status t = .new
  blocked : ∀ t, k'.status t = .blocked → t = k.currentThread ∨ k.status t = .blocked
  finished : ∀ t, k'.status t = .finished → k.status t = .finished
  lasts : ∀ t, k.status t = .finished → t ∉ k.readyQueue → t ≠ idleThread → t ∉ woken →
    k'.status t = .finished
  joined : k'.joinedThread = k.joinedThread
  point : ∀ t, t ≠ k.currentThread → k'.point t = k.point t
  readied : k'.readied = k.readied ++
    woken.map (⟨·, k.currentThread, k.status k.currentThread == .finished⟩)

variable {woken : List Nat}

/-- The current thread goes on. -/
theorem Within.stays (h : Within k woken k') : Effect k k'.enabled woken k' := by
  have hback : ∀ t s, s ≠ Scheduler.Status.ready → k'.status t = s → k.status t = s := by
    intro t s hs ht
    rw [h.status] at ht
    split at ht
    · exact absurd ht.symm hs
    · exact ht
  constructor
  · intro t ht
    unfold statusOf
    rw [h.current, h.rest t ht]
    by_cases hcur : t = k.currentThread
    · simp only [if_pos hcur]
    · simp only [if_neg hcur]
  · exact fun t => hback t .new (by decide)
  · exact fun t ht => Or.inr (hback t .blocked (by decide) ht)
  · exact fun t => hback t .finished (by decide)
  · intro t ht _ _ hwoken
    rw [h.status, if_neg hwoken]
    exact ht
  · exact h.joined
  · exact h.point
  · exact h.readied

/-- The current thread has left the processor, with `r` to be done when it runs again, and the
    threads `woken` are ready. -/
structure Leaves (k : Kernel) (r : Rest) (woken : List Nat) (k' : Kernel) : Prop where
  rest : ∀ t, k.status t ≠ .new → k'.rest t = if t = k.currentThread then r else k.rest t
  status : ∀ t, t ≠ k.currentThread → k'.status t = if t ∈ woken then .ready else k.status t
  notNew : k'.status k.currentThread ≠ .new
  finished : k'.status k.currentThread = .finished → k.status k.currentThread = .finished
  lasts : k.status k.currentThread = .finished → k.currentThread ∉ woken →
    k'.status k.currentThread = .finished
  joined : k'.joinedThread = k.joinedThread
  point : ∀ t, t ≠ k.currentThread → k'.point t = k.point t
  queued : ∀ t ∈ k'.readyQueue, t ∈ k.readyQueue ∨ t ∈ woken
  readied : k'.readied = k.readied ++
    woken.map (⟨·, k.currentThread, k.status k.currentThread == .finished⟩)

/-- The next thread runs after the current one has left. -/
theorem Leaves.next (h : Leaves k r woken k₁) (hrun : k₁.runNextThread = .ok k') :
    Effect k r.status woken k' := by
  obtain ⟨-, hstatusOf, hstatus, hjoined, hpoint, hreadied⟩ := runNextThread_spec hrun
  -- the statuses but ready and running are those from before, the current thread's apart
  have hback : ∀ t s, s ≠ Scheduler.Status.ready → s ≠ .running → t ≠ k.currentThread →
      k'.status t = s → k.status t = s := by
    intro t s hready hrunning ht hs
    rw [hstatus] at hs
    split at hs
    · exact absurd hs.symm hrunning
    · rw [h.status t ht] at hs
      split at hs
      · exact absurd hs.symm hready
      · exact hs
  have hself : ∀ s, s ≠ Scheduler.Status.running → k'.status k.currentThread = s →
      k₁.status k.currentThread = s := by
    intro s hrunning hs
    rw [hstatus] at hs
    split at hs
    · exact absurd hs.symm hrunning
    · exact hs
  constructor
  · intro t ht
    -- what a thread goes on with is in the rest of its call
    rw [hstatusOf, h.rest t ht]
    by_cases hcur : t = k.currentThread
    · rw [if_pos hcur, if_pos hcur]
    · rw [if_neg hcur, if_neg hcur, statusOf_other hcur]
  · intro t ht
    by_cases hcur : t = k.currentThread
    · rw [hcur] at ht
      exact absurd (hself .new (by decide) ht) h.notNew
    · exact hback t .new (by decide) (by decide) hcur ht
  · intro t ht
    by_cases hcur : t = k.currentThread
    · exact Or.inl hcur
    · exact Or.inr (hback t .blocked (by decide) (by decide) hcur ht)
  · intro t ht
    by_cases hcur : t = k.currentThread
    · rw [hcur] at ht ⊢
      exact h.finished (hself .finished (by decide) ht)
    · exact hback t .finished (by decide) (by decide) hcur ht
  · intro t ht hqueue hidle hlast
    -- the thread that runs next comes from the ready queue
    have hne : t ≠ k₁.next := by
      apply Ne.symm
      apply next_ne _ hidle
      intro hmem
      exact (h.queued t hmem).elim hqueue hlast
    rw [hstatus, if_neg hne]
    by_cases hcur : t = k.currentThread
    · subst hcur
      exact h.lasts ht hlast
    · rw [h.status t hcur, if_neg hlast]
      exact ht
  · rw [hjoined]
    exact h.joined
  · intro t ht
    rw [hpoint]
    exact h.point t ht
  · rw [hreadied, h.readied]

theorem Within.sleep (h : Within k woken k₁) (hself : k.currentThread ∉ woken)
    (hrun : k₁.sleep r = .ok k') : Effect k r.status woken k' := by
  unfold Kernel.sleep at hrun
  split at hrun
  · cases hrun
  have hcur : k₁.status k.currentThread = k.status k.currentThread := by
    rw [h.status, if_neg hself]
  -- only a thread that has not finished is blocked
  have hstatus : ∀ t, (if k₁.status k₁.currentThread = .finished then k₁.status
      else Function.update k₁.status k₁.currentThread .blocked) t =
      if t = k.currentThread then
        if k.status k.currentThread = .finished then .finished else .blocked
      else k₁.status t := by
    intro t
    rw [h.current, hcur]
    by_cases hfinished : k.status k.currentThread = .finished
    · rw [if_pos hfinished, if_pos hfinished]
      by_cases ht : t = k.currentThread
      · rw [if_pos ht, ht, hcur, hfinished]
      · rw [if_neg ht]
    · rw [if_neg hfinished, if_neg hfinished, Function.update_apply]
  refine Leaves.next ?_ hrun
  constructor
  · intro t ht
    dsimp only
    rw [h.current, Function.update_apply, h.rest t ht]
  · intro t ht
    dsimp only
    rw [hstatus, if_neg ht, h.status]
  · dsimp only
    rw [hstatus, if_pos rfl]
    split <;> decide
  · dsimp only
    rw [hstatus, if_pos rfl]
    intro hfinished
    split at hfinished
    · assumption
    · cases hfinished
  · dsimp only
    rw [hstatus, if_pos rfl]
    intro hfinished _
    rw [if_pos hfinished]
  · exact h.joined
  · exact h.point
  · exact h.queued
  · exact h.readied

theorem Within.yieldThen (h : Within k woken k₁) (hself : k.currentThread ∉ woken)
    (hrun : k₁.yieldThen r = .ok k') : Effect k r.status (woken ++ [k.currentThread]) k' := by
  unfold Kernel.yieldThen at hrun
  split at hrun
  · obtain ⟨k₂, hready, hnext⟩ := Except.bind_eq_ok.mp hrun
    obtain ⟨-, rfl⟩ := ready_spec hready
    rw [h.current] at hnext
    have hstatus : k₁.status k.currentThread = k.status k.currentThread := by
      rw [h.status, if_neg hself]
    refine Leaves.next ?_ hnext
    constructor
    · intro t ht
      dsimp only
      rw [Function.update_apply, h.rest t ht]
    · intro t ht
      dsimp only
      rw [Function.update_of_ne ht, h.status]
      simp only [List.mem_append, List.mem_singleton, ht, or_false]
    · dsimp only
      rw [Function.update_self]
      decide
    · dsimp only
      rw [Function.update_self]
      intro hfinished
      cases hfinished
    · -- the current thread has itself been made ready, so there is nothing to show
      intro _ hlast
      exact absurd (List.mem_append_right woken (List.mem_singleton.mpr rfl)) hlast
    · exact h.joined
    · exact h.point
    · intro t ht
      rcases mem_queue_ready ht with hqueue | hcur
      · exact (h.queued t hqueue).imp_right (List.mem_append_left _)
      · exact Or.inr (List.mem_append_right woken hcur)
    · dsimp only
      rw [h.readied, hstatus, List.append_assoc, List.map_append]
      rfl
  · cases hrun

/-! ## The functions -/

/-- A thread that the current thread can make ready, `finish` apart. -/
def Wakeable (k : Kernel) (u : Nat) : Prop :=
  u = k.currentThread ∨ k.status u = .new ∨
    ∃ p, (∀ t, p ≠ Place.joinedThread t) ∧ u ∈ k.occupants p

/-- What a step does that is not a `finish`. -/
def Ordinary (k : Kernel) (b : Bool) (k' : Kernel) : Prop :=
  ∃ woken, Effect k b woken k' ∧ ∀ u ∈ woken, k.Wakeable u

theorem Effect.ordinary {b : Bool} (h : Effect k b [] k') : Ordinary k b k' :=
  ⟨[], h, fun _ hu => absurd hu List.not_mem_nil⟩

theorem wakeable_of_mem {o : Waitable} (hu : u ∈ k.waitQueue o) : k.Wakeable u :=
  Or.inr (Or.inr ⟨.queue o, fun _ => by simp, hu⟩)

/-- A thread that waits is not the current one. -/
theorem Inv.current_notMem (h : Inv k) {p : Place} : k.currentThread ∉ k.occupants p := by
  intro hmem
  have hblocked := h.blocked hmem
  rw [h.running] at hblocked
  cases hblocked

theorem readyFirst_within {o : Waitable} (h : k.readyFirst o u = .ok k') :
    Within k [u] k' ∧ k'.enabled = k.enabled := by
  obtain ⟨k₁, hready, hk'⟩ := Except.bind_eq_ok.mp h
  obtain ⟨-, rfl⟩ := ready_spec hready
  cases hk'
  refine ⟨⟨rfl, fun _ _ => rfl, fun t => ?_, rfl, fun _ _ => rfl, fun _ => mem_queue_ready, rfl⟩, rfl⟩
  simp only [Function.update_apply, List.mem_singleton]

theorem readyFirst_ordinary {o : Waitable} (hu : (k.waitQueue o).head? = some u)
    (h : k.readyFirst o u = .ok k') : Ordinary k k.enabled k' := by
  obtain ⟨hw, henabled⟩ := readyFirst_within h
  rw [← henabled]
  refine ⟨[u], hw.stays, fun v hv => ?_⟩
  rw [List.mem_singleton.mp hv]
  exact wakeable_of_mem (List.mem_of_head? hu)

theorem waitFor_effect {o : Waitable} (hw : Within k woken k₁) (hself : k.currentThread ∉ woken)
    (h : k₁.waitFor o r = .ok k') : Effect k r.status woken k' := by
  have hqueue : Within k₁ [] { k₁ with
      enabled := false
      waitQueue := Function.update k₁.waitQueue o (k₁.waitQueue o ++ [k₁.currentThread]) } :=
    Within.same rfl rfl rfl rfl rfl rfl rfl
  have hall := hw.trans hqueue hself
  rw [List.append_nil] at hall
  exact hall.sleep hself h

theorem fork_ordinary (h : k.fork t = .ok k') : Ordinary k k.enabled k' := by
  unfold fork at h
  split at h
  · rename_i hnew
    obtain ⟨k₁, hready, hk'⟩ := Except.bind_eq_ok.mp h
    obtain ⟨-, rfl⟩ := ready_spec hready
    cases hk'
    have hw : Within k [t] { k with
        status := Function.update k.status t .ready
        rest := Function.update k.rest t (.restore true)
        readyQueue := if t = idleThread then k.readyQueue else k.readyQueue ++ [t]
        readied := k.readied ++
          [⟨t, k.currentThread, k.status k.currentThread == .finished⟩] } := by
      refine ⟨rfl, fun u hu => ?_, fun u => ?_, rfl, fun _ _ => rfl, fun _ => mem_queue_ready, rfl⟩
      · have hne : u ≠ t := fun heq => hu (heq ▸ hnew)
        exact Function.update_of_ne hne ..
      · simp only [Function.update_apply, List.mem_singleton]
    refine ⟨[t], hw.stays, fun u hu => ?_⟩
    rw [List.mem_singleton.mp hu]
    exact Or.inr (Or.inl hnew)
  · cases h

theorem yieldThen_ordinary {k₀ : Kernel} (hw : Within k woken k₀) (hself : k.currentThread ∉ woken)
    (hwoken : ∀ u ∈ woken, k.Wakeable u) (h : k₀.yieldThen r = .ok k') :
    Ordinary k r.status k' := by
  refine ⟨_, hw.yieldThen hself h, fun u hu => ?_⟩
  rcases List.mem_append.mp hu with hu | hu
  · exact hwoken u hu
  · exact Or.inl (List.mem_singleton.mp hu)

theorem yield_ordinary (h : k.yield = .ok k') : Ordinary k k.enabled k' := by
  have hw : Within k [] { k with enabled := false } := Within.same rfl rfl rfl rfl rfl rfl rfl
  exact yieldThen_ordinary hw List.not_mem_nil (fun u hu => absurd hu List.not_mem_nil) h

/-- The current thread has been stored in the field `joinedThread` of a thread. -/
def registered (k : Kernel) (t : Nat) : Kernel :=
  { k with joinedThread := Function.update k.joinedThread t (some k.currentThread) }

theorem sleep_point (h : k.sleep r = .ok k') : k'.point = k.point := by
  unfold sleep at h
  split at h
  · cases h
  · obtain ⟨-, -, -, -, hpoint, -⟩ := runNextThread_spec h
    exact hpoint

/-- What `join` does: it returns at once, or the current thread is registered and sleeps. -/
inductive Joins (k : Kernel) (t : Nat) (k' : Kernel) : Prop
  | atOnce (h : k.status t = .finished ∨ k.joinedThread t ≠ none)
      (after : k' = { k with enabled := false })
  | sleeps (alive : k.status t ≠ .finished) (free : k.joinedThread t = none)
      (point : k'.point = k.point) (effect : Effect (k.registered t) false [] k')

theorem join_joins (h : k.join t = .ok k') : Joins k t k' := by
  unfold join at h
  split at h
  · cases h
  split at h
  · rename_i hfinished
    cases h
    exact Joins.atOnce (Or.inl hfinished) rfl
  · rename_i hfinished
    cases hjoined : k.joinedThread t with
    | none =>
      rw [hjoined] at h
      have hw : Within (k.registered t) [] { k.registered t with enabled := false } :=
        Within.same rfl rfl rfl rfl rfl rfl rfl
      have hsleep : sleep { k.registered t with enabled := false } .ret = .ok k' := h
      have hpoint := sleep_point hsleep
      exact Joins.sleeps hfinished hjoined hpoint (hw.sleep List.not_mem_nil hsleep)
    | some j =>
      rw [hjoined] at h
      cases h
      exact Joins.atOnce (Or.inr (by rw [hjoined]; simp)) rfl

theorem waitUntil_ordinary {now x : BitVec 64} (h : k.waitUntil now x = .ok k') :
    Ordinary k false k' := by
  unfold waitUntil at h
  have hw : Within k [] { k with
      enabled := false
      alarmQueue := PriorityQueue.offer AlarmBucket.compareTo k.alarmQueue
        ⟨now + x, k.currentThread⟩ } := Within.same rfl rfl rfl rfl rfl rfl rfl
  exact (hw.sleep List.not_mem_nil h).ordinary

theorem semaphoreP_ordinary {s : Nat} (h : k.semaphoreP s = .ok k') : Ordinary k k.enabled k' := by
  unfold semaphoreP at h
  split at h
  · exact (waitFor_effect (Within.refl k) List.not_mem_nil h).ordinary
  · cases h
    have hw : Within k [] { k with value := Function.update k.value s (k.value s - 1) } :=
      Within.same rfl rfl rfl rfl rfl rfl rfl
    exact hw.stays.ordinary

theorem semaphoreV_ordinary {s : Nat} (h : k.semaphoreV s = .ok k') : Ordinary k k.enabled k' := by
  unfold semaphoreV at h
  split at h
  · rename_i thread hhead
    exact readyFirst_ordinary hhead h
  · cases h
    have hw : Within k [] { k with value := Function.update k.value s (k.value s + 1) } :=
      Within.same rfl rfl rfl rfl rfl rfl rfl
    exact hw.stays.ordinary

theorem acquire_ordinary {l : Nat} (h : k.acquire l = .ok k') : Ordinary k k.enabled k' := by
  unfold acquire at h
  dsimp only at h
  split at h
  · split at h
    · cases h
    · have hw : Within k [] { k with point := Function.update k.point k.currentThread .client } :=
        (Within.refl k).moves .client
      exact (waitFor_effect hw List.not_mem_nil h).ordinary
  · split at h
    · cases h
      have hk : Within k [] { k with
          lockHolder := Function.update k.lockHolder l (some k.currentThread) } :=
        Within.same rfl rfl rfl rfl rfl rfl rfl
      have hw : Within k [] { k with
          point := Function.update k.point k.currentThread .client
          lockHolder := Function.update k.lockHolder l (some k.currentThread) } :=
        hk.moves .client
      exact hw.stays.ordinary
    · cases h

theorem release_within {l : Nat} (h : k.release l = .ok k') :
    ∃ woken, Within k woken k' ∧ k'.enabled = k.enabled ∧ ∀ u ∈ woken, u ∈ k.waitQueue (.lock l) := by
  unfold release at h
  split at h
  · split at h
    · rename_i thread hhead
      obtain ⟨hw, henabled⟩ := readyFirst_within h
      refine ⟨[thread], ⟨hw.current, hw.rest, hw.status, hw.joined, hw.point, hw.queued,
        hw.readied⟩, henabled,
        fun u hu => ?_⟩
      rw [List.mem_singleton.mp hu]
      exact List.mem_of_head? hhead
    · cases h
      exact ⟨[], Within.same rfl rfl rfl rfl rfl rfl rfl, rfl, fun _ hu =>
        absurd hu List.not_mem_nil⟩
  · cases h

theorem release_ordinary {l : Nat} (h : k.release l = .ok k') : Ordinary k k.enabled k' := by
  obtain ⟨woken, hw, henabled, hwoken⟩ := release_within h
  rw [← henabled]
  exact ⟨woken, hw.stays, fun u hu => wakeable_of_mem (hwoken u hu)⟩

theorem conditionSleep_ordinary {c : Nat} (hinv : Inv k) (h : k.conditionSleep c = .ok k') :
    Ordinary k k.enabled k' := by
  unfold conditionSleep at h
  split at h
  · obtain ⟨k₁, hrelease, hwait⟩ := Except.bind_eq_ok.mp h
    obtain ⟨woken, hw, -, hwoken⟩ := release_within hrelease
    have hself : k.currentThread ∉ woken := by
      intro hmem
      exact hinv.current_notMem (p := .queue (.lock (k.conditionLock c))) (hwoken _ hmem)
    have hw' : Within k woken { k₁ with
        point := Function.update k₁.point k₁.currentThread (.reacquire (k.conditionLock c)) } := by
      have hcur : k₁.currentThread = k.currentThread := hw.current
      have hmoves := hw.moves (.reacquire (k.conditionLock c))
      refine ⟨hw.current, hw.rest, hw.status, hw.joined, fun t ht => ?_, hw.queued, hw.readied⟩
      rw [hcur]
      exact hmoves.point t ht
    exact ⟨woken, waitFor_effect hw' hself hwait, fun u hu => wakeable_of_mem (hwoken u hu)⟩
  · cases h

theorem wake_ordinary {c : Nat} (h : k.wake c = .ok k') : Ordinary k k.enabled k' := by
  unfold wake at h
  split at h
  · split at h
    · rename_i thread hhead
      exact readyFirst_ordinary hhead h
    · cases h
      exact (Within.refl k).stays.ordinary
  · cases h

/-- The same step, from the point where the current thread was before. -/
theorem Ordinary.moved {b : Bool} {p : Point}
    (h : Ordinary { k with point := Function.update k.point k.currentThread p } b k') :
    Ordinary k b k' := by
  obtain ⟨woken, heffect, hwoken⟩ := h
  have hpoint : ∀ t, t ≠ k.currentThread → k'.point t = k.point t := by
    intro t ht
    exact (heffect.point t ht).trans (Function.update_of_ne ht ..)
  refine ⟨woken, ⟨heffect.goesOn, heffect.isNew, heffect.blocked, heffect.finished,
    heffect.lasts, heffect.joined, hpoint, heffect.readied⟩, fun u hu => ?_⟩
  rcases hwoken u hu with hcur | hnew | ⟨p, hp, hmem⟩
  · exact Or.inl hcur
  · exact Or.inr (Or.inl hnew)
  · refine Or.inr (Or.inr ⟨p, hp, ?_⟩)
    cases p <;> exact hmem

theorem wakeAllLoop_ordinary {c : Nat} (h : k.wakeAllLoop c = .ok k') :
    Ordinary k k.enabled k' := by
  unfold wakeAllLoop at h
  split at h
  · cases h
    have hw : Within k [] { k with point := Function.update k.point k.currentThread .client } :=
      (Within.refl k).moves .client
    exact hw.stays.ordinary
  · exact (wake_ordinary h).moved

theorem wakeAll_ordinary {c : Nat} (h : k.wakeAll c = .ok k') : Ordinary k k.enabled k' := by
  unfold wakeAll at h
  split at h
  · exact wakeAllLoop_ordinary h
  · cases h

theorem foldlM_ready_within {buckets : List AlarmBucket}
    (hself : k.currentThread ∉ buckets.map AlarmBucket.kthread)
    (h : buckets.foldlM (fun k b => k.ready b.kthread) k = .ok k') :
    Within k (buckets.map AlarmBucket.kthread) k' := by
  induction buckets generalizing k with
  | nil =>
    cases h
    exact Within.same rfl rfl rfl rfl rfl rfl rfl
  | cons b buckets ih =>
    rw [List.foldlM_cons] at h
    obtain ⟨k₁, hready, hrest⟩ := Except.bind_eq_ok.mp h
    rw [List.map_cons, List.mem_cons, not_or] at hself
    have hw := Within.ready hready
    have hself₁ : k₁.currentThread ∉ buckets.map AlarmBucket.kthread := by
      rw [hw.current]
      exact hself.2
    have hall := hw.trans (ih hself₁ hrest) (by rw [List.mem_singleton]; exact hself.1)
    exact hall

theorem wakeDue_within {now : BitVec 64} {count : Nat}
    (hself : k.currentThread ∉ k.alarmQueue.map AlarmBucket.kthread)
    (h : k.wakeDue now count = .ok k') :
    ∃ woken, Within k woken k' ∧ ∀ u ∈ woken, u ∈ k.alarmQueue.map AlarmBucket.kthread := by
  rw [wakeDue_eq] at h
  have hmem : ∀ u ∈ (Alarm.wakeDue now count ⟨k.alarmQueue, []⟩).readied.map AlarmBucket.kthread,
      u ∈ k.alarmQueue.map AlarmBucket.kthread := by
    intro u hu
    obtain ⟨b, hb, rfl⟩ := List.mem_map.mp hu
    rcases Alarm.mem_of_mem_readied hb with hold | hqueue
    · exact absurd hold List.not_mem_nil
    · exact List.mem_map_of_mem hqueue
  have hw := foldlM_ready_within
    (k := { k with alarmQueue := (Alarm.wakeDue now count ⟨k.alarmQueue, []⟩).waitQueue })
    (fun hcur => hself (hmem _ hcur)) h
  exact ⟨_, ⟨hw.current, hw.rest, hw.status, hw.joined, hw.point, hw.queued, hw.readied⟩, hmem⟩

theorem timerInterrupt_ordinary {now : BitVec 64} (hinv : Inv k)
    (h : k.timerInterrupt now = .ok k') : Ordinary k true k' := by
  obtain ⟨k₁, hwake, hyield⟩ := Except.bind_eq_ok.mp h
  have hself : k.currentThread ∉ k.alarmQueue.map AlarmBucket.kthread :=
    hinv.current_notMem (p := .alarm)
  obtain ⟨woken, hw, hmem⟩ := wakeDue_within (k := { k with enabled := false }) hself hwake
  have hw' : Within k woken k₁ :=
    ⟨hw.current, hw.rest, hw.status, hw.joined, hw.point, hw.queued, hw.readied⟩
  refine yieldThen_ordinary hw' (fun hcur => hself (hmem _ hcur)) (fun u hu => ?_) hyield
  exact Or.inr (Or.inr ⟨.alarm, fun _ => by simp, hmem u hu⟩)

/-- The current thread has finished, and nobody has been woken yet. -/
def ended (k : Kernel) : Kernel :=
  { k with
    enabled := false
    toBeDestroyed := some k.currentThread
    status := Function.update k.status k.currentThread .finished }

/-- What `finish` does. -/
structure Finished (k k' : Kernel) : Prop where
  effect : Effect k.ended false (k.joinedThread k.currentThread).toList k'
  ended : k'.status k.currentThread = .finished
  awake : ∀ j, k.joinedThread k.currentThread = some j → k'.status j ≠ .blocked

theorem sleep_finished_spec (hfinished : k.status k.currentThread = .finished)
    (h : k.sleep r = .ok k') : ∀ t, k'.status t = if t = k.next then .running else k.status t := by
  unfold sleep at h
  rw [if_pos hfinished] at h
  split at h
  · cases h
  · obtain ⟨-, -, hstatus, -⟩ := runNextThread_spec h
    exact hstatus

/-- `finish` from the state in which the thread has finished and nobody has been woken. -/
theorem finished_sleep {k₀ : Kernel} (hw : Within k₀ woken k₁) (hself : k₀.currentThread ∉ woken)
    (hfinished : k₀.status k₀.currentThread = .finished) (hready : k₀.currentThread ∉ k₁.readyQueue)
    (hidle : k₀.currentThread ≠ idleThread) (h : k₁.sleep .ret = .ok k') :
    Effect k₀ false woken k' ∧ k'.status k₀.currentThread = .finished ∧
      ∀ u ∈ woken, k'.status u ≠ .blocked := by
  have hfinished₁ : k₁.status k₁.currentThread = .finished := by
    rw [hw.current, hw.status, if_neg hself]
    exact hfinished
  have hstatus := sleep_finished_spec hfinished₁ h
  refine ⟨hw.sleep hself h, ?_, fun u hu => ?_⟩
  · rw [hstatus, if_neg (Ne.symm (next_ne hready hidle)), ← hw.current]
    exact hfinished₁
  · rw [hstatus, hw.status, if_pos hu]
    split <;> decide

theorem finish_finished (hinv : Inv k) (hidle : k.currentThread ≠ idleThread)
    (h : k.finish = .ok k') : Finished k k' := by
  -- the current thread runs, so it is not in the ready queue
  have hnotReady : k.currentThread ∉ k.readyQueue := by
    intro hmem
    have hready : k.status k.currentThread = .ready := ((hinv.ok.ready _).mp hmem).1
    rw [hinv.running] at hready
    cases hready
  unfold finish at h
  rw [if_pos hinv.destroyed] at h
  dsimp only at h
  have hjoined := hinv.current_notMem (p := .joinedThread k.currentThread)
  cases hj : k.joinedThread k.currentThread with
  | none =>
    rw [hj] at h
    -- nobody has joined: `finish` is the sleep alone
    have hsleep : k.ended.sleep .ret = .ok k' := h
    have hw : Within k.ended [] k.ended := Within.same rfl rfl rfl rfl rfl rfl rfl
    obtain ⟨heffect, hended, -⟩ :=
      finished_sleep hw List.not_mem_nil (Function.update_self ..) hnotReady hidle hsleep
    refine ⟨?_, hended, fun j hj' => ?_⟩
    · rw [hj]
      exact heffect
    · rw [hj] at hj'
      cases hj'
  | some j =>
    rw [hj] at h
    obtain ⟨k₁, hwake, hsleep⟩ := Except.bind_eq_ok.mp h
    -- the joiner is blocked, and the current thread is not
    have hne : k.currentThread ≠ j := by
      intro heq
      simp only [occupants, hinv.running, hj] at hjoined
      exact hjoined (heq ▸ List.mem_cons_self)
    have hw : Within k.ended [j] k₁ := Within.ready hwake
    obtain ⟨-, rfl⟩ := ready_spec hwake
    have hqueue : k.currentThread ∉
        if j = idleThread then k.readyQueue else k.readyQueue ++ [j] := by
      split
      · exact hnotReady
      · simp [hnotReady, hne]
    obtain ⟨heffect, hended, hawake⟩ := finished_sleep hw
      (fun hmem => hne (List.mem_singleton.mp hmem)) (Function.update_self ..) hqueue hidle hsleep
    refine ⟨?_, hended, fun j' hj' => ?_⟩
    · rw [hj]
      exact heffect
    · rw [hj] at hj'
      cases hj'
      exact hawake j List.mem_cons_self

/-! ## One step -/

/-- The interrupt status with which a call returns, for one that does. -/
def Call.statusAfter (k : Kernel) : Call → Bool
  | .join _ | .waitUntil _ _ | .sleep | .finish => false
  | .setStatus status => status
  | _ => k.enabled

/-- The interrupt status with which the current thread goes on after a step. -/
def statusAfter (k : Kernel) : Action → Bool
  | .timerInterrupt _ => k.enabled
  | .go call =>
    if k.currentThread = idleThread then k.enabled
    else
      match k.point k.currentThread with
      | .client => call.statusAfter k
      | .reacquire _ | .wakeAll _ => k.enabled

/-- The current thread makes a call of its program. -/
def Calls (k : Kernel) (call : Call) (action : Action) : Prop :=
  action = .go call ∧ k.currentThread ≠ idleThread ∧ k.point k.currentThread = .client

theorem call_ordinary (hinv : Inv k) {call : Call} (hfinish : call ≠ .finish)
    (hjoin : ∀ t, call ≠ .join t) (h : k.call call = .ok k') :
    Ordinary k (call.statusAfter k) k' := by
  cases call with
  | fork t => exact fork_ordinary h
  | yield => exact yield_ordinary h
  | sleep =>
    have hw : Within k [] { k with sleepers := k.sleepers ++ [k.currentThread] } :=
      Within.same rfl rfl rfl rfl rfl rfl rfl
    exact (hw.sleep List.not_mem_nil h).ordinary
  | finish => exact absurd rfl hfinish
  | join t => exact absurd rfl (hjoin t)
  | waitUntil now x => exact waitUntil_ordinary h
  | semaphoreP s => exact semaphoreP_ordinary h
  | semaphoreV s => exact semaphoreV_ordinary h
  | acquire l => exact acquire_ordinary h
  | release l => exact release_ordinary h
  | conditionSleep c => exact conditionSleep_ordinary hinv h
  | wake c => exact wake_ordinary h
  | wakeAll c => exact wakeAll_ordinary h
  | setStatus status =>
    cases h
    have hw : Within k [] { k with enabled := status } := Within.same rfl rfl rfl rfl rfl rfl rfl
    exact hw.stays.ordinary

/-- What a step does: a `finish`, a `join`, or something ordinary. -/
inductive StepEffect (k : Kernel) (action : Action) (k' : Kernel) : Prop
  | finish (h : k.Calls .finish action) (effect : Finished k k')
  | join (t : Nat) (h : k.Calls (.join t) action) (effect : Joins k t k')
  | ordinary (h : ∀ t, ¬ k.Calls (.join t) action)
      (effect : Ordinary k (k.statusAfter action) k')

theorem step_effect (hinv : Inv k) {action : Action} (h : k.step action = .ok k') :
    StepEffect k action k' := by
  cases action with
  | timerInterrupt now =>
    have hgo : ∀ t, ¬ k.Calls (.join t) (.timerInterrupt now) := by
      intro t hc
      cases hc.1
    simp only [step] at h
    split at h
    · rename_i henabled
      refine StepEffect.ordinary hgo ?_
      rw [statusAfter, henabled]
      exact timerInterrupt_ordinary hinv h
    · cases h
      -- interrupts are disabled, and the interrupt is not taken
      exact StepEffect.ordinary hgo (Within.refl k).stays.ordinary
  | go call =>
    simp only [step] at h
    by_cases hidle : k.currentThread = idleThread
    · rw [if_pos hidle] at h
      refine StepEffect.ordinary (fun t hc => hc.2.1 hidle) ?_
      rw [statusAfter, if_pos hidle]
      exact yield_ordinary h
    · rw [if_neg hidle] at h
      cases hpoint : k.point k.currentThread with
      | reacquire l =>
        rw [hpoint] at h
        refine StepEffect.ordinary (fun t hc => ?_) ?_
        · have hclient := hc.2.2
          rw [hpoint] at hclient
          cases hclient
        · rw [statusAfter, if_neg hidle, hpoint]
          exact acquire_ordinary h
      | wakeAll c =>
        rw [hpoint] at h
        refine StepEffect.ordinary (fun t hc => ?_) ?_
        · have hclient := hc.2.2
          rw [hpoint] at hclient
          cases hclient
        · rw [statusAfter, if_neg hidle, hpoint]
          exact wakeAllLoop_ordinary h
      | client =>
        rw [hpoint] at h
        by_cases hfinish : call = .finish
        · subst hfinish
          exact StepEffect.finish ⟨rfl, hidle, hpoint⟩ (finish_finished hinv hidle h)
        by_cases hjoin : ∃ t, call = .join t
        · obtain ⟨t, rfl⟩ := hjoin
          exact StepEffect.join t ⟨rfl, hidle, hpoint⟩ (join_joins h)
        · have hjoin' : ∀ t, call ≠ .join t := fun t heq => hjoin ⟨t, heq⟩
          refine StepEffect.ordinary (fun t hc => hjoin' t (Action.go.inj hc.1)) ?_
          rw [statusAfter, if_neg hidle, hpoint]
          exact call_ordinary hinv hfinish hjoin' h

theorem statusAfter_of_calls {call : Call} {action : Action} (h : k.Calls call action) :
    k.statusAfter action = call.statusAfter k := by
  obtain ⟨rfl, hidle, hpoint⟩ := h
  rw [statusAfter, if_neg hidle, hpoint]

/-- The status of the threads when the current one has finished. -/
theorem ended_status (k : Kernel) (t : Nat) :
    k.ended.status t = if t = k.currentThread then .finished else k.status t :=
  Function.update_apply ..

/-- A step leaves the other threads the interrupt status that they have saved. -/
theorem step_statusOf (hinv : Inv k) {action : Action} (h : k.step action = .ok k')
    (ht : k.status t ≠ .new) :
    k'.statusOf t = if t = k.currentThread then k.statusAfter action else k.statusOf t := by
  have hcurrent : k.ended.currentThread = k.currentThread := rfl
  cases step_effect hinv h with
  | finish hc hf =>
    -- the effect starts where the current thread has its last status
    have hnew : k.ended.status t ≠ .new := by
      rw [ended_status]
      split
      · decide
      · exact ht
    rw [hf.effect.goesOn t hnew, statusAfter_of_calls hc, hcurrent]
    by_cases hcur : t = k.currentThread
    · rw [if_pos hcur, if_pos hcur]
      rfl
    · rw [if_neg hcur, if_neg hcur, statusOf_other hcur]
      exact statusOf_other hcur
  | join u hc hj =>
    rw [statusAfter_of_calls hc]
    cases hj with
    | atOnce _ after =>
      -- the call is over, and interrupts stay disabled
      have hw : Within k [] k' := by
        rw [after]
        exact Within.same rfl rfl rfl rfl rfl rfl rfl
      rw [hw.stays.goesOn t ht, after]
      rfl
    | sleeps _ _ _ effect => exact effect.goesOn t ht
  | ordinary _ effect =>
    obtain ⟨woken, heffect, -⟩ := effect
    exact heffect.goesOn t ht

theorem step_isNew (hinv : Inv k) {action : Action} (h : k.step action = .ok k')
    (ht : k'.status t = .new) : k.status t = .new := by
  cases step_effect hinv h with
  | finish hc hf =>
    have hnew := hf.effect.isNew t ht
    rw [ended_status] at hnew
    split at hnew
    · cases hnew
    · exact hnew
  | join u hc hj =>
    cases hj with
    | atOnce _ after =>
      rw [after] at ht
      exact ht
    | sleeps _ _ _ effect => exact effect.isNew t ht
  | ordinary _ effect =>
    obtain ⟨woken, heffect, -⟩ := effect
    exact heffect.isNew t ht

/-- After a step, too, the threads are divided as they should be. -/
theorem Inv.step (hinv : Inv k) {action : Action} (h : k.step action = .ok k') : Inv k' := by
  have hsafe := step_safe hinv action
  rw [h] at hsafe
  exact hsafe

end Kernel

end KThread

end Nachos
