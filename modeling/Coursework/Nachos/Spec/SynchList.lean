import Coursework.Nachos.SynchList
import Coursework.Nachos.Spec.ThreadsMesa

/-!
# A synchronized list is a queue

Under any interleaving the objects leave a `SynchList` in the order in which they came in,
each to one thread, `removeFirst` never finds the list empty behind its loop, and no thread
sleeps on while there is an object for it: as long as threads are asleep, there is for every
object in the list a thread that is awake and will take it, or will wake one.
-/

namespace Nachos

namespace SynchList

open Mesa (Phase Step Steps Queued)

variable {T α : Type}

/-- The list as a monitor. -/
abbrev Monitor (T α : Type) := Mesa.State T Unit Unit (Point α) (Fields T α)

/-! ## Statements -/

/-- The statements that acquire the lock. -/
inductive Acquires : Point α → Point α → Prop where
  | add {o : α} : Acquires (.add o .acquire) (.add o .append)
  | removeFirst : Acquires (.removeFirst .acquire) (.removeFirst .whileEmpty)

/-- The statements that release the lock. -/
inductive Releases : Point α → Point α → Prop where
  | add {o : α} : Releases (.add o .release) .outside
  | removeFirst : Releases (.removeFirst .release) .outside

section Instr

variable {t : T} {pc next : Point α} {f : Fields T α} {call : Call α} {u : Unit}

theorem acquires_of_instr (h : (program T α).instr t pc f call = .acquire u next) :
    Acquires pc next := by
  rcases pc with _ | ⟨o, line⟩ | line
  · rcases call with (_ | o) | _ <;> cases h
  · cases line <;> cases h
    constructor
  · cases line <;> simp only [program, removeFirst] at h
    case remove => cases hlist : f.list <;> simp [hlist] at h
    all_goals
      cases h
      try constructor

theorem releases_of_instr (h : (program T α).instr t pc f call = .release u next) :
    Releases pc next := by
  rcases pc with _ | ⟨o, line⟩ | line
  · rcases call with (_ | o) | _ <;> cases h
  · cases line <;> cases h
    constructor
  · cases line <;> simp only [program, removeFirst] at h
    case remove => cases hlist : f.list <;> simp [hlist] at h
    all_goals
      cases h
      try constructor

/-- The one statement that sleeps. -/
theorem sleeps_of_instr (h : (program T α).instr t pc f call = .sleep u next) :
    pc = .removeFirst .sleep ∧ next = .removeFirst .whileEmpty := by
  rcases pc with _ | ⟨o, line⟩ | line
  · rcases call with (_ | o) | _ <;> cases h
  · cases line <;> cases h
  · cases line <;> simp only [program, removeFirst] at h
    case remove => cases hlist : f.list <;> simp [hlist] at h
    all_goals
      cases h
      try exact ⟨rfl, rfl⟩

/-- The one statement that wakes. -/
theorem wakes_of_instr (h : (program T α).instr t pc f call = .wake u next) :
    ∃ o, pc = .add o .wake ∧ next = .add o .release := by
  rcases pc with _ | ⟨o, line⟩ | line
  · rcases call with (_ | o) | _ <;> cases h
  · cases line <;> cases h
    exact ⟨o, rfl, rfl⟩
  · cases line <;> simp only [program, removeFirst] at h
    case remove => cases hlist : f.list <;> simp [hlist] at h
    all_goals cases h

end Instr

/-! ## The invariant -/

/-- Is the lock needed to execute the statement at this point? -/
def Point.inside : Point α → Bool
  | .outside => false
  | .add _ line => line != .acquire
  | .removeFirst line => line != .acquire

/-- Does the thread go on to wake another, or to remove an object? A thread in `removeFirst` has
    not removed its object yet. -/
def Point.takes : Point α → Bool
  | .add _ .wake => true
  | .removeFirst .acquire => true
  | .removeFirst .whileEmpty => true
  | .removeFirst .remove => true
  | _ => false

/-- Does the thread execute statements inside the lock? -/
def hasLock : Phase Unit Unit (Point α) → Bool
  | .run pc => pc.inside
  | _ => false

/-- Is the thread awake and on its way to an object, or to wake another thread? -/
def takes : Phase Unit Unit (Point α) → Bool
  | .asleep _ _ => false
  | phase => phase.next.takes

/-- Where a thread can be in the monitor. -/
def PhaseOk (f : Fields T α) : Phase Unit Unit (Point α) → Prop
  | .run (.removeFirst .sleep) => f.list = []
  | .run (.removeFirst .remove) => f.list ≠ []
  | .run _ => True
  | .entering _ pc => pc = .removeFirst .whileEmpty ∨ ∃ o, pc = .add o .append
  | .asleep _ pc => pc = .removeFirst .whileEmpty
  | .woken _ pc => pc = .removeFirst .whileEmpty

/-- There are threads on their way for `n` objects. -/
def Covered (thread : T → Phase Unit Unit (Point α)) (n : Nat) : Prop :=
  ∃ l : List T, l.Nodup ∧ n ≤ l.length ∧ ∀ t ∈ l, takes (thread t) = true

/-- The invariant of every interleaving. -/
structure Inv (st : Monitor T α) : Prop where
  queued : Queued st
  lock : ∀ t, st.holder () = some t ↔ hasLock (st.thread t) = true
  ok : ∀ t, PhaseOk st.shared (st.thread t)
  fifo : st.shared.added = st.shared.removed.map Prod.snd ++ st.shared.list
  covered : st.queue () ≠ [] → Covered st.thread st.shared.list.length

/-! ## One thread changes -/

section

variable [DecidableEq T] {thread : T → Phase Unit Unit (Point α)} {t : T} {n : Nat}
  {phase : Phase Unit Unit (Point α)}

omit [DecidableEq T] in
theorem Covered.mono {m : Nat} (h : Covered thread n) (hm : m ≤ n) : Covered thread m := by
  obtain ⟨l, hnodup, hn, htakes⟩ := h
  exact ⟨l, hnodup, Nat.le_trans hm hn, htakes⟩

theorem Covered.update (h : Covered thread n) (ht : takes (thread t) = true → takes phase = true) :
    Covered (Function.update thread t phase) n := by
  obtain ⟨l, hnodup, hn, htakes⟩ := h
  refine ⟨l, hnodup, hn, fun u hu => ?_⟩
  by_cases hut : u = t
  · subst hut
    simpa using ht (htakes u hu)
  · simpa [hut] using htakes u hu

/-- One thread fewer is on its way. -/
theorem Covered.drop (h : Covered thread (n + 1)) : Covered (Function.update thread t phase) n := by
  obtain ⟨l, hnodup, hn, htakes⟩ := h
  refine ⟨l.erase t, hnodup.erase t, ?_, fun u hu => ?_⟩
  · have := List.length_erase (a := t) (l := l)
    split at this <;> omega
  · have hut : u ≠ t := ((hnodup.mem_erase_iff).mp hu).1
    simpa [hut] using htakes u (List.mem_of_mem_erase hu)

/-- One thread more is on its way. -/
theorem Covered.gain (h : Covered thread n) (hold : takes (thread t) = false)
    (hnew : takes phase = true) : Covered (Function.update thread t phase) (n + 1) := by
  obtain ⟨l, hnodup, hn, htakes⟩ := h
  have hnot : t ∉ l := fun ht => by simp [htakes t ht] at hold
  refine ⟨t :: l, List.nodup_cons.mpr ⟨hnot, hnodup⟩, Nat.succ_le_succ hn, fun u hu => ?_⟩
  by_cases hut : u = t
  · subst hut
    simpa using hnew
  · simpa [hut] using htakes u ((List.mem_cons.mp hu).resolve_left hut)

end

/-- What holds of a thread outside the lock does not depend on the list. -/
theorem PhaseOk.of_not_hasLock {f f' : Fields T α} {phase : Phase Unit Unit (Point α)}
    (h : PhaseOk f phase) (hno : hasLock phase = false) : PhaseOk f' phase := by
  cases phase with
  | run pc =>
    cases pc with
    | outside => trivial
    | add o line => trivial
    | removeFirst line => cases line <;> trivial
  | entering _ _ | asleep _ _ | woken _ _ => exact h

/-! ## Steps -/

section

variable [DecidableEq T] {st st' : Monitor T α} {t : T}

namespace Inv

/-- The lock, when a thread neither gets it nor gives it up. -/
theorem lock_update (h : Inv st) {phase : Phase Unit Unit (Point α)}
    (hsame : hasLock phase = hasLock (st.thread t)) (u : T) :
    st.holder () = some u ↔ hasLock (Function.update st.thread t phase u) = true := by
  by_cases hu : u = t
  · subst hu
    simp [hsame, h.lock]
  · simp [hu, h.lock]

/-- What holds of each thread, when one changes and has the lock if the list changes. -/
theorem ok_update (h : Inv st) {phase : Phase Unit Unit (Point α)} {f : Fields T α}
    (hnew : PhaseOk f phase) (hf : f = st.shared ∨ hasLock (st.thread t) = true) (u : T) :
    PhaseOk f (Function.update st.thread t phase u) := by
  by_cases hu : u = t
  · subst hu
    simpa using hnew
  · rw [Function.update_of_ne hu]
    rcases hf with rfl | hlock
    · exact h.ok u
    · -- only `t` has the lock
      apply (h.ok u).of_not_hasLock
      by_contra hne
      have hholder := (h.lock t).mpr hlock
      rw [(h.lock u).mpr (by simpa using hne)] at hholder
      exact hu (Option.some.inj hholder)

/-- The lock, when a thread gives it up. -/
theorem lock_free (h : Inv st) (hheld : st.holder () = some t) {phase : Phase Unit Unit (Point α)}
    (hphase : hasLock phase = false) (u : T) :
    Function.update st.holder () none () = some u ↔
      hasLock (Function.update st.thread t phase u) = true := by
  by_cases hu : u = t
  · subst hu
    simp [hphase]
  · have hno : hasLock (st.thread u) = false := by
      by_contra hne
      have hholder := (h.lock u).mpr (by simpa using hne)
      rw [hheld, Option.some.injEq] at hholder
      exact hu hholder.symm
    simp [hu, hno]

/-- A statement that neither waits nor wakes. -/
theorem act (h : Inv st) {pc next : Point α} {call : Call α} {f : Fields T α}
    (hpc : st.thread t = .run pc)
    (hinstr : (program T α).instr t pc st.shared call = .act f next)
    (hqueued : Queued { st with shared := f, thread := Function.update st.thread t (.run next) }) :
    Inv { st with shared := f, thread := Function.update st.thread t (.run next) } := by
  have hok := h.ok t
  rw [hpc] at hok
  cases pc with
  | outside =>
    cases call with
    | add o =>
      cases o with
      | none => exact nomatch hinstr
      | some o =>
        cases hinstr
        refine ⟨hqueued, h.lock_update (by rw [hpc]; rfl), h.ok_update trivial (Or.inl rfl),
          h.fifo, fun hq => (h.covered hq).update ?_⟩
        simp [hpc, takes, Phase.next, Point.takes]
    | removeFirst =>
      cases hinstr
      exact ⟨hqueued, h.lock_update (by rw [hpc]; rfl), h.ok_update trivial (Or.inl rfl),
        h.fifo, fun hq => (h.covered hq).update fun _ => rfl⟩
  | add o line =>
    cases line with
    | append =>
      cases hinstr
      refine ⟨hqueued, h.lock_update (by rw [hpc]; rfl),
        h.ok_update trivial (Or.inr (by rw [hpc]; rfl)), ?_, fun hq => ?_⟩
      · simp [h.fifo]
      · -- the thread is on its way to wake one for the new object
        have hgain : Covered (Function.update st.thread t (.run (.add o .wake)))
            (st.shared.list.length + 1) := (h.covered hq).gain (by rw [hpc]; rfl) rfl
        simpa using hgain
    | acquire | wake | release => exact nomatch hinstr
  | removeFirst line =>
    cases line with
    | whileEmpty =>
      cases hlist : st.shared.list with
      | nil =>
        -- nothing has to be covered while the list is empty
        simp only [program, removeFirst, hlist] at hinstr
        cases hinstr
        refine ⟨hqueued, h.lock_update (by rw [hpc]; rfl), h.ok_update hlist (Or.inl rfl),
          h.fifo, fun _ => ⟨[], List.nodup_nil, ?_, by simp⟩⟩
        simp [hlist]
      | cons o rest =>
        simp only [program, removeFirst, hlist] at hinstr
        cases hinstr
        exact ⟨hqueued, h.lock_update (by rw [hpc]; rfl),
          h.ok_update (by simp [PhaseOk, hlist]) (Or.inl rfl), h.fifo,
          fun hq => (h.covered hq).update fun _ => rfl⟩
    | remove =>
      cases hlist : st.shared.list with
      | nil => exact absurd hlist hok
      | cons o rest =>
        simp only [program, removeFirst, hlist] at hinstr
        cases hinstr
        refine ⟨hqueued, h.lock_update (by rw [hpc]; rfl),
          h.ok_update trivial (Or.inr (by rw [hpc]; rfl)), ?_, fun hq => ?_⟩
        · simp [h.fifo, hlist]
        · -- the object that is gone may have been the one the thread was there for
          have hcovered := h.covered hq
          rw [hlist] at hcovered
          exact hcovered.drop
    | acquire | sleep | release => exact nomatch hinstr

/-- Every step keeps the invariant. -/
theorem step (h : Inv st) (hstep : Step (program T α) st st') : Inv st' := by
  have hqueued := h.queued.step hstep
  cases hstep with
  | act hpc hinstr => exact h.act hpc hinstr hqueued
  | acquire hpc hinstr =>
    cases acquires_of_instr hinstr with
    | add =>
      refine ⟨hqueued, h.lock_update (by rw [hpc]; rfl), h.ok_update (Or.inr ⟨_, rfl⟩) (Or.inl rfl),
        h.fifo, fun hq => (h.covered hq).update ?_⟩
      simp [hpc, takes, Phase.next, Point.takes]
    | removeFirst =>
      exact ⟨hqueued, h.lock_update (by rw [hpc]; rfl), h.ok_update (Or.inl rfl) (Or.inl rfl),
        h.fifo, fun hq => (h.covered hq).update fun _ => rfl⟩
  | @enter t l next hpc hfree =>
    have hok := h.ok t
    rw [hpc] at hok
    have hinside : next.inside = true := by
      rcases hok with rfl | ⟨o, rfl⟩ <;> rfl
    refine ⟨hqueued, ?_, h.ok_update ?_ (Or.inl rfl), h.fifo, fun hq => (h.covered hq).update ?_⟩
    · -- nobody had the lock
      intro u
      have hno : hasLock (st.thread u) = false := by
        by_contra hne
        have := (h.lock u).mpr (by simpa using hne)
        exact nomatch hfree.symm.trans this
      by_cases hu : u = t
      · subst hu
        simp [hasLock, hinside]
      · simp [hu, hno, Ne.symm hu]
    · rcases hok with rfl | ⟨o, rfl⟩ <;> trivial
    · rw [hpc]
      exact id
  | @release t pc call l next hpc hinstr hheld =>
    cases releases_of_instr hinstr with
    | add =>
      refine ⟨hqueued, h.lock_free hheld rfl, h.ok_update trivial (Or.inl rfl), h.fifo,
        fun hq => (h.covered hq).update ?_⟩
      simp [hpc, takes, Phase.next, Point.takes]
    | removeFirst =>
      refine ⟨hqueued, h.lock_free hheld rfl, h.ok_update trivial (Or.inl rfl), h.fifo,
        fun hq => (h.covered hq).update ?_⟩
      simp [hpc, takes, Phase.next, Point.takes]
  | @sleep t pc call c next hpc hinstr hheld =>
    obtain ⟨rfl, rfl⟩ := sleeps_of_instr hinstr
    have hok := h.ok t
    rw [hpc] at hok
    -- the thread found the list empty, and has had the lock since then
    have hlist : st.shared.list = [] := hok
    exact ⟨hqueued, h.lock_free hheld rfl, h.ok_update rfl (Or.inl rfl), h.fifo,
      fun _ => ⟨[], List.nodup_nil, by simp [hlist], by simp⟩⟩
  | @wakeNone t pc call c next hpc hinstr hheld hqueue =>
    -- no thread is asleep, so that none can be asleep beside an object
    obtain ⟨o, rfl, rfl⟩ := wakes_of_instr hinstr
    exact ⟨hqueued, h.lock_update (by rw [hpc]; rfl), h.ok_update trivial (Or.inl rfl),
      h.fifo, fun hq => absurd hqueue hq⟩
  | @wakeSome t u pc call c next rest hpc hinstr hheld hqueue =>
    obtain ⟨o, rfl, rfl⟩ := wakes_of_instr hinstr
    obtain ⟨n, hn⟩ := h.queued.head_asleep hqueue
    have hok := h.ok u
    rw [hn] at hok
    obtain rfl := hok
    rw [hn] at hqueued ⊢
    have hut : u ≠ t := by
      rintro rfl
      simp [hpc] at hn
    refine ⟨hqueued, fun x => ?_, fun x => ?_, h.fifo, fun _ => ?_⟩
    · by_cases hx : x = t
      · subst hx
        simp [h.lock, hpc, hasLock, Point.inside]
      · by_cases hxu : x = u
        · subst hxu
          simp [hx, h.lock, hn, Phase.wake, hasLock]
        · simp [hx, hxu, h.lock]
    · by_cases hx : x = t
      · subst hx
        simp [PhaseOk]
      · by_cases hxu : x = u
        · subst hxu
          simp [hx, Phase.wake, PhaseOk]
        · simpa [hx, hxu] using h.ok x
    · -- the thread that wakes is replaced by the one that is woken
      have hgain : Covered (Function.update st.thread u
          (Phase.asleep c (.removeFirst .whileEmpty)).wake) (st.shared.list.length + 1) :=
        (h.covered (by simp [hqueue])).gain (by rw [hn]; rfl) rfl
      exact hgain.drop
  | @retry t c next hpc =>
    have hok := h.ok t
    rw [hpc] at hok
    obtain rfl := hok
    exact ⟨hqueued, h.lock_update (by rw [hpc]; rfl), h.ok_update (Or.inl rfl) (Or.inl rfl),
      h.fifo, fun hq => (h.covered hq).update fun _ => rfl⟩

end Inv

variable {choices : List (Choice T (Call α))} {st : Threads T Unit Unit (Point α) (Fields T α)}

/-- Every run of the threads keeps the invariant. -/
theorem run_inv (h : Threads.run (program T α) (init T α) choices = some st) : Inv st.monitor := by
  have hqueued : Queued (init T α).monitor :=
    ⟨by simp [init, Threads.monitor, Status.phase], by simp [init, Threads.monitor]⟩
  have hlock : (init T α).LockQueued := ⟨by simp [init], by simp [init]⟩
  have hinit : Inv (init T α).monitor := by
    refine ⟨hqueued, ?_, ?_, rfl, ?_⟩
    · simp [init, Threads.monitor, Status.phase, hasLock, Point.inside]
    · simp [init, Threads.monitor, Status.phase, PhaseOk]
    · simp [init, Threads.monitor]
  exact (Threads.run_steps hlock hqueued h).invariant Inv.step hinit

/-- Objects leave the list in the order in which they came in, and a thread that is about to
    remove one finds one. -/
theorem run_fifo (h : Threads.run (program T α) (init T α) choices = some st) :
    st.shared.added = st.shared.removed.map Prod.snd ++ st.shared.list ∧
      ∀ t, st.status t = .ready (.removeFirst .remove) → st.shared.list ≠ [] := by
  have hinv := run_inv h
  refine ⟨hinv.fifo, fun t ht => ?_⟩
  have hok := hinv.ok t
  simp only [Threads.monitor, ht, Status.phase] at hok
  exact hok

/-- A thread sleeps until 7 is added, and removes it. -/
theorem run_fifo_pair : ∃ st, Threads.run (program Nat Nat) (init Nat Nat)
      (List.replicate 5 ⟨1, .removeFirst, 0⟩ ++ List.replicate 5 ⟨0, .add (some 7), 0⟩ ++
        List.replicate 4 ⟨1, .removeFirst, 0⟩) = some st ∧
    st.shared.removed = [(1, 7)] ∧ st.shared.added = [7] ++ st.shared.list := by
  obtain ⟨st, hst, htest⟩ := Option.map_eq_some_iff.mp (show
    (Threads.run (program Nat Nat) (init Nat Nat)
      (List.replicate 5 ⟨1, .removeFirst, 0⟩ ++ List.replicate 5 ⟨0, .add (some 7), 0⟩ ++
        List.replicate 4 ⟨1, .removeFirst, 0⟩)).map
      (fun st => decide (st.shared.removed = [(1, 7)])) = some true
    by decide +kernel)
  simp only [decide_eq_true_eq] at htest
  have h := (run_fifo hst).1
  rw [htest] at h
  exact ⟨st, hst, htest, h⟩

/-- Threads that are asleep, and no other thread in `add` or `removeFirst`. -/
structure Starved (st : Threads T Unit Unit (Point α) (Fields T α)) : Prop where
  quiet : ∀ t, st.status t = .ready .outside ∨ ∃ next, st.status t = .waitSemaphore () next
  asleep : ∃ t next, st.status t = .waitSemaphore () next
  object : st.shared.list ≠ []

/-- No interleaving leaves threads asleep beside an object: as long as a thread is asleep, there
    is for every object in the list a thread of its own that is awake and goes on to take an
    object, or to wake a thread. -/
theorem run_not_starved (h : Threads.run (program T α) (init T α) choices = some st) :
    ¬ Starved st ∧ ((∃ t next, st.status t = .waitSemaphore () next) →
      Covered st.monitor.thread st.shared.list.length) := by
  have hinv := run_inv h
  have hcovered : (∃ t next, st.status t = .waitSemaphore () next) →
      Covered st.monitor.thread st.shared.list.length := by
    rintro ⟨t, next, ht⟩
    have hmem : t ∈ st.monitor.queue () :=
      (hinv.queued.mem_iff () t).mpr ⟨next, by simp [Threads.monitor, ht, Status.phase]⟩
    exact hinv.covered (List.ne_nil_of_mem hmem)
  refine ⟨fun hstarved => ?_, hcovered⟩
  obtain ⟨l, -, hlength, htakes⟩ := hcovered hstarved.asleep
  have hpos : 0 < l.length :=
    Nat.lt_of_lt_of_le (List.length_pos_of_ne_nil hstarved.object) hlength
  have hawake := htakes l[0] (List.getElem_mem hpos)
  -- but all threads are outside or asleep
  rcases hstarved.quiet l[0] with hu | ⟨n, hu⟩ <;>
    simp [Threads.monitor, hu, Status.phase, takes, Phase.next, Point.takes] at hawake

/-- Two threads are asleep when 7 is added; one of them has been woken and takes it. -/
theorem run_not_starved_pair : ∃ st, Threads.run (program Nat Nat) (init Nat Nat)
      (List.replicate 5 ⟨1, .removeFirst, 0⟩ ++ List.replicate 5 ⟨2, .removeFirst, 0⟩ ++
        List.replicate 5 ⟨0, .add (some 7), 0⟩) = some st ∧
    st.shared.list = [7] ∧ st.status 2 = .waitSemaphore () (.removeFirst .whileEmpty) ∧
      ¬ Starved st ∧ Covered st.monitor.thread 1 := by
  obtain ⟨st, hst, htest⟩ := Option.map_eq_some_iff.mp (show
    (Threads.run (program Nat Nat) (init Nat Nat)
      (List.replicate 5 ⟨1, .removeFirst, 0⟩ ++ List.replicate 5 ⟨2, .removeFirst, 0⟩ ++
        List.replicate 5 ⟨0, .add (some 7), 0⟩)).map
      (fun st => decide (st.shared.list = [7]) &&
        decide (st.status 2 = .waitSemaphore () (.removeFirst .whileEmpty))) = some true
    by decide +kernel)
  simp only [Bool.and_eq_true, decide_eq_true_eq] at htest
  obtain ⟨hlist, hasleep⟩ := htest
  obtain ⟨hstarved, hcovered⟩ := run_not_starved hst
  rw [hlist] at hcovered
  exact ⟨st, hst, hlist, hasleep, hstarved, hcovered ⟨2, _, hasleep⟩⟩

end

end SynchList

end Nachos
