import Mathlib.Data.List.Basic
import Mathlib.Logic.Function.Basic
import Mathlib.Logic.Relation

/-!
# Mesa monitors

Threads that share variables, locks and condition variables with Mesa semantics. `sleep`
gives up the lock of its condition; `wake` only makes the thread that has slept longest
ready, and it has to get the lock again while other threads may enter first. A program
says which statement a thread executes next; the environment has an input to it.
-/

namespace Mesa

/-- One statement: what it does to the shared variables, the locks and the conditions, and
    where the thread goes on. -/
inductive Instr (L C P S : Type) where
  | act (shared : S) (next : P)
  | acquire (l : L) (next : P)
  | release (l : L) (next : P)
  | sleep (c : C) (next : P)
  | wake (c : C) (next : P)
  /-- The statement fails, or waits for something that is not a lock or a condition. -/
  | stuck

/-- A program for threads `T` with locks `L`, conditions `C`, program points `P`, shared
    variables `S` and inputs `I`. -/
structure Program (T L C P S I : Type) where
  lockOf : C → L
  instr : T → P → S → I → Instr L C P S

/-- What a thread is doing. -/
inductive Phase (L C P : Type) where
  /-- About to execute the statement at `pc`. -/
  | run (pc : P)
  /-- Waiting for a lock. -/
  | entering (l : L) (next : P)
  /-- Asleep in the queue of a condition. -/
  | asleep (c : C) (next : P)
  /-- Woken up, and not yet waiting for the lock. -/
  | woken (c : C) (next : P)
  deriving DecidableEq

/-- The statement a thread will execute next, once it has the lock it may be waiting for. -/
def Phase.next {L C P : Type} : Phase L C P → P
  | .run pc => pc
  | .entering _ next => next
  | .asleep _ next => next
  | .woken _ next => next

/-- What `wake` does to the thread it takes from the queue. -/
def Phase.wake {L C P : Type} : Phase L C P → Phase L C P
  | .asleep c next => .woken c next
  | phase => phase

/-- The state of a monitor. -/
structure State (T L C P S : Type) where
  shared : S
  holder : L → Option T
  queue : C → List T
  thread : T → Phase L C P

variable {T L C P S I : Type}

/-- The queue of a condition holds the threads that are asleep on it, once each. -/
structure Queued (st : State T L C P S) : Prop where
  mem_iff : ∀ c t, t ∈ st.queue c ↔ ∃ next, st.thread t = .asleep c next
  nodup : ∀ c, (st.queue c).Nodup

namespace Queued

variable {st : State T L C P S}

theorem not_mem_of_run (h : Queued st) {t : T} {pc : P} (hpc : st.thread t = .run pc) (c : C) :
    t ∉ st.queue c := by
  simp [h.mem_iff, hpc]

/-- The head of a queue is asleep, and `wake` wakes it. -/
theorem head_asleep (h : Queued st) {c : C} {u : T} {rest : List T} (hq : st.queue c = u :: rest) :
    ∃ next, st.thread u = .asleep c next := by
  rw [← h.mem_iff, hq]
  exact List.mem_cons_self

/-- A thread that is not asleep before or after its step leaves the queues alone. -/
theorem setThread [DecidableEq T] (h : Queued st) {t : T} {phase : Phase L C P} {shared : S}
    {holder : L → Option T} (hold : ∀ c next, st.thread t ≠ .asleep c next)
    (hnew : ∀ c next, phase ≠ .asleep c next) :
    Queued { st with shared := shared, holder := holder,
                     thread := Function.update st.thread t phase } where
  mem_iff c u := by
    by_cases hu : u = t
    · subst hu
      simp [hnew, hold, h.mem_iff]
    · simp [hu, h.mem_iff]
  nodup := h.nodup

end Queued

variable [DecidableEq T] [DecidableEq L] [DecidableEq C]

/-- One step of one thread. -/
inductive Step (m : Program T L C P S I) : State T L C P S → State T L C P S → Prop where
  | act {st : State T L C P S} {t : T} {pc : P} {i : I} {shared : S} {next : P}
      (hpc : st.thread t = .run pc) (hinstr : m.instr t pc st.shared i = .act shared next) :
      Step m st { st with shared := shared, thread := Function.update st.thread t (.run next) }
  | acquire {st : State T L C P S} {t : T} {pc : P} {i : I} {l : L} {next : P}
      (hpc : st.thread t = .run pc) (hinstr : m.instr t pc st.shared i = .acquire l next) :
      Step m st { st with thread := Function.update st.thread t (.entering l next) }
  | enter {st : State T L C P S} {t : T} {l : L} {next : P}
      (hpc : st.thread t = .entering l next) (hfree : st.holder l = none) :
      Step m st { st with holder := Function.update st.holder l (some t)
                          thread := Function.update st.thread t (.run next) }
  | release {st : State T L C P S} {t : T} {pc : P} {i : I} {l : L} {next : P}
      (hpc : st.thread t = .run pc) (hinstr : m.instr t pc st.shared i = .release l next)
      (hheld : st.holder l = some t) :
      Step m st { st with holder := Function.update st.holder l none
                          thread := Function.update st.thread t (.run next) }
  | sleep {st : State T L C P S} {t : T} {pc : P} {i : I} {c : C} {next : P}
      (hpc : st.thread t = .run pc) (hinstr : m.instr t pc st.shared i = .sleep c next)
      (hheld : st.holder (m.lockOf c) = some t) :
      Step m st { st with holder := Function.update st.holder (m.lockOf c) none
                          queue := Function.update st.queue c (st.queue c ++ [t])
                          thread := Function.update st.thread t (.asleep c next) }
  | wakeNone {st : State T L C P S} {t : T} {pc : P} {i : I} {c : C} {next : P}
      (hpc : st.thread t = .run pc) (hinstr : m.instr t pc st.shared i = .wake c next)
      (hheld : st.holder (m.lockOf c) = some t) (hqueue : st.queue c = []) :
      Step m st { st with thread := Function.update st.thread t (.run next) }
  | wakeSome {st : State T L C P S} {t u : T} {pc : P} {i : I} {c : C} {next : P} {rest : List T}
      (hpc : st.thread t = .run pc) (hinstr : m.instr t pc st.shared i = .wake c next)
      (hheld : st.holder (m.lockOf c) = some t) (hqueue : st.queue c = u :: rest) :
      Step m st { st with queue := Function.update st.queue c rest
                          thread := Function.update
                            (Function.update st.thread u (st.thread u).wake) t (.run next) }
  | retry {st : State T L C P S} {t : T} {c : C} {next : P} (hpc : st.thread t = .woken c next) :
      Step m st { st with thread := Function.update st.thread t (.entering (m.lockOf c) next) }

/-- Any interleaving of the threads. -/
abbrev Steps (m : Program T L C P S I) : State T L C P S → State T L C P S → Prop :=
  Relation.ReflTransGen (Step m)

theorem Steps.of_eq {m : Program T L C P S I} {st a b : State T L C P S} (heq : b = a)
    (h : Steps m st a) : Steps m st b := heq ▸ h

/-- What every step preserves holds in every state that is reached. -/
theorem Steps.invariant {m : Program T L C P S I} {Q : State T L C P S → Prop}
    (hstep : ∀ {st st'}, Q st → Step m st st' → Q st') {st st' : State T L C P S}
    (h : Steps m st st') (hst : Q st) : Q st' := by
  induction h with
  | refl => exact hst
  | tail _ hlast ih => exact hstep ih hlast

namespace Queued

variable {m : Program T L C P S I} {st st' : State T L C P S}

/-- Every step keeps the queues in order. -/
theorem step (h : Queued st) (hstep : Step m st st') : Queued st' := by
  cases hstep with
  | act hpc _ => exact h.setThread (by simp [hpc]) (by simp)
  | acquire hpc _ => exact h.setThread (by simp [hpc]) (by simp)
  | enter hpc _ => exact h.setThread (by simp [hpc]) (by simp)
  | release hpc _ _ => exact h.setThread (by simp [hpc]) (by simp)
  | wakeNone hpc _ _ _ => exact h.setThread (by simp [hpc]) (by simp)
  | retry hpc => exact h.setThread (by simp [hpc]) (by simp)
  | @sleep t pc i c next hpc _ _ =>
    -- only queue `c` and thread `t` change: one case for each of the four combinations
    refine ⟨fun d u => ?_, fun d => ?_⟩
    · by_cases hd : d = c <;> by_cases hu : u = t
      · simp [hd, hu]
      · simp [hd, hu, h.mem_iff]
      · simp [hd, hu, Ne.symm hd, h.mem_iff, hpc]
      · simp [hd, hu, h.mem_iff]
    · by_cases hd : d = c
      · subst hd
        simp only [Function.update_self]
        exact List.nodup_append.mpr ⟨h.nodup d, by simp, by
          rintro a ha b hb rfl
          exact h.not_mem_of_run hpc d (List.mem_singleton.mp hb ▸ ha)⟩
      · simpa [hd] using h.nodup d
  | @wakeSome t u pc i c next rest hpc _ _ hq =>
    -- the head of the queue leaves it: `t` was running, hence in no queue, and `u` occurs once
    obtain ⟨n, hn⟩ := h.head_asleep hq
    have hnodup : (u :: rest).Nodup := hq ▸ h.nodup c
    have hut : u ≠ t := by
      rintro rfl
      simp [hpc] at hn
    refine ⟨fun d x => ?_, fun d => ?_⟩
    · have hmem := h.mem_iff d x
      by_cases hd : d = c
      · subst hd
        rw [hq, List.mem_cons] at hmem
        by_cases hx : x = t
        · subst hx
          simp only [hpc, Function.update_self, reduceCtorEq, exists_false, iff_false] at hmem ⊢
          exact fun hx => hmem (Or.inr hx)
        by_cases hxu : x = u
        · subst hxu
          simpa [hx, hn, Phase.wake] using (List.nodup_cons.mp hnodup).1
        · simpa [hx, hxu] using hmem
      · by_cases hx : x = t
        · subst hx
          simpa [hd, hpc] using hmem
        by_cases hxu : x = u
        · subst hxu
          simpa [hd, hx, hn, Phase.wake, Ne.symm hd] using hmem
        · simpa [hd, hx, hxu] using hmem
    · by_cases hd : d = c
      · subst hd
        simpa using (List.nodup_cons.mp hnodup).2
      · simpa [hd] using h.nodup d

end Queued

end Mesa
