import Coursework.Nachos.Spec.ThreadsMesa
import Coursework.Nachos.Transmitter

/-!
# One thread at a time uses the device

The lock of a `Gate` belongs to one thread, and only this thread waits on the semaphore. A
`Transmitter` therefore sends what it is given in the order in which it is given, nothing is
overwritten, its send interrupt is pending while it is sending, and a thread is past the
semaphore only when its message has been sent.
-/

namespace Nachos

namespace Gate

variable {T C : Type}

/-- The stages of the thread that has the lock. -/
def Stage.hasLock : Stage C → Bool
  | .outside | .waitLock _ => false
  | .locked _ | .beforeP | .waitP | .afterP => true

/-- The stage of the thread that has the lock. -/
def current (g : Gate T C) : Stage C :=
  (g.holder.map g.stage).getD .outside

@[simp] theorem current_of_free {g : Gate T C} (h : g.holder = none) : g.current = .outside := by
  simp [current, h]

@[simp] theorem current_of_holder {g : Gate T C} {t : T} (h : g.holder = some t) :
    g.current = g.stage t := by
  simp [current, h]

/-- The threads in calls and the queues they wait in. -/
structure Queued (g : Gate T C) : Prop where
  lock : ∀ t, g.holder = some t ↔ (g.stage t).hasLock = true
  waitLock : ∀ t, t ∈ g.lockQueue ↔ ∃ call, g.stage t = .waitLock call
  lockQueue_nodup : g.lockQueue.Nodup
  waitP : ∀ t, t ∈ g.waitQueue ↔ g.stage t = .waitP
  waitQueue_nodup : g.waitQueue.Nodup
  idle : g.holder = none → g.lockQueue = []
  zero : ∀ t, g.stage t = .waitP → g.value = 0

theorem nextThread_eq_none [DecidableEq T] {queue : List T} {prefer : T} :
    nextThread queue prefer = none ↔ queue = [] := by
  rw [nextThread]
  split
  · rename_i hmem
    simp [List.ne_nil_of_mem hmem]
  · exact List.head?_eq_none_iff

/-- A list with one element more. -/
theorem nodup_concat {l : List T} {t : T} (h : l.Nodup) (ht : t ∉ l) : (l ++ [t]).Nodup := by
  rw [List.nodup_append]
  refine ⟨h, by simp, ?_⟩
  rintro a ha b hb rfl
  exact ht (List.mem_singleton.mp hb ▸ ha)

namespace Queued

variable {g : Gate T C} {t : T}

theorem start : Queued ({} : Gate T C) := by
  constructor <;> simp [Stage.hasLock]

/-- The lock is one thread's. -/
theorem exclusive (h : Queued g) {u : T} (ht : (g.stage t).hasLock = true)
    (hu : (g.stage u).hasLock = true) : t = u := by
  rw [← h.lock] at ht hu
  exact Option.some.inj (ht.symm.trans hu)

theorem holder (h : Queued g) (ht : (g.stage t).hasLock = true) : g.holder = some t :=
  (h.lock t).mpr ht

/-- A thread that waits for the lock waits for a thread that has it. -/
theorem held (h : Queued g) {call : C} (ht : g.stage t = .waitLock call) :
    ∃ u, g.holder = some u ∧ (g.stage u).hasLock = true := by
  cases hholder : g.holder with
  | none =>
    have hmem := (h.waitLock t).mpr ⟨call, ht⟩
    simp [h.idle hholder] at hmem
  | some u => exact ⟨u, rfl, (h.lock u).mp hholder⟩

theorem not_mem_lockQueue (h : Queued g) (ht : ∀ call, g.stage t ≠ .waitLock call) :
    t ∉ g.lockQueue := by
  rw [h.waitLock]
  rintro ⟨call, hcall⟩
  exact ht call hcall

theorem not_mem_waitQueue (h : Queued g) (ht : g.stage t ≠ .waitP) : t ∉ g.waitQueue := by
  rwa [h.waitP]

variable [DecidableEq T] {prefer : T}

/-- A queue that the thread is not in, before and after. -/
theorem mem_iff_ite {l : List T} {q : Prop} (ht : t ∉ l) (hq : ¬ q) (u : T) :
    u ∈ l ↔ if u = t then q else u ∈ l := by
  by_cases hu : u = t
  · simp [hu, ht, hq]
  · simp [hu]

/-- The thread keeps the lock. -/
theorem holder_iff_ite (hlock : g.holder = some t) {stage : Stage C} (hstage : stage.hasLock = true)
    (u : T) : g.holder = some u ↔ if u = t then stage.hasLock = true else g.holder = some u := by
  by_cases hu : u = t
  · simp [hu, hlock, hstage]
  · simp [hu]

/-- The value is still 0 if a thread waits in `P`, as the one that changes does not. -/
theorem zero_of_ite (h : Queued g) {stage : Stage C} (hstage : stage ≠ .waitP) (u : T)
    (hu : if u = t then stage = .waitP else g.stage u = .waitP) : g.value = 0 := by
  by_cases hut : u = t
  · simp [hut, hstage] at hu
  · exact h.zero u (by simpa [hut] using hu)

/-- One thread changes, with its places in the queues. -/
theorem update (h : Queued g) {holder : Option T} {lockQueue waitQueue : List T} {value : Nat}
    {stage : Stage C}
    (hlock : ∀ u, holder = some u ↔ if u = t then stage.hasLock = true else g.holder = some u)
    (hlockQueue : ∀ u, u ∈ lockQueue ↔
      if u = t then ∃ call, stage = .waitLock call else u ∈ g.lockQueue)
    (hwaitQueue : ∀ u, u ∈ waitQueue ↔ if u = t then stage = .waitP else u ∈ g.waitQueue)
    (hnodup : lockQueue.Nodup) (hnodup' : waitQueue.Nodup)
    (hidle : holder = none → lockQueue = [])
    (hzero : ∀ u, (if u = t then stage = .waitP else g.stage u = .waitP) → value = 0) :
    Queued ({ g with holder, lockQueue, waitQueue, value }.setStage t stage) := by
  refine ⟨fun u => ?_, fun u => ?_, hnodup, fun u => ?_, hnodup', hidle, fun u hu => ?_⟩
  · by_cases hut : u = t
    · subst hut
      simp [setStage, hlock]
    · simp [setStage, hlock, hut, h.lock]
  · by_cases hut : u = t
    · subst hut
      simp [setStage, hlockQueue]
    · simp [setStage, hlockQueue, hut, h.waitLock]
  · by_cases hut : u = t
    · subst hut
      simp [setStage, hwaitQueue]
    · simp [setStage, hwaitQueue, hut, h.waitP]
  · apply hzero u
    by_cases hut : u = t
    · subst hut
      simpa [setStage] using hu
    · simpa [setStage, hut] using hu

/-- The thread that has the lock goes on, neither to nor from `P`. -/
theorem setStage (h : Queued g) (ht : (g.stage t).hasLock = true) (hne : g.stage t ≠ .waitP)
    {stage : Stage C} (hstage : stage.hasLock = true) (hwait : stage ≠ .waitP) :
    Queued (g.setStage t stage) := by
  have hlock := h.holder ht
  have hqueue : t ∉ g.lockQueue := h.not_mem_lockQueue fun call hcall => by
    simp [hcall, Stage.hasLock] at ht
  have hnot : ¬ ∃ call, stage = .waitLock call := by
    rintro ⟨call, rfl⟩
    exact nomatch hstage
  exact h.update (holder_iff_ite hlock hstage) (mem_iff_ite hqueue hnot)
    (mem_iff_ite (h.not_mem_waitQueue hne) hwait) h.lockQueue_nodup h.waitQueue_nodup h.idle
    (h.zero_of_ite hwait)

theorem acquire_free (hfree : g.holder = none) (call : C) :
    g.acquire t call = some ({ g with holder := some t }.setStage t (.locked call)) := by
  simp only [Gate.acquire, hfree]

theorem acquire_held {u : T} (hheld : g.holder = some u) (hne : u ≠ t) (call : C) :
    g.acquire t call =
      some ({ g with lockQueue := g.lockQueue ++ [t] }.setStage t (.waitLock call)) := by
  simp only [Gate.acquire, hheld, if_neg hne]

/-- `acquire` gets the lock if it is free, and waits for it otherwise. -/
theorem acquire (h : Queued g) (ht : g.stage t = .outside) (call : C) :
    ∃ g', g.acquire t call = some g' ∧ Queued g' ∧ g'.value = g.value ∧
      ((g.holder = none ∧ g'.holder = some t ∧
          g'.stage = Function.update g.stage t (.locked call)) ∨
        (∃ u, g.holder = some u) ∧ g'.holder = g.holder ∧
          g'.stage = Function.update g.stage t (.waitLock call)) := by
  have hlockQueue : t ∉ g.lockQueue := h.not_mem_lockQueue (by simp [ht])
  have hwaitQueue : t ∉ g.waitQueue := h.not_mem_waitQueue (by simp [ht])
  have hno : g.holder ≠ some t := by
    simp [h.lock, ht, Stage.hasLock]
  rcases hholder : g.holder with _ | v
  · refine ⟨_, acquire_free hholder call, ?_, rfl, Or.inl ⟨rfl, rfl, rfl⟩⟩
    refine h.update (fun u => ?_) (mem_iff_ite hlockQueue (by simp))
      (mem_iff_ite hwaitQueue (by simp)) h.lockQueue_nodup h.waitQueue_nodup (by simp)
      (h.zero_of_ite (by simp))
    by_cases hu : u = t
    · simp [hu, Stage.hasLock]
    · simp [hu, hholder, Ne.symm hu]
  · have hvt : v ≠ t := by
      rintro rfl
      exact hno hholder
    refine ⟨_, acquire_held hholder hvt call, ?_, rfl, Or.inr ⟨⟨v, rfl⟩, hholder, rfl⟩⟩
    refine h.update (fun u => ?_) (fun u => ?_) (mem_iff_ite hwaitQueue (by simp))
      (nodup_concat h.lockQueue_nodup hlockQueue) h.waitQueue_nodup (by simp [hholder])
      (h.zero_of_ite (by simp))
    · by_cases hu : u = t
      · simp [hu, hno, Stage.hasLock]
      · simp [hu]
    · by_cases hu : u = t <;> simp [hu]

/-- `release` gives the lock to a thread that waits for it, if there is one. -/
theorem release (h : Queued g) (ht : (g.stage t).hasLock = true) (hne : g.stage t ≠ .waitP)
    (prefer : T) :
    ∃ g', g.release t prefer = some g' ∧ Queued g' ∧ g'.value = g.value ∧
      ((g.lockQueue = [] ∧ g'.holder = none ∧
          g'.stage = Function.update g.stage t .outside) ∨
        ∃ u call, u ≠ t ∧ g.stage u = .waitLock call ∧ g'.holder = some u ∧
          g'.stage = Function.update (Function.update g.stage t .outside) u (.locked call)) := by
  have hlock := h.holder ht
  have hlockQueue : t ∉ g.lockQueue := h.not_mem_lockQueue fun call hcall => by
    simp [hcall, Stage.hasLock] at ht
  have hwaitQueue : t ∉ g.waitQueue := h.not_mem_waitQueue hne
  rw [Gate.release, if_pos hlock]
  cases hnext : nextThread g.lockQueue prefer with
  | none =>
    have hempty : g.lockQueue = [] := nextThread_eq_none.mp hnext
    simp only [Gate.setStage, hnext]
    refine ⟨_, rfl, ?_, rfl, Or.inl ⟨hempty, rfl, rfl⟩⟩
    refine h.update (fun u => ?_) (mem_iff_ite hlockQueue (by simp))
      (mem_iff_ite hwaitQueue (by simp)) h.lockQueue_nodup h.waitQueue_nodup (fun _ => hempty)
      (h.zero_of_ite (by simp))
    by_cases hu : u = t
    · simp [hu, Stage.hasLock]
    · simp [hu, hlock, Ne.symm hu]
  | some u =>
    have hmem : u ∈ g.lockQueue := Threads.nextThread_mem hnext
    have hut : u ≠ t := by
      rintro rfl
      exact hlockQueue hmem
    obtain ⟨call, hcall⟩ := (h.waitLock u).mp hmem
    -- for a moment `t` is outside and nobody has the lock
    have hnodup : (g.lockQueue.erase u).Nodup := h.lockQueue_nodup.erase u
    have hnot : u ∉ g.lockQueue.erase u := h.lockQueue_nodup.not_mem_erase
    simp only [Gate.setStage, hnext, Function.update_of_ne hut, hcall, Stage.admitted]
    refine ⟨_, rfl, ⟨fun x => ?_, fun x => ?_, hnodup, fun x => ?_, h.waitQueue_nodup, by simp,
      fun x hx => ?_⟩, rfl, Or.inr ⟨u, call, hut, hcall, rfl, rfl⟩⟩
    · by_cases hx : x = u
      · simp [hx, Stage.hasLock]
      · by_cases hxt : x = t
        · simp [hxt, hut, Ne.symm hut, Stage.hasLock]
        · simp [hx, hxt, Ne.symm hx, ← h.lock, hlock, Ne.symm hxt]
    · by_cases hx : x = u
      · simp [hx, hnot]
      · by_cases hxt : x = t
        · subst hxt
          simp [hx, h.lockQueue_nodup.mem_erase_iff, hlockQueue]
        · simp [hx, hxt, h.lockQueue_nodup.mem_erase_iff, h.waitLock]
    · by_cases hx : x = u
      · simp [hx, h.waitP, hcall]
      · by_cases hxt : x = t
        · subst hxt
          simp [hx, hwaitQueue]
        · simp [hx, hxt, h.waitP]
    · by_cases hxu : x = u
      · simp [hxu] at hx
      · by_cases hxt : x = t
        · simp [hxt, Ne.symm hut] at hx
        · exact h.zero x (by simpa [hxu, hxt] using hx)

/-- Nobody is past the lock then, or the thread that has got it. -/
theorem release_current {g' : Gate T C}
    (h : (g.lockQueue = [] ∧ g'.holder = none ∧
        g'.stage = Function.update g.stage t .outside) ∨
      ∃ u call, u ≠ t ∧ g.stage u = .waitLock call ∧ g'.holder = some u ∧
        g'.stage = Function.update (Function.update g.stage t .outside) u (.locked call)) :
    g'.current = .outside ∨ ∃ call, g'.current = .locked call := by
  rcases h with ⟨-, hfree, -⟩ | ⟨u, call, -, -, hholder, hstage⟩
  · exact Or.inl (current_of_free hfree)
  · right
    exact ⟨call, by rw [current_of_holder hholder, hstage, Function.update_self]⟩

/-- `P` waits if the value is 0. -/
theorem semaphoreP (h : Queued g) (ht : (g.stage t).hasLock = true) (hne : g.stage t ≠ .waitP) :
    Queued (g.semaphoreP t) ∧ (g.semaphoreP t).holder = some t ∧
      ((g.value = 0 ∧ (g.semaphoreP t).value = 0 ∧
          (g.semaphoreP t).stage = Function.update g.stage t .waitP) ∨
        (g.semaphoreP t).value + 1 = g.value ∧
          (g.semaphoreP t).stage = Function.update g.stage t .afterP) := by
  have hlock := h.holder ht
  have hlockQueue : t ∉ g.lockQueue := h.not_mem_lockQueue fun call hcall => by
    simp [hcall, Stage.hasLock] at ht
  have hwaitQueue : t ∉ g.waitQueue := h.not_mem_waitQueue hne
  simp only [Gate.semaphoreP]
  by_cases hzero : g.value = 0
  · simp only [if_pos hzero]
    refine ⟨?_, hlock, Or.inl ⟨hzero, hzero, rfl⟩⟩
    refine h.update (holder_iff_ite hlock rfl) (mem_iff_ite hlockQueue (by simp)) (fun u => ?_)
      h.lockQueue_nodup (nodup_concat h.waitQueue_nodup hwaitQueue) h.idle fun _ _ => hzero
    by_cases hu : u = t <;> simp [hu]
  · simp only [if_neg hzero]
    refine ⟨?_, hlock, Or.inr ⟨?_, rfl⟩⟩
    · -- nobody waits in `P`, as the value is not 0
      exact h.update (holder_iff_ite hlock rfl) (mem_iff_ite hlockQueue (by simp))
        (mem_iff_ite hwaitQueue (by simp)) h.lockQueue_nodup h.waitQueue_nodup h.idle
        fun u hu => absurd (h.zero_of_ite (by simp) u hu) hzero
    · show g.value - 1 + 1 = g.value
      omega

/-- `V` is for the thread that waits, if there is one. -/
theorem semaphoreV (h : Queued g) (prefer : T) :
    Queued (g.semaphoreV prefer) ∧ (g.semaphoreV prefer).holder = g.holder ∧
      (((∀ u, g.stage u ≠ .waitP) ∧ (g.semaphoreV prefer).value = g.value + 1 ∧
          (g.semaphoreV prefer).stage = g.stage) ∨
        ∃ u, g.holder = some u ∧ g.stage u = .waitP ∧ g.value = 0 ∧
          (g.semaphoreV prefer).value = 0 ∧
          (g.semaphoreV prefer).stage = Function.update g.stage u .afterP) := by
  simp only [Gate.semaphoreV]
  cases hnext : nextThread g.waitQueue prefer with
  | none =>
    have hempty := nextThread_eq_none.mp hnext
    have hnot (u : T) : g.stage u ≠ .waitP := by
      rw [Ne, ← h.waitP, hempty]
      simp
    exact ⟨⟨h.lock, h.waitLock, h.lockQueue_nodup, h.waitP, h.waitQueue_nodup, h.idle,
      fun u hu => absurd hu (hnot u)⟩, rfl, Or.inl ⟨hnot, rfl, rfl⟩⟩
  | some u =>
    have hmem : u ∈ g.waitQueue := Threads.nextThread_mem hnext
    have hwait := (h.waitP u).mp hmem
    have hzero := h.zero u hwait
    have hlock := h.holder (t := u) (by rw [hwait]; rfl)
    have hlockQueue : u ∉ g.lockQueue := h.not_mem_lockQueue (by simp [hwait])
    have hnot : u ∉ g.waitQueue.erase u := h.waitQueue_nodup.not_mem_erase
    refine ⟨?_, rfl, Or.inr ⟨u, hlock, hwait, hzero, hzero, rfl⟩⟩
    -- the thread that waited still has the lock, and leaves the queue of the semaphore
    refine h.update (holder_iff_ite hlock rfl) (mem_iff_ite hlockQueue (by simp)) (fun x => ?_)
      h.lockQueue_nodup (h.waitQueue_nodup.erase u) h.idle fun _ _ => hzero
    by_cases hx : x = u
    · simp [hx, hnot]
    · simp [hx, h.waitQueue_nodup.mem_erase_iff]

/-- After a `V` nobody sleeps in `P`, and it is in the value or with the thread that woke up. -/
theorem semaphoreV_current [DecidableEq C] (h : Queued g) (prefer : T) :
    (g.semaphoreV prefer).current ≠ .waitP ∧
      (g.semaphoreV prefer).value + (if (g.semaphoreV prefer).current = .afterP then 1 else 0) =
        g.value + (if g.current = .afterP then 1 else 0) + 1 := by
  obtain ⟨-, hholder, ⟨hnot, hvalue, hstage⟩ | ⟨u, hu, hwait, hzero, hvalue, hstage⟩⟩ :=
    h.semaphoreV prefer
  · have hcurrent : (g.semaphoreV prefer).current = g.current := by
      rw [current, current, hholder, hstage]
    rw [hcurrent, hvalue]
    refine ⟨?_, by omega⟩
    cases hg : g.holder with
    | none => simp [hg]
    | some t => simpa [hg] using hnot t
  · rw [current_of_holder (hholder.trans hu), hstage, current_of_holder hu, hwait, hzero, hvalue]
    simp

end Queued

end Gate

namespace Transmitter

open Gate (Stage Queued)

variable {T M P : Type}

/-- How many messages the thread that has the lock waits for the device to send. -/
def unsent : Stage M → Nat
  | .beforeP | .waitP => 1
  | _ => 0

/-- The message of a call that has not started the device yet. -/
def message : Stage M → Option M
  | .waitLock message | .locked message => some message
  | _ => none

/-- The messages that the device was started with, before the device was done with them and
    after it. The device is at work for the thread that has the lock. -/
structure History (load : M → P) (m : Transmitter T M P) (done waiting : List (T × M)) : Prop where
  sent : m.sent = done ++ waiting
  carried : (done.map fun x => load x.2) = m.carried
  outgoing : (waiting.map fun x => load x.2) = m.outgoing.toList
  holder : ∀ x ∈ waiting, m.gate.holder = some x.1

/-- The send interrupt is pending while the device is sending; what it is sending, or the `V`
    for what it has sent, belongs to the thread that has the lock. All messages are of the kind
    `p` that the callers promise. -/
structure Sends (load : M → P) (p : M → Prop) (m : Transmitter T M P) : Prop where
  queued : m.gate.Queued
  interrupts : m.sendInterrupts = m.outgoing.toList.length
  slot : m.gate.value + m.outgoing.toList.length = unsent m.gate.current
  history : ∃ done waiting, History load m done waiting
  kind : ∀ x ∈ m.sent, p x.2
  called : ∀ t x, message (m.gate.stage t) = some x → p x

namespace Sends

variable {load : M → P} {p : M → Prop} {m : Transmitter T M P}

theorem start : Sends load p ({} : Transmitter T M P) :=
  ⟨Queued.start, rfl, rfl, ⟨[], [], rfl, rfl, rfl, by simp⟩, by simp, by simp [message]⟩

/-- The device is idle when the thread that has the lock does not wait for it. -/
theorem idle (h : Sends load p m) (hcurrent : unsent m.gate.current = 0) :
    m.gate.value = 0 ∧ m.outgoing = none := by
  have hslot := h.slot
  rw [hcurrent] at hslot
  simpa using hslot

/-- Nothing waits to be sent when the device is idle. -/
theorem history_idle (h : Sends load p m) (hnone : m.outgoing = none) : History load m m.sent [] := by
  obtain ⟨done, waiting, hsent, hcarried, hout, -⟩ := h.history
  rw [hnone] at hout
  obtain rfl : waiting = [] := by simpa using hout
  rw [List.append_nil] at hsent
  exact ⟨by simp, hsent ▸ hcarried, by simp [hnone], by simp⟩

/-- A message that is being sent is one of a thread that waits for it. -/
theorem waits (h : Sends load p m) {done waiting : List (T × M)}
    (hhistory : History load m done waiting) {x : T × M} (hx : x ∈ waiting) :
    m.gate.stage x.1 = .beforeP ∨ m.gate.stage x.1 = .waitP := by
  have hslot := h.slot
  have hlength : 0 < m.outgoing.toList.length := by
    rw [← hhistory.outgoing, List.length_map]
    exact List.length_pos_of_mem hx
  rw [Gate.current_of_holder (hhistory.holder x hx)] at hslot
  cases hstage : m.gate.stage x.1 with
  | beforeP => exact Or.inl rfl
  | waitP => exact Or.inr rfl
  | _ =>
    simp only [hstage, unsent] at hslot
    omega

/-- The device has sent what it was started with, in this order, but for the message of a
    thread that has not come back from `P` yet. -/
theorem carried (h : Sends load p m) : ∃ done waiting, m.sent = done ++ waiting ∧
    (done.map fun x => load x.2) = m.carried ∧
    (waiting.map fun x => load x.2) = m.outgoing.toList ∧
    ∀ x ∈ waiting, m.gate.stage x.1 = .beforeP ∨ m.gate.stage x.1 = .waitP := by
  obtain ⟨done, waiting, hhistory⟩ := h.history
  exact ⟨done, waiting, hhistory.sent, hhistory.carried, hhistory.outgoing,
    fun x hx => h.waits hhistory hx⟩

/-- A thread sleeps in `P` only while the interrupt that wakes it is pending. -/
theorem waitP (h : Sends load p m) {t : T} (ht : m.gate.stage t = .waitP) :
    m.sendInterrupts = 1 := by
  have hslot := h.slot
  have hzero := h.queued.zero t ht
  rw [Gate.current_of_holder (h.queued.holder (by rw [ht]; rfl)), ht] at hslot
  simp only [unsent] at hslot
  rw [h.interrupts]
  omega

variable [DecidableEq T]

/-- A thread calls the driver. -/
theorem call (h : Sends load p m) {t : T} (ht : m.gate.stage t = .outside) {x : M} (hx : p x) :
    ∃ m', m.call t x = some m' ∧ Sends load p m' := by
  obtain ⟨g, hg, hqueued, hvalue, hcases⟩ := h.queued.acquire ht x
  refine ⟨{ m with gate := g }, by simp [Transmitter.call, hg], hqueued, h.interrupts, ?_, ?_,
    h.kind, fun u y hy => ?_⟩
  · -- the thread that has the lock is `t` now, or the one that had it, and it waits for as much
    rcases hcases with ⟨hfree, hholder, hstage⟩ | ⟨⟨u, hu⟩, hholder, hstage⟩
    · have hslot := h.slot
      rw [Gate.current_of_free hfree] at hslot
      rw [Gate.current_of_holder hholder, hstage, Function.update_self, hvalue]
      exact hslot
    · have hut : u ≠ t := by
        rintro rfl
        have := (h.queued.lock u).mp hu
        simp [ht, Stage.hasLock] at this
      have hslot := h.slot
      rw [Gate.current_of_holder hu] at hslot
      rw [Gate.current_of_holder (hholder.trans hu), hstage, Function.update_of_ne hut, hvalue]
      exact hslot
  · rcases hcases with ⟨hfree, hholder, hstage⟩ | ⟨-, hholder, hstage⟩
    · -- nobody had the lock, so that the device is idle
      obtain ⟨-, hnone⟩ := h.idle (by rw [Gate.current_of_free hfree]; rfl)
      obtain ⟨hsent, hcarried, hout, -⟩ := h.history_idle hnone
      exact ⟨_, _, hsent, hcarried, hout, by simp⟩
    · obtain ⟨done, waiting, hsent, hcarried, hout, hown⟩ := h.history
      exact ⟨done, waiting, hsent, hcarried, hout, fun x hx => hholder.trans (hown x hx)⟩
  · by_cases hut : u = t
    · have hyx : y = x := by
        rcases hcases with ⟨-, -, hstage⟩ | ⟨-, -, hstage⟩ <;>
          simpa [hstage, hut, message, eq_comm] using hy
      exact hyx ▸ hx
    · apply h.called u
      rcases hcases with ⟨-, -, hstage⟩ | ⟨-, -, hstage⟩ <;> simpa [hstage, hut] using hy

/-- The thread goes on to a stage without a message. -/
theorem called_update (h : Sends load p m) {t : T} {s : Stage M} (hs : message s = none)
    (u : T) (y : M) (hy : message (Function.update m.gate.stage t s u) = some y) : p y := by
  by_cases hut : u = t
  · simp [hut, hs] at hy
  · exact h.called u y (by simpa [hut] using hy)

/-- A thread in a call goes on. -/
theorem step (h : Sends load p m) (t prefer : T) :
    ∃ m', m.step load t prefer = some m' ∧ Sends load p m' := by
  simp only [Transmitter.step]
  cases ht : m.gate.stage t with
  | outside | waitLock x | waitP => exact ⟨m, rfl, h⟩
  | locked x =>
    -- the device is idle, and starts with this message
    have hholder := h.queued.holder (t := t) (by rw [ht]; rfl)
    obtain ⟨hzero, hnone⟩ := h.idle (by rw [Gate.current_of_holder hholder, ht]; rfl)
    have hinterrupts := h.interrupts
    obtain ⟨hsent, hcarried, -, -⟩ := h.history_idle hnone
    refine ⟨_, rfl, h.queued.setStage (by rw [ht]; rfl) (by simp [ht]) rfl (by simp), ?_, ?_, ?_,
      fun y hy => ?_, h.called_update rfl⟩
    · simp [Transmitter.start, hinterrupts, hnone]
    · show m.gate.value + 1 = unsent (m.gate.setStage t .beforeP).current
      rw [hzero, Gate.current_of_holder (g := m.gate.setStage t .beforeP) hholder]
      simp [Gate.setStage, unsent]
    · refine ⟨m.sent, [(t, x)], rfl, hcarried, rfl, fun y hy => ?_⟩
      rw [List.mem_singleton.mp hy]
      exact hholder
    · rcases List.mem_append.mp hy with hy | hy
      · exact h.kind y hy
      · rw [List.mem_singleton.mp hy]
        exact h.called t x (by rw [ht]; rfl)
  | beforeP =>
    have hlock : (m.gate.stage t).hasLock = true := by rw [ht]; rfl
    have hholder := h.queued.holder hlock
    have hslot := h.slot
    obtain ⟨done, waiting, hsent, hcarried, hout, hown⟩ := h.history
    obtain ⟨hqueued, hholder', hcases⟩ := h.queued.semaphoreP hlock (by simp [ht])
    rw [Gate.current_of_holder hholder, ht] at hslot
    refine ⟨_, rfl, hqueued, h.interrupts, ?_, ⟨done, waiting, hsent, hcarried, hout,
      fun x hx => hholder'.trans (hholder.symm.trans (hown x hx))⟩, h.kind, ?_⟩
    · show (m.gate.semaphoreP t).value + m.outgoing.toList.length =
        unsent (m.gate.semaphoreP t).current
      rw [Gate.current_of_holder hholder']
      simp only [unsent] at hslot
      -- `P` waits for the interrupt, or takes the `V` of one that came before it
      rcases hcases with ⟨hzero, hzero', hstage⟩ | ⟨hvalue, hstage⟩
      · rw [hstage, Function.update_self, hzero']
        simpa [unsent, hzero] using hslot
      · rw [hstage, Function.update_self]
        show _ = 0
        omega
    · rcases hcases with ⟨-, -, hstage⟩ | ⟨-, hstage⟩ <;>
        exact fun u y hy => h.called_update rfl u y (hstage ▸ hy)
  | afterP =>
    -- the message has been sent, and the next thread gets the lock
    have hlock : (m.gate.stage t).hasLock = true := by rw [ht]; rfl
    have hholder := h.queued.holder hlock
    obtain ⟨hzero, hnone⟩ := h.idle (by rw [Gate.current_of_holder hholder, ht]; rfl)
    obtain ⟨hsent, hcarried, hout, -⟩ := h.history_idle hnone
    obtain ⟨g, hg, hqueued, hvalue, hcases⟩ := h.queued.release hlock (by simp [ht]) prefer
    refine ⟨{ m with gate := g }, by simp [hg], hqueued, h.interrupts, ?_,
      ⟨_, _, hsent, hcarried, hout, by simp⟩, h.kind, fun v y hy => ?_⟩
    · have hcurrent : unsent g.current = 0 := by
        rcases Queued.release_current hcases with hfree | ⟨call, hlocked⟩
        · rw [hfree]
          rfl
        · rw [hlocked]
          rfl
      simp [hvalue, hzero, hnone, hcurrent]
    · rcases hcases with ⟨-, -, hstage⟩ | ⟨u, call, hut, hcall, -, hstage⟩
      · rw [hstage] at hy
        exact h.called_update (s := .outside) rfl v y hy
      · by_cases hvu : v = u
        · -- the thread that gets the lock keeps its message
          apply h.called u
          rw [hcall]
          simpa [hstage, hvu, message] using hy
        · apply h.called_update (t := t) (s := .outside) rfl v
          simpa [hstage, hvu] using hy

theorem interrupt_some {packet : P} (hpacket : m.outgoing = some packet) (prefer : T) :
    { m with sendInterrupts := m.sendInterrupts - 1 }.interrupt true prefer =
      some (packet, { m with
        gate := m.gate.semaphoreV prefer, outgoing := none
        sendInterrupts := m.sendInterrupts - 1, carried := m.carried ++ [packet] }) := by
  simp only [Transmitter.interrupt, hpacket]
  rfl

/-- The send interrupt is only pending while the device is sending. -/
theorem interrupt (h : Sends load p m) (hpending : m.sendInterrupts ≠ 0) (prefer : T) :
    ∃ packet m', m.outgoing = some packet ∧
      { m with sendInterrupts := m.sendInterrupts - 1 }.interrupt true prefer = some (packet, m') ∧
      Sends load p m' := by
  have hinterrupts := h.interrupts
  have hslot := h.slot
  obtain ⟨done, waiting, hsent, hcarried, hout, -⟩ := h.history
  obtain ⟨packet, hp⟩ : ∃ packet, m.outgoing = some packet := by
    cases hp : m.outgoing with
    | none =>
      rw [hp] at hinterrupts
      exact absurd hinterrupts hpending
    | some packet => exact ⟨packet, rfl⟩
  rw [hp] at hinterrupts hslot hout
  obtain ⟨hqueued, hholder, hcases⟩ := h.queued.semaphoreV prefer
  refine ⟨packet, _, hp, interrupt_some hp prefer, hqueued, ?_, ?_, ?_, h.kind, ?_⟩
  · show m.sendInterrupts - 1 = 0
    simp [hinterrupts]
  · show (m.gate.semaphoreV prefer).value + 0 = unsent (m.gate.semaphoreV prefer).current
    rcases hcases with ⟨-, hvalue, hstage⟩ | ⟨u, hu, -, -, hvalue, hstage⟩
    · -- the thread has not called `P` yet
      have hcurrent : (m.gate.semaphoreV prefer).current = m.gate.current := by
        rw [Gate.current, Gate.current, hholder, hstage]
      rw [hcurrent, ← hslot, hvalue]
      rfl
    · rw [hvalue, Gate.current_of_holder (hholder.trans hu), hstage, Function.update_self]
      rfl
  · -- what the device was at work with joins what it is done with
    refine ⟨m.sent, [], by simp, ?_, rfl, by simp⟩
    show m.sent.map _ = m.carried ++ [packet]
    rw [hsent, List.map_append, hcarried, hout]
    rfl
  · rcases hcases with ⟨-, -, hstage⟩ | ⟨u, -, -, -, -, hstage⟩
    · exact fun v y hy => h.called v y (hstage ▸ hy)
    · exact fun v y hy => h.called_update rfl v y (hstage ▸ hy)

end Sends

/-! ## The history -/

section

variable {load : M → P} {m m' : Transmitter T M P} [DecidableEq T] {t prefer : T}

theorem call_carried {x : M} (h : m.call t x = some m') : m'.carried = m.carried := by
  obtain ⟨gate, -, hm'⟩ := Option.bind_eq_some_iff.mp h
  rw [← Option.some.inj hm']

theorem step_carried (h : m.step load t prefer = some m') : m'.carried = m.carried := by
  simp only [Transmitter.step] at h
  split at h
  case h_6 =>
    obtain ⟨gate, -, hm'⟩ := Option.bind_eq_some_iff.mp h
    rw [← Option.some.inj hm']
  all_goals
    cases h
    rfl

theorem interrupt_carried {packet : P} {handlers : Bool}
    (h : m.interrupt handlers prefer = some (packet, m')) :
    m'.carried = m.carried ++ [packet] := by
  obtain ⟨packet, -, hm'⟩ := Option.bind_eq_some_iff.mp h
  cases Option.some.inj hm'
  rfl

end

end Transmitter

end Nachos
