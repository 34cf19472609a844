import Coursework.ForStd.Except
import Coursework.Nachos.KThread
import Mathlib.Data.List.Nodup

/-!
# The states of kernel threads

At the end of every step the threads are divided among the processor, the ready queue and
the places where they wait. The field `joinedThread` is a waiting place only until its
thread has finished: `finish` does not clear it. A thread that calls `KThread.sleep` itself
waits at no place of the kernel, so it gets one of its own here.
-/

namespace Nachos

namespace KThread

namespace Kernel

open PriorityQueue (offer_perm poll_perm)
open Scheduler (Board Ok MadeReady Dispatched BlockedAt)

/-- The places where threads wait. -/
inductive Place where
  | queue (o : Waitable)
  | alarm
  /-- The field `joinedThread` of a thread. -/
  | joinedThread (t : Nat)
  /-- The `KThread.sleep` that a thread has called itself. -/
  | sleep
  deriving DecidableEq

/-- The threads that wait at a place. -/
def occupants (k : Kernel) : Place → List Nat
  | .queue o => k.waitQueue o
  | .alarm => k.alarmQueue.map AlarmBucket.kthread
  | .joinedThread t => if k.status t = .finished then [] else (k.joinedThread t).toList
  | .sleep => k.sleepers

/-- The kernel as a dispatcher. -/
def board (k : Kernel) : Board Nat Place where
  idle := idleThread
  status := k.status
  readyQueue := k.readyQueue
  queue := k.occupants

/-- What holds after every step. -/
structure Inv (k : Kernel) : Prop where
  ok : Ok k.board (some k.currentThread)
  destroyed : k.toBeDestroyed = none

/-- No assertion about the status of threads has failed, and the result has the property. -/
def Safe {α : Type} (P : α → Prop) : Except Assertion α → Prop
  | .ok a => P a
  | .error assertion => assertion ≠ .statusReady ∧ assertion ≠ .toBeDestroyed

theorem Safe.bind {α β : Type} {P : α → Prop} {Q : β → Prop} {e : Except Assertion α}
    {f : α → Except Assertion β} (h : Safe P e) (hf : ∀ a, P a → Safe Q (f a)) :
    Safe Q (e >>= f) := by
  cases e with
  | ok a => exact hf a h
  | error assertion => exact h

theorem Safe.mono {α : Type} {P Q : α → Prop} {e : Except Assertion α} (h : Safe P e)
    (hf : ∀ a, P a → Q a) : Safe Q e := by
  cases e with
  | ok a => exact hf a h
  | error assertion => exact h

variable {k k' : Kernel} {t u : Nat}

/-! ## The processor changes hands -/

theorem resume_safe (h : Inv k) : Safe Inv k.resume := by
  unfold resume
  cases k.rest k.currentThread with
  | restore b => exact ⟨h.ok, h.destroyed⟩
  | acquire l b =>
    dsimp only
    split
    · exact ⟨h.ok, h.destroyed⟩
    · exact ⟨by decide, by decide⟩
  | ret => exact h

/-- Only a thread that finishes leaves a waiting place free by its status. -/
theorem occupants_congr {p : Place} (hq : k'.waitQueue = k.waitQueue)
    (ha : k'.alarmQueue = k.alarmQueue) (hj : k'.joinedThread = k.joinedThread)
    (hs : k'.sleepers = k.sleepers)
    (hf : ∀ t, k'.status t = .finished ↔ k.status t = .finished) :
    k'.occupants p = k.occupants p := by
  cases p <;> simp [occupants, hq, ha, hj, hs, hf]

/-- The status of a thread changes, and it was not and is not finished. -/
theorem finished_update {s : Scheduler.Status} (hs : s ≠ .finished) (ht : k.status t ≠ .finished)
    (u : Nat) : Function.update k.status t s u = .finished ↔ k.status u = .finished := by
  by_cases hu : u = t
  · simp [hu, hs, ht]
  · simp [hu]

theorem occupants_update {s : Scheduler.Status} (hs : s ≠ .finished) (ht : k.status t ≠ .finished)
    (p : Place) :
    occupants { k with status := Function.update k.status t s } p = k.occupants p :=
  occupants_congr rfl rfl rfl rfl (finished_update hs ht)

theorem runNextThread_safe (h : Ok k.board none) : Safe Inv k.runNextThread := by
  unfold runNextThread
  split
  · exact ⟨by decide, by decide⟩
  · refine resume_safe ⟨?_, rfl⟩
    have hready : k.status k.board.next = .ready := by
      unfold Board.next
      cases hq : k.readyQueue with
      | nil =>
        rcases h.idle with hidle | hidle
        · simpa [board, hq] using hidle
        · cases hidle
      | cons v rest =>
        have hv := (h.ready v).mp (by simp [board, hq])
        simpa [board, hq] using hv.1
    have hne : k.status k.board.next ≠ .finished := by
      rw [hready]
      decide
    exact h.dispatch ⟨rfl, fun u => Function.update_apply k.status k.board.next .running u, rfl,
      occupants_update (by decide) hne⟩

/-- `sleep` of a thread that has entered a waiting place. -/
theorem sleep_safe {b : Board Nat Place} {p : Place} {rest : Rest}
    (h : Ok b (some k.currentThread)) (hidle : k.currentThread ≠ b.idle)
    (hs : k.status k.currentThread ≠ .finished)
    (hb : BlockedAt b k.currentThread p
      (board { k with status := Function.update k.status k.currentThread .blocked })) :
    Safe Inv (k.sleep rest) := by
  unfold sleep
  split
  · exact ⟨by decide, by decide⟩
  · exact runNextThread_safe (h.block hidle hb)

/-- `sleep` of a thread that has finished. -/
theorem sleep_finished_safe {rest : Rest} (h : Ok k.board none)
    (hs : k.status k.currentThread = .finished) : Safe Inv (k.sleep rest) := by
  unfold sleep
  split
  · exact ⟨by decide, by decide⟩
  · exact runNextThread_safe h

theorem Inv.running (h : Inv k) : k.status k.currentThread = .running :=
  (h.ok.running k.currentThread).mpr rfl

/-- `ready` of a thread that is not ready. -/
theorem ready_safe {P : Kernel → Prop} (hs : k.status t ≠ .ready)
    (h : P { k with status := Function.update k.status t .ready
                    readyQueue := if t = idleThread then k.readyQueue else k.readyQueue ++ [t]
                    readied := k.readied ++
                      [⟨t, k.currentThread, k.status k.currentThread == .finished⟩] }) :
    Safe P (k.ready t) := by
  unfold ready
  split
  · exact ⟨by decide, by decide⟩
  · exact h

theorem yieldThen_safe {rest : Rest} (h : Inv k) : Safe Inv (k.yieldThen rest) := by
  have hrunning := h.running
  unfold yieldThen
  rw [if_pos hrunning]
  refine Safe.bind (P := fun k => Ok k.board none) ?_ fun _ => runNextThread_safe
  refine ready_safe (by simp [hrunning]) ?_
  exact h.ok.yield ⟨rfl, fun u => Function.update_apply k.status k.currentThread .ready u, rfl⟩
    (occupants_update (by decide) (by simp [hrunning]))

theorem yield_safe (h : Inv k) : Safe Inv k.yield := by
  refine yieldThen_safe ?_
  exact ⟨h.ok, h.destroyed⟩

theorem fork_safe (h : Inv k) : Safe Inv (k.fork t) := by
  unfold fork
  split
  · rename_i hnew
    refine Safe.bind (P := Inv) ?_ fun k' h' => ?_
    · refine ready_safe (by simp [hnew]) ⟨?_, h.destroyed⟩
      exact h.ok.start hnew ⟨rfl, fun u => Function.update_apply k.status t .ready u, rfl⟩
        (occupants_update (by decide) (by simp [hnew]))
    · exact ⟨h'.ok, h'.destroyed⟩
  · exact ⟨by decide, by decide⟩

/-! ## Waiting -/

/-- The current thread has entered a waiting place, and sleeps. -/
theorem enter_safe {p : Place} {rest : Rest} (h : Inv k) (hidle : k.currentThread ≠ idleThread)
    (hcur : k'.currentThread = k.currentThread) (hstatus : k'.status = k.status)
    (hready : k'.readyQueue = k.readyQueue)
    (hq : ∀ q, (k'.occupants q).Perm
      (if q = p then k.occupants q ++ [k.currentThread] else k.occupants q)) :
    Safe Inv (k'.sleep rest) := by
  have hs : k'.status k'.currentThread ≠ .finished := by
    rw [hcur, hstatus, h.running]
    decide
  refine sleep_safe (b := k.board) (p := p) (hcur ▸ h.ok) (hcur ▸ hidle) hs
    ⟨rfl, fun u => ?_, hready, fun q => ?_⟩
  · show Function.update k'.status k'.currentThread .blocked u =
      if u = k'.currentThread then .blocked else k.status u
    rw [← hstatus]
    exact Function.update_apply k'.status k'.currentThread .blocked u
  · rw [hcur]
    exact (List.Perm.of_eq (hcur ▸ occupants_update (by decide) hs q)).trans (hq q)

theorem waitFor_safe {o : Waitable} {rest : Rest} (h : Inv k)
    (hidle : k.currentThread ≠ idleThread) :
    Safe Inv (k.waitFor o rest) := by
  refine enter_safe (p := .queue o) h hidle rfl rfl rfl fun q => ?_
  cases q with
  | queue o' => by_cases ho : o' = o <;> simp [occupants, ho]
  | alarm | joinedThread t | sleep => simp [occupants]

theorem waitUntil_safe {now x : BitVec 64} (h : Inv k) (hidle : k.currentThread ≠ idleThread) :
    Safe Inv (k.waitUntil now x) := by
  refine enter_safe (p := .alarm) h hidle rfl rfl rfl fun q => ?_
  cases q with
  | alarm =>
    have hperm := ((offer_perm AlarmBucket.compareTo k.alarmQueue ⟨now + x, k.currentThread⟩).trans
      (List.perm_append_singleton _ _).symm).map AlarmBucket.kthread
    simpa [occupants] using hperm
  | queue o | joinedThread t | sleep => simp [occupants]

theorem callSleep_safe (h : Inv k) (hidle : k.currentThread ≠ idleThread) :
    Safe Inv (k.call .sleep) := by
  refine enter_safe (p := .sleep) h hidle rfl rfl rfl fun q => ?_
  cases q <;> simp [occupants]

theorem join_safe (h : Inv k) (hidle : k.currentThread ≠ idleThread) : Safe Inv (k.join t) := by
  unfold join
  split
  · exact ⟨by decide, by decide⟩
  split
  · exact ⟨h.ok, h.destroyed⟩
  rename_i hfinished
  cases hj : k.joinedThread t with
  | some j => exact ⟨h.ok, h.destroyed⟩
  | none =>
    refine enter_safe (p := .joinedThread t) h hidle rfl rfl rfl fun q => ?_
    cases q with
    | joinedThread u =>
      by_cases hu : u = t
      · subst hu
        simp [occupants, hfinished, hj]
      · simp [occupants, hu]
    | queue o | alarm | sleep => simp [occupants]

/-! ## Waking -/

theorem Inv.blocked (h : Inv k) {p : Place} (hu : u ∈ k.occupants p) : k.status u = .blocked :=
  h.ok.waits p u hu

/-- A thread has been taken from a waiting place, and is made ready. -/
theorem ready_wake_safe {p : Place} (h : Inv k) (hu : u ∈ k.occupants p)
    (hcur : k'.currentThread = k.currentThread) (hdestroyed : k'.toBeDestroyed = k.toBeDestroyed)
    (hstatus : k'.status = k.status) (hready : k'.readyQueue = k.readyQueue)
    (hq : ∀ q, (k'.occupants q).Perm
      (if q = p then (k.occupants q).erase u else k.occupants q)) :
    Safe (fun k₁ => Inv k₁ ∧ k₁.currentThread = k.currentThread) (k'.ready u) := by
  have hblocked : k'.status u = .blocked := hstatus ▸ h.blocked hu
  refine ready_safe (by simp [hblocked]) ⟨⟨?_, hdestroyed.trans h.destroyed⟩, hcur⟩
  rw [hcur]
  refine h.ok.wake hu ⟨rfl, fun v => ?_, by simp only [board, hready]; rfl⟩ fun q => ?_
  · show Function.update k'.status u .ready v = if v = u then .ready else k.status v
    rw [← hstatus]
    exact Function.update_apply k'.status u .ready v
  · exact (List.Perm.of_eq (occupants_update (by decide) (by simp [hblocked]) q)).trans (hq q)

theorem readyFirst_safe {o : Waitable} (h : Inv k) (hu : (k.waitQueue o).head? = some u) :
    Safe (fun k' => Inv k' ∧ k'.currentThread = k.currentThread) (k.readyFirst o u) := by
  obtain ⟨rest, hrest⟩ := List.head?_eq_some_iff.mp hu
  have hmem : u ∈ k.occupants (.queue o) := by simp [occupants, hrest]
  refine Safe.bind (ready_wake_safe h hmem rfl rfl rfl rfl fun q => ?_) fun k' h' => ?_
  · cases q with
    | queue o' =>
      by_cases ho : o' = o
      · subst ho
        simp [occupants, hrest]
      · simp [occupants, ho]
    | alarm | joinedThread t | sleep => simp [occupants]
  · exact ⟨⟨h'.1.ok, h'.1.destroyed⟩, h'.2⟩

theorem semaphoreP_safe {s : Nat} (h : Inv k) (hidle : k.currentThread ≠ idleThread) :
    Safe Inv (k.semaphoreP s) := by
  unfold semaphoreP
  split
  · exact waitFor_safe h hidle
  · exact ⟨h.ok, h.destroyed⟩

theorem semaphoreV_safe {s : Nat} (h : Inv k) : Safe Inv (k.semaphoreV s) := by
  unfold semaphoreV
  split
  · rename_i thread hhead
    exact (readyFirst_safe h hhead).mono fun _ h' => h'.1
  · exact ⟨h.ok, h.destroyed⟩

theorem acquire_safe {l : Nat} (h : Inv k) (hidle : k.currentThread ≠ idleThread) :
    Safe Inv (k.acquire l) := by
  have h' : Inv { k with point := Function.update k.point k.currentThread .client } :=
    ⟨h.ok, h.destroyed⟩
  unfold acquire
  dsimp only
  split
  · split
    · exact ⟨by decide, by decide⟩
    · exact waitFor_safe h' hidle
  · split
    · exact ⟨h.ok, h.destroyed⟩
    · exact ⟨by decide, by decide⟩

theorem release_safe {l : Nat} (h : Inv k) :
    Safe (fun k' => Inv k' ∧ k'.currentThread = k.currentThread) (k.release l) := by
  unfold release
  split
  · split
    · rename_i thread hhead
      have h' : Inv { k with lockHolder := Function.update k.lockHolder l (some thread) } :=
        ⟨h.ok, h.destroyed⟩
      exact readyFirst_safe h' hhead
    · exact ⟨⟨h.ok, h.destroyed⟩, rfl⟩
  · exact ⟨by decide, by decide⟩

theorem conditionSleep_safe {c : Nat} (h : Inv k) (hidle : k.currentThread ≠ idleThread) :
    Safe Inv (k.conditionSleep c) := by
  unfold conditionSleep
  split
  · have h' : Inv { k with enabled := false } := ⟨h.ok, h.destroyed⟩
    refine (release_safe h').bind fun k₁ h₁ => ?_
    refine waitFor_safe ⟨h₁.1.ok, h₁.1.destroyed⟩ ?_
    rw [← h₁.2] at hidle
    exact hidle
  · exact ⟨by decide, by decide⟩

theorem wake_safe {c : Nat} (h : Inv k) : Safe Inv (k.wake c) := by
  unfold wake
  split
  · split
    · rename_i thread hhead
      exact (readyFirst_safe h hhead).mono fun _ h' => h'.1
    · exact h
  · exact ⟨by decide, by decide⟩

theorem wakeAllLoop_safe {c : Nat} (h : Inv k) : Safe Inv (k.wakeAllLoop c) := by
  unfold wakeAllLoop
  split
  · exact ⟨h.ok, h.destroyed⟩
  · have h' : Inv { k with point := Function.update k.point k.currentThread (.wakeAll c) } :=
      ⟨h.ok, h.destroyed⟩
    exact wake_safe h'

theorem wakeAll_safe {c : Nat} (h : Inv k) : Safe Inv (k.wakeAll c) := by
  unfold wakeAll
  split
  · exact wakeAllLoop_safe h
  · exact ⟨by decide, by decide⟩

/-! ## The alarm -/

theorem wakeDue_safe {now : BitVec 64} (count : Nat) (h : Inv k) :
    Safe Inv (k.wakeDue now count) := by
  induction count generalizing k with
  | zero => exact h
  | succ count ih =>
    unfold wakeDue
    split
    · exact h
    rename_i placeholder hhead
    split
    · obtain ⟨rest, hqueue⟩ := List.head?_eq_some_iff.mp hhead
      have hthread : placeholder.kthread ∈ k.occupants .alarm := by simp [occupants, hqueue]
      refine Safe.bind (ready_wake_safe h hthread rfl rfl rfl rfl fun q => ?_) fun k' h' => ih h'.1
      cases q with
      | alarm =>
        have hperm := (poll_perm AlarmBucket.compareTo placeholder rest).map AlarmBucket.kthread
        simpa [occupants, hqueue] using hperm
      | queue o | joinedThread t | sleep => simp [occupants]
    · exact h

theorem timerInterrupt_safe {now : BitVec 64} (h : Inv k) : Safe Inv (k.timerInterrupt now) := by
  have h' : Inv { k with enabled := false } := ⟨h.ok, h.destroyed⟩
  exact (wakeDue_safe _ h').bind fun k₁ => yieldThen_safe

/-! ## finish -/

/-- A thread that finishes frees its `joinedThread` field, and the others stay. -/
theorem occupants_finish {q : Place} (hq : k'.waitQueue = k.waitQueue)
    (ha : k'.alarmQueue = k.alarmQueue) (hj : k'.joinedThread = k.joinedThread)
    (hs : k'.sleepers = k.sleepers) (ht : k'.status t = .finished)
    (hf : ∀ u, u ≠ t → (k'.status u = .finished ↔ k.status u = .finished)) :
    k'.occupants q = if q = .joinedThread t then [] else k.occupants q := by
  cases q with
  | joinedThread u =>
    by_cases hu : u = t
    · simp [occupants, hu, ht]
    · simp [occupants, hu, hf u hu, hj]
  | queue o | alarm | sleep => simp [occupants, hq, ha, hs]

/-- `finish` wakes the thread that waits for the current one. -/
theorem finish_safe (h : Inv k) (hidle : k.currentThread ≠ idleThread) : Safe Inv k.finish := by
  have hrunning := h.running
  unfold finish
  rw [if_pos h.destroyed]
  dsimp only
  cases hj : k.joinedThread k.currentThread with
  | none =>
    refine sleep_finished_safe (k := { k with
      enabled := false
      toBeDestroyed := some k.currentThread
      status := Function.update k.status k.currentThread .finished }) ?_ (Function.update_self ..)
    have hfree : ∀ q, occupants { k with
        enabled := false
        toBeDestroyed := some k.currentThread
        status := Function.update k.status k.currentThread .finished } q =
          if q = .joinedThread k.currentThread then [] else k.occupants q :=
      fun q => occupants_finish rfl rfl rfl rfl (Function.update_self ..) fun u hu => by simp [hu]
    refine h.ok.finish hidle rfl (fun u => Function.update_apply k.status k.currentThread .finished u)
      rfl fun q => (hfree q).trans ?_
    split
    · rename_i hq
      simp [board, hq, occupants, hj]
    · rfl
  | some j =>
    have hmem : j ∈ k.occupants (.joinedThread k.currentThread) := by
      simp [occupants, hrunning, hj]
    have hblocked := h.blocked hmem
    have hne : j ≠ k.currentThread := by
      rintro heq
      simp [heq, hrunning] at hblocked
    refine Safe.bind (P := fun k' => Ok k'.board none ∧ k'.status k'.currentThread = .finished)
      (ready_safe ?_ ⟨?_, ?_⟩) fun k' h' => sleep_finished_safe h'.1 h'.2
    · simp [hne, hblocked]
    · -- on the board, the thread that waits is woken before the current one ends
      have hwoken : Ok (r := some k.currentThread) {
          idle := idleThread
          status := Function.update k.status j .ready
          readyQueue := if j = idleThread then k.readyQueue else k.readyQueue ++ [j]
          queue := fun q => if q = .joinedThread k.currentThread then [] else k.occupants q } := by
        refine h.ok.wake (p := .joinedThread k.currentThread) hmem
          ⟨rfl, fun u => Function.update_apply k.status j .ready u, rfl⟩ fun q => ?_
        by_cases hq : q = .joinedThread k.currentThread
        · simp [hq, board, occupants, hrunning, hj]
        · simp [hq, board]
      refine hwoken.finish hidle rfl (fun u => ?_) rfl fun q => ?_
      · show Function.update (Function.update k.status k.currentThread .finished) j .ready u =
          if u = k.currentThread then .finished else Function.update k.status j .ready u
        rw [Function.update_comm hne.symm]
        exact Function.update_apply (Function.update k.status j .ready) k.currentThread .finished u
      · refine occupants_finish rfl rfl rfl rfl ?_ fun u hu => ?_
        · simp [hne.symm]
        · by_cases huj : u = j
          · simp [huj, hblocked]
          · simp [huj, hu]
    · simp [hne.symm]

theorem call_safe (h : Inv k) (hidle : k.currentThread ≠ idleThread) (call : Call) :
    Safe Inv (k.call call) := by
  cases call with
  | fork t => exact fork_safe h
  | yield => exact yield_safe h
  | sleep => exact callSleep_safe h hidle
  | finish => exact finish_safe h hidle
  | join t => exact join_safe h hidle
  | waitUntil now x => exact waitUntil_safe h hidle
  | semaphoreP s => exact semaphoreP_safe h hidle
  | semaphoreV s => exact semaphoreV_safe h
  | acquire l => exact acquire_safe h hidle
  | release l => exact (release_safe h).mono fun _ h' => h'.1
  | conditionSleep c => exact conditionSleep_safe h hidle
  | wake c => exact wake_safe h
  | wakeAll c => exact wakeAll_safe h
  | setStatus status => exact ⟨h.ok, h.destroyed⟩

/-! ## Runs -/

theorem step_safe (h : Inv k) (action : Action) : Safe Inv (k.step action) := by
  cases action with
  | timerInterrupt now =>
    simp only [step]
    split
    · exact timerInterrupt_safe h
    · exact h
  | go call =>
    simp only [step]
    split
    · exact yield_safe h
    rename_i hidle
    split
    · exact acquire_safe h hidle
    · exact wakeAllLoop_safe h
    · exact call_safe h hidle call

theorem boot_inv (conditionLock : Nat → Nat) (value : Nat → Int) :
    Inv (boot conditionLock value) := by
  refine ⟨?_, rfl⟩
  have hoccupants : ∀ q, (boot conditionLock value).board.queue q = [] := by
    intro q
    cases q <;> simp [board, occupants, boot]
  have hstatus : ∀ t, (boot conditionLock value).board.status t =
      if t = 0 then .running else if t = 1 then .ready else .new := fun _ => rfl
  have hidle : (boot conditionLock value).board.idle = 1 := rfl
  have hready : (boot conditionLock value).board.readyQueue = [] := rfl
  have hcur : (boot conditionLock value).currentThread = 0 := rfl
  constructor <;> grind

/-- Every step of a run keeps the invariant. -/
theorem run_inv {actions : List Action} (h : Inv k) (hrun : k.run actions = .ok k') : Inv k' := by
  refine Except.foldlM_invariant (R := fun k k' => Inv k → Inv k') (fun _ => id)
    (fun h₁ h₂ h => h₂ (h₁ h)) ?_ hrun h
  intro k action k' hstep h
  have hsafe := step_safe h action
  rw [hstep] at hsafe
  exact hsafe

/-- The threads are divided among the processor, the ready queue and the waiting places. -/
structure Divided (k : Kernel) : Prop where
  running : ∀ t, k.status t = .running ↔ t = k.currentThread
  ready : ∀ t, t ≠ idleThread → k.status t = .ready → k.readyQueue.count t = 1
  notReady : ∀ t, k.status t = .blocked ∨ k.status t = .new ∨ k.status t = .finished →
    t ∉ k.readyQueue
  blocked : ∀ t, k.status t = .blocked → t ∉ k.sleepers →
    ∃ p, p ≠ .sleep ∧ (k.occupants p).count t = 1 ∧ ∀ q, q ≠ p → t ∉ k.occupants q

theorem Inv.divided (h : Inv k) : Divided k where
  running t := by
    have hrun := h.ok.running t
    rw [Option.some.injEq] at hrun
    exact hrun.trans eq_comm
  ready t ht hs := List.count_eq_one_of_mem h.ok.nodup ((h.ok.ready t).mpr ⟨hs, ht⟩)
  notReady t ht hmem := by
    have hs : k.status t = .ready := ((h.ok.ready t).mp hmem).1
    simp [hs] at ht
  blocked t hs hsleep := by
    obtain ⟨p, hp⟩ := h.ok.placed t hs
    refine ⟨p, ?_, List.count_eq_one_of_mem (h.ok.waitNodup p) hp, fun q hq hmem => ?_⟩
    · rintro rfl
      exact hsleep hp
    · exact hq (h.ok.unique q p t hmem hp)

/-- After every step of every run the threads are divided as they should be, whether
    interrupts are enabled or not, and no step fails the assertions of `ready` and `finish`. -/
theorem run_divided {conditionLock : Nat → Nat} {value : Nat → Int} {actions : List Action}
    (hrun : (boot conditionLock value).run actions = .ok k) :
    Divided k ∧ ∀ action, k.step action ≠ .error .statusReady ∧
      k.step action ≠ .error .toBeDestroyed := by
  have h := run_inv (boot_inv conditionLock value) hrun
  refine ⟨h.divided, fun action => ?_⟩
  have hsafe := step_safe h action
  cases hstep : k.step action with
  | ok k₁ => simp
  | error assertion =>
    rw [hstep] at hsafe
    exact ⟨fun heq => hsafe.1 (Except.error.inj heq), fun heq => hsafe.2 (Except.error.inj heq)⟩

/-! ## The fields themselves -/

/-- What the queues and fields hold. A `joinedThread` is never cleared. -/
def fields (k : Kernel) : Place → List Nat
  | .queue o => k.waitQueue o
  | .alarm => k.alarmQueue.map AlarmBucket.kthread
  | .joinedThread t => (k.joinedThread t).toList
  | .sleep => []

/-- Every blocked thread is in exactly one queue or field. -/
def OneField (k : Kernel) : Prop :=
  ∀ t, k.status t = .blocked → ∃ p, (k.fields p).count t = 1 ∧ ∀ q, q ≠ p → t ∉ k.fields q

/-- The main thread joins thread 2, which finishes, and then waits for a semaphore. -/
def joinThenWait : List Action :=
  [.go (.fork 2), .go (.join 2), .go .finish, .go (.fork 3), .go (.semaphoreP 0)]

/-- The main thread joins thread 2 after it has finished, which leaves interrupts disabled,
    and calls `KThread.sleep`. -/
def joinThenSleep : List Action :=
  [.go (.fork 2), .go .yield, .go .finish, .go (.join 2), .go (.fork 3), .go .sleep]

theorem run_divided_joinThenWait :
    ∃ k, (boot id fun _ => 0).run joinThenWait = .ok k ∧ k.status 0 = .blocked ∧
      k.occupants (.joinedThread 2) = [] ∧ k.occupants (.queue (.semaphore 0)) = [0] ∧ Divided k := by
  obtain ⟨k, hrun, htest⟩ := Except.exists_of_map_eq_ok (r := (boot id fun _ => 0).run joinThenWait)
    (fun k => decide (k.status 0 = .blocked ∧ k.occupants (.joinedThread 2) = [] ∧
      k.occupants (.queue (.semaphore 0)) = [0])) (by decide +kernel)
  obtain ⟨hs, hj, hq⟩ := of_decide_eq_true htest
  exact ⟨k, hrun, hs, hj, hq, (run_divided hrun).1⟩

/-- While interrupts are enabled, a blocked thread is in a queue and in a `joinedThread` field,
    and one that has called `KThread.sleep` is in none. -/
theorem not_oneField :
    (∃ k, (boot id fun _ => 0).run joinThenWait = .ok k ∧ k.enabled = true ∧ ¬ OneField k) ∧
    (∃ k, (boot id fun _ => 0).run joinThenSleep = .ok k ∧ k.enabled = true ∧ ¬ OneField k) := by
  constructor
  · obtain ⟨k, hrun, htest⟩ := Except.exists_of_map_eq_ok (r := (boot id fun _ => 0).run joinThenWait)
      (fun k => decide (k.enabled = true ∧ k.status 0 = .blocked ∧ k.joinedThread 2 = some 0 ∧
        k.waitQueue (.semaphore 0) = [0])) (by decide +kernel)
    obtain ⟨henabled, hs, hj, hq⟩ := of_decide_eq_true htest
    refine ⟨k, hrun, henabled, fun hone => ?_⟩
    obtain ⟨p, -, hother⟩ := hone 0 hs
    by_cases hp : p = .joinedThread 2
    · exact hother (.queue (.semaphore 0)) (by simp [hp]) (by simp [fields, hq])
    · exact hother (.joinedThread 2) (Ne.symm hp) (by simp [fields, hj])
  · have hmap : ((boot id fun _ => 0).run joinThenSleep).map
        (fun k => (k.enabled, k.status 0, k.joinedThread, k.waitQueue, k.alarmQueue)) =
        .ok (true, .blocked, fun _ => none, fun _ => [], []) := rfl
    cases hrun : (boot id fun _ => 0).run joinThenSleep with
    | error e => simp [hrun, Except.map] at hmap
    | ok k =>
      simp only [hrun, Except.map, Except.ok.injEq, Prod.mk.injEq] at hmap
      obtain ⟨henabled, hs, hj, hq, ha⟩ := hmap
      refine ⟨k, rfl, henabled, fun hone => ?_⟩
      obtain ⟨p, hcount, -⟩ := hone 0 hs
      cases p <;> simp [fields, hj, hq, ha] at hcount

end Kernel

end KThread

end Nachos
