import Coursework.Nachos.Returns
import Coursework.Nachos.Spec.StepEffects

/-!
# The interrupt status across a call

A call that gives up the processor returns after any number of steps of other threads, which
change the interrupt status as they like. What a thread finds when it goes on is the status that
it saved itself, so a call preserves the status of its caller if it restores it. `join` and
`waitUntil` disable interrupts and do not.
-/

namespace Nachos

namespace KThread

/-- The call returns with the interrupt status of its caller: it is not one of the two that
    leave interrupts disabled, or they were. -/
def Kernel.Call.Restores (call : Kernel.Call) (before : Kernel) : Prop :=
  match call with
  | .join _ | .waitUntil _ _ => before.enabled = false
  | _ => True

namespace Kernel

variable {k k' : Kernel} {action : Action}

theorem sleep_disabled {r : Rest} (h : k.sleep r = .ok k') : k.enabled = false := by
  unfold sleep at h
  split at h
  · cases h
  · rename_i henabled
    exact Bool.eq_false_iff.mpr henabled

/-- A thread that is in a call when it goes on is not in its own program. -/
theorem point_ne_client {t : Nat} (h : k.depth t ≠ 0) : k.point t ≠ .client := by
  intro hpoint
  unfold depth at h
  rw [hpoint] at h
  exact h rfl

theorem statusAfter_of_depth (h : k.depth k.currentThread ≠ 0) :
    k.statusAfter action = k.enabled := by
  have hpoint := point_ne_client h
  cases action with
  | timerInterrupt now => rfl
  | go call =>
    cases hcur : k.point k.currentThread with
    | client => exact absurd hcur hpoint
    | reacquire l => simp only [statusAfter, hcur, ite_self]
    | wakeAll c => simp only [statusAfter, hcur, ite_self]

/-- The calls that are made in a step restore the interrupt status, if they do, by the end of
    the step or when the thread runs again. -/
theorem made_restores (hstep : k.step action = .ok k') {call : Call}
    (hcall : call ∈ k.made action) :
    k.statusAfter action = k.enabled ↔ call.Restores k := by
  have hsame : ∀ {c : Call}, (c.Restores k ↔ True) → k.statusAfter action = k.enabled →
      (k.statusAfter action = k.enabled ↔ c.Restores k) := by
    intro c hc hs
    exact ⟨fun _ => hc.mpr trivial, fun _ => hs⟩
  cases action with
  | timerInterrupt now => exact absurd hcall List.not_mem_nil
  | go act =>
    simp only [step] at hstep
    by_cases hidle : k.currentThread = idleThread
    · simp only [made, hidle, if_true, List.mem_singleton] at hcall
      subst hcall
      exact hsame Iff.rfl (by simp only [statusAfter, hidle, if_true])
    · rw [if_neg hidle] at hstep
      cases hpoint : k.point k.currentThread with
      | reacquire l =>
        simp only [made, hidle, hpoint, if_false, List.mem_singleton] at hcall
        subst hcall
        exact hsame Iff.rfl (by simp only [statusAfter, hidle, hpoint, if_false])
      | wakeAll c =>
        simp only [made, hidle, hpoint, if_false] at hcall
        split at hcall
        · exact absurd hcall List.not_mem_nil
        · rw [List.mem_singleton] at hcall
          subst hcall
          exact hsame Iff.rfl (by simp only [statusAfter, hidle, hpoint, if_false])
      | client =>
        rw [hpoint] at hstep
        have hafter : k.statusAfter (.go act) = act.statusAfter k := by
          simp only [statusAfter, hidle, hpoint, if_false]
        rw [hafter] at hsame ⊢
        simp only [made, hidle, hpoint, if_false] at hcall
        cases act with
        | finish => exact absurd hcall List.not_mem_nil
        | setStatus b => exact absurd hcall List.not_mem_nil
        | wakeAll c =>
          dsimp only at hcall
          split at hcall
          · rw [List.mem_singleton] at hcall
            subst hcall
            exact hsame Iff.rfl rfl
          · rcases List.mem_cons.mp hcall with rfl | hcall
            · exact hsame Iff.rfl rfl
            · rw [List.mem_singleton] at hcall
              subst hcall
              exact hsame Iff.rfl rfl
        | sleep =>
          rw [List.mem_singleton] at hcall
          subst hcall
          -- the assertion of `sleep`
          have hdisabled : k.enabled = false := sleep_disabled
            (k := { k with sleepers := k.sleepers ++ [k.currentThread] }) hstep
          exact hsame Iff.rfl hdisabled.symm
        | join t | waitUntil now x =>
          rw [List.mem_singleton] at hcall
          subst hcall
          exact eq_comm
        | fork t | yield | semaphoreP s | semaphoreV s | acquire l | release l | conditionSleep c
        | wake c =>
          rw [List.mem_singleton] at hcall
          subst hcall
          exact hsame Iff.rfl rfl

/-- `conditionLock.release()` in `Condition2.sleep`. -/
theorem released_restores {r : Return} (hr : r ∈ k.released action) :
    r.after.enabled = r.before.enabled ∧ ∃ l, r.call = .release l := by
  unfold released at hr
  split at hr
  · split at hr
    · rename_i after hrelease
      rw [List.mem_singleton] at hr
      subst hr
      obtain ⟨woken, -, henabled, -⟩ := release_within hrelease
      exact ⟨henabled, _, rfl⟩
    · exact absurd hr List.not_mem_nil
  · exact absurd hr List.not_mem_nil

end Kernel

namespace History

variable {h h' : History} {action : Kernel.Action}

/-- The calls in progress with those that a step makes. -/
def callsWith (h : History) (action : Kernel.Action) : Nat → List Pending :=
  Function.update h.calls h.kernel.currentThread
    ((h.kernel.made action).map (⟨·, h.kernel⟩) ++ h.calls h.kernel.currentThread)

/-- How many calls return at the end of a step. -/
def returning (h : History) (action : Kernel.Action) (k' : Kernel) : Nat :=
  (h.callsWith action k'.currentThread).length - k'.depth k'.currentThread

theorem step_spec (hstep : h.step action = .ok h') :
    ∃ k', h.kernel.step action = .ok k' ∧ h' = {
      kernel := k'
      calls := Function.update (h.callsWith action) k'.currentThread
        ((h.callsWith action k'.currentThread).drop (h.returning action k'))
      made := h.made ++ (h.kernel.made action).map (h.kernel.currentThread, ·)
      returns := h.returns ++ h.kernel.released action ++
        ((h.callsWith action k'.currentThread).take (h.returning action k')).map
          fun p => ⟨k'.currentThread, p.call, p.before, k'⟩ } := by
  obtain ⟨k', hk, hh⟩ := Except.bind_eq_ok.mp hstep
  exact ⟨k', hk, (Except.ok.inj hh).symm⟩

theorem mem_callsWith {t : Nat} {p : Pending} (hp : p ∈ h.callsWith action t) :
    p ∈ h.calls t ∨ t = h.kernel.currentThread ∧ p.before = h.kernel ∧
      p.call ∈ h.kernel.made action := by
  unfold callsWith at hp
  by_cases ht : t = h.kernel.currentThread
  · subst ht
    rw [Function.update_self] at hp
    rcases List.mem_append.mp hp with hnew | hold
    · obtain ⟨call, hcall, rfl⟩ := List.mem_map.mp hnew
      exact Or.inr ⟨rfl, rfl, hcall⟩
    · exact Or.inl hold
  · rw [Function.update_of_ne ht] at hp
    exact Or.inl hp

/-- The calls in progress after a step were so before it, or have been made in it. -/
theorem mem_calls_step {k' : Kernel} {t : Nat} {p : Pending}
    (hp : p ∈ Function.update (h.callsWith action) k'.currentThread
      ((h.callsWith action k'.currentThread).drop (h.returning action k')) t) :
    p ∈ h.callsWith action t := by
  by_cases ht : t = k'.currentThread
  · subst ht
    rw [Function.update_self] at hp
    exact List.mem_of_mem_drop hp
  · rw [Function.update_of_ne ht] at hp
    exact hp

/-- What holds after every step: a thread goes on with the status of the callers of the calls
    that it is in. -/
structure Saved (h : History) : Prop where
  inv : Kernel.Inv h.kernel
  depth : (h.calls h.kernel.currentThread).length ≤ h.kernel.depth h.kernel.currentThread
  isNew : ∀ t, h.kernel.status t = .new → h.calls t = []
  pending : ∀ t, ∀ p ∈ h.calls t,
    h.kernel.statusOf t = p.before.enabled ↔ p.call.Restores p.before
  returns : ∀ r ∈ h.returns, r.after.enabled = r.before.enabled ↔ r.call.Restores r.before

theorem Saved.callsWith (hs : Saved h) {k' : Kernel} (hk : h.kernel.step action = .ok k')
    {t : Nat} {p : Pending} (hp : p ∈ h.callsWith action t) :
    k'.statusOf t = p.before.enabled ↔ p.call.Restores p.before := by
  have hrunning := hs.inv.running
  rcases mem_callsWith hp with hold | ⟨rfl, hbefore, hcall⟩
  · have hnew : h.kernel.status t ≠ .new := by
      intro hnew
      rw [hs.isNew t hnew] at hold
      exact absurd hold List.not_mem_nil
    rw [Kernel.step_statusOf hs.inv hk hnew]
    by_cases ht : t = h.kernel.currentThread
    · subst ht
      -- the thread is in a call, so the step is not one of its program
      have hdepth : h.kernel.depth h.kernel.currentThread ≠ 0 := by
        have hpos := List.length_pos_of_mem hold
        have hle := hs.depth
        omega
      have hpending := hs.pending _ p hold
      rw [Kernel.statusOf_current] at hpending
      rw [if_pos rfl, Kernel.statusAfter_of_depth hdepth]
      exact hpending
    · rw [if_neg ht]
      exact hs.pending t p hold
  · have hnew : h.kernel.status h.kernel.currentThread ≠ .new := by
      rw [hrunning]
      decide
    rw [Kernel.step_statusOf hs.inv hk hnew, if_pos rfl, hbefore]
    exact Kernel.made_restores hk hcall

theorem Saved.step (hs : Saved h) (hstep : h.step action = .ok h') : Saved h' := by
  obtain ⟨k', hk, rfl⟩ := step_spec hstep
  constructor
  · exact hs.inv.step hk
  · dsimp only
    -- so many calls return that the thread is as deep as its point says
    rw [Function.update_self, List.length_drop]
    unfold returning
    omega
  · intro t ht
    have hnew := Kernel.step_isNew hs.inv hk ht
    -- a new thread has made no call, and the step is not one of it
    have hcur : t ≠ h.kernel.currentThread := by
      rintro rfl
      rw [hs.inv.running] at hnew
      cases hnew
    have hnil : h.callsWith action t = [] := by
      unfold History.callsWith
      rw [Function.update_of_ne hcur]
      exact hs.isNew t hnew
    apply List.eq_nil_iff_forall_not_mem.mpr
    intro p hp
    have hmem := mem_calls_step hp
    rw [hnil] at hmem
    exact absurd hmem List.not_mem_nil
  · intro t p hp
    exact hs.callsWith hk (mem_calls_step hp)
  · intro r hr
    rcases List.mem_append.mp hr with hr | hr
    · rcases List.mem_append.mp hr with hold | hreleased
      · exact hs.returns r hold
      · -- the release inside `Condition2.sleep` begins and ends with interrupts disabled
        obtain ⟨hsame, l, hcall⟩ := Kernel.released_restores hreleased
        rw [hcall]
        exact ⟨fun _ => trivial, fun _ => hsame⟩
    · obtain ⟨p, hp, rfl⟩ := List.mem_map.mp hr
      -- a call that returns does so with what its thread has saved
      have hpending := hs.callsWith hk (List.mem_of_mem_take hp)
      rw [Kernel.statusOf_current] at hpending
      exact hpending

theorem saved_boot (conditionLock : Nat → Nat) (value : Nat → Int) :
    Saved (boot conditionLock value) where
  inv := Kernel.boot_inv conditionLock value
  depth := Nat.zero_le _
  isNew _ _ := rfl
  pending _ _ hp := absurd hp List.not_mem_nil
  returns _ hr := absurd hr List.not_mem_nil

theorem Saved.run {actions : List Kernel.Action} (hs : Saved h) (hrun : h.run actions = .ok h') :
    Saved h' := by
  refine Except.foldlM_invariant (R := fun h h' => Saved h → Saved h') (fun _ => id)
    (fun h₁ h₂ hs => h₂ (h₁ hs)) ?_ hrun hs
  intro h action h' hstep hs
  exact hs.step hstep

/-- In every run, a call that returns does so with the interrupt status that its thread had when
    it made the call, exactly when it is neither `join` nor `waitUntil` or interrupts were
    disabled. -/
theorem run_statusPreserved_iff {conditionLock : Nat → Nat} {value : Nat → Int}
    {actions : List Kernel.Action} (hrun : (boot conditionLock value).run actions = .ok h) :
    ∀ r ∈ h.returns, r.after.enabled = r.before.enabled ↔ r.call.Restores r.before :=
  ((saved_boot conditionLock value).run hrun).returns

/-- The main thread holds lock 0 and sleeps on condition 0; thread 2 wakes it and leaves. -/
def sleepAndWake : List Kernel.Action :=
  [.go (.fork 2), .go (.acquire 0), .go (.conditionSleep 0), .go (.acquire 0), .go (.wakeAll 0),
    .go .yield, .go (.release 0), .timerInterrupt 500, .go .yield]

theorem run_statusPreserved_iff_sleepAndWake :
    ∃ h, (boot id fun _ => 0).run sleepAndWake = .ok h ∧
      (h.returns.any fun r => r.thread == 0 && r.call == .conditionSleep 0) = true ∧
      ∀ r ∈ h.returns, r.after.enabled = r.before.enabled ↔ r.call.Restores r.before := by
  obtain ⟨h, hrun, htest⟩ := Except.exists_of_map_eq_ok
    (r := (boot id fun _ => 0).run sleepAndWake)
    (fun h => h.returns.any fun r => r.thread == 0 && r.call == .conditionSleep 0)
    (by decide +kernel)
  exact ⟨h, hrun, htest, run_statusPreserved_iff hrun⟩

/-- The main thread joins thread 2, which finishes; it enables interrupts again and waits until
    time 5. -/
def joinAndWait : List Kernel.Action :=
  [.go (.fork 2), .go (.join 2), .go .finish, .go (.setStatus true), .go (.waitUntil 0 5),
    .timerInterrupt 10]

/-- `join` and `waitUntil` are called with interrupts enabled and return with interrupts
    disabled. -/
theorem not_statusPreserved_joinAndWait :
    ∃ h, (boot id fun _ => 0).run joinAndWait = .ok h ∧
      (∃ r ∈ h.returns, r.call = .join 2 ∧ r.before.enabled = true ∧ r.after.enabled = false) ∧
      ∃ r ∈ h.returns, r.call = .waitUntil 0 5 ∧ r.before.enabled = true ∧
        r.after.enabled = false := by
  obtain ⟨h, hrun, htest⟩ := Except.exists_of_map_eq_ok
    (r := (boot id fun _ => 0).run joinAndWait)
    (fun h => decide ((∃ r ∈ h.returns, r.call = .join 2 ∧ r.before.enabled = true ∧
      r.after.enabled = false) ∧ ∃ r ∈ h.returns, r.call = .waitUntil 0 5 ∧
      r.before.enabled = true ∧ r.after.enabled = false))
    (by decide +kernel)
  exact ⟨h, hrun, of_decide_eq_true htest⟩

end History

end KThread

end Nachos
