import Coursework.Nachos.Spec.InterruptStatus

/-!
# Joining a thread

A thread that joins another stores itself in the field `joinedThread` of the other and sleeps,
and the other wakes it in `finish`. Between the two are any number of steps, of these threads
and of others. Nothing else wakes the thread that waits, as it waits at one place only, and no
`finish` misses it, as interrupts are disabled from the test of the status to the sleep.
-/

namespace Nachos

namespace KThread

namespace Kernel

variable {k k' k₀ before : Kernel} {action : Action} {b : Bool} {woken : List Nat} {j t u : Nat}

/-! ## A thread that has finished -/

/-- A thread that has finished is at none of the places from which threads go on. -/
theorem Inv.finished_nowhere (h : Inv k) (ht : k.status t = .finished) :
    t ∉ k.readyQueue ∧ t ≠ idleThread ∧ t ≠ k.currentThread ∧ ∀ p, t ∉ k.occupants p := by
  refine ⟨fun hmem => ?_, fun hidle => ?_, fun hcur => ?_, fun p hmem => ?_⟩
  · have hready : k.status t = .ready := ((h.ok.ready t).mp hmem).1
    rw [ht] at hready
    cases hready
  · rcases h.ok.idle with hready | hrunning
    · have hstatus : k.status idleThread = .ready := hready
      rw [← hidle, ht] at hstatus
      cases hstatus
    · have hcur : k.currentThread = idleThread := Option.some.inj hrunning
      have hstatus := h.running
      rw [hcur, ← hidle, ht] at hstatus
      cases hstatus
  · have hrunning := h.running
    rw [← hcur, ht] at hrunning
    cases hrunning
  · have hblocked := h.blocked hmem
    rw [ht] at hblocked
    cases hblocked

/-- The thread that has joined the current one waits. -/
theorem Inv.joinedThread_current (h : Inv k) (hj : k.joinedThread k.currentThread = some j) :
    j ∈ k.occupants (.joinedThread k.currentThread) := by
  simp only [occupants, h.running, hj]
  exact List.mem_cons_self

/-- A thread that has finished has finished for good. -/
theorem step_finished (hinv : Inv k) (h : k.step action = .ok k') (ht : k.status t = .finished) :
    k'.status t = .finished := by
  obtain ⟨hqueue, hidle, hcur, hplace⟩ := hinv.finished_nowhere ht
  cases step_effect hinv h with
  | finish hc hf =>
    have hended : k.ended.status t = .finished := by
      rw [ended_status, if_neg hcur]
      exact ht
    apply hf.effect.lasts t hended hqueue hidle
    intro hmem
    -- only a thread that waits for the current one is woken
    exact hplace _ (hinv.joinedThread_current (Option.mem_toList.mp hmem))
  | join u hc hj =>
    cases hj with
    | atOnce _ after =>
      rw [after]
      exact ht
    | sleeps _ _ _ effect => exact effect.lasts t ht hqueue hidle List.not_mem_nil
  | ordinary _ effect =>
    obtain ⟨woken, heffect, hwoken⟩ := effect
    apply heffect.lasts t ht hqueue hidle
    intro hmem
    -- what is woken was new, was waiting, or runs; a finished thread is none of these
    rcases hwoken t hmem with hself | hnew | ⟨p, -, hp⟩
    · exact hcur hself
    · rw [ht] at hnew
      cases hnew
    · exact hplace p hp

/-! ## A thread that waits in a join -/

/-- The calls of `ready` for thread `j` between two states of a run. -/
def readiedSince (before after : Kernel) (j : Nat) : List Readied :=
  (after.readied.drop before.readied.length).filter fun r => r.thread == j

theorem readiedSince_append {new : List Readied}
    (hlength : before.readied.length ≤ k.readied.length) (h : k'.readied = k.readied ++ new) :
    readiedSince before k' j = readiedSince before k j ++ new.filter fun r => r.thread == j := by
  unfold readiedSince
  rw [h, List.drop_append_of_le_length hlength, List.filter_append]

/-- Thread `j` is in the `join` of thread `t` that it has called in the state `before`, and has
    stored itself. -/
structure Waiting (k : Kernel) (j t : Nat) (before : Kernel) : Prop where
  unfinished : before.status t ≠ .finished
  registered : k.joinedThread t = some j
  client : k.point j = .client
  alive : k.status j ≠ .new ∧ k.status j ≠ .finished
  awake : k.status t = .finished → k.status j ≠ .blocked
  length : before.readied.length ≤ k.readied.length
  readied : readiedSince before k j = if k.status t = .finished then [⟨j, t, true⟩] else []

/-- As long as the target has not finished, the thread is at its place and at no other. -/
theorem Waiting.place (h : Waiting k j t before) (ht : k.status t ≠ .finished) :
    j ∈ k.occupants (.joinedThread t) := by
  simp only [occupants, if_neg ht, h.registered]
  exact List.mem_cons_self

theorem Waiting.blocked (h : Waiting k j t before) (hinv : Inv k) (ht : k.status t ≠ .finished) :
    k.status j = .blocked :=
  hinv.blocked (h.place ht)

/-- If the thread waits at a place, it is the target's. -/
theorem Waiting.unique (h : Waiting k j t before) (hinv : Inv k) {p : Place}
    (hp : j ∈ k.occupants p) : p = .joinedThread t := by
  by_cases ht : k.status t = .finished
  · exact absurd (hinv.blocked hp) (h.awake ht)
  · exact hinv.ok.unique p (.joinedThread t) j hp (h.place ht)

theorem Waiting.congr (h : Waiting k j t before) (ht : k₀.status t = k.status t)
    (hj : k₀.status j = k.status j) (hjoined : k₀.joinedThread t = k.joinedThread t)
    (hpoint : k₀.point j = k.point j) (hreadied : k₀.readied = k.readied) :
    Waiting k₀ j t before where
  unfinished := h.unfinished
  registered := hjoined.trans h.registered
  client := hpoint.trans h.client
  alive := by
    rw [hj]
    exact h.alive
  awake := by
    rw [ht, hj]
    exact h.awake
  length := by
    rw [hreadied]
    exact h.length
  readied := by
    have hsince : readiedSince before k₀ j = readiedSince before k j := by
      unfold readiedSince
      rw [hreadied]
    rw [hsince, ht]
    exact h.readied

/-- Another thread makes a step that does not wake the thread and does not end the target. -/
theorem Waiting.effect (h : Waiting k j t before) (heffect : Effect k b woken k')
    (hcur : j ≠ k.currentThread) (hwoken : j ∉ woken)
    (ht : k.status t = .finished → k'.status t = .finished) : Waiting k' j t before := by
  have hiff : k'.status t = .finished ↔ k.status t = .finished := ⟨heffect.finished t, ht⟩
  -- the new entries of the log are not the thread's
  have hnone : (woken.map fun u => (⟨u, k.currentThread, k.status k.currentThread == .finished⟩ :
      Readied)).filter (fun r => r.thread == j) = [] := by
    rw [List.filter_eq_nil_iff]
    intro r hr
    obtain ⟨u, hu, rfl⟩ := List.mem_map.mp hr
    show ¬ (u == j) = true
    rw [beq_iff_eq]
    intro heq
    exact hwoken (heq ▸ hu)
  constructor
  · exact h.unfinished
  · rw [heffect.joined]
    exact h.registered
  · rw [heffect.point j hcur]
    exact h.client
  · exact ⟨fun hnew => h.alive.1 (heffect.isNew j hnew),
      fun hfinished => h.alive.2 (heffect.finished j hfinished)⟩
  · intro hfinished hblocked
    -- only the current thread can have gone to sleep
    rcases heffect.blocked j hblocked with hself | hbefore
    · exact hcur hself
    · exact h.awake (hiff.mp hfinished) hbefore
  · rw [heffect.readied, List.length_append]
    have hlength := h.length
    omega
  · rw [readiedSince_append h.length heffect.readied, hnone, List.append_nil, h.readied]
    simp only [hiff]

/-- The target finishes: it makes the thread ready. -/
theorem Waiting.finish (h : Waiting k j k.currentThread before) (hinv : Inv k)
    (hf : Finished k k') : Waiting k' j k.currentThread before := by
  have hne : j ≠ k.currentThread := by
    intro heq
    have hmem := hinv.joinedThread_current h.registered
    exact hinv.current_notMem (heq ▸ hmem)
  have hunfinished : k.status k.currentThread ≠ .finished := by
    rw [hinv.running]
    decide
  -- the one entry that `finish` adds to the log
  have hwoken : k'.readied = k.readied ++ [⟨j, k.currentThread, true⟩] := by
    have hreadied := hf.effect.readied
    have hended : k.ended.status k.ended.currentThread = .finished := Function.update_self ..
    rw [hended, h.registered] at hreadied
    exact hreadied
  -- the joiner is another thread, so its status is from before the `finish`
  have hstatus : k.ended.status j = k.status j := by
    rw [ended_status, if_neg hne]
  constructor
  · exact h.unfinished
  · rw [hf.effect.joined]
    exact h.registered
  · rw [hf.effect.point j hne]
    exact h.client
  · refine ⟨fun hnew => h.alive.1 ?_, fun hfinished => h.alive.2 ?_⟩
    · rw [← hstatus]
      exact hf.effect.isNew j hnew
    · rw [← hstatus]
      exact hf.effect.finished j hfinished
  · exact fun _ => hf.awake j h.registered
  · rw [hwoken, List.length_append]
    have hlength := h.length
    omega
  · -- there was no entry before, as the target had not finished
    rw [readiedSince_append h.length hwoken, h.readied, if_neg hunfinished, if_pos hf.ended]
    simp only [List.nil_append, List.filter_cons, beq_self_eq_true, if_true, List.filter_nil]

/-- A step of another thread. -/
theorem Waiting.step (h : Waiting k j t before) (hinv : Inv k) (hcur : j ≠ k.currentThread)
    (hstep : k.step action = .ok k') : Waiting k' j t before := by
  have hlasts := step_finished (t := t) hinv hstep
  cases step_effect hinv hstep with
  | finish hc hf =>
    by_cases ht : t = k.currentThread
    · subst ht
      exact h.finish hinv hf
    · have hstatus : k.ended.status t = k.status t := by rw [ended_status, if_neg ht]
      have hended : Waiting k.ended j t before := by
        refine h.congr hstatus ?_ rfl rfl rfl
        rw [ended_status, if_neg hcur]
      refine hended.effect hf.effect hcur (fun hmem => ?_) ?_
      · -- whoever the current thread wakes has joined it
        have hplace := hinv.joinedThread_current (Option.mem_toList.mp hmem)
        have heq := h.unique hinv hplace
        exact ht (Place.joinedThread.inj heq).symm
      · rw [hstatus]
        exact hlasts
  | join u hc hj =>
    cases hj with
    | atOnce _ after =>
      rw [after]
      exact h.congr rfl rfl rfl rfl rfl
    | sleeps _ free _ effect =>
      have hne : t ≠ u := by
        intro heq
        have hregistered := h.registered
        rw [heq, free] at hregistered
        cases hregistered
      have hregistered : Waiting (k.registered u) j t before :=
        h.congr rfl rfl (Function.update_of_ne hne ..) rfl rfl
      exact hregistered.effect effect hcur List.not_mem_nil hlasts
  | ordinary _ effect =>
    obtain ⟨woken, heffect, hwoken⟩ := effect
    refine h.effect heffect hcur (fun hmem => ?_) hlasts
    rcases hwoken j hmem with hself | hnew | ⟨p, hp, hplace⟩
    · exact hcur hself
    · exact h.alive.1 hnew
    · exact hp t (h.unique hinv hplace)

/-! ## The call -/

/-- The current thread joins `t`, which has not finished, and sleeps. -/
theorem Waiting.start (hinv : Inv k) (hpoint : k.point k.currentThread = .client)
    (alive : k.status t ≠ .finished) (point : k'.point = k.point)
    (effect : Effect (k.registered t) false [] k') : Waiting k' k.currentThread t k := by
  -- `join` wakes nobody, and so the target is as unfinished as before
  have hreadied : k'.readied = k.readied ++ [] := effect.readied
  have ht : k'.status t ≠ .finished := fun hfinished => alive (effect.finished t hfinished)
  constructor
  · exact alive
  · rw [effect.joined]
    exact Function.update_self ..
  · rw [point]
    exact hpoint
  · have hrunning := hinv.running
    refine ⟨fun hnew => ?_, fun hfinished => ?_⟩
    · have hstatus : k.status k.currentThread = .new := effect.isNew _ hnew
      rw [hrunning] at hstatus
      cases hstatus
    · have hstatus : k.status k.currentThread = .finished := effect.finished _ hfinished
      rw [hrunning] at hstatus
      cases hstatus
  · exact fun hfinished => absurd hfinished ht
  · have hsame : k'.readied = k.readied := hreadied.trans (List.append_nil _)
    exact Nat.le_of_eq (congrArg List.length hsame.symm)
  · rw [readiedSince_append (Nat.le_refl _) hreadied, if_neg ht]
    unfold readiedSince
    rw [List.drop_length]
    rfl

/-- A thread joins only outside its other calls. -/
theorem calls_of_join_mem_made (h : .join t ∈ k.made action) : k.Calls (.join t) action := by
  cases action with
  | timerInterrupt now => exact absurd h List.not_mem_nil
  | go call =>
    by_cases hidle : k.currentThread = idleThread
    · simp [made, hidle] at h
    · cases hpoint : k.point k.currentThread with
      | reacquire l => simp [made, hidle, hpoint] at h
      | wakeAll c =>
        simp only [made, hidle, hpoint, if_false] at h
        split at h <;> simp at h
      | client =>
        simp only [made, hidle, hpoint, if_false] at h
        cases call with
        | join u =>
          obtain rfl : t = u := by simpa using h
          exact ⟨rfl, hidle, hpoint⟩
        | wakeAll c =>
          dsimp only at h
          split at h <;> simp at h
        | _ => simp at h

theorem made_of_calls (h : k.Calls (.join t) action) : k.made action = [.join t] := by
  obtain ⟨rfl, hidle, hpoint⟩ := h
  simp only [made, hidle, hpoint, if_false]

/-- A step registers a thread only by a `join`. -/
theorem step_joinedThread (hinv : Inv k) (h : k.step action = .ok k')
    (hj : k'.joinedThread t = some j) :
    k.joinedThread t = some j ∨ k.Calls (.join t) action := by
  cases step_effect hinv h with
  | finish hc hf =>
    rw [hf.effect.joined] at hj
    exact Or.inl hj
  | join u hc hjoins =>
    cases hjoins with
    | atOnce _ after =>
      rw [after] at hj
      exact Or.inl hj
    | sleeps _ _ _ effect =>
      by_cases htu : t = u
      · subst htu
        exact Or.inr hc
      · rw [effect.joined] at hj
        have hother : (k.registered u).joinedThread t = k.joinedThread t :=
          Function.update_of_ne htu ..
        exact Or.inl (hother ▸ hj)
  | ordinary _ effect =>
    obtain ⟨woken, heffect, -⟩ := effect
    rw [heffect.joined] at hj
    exact Or.inl hj

/-! ## Interrupts in `join` -/

/-- Timer interrupts come between two statements of the current thread. They are taken if
    interrupts are enabled. -/
def offered (k : Kernel) (times : List (BitVec 64)) : Except Assertion Kernel :=
  times.foldlM (fun k now => k.step (.timerInterrupt now)) k

/-- `join()`, with the timer interrupts that come before its test of the status, before its test
    of the field, before it stores the current thread, and before it sleeps. -/
def joinStatements (k : Kernel) (t : Nat) (atStatus atField atStore atSleep : List (BitVec 64)) :
    Except Assertion Kernel :=
  if t = k.currentThread then .error .currentThread
  else do
    let k ← { k with enabled := false }.offered atStatus
    if k.status t = .finished then .ok k
    else do
      let k ← k.offered atField
      match k.joinedThread t with
      | none => do
        let k ← k.offered atStore
        let k ← { k with joinedThread :=
          Function.update k.joinedThread t (some k.currentThread) }.offered atSleep
        k.sleep .ret
      | some _ => .ok k

/-- While interrupts are disabled, none is taken. -/
theorem offered_disabled (h : k.enabled = false) (times : List (BitVec 64)) :
    k.offered times = .ok k := by
  unfold offered
  induction times with
  | nil => rfl
  | cons now times ih =>
    have hstep : k.step (.timerInterrupt now) = .ok k := by
      simp only [step, h]
      rfl
    rw [List.foldlM_cons, hstep]
    exact ih

theorem offered_bind (h : k.enabled = false) (times : List (BitVec 64))
    (f : Kernel → Except Assertion Kernel) : (k.offered times >>= f) = f k := by
  rw [offered_disabled h]
  rfl

/-- No interrupt is taken from the test of the status to the sleep, so `join` is one step. -/
theorem joinStatements_eq_join (k : Kernel) (t : Nat)
    (atStatus atField atStore atSleep : List (BitVec 64)) :
    k.joinStatements t atStatus atField atStore atSleep = k.join t := by
  unfold joinStatements join
  by_cases hself : t = k.currentThread
  · rw [if_pos hself, if_pos hself]
  rw [if_neg hself, if_neg hself, offered_bind rfl]
  by_cases hfinished : k.status t = .finished
  · rw [if_pos hfinished, if_pos hfinished]
  rw [if_neg hfinished, if_neg hfinished, offered_bind rfl]
  cases hjoined : k.joinedThread t with
  | none =>
    -- the store leaves interrupts disabled
    dsimp only
    rw [offered_bind rfl, offered_bind rfl]
  | some j => rfl

end Kernel

namespace History

variable {h h' : History} {action : Kernel.Action} {j t : Nat}

/-! ## Runs -/

/-- The threads that have been joined, once for each call. -/
def joins (h : History) : List Nat :=
  h.made.filterMap fun m =>
    match m.2 with
    | .join t => some t
    | _ => none

/-- Every thread has been joined at most once. -/
def JoinedOnce (h : History) : Prop := h.joins.Nodup

/-- The law for a `join` of thread `t` that has returned: the thread has finished; if it had when
    it was joined, the caller went on at once, and if it had not, its `finish` made the caller
    ready, once. -/
structure Joined (r : Return) (t : Nat) : Prop where
  finished : r.after.status t = .finished
  atOnce : r.before.status t = .finished → r.after = { r.before with enabled := false }
  woken : r.before.status t ≠ .finished →
    Kernel.readiedSince r.before r.after r.thread = [⟨r.thread, t, true⟩]

/-- The law for a `join` of thread `t` by `j` in progress: the caller sleeps as long as the thread
    has not finished, and is ready when it has. -/
structure Joining (k : Kernel) (j t : Nat) (before : Kernel) : Prop where
  unfinished : before.status t ≠ .finished
  asleep : k.status t ≠ .finished →
    k.status j = .blocked ∧ k.joinedThread t = some j ∧ Kernel.readiedSince before k j = []
  awake : k.status t = .finished →
    k.status j = .ready ∧ Kernel.readiedSince before k j = [⟨j, t, true⟩]

/-- A call with which a step ends or goes on: it waits in a `join`, or has found the target
    finished. -/
def InJoin (k : Kernel) (j t : Nat) (before : Kernel) : Prop :=
  Kernel.Waiting k j t before ∨
    j = k.currentThread ∧ k.point j = .client ∧ before.status t = .finished ∧
      k = { before with enabled := false }

/-- What holds after every step, as long as every thread has been joined at most once. -/
structure JoinInv (h : History) : Prop where
  saved : Saved h
  registered : ∀ t j, h.kernel.joinedThread t = some j → t ∈ h.joins
  waiting : ∀ j, ∀ p ∈ h.calls j, ∀ t, p.call = .join t → Kernel.Waiting h.kernel j t p.before
  returned : ∀ r ∈ h.returns, ∀ t, r.call = .join t → Joined r t

theorem joins_step (hstep : h.step action = .ok h') :
    h'.joins = h.joins ++ (h.kernel.made action).filterMap fun call =>
      match call with
      | .join t => some t
      | _ => none := by
  obtain ⟨k', -, rfl⟩ := step_spec hstep
  unfold joins
  dsimp only
  rw [List.filterMap_append, List.filterMap_map]
  rfl

theorem joins_calls (hstep : h.step action = .ok h') (hc : h.kernel.Calls (.join t) action) :
    h'.joins = h.joins ++ [t] := by
  rw [joins_step hstep, Kernel.made_of_calls hc]
  rfl

/-- A thread in no call has none in progress. -/
theorem Saved.calls_of_client (hs : Saved h)
    (hpoint : h.kernel.point h.kernel.currentThread = .client) :
    h.calls h.kernel.currentThread = [] := by
  have hdepth := hs.depth
  unfold Kernel.depth at hdepth
  rw [hpoint] at hdepth
  exact List.length_eq_zero_iff.mp (Nat.le_zero.mp hdepth)

/-- The thread that waits is another than the current one. -/
theorem JoinInv.ne_current (hi : JoinInv h) {p : Pending} (hp : p ∈ h.calls j)
    (hcall : p.call = .join t) : j ≠ h.kernel.currentThread := by
  intro heq
  subst heq
  have hpoint := (hi.waiting _ p hp t hcall).client
  rw [hi.saved.calls_of_client hpoint] at hp
  exact absurd hp List.not_mem_nil

/-- The joins in progress at the end of a step, before calls return. -/
theorem JoinInv.callsWith (hi : JoinInv h) (hstep : h.step action = .ok h')
    (honce : h'.JoinedOnce) {p : Pending} (hp : p ∈ h.callsWith action j)
    (hcall : p.call = .join t) : InJoin h'.kernel j t p.before := by
  have hjoins : h.kernel.Calls (.join t) action → h'.joins = h.joins ++ [t] := joins_calls hstep
  obtain ⟨k', hk, rfl⟩ := step_spec hstep
  have hinv := hi.saved.inv
  rcases mem_callsWith hp with hold | ⟨rfl, hbefore, hmade⟩
  · have hwaiting := hi.waiting j p hold t hcall
    exact Or.inl (hwaiting.step hinv (hi.ne_current hold hcall) hk)
  · rw [hcall] at hmade
    have hc := Kernel.calls_of_join_mem_made hmade
    -- nobody is stored in the field yet
    have hfree : h.kernel.joinedThread t = none := by
      cases hj : h.kernel.joinedThread t with
      | none => rfl
      | some j =>
        have hmem := hi.registered t j hj
        unfold JoinedOnce at honce
        rw [hjoins hc, List.nodup_append] at honce
        exact absurd rfl (honce.2.2 t hmem t (List.mem_singleton.mpr rfl))
    rw [hbefore]
    obtain ⟨rfl, hidle, hpoint⟩ := hc
    have hjoin : h.kernel.join t = .ok k' := by
      simp only [Kernel.step, if_neg hidle, hpoint] at hk
      exact hk
    cases Kernel.join_joins hjoin with
    | atOnce hreason after =>
      have hfinished : h.kernel.status t = .finished :=
        hreason.resolve_right fun hjoined => hjoined hfree
      refine Or.inr ⟨?_, ?_, hfinished, after⟩
      · show h.kernel.currentThread = k'.currentThread
        rw [after]
      · show k'.point h.kernel.currentThread = .client
        rw [after]
        exact hpoint
    | sleeps alive free point effect =>
      exact Or.inl (Kernel.Waiting.start hinv hpoint alive point effect)

/-- A `join` returns to the thread that runs. -/
theorem joined_of_inJoin {k : Kernel} (hinv : k.Inv) {p : Pending}
    (hj : InJoin k k.currentThread t p.before) :
    Joined ⟨k.currentThread, p.call, p.before, k⟩ t := by
  rcases hj with hwaiting | ⟨-, -, hfinished, hafter⟩
  · have ht : k.status t = .finished := by
      by_contra ht
      have hblocked := hwaiting.blocked hinv ht
      rw [hinv.running] at hblocked
      cases hblocked
    have hreadied := hwaiting.readied
    rw [if_pos ht] at hreadied
    exact ⟨ht, fun hbefore => absurd hbefore hwaiting.unfinished, fun _ => hreadied⟩
  · refine ⟨?_, fun _ => hafter, fun hbefore => absurd hfinished hbefore⟩
    show k.status t = .finished
    rw [hafter]
    exact hfinished

theorem JoinInv.step (hi : JoinInv h) (hstep : h.step action = .ok h') (honce : h'.JoinedOnce) :
    JoinInv h' := by
  have hsaved := hi.saved.step hstep
  have hcalls : ∀ j, ∀ p ∈ h.callsWith action j, ∀ t, p.call = .join t →
      InJoin h'.kernel j t p.before :=
    fun j p hp t hcall => hi.callsWith hstep honce hp hcall
  have hjoins : ∀ t, h.kernel.Calls (.join t) action → h'.joins = h.joins ++ [t] :=
    fun t => joins_calls hstep
  have hgrows := joins_step hstep
  obtain ⟨k', hk, rfl⟩ := step_spec hstep
  constructor
  · exact hsaved
  · intro t j hj
    rcases Kernel.step_joinedThread hi.saved.inv hk hj with hold | hc
    · rw [hgrows]
      exact List.mem_append_left _ (hi.registered t j hold)
    · rw [hjoins t hc]
      exact List.mem_append_right _ (List.mem_singleton.mpr rfl)
  · intro j p hp t hcall
    rcases hcalls j p (mem_calls_step hp) t hcall with hwaiting | ⟨hj, hpoint, -⟩
    · exact hwaiting
    · -- the thread goes on with its program, so it is in no call any more
      subst hj
      have hnil := hsaved.calls_of_client hpoint
      rw [hnil] at hp
      exact absurd hp List.not_mem_nil
  · intro r hr t hcall
    rcases List.mem_append.mp hr with hr | hr
    · rcases List.mem_append.mp hr with hold | hreleased
      · exact hi.returned r hold t hcall
      · obtain ⟨-, l, hrelease⟩ := Kernel.released_restores hreleased
        rw [hrelease] at hcall
        cases hcall
    · obtain ⟨p, hp, rfl⟩ := List.mem_map.mp hr
      exact joined_of_inJoin hsaved.inv (hcalls _ p (List.mem_of_mem_take hp) t hcall)

theorem joinInv_boot (conditionLock : Nat → Nat) (value : Nat → Int) :
    JoinInv (boot conditionLock value) where
  saved := saved_boot conditionLock value
  registered t j hj := by cases hj
  waiting _ _ hp := absurd hp List.not_mem_nil
  returned _ hr := absurd hr List.not_mem_nil

/-- The threads joined in a part of a run are joined in the whole run. -/
theorem JoinInv.run {actions : List Kernel.Action} (hi : JoinInv h) (hrun : h.run actions = .ok h')
    (honce : h'.JoinedOnce) : JoinInv h' := by
  have hR : h.joins <+: h'.joins ∧ (JoinInv h → h'.JoinedOnce → JoinInv h') := by
    refine Except.foldlM_invariant (R := fun h h' => h.joins <+: h'.joins ∧
      (JoinInv h → h'.JoinedOnce → JoinInv h')) ?_ ?_ ?_ hrun
    · exact fun h => ⟨List.prefix_rfl, fun hi _ => hi⟩
    · intro h₁ h₂ h₃ h₁₂ h₂₃
      refine ⟨h₁₂.1.trans h₂₃.1, fun hi honce => ?_⟩
      have honce₂ : h₂.JoinedOnce := honce.sublist h₂₃.1.sublist
      exact h₂₃.2 (h₁₂.2 hi honce₂) honce
    · intro h₁ action h₂ hstep
      refine ⟨?_, fun hi honce => hi.step hstep honce⟩
      rw [joins_step hstep]
      exact List.prefix_append ..
  exact hR.2 hi honce

theorem JoinInv.joining (hi : JoinInv h) {p : Pending} (hp : p ∈ h.calls j)
    (hcall : p.call = .join t) : Joining h.kernel j t p.before := by
  have hinv := hi.saved.inv
  have hwaiting := hi.waiting j p hp t hcall
  have hreadied := hwaiting.readied
  constructor
  · exact hwaiting.unfinished
  · intro ht
    rw [if_neg ht] at hreadied
    exact ⟨hwaiting.blocked hinv ht, hwaiting.registered, hreadied⟩
  · intro ht
    rw [if_pos ht] at hreadied
    refine ⟨?_, hreadied⟩
    cases hstatus : h.kernel.status j with
    | ready => rfl
    | new => exact absurd hstatus hwaiting.alive.1
    | running =>
      have hcur := Option.some.inj ((hinv.ok.running j).mp hstatus)
      exact absurd hcur.symm (hi.ne_current hp hcall)
    | blocked => exact absurd hstatus (hwaiting.awake ht)
    | finished => exact absurd hstatus hwaiting.alive.2

/-- In every run in which a thread is joined at most once, `join` waits for the end: every call
    that has returned satisfies the law, and so does every call in progress, whatever interrupts
    come while it is made. -/
theorem run_joins {conditionLock : Nat → Nat} {value : Nat → Int} {actions : List Kernel.Action}
    (hrun : (boot conditionLock value).run actions = .ok h) (honce : h.JoinedOnce) :
    (∀ r ∈ h.returns, ∀ t, r.call = .join t → Joined r t) ∧
      (∀ j, ∀ p ∈ h.calls j, ∀ t, p.call = .join t → Joining h.kernel j t p.before) ∧
      ∀ t atStatus atField atStore atSleep,
        h.kernel.joinStatements t atStatus atField atStore atSleep = h.kernel.join t := by
  have hi := (joinInv_boot conditionLock value).run hrun honce
  exact ⟨hi.returned, fun j p hp t hcall => hi.joining hp hcall,
    Kernel.joinStatements_eq_join h.kernel⟩

/-- The main thread joins thread 2, which joins thread 3; both are woken. Thread 4 has finished
    when it is joined. -/
def joinChain : List Kernel.Action :=
  [.go (.fork 2), .go (.join 2), .go (.fork 3), .go (.join 3), .go .finish, .go .finish,
    .go (.fork 4), .go .yield, .go .finish, .go (.join 4)]

theorem run_joins_joinChain :
    ∃ h, (boot id fun _ => 0).run joinChain = .ok h ∧ h.returns.map (fun r => (r.thread, r.call)) =
        [(0, .fork 2), (2, .fork 3), (2, .join 3), (0, .join 2), (0, .fork 4), (0, .yield),
          (0, .join 4)] ∧
      (∀ r ∈ h.returns, ∀ t, r.call = .join t → Joined r t) ∧
      (∀ j, ∀ p ∈ h.calls j, ∀ t, p.call = .join t → Joining h.kernel j t p.before) ∧
      ∀ t atStatus atField atStore atSleep,
        h.kernel.joinStatements t atStatus atField atStore atSleep = h.kernel.join t := by
  obtain ⟨h, hrun, htest⟩ := Except.exists_of_map_eq_ok (r := (boot id fun _ => 0).run joinChain)
    (fun h => decide (h.joins.Nodup ∧ h.returns.map (fun r => (r.thread, r.call)) =
      [(0, .fork 2), (2, .fork 3), (2, .join 3), (0, .join 2), (0, .fork 4), (0, .yield),
        (0, .join 4)]))
    (by decide +kernel)
  obtain ⟨honce, hreturns⟩ := of_decide_eq_true htest
  exact ⟨h, hrun, hreturns, run_joins hrun honce⟩

end History

end KThread

end Nachos
