import Coursework.Nachos.Interrupt

/-!
# Interrupts in order, and a steady timer

Whatever handlers do and however threads inside a `tick` take turns, interrupts are invoked
in the order of their times, those for the same time in the order in which they were
scheduled, each once and none early, and a `tick` leaves none that was due when it started.
The timer, which schedules its next interrupt in its handler, keeps exactly one pending.
-/

namespace Nachos

namespace Interrupt

/-! ## The order of pending interrupts -/

/-- The order of `compareTo`. -/
def Pending.Before (p q : Pending) : Prop := p.time < q.time ∨ p.time = q.time ∧ p.id < q.id

theorem Pending.Before.time_le {p q : Pending} (h : p.Before q) : p.time ≤ q.time := by
  rcases h with h | h <;> omega

theorem Pending.Before.trans {p q r : Pending} (h : p.Before q) (h' : q.Before r) :
    p.Before r := by
  simp only [Before] at *
  omega

theorem Pending.Before.ne {p q : Pending} (h : p.Before q) : p ≠ q := by
  rintro rfl
  simp [Before] at h

/-- What an insertion does when no element is equal to the new one. -/
theorem add_cons {p q : Pending} {l : List Pending} (hid : q.id ≠ p.id) :
    (p.Before q ∧ add p (q :: l) = p :: q :: l) ∨
      (q.Before p ∧ add p (q :: l) = q :: add p l) := by
  simp only [Pending.Before, add, Pending.compareTo]
  by_cases h₁ : p.time < q.time
  · simp [h₁]
  · by_cases h₂ : q.time < p.time
    · simp [h₁, h₂]
    · by_cases h₃ : p.id < q.id
      · simp [h₁, h₂, h₃]
        omega
      · have h₄ : q.id < p.id := by omega
        simp [h₁, h₂, h₃, h₄]
        omega

theorem add_perm {p : Pending} {l : List Pending} (hid : ∀ q ∈ l, q.id ≠ p.id) :
    (add p l).Perm (p :: l) := by
  induction l with
  | nil => exact List.Perm.refl _
  | cons q rest ih =>
    rcases add_cons (l := rest) (hid q List.mem_cons_self) with ⟨-, h⟩ | ⟨-, h⟩
    · rw [h]
    · rw [h]
      exact ((ih fun r hr => hid r (List.mem_cons_of_mem q hr)).cons q).trans (List.Perm.swap p q _)

theorem mem_add {p q : Pending} {l : List Pending} (hid : ∀ q ∈ l, q.id ≠ p.id) :
    q ∈ add p l ↔ q = p ∨ q ∈ l := by
  rw [(add_perm hid).mem_iff, List.mem_cons]

theorem add_pairwise {p : Pending} {l : List Pending} (hid : ∀ q ∈ l, q.id ≠ p.id)
    (hl : l.Pairwise Pending.Before) : (add p l).Pairwise Pending.Before := by
  induction l with
  | nil => exact List.pairwise_singleton _ p
  | cons q rest ih =>
    have hrest : ∀ r ∈ rest, r.id ≠ p.id := fun r hr => hid r (List.mem_cons_of_mem q hr)
    obtain ⟨hq, hl⟩ := List.pairwise_cons.mp hl
    rcases add_cons (l := rest) (hid q List.mem_cons_self) with ⟨hpq, h⟩ | ⟨hqp, h⟩
    · rw [h, List.pairwise_cons]
      refine ⟨?_, List.pairwise_cons.mpr ⟨hq, hl⟩⟩
      intro r hr
      rcases List.mem_cons.mp hr with rfl | hr
      · exact hpq
      · exact hpq.trans (hq r hr)
    · rw [h, List.pairwise_cons]
      refine ⟨?_, ih hrest hl⟩
      intro r hr
      rcases (mem_add hrest).mp hr with rfl | hr
      · exact hqp
      · exact hq r hr

/-! ## What every step keeps -/

/-- The interrupts are in order. -/
structure Ordered (s : State) : Prop where
  pending : s.pending.Pairwise Pending.Before
  id_lt : ∀ p ∈ s.pending, p.id < s.numPendingInterruptsCreated
  invoked : s.invoked.Pairwise fun p q => q.Before p
  before : ∀ p ∈ s.invoked, ∀ q ∈ s.pending, p.Before q
  once : ((s.invoked ++ s.pending).map Pending.id).Perm (List.range s.numPendingInterruptsCreated)
  time_le : ∀ p ∈ s.invoked, p.time ≤ s.totalTicks
  checks : ∀ t ∈ s.checks, t ≤ s.totalTicks
  due : s.totalTicks ∉ s.checks → ∀ p ∈ s.pending, s.totalTicks < p.time

namespace Ordered

variable {s : State}

theorem id_ne (h : Ordered s) (time : Nat) (handler : Handler) :
    ∀ q ∈ s.pending, q.id ≠ (⟨time, handler, s.numPendingInterruptsCreated⟩ : Pending).id :=
  fun q hq => Nat.ne_of_lt (h.id_lt q hq)

/-- An interrupt that is scheduled comes after all that were invoked. -/
theorem schedule (h : Ordered s) {when : Nat} (hwhen : 0 < when) (handler : Handler) :
    Ordered (s.schedule when handler) := by
  have hne := h.id_ne (s.totalTicks + when) handler
  constructor
  · exact add_pairwise hne h.pending
  · intro p hp
    rcases (mem_add hne).mp hp with rfl | hp
    · exact Nat.lt_succ_self _
    · exact Nat.lt_succ_of_lt (h.id_lt p hp)
  · exact h.invoked
  · intro p hp q hq
    rcases (mem_add hne).mp hq with rfl | hq
    · -- it is for a time that is still to come, and no interrupt is invoked early
      have := h.time_le p hp
      exact Or.inl (by simp only; omega)
    · exact h.before p hp q hq
  · simp only [State.schedule, List.map_append]
    have hperm := ((add_perm hne).map Pending.id).append_left (s.invoked.map Pending.id)
    rw [List.map_cons] at hperm
    refine (hperm.trans List.perm_middle).trans ?_
    rw [List.range_succ, ← List.map_append]
    exact (h.once.cons _).trans (List.perm_append_singleton _ _).symm
  · exact h.time_le
  · exact h.checks
  · intro htotal p hp
    rcases (mem_add hne).mp hp with rfl | hp
    · simp only [State.schedule]
      omega
    · exact h.due htotal p hp

/-- Time passes, and a check begins. -/
theorem tick (h : Ordered s) (inKernelMode : Bool) : Ordered (s.tick inKernelMode) := by
  constructor
  · exact h.pending
  · exact h.id_lt
  · exact h.invoked
  · exact h.before
  · exact h.once
  · intro p hp
    exact Nat.le_trans (h.time_le p hp) (Nat.le_add_right _ _)
  · intro t ht
    rcases List.mem_cons.mp ht with rfl | ht
    · exact Nat.le_refl _
    · exact Nat.le_trans (h.checks t ht) (Nat.le_add_right _ _)
  · -- the check for the new time is in progress
    intro htotal
    exact absurd List.mem_cons_self htotal

/-- The first pending interrupt is invoked. -/
theorem pop (h : Ordered s) {time : Nat} {next : Pending} (hcheck : time ∈ s.checks)
    (hfirst : s.pending.head? = some next) (hdue : next.time ≤ time) :
    Ordered { s with pending := s.pending.erase next, invoked := next :: s.invoked } := by
  obtain ⟨rest, hrest⟩ := List.head?_eq_some_iff.mp hfirst
  have hpending := h.pending
  have hid := h.id_lt
  have hbefore := h.before
  have honce := h.once
  have htotal := h.due
  rw [hrest] at hpending hid hbefore honce htotal
  obtain ⟨hnext, hpending⟩ := List.pairwise_cons.mp hpending
  rw [hrest, List.erase_cons_head]
  constructor
  · exact hpending
  · exact fun p hp => hid p (List.mem_cons_of_mem _ hp)
  · exact List.pairwise_cons.mpr ⟨fun p hp => hbefore p hp next List.mem_cons_self, h.invoked⟩
  · intro p hp q hq
    rcases List.mem_cons.mp hp with rfl | hp
    · exact hnext q hq
    · exact hbefore p hp q (List.mem_cons_of_mem _ hq)
  · simp only [List.cons_append, List.map_cons, List.map_append] at honce ⊢
    exact List.perm_middle.symm.trans honce
  · intro p hp
    rcases List.mem_cons.mp hp with rfl | hp
    · -- a check may be for a time that has passed, but not for one that is to come
      exact Nat.le_trans hdue (h.checks time hcheck)
    · exact h.time_le p hp
  · exact h.checks
  · exact fun hno p hp => htotal hno p (List.mem_cons_of_mem _ hp)

/-- What the handler of the timer does. -/
theorem timerInterrupt (h : Ordered s) (random : Nat) : Ordered (s.timerInterrupt random) := by
  have hdelay : 0 < State.timerDelay random := by
    simp only [State.timerDelay, timerTicks]
    omega
  have h' := (h.schedule hdelay .timer).schedule Nat.one_pos .timerAG
  exact ⟨h'.1, h'.2, h'.3, h'.4, h'.5, h'.6, h'.7, h'.8⟩

/-- The check for the current time ends only when nothing is due. -/
theorem endCheck (h : Ordered s) {time : Nat} (hdue : ∀ next ∈ s.pending.head?, time < next.time) :
    Ordered (s.endCheck time) := by
  refine ⟨h.pending, h.id_lt, h.invoked, h.before, h.once, h.time_le, ?_, ?_⟩
  · exact fun t ht => h.checks t (List.mem_of_mem_erase ht)
  · intro htotal p hp
    by_cases hin : s.totalTicks ∈ s.checks
    · -- the check that ends is the one for the current time
      have htime : s.totalTicks = time := by
        by_contra hne
        exact htotal ((List.mem_erase_of_ne hne).mpr hin)
      obtain ⟨next, hnext⟩ : ∃ next, s.pending.head? = some next := by
        cases hpending : s.pending with
        | nil => exact absurd hp (by simp [State.endCheck, hpending])
        | cons next rest => exact ⟨next, rfl⟩
      obtain ⟨rest, hrest⟩ := List.head?_eq_some_iff.mp hnext
      have hlt := hdue next hnext
      have hpending := h.pending
      rw [hrest] at hpending
      have hp' : p ∈ next :: rest := hrest ▸ hp
      -- the first interrupt is not due, and the others come after it
      show s.totalTicks < p.time
      rcases List.mem_cons.mp hp' with rfl | hp'
      · omega
      · have := (List.rel_of_pairwise_cons hpending hp').time_le
        omega
    · exact h.due hin p hp

/-- Every step keeps the order. -/
theorem step {s' : State} (h : Ordered s) (hstep : Step s s') : Ordered s' := by
  cases hstep with
  | enable _ => exact h.tick true
  | disable => exact ⟨h.1, h.2, h.3, h.4, h.5, h.6, h.7, h.8⟩
  | instruction => exact h.tick false
  | schedule hwhen type => exact h.schedule hwhen _
  | @invoke time random next hcheck hfirst hdue hrandom =>
    have hpop := h.pop hcheck hfirst hdue
    rw [State.invoke]
    cases next.handler with
    | timer => exact hpop.timerInterrupt random
    | timerAG => exact hpop
    | device type => exact hpop
  | endCheck hcheck hdue => exact h.endCheck hdue

end Ordered

theorem Reachable.ordered {s : State} (h : Reachable s) : Ordered s := by
  induction h with
  | @start random hrandom =>
    have hempty : Ordered {} := by
      constructor <;> simp
    exact hempty.schedule (by simp only [State.timerDelay, timerTicks]; omega) _
  | step _ hstep ih => exact ih.step hstep

/-- In every simulation interrupts are invoked in the order of their times, and in the order in
    which they were scheduled for one time; each is invoked once or still pending, and none
    early; and one that is due is left only if the check for the current time is still in
    progress. -/
theorem reachable_ordered {s : State} (h : Reachable s) :
    (s.invoked.Pairwise fun p q => q.time < p.time ∨ q.time = p.time ∧ q.id < p.id) ∧
      ((s.invoked ++ s.pending).map Pending.id).Perm
        (List.range s.numPendingInterruptsCreated) ∧
      (∀ p ∈ s.invoked, p.time ≤ s.totalTicks) ∧
      (s.totalTicks ∉ s.checks → ∀ p ∈ s.pending, s.totalTicks < p.time) :=
  ⟨h.ordered.invoked, h.ordered.once, h.ordered.time_le, h.ordered.due⟩

/-- Of two interrupts that the first `tick` finds due, the one that was scheduled later is
    invoked first, since its time is the earlier one. -/
theorem reachable_ordered_console : ∃ s, Reachable s ∧ s.invoked.map Pending.id = [1, 2] ∧
    s.invoked.map Pending.time = [5, 3] ∧
    s.invoked.Pairwise fun p q => q.time < p.time ∨ q.time = p.time ∧ q.id < p.id := by
  have hscheduled : Reachable (((start 0).schedule 5 (.device "console")).schedule 3
      (.device "network")) :=
    ((Reachable.start (by decide)).step (.schedule (by decide) "console")).step
      (.schedule (by decide) "network")
  have htick := hscheduled.step (.enable rfl)
  have hnetwork := htick.step (@Step.invoke _ 10 0 ⟨3, .device "network", 2⟩
    (by decide) (by decide) (by decide) (by decide))
  have hconsole := hnetwork.step (@Step.invoke _ 10 0 ⟨5, .device "console", 1⟩
    (by decide) (by decide) (by decide) (by decide))
  exact ⟨_, hconsole, rfl, rfl, (reachable_ordered hconsole).1⟩

/-! ## The timer -/

/-- How many of some interrupts are for this handler. -/
def count (handler : Handler) (l : List Pending) : Nat := l.countP (·.handler = handler)

@[simp] theorem count_cons (handler : Handler) (p : Pending) (l : List Pending) :
    count handler (p :: l) = count handler l + if p.handler = handler then 1 else 0 := by
  simp [count, List.countP_cons]

theorem count_pos {handler : Handler} {l : List Pending} :
    0 < count handler l ↔ ∃ p ∈ l, p.handler = handler := by
  simp [count, List.countP_pos_iff]

theorem count_schedule {s : State} (ho : Ordered s) (when : Nat) (new handler : Handler) :
    count handler (s.schedule when new).pending =
      count handler s.pending + if new = handler then 1 else 0 := by
  rw [← count_cons handler ⟨s.totalTicks + when, new, s.numPendingInterruptsCreated⟩]
  exact (add_perm (ho.id_ne _ new)).countP_eq _

/-- The timer is steady: one interrupt of it is pending, about 500 ticks after the last one,
    and the one for the autograder follows each by a tick. -/
structure Steady (s : State) : Prop where
  timer : count .timer s.pending = 1
  timerAG : count .timerAG s.pending ≤ 1
  time : ∀ p ∈ s.pending, p.handler = .timer →
    s.lastTimerInterrupt + 475 ≤ p.time ∧ p.time < s.lastTimerInterrupt + 525
  timeAG : ∀ p ∈ s.pending, p.handler = .timerAG → p.time = s.lastTimerInterrupt + 1
  pairs : count .timerAG s.invoked + count .timerAG s.pending = count .timer s.invoked
  last_le : s.lastTimerInterrupt ≤ s.totalTicks
  rate : 475 * count .timer s.invoked ≤ s.lastTimerInterrupt

namespace Steady

variable {s : State}

/-- Another device schedules an interrupt. -/
theorem schedule (h : Steady s) (ho : Ordered s) (when : Nat) (type : String) :
    Steady (s.schedule when (.device type)) := by
  have hne := ho.id_ne (s.totalTicks + when) (.device type)
  have hcount (handler : Handler) := count_schedule ho when (.device type) handler
  constructor
  · rw [hcount]
    simpa using h.timer
  · rw [hcount]
    simpa using h.timerAG
  · intro p hp hhandler
    rcases (mem_add hne).mp hp with rfl | hp
    · exact nomatch hhandler
    · exact h.time p hp hhandler
  · intro p hp hhandler
    rcases (mem_add hne).mp hp with rfl | hp
    · exact nomatch hhandler
    · exact h.timeAG p hp hhandler
  · rw [hcount, if_neg (nomatch ·)]
    exact h.pairs
  · exact h.last_le
  · exact h.rate

/-- When the timer is first in the order, the interrupt for the autograder is not pending. -/
theorem timerAG_invoked (h : Steady s) (ho : Ordered s) {next : Pending} {rest : List Pending}
    (hpending : s.pending = next :: rest) (hnext : next.handler = .timer) :
    count .timerAG s.pending = 0 := by
  by_contra hne
  obtain ⟨p, hp, hp_handler⟩ := count_pos.mp (Nat.pos_of_ne_zero hne)
  have hpAG := h.timeAG p hp hp_handler
  have htime := (h.time next (hpending ▸ List.mem_cons_self) hnext).1
  have hordered := ho.pending
  rw [hpending] at hp hordered
  rcases List.mem_cons.mp hp with rfl | hp
  · exact nomatch hnext.symm.trans hp_handler
  · -- it would be for a tick after the last timer interrupt, 474 ticks before this one
    have := (List.rel_of_pairwise_cons hordered hp).time_le
    omega

/-- The handler of the timer, once its interrupt is no longer pending. -/
theorem timerInterrupt (ho : Ordered s) (htimer : count .timer s.pending = 0)
    (hAG : count .timerAG s.pending = 0)
    (hpairs : count .timerAG s.invoked + 1 = count .timer s.invoked)
    (hrate : 475 * count .timer s.invoked ≤ s.totalTicks) {random : Nat} (hrandom : random < 50) :
    Steady (s.timerInterrupt random) := by
  have hdelay : State.timerDelay random = 475 + random := by
    simp only [State.timerDelay, timerTicks]
    omega
  have ho' : Ordered (s.schedule (State.timerDelay random) .timer) :=
    ho.schedule (by omega) .timer
  have hne := ho.id_ne (s.totalTicks + State.timerDelay random) .timer
  have hne' := ho'.id_ne (s.totalTicks + 1) .timerAG
  -- two interrupts are new, and the others are of devices
  have hcount (handler : Handler) : count handler (s.timerInterrupt random).pending =
      count handler s.pending + (if Handler.timer = handler then 1 else 0) +
        if Handler.timerAG = handler then 1 else 0 := by
    rw [← count_schedule ho (State.timerDelay random)]
    exact count_schedule ho' 1 .timerAG handler
  have hmem (p : Pending) (hp : p ∈ (s.timerInterrupt random).pending) :
      p = ⟨s.totalTicks + 1, .timerAG, s.numPendingInterruptsCreated + 1⟩ ∨
        p = ⟨s.totalTicks + State.timerDelay random, .timer, s.numPendingInterruptsCreated⟩ ∨
          p ∈ s.pending := by
    rcases (mem_add hne').mp hp with h | h
    · exact Or.inl h
    · exact Or.inr ((mem_add hne).mp h)
  have hold (handler : Handler) (h : count handler s.pending = 0) {p : Pending}
      (hp : p ∈ s.pending) : p.handler ≠ handler := by
    intro hhandler
    have := count_pos.mpr ⟨p, hp, hhandler⟩
    omega
  constructor
  · simp [hcount, htimer]
  · simp [hcount, hAG]
  · intro p hp hhandler
    rcases hmem p hp with rfl | rfl | hp
    · exact nomatch hhandler
    · simp only [State.timerInterrupt, State.schedule]
      omega
    · exact absurd hhandler (hold .timer htimer hp)
  · intro p hp hhandler
    rcases hmem p hp with rfl | rfl | hp
    · rfl
    · exact nomatch hhandler
    · exact absurd hhandler (hold .timerAG hAG hp)
  · simp only [hcount, hAG]
    exact hpairs
  · exact Nat.le_refl _
  · exact hrate

/-- Any interrupt is invoked. -/
theorem invoke (h : Steady s) (ho : Ordered s) {time random : Nat} {next : Pending}
    (hcheck : time ∈ s.checks) (hfirst : s.pending.head? = some next) (hdue : next.time ≤ time)
    (hrandom : random < 50) : Steady (s.invoke random next) := by
  have hpop := ho.pop hcheck hfirst hdue
  obtain ⟨rest, hrest⟩ := List.head?_eq_some_iff.mp hfirst
  have hcount (handler : Handler) : count handler s.pending =
      count handler (s.pending.erase next) + if next.handler = handler then 1 else 0 := by
    rw [hrest, List.erase_cons_head, count_cons]
  have htimer := h.timer
  have hAG := h.timerAG
  have hpairs := h.pairs
  rw [hcount] at htimer hAG hpairs
  have hsub {p : Pending} (hp : p ∈ s.pending.erase next) : p ∈ s.pending :=
    List.mem_of_mem_erase hp
  rw [State.invoke]
  cases hhandler : next.handler with
  | timer =>
    -- both interrupts of the last period have been invoked now, and both are scheduled again
    have hnone := h.timerAG_invoked ho hrest hhandler
    have htime := (h.time next (hrest ▸ List.mem_cons_self) hhandler).1
    have htotal := Nat.le_trans hdue (ho.checks time hcheck)
    have hrate := h.rate
    rw [hcount] at hnone
    simp only [hhandler, if_true] at htimer
    simp only [hhandler] at hnone hpairs
    refine timerInterrupt hpop ?_ ?_ ?_ ?_ hrandom
    · simpa using htimer
    · simpa using hnone
    · simp [hhandler] at hpairs hnone ⊢
      omega
    · simp [hhandler]
      omega
  | timerAG =>
    simp [hhandler] at htimer hAG hpairs
    constructor
    · exact htimer
    · simp only [State.run]
      omega
    · exact fun p hp => h.time p (hsub hp)
    · exact fun p hp => h.timeAG p (hsub hp)
    · simp [State.run, hhandler]
      omega
    · exact h.last_le
    · simpa [State.run, hhandler] using h.rate
  | device type =>
    simp [hhandler] at htimer hAG hpairs
    constructor
    · exact htimer
    · exact hAG
    · exact fun p hp => h.time p (hsub hp)
    · exact fun p hp => h.timeAG p (hsub hp)
    · simpa [State.run, hhandler] using hpairs
    · exact h.last_le
    · simpa [State.run, hhandler] using h.rate

/-- Every step keeps the timer steady. -/
theorem step {s' : State} (h : Steady s) (ho : Ordered s) (hstep : Step s s') : Steady s' := by
  cases hstep with
  | enable _ =>
    exact ⟨h.1, h.2, h.3, h.4, h.5, Nat.le_trans h.last_le (Nat.le_add_right _ _), h.7⟩
  | disable => exact ⟨h.1, h.2, h.3, h.4, h.5, h.6, h.7⟩
  | instruction =>
    exact ⟨h.1, h.2, h.3, h.4, h.5, Nat.le_trans h.last_le (Nat.le_add_right _ _), h.7⟩
  | schedule hwhen type => exact h.schedule ho _ type
  | invoke hcheck hfirst hdue hrandom => exact h.invoke ho hcheck hfirst hdue hrandom
  | endCheck hcheck hdue => exact ⟨h.1, h.2, h.3, h.4, h.5, h.6, h.7⟩

theorem start {random : Nat} (hrandom : random < 50) : Steady (start random) := by
  have hdelay : State.timerDelay random = 475 + random := by
    simp only [State.timerDelay, timerTicks]
    omega
  constructor <;>
    simp [Interrupt.start, State.schedule, add, count, hdelay]
  omega

end Steady

/-- In every simulation the timer is steady: `lastTimerInterrupt` never falls behind by more than
    the longest delay, unless the check for the current time is still in progress. -/
theorem reachable_steady {s : State} (h : Reachable s) :
    Steady s ∧ (s.totalTicks ∉ s.checks → s.totalTicks < s.lastTimerInterrupt + 524) := by
  have hsteady : Steady s := by
    induction h with
    | start hrandom => exact Steady.start hrandom
    | step hreach hstep ih => exact ih.step hreach.ordered hstep
  refine ⟨hsteady, fun htotal => ?_⟩
  obtain ⟨p, hp, htimer⟩ := count_pos.mp (hsteady.timer ▸ Nat.one_pos)
  have hdue := h.ordered.due htotal p hp
  have htime := (hsteady.time p hp htimer).2
  omega

/-- The loop of `checkIfDue(time)` when nothing comes between its interrupts, of which it
    invokes at most `n`. -/
def State.checkIfDue (time : Nat) : Nat → State → Option State
  | 0, _ => none
  | n + 1, s =>
    match s.pending.head? with
    | none => some (s.endCheck time)
    | some next =>
      if next.time ≤ time then checkIfDue time n (s.invoke 0 next) else some (s.endCheck time)

/-- A kernel that does nothing but enable interrupts and disable them again, `n` times. -/
def State.idle : Nat → State → Option State
  | 0, s => some s
  | n + 1, s =>
    (State.checkIfDue (s.totalTicks + 10) 3 (s.tick true)).bind fun s =>
      State.idle n { s with enabled := false }

theorem Reachable.checkIfDue {time : Nat} (n : Nat) : ∀ {s s' : State}, Reachable s →
    time ∈ s.checks → s.checkIfDue time n = some s' → Reachable s' := by
  induction n with
  | zero => exact fun _ _ hs' => nomatch hs'
  | succ n ih =>
    intro s s' h hcheck hs'
    rw [State.checkIfDue] at hs'
    cases hfirst : s.pending.head? with
    | none =>
      simp only [hfirst, Option.some.injEq] at hs'
      exact hs' ▸ h.step (.endCheck hcheck (by simp [hfirst]))
    | some next =>
      simp only [hfirst] at hs'
      by_cases hdue : next.time ≤ time
      · rw [if_pos hdue] at hs'
        refine ih (h.step (.invoke hcheck hfirst hdue (by decide : 0 < 50))) ?_ hs'
        -- a handler begins no call of `checkIfDue`
        rw [State.invoke, State.run.eq_def]
        split <;> exact hcheck
      · rw [if_neg hdue, Option.some.injEq] at hs'
        exact hs' ▸ h.step (.endCheck hcheck (by simpa [hfirst] using hdue))

theorem Reachable.idle (n : Nat) : ∀ {s s' : State}, Reachable s → s.enabled = false →
    s.idle n = some s' → Reachable s' := by
  induction n with
  | zero => exact fun h _ hs' => Option.some.inj hs' ▸ h
  | succ n ih =>
    intro s s' h hdisabled hs'
    obtain ⟨s₁, hchecked, hs'⟩ := Option.bind_eq_some_iff.mp hs'
    have h₁ := (h.step (.enable hdisabled)).checkIfDue 3 (by simp [State.tick]) hchecked
    exact ih (h₁.step .disable) rfl hs'

/-- In 960 ticks the timer interrupts twice. -/
theorem reachable_steady_twice : ∃ s, (start 0).idle 96 = some s ∧
    s.invoked.map Pending.handler = [.timer, .timerAG, .timer] ∧ Steady s ∧
      s.totalTicks < s.lastTimerInterrupt + 524 := by
  obtain ⟨s, hs, htest⟩ := Option.map_eq_some_iff.mp (show ((start 0).idle 96).map (fun s =>
      decide (s.invoked.map Pending.handler = [.timer, .timerAG, .timer]) &&
        decide (s.totalTicks ∉ s.checks)) = some true by decide +kernel)
  simp only [Bool.and_eq_true, decide_eq_true_eq] at htest
  obtain ⟨hsteady, hclock⟩ :=
    reachable_steady ((Reachable.start (by decide : 0 < 50)).idle 96 rfl hs)
  exact ⟨s, hs, htest.1, hsteady, hclock htest.2⟩

end Interrupt

end Nachos
