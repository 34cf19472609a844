import Coursework.Nachos.KThread
import Mathlib.Data.Int.Order.Basic

/-!
# Threads that are woken in time

The handler looks at the head of the queue only, so it rests on the heap being in the order of
the wake times. `compareTo` narrows their difference to an `int`: when two wake times are far
apart the comparison can come out wrong, and a thread that is due stays behind one that is not.
While the comparisons that the heap makes come out right, every interrupt wakes exactly the
threads that are due.
-/

namespace Nachos

namespace KThread

open PriorityQueue

/-- The wake time of a bucket. -/
def AlarmBucket.wakeTime (b : AlarmBucket) : Int := b.time.toInt

/-- The thread of a bucket with its wake time. -/
def AlarmBucket.request (b : AlarmBucket) : Int × Nat := (b.wakeTime, b.kthread)

/-- `compareTo` is right for wake times that are less than `2 ^ 31` apart. -/
theorem AlarmBucket.compareTo_signAgrees {a b : AlarmBucket}
    (hlow : -2147483648 < a.wakeTime - b.wakeTime) (hhigh : a.wakeTime - b.wakeTime < 2147483648) :
    SignAgrees AlarmBucket.compareTo AlarmBucket.wakeTime a b := by
  have hcompare : a.compareTo b = a.wakeTime - b.wakeTime := by
    unfold AlarmBucket.compareTo AlarmBucket.wakeTime at *
    generalize a.time = x at *
    generalize b.time = y at *
    have hx := x.isLt
    have hy := y.isLt
    have hxi := BitVec.toInt_eq_toNat_cond x
    have hyi := BitVec.toInt_eq_toNat_cond y
    have hdiff := BitVec.toInt_eq_toNat_cond ((x - y).setWidth 32)
    rw [BitVec.toNat_setWidth, BitVec.toNat_sub] at hdiff
    split at hxi <;> split at hyi <;> split at hdiff <;> omega
  constructor
  · rw [hcompare]
    omega
  · rw [hcompare]
    omega

namespace Alarm

open AlarmBucket (compareTo wakeTime request)

/-! ## What the alarm is for -/

/-- The time of an event. -/
def Event.now : Event → BitVec 64
  | .waitUntil now _ _ => now
  | .timerInterrupt now => now

/-- The thread of a `waitUntil(x)`, with the time that it is to wake at. -/
def Event.request : Event → Option (Int × Nat)
  | .waitUntil now x kthread => some (now.toInt + x.toInt, kthread)
  | .timerInterrupt _ => none

/-- The argument of a `waitUntil` is not negative, and the wake time is a `long`. -/
def Event.Fits : Event → Prop
  | .waitUntil now x _ => 0 ≤ x.toInt ∧ now.toInt + x.toInt < 9223372036854775808
  | .timerInterrupt _ => True

instance : DecidablePred Event.Fits
  | .waitUntil _ _ _ => inferInstanceAs (Decidable (_ ∧ _))
  | .timerInterrupt _ => .isTrue trivial

/-- Time does not go back, and no wake time overflows. -/
structure Admitted (events : List Event) : Prop where
  ordered : events.Pairwise fun e e' => e.now.toInt ≤ e'.now.toInt
  fits : ∀ e ∈ events, e.Fits

/-- The interrupt at time `now` after `events`: every thread that is due by then has been made
    ready once, and no other; this interrupt has readied its threads in order of wake time. -/
def WakesDue (events : List Event) (now : BitVec 64) : Prop :=
  let before := run {} events
  let after := before.timerInterrupt now
  (after.readied.map request).Perm
      ((events.filterMap Event.request).filter fun r => r.1 ≤ now.toInt) ∧
    ∃ woken, after.readied = before.readied ++ woken ∧
      woken.Pairwise fun b b' => b.wakeTime ≤ b'.wakeTime

/-! ## When the comparisons are right -/

/-- The comparisons of the `poll`s of one interrupt come out as those of the wake times. -/
def PollsAgree (now : BitVec 64) : Nat → List AlarmBucket → Prop
  | 0, _ => True
  | count + 1, queue => ∀ placeholder, queue.head? = some placeholder →
    placeholder.time.sle now = true →
    PollAgrees compareTo wakeTime queue ∧ PollsAgree now count (poll compareTo queue)

/-- The comparisons that the heap makes for an event come out as those of the wake times. -/
def ComparesRight (a : Alarm) : Event → Prop
  | .waitUntil now x kthread => OfferAgrees compareTo wakeTime a.waitQueue ⟨now + x, kthread⟩
  | .timerInterrupt now => PollsAgree now a.waitQueue.length a.waitQueue

/-- And so do those for all events. -/
def AllCompareRight (a : Alarm) : List Event → Prop
  | [] => True
  | event :: events => a.ComparesRight event ∧ AllCompareRight (a.step event) events

variable {a : Alarm} {now x : BitVec 64} {kthread : Nat} {events : List Event}

/-! ## Wake times that are close together -/

/-- Buckets with wake times less than `2 ^ 31` apart. -/
def Close (queue : List AlarmBucket) : Prop :=
  ∀ b ∈ queue, ∀ b' ∈ queue, b.wakeTime - b'.wakeTime < 2147483648

instance (queue : List AlarmBucket) : Decidable (Close queue) :=
  inferInstanceAs (Decidable (∀ b ∈ queue, ∀ b' ∈ queue, _))

theorem Close.mono {queue queue' : List AlarmBucket} (h : Close queue)
    (hsub : ∀ b ∈ queue', b ∈ queue) : Close queue' :=
  fun b hb b' hb' => h b (hsub b hb) b' (hsub b' hb')

theorem Close.signAgrees {queue : List AlarmBucket} (h : Close queue) :
    ∀ b ∈ queue, ∀ b' ∈ queue, SignAgrees compareTo wakeTime b b' := by
  intro b hb b' hb'
  have hlow := h b' hb' b hb
  exact AlarmBucket.compareTo_signAgrees (by omega) (h b hb b' hb')

theorem Close.pollsAgree {count : Nat} {queue : List AlarmBucket} (h : Close queue) :
    PollsAgree now count queue := by
  induction count generalizing queue with
  | zero => trivial
  | succ count ih =>
    intro placeholder hhead _
    refine ⟨pollAgrees_of_forall h.signAgrees, ih ?_⟩
    obtain ⟨rest, rfl⟩ := List.head?_eq_some_iff.mp hhead
    exact h.mono fun b hb =>
      List.mem_cons_of_mem _ ((poll_perm compareTo placeholder rest).mem_iff.mp hb)

/-- The bucket that is added. -/
def Event.bucket : Event → Option AlarmBucket
  | .waitUntil now x kthread => some ⟨now + x, kthread⟩
  | .timerInterrupt _ => none

theorem mem_of_mem_wakeDue {count : Nat} {b : AlarmBucket}
    (hb : b ∈ (a.wakeDue now count).waitQueue) :
    b ∈ a.waitQueue := by
  induction count generalizing a with
  | zero => exact hb
  | succ count ih =>
    unfold wakeDue at hb
    split at hb
    · exact hb
    · rename_i placeholder hhead
      split at hb
      · obtain ⟨rest, hqueue⟩ := List.head?_eq_some_iff.mp hhead
        have hpoll := ih hb
        rw [hqueue] at hpoll ⊢
        exact List.mem_cons_of_mem _ ((poll_perm compareTo placeholder rest).mem_iff.mp hpoll)
      · exact hb

/-- When all wake times of a run are close together, every comparison is right. -/
theorem allCompareRight_of_close
    (h : Close (a.waitQueue ++ events.filterMap Event.bucket)) : AllCompareRight a events := by
  induction events generalizing a with
  | nil => trivial
  | cons event events ih =>
    cases event with
    | waitUntil now x kthread =>
      have hfirst : Close (⟨now + x, kthread⟩ :: a.waitQueue) := by
        apply h.mono
        intro b hb
        rcases List.mem_cons.mp hb with rfl | hb
        · exact List.mem_append_right _ List.mem_cons_self
        · exact List.mem_append_left _ hb
      refine ⟨offerAgrees_of_forall hfirst.signAgrees, ih (h.mono fun b hb => ?_)⟩
      rcases List.mem_append.mp hb with hb | hb
      · have hoffer := (offer_perm compareTo a.waitQueue ⟨now + x, kthread⟩).mem_iff.mp hb
        rcases List.mem_cons.mp hoffer with rfl | hb
        · exact List.mem_append_right _ List.mem_cons_self
        · exact List.mem_append_left _ hb
      · exact List.mem_append_right _ (List.mem_cons_of_mem _ hb)
    | timerInterrupt now =>
      have hfirst : Close a.waitQueue := h.mono fun b hb => List.mem_append_left _ hb
      refine ⟨hfirst.pollsAgree, ih (h.mono fun b hb => ?_)⟩
      rcases List.mem_append.mp hb with hb | hb
      · exact List.mem_append_left _ (mem_of_mem_wakeDue hb)
      · exact List.mem_append_right _ hb

/-! ## One event -/

/-- What an interrupt does to the queue. -/
structure Woken (now : BitVec 64) (queue woken rest : List AlarmBucket) : Prop where
  perm : (woken ++ rest).Perm queue
  ordered : HeapOrdered wakeTime rest
  due : ∀ b ∈ woken, b.wakeTime ≤ now.toInt
  notDue : ∀ b ∈ rest, now.toInt < b.wakeTime
  sorted : woken.Pairwise fun b b' => b.wakeTime ≤ b'.wakeTime

theorem Woken.none {queue : List AlarmBucket} (h : HeapOrdered wakeTime queue)
    (hlate : ∀ b ∈ queue, now.toInt < b.wakeTime) : Woken now queue [] queue where
  perm := List.Perm.refl _
  ordered := h
  due _ hb := absurd hb List.not_mem_nil
  notDue := hlate
  sorted := List.Pairwise.nil

/-- The head of the queue is due, and the loop goes on. -/
theorem Woken.cons {placeholder : AlarmBucket} {queue woken rest : List AlarmBucket}
    (hheap : HeapOrdered wakeTime (placeholder :: queue))
    (hdue : placeholder.wakeTime ≤ now.toInt)
    (h : Woken now (poll compareTo (placeholder :: queue)) woken rest) :
    Woken now (placeholder :: queue) (placeholder :: woken) rest := by
  have hperm : (woken ++ rest).Perm queue := h.perm.trans (poll_perm compareTo placeholder queue)
  have hmem : ∀ b ∈ woken, b ∈ queue :=
    fun b hb => hperm.mem_iff.mp (List.mem_append_left rest hb)
  constructor
  · exact hperm.cons placeholder
  · exact h.ordered
  · intro b hb
    rcases List.mem_cons.mp hb with rfl | hb
    · exact hdue
    · exact h.due b hb
  · exact h.notDue
  · exact List.Pairwise.cons (fun b hb => hheap.head_le b (hmem b hb)) h.sorted

theorem wakeDue_spec {count : Nat} (hcount : a.waitQueue.length ≤ count)
    (hheap : HeapOrdered wakeTime a.waitQueue) (hagrees : PollsAgree now count a.waitQueue) :
    ∃ woken rest, a.wakeDue now count = ⟨rest, a.readied ++ woken⟩ ∧
      Woken now a.waitQueue woken rest := by
  induction count generalizing a with
  | zero =>
    have hnil : a.waitQueue = [] := List.length_eq_zero_iff.mp (Nat.le_zero.mp hcount)
    refine ⟨[], a.waitQueue, by simp [wakeDue], Woken.none hheap ?_⟩
    intro b hb
    rw [hnil] at hb
    exact absurd hb List.not_mem_nil
  | succ count ih =>
    obtain ⟨queue, readied⟩ := a
    cases queue with
    | nil =>
      refine ⟨[], [], ?_, Woken.none hheap fun b hb => absurd hb List.not_mem_nil⟩
      rw [List.append_nil]
      rfl
    | cons placeholder queue =>
      unfold wakeDue
      dsimp only [List.head?_cons] at hcount hheap hagrees ⊢
      by_cases hdue : placeholder.time.sle now = true
      · obtain ⟨hpoll, hrest⟩ := hagrees placeholder rfl hdue
        have hlen : (poll compareTo (placeholder :: queue)).length ≤ count := by
          rw [(poll_perm compareTo placeholder queue).length_eq]
          simpa using hcount
        obtain ⟨woken, rest, hrun, hwoken⟩ := ih
          (a := ⟨poll compareTo (placeholder :: queue), readied ++ [placeholder]⟩)
          hlen (poll_ordered hheap hpoll) hrest
        rw [if_pos hdue]
        refine ⟨placeholder :: woken, rest, hrun.trans ?_,
          hwoken.cons hheap (BitVec.sle_iff_toInt_le.mp hdue)⟩
        rw [List.append_assoc]
        rfl
      · rw [if_neg hdue]
        have hhead : now.toInt < placeholder.wakeTime :=
          not_le.mp fun hle => hdue (BitVec.sle_iff_toInt_le.mpr hle)
        -- the head is not due, and nothing in the heap is before it
        refine ⟨[], placeholder :: queue, ?_, Woken.none hheap fun b hb => ?_⟩
        · rw [List.append_nil]
        · rcases List.mem_cons.mp hb with rfl | hb
          · exact hhead
          · exact lt_of_lt_of_le hhead (hheap.head_le b hb)

/-! ## Runs -/

/-- What holds after every event. -/
structure Inv (events : List Event) (a : Alarm) : Prop where
  ordered : HeapOrdered wakeTime a.waitQueue
  requests : ((a.readied ++ a.waitQueue).map request).Perm (events.filterMap Event.request)
  readied : ∀ b ∈ a.readied, ∃ e ∈ events, b.wakeTime ≤ e.now.toInt

theorem toInt_add_of_fits (h : (Event.waitUntil now x kthread).Fits) :
    (now + x).toInt = now.toInt + x.toInt := by
  obtain ⟨hpos, hlt⟩ := h
  have hnow := BitVec.le_toInt now
  rw [BitVec.toInt_add, Int.bmod_eq_of_le_mul_two]
  · omega
  · omega

theorem Inv.waitUntil (h : Inv events a) (hfits : (Event.waitUntil now x kthread).Fits)
    (hagrees : OfferAgrees compareTo wakeTime a.waitQueue ⟨now + x, kthread⟩) :
    Inv (events ++ [.waitUntil now x kthread]) (a.waitUntil now x kthread) := by
  constructor
  · exact offer_ordered h.ordered hagrees
  · have hoffer := offer_perm compareTo a.waitQueue ⟨now + x, kthread⟩
    have hmoved : (a.readied ++ offer compareTo a.waitQueue ⟨now + x, kthread⟩).Perm
        (a.readied ++ a.waitQueue ++ [⟨now + x, kthread⟩]) := by
      rw [List.append_assoc]
      exact (hoffer.trans (List.perm_append_singleton _ _).symm).append_left a.readied
    have hnew : request ⟨now + x, kthread⟩ = (now.toInt + x.toInt, kthread) :=
      congrArg (fun t => (t, kthread)) (toInt_add_of_fits hfits)
    refine (hmoved.map request).trans ?_
    rw [List.map_append, List.filterMap_append]
    refine h.requests.append ?_
    show [request ⟨now + x, kthread⟩].Perm [(now.toInt + x.toInt, kthread)]
    rw [hnew]
  · intro b hb
    obtain ⟨e, he, hle⟩ := h.readied b hb
    exact ⟨e, List.mem_append_left _ he, hle⟩

/-- After an interrupt what has been readied is due, and what is left is not. -/
theorem Inv.timerInterrupt (h : Inv events a)
    (hagrees : PollsAgree now a.waitQueue.length a.waitQueue) :
    ∃ woken, (a.timerInterrupt now).readied = a.readied ++ woken ∧
      woken.Pairwise (fun b b' => b.wakeTime ≤ b'.wakeTime) ∧
      (∀ b ∈ woken, b.wakeTime ≤ now.toInt) ∧
      (∀ b ∈ (a.timerInterrupt now).waitQueue, now.toInt < b.wakeTime) ∧
      Inv (events ++ [.timerInterrupt now]) (a.timerInterrupt now) := by
  obtain ⟨woken, rest, hrun, hwoken⟩ := wakeDue_spec (Nat.le_refl _) h.ordered hagrees
  unfold Alarm.timerInterrupt
  rw [hrun]
  refine ⟨woken, rfl, hwoken.sorted, hwoken.due, hwoken.notDue, hwoken.ordered, ?_, ?_⟩
  · rw [List.append_assoc, List.filterMap_append]
    have hsame := ((hwoken.perm.append_left a.readied).map request).trans h.requests
    exact hsame.trans (List.Perm.of_eq (List.append_nil _).symm)
  · intro b hb
    rcases List.mem_append.mp hb with hold | hnew
    · obtain ⟨e, he, hle⟩ := h.readied b hold
      exact ⟨e, List.mem_append_left _ he, hle⟩
    · exact ⟨.timerInterrupt now, List.mem_append_right _ List.mem_cons_self, hwoken.due b hnew⟩

theorem Inv.step (h : Inv events a) {event : Event} (hfits : event.Fits)
    (hright : a.ComparesRight event) : Inv (events ++ [event]) (a.step event) := by
  cases event with
  | waitUntil now x kthread => exact h.waitUntil hfits hright
  | timerInterrupt now =>
    obtain ⟨woken, -, -, -, -, hinv⟩ := h.timerInterrupt hright
    exact hinv

theorem Inv.run {before : List Event} (h : Inv before a) (hfits : ∀ e ∈ events, e.Fits)
    (hright : AllCompareRight a events) : Inv (before ++ events) (a.run events) := by
  induction events generalizing a before with
  | nil =>
    rw [List.append_nil]
    exact h
  | cons event events ih =>
    obtain ⟨hfirst, hrest⟩ := hright
    have hstep := h.step (hfits event List.mem_cons_self) hfirst
    have hrun := ih hstep (fun e he => hfits e (List.mem_cons_of_mem event he)) hrest
    rw [List.append_assoc] at hrun
    exact hrun

theorem inv_start : Inv [] {} where
  ordered := fun i b b' _ hb => by cases hb
  requests := List.Perm.refl _
  readied b hb := absurd hb List.not_mem_nil

theorem allCompareRight_append {events' : List Event}
    (h : AllCompareRight a (events ++ events')) :
    AllCompareRight a events ∧ AllCompareRight (a.run events) events' := by
  induction events generalizing a with
  | nil => exact ⟨trivial, h⟩
  | cons event events ih =>
    obtain ⟨hfirst, hrest⟩ := h
    obtain ⟨hall, hlast⟩ := ih hrest
    exact ⟨⟨hfirst, hall⟩, hlast⟩

/-- In a run in which the comparisons of the heap come out right, every interrupt wakes the
    threads that are due. -/
theorem run_wakesDue (hadmitted : Admitted (events ++ [.timerInterrupt now]))
    (hright : AllCompareRight {} (events ++ [.timerInterrupt now])) : WakesDue events now := by
  obtain ⟨hall, hlast, -⟩ := allCompareRight_append hright
  have hinv := inv_start.run (fun e he => hadmitted.fits e (List.mem_append_left _ he)) hall
  rw [List.nil_append] at hinv
  obtain ⟨woken, hreadied, hsorted, hdue, hlate, hafter⟩ := hinv.timerInterrupt hlast
  refine ⟨?_, woken, hreadied, hsorted⟩
  -- what was readied before was due by an earlier time
  have hpast : ∀ b ∈ (run {} events).readied, b.wakeTime ≤ now.toInt := by
    intro b hb
    obtain ⟨e, he, hle⟩ := hinv.readied b hb
    have horder := (List.pairwise_append.mp hadmitted.ordered).2.2 e he _ List.mem_cons_self
    exact le_trans hle horder
  have hready : ∀ b ∈ ((run {} events).timerInterrupt now).readied, b.wakeTime ≤ now.toInt := by
    intro b hb
    rw [hreadied] at hb
    rcases List.mem_append.mp hb with hold | hnew
    · exact hpast b hold
    · exact hdue b hnew
  have hrequests := hafter.requests.filter fun r => r.1 ≤ now.toInt
  rw [List.map_append, List.filter_append, List.filterMap_append] at hrequests
  have hkept : (((run {} events).timerInterrupt now).readied.map request).filter
      (fun r => r.1 ≤ now.toInt) = ((run {} events).timerInterrupt now).readied.map request := by
    rw [List.filter_eq_self]
    intro r hr
    obtain ⟨b, hb, rfl⟩ := List.mem_map.mp hr
    exact decide_eq_true (hready b hb)
  have hleft : (((run {} events).timerInterrupt now).waitQueue.map request).filter
      (fun r => r.1 ≤ now.toInt) = [] := by
    rw [List.filter_eq_nil_iff]
    intro r hr hle
    obtain ⟨b, hb, rfl⟩ := List.mem_map.mp hr
    exact absurd (of_decide_eq_true hle) (not_le.mpr (hlate b hb))
  rw [hkept, hleft, List.append_nil] at hrequests
  exact hrequests.trans (List.Perm.of_eq (congrArg _ (List.append_nil _)))

/-- Four threads go to sleep, one of them twice. -/
def fourSleepers : List Event :=
  [.waitUntil 0 900 2, .waitUntil 10 300 3, .waitUntil 20 0 4, .waitUntil 30 400 5,
    .timerInterrupt 500, .waitUntil 510 20 3]

theorem run_wakesDue_fourSleepers : WakesDue fourSleepers 1000 := by
  apply run_wakesDue
  · constructor
    · decide
    · decide
  · exact allCompareRight_of_close (by decide)

/-- Thread 2 is to wake at 2147483649, and thread 3 at once. At 500 thread 3 still sleeps. -/
theorem not_wakesDue_farApart :
    Admitted ([.waitUntil 0 2147483649 2, .waitUntil 0 0 3] ++ [.timerInterrupt 500]) ∧
      ¬ WakesDue [.waitUntil 0 2147483649 2, .waitUntil 0 0 3] 500 := by
  refine ⟨⟨by decide, by decide⟩, ?_⟩
  intro h
  have hlen := h.1.length_eq
  exact absurd hlen (by decide)

/-! ## The alarm in the kernel -/

theorem wakeDue_readied (now : BitVec 64) (count : Nat) (queue readied : List AlarmBucket) :
    wakeDue now count ⟨queue, readied⟩ =
      ⟨(wakeDue now count ⟨queue, []⟩).waitQueue,
        readied ++ (wakeDue now count ⟨queue, []⟩).readied⟩ := by
  induction count generalizing queue readied with
  | zero => simp [wakeDue]
  | succ count ih =>
    cases queue with
    | nil => simp [wakeDue]
    | cons placeholder queue =>
      unfold wakeDue
      dsimp only [List.head?_cons]
      split
      · rw [ih _ (readied ++ [placeholder]), ih _ ([] ++ [placeholder])]
        simp
      · simp

theorem mem_of_mem_readied {count : Nat} {b : AlarmBucket}
    (hb : b ∈ (a.wakeDue now count).readied) :
    b ∈ a.readied ∨ b ∈ a.waitQueue := by
  induction count generalizing a with
  | zero => exact Or.inl hb
  | succ count ih =>
    unfold wakeDue at hb
    split at hb
    · exact Or.inl hb
    · rename_i placeholder hhead
      split at hb
      · obtain ⟨rest, hqueue⟩ := List.head?_eq_some_iff.mp hhead
        rw [hqueue] at hb ⊢
        rcases ih hb with hold | hpoll
        · rcases List.mem_append.mp hold with hold | hnew
          · exact Or.inl hold
          · exact Or.inr (List.mem_singleton.mp hnew ▸ List.mem_cons_self)
        · exact Or.inr <|
            List.mem_cons_of_mem _ ((poll_perm compareTo placeholder rest).mem_iff.mp hpoll)
      · exact Or.inl hb

end Alarm

namespace Kernel

theorem ready_alarmQueue (k : Kernel) (queue : List AlarmBucket) (t : Nat) :
    { k with alarmQueue := queue }.ready t =
      (k.ready t).map fun k' => { k' with alarmQueue := queue } := by
  unfold ready
  dsimp only
  split
  · rfl
  · split
    · rfl
    · rfl

/-- In the kernel the handler makes the threads ready that the alarm wakes, in the same order. -/
theorem wakeDue_eq (k : Kernel) (now : BitVec 64) (count : Nat) :
    k.wakeDue now count =
      (Alarm.wakeDue now count ⟨k.alarmQueue, []⟩).readied.foldlM (fun k b => k.ready b.kthread)
        { k with alarmQueue := (Alarm.wakeDue now count ⟨k.alarmQueue, []⟩).waitQueue } := by
  induction count generalizing k with
  | zero => rfl
  | succ count ih =>
    unfold wakeDue Alarm.wakeDue
    cases k.alarmQueue.head? with
    | none => rfl
    | some placeholder =>
      dsimp only
      split
      · rw [Alarm.wakeDue_readied, List.nil_append, List.singleton_append, List.foldlM_cons]
        rw [ready_alarmQueue k (poll AlarmBucket.compareTo k.alarmQueue), ready_alarmQueue k
          (Alarm.wakeDue now count ⟨poll AlarmBucket.compareTo k.alarmQueue, []⟩).waitQueue]
        cases k.ready placeholder.kthread with
        | error assertion => rfl
        | ok k₁ => exact ih { k₁ with alarmQueue := poll AlarmBucket.compareTo k.alarmQueue }
      · rfl

end Kernel

end KThread

end Nachos
