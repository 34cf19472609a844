import Coursework.Nachos.Spec.Transmitter
import Coursework.Nachos.SynchConsole

/-!
# Every key once, and who waits for it

Under any interleaving the readers of the console get the keys that were typed, in order and
each once, no assertion fails, and no thread sleeps beside a key or a free console. `readByte`
is exact but for one case: `charAvailable` stays set when the thread that slept for a key has
taken it, so that a call that must not block sleeps after such a read.
-/

namespace Nachos

namespace SynchConsole

open Gate (Stage Queued)

/-! ## Keys -/

/-- What a character gives after the character before it: a newline that follows a carriage
    return is the second half of one line end. -/
def keyAfter (before : Option Int) (c : Int) : Option Int :=
  if c = 0x0A ∧ before = some 0x0D then none else asciiKey c

/-- The keys in what the interrupts have found. -/
def keysAfter (before : Option Int) : List Int → List Int
  | [] => []
  | c :: cs => (keyAfter before c).toList ++ keysAfter (some c) cs

theorem keysAfter_concat (l : List Int) (c : Int) : ∀ before : Option Int,
    keysAfter before (l ++ [c]) =
      keysAfter before l ++ (keyAfter (l.getLast?.or before) c).toList := by
  induction l with
  | nil => simp [keysAfter]
  | cons x l ih =>
    intro before
    have hlast : ((x :: l).getLast?.or before) = l.getLast?.or (some x) := by
      cases l with
      | nil => rfl
      | cons y l => simp [List.getLast?_cons]
    rw [List.cons_append, keysAfter, keysAfter, ih, hlast, List.append_assoc]

/-- `translateCharacter` remembers the last character. -/
theorem translateCharacter_eq (before : Option Int) (c : Int) :
    translateCharacter (decide (before = some 0x0D)) c =
      (keyAfter before c, decide (some c = some 0x0D)) := by
  rw [translateCharacter, keyAfter]
  by_cases hnewline : c = 0x0A ∧ before = some 0x0D
  · simp [hnewline]
  · rw [if_neg hnewline, if_neg (by simpa using hnewline)]
    simp

/-- A text with two characters at each line end has the same keys. -/
theorem keysAfter_lineEnds (text : List Int) (htext : ∀ c ∈ text, c ≠ 0x0D) :
    ∀ before, before ≠ some 0x0D → keysAfter before
      (text.flatMap fun c => if c = 0x0A then [0x0D, 0x0A] else [c]) = keysAfter before text := by
  induction text with
  | nil => simp
  | cons c text ih =>
    intro before hbefore
    have hrest := ih (fun d hd => htext d (List.mem_cons_of_mem c hd)) (some c)
      (by simpa using htext c List.mem_cons_self)
    by_cases hc : c = 0x0A
    · subst hc
      simp [keysAfter, keyAfter, hbefore, hrest, asciiKey]
    · simp [keysAfter, hc, hrest]

/-! ## Reading -/

section Reading

variable {T : Type}

/-- The keys that were returned. -/
def Reading.bytes (m : Reading T) : List Int :=
  m.returned.filterMap Return.value

/-- Has a thread slept for the last key that was returned? -/
def Reading.lastWaited (m : Reading T) : Bool :=
  (m.returned.filter fun r => r.value.isSome).getLast?.any Return.waited

/-- A key that is there is counted by the semaphore, or a thread has been woken up for it; and
    the receive interrupt is pending while there is none. -/
structure Counts (m : Reading T) : Prop where
  queued : m.gate.Queued
  atomic : ∀ t, m.gate.stage t ≠ .beforeP
  interrupts : m.receiveInterrupts = if m.incomingKey = none then 1 else 0
  tokens : m.gate.value + (if m.gate.current = .afterP then 1 else 0) =
    if m.incomingKey = none then 0 else 1
  keys : keysAfter none m.polled = m.bytes ++ m.incomingKey.toList
  before : m.prevCarriageReturn = decide (m.polled.getLast? = some 0x0D)

/-- `charAvailable` tells if a key is there, but also after a key that a thread has slept for. -/
structure Reads (m : Reading T) : Prop extends Counts m where
  available : m.charAvailable = true ↔
    m.gate.current ≠ .waitP ∧ (m.incomingKey ≠ none ∨ m.lastWaited = true)

/-- What a thread that has the lock gets from `readByte(block)`. Only threads that wait for the
    lock may go on with it. -/
structure Answers (m m' : Reading T) (t : T) (block : Bool) : Prop where
  key : ∀ key, m.incomingKey = some key →
    m'.returned = m.returned ++ [⟨t, some key, false⟩] ∧ m'.gate.stage t = .outside
  sleeps : m.incomingKey = none → block = true ∨ m.lastWaited = true →
    m'.returned = m.returned ∧ m'.gate.stage t = .waitP
  nothing : m.incomingKey = none → block = false → m.lastWaited = false →
    m'.returned = m.returned ++ [⟨t, none, false⟩] ∧ m'.gate.stage t = .outside
  others : ∀ u, u ≠ t → (∀ call, m.gate.stage u ≠ .waitLock call) →
    m'.gate.stage u = m.gate.stage u

theorem Reads.start : Reads ({} : Reading T) :=
  ⟨⟨Queued.start, by simp, rfl, rfl, rfl, rfl⟩, by simp [Reading.lastWaited]⟩

variable {m : Reading T} {t : T}

/-- A thread sleeps for a key only while there is none. -/
theorem Counts.waitP (h : Counts m) (ht : m.gate.stage t = .waitP) :
    m.incomingKey = none ∧ m.receiveInterrupts = 1 := by
  have htokens := h.tokens
  have hzero := h.queued.zero t ht
  rw [Gate.current_of_holder (h.queued.holder (by rw [ht]; rfl)), ht, hzero] at htokens
  have hnone : m.incomingKey = none := by
    by_contra hne
    simp [hne] at htokens
  rw [h.interrupts, if_pos hnone]
  exact ⟨hnone, rfl⟩

/-- A thread that has been woken up finds a key. -/
theorem Counts.afterP (h : Counts m) (ht : m.gate.stage t = .afterP) :
    (∃ key, m.incomingKey = some key) ∧ m.gate.value = 0 ∧ m.receiveInterrupts = 0 := by
  have htokens := h.tokens
  have hinterrupts := h.interrupts
  rw [Gate.current_of_holder (h.queued.holder (by rw [ht]; rfl)), ht, if_pos rfl] at htokens
  cases hkey : m.incomingKey with
  | none => simp [hkey] at htokens
  | some key =>
    simp only [hkey, reduceCtorEq, if_false] at htokens hinterrupts
    exact ⟨⟨key, rfl⟩, by omega, hinterrupts⟩

variable [DecidableEq T] {prefer : T}

omit [DecidableEq T] in
theorem Reading.bytes_concat {m' : Reading T} {value : Option Int} {waited : Bool}
    (h : m'.returned = m.returned ++ [⟨t, value, waited⟩]) :
    m'.bytes = m.bytes ++ value.toList := by
  rw [bytes, bytes, h, List.filterMap_append]
  cases value <;> rfl

omit [DecidableEq T] in
theorem Reading.lastWaited_concat {m' : Reading T} {value : Option Int} {waited : Bool}
    (h : m'.returned = m.returned ++ [⟨t, value, waited⟩]) :
    m'.lastWaited = if value.isSome then waited else m.lastWaited := by
  rw [lastWaited, lastWaited, h, List.filter_append]
  cases value <;> simp

omit [DecidableEq T] in
theorem Counts.atomic_update (h : Counts m) {s : Stage Bool} (hs : s ≠ .beforeP) (u : T)
    [DecidableEq T] : Function.update m.gate.stage t s u ≠ .beforeP := by
  by_cases hu : u = t
  · simpa [hu] using hs
  · simpa [hu] using h.atomic u

/-- The thread returns from `readByte`. -/
theorem Counts.release (h : Counts m) (hlock : (m.gate.stage t).hasLock = true)
    (hne : m.gate.stage t ≠ .waitP) (prefer : T) :
    ∃ g, m.gate.release t prefer = some g ∧ g.Queued ∧ g.value = m.gate.value ∧
      g.current ≠ .afterP ∧ g.current ≠ .waitP ∧ (∀ u, g.stage u ≠ .beforeP) ∧
      g.stage t = .outside ∧ ∀ u, u ≠ t → (∀ call, m.gate.stage u ≠ .waitLock call) →
        g.stage u = m.gate.stage u := by
  obtain ⟨g, hg, hqueued, hvalue, hcases⟩ := h.queued.release hlock hne prefer
  have hcurrent : g.current ≠ .afterP ∧ g.current ≠ .waitP := by
    rcases Queued.release_current hcases with hfree | ⟨call, hlocked⟩
    · simp [hfree]
    · simp [hlocked]
  have hout (u : T) : Function.update m.gate.stage t .outside u ≠ .beforeP :=
    h.atomic_update (by simp) u
  refine ⟨g, hg, hqueued, hvalue, hcurrent.1, hcurrent.2, ?_⟩
  rcases hcases with ⟨-, -, hstage⟩ | ⟨v, call, hvt, hcall, -, hstage⟩
  · refine ⟨fun u => hstage ▸ hout u, ?_, fun u hut _ => ?_⟩
    · rw [hstage, Function.update_self]
    · rw [hstage, Function.update_of_ne hut]
  · refine ⟨fun u => ?_, ?_, fun u hut hu => ?_⟩
    · by_cases hv : u = v
      · simp [hstage, hv]
      · simpa [hstage, hv] using hout u
    · rw [hstage, Function.update_of_ne (Ne.symm hvt), Function.update_self]
    · have huv : u ≠ v := by
        rintro rfl
        exact hu call hcall
      rw [hstage, Function.update_of_ne huv, Function.update_of_ne hut]

theorem Reading.leave_eq {g : Gate T Bool} (hg : m.gate.release t prefer = some g)
    (value : Option Int) (waited : Bool) : m.leave t value waited prefer =
      some { m with gate := g, returned := m.returned ++ [⟨t, value, waited⟩] } := by
  simp [leave, hg]

theorem Reading.take_eq {g : Gate T Bool} {key : Int} (hkey : m.incomingKey = some key)
    (hg : m.gate.release t prefer = some g) (waited : Bool) : m.take t waited prefer =
      some { m with
        gate := g, incomingKey := none, receiveInterrupts := m.receiveInterrupts + 1
        returned := m.returned ++ [⟨t, some key, waited⟩] } := by
  simp [take, leave, hkey, hg]

/-- The thread takes the key, and the console asks for the next one. -/
theorem Counts.take (h : Counts m) (ht : m.gate.stage t = .afterP) (prefer : T) :
    ∃ m' key, m.take t m.charAvailable prefer = some m' ∧ Reads m' ∧
      m.incomingKey = some key ∧
      m'.returned = m.returned ++ [⟨t, some key, m.charAvailable⟩] ∧
      m'.gate.stage t = .outside ∧ ∀ u, u ≠ t → (∀ call, m.gate.stage u ≠ .waitLock call) →
        m'.gate.stage u = m.gate.stage u := by
  obtain ⟨⟨key, hkey⟩, hzero, hinterrupts⟩ := h.afterP ht
  obtain ⟨g, hg, hqueued, hvalue, hafterP, hwaitP, hatomic, hout, hothers⟩ :=
    h.release (by rw [ht]; rfl) (by simp [ht]) prefer
  have hkeys := h.keys
  rw [hkey] at hkeys
  refine ⟨_, key, Reading.take_eq hkey hg _, ⟨⟨hqueued, hatomic, ?_, ?_, ?_, h.before⟩, ?_⟩,
    hkey, rfl, hout, hothers⟩
  · simp [hinterrupts]
  · simp [hvalue, hzero, hafterP]
  · rw [Reading.bytes_concat (m := m) rfl]
    simpa using hkeys
  · rw [Reading.lastWaited_concat (m := m) rfl]
    simp [hwaitP]

/-- The thread has the lock, and tests if it may call `P`. -/
theorem Reads.test (h : Reads m) {block : Bool} (ht : m.gate.stage t = .locked block)
    (prefer : T) : ∃ m', m.test t block prefer = some m' ∧ Reads m' ∧ Answers m m' t block := by
  have hlock : (m.gate.stage t).hasLock = true := by rw [ht]; rfl
  have hholder := h.queued.holder hlock
  have hcurrent : m.gate.current = .locked block := by rw [Gate.current_of_holder hholder, ht]
  have htokens := h.tokens
  have havailable := h.available
  simp only [hcurrent, reduceCtorEq, if_false, Nat.add_zero] at htokens
  simp only [hcurrent, ne_eq, reduceCtorEq, not_false_eq_true, true_and] at havailable
  simp only [Reading.test]
  by_cases htest : (block || m.charAvailable) = true
  · rw [if_pos htest]
    obtain ⟨hqueued, hholder', hcases⟩ := h.queued.semaphoreP hlock (by simp [ht])
    have hatomic (u : T) : (m.gate.semaphoreP t).stage u ≠ .beforeP := by
      rcases hcases with ⟨-, -, hstage⟩ | ⟨-, hstage⟩ <;>
        exact hstage ▸ h.atomic_update (by simp) u
    rcases hcases with ⟨hzero, hzero', hstage⟩ | ⟨hvalue, hstage⟩
    · -- there is no key
      have hnone : m.incomingKey = none := by
        by_contra hne
        simp [hne, hzero] at htokens
      have hwait : (m.gate.semaphoreP t).stage t = .waitP := by
        rw [hstage, Function.update_self]
      have hcurrent' : (m.gate.semaphoreP t).current = .waitP := by
        rw [Gate.current_of_holder hholder', hwait]
      rw [if_pos hwait]
      refine ⟨_, rfl, ⟨⟨hqueued, hatomic, h.interrupts, ?_, h.keys, h.before⟩, ?_⟩, ?_⟩
      · simp [hcurrent', hzero', hnone]
      · simp [hcurrent']
      · refine ⟨by simp [hnone], fun _ _ => ⟨rfl, hwait⟩, fun _ hblock hlast => ?_,
          fun u hu _ => by simp [hstage, hu]⟩
        have hno : m.charAvailable = false := by
          simpa [hnone, hlast] using havailable
        simp [hblock, hno] at htest
    · -- `P` does not wait, so that there is a key
      have hafter : (m.gate.semaphoreP t).stage t = .afterP := by
        rw [hstage, Function.update_self]
      have hcurrent' : (m.gate.semaphoreP t).current = .afterP := by
        rw [Gate.current_of_holder hholder', hafter]
      rw [if_neg (by simp [hafter])]
      have hcounts : Counts
          { m with charAvailable := false, gate := m.gate.semaphoreP t } := by
        refine ⟨hqueued, hatomic, h.interrupts, ?_, h.keys, h.before⟩
        simp only [hcurrent', if_true]
        omega
      obtain ⟨m', key, hm', hreads, hkey, hreturned, hout, hothers⟩ := hcounts.take hafter prefer
      have hkey' : m.incomingKey = some key := hkey
      refine ⟨m', hm', hreads, fun other hother => ?_, by simp [hkey'], by simp [hkey'],
        fun u hu hnot => ?_⟩
      · rw [hkey', Option.some.injEq] at hother
        exact ⟨hother ▸ hreturned, hout⟩
      · have hsame : (m.gate.semaphoreP t).stage u = m.gate.stage u := by
          rw [hstage, Function.update_of_ne hu]
        exact (hothers u hu fun call => hsame ▸ hnot call).trans hsame
  · -- the call may not block, and nothing tells of a key
    rw [if_neg htest]
    simp only [Bool.or_eq_true, not_or, Bool.not_eq_true] at htest
    obtain ⟨hblock, hno⟩ := htest
    obtain ⟨hnone, hlast⟩ : m.incomingKey = none ∧ m.lastWaited = false := by
      simpa [hno] using havailable
    obtain ⟨g, hg, hqueued, hvalue, hafterP, hwaitP, hatomic, hout, hothers⟩ :=
      h.release hlock (by simp [ht]) prefer
    refine ⟨_, Reading.leave_eq hg none false,
      ⟨⟨hqueued, hatomic, h.interrupts, ?_, ?_, h.before⟩, ?_⟩, ?_⟩
    · simpa [hvalue, hafterP] using htokens
    · rw [Reading.bytes_concat (m := m) rfl]
      simpa using h.keys
    · rw [Reading.lastWaited_concat (m := m) rfl]
      simp [hno, hnone, hlast]
    · exact ⟨by simp [hnone], by simp [hblock, hlast], fun _ _ _ => ⟨rfl, hout⟩, hothers⟩

/-- A thread calls `readByte(block)`. -/
theorem Reads.readByte (h : Reads m) (ht : m.gate.stage t = .outside) (block : Bool)
    (prefer : T) : ∃ m', m.readByte t block prefer = some m' ∧ Reads m' ∧
      (m.gate.holder = none → Answers m m' t block) := by
  obtain ⟨g, hg, hqueued, hvalue, hcases⟩ := h.queued.acquire ht block
  have hatomic (u : T) : g.stage u ≠ .beforeP := by
    rcases hcases with ⟨-, -, hstage⟩ | ⟨-, -, hstage⟩ <;>
      exact hstage ▸ h.atomic_update (by simp) u
  rcases hcases with ⟨hfree, hholder, hstage⟩ | ⟨⟨v, hv⟩, hholder, hstage⟩
  · -- the thread has the lock at once, and goes on in the same step
    have hlocked : g.stage t = .locked block := by rw [hstage, Function.update_self]
    have hreads : Reads { m with gate := g } := by
      have htokens := h.tokens
      have havailable := h.available
      rw [Gate.current_of_free hfree] at htokens havailable
      refine ⟨⟨hqueued, hatomic, h.interrupts, ?_, h.keys, h.before⟩, ?_⟩
      · simpa [Gate.current_of_holder hholder, hlocked, hvalue] using htokens
      · show m.charAvailable = true ↔
          g.current ≠ .waitP ∧ (m.incomingKey ≠ none ∨ m.lastWaited = true)
        simpa [Gate.current_of_holder hholder, hlocked] using havailable
    obtain ⟨m', hm', hreads', hkey, hsleeps, hnothing, hothers⟩ := hreads.test hlocked prefer
    refine ⟨m', by simp [Reading.readByte, hg, hlocked, hm'], hreads',
      fun _ => ⟨hkey, hsleeps, hnothing, fun u hu hnot => ?_⟩⟩
    have hsame : g.stage u = m.gate.stage u := by
      rw [hstage, Function.update_of_ne hu]
    exact (hothers u hu fun call => hsame ▸ hnot call).trans hsame
  · -- another thread has the lock, and nothing changes for it
    have hwait : g.stage t = .waitLock block := by rw [hstage, Function.update_self]
    have hvt : v ≠ t := by
      rintro rfl
      have := (h.queued.lock v).mp hv
      simp [ht, Stage.hasLock] at this
    have hcurrent : g.current = m.gate.current := by
      rw [Gate.current_of_holder hv, Gate.current_of_holder (hholder.trans hv), hstage,
        Function.update_of_ne hvt]
    refine ⟨{ m with gate := g }, by simp [Reading.readByte, hg, hwait],
      ⟨⟨hqueued, hatomic, h.interrupts, ?_, h.keys, h.before⟩, ?_⟩, fun hfree => ?_⟩
    · show g.value + (if g.current = .afterP then 1 else 0) = _
      rw [hcurrent, hvalue]
      exact h.tokens
    · show _ ↔ g.current ≠ .waitP ∧ _
      rw [hcurrent]
      exact h.available
    · cases hv.symm.trans hfree

/-- A thread that has slept goes on. -/
theorem Reads.resume (h : Reads m) (t prefer : T) :
    ∃ m', m.resume t prefer = some m' ∧ Reads m' ∧
      (∀ block, m.gate.stage t = .locked block → Answers m m' t block) ∧
      (m.gate.stage t = .afterP → ∃ key, m.incomingKey = some key ∧
        m'.returned = m.returned ++ [⟨t, some key, true⟩]) := by
  simp only [Reading.resume]
  cases ht : m.gate.stage t with
  | outside | waitLock block | beforeP | waitP => exact ⟨m, rfl, h, by simp, by simp⟩
  | locked block =>
    obtain ⟨m', hm', hreads, hanswers⟩ := h.test ht prefer
    refine ⟨m', hm', hreads, fun other hother => ?_, by simp⟩
    cases hother
    exact hanswers
  | afterP =>
    obtain ⟨⟨key, hkey⟩, -, -⟩ := h.afterP ht
    have hcurrent : m.gate.current = .afterP := by
      rw [Gate.current_of_holder (h.queued.holder (by rw [ht]; rfl)), ht]
    have havailable : m.charAvailable = true := h.available.mpr (by simp [hcurrent, hkey])
    obtain ⟨m', key', hm', hreads, hkey', hreturned, -⟩ := h.take ht prefer
    rw [havailable] at hm' hreturned
    exact ⟨m', hm', hreads, by simp, fun _ => ⟨key', hkey', hreturned⟩⟩

/-- The machine looks for a key only while it has none. -/
theorem Reads.receiveInterrupt (h : Reads m) (hpending : m.receiveInterrupts ≠ 0) (c : Int)
    (prefer : T) : ∃ m', { m with receiveInterrupts := m.receiveInterrupts - 1 }.receiveInterrupt c
      prefer = some m' ∧ Reads m' := by
  have hnone : m.incomingKey = none := by
    by_contra hne
    exact hpending (h.interrupts.trans (if_neg hne))
  have hone : m.receiveInterrupts = 1 := h.interrupts.trans (if_pos hnone)
  have htokens := h.tokens
  have hkeys := h.keys
  have hconcat := keysAfter_concat m.polled c none
  rw [Option.or_none] at hconcat
  rw [hnone] at htokens hkeys
  simp only [Option.toList_none, List.append_nil] at hkeys
  rw [hkeys] at hconcat
  have htranslate : translateCharacter m.prevCarriageReturn c =
      (keyAfter m.polled.getLast? c, decide (some c = some 0x0D)) := by
    rw [h.before, translateCharacter_eq]
  simp only [Reading.receiveInterrupt, hnone, htranslate, Option.isSome_none, Bool.false_eq_true,
    if_false]
  cases hkey : keyAfter m.polled.getLast? c with
  | none =>
    -- no key was pressed, or it is the second half of a line end
    rw [hkey] at hconcat
    refine ⟨_, rfl, ⟨h.queued, h.atomic, by simp [hone], htokens, ?_, by simp⟩, ?_⟩
    · simpa [Reading.bytes] using hconcat
    · simpa [hnone, Reading.lastWaited] using h.available
  | some key =>
    -- the `V` is for a thread that sleeps, or for the next one that calls `P`
    rw [hkey] at hconcat
    obtain ⟨hwaitP, htokens'⟩ := h.queued.semaphoreV_current prefer
    obtain ⟨hqueued, -, hcases⟩ := h.queued.semaphoreV prefer
    refine ⟨_, rfl, ⟨hqueued, fun u => ?_, by simp [hone], ?_, ?_, by simp⟩, ?_⟩
    · rcases hcases with ⟨-, -, hstage⟩ | ⟨v, -, -, -, -, hstage⟩
      · exact hstage ▸ h.atomic u
      · exact hstage ▸ h.atomic_update (by simp) u
    · rw [htokens'] at *
      simpa using htokens
    · simpa [Reading.bytes] using hconcat
    · simpa using hwaitP

end Reading

/-! ## Runs -/

section Runs

variable {T : Type}

/-- What the kernel and the machine agree on about the console. -/
structure Ok (c : Console T) : Prop where
  reading : Reads c.reading
  writing : Transmitter.Sends (· % 256) (fun _ => True) c.writing

theorem start_ok : Ok ({} : Console T) :=
  ⟨Reads.start, Transmitter.Sends.start⟩

variable [DecidableEq T] {c : Console T} {events : List (Event T)}

/-- No assertion fails. -/
theorem Ok.step (h : Ok c) (event : Event T) : ∃ c', c.step event = some c' ∧ Ok c' := by
  cases event with
  | readByte t block prefer =>
    by_cases ht : c.reading.gate.stage t = .outside
    · obtain ⟨m, hm, hreads, -⟩ := h.reading.readByte ht block prefer
      exact ⟨{ c with reading := m }, by simp [Console.step, ht, hm], hreads, h.writing⟩
    · exact ⟨c, by simp [Console.step, ht], h⟩
  | resume t prefer =>
    obtain ⟨m, hm, hreads, -⟩ := h.reading.resume t prefer
    exact ⟨{ c with reading := m }, by simp [Console.step, hm], hreads, h.writing⟩
  | receiveInterrupt key prefer =>
    by_cases hpending : c.reading.receiveInterrupts = 0
    · exact ⟨c, by simp [Console.step, hpending], h⟩
    · obtain ⟨m, hm, hreads⟩ := h.reading.receiveInterrupt hpending key prefer
      exact ⟨{ c with reading := m }, by simp [Console.step, hpending, hm], hreads, h.writing⟩
  | writeByte t value =>
    by_cases ht : c.writing.gate.stage t = .outside
    · obtain ⟨m, hm, hsends⟩ := h.writing.call ht (x := value) trivial
      exact ⟨{ c with writing := m }, by simp [Console.step, ht, hm], h.reading, hsends⟩
    · exact ⟨c, by simp [Console.step, ht], h⟩
  | writeStep t prefer =>
    obtain ⟨m, hm, hsends⟩ := h.writing.step t prefer
    exact ⟨{ c with writing := m }, by simp [Console.step, hm], h.reading, hsends⟩
  | sendInterrupt prefer =>
    by_cases hpending : c.writing.sendInterrupts = 0
    · exact ⟨c, by simp [Console.step, hpending], h⟩
    · obtain ⟨byte, m, -, hm, hsends⟩ := h.writing.interrupt hpending prefer
      exact ⟨{ c with writing := m }, by simp [Console.step, hpending, hm], h.reading, hsends⟩

theorem Ok.run (h : Ok c) (events : List (Event T)) :
    ∃ c', c.run events = some c' ∧ Ok c' := by
  induction events generalizing c with
  | nil => exact ⟨c, rfl, h⟩
  | cons event events ih =>
    obtain ⟨c₁, hstep, h₁⟩ := h.step event
    obtain ⟨c', hrun, h'⟩ := ih h₁
    refine ⟨c', ?_, h'⟩
    rw [Console.run, List.foldlM_cons, hstep]
    exact hrun

/-- The low bytes of what is written are put out in the order of `writeByte`, each once, and a
    thread comes back from `writeByte` only when its byte has been put out. -/
theorem run_output (events : List (Event T)) : ∃ c, ({} : Console T).run events = some c ∧
    (∃ done waiting, c.writing.sent = done ++ waiting ∧
      (done.map fun x => x.2 % 256) = c.writing.carried ∧
      (waiting.map fun x => x.2 % 256) = c.writing.outgoing.toList ∧
      ∀ x ∈ waiting, c.writing.gate.stage x.1 = .beforeP ∨ c.writing.gate.stage x.1 = .waitP) ∧
    (∀ t, c.writing.gate.stage t = .waitP → c.writing.sendInterrupts = 1) ∧
    ∀ t value, c.writing.gate.stage t = .waitLock value →
      ∃ u, c.writing.gate.holder = some u ∧ (c.writing.gate.stage u).hasLock = true := by
  obtain ⟨c, hrun, hok⟩ := start_ok.run events
  exact ⟨c, hrun, hok.writing.carried, fun t => hok.writing.waitP,
    fun t value => hok.writing.queued.held⟩

theorem run_ok (hrun : ({} : Console T).run events = some c) : Ok c := by
  obtain ⟨c', hrun', hok⟩ := start_ok.run events
  exact Option.some.inj (hrun'.symm.trans hrun) ▸ hok

/-- A thread that has the lock gets a key at once if and only if there is one. If there is none
    it sleeps when it may block, but also when it may not and the last key that was returned is
    one that a thread has slept for; otherwise it gets -1. A thread that has slept for a key
    gets one. -/
theorem run_answers (hrun : ({} : Console T).run events = some c) (t prefer : T) (block : Bool) :
    (c.reading.gate.stage t = .outside → c.reading.gate.holder = none →
      ∃ m, c.reading.readByte t block prefer = some m ∧ Answers c.reading m t block) ∧
    (c.reading.gate.stage t = .locked block →
      ∃ m, c.reading.resume t prefer = some m ∧ Answers c.reading m t block) ∧
    (c.reading.gate.stage t = .afterP →
      ∃ m key, c.reading.resume t prefer = some m ∧ c.reading.incomingKey = some key ∧
        m.returned = c.reading.returned ++ [⟨t, some key, true⟩]) := by
  have hreads := (run_ok hrun).reading
  refine ⟨fun hout hfree => ?_, fun hlocked => ?_, fun hafter => ?_⟩
  · obtain ⟨m, hm, -, hanswers⟩ := hreads.readByte hout block prefer
    exact ⟨m, hm, hanswers hfree⟩
  · obtain ⟨m, hm, -, hanswers, -⟩ := hreads.resume t prefer
    exact ⟨m, hm, hanswers block hlocked⟩
  · obtain ⟨m, hm, -, -, hkey⟩ := hreads.resume t prefer
    obtain ⟨key, hkey, hreturned⟩ := hkey hafter
    exact ⟨m, key, hm, hkey, hreturned⟩

/-- A thread sleeps for an A; after that no key is there, and a thread that must not block
    sleeps too. -/
theorem run_answers_letter : ∃ c m, ({} : Console Bool).run
      [.readByte true true true, .receiveInterrupt 65 true, .resume true true] = some c ∧
    c.reading.returned = [⟨true, some 65, true⟩] ∧
    c.reading.readByte false false false = some m ∧ m.gate.stage false = .waitP := by
  obtain ⟨c, hc, hreturned, hkey⟩ : ∃ c, ({} : Console Bool).run
      [.readByte true true true, .receiveInterrupt 65 true, .resume true true] = some c ∧
      c.reading.returned = [⟨true, some 65, true⟩] ∧ c.reading.incomingKey = none ∧
      c.reading.gate.stage false = .outside ∧ c.reading.gate.holder = none :=
    ⟨_, rfl, by decide, by decide, by decide, by decide⟩
  obtain ⟨m, hm, hanswers⟩ := (run_answers hc false false false).1 hkey.2.1 hkey.2.2
  have hlast : c.reading.lastWaited = true := by
    rw [Reading.lastWaited, hreturned]
    rfl
  exact ⟨c, m, hc, hreturned, hm, (hanswers.sleeps hkey.1 (Or.inr hlast)).2⟩

/-- No thread is in `readByte`, and none has slept in it for the last key. -/
structure Polls (m : Reading T) : Prop where
  outside : ∀ t, m.gate.stage t = .outside
  lastWaited : m.lastWaited = false

omit [DecidableEq T] in
theorem Polls.free {m : Reading T} (h : Polls m) (hreads : Reads m) : m.gate.holder = none := by
  cases hholder : m.gate.holder with
  | none => rfl
  | some t =>
    have := (hreads.queued.lock t).mp hholder
    simp [h.outside, Stage.hasLock] at this

/-- A call that must not block returns. -/
theorem Polls.readByte {m : Reading T} (h : Polls m) (hreads : Reads m) (t prefer : T) :
    ∃ m', m.readByte t false prefer = some m' ∧ Polls m' := by
  obtain ⟨m', hm', -, hanswers⟩ := hreads.readByte (h.outside t) false prefer
  obtain ⟨hkey, -, hnothing, hothers⟩ := hanswers (h.free hreads)
  have hreturn : m'.lastWaited = false ∧ m'.gate.stage t = .outside := by
    cases hincoming : m.incomingKey with
    | none =>
      obtain ⟨hreturned, hout⟩ := hnothing hincoming rfl h.lastWaited
      exact ⟨(Reading.lastWaited_concat hreturned).trans h.lastWaited, hout⟩
    | some key =>
      obtain ⟨hreturned, hout⟩ := hkey key hincoming
      exact ⟨Reading.lastWaited_concat hreturned, hout⟩
  refine ⟨m', hm', fun u => ?_, hreturn.1⟩
  by_cases hu : u = t
  · exact hu ▸ hreturn.2
  · exact (hothers u hu (by simp [h.outside])).trans (h.outside u)

/-- The machine finds a key or none. -/
theorem Polls.receiveInterrupt {m m' : Reading T} (h : Polls m) (hreads : Reads m) {key : Int}
    {prefer : T} (hstep : { m with receiveInterrupts := m.receiveInterrupts - 1 }.receiveInterrupt
      key prefer = some m') : Polls m' := by
  obtain ⟨-, -, ⟨-, -, hstage⟩ | ⟨u, -, hwait, -⟩⟩ := hreads.queued.semaphoreV prefer
  · simp only [Reading.receiveInterrupt] at hstep
    split at hstep
    · exact nomatch hstep
    · split at hstep <;> cases hstep
      · exact ⟨h.outside, h.lastWaited⟩
      · exact ⟨fun t => hstage ▸ h.outside t, h.lastWaited⟩
  · simp [h.outside] at hwait

theorem Polls.step (h : Polls c.reading) (hok : Ok c) {event : Event T}
    (hevent : ∀ t prefer, event ≠ .readByte t true prefer) {c' : Console T}
    (hstep : c.step event = some c') : Polls c'.reading := by
  cases event with
  | readByte t block prefer =>
    obtain rfl : block = false := by
      cases block with
      | false => rfl
      | true => exact absurd rfl (hevent t prefer)
    obtain ⟨m, hm, hpolls⟩ := h.readByte hok.reading t prefer
    simp only [Console.step, h.outside, if_true, hm] at hstep
    cases hstep
    exact hpolls
  | resume t prefer =>
    simp only [Console.step, Reading.resume, h.outside] at hstep
    cases hstep
    exact h
  | receiveInterrupt key prefer =>
    simp only [Console.step] at hstep
    split at hstep
    · cases hstep
      exact h
    · obtain ⟨m, hm, hc'⟩ := Option.bind_eq_some_iff.mp hstep
      cases hc'
      exact h.receiveInterrupt hok.reading hm
  | writeByte t value =>
    simp only [Console.step] at hstep
    split at hstep
    · obtain ⟨m, -, hc'⟩ := Option.bind_eq_some_iff.mp hstep
      cases hc'
      exact h
    · cases hstep
      exact h
  | writeStep t prefer =>
    obtain ⟨m, -, hc'⟩ := Option.bind_eq_some_iff.mp hstep
    cases hc'
    exact h
  | sendInterrupt prefer =>
    simp only [Console.step] at hstep
    split at hstep
    · cases hstep
      exact h
    · obtain ⟨⟨byte, m⟩, -, hc'⟩ := Option.bind_eq_some_iff.mp hstep
      cases hc'
      exact h

theorem Polls.run (h : Polls c.reading) (hok : Ok c)
    (hevents : ∀ t prefer, Event.readByte t true prefer ∉ events) {c' : Console T}
    (hrun : c.run events = some c') : Polls c'.reading := by
  induction events generalizing c with
  | nil =>
    cases hrun
    exact h
  | cons event events ih =>
    obtain ⟨c₁, hstep, hok₁⟩ := hok.step event
    rw [Console.run, List.foldlM_cons, hstep] at hrun
    refine ih (h.step hok (fun t prefer he => ?_) hstep) hok₁ (fun t prefer he => ?_) hrun
    · exact hevents t prefer (he ▸ List.mem_cons_self)
    · exact hevents t prefer (List.mem_cons_of_mem _ he)

/-- Without blocking calls, as in a system whose programs read the console as a file, no thread
    ever sleeps in `readByte`. -/
theorem run_polls (hevents : ∀ t prefer, Event.readByte t true prefer ∉ events)
    (hrun : ({} : Console T).run events = some c) (t : T) : c.reading.gate.stage t = .outside :=
  (Polls.run ⟨fun _ => rfl, rfl⟩ start_ok hevents hrun).outside t

/-- A thread looks for a key before and after an A is typed. -/
theorem run_polls_letter : ∃ c, ({} : Console Bool).run
      [.readByte true false true, .receiveInterrupt 65 true, .readByte true false true] = some c ∧
    c.reading.returned = [⟨true, none, false⟩, ⟨true, some 65, false⟩] ∧
    c.reading.gate.stage true = .outside := by
  obtain ⟨c, hc, hreturned⟩ : ∃ c, ({} : Console Bool).run
      [.readByte true false true, .receiveInterrupt 65 true, .readByte true false true] = some c ∧
      c.reading.returned = [⟨true, none, false⟩, ⟨true, some 65, false⟩] := ⟨_, rfl, by decide⟩
  refine ⟨c, hc, hreturned, run_polls (fun t prefer => ?_) hc true⟩
  cases t <;> cases prefer <;> decide

end Runs

end SynchConsole

end Nachos
