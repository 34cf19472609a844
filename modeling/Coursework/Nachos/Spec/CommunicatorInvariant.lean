import Coursework.Nachos.Communicator
import Coursework.Nachos.Spec.ThreadsMesa

/-!
# The invariant of a communicator

Whenever the lock is free, either a word is spoken and its speaker is the one thread asleep
on `pairs`, or no word is spoken and nobody is asleep there; inside the lock, `Held` says
the same for each statement. For the wake-ups, a thread that is on its way to act on
`spoken` accounts for those still asleep: a listener while a word is spoken, a speaker while
none is.
-/

namespace Nachos

namespace Communicator

open Mesa (Phase Step Steps Queued)

/-- The communicator as a monitor. -/
abbrev Monitor (T : Type) := Mesa.State T Unit Cond Point Fields

/-! ## Statements -/

/-- The statements that neither wait nor wake. -/
inductive Act (f : Fields) : Point → Fields → Point → Prop where
  | callSpeak (w : Int) :
      Act f .outside { f with calls := f.calls ++ [.speak w] } (.speak f.calls.length w .acquire)
  | callListen :
      Act f .outside { f with calls := f.calls ++ [.listen] } (.listen f.calls.length 0 .acquire)
  | spoken {i : Nat} {w : Int} (h : f.spoken = true) :
      Act f (.speak i w .whileSpoken) f (.speak i w .countSpeaker)
  | notSpoken {i : Nat} {w : Int} (h : f.spoken = false) :
      Act f (.speak i w .whileSpoken) f (.speak i w .setWord)
  | count {i : Nat} {w : Int} :
      Act f (.speak i w .countSpeaker) { f with numberOfSpeakers := f.numberOfSpeakers + 1 }
        (.speak i w .sleepSpeaker)
  | uncount {i : Nat} {w : Int} :
      Act f (.speak i w .uncountSpeaker) { f with numberOfSpeakers := f.numberOfSpeakers - 1 }
        (.speak i w .whileSpoken)
  | setWord {i : Nat} {w : Int} :
      Act f (.speak i w .setWord) { f with myword := w, speaker := i } (.speak i w .setSpoken)
  | setSpoken {i : Nat} {w : Int} :
      Act f (.speak i w .setSpoken) { f with spoken := true } (.speak i w .wakeListener)
  | retSpeak {i : Nat} {w : Int} :
      Act f (.speak i w .ret) { f with spoke := i :: f.spoke } .outside
  | heard {i : Nat} {w : Int} (h : f.spoken = true) :
      Act f (.listen i w .whileSilent) f (.listen i w .ifNoSpeakers)
  | silent {i : Nat} {w : Int} (h : f.spoken = false) :
      Act f (.listen i w .whileSilent) f (.listen i w .sleepListener)
  | noSpeakers {i : Nat} {w : Int} (h : f.numberOfSpeakers = 0) :
      Act f (.listen i w .ifNoSpeakers) f (.listen i w .clearSpoken)
  | someSpeakers {i : Nat} {w : Int} (h : f.numberOfSpeakers ≠ 0) :
      Act f (.listen i w .ifNoSpeakers) f (.listen i w .readWord)
  | clearSpoken {i : Nat} {w : Int} :
      Act f (.listen i w .clearSpoken) { f with spoken := false } (.listen i w .readWord)
  | readWord {i : Nat} {w : Int} :
      Act f (.listen i w .readWord) { f with takes := ⟨i, f.speaker, f.myword⟩ :: f.takes }
        (.listen i f.myword .wakePair)
  | speakersWait {i : Nat} {w : Int} (h : f.numberOfSpeakers > 0) :
      Act f (.listen i w .ifSpeakers) f (.listen i w .clearSpokenAgain)
  | noSpeakerWaits {i : Nat} {w : Int} (h : ¬ f.numberOfSpeakers > 0) :
      Act f (.listen i w .ifSpeakers) f (.listen i w .release)
  | clearSpokenAgain {i : Nat} {w : Int} :
      Act f (.listen i w .clearSpokenAgain) { f with spoken := false } (.listen i w .wakeSpeaker)
  | retListen {i : Nat} {w : Int} :
      Act f (.listen i w .ret) { f with heard := (i, w) :: f.heard } .outside

/-- The point after `sleep` on a condition. -/
def Point.waitsOn : Point → Option Cond
  | .speak _ _ .uncountSpeaker => some .speakers
  | .speak _ _ .release => some .pairs
  | .listen _ _ .whileSilent => some .listeners
  | _ => none

/-- The statements that sleep. -/
inductive Sleeps : Point → Cond → Point → Prop where
  | speakers {i : Nat} {w : Int} :
      Sleeps (.speak i w .sleepSpeaker) .speakers (.speak i w .uncountSpeaker)
  | pairs {i : Nat} {w : Int} : Sleeps (.speak i w .sleepPair) .pairs (.speak i w .release)
  | listeners {i : Nat} {w : Int} :
      Sleeps (.listen i w .sleepListener) .listeners (.listen i w .whileSilent)

/-- The statements that wake. -/
inductive Wakes : Point → Cond → Point → Prop where
  | listeners {i : Nat} {w : Int} :
      Wakes (.speak i w .wakeListener) .listeners (.speak i w .sleepPair)
  | pairs {i : Nat} {w : Int} : Wakes (.listen i w .wakePair) .pairs (.listen i w .ifSpeakers)
  | speakers {i : Nat} {w : Int} :
      Wakes (.listen i w .wakeSpeaker) .speakers (.listen i w .release)

/-- The statements that acquire the lock. -/
inductive Acquires : Point → Point → Prop where
  | speak {i : Nat} {w : Int} : Acquires (.speak i w .acquire) (.speak i w .whileSpoken)
  | listen {i : Nat} {w : Int} : Acquires (.listen i w .acquire) (.listen i w .whileSilent)

/-- The statements that release the lock. -/
inductive Releases : Point → Point → Prop where
  | speak {i : Nat} {w : Int} : Releases (.speak i w .release) (.speak i w .ret)
  | listen {i : Nat} {w : Int} : Releases (.listen i w .release) (.listen i w .ret)

section Instr

variable {T : Type} {t : T} {pc pc' : Point} {f f' : Fields} {call : Call}

theorem act_of_instr (h : (program T).instr t pc f call = .act f' pc') : Act f pc f' pc' := by
  cases pc with
  | outside => cases call <;> cases h <;> constructor
  | speak i w line =>
    cases line <;> simp only [program, speak, reduceCtorEq, Mesa.Instr.act.injEq] at h
    case whileSpoken =>
      obtain ⟨rfl, rfl⟩ := h
      cases hs : f.spoken <;> simp <;> constructor <;> exact hs
    all_goals
      obtain ⟨rfl, rfl⟩ := h
      constructor
  | listen i w line =>
    cases line <;> simp only [program, listen, reduceCtorEq, Mesa.Instr.act.injEq] at h
    case whileSilent =>
      obtain ⟨rfl, rfl⟩ := h
      cases hs : f.spoken <;> simp <;> constructor <;> exact hs
    case ifNoSpeakers =>
      obtain ⟨rfl, rfl⟩ := h
      split <;> constructor <;> assumption
    case ifSpeakers =>
      obtain ⟨rfl, rfl⟩ := h
      split <;> constructor <;> assumption
    all_goals
      obtain ⟨rfl, rfl⟩ := h
      constructor

theorem sleeps_of_instr {c : Cond} (h : (program T).instr t pc f call = .sleep c pc') :
    Sleeps pc c pc' := by
  rcases pc with _ | ⟨i, w, line⟩ | ⟨i, w, line⟩
  · cases call <;> cases h
  · cases line <;> cases h
    all_goals constructor
  · cases line <;> cases h
    all_goals constructor

theorem wakes_of_instr {c : Cond} (h : (program T).instr t pc f call = .wake c pc') :
    Wakes pc c pc' := by
  rcases pc with _ | ⟨i, w, line⟩ | ⟨i, w, line⟩
  · cases call <;> cases h
  · cases line <;> cases h
    all_goals constructor
  · cases line <;> cases h
    all_goals constructor

theorem acquires_of_instr {l : Unit} (h : (program T).instr t pc f call = .acquire l pc') :
    Acquires pc pc' := by
  rcases pc with _ | ⟨i, w, line⟩ | ⟨i, w, line⟩
  · cases call <;> cases h
  · cases line <;> cases h
    all_goals constructor
  · cases line <;> cases h
    all_goals constructor

theorem releases_of_instr {l : Unit} (h : (program T).instr t pc f call = .release l pc') :
    Releases pc pc' := by
  rcases pc with _ | ⟨i, w, line⟩ | ⟨i, w, line⟩
  · cases call <;> cases h
  · cases line <;> cases h
    all_goals constructor
  · cases line <;> cases h
    all_goals constructor

end Instr

/-! ## The invariant -/

/-- Is the lock needed to execute the statement at this point? -/
def Point.inside : Point → Bool
  | .outside => false
  | .speak _ _ line => line != .acquire && line != .ret
  | .listen _ _ line => line != .acquire && line != .ret

/-- The call a thread is in. -/
def Point.call : Point → Option Nat
  | .outside => none
  | .speak i _ _ => some i
  | .listen i _ _ => some i

/-- Is the thread counted in `numberOfSpeakers`? -/
def Point.counted : Point → Bool
  | .speak _ _ .sleepSpeaker => true
  | .speak _ _ .uncountSpeaker => true
  | _ => false

/-- Does the thread go on to wake a listener or to take the word? -/
def Point.attends : Point → Bool
  | .speak _ _ .wakeListener => true
  | .listen _ _ .whileSilent => true
  | .listen _ _ .ifNoSpeakers => true
  | .listen _ _ .clearSpoken => true
  | .listen _ _ .readWord => true
  | .listen _ _ .wakePair => true
  | .listen _ _ .ifSpeakers => true
  | .listen _ _ .clearSpokenAgain => true
  | _ => false

/-- Does the thread go on to wake a speaker or to speak? -/
def Point.serves : Point → Bool
  | .speak _ _ .whileSpoken => true
  | .speak _ _ .uncountSpeaker => true
  | .speak _ _ .setWord => true
  | .speak _ _ .setSpoken => true
  | .listen _ _ .wakeSpeaker => true
  | _ => false

/-- The points where a thread can get the lock. -/
def Point.entry : Point → Bool
  | .speak _ _ .whileSpoken => true
  | pc => pc.waitsOn.isSome

/-- The word of `speak` call `i` has been taken. -/
def Taken (f : Fields) (i : Nat) : Prop := ∃ k ∈ f.takes, k.speaker = i

/-- The call of a thread is on record. -/
def CallOk (f : Fields) : Point → Prop
  | .outside => True
  | .speak i w _ => f.calls[i]? = some (.speak w)
  | .listen i _ _ => f.calls[i]? = some .listen

/-- A speaker is past `pairs.sleep()` iff its word has been taken, and a listener is past
    its read iff it has taken a word. -/
def StageOk (f : Fields) : Point → Prop
  | .outside => True
  | .speak i _ .release => Taken f i
  | .speak i _ .ret => Taken f i
  | .speak i _ _ => ¬ Taken f i
  | .listen i w .wakePair => ∃ s, ⟨i, s, w⟩ ∈ f.takes
  | .listen i w .ifSpeakers => ∃ s, ⟨i, s, w⟩ ∈ f.takes
  | .listen i w .clearSpokenAgain => ∃ s, ⟨i, s, w⟩ ∈ f.takes
  | .listen i w .wakeSpeaker => ∃ s, ⟨i, s, w⟩ ∈ f.takes
  | .listen i w .release => ∃ s, ⟨i, s, w⟩ ∈ f.takes
  | .listen i w .ret => ∃ s, ⟨i, s, w⟩ ∈ f.takes
  | .listen i _ _ => ∀ k ∈ f.takes, k.listener ≠ i

/-- What holds of one thread. A speaker that is asleep on `pairs` is looked after by
    `Waiting`. -/
def PhaseOk (f : Fields) : Phase Unit Cond Point → Prop
  | .run pc => CallOk f pc ∧ StageOk f pc
  | .entering _ pc => CallOk f pc ∧ StageOk f pc ∧ pc.entry = true
  | .asleep c pc => CallOk f pc ∧ (c ≠ .pairs → StageOk f pc) ∧ pc.waitsOn = some c
  | .woken c pc => CallOk f pc ∧ StageOk f pc ∧ pc.waitsOn = some c

variable {T : Type}

/-- The speaker of `myword` is the one thread asleep on `pairs`. -/
structure Waiting (st : Monitor T) (u : T) : Prop where
  queue : st.queue .pairs = [u]
  thread : st.thread u = .asleep .pairs (.speak st.shared.speaker st.shared.myword .release)

/-- A word waits to be taken. -/
def Full (st : Monitor T) : Prop := (∃ u, Waiting st u) ∧ ¬ Taken st.shared st.shared.speaker

/-- No speaker waits for its word to be taken. -/
def Empty (st : Monitor T) : Prop := st.queue .pairs = []

/-- What holds when the lock is free. -/
def Settled (st : Monitor T) : Prop :=
  if st.shared.spoken then Full st else Empty st

/-- What holds while a thread inside the lock is at a statement. -/
def Held (st : Monitor T) : Point → Prop
  | .speak _ _ .countSpeaker => st.shared.spoken = true ∧ Full st
  | .speak _ _ .sleepSpeaker => st.shared.spoken = true ∧ Full st
  | .speak _ _ .setWord => st.shared.spoken = false ∧ Empty st
  | .speak i w .setSpoken =>
    st.shared.spoken = false ∧ Empty st ∧ st.shared.speaker = i ∧ st.shared.myword = w
  | .speak i w .wakeListener =>
    st.shared.spoken = true ∧ Empty st ∧ st.shared.speaker = i ∧ st.shared.myword = w
  | .speak i w .sleepPair =>
    st.shared.spoken = true ∧ Empty st ∧ st.shared.speaker = i ∧ st.shared.myword = w
  | .listen _ _ .sleepListener => st.shared.spoken = false ∧ Empty st
  | .listen _ _ .ifNoSpeakers => st.shared.spoken = true ∧ Full st
  | .listen _ _ .clearSpoken => st.shared.numberOfSpeakers = 0 ∧ Full st
  | .listen _ _ .readWord => (st.shared.numberOfSpeakers = 0 → st.shared.spoken = false) ∧ Full st
  | .listen _ _ .wakePair => (st.shared.numberOfSpeakers = 0 → st.shared.spoken = false) ∧
      Taken st.shared st.shared.speaker ∧ ∃ u, Waiting st u
  | .listen _ _ .ifSpeakers =>
    (st.shared.numberOfSpeakers = 0 → st.shared.spoken = false) ∧ Empty st
  | .listen _ _ .clearSpokenAgain => Empty st
  | .listen _ _ .wakeSpeaker => st.shared.spoken = false ∧ Empty st
  | .listen _ _ .release => st.shared.spoken = false ∧ Empty st
  | _ => Settled st

/-- What the history records. -/
structure TakesOk (f : Fields) : Prop where
  listeners : (f.takes.map Take.listener).Nodup
  speakers : (f.takes.map Take.speaker).Nodup
  words : ∀ k ∈ f.takes, f.calls[k.speaker]? = some (.speak k.word)
  listens : ∀ k ∈ f.takes, f.calls[k.listener]? = some .listen
  spoke : ∀ i ∈ f.spoke, Taken f i
  heard : ∀ i w, (i, w) ∈ f.heard → ∃ s, ⟨i, s, w⟩ ∈ f.takes

/-- Is the thread awake? -/
def awake : Phase Unit Cond Point → Bool
  | .asleep _ _ => false
  | _ => true

/-- Does the thread execute statements inside the lock? -/
def hasLock : Phase Unit Cond Point → Bool
  | .run pc => pc.inside
  | _ => false

/-- The invariant of every interleaving. -/
structure Inv (st : Monitor T) : Prop where
  queued : Queued st
  lock : ∀ t, st.holder () = some t ↔ hasLock (st.thread t) = true
  distinct : ∀ t u i, (st.thread t).next.call = some i → (st.thread u).next.call = some i → t = u
  ok : ∀ t, PhaseOk st.shared (st.thread t)
  counted : ∃ l : List T, l.Nodup ∧ st.shared.numberOfSpeakers = l.length ∧
    ∀ t, t ∈ l ↔ (st.thread t).next.counted = true
  free : st.holder () = none → Settled st
  held : ∀ t pc, st.thread t = .run pc → pc.inside = true → Held st pc
  takes : TakesOk st.shared
  listenerWoken : st.shared.spoken = true → st.queue .listeners ≠ [] →
    ∃ t, awake (st.thread t) = true ∧ (st.thread t).next.attends = true
  speakerWoken : st.shared.spoken = false → st.queue .speakers ≠ [] →
    ∃ t, awake (st.thread t) = true ∧ (st.thread t).next.serves = true

/-! ## One thread changes -/

section Update

variable {st : Monitor T} {t : T} {phase : Phase Unit Cond Point}

/-- The number of speakers is not negative. -/
theorem Inv.number_nonneg (h : Inv st) : 0 ≤ st.shared.numberOfSpeakers := by
  obtain ⟨l, -, hlen, -⟩ := h.counted
  omega

theorem lock_other (h : Inv st) (hheld : st.holder () = some t) {u : T} (hu : u ≠ t) :
    hasLock (st.thread u) = false := by
  rw [Bool.eq_false_iff, ne_eq, ← h.lock u, hheld]
  simpa using hu.symm

variable [DecidableEq T] {th : T → Phase Unit Cond Point} {holder : Option T}

theorem lock_same (h : ∀ u, holder = some u ↔ hasLock (th u) = true)
    (hsame : hasLock phase = hasLock (th t)) (u : T) :
    holder = some u ↔ hasLock (Function.update th t phase u) = true := by
  by_cases hu : u = t
  · subst hu
    simp [hsame, h]
  · simp [hu, h]

theorem lock_drop (phase : Phase Unit Cond Point) (h : Inv st) (hheld : st.holder () = some t)
    (hphase : hasLock phase = false) (u : T) :
    none = some u ↔ hasLock (Function.update st.thread t phase u) = true := by
  by_cases hu : u = t
  · subst hu
    simp [hphase]
  · simp [hu, lock_other h hheld hu]

theorem lock_take (phase : Phase Unit Cond Point) (h : Inv st) (hfree : st.holder () = none)
    (hphase : hasLock phase = true) (u : T) :
    some t = some u ↔ hasLock (Function.update st.thread t phase u) = true := by
  by_cases hu : u = t
  · subst hu
    simp [hphase]
  · have hnot := (h.lock u).not
    simp only [hfree, reduceCtorEq, not_false_eq_true, true_iff] at hnot
    simp [hu, Ne.symm hu, hnot]

theorem distinct_update
    (h : ∀ x y i, (th x).next.call = some i → (th y).next.call = some i → x = y)
    (hnew : ∀ i, phase.next.call = some i → ∀ u, u ≠ t → (th u).next.call ≠ some i)
    (x y : T) (i : Nat) (hx : (Function.update th t phase x).next.call = some i)
    (hy : (Function.update th t phase y).next.call = some i) : x = y := by
  by_cases hxt : x = t <;> by_cases hyt : y = t
  · exact hxt.trans hyt.symm
  · subst hxt
    simp only [Function.update_self, Function.update_of_ne hyt] at hx hy
    exact absurd hy (hnew i hx y hyt)
  · subst hyt
    simp only [Function.update_self, Function.update_of_ne hxt] at hx hy
    exact absurd hx (hnew i hy x hxt)
  · simp only [Function.update_of_ne hxt, Function.update_of_ne hyt] at hx hy
    exact h x y i hx hy

/-- A thread that stays in its call. -/
theorem distinct_same
    (h : ∀ x y i, (th x).next.call = some i → (th y).next.call = some i → x = y)
    (hsame : phase.next.call = (th t).next.call) (x y : T) (i : Nat)
    (hx : (Function.update th t phase x).next.call = some i)
    (hy : (Function.update th t phase y).next.call = some i) : x = y :=
  distinct_update h (fun i hi u hu heq => hu (h u t i heq (hsame ▸ hi))) x y i hx hy

theorem counted_same {n : Int}
    (h : ∃ l : List T, l.Nodup ∧ n = l.length ∧ ∀ u, u ∈ l ↔ (th u).next.counted = true)
    (hsame : phase.next.counted = (th t).next.counted) :
    ∃ l : List T, l.Nodup ∧ n = l.length ∧
      ∀ u, u ∈ l ↔ (Function.update th t phase u).next.counted = true := by
  obtain ⟨l, hnd, hlen, hmem⟩ := h
  refine ⟨l, hnd, hlen, fun u => ?_⟩
  by_cases hu : u = t
  · subst hu
    simp [hsame, hmem]
  · simp [hu, hmem]

theorem ok_update {f : Fields} (h : ∀ u, u ≠ t → PhaseOk f (th u)) (hnew : PhaseOk f phase)
    (u : T) : PhaseOk f (Function.update th t phase u) := by
  by_cases hu : u = t
  · subst hu
    simpa using hnew
  · simpa [hu] using h u hu

/-- A thread that keeps the promise of being on its way. -/
theorem woken_update {p : Point → Bool} (h : ∃ u, awake (th u) = true ∧ p (th u).next = true)
    (hkeep : awake (th t) = true → p (th t).next = true → awake phase = true ∧ p phase.next = true) :
    ∃ u, awake (Function.update th t phase u) = true ∧
      p (Function.update th t phase u).next = true := by
  obtain ⟨u, hawake, hp⟩ := h
  refine ⟨u, ?_⟩
  by_cases hu : u = t
  · subst hu
    simpa using hkeep hawake hp
  · simpa [hu] using ⟨hawake, hp⟩

end Update

/-! ## The slot -/

/-- The word in the slot and the speaker of it are the same. -/
structure SameSlot (st st' : Monitor T) : Prop where
  spoken : st'.shared.spoken = st.shared.spoken
  myword : st'.shared.myword = st.shared.myword
  number : st'.shared.numberOfSpeakers = st.shared.numberOfSpeakers
  speaker : st'.shared.speaker = st.shared.speaker
  takes : st'.shared.takes = st.shared.takes
  queue : st'.queue .pairs = st.queue .pairs
  thread : ∀ u pc, st.thread u = .asleep .pairs pc → st'.thread u = .asleep .pairs pc

namespace SameSlot

variable {st st' : Monitor T}

theorem waiting (h : SameSlot st st') {u : T} (hw : Waiting st u) : Waiting st' u :=
  ⟨h.queue.trans hw.queue, by rw [h.speaker, h.myword]; exact h.thread u _ hw.thread⟩

theorem taken (h : SameSlot st st') (i : Nat) : Taken st'.shared i ↔ Taken st.shared i := by
  simp only [Taken, h.takes]

theorem full (h : SameSlot st st') (hf : Full st) : Full st' :=
  ⟨hf.1.imp fun _ => h.waiting, by rw [h.speaker, h.taken]; exact hf.2⟩

theorem empty (h : SameSlot st st') (he : Empty st) : Empty st' := h.queue.trans he

theorem settled (h : SameSlot st st') (hs : Settled st) : Settled st' := by
  unfold Settled at hs ⊢
  rw [h.spoken]
  split
  · rw [if_pos ‹_›] at hs
    exact h.full hs
  · rw [if_neg ‹_›] at hs
    exact h.empty hs

/-- What a thread inside the lock relies on only depends on the slot. -/
theorem held (h : SameSlot st st') {pc : Point} (hh : Held st pc) : Held st' pc := by
  have hspoken := h.spoken
  have hnumber := h.number
  rcases pc with _ | ⟨i, w, line⟩ | ⟨i, w, line⟩
  · exact h.settled hh
  · cases line
    case countSpeaker => exact ⟨hspoken.trans hh.1, h.full hh.2⟩
    case sleepSpeaker => exact ⟨hspoken.trans hh.1, h.full hh.2⟩
    case setWord => exact ⟨hspoken.trans hh.1, h.empty hh.2⟩
    case setSpoken | wakeListener | sleepPair =>
      exact ⟨hspoken.trans hh.1, h.empty hh.2.1, h.speaker.trans hh.2.2.1,
        h.myword.trans hh.2.2.2⟩
    all_goals exact h.settled hh
  · cases line
    case sleepListener | wakeSpeaker | release =>
      exact ⟨hspoken.trans hh.1, h.empty hh.2⟩
    case ifNoSpeakers => exact ⟨hspoken.trans hh.1, h.full hh.2⟩
    case clearSpoken => exact ⟨hnumber.trans hh.1, h.full hh.2⟩
    case readWord =>
      exact ⟨fun hn => hspoken.trans (hh.1 (hnumber.symm.trans hn)), h.full hh.2⟩
    case wakePair =>
      exact ⟨fun hn => hspoken.trans (hh.1 (hnumber.symm.trans hn)),
        by rw [h.speaker, h.taken]; exact hh.2.1, hh.2.2.imp fun _ => h.waiting⟩
    case ifSpeakers =>
      exact ⟨fun hn => hspoken.trans (hh.1 (hnumber.symm.trans hn)), h.empty hh.2⟩
    case clearSpokenAgain => exact h.empty hh
    all_goals exact h.settled hh

end SameSlot

/-! ## Statements that neither wait nor wake -/

theorem stageOk_congr {f f' : Fields} (h : f'.takes = f.takes) (pc : Point) :
    StageOk f' pc ↔ StageOk f pc := by
  rcases pc with _ | ⟨i, w, line⟩ | ⟨i, w, line⟩
  · rfl
  · cases line <;> simp only [StageOk, Taken, h]
  · cases line <;> simp only [StageOk, h]

theorem phaseOk_mono {f f' : Fields} {phase : Phase Unit Cond Point}
    (hcall : ∀ pc, CallOk f pc → CallOk f' pc)
    (hstage : (∀ pc, phase ≠ .asleep .pairs pc) → StageOk f phase.next → StageOk f' phase.next)
    (h : PhaseOk f phase) : PhaseOk f' phase := by
  cases phase with
  | run pc => exact ⟨hcall pc h.1, hstage (by simp) h.2⟩
  | entering l pc => exact ⟨hcall pc h.1, hstage (by simp) h.2.1, h.2.2⟩
  | asleep c pc => exact ⟨hcall pc h.1, fun hc => hstage (by simp [hc]) (h.2.1 hc), h.2.2⟩
  | woken c pc => exact ⟨hcall pc h.1, hstage (by simp) h.2.1, h.2.2⟩

theorem PhaseOk.callOk {f : Fields} {phase : Phase Unit Cond Point} (h : PhaseOk f phase) :
    CallOk f phase.next := by
  cases phase <;> exact h.1

theorem CallOk.lt {f : Fields} {pc : Point} (h : CallOk f pc) {i : Nat} (hi : pc.call = some i) :
    i < f.calls.length := by
  rcases pc with _ | ⟨j, w, line⟩ | ⟨j, w, line⟩
  · simp [Point.call] at hi
  · obtain rfl := Option.some.inj hi
    exact (List.getElem?_eq_some_iff.mp h).1
  · obtain rfl := Option.some.inj hi
    exact (List.getElem?_eq_some_iff.mp h).1

/-- A call on record stays on record. -/
theorem calls_append {calls : List Call} {i : Nat} {c call : Call} (h : calls[i]? = some c) :
    (calls ++ [call])[i]? = some c := by
  rw [List.getElem?_append_left (List.getElem?_eq_some_iff.mp h).1]
  exact h

theorem callOk_append {f f' : Fields} {call : Call} (h : f'.calls = f.calls ++ [call]) {pc : Point}
    (hpc : CallOk f pc) : CallOk f' pc := by
  rcases pc with _ | ⟨i, w, line⟩ | ⟨i, w, line⟩
  · trivial
  · exact (congrArg (·[i]?) h).trans (calls_append hpc)
  · exact (congrArg (·[i]?) h).trans (calls_append hpc)

section Act

variable {f f' : Fields} {pc pc' : Point}

theorem Act.inside_eq (ha : Act f pc f' pc') : pc'.inside = pc.inside := by
  cases ha <;> rfl

theorem Act.callOk_mono (ha : Act f pc f' pc') {p : Point} (hp : CallOk f p) : CallOk f' p := by
  cases ha with
  | callSpeak w => exact callOk_append rfl hp
  | callListen => exact callOk_append rfl hp
  | _ => exact hp

/-- A call starts, returns or goes on. -/
theorem Act.call_cases (ha : Act f pc f' pc') :
    pc'.call = pc.call ∨ pc'.call = none ∨ pc'.call = some f.calls.length := by
  cases ha <;> simp [Point.call]

/-- Only the read of `myword` takes a word. -/
theorem Act.takes_eq (ha : Act f pc f' pc') (hread : ∀ i w, pc ≠ .listen i w .readWord) :
    f'.takes = f.takes := by
  cases ha with
  | readWord => exact absurd rfl (hread _ _)
  | _ => rfl

theorem TakesOk.taken_lt (h : TakesOk f) {i : Nat} (hi : Taken f i) : i < f.calls.length := by
  obtain ⟨k, hk, rfl⟩ := hi
  exact (List.getElem?_eq_some_iff.mp (h.words k hk)).1

theorem TakesOk.listener_lt (h : TakesOk f) {k : Take} (hk : k ∈ f.takes) :
    k.listener < f.calls.length :=
  (List.getElem?_eq_some_iff.mp (h.listens k hk)).1

/-- The thread that acts stays in order. -/
theorem Act.point_ok (ha : Act f pc f' pc') (ht : TakesOk f) (hc : CallOk f pc)
    (hs : StageOk f pc) : CallOk f' pc' ∧ StageOk f' pc' := by
  cases ha with
  | callSpeak w =>
    refine ⟨by simp [CallOk], fun htaken => ?_⟩
    exact absurd (ht.taken_lt htaken) (Nat.lt_irrefl _)
  | callListen =>
    refine ⟨by simp [CallOk], fun k hk heq => ?_⟩
    exact absurd (ht.listener_lt hk) (by omega)
  | retSpeak => exact ⟨trivial, trivial⟩
  | retListen => exact ⟨trivial, trivial⟩
  | readWord => exact ⟨hc, f.speaker, List.mem_cons_self⟩
  | _ => exact ⟨hc, hs⟩

/-- A word that is taken was put there by its speaker, and was not taken before. -/
theorem Act.takes_ok (ha : Act f pc f' pc') (ht : TakesOk f) (hc : CallOk f pc)
    (hs : StageOk f pc) (hread : ∀ i w, pc = .listen i w .readWord →
      f.calls[f.speaker]? = some (.speak f.myword) ∧ ¬ Taken f f.speaker) : TakesOk f' := by
  cases ha with
  | callSpeak w =>
    -- a call is added at the end of the list, so what the earlier numbers denote stays
    exact ⟨ht.listeners, ht.speakers, fun k hk => calls_append (ht.words k hk),
      fun k hk => calls_append (ht.listens k hk), ht.spoke, ht.heard⟩
  | callListen =>
    exact ⟨ht.listeners, ht.speakers, fun k hk => calls_append (ht.words k hk),
      fun k hk => calls_append (ht.listens k hk), ht.spoke, ht.heard⟩
  | @retSpeak i w =>
    -- the word that returned was taken: that is what its last stage promises
    refine ⟨ht.listeners, ht.speakers, ht.words, ht.listens, ?_, ht.heard⟩
    rintro j hj
    rcases List.mem_cons.mp hj with rfl | hj
    · exact hs
    · exact ht.spoke j hj
  | @retListen i w =>
    refine ⟨ht.listeners, ht.speakers, ht.words, ht.listens, ht.spoke, ?_⟩
    rintro j w' hj
    rcases List.mem_cons.mp hj with heq | hj
    · obtain ⟨rfl, rfl⟩ := Prod.mk.inj heq
      exact hs
    · exact ht.heard j w' hj
  | @readWord i w =>
    -- the only step that takes a word: the listener takes nothing else, and nobody else took
    -- this word
    obtain ⟨hword, hfresh⟩ := hread i w rfl
    refine ⟨?_, ?_, ?_, ?_, ?_, ?_⟩
    · refine List.nodup_cons.mpr ⟨fun hmem => ?_, ht.listeners⟩
      obtain ⟨k, hk, heq⟩ := List.mem_map.mp hmem
      exact hs k hk heq
    · refine List.nodup_cons.mpr ⟨fun hmem => ?_, ht.speakers⟩
      obtain ⟨k, hk, heq⟩ := List.mem_map.mp hmem
      exact hfresh ⟨k, hk, heq⟩
    · exact List.forall_mem_cons.mpr ⟨hword, ht.words⟩
    · exact List.forall_mem_cons.mpr ⟨hc, ht.listens⟩
    · intro j hj
      obtain ⟨k, hk, heq⟩ := ht.spoke j hj
      exact ⟨k, List.mem_cons_of_mem _ hk, heq⟩
    · intro j w' hj
      obtain ⟨s, hmem⟩ := ht.heard j w' hj
      exact ⟨s, List.mem_cons_of_mem _ hmem⟩
  | _ => exact ⟨ht.listeners, ht.speakers, ht.words, ht.listens, ht.spoke, ht.heard⟩

end Act

/-- Taking a word concerns its speaker and its listener only. -/
theorem stageOk_take {f : Fields} {k : Take} {pc : Point} (hl : pc.call ≠ some k.listener)
    (hs : pc.call ≠ some k.speaker) (h : StageOk f pc) :
    StageOk { f with takes := k :: f.takes } pc := by
  rcases pc with _ | ⟨i, w, line⟩ | ⟨i, w, line⟩
  · trivial
  · have hne : k.speaker ≠ i := fun heq => hs (by simp [Point.call, heq])
    have htaken : Taken { f with takes := k :: f.takes } i ↔ Taken f i := by
      simp [Taken, hne]
    cases line <;> simp only [StageOk, htaken] at h ⊢ <;> exact h
  · have hne : k.listener ≠ i := fun heq => hl (by simp [Point.call, heq])
    have hmem : ∀ s, (⟨i, s, w⟩ : Take) ∈ k :: f.takes ↔ ⟨i, s, w⟩ ∈ f.takes := by
      intro s
      refine ⟨fun hm => (List.mem_cons.mp hm).resolve_left ?_, List.mem_cons_of_mem k⟩
      rintro rfl
      exact hne rfl
    cases line <;> simp only [StageOk, hmem, List.forall_mem_cons] at h ⊢
    all_goals first | exact h | exact ⟨hne, h⟩

end Communicator

end Nachos
