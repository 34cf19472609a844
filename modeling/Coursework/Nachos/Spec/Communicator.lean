import Mathlib.Data.List.Nodup
import Coursework.Nachos.Spec.CommunicatorInvariant

/-!
# Communicator: delivery and pairing

Every step of every thread keeps the invariant of `CommunicatorInvariant.lean`. In every
interleaving of `speak` and `listen`, each word is therefore delivered exactly once, and a
speaker and a listener are never left asleep together.
-/

namespace Nachos

namespace Communicator

open Mesa (Phase Step Steps Queued)

variable {T : Type}

section Steps

variable {st : Monitor T} {t : T} {pc pc' : Point} {f' : Fields}

/-- The points after the sleep on one condition. -/
theorem waitsOn_listeners (h : pc.waitsOn = some .listeners) :
    ∃ i w, pc = .listen i w .whileSilent := by
  rcases pc with _ | ⟨i, w, line⟩ | ⟨i, w, line⟩
  · simp [Point.waitsOn] at h
  · cases line <;> simp [Point.waitsOn] at h
  · cases line <;> simp [Point.waitsOn] at h
    exact ⟨i, w, rfl⟩

theorem waitsOn_speakers (h : pc.waitsOn = some .speakers) :
    ∃ i w, pc = .speak i w .uncountSpeaker := by
  rcases pc with _ | ⟨i, w, line⟩ | ⟨i, w, line⟩
  · simp [Point.waitsOn] at h
  · cases line <;> simp [Point.waitsOn] at h
    exact ⟨i, w, rfl⟩
  · cases line <;> simp [Point.waitsOn] at h

theorem listener_attends (h : pc.waitsOn = some .listeners) : pc.attends = true := by
  obtain ⟨i, w, rfl⟩ := waitsOn_listeners h
  rfl

theorem speaker_serves (h : pc.waitsOn = some .speakers) : pc.serves = true := by
  obtain ⟨i, w, rfl⟩ := waitsOn_speakers h
  rfl

theorem waitsOn_entry {c : Cond} (h : pc.waitsOn = some c) : pc.entry = true := by
  unfold Point.entry
  split
  · rfl
  · simp [h]

/-- Every point where the lock is got relies on what holds when it is free. -/
theorem entry_held (hentry : pc.entry = true) (hset : Settled st) :
    pc.inside = true ∧ Held st pc := by
  rcases pc with _ | ⟨i, w, line⟩ | ⟨i, w, line⟩
  · simp [Point.entry, Point.waitsOn] at hentry
  · cases line <;> simp [Point.entry, Point.waitsOn] at hentry <;> exact ⟨rfl, hset⟩
  · cases line <;> simp [Point.entry, Point.waitsOn] at hentry
    exact ⟨rfl, hset⟩

/-- If nobody is counted, no speaker is asleep. -/
theorem Inv.speakers_nil (h : Inv st) (hn : st.shared.numberOfSpeakers = 0) :
    st.queue .speakers = [] := by
  obtain ⟨l, -, hlen, hmem⟩ := h.counted
  have hnil : l = [] := List.length_eq_zero_iff.mp (by omega)
  by_contra hq
  obtain ⟨u, rest, hcons⟩ := List.exists_cons_of_ne_nil hq
  obtain ⟨n, hn⟩ := h.queued.head_asleep hcons
  have hok := h.ok u
  rw [hn] at hok
  have hcounted : n.counted = true := by
    obtain ⟨i, w, rfl⟩ := waitsOn_speakers hok.2.2
    rfl
  have hul := (hmem u).mpr (by rw [hn]; exact hcounted)
  simp [hnil] at hul

/-- The other threads stay in order while one acts. -/
theorem Act.others_ok (h : Inv st) (hpc : st.thread t = .run pc) (ha : Act st.shared pc f' pc')
    {u : T} (hu : u ≠ t) : PhaseOk f' (st.thread u) := by
  refine phaseOk_mono (fun _ => ha.callOk_mono) (fun hnot hstage => ?_) (h.ok u)
  by_cases hread : ∃ i w, pc = .listen i w .readWord
  · obtain ⟨i, w, rfl⟩ := hread
    obtain ⟨-, ⟨v, hv⟩, -⟩ := h.held t _ hpc rfl
    have hcall : (st.thread t).next.call = some i := by rw [hpc]; rfl
    cases ha with
    | readWord =>
      refine stageOk_take (fun heq => hu (h.distinct u t i heq hcall)) (fun heq => ?_) hstage
      have huv := h.distinct u v _ heq (by rw [hv.thread]; rfl)
      exact hnot _ (huv ▸ hv.thread)
  · have htakes := ha.takes_eq fun i w heq => hread ⟨i, w, heq⟩
    exact (stageOk_congr htakes _).mpr hstage

variable [DecidableEq T]

/-- A statement outside the lock leaves the slot alone. -/
theorem Act.sameSlot (hpc : st.thread t = .run pc) (ha : Act st.shared pc f' pc')
    (hout : pc.inside = false) :
    SameSlot st { st with shared := f', thread := Function.update st.thread t (.run pc') } := by
  have hthread : ∀ u p, st.thread u = .asleep .pairs p →
      Function.update st.thread t (.run pc') u = .asleep .pairs p := by
    intro u p hu
    have hut : u ≠ t := by
      rintro rfl
      simp [hpc] at hu
    simpa [hut] using hu
  cases ha <;> first | exact ⟨rfl, rfl, rfl, rfl, rfl, rfl, hthread⟩ | simp [Point.inside] at hout

/-- The slot, while the thread with the lock acts on the other fields. -/
theorem Waiting.act {u : T} (h : Waiting st u) (hpc : st.thread t = .run pc)
    (hspeaker : f'.speaker = st.shared.speaker) (hword : f'.myword = st.shared.myword) :
    Waiting { st with shared := f', thread := Function.update st.thread t (.run pc') } u := by
  have hut : u ≠ t := by
    rintro rfl
    have hasleep := h.thread
    simp [hpc] at hasleep
  refine ⟨h.queue, ?_⟩
  simp only [hspeaker, hword, Function.update_of_ne hut]
  exact h.thread

theorem Full.act (h : Full st) (hpc : st.thread t = .run pc)
    (hspeaker : f'.speaker = st.shared.speaker) (hword : f'.myword = st.shared.myword)
    (htakes : f'.takes = st.shared.takes) :
    Full { st with shared := f', thread := Function.update st.thread t (.run pc') } := by
  refine ⟨h.1.imp fun _ hu => hu.act hpc hspeaker hword, ?_⟩
  simp only [Taken, hspeaker, htakes]
  exact h.2

theorem Settled.act (h : Settled st) (hpc : st.thread t = .run pc)
    (hspoken : f'.spoken = st.shared.spoken)
    (hspeaker : f'.speaker = st.shared.speaker) (hword : f'.myword = st.shared.myword)
    (htakes : f'.takes = st.shared.takes) :
    Settled { st with shared := f', thread := Function.update st.thread t (.run pc') } := by
  unfold Settled at h ⊢
  simp only [hspoken]
  split
  · rw [if_pos ‹_›] at h
    exact h.act hpc hspeaker hword htakes
  · rw [if_neg ‹_›] at h
    exact h

/-- Inside the lock, each statement establishes what the next one relies on. -/
theorem Act.held (h : Inv st) (hpc : st.thread t = .run pc) (ha : Act st.shared pc f' pc')
    (hin : pc.inside = true) :
    Held { st with shared := f', thread := Function.update st.thread t (.run pc') } pc' := by
  have hheld := h.held t pc hpc hin
  have hnonneg := h.number_nonneg
  cases ha with
  -- the four steps between calls happen outside the lock, so there is nothing to keep
  | callSpeak w => simp [Point.inside] at hin
  | callListen => simp [Point.inside] at hin
  | retSpeak => simp [Point.inside] at hin
  | retListen => simp [Point.inside] at hin
  | spoken hs =>
    -- `Settled` splits on the `spoken` flag, which is what the test at this point reads
    have hset : Settled st := hheld
    rw [Settled, if_pos hs] at hset
    exact ⟨hs, hset.act hpc rfl rfl rfl⟩
  | notSpoken hs =>
    have hset : Settled st := hheld
    rw [Settled, if_neg (by simp [hs])] at hset
    exact ⟨hs, hset⟩
  | count => exact ⟨hheld.1, hheld.2.act hpc rfl rfl rfl⟩
  | uncount =>
    have hset : Settled st := hheld
    exact hset.act hpc rfl rfl rfl rfl
  -- the word and the speaker are now the ones this call put down
  | setWord => exact ⟨hheld.1, hheld.2, rfl, rfl⟩
  | setSpoken => exact ⟨rfl, hheld.2⟩
  | heard hs =>
    have hset : Settled st := hheld
    rw [Settled, if_pos hs] at hset
    exact ⟨hs, hset.act hpc rfl rfl rfl⟩
  | silent hs =>
    have hset : Settled st := hheld
    rw [Settled, if_neg (by simp [hs])] at hset
    exact ⟨hs, hset⟩
  | noSpeakers hn => exact ⟨hn, hheld.2.act hpc rfl rfl rfl⟩
  | someSpeakers hn => exact ⟨fun h0 => absurd h0 hn, hheld.2.act hpc rfl rfl rfl⟩
  | clearSpoken => exact ⟨fun _ => rfl, hheld.2.act hpc rfl rfl rfl⟩
  | readWord =>
    -- the pairing just recorded is the witness that the word was taken; the owner of the
    -- condition queue is another thread, which this step does not touch
    refine ⟨hheld.1, ⟨_, List.mem_cons_self, rfl⟩, hheld.2.1.imp fun u hu => ?_⟩
    exact hu.act hpc rfl rfl
  | speakersWait hn => exact hheld.2
  | noSpeakerWaits hn => exact ⟨hheld.1 (by omega), hheld.2⟩
  | clearSpokenAgain => exact ⟨rfl, hheld⟩

/-- Counting and uncounting keep the number of speakers. -/
theorem Act.counted (h : Inv st) (hpc : st.thread t = .run pc) (ha : Act st.shared pc f' pc') :
    ∃ l : List T, l.Nodup ∧ f'.numberOfSpeakers = l.length ∧
      ∀ u, u ∈ l ↔ (Function.update st.thread t (.run pc') u).next.counted = true := by
  have hsame : f'.numberOfSpeakers = st.shared.numberOfSpeakers → pc'.counted = pc.counted →
      ∃ l : List T, l.Nodup ∧ f'.numberOfSpeakers = l.length ∧
        ∀ u, u ∈ l ↔ (Function.update st.thread t (.run pc') u).next.counted = true := by
    intro hn hc
    rw [hn]
    exact counted_same h.counted (by rw [hpc]; exact hc)
  obtain ⟨l, hnd, hlen, hmem⟩ := h.counted
  cases ha with
  | count =>
    have ht : t ∉ l := by
      rw [hmem, hpc]
      simp [Phase.next, Point.counted]
    refine ⟨t :: l, List.nodup_cons.mpr ⟨ht, hnd⟩, by simp [hlen], fun u => ?_⟩
    by_cases hu : u = t
    · simp [hu, Phase.next, Point.counted]
    · simp [hu, hmem]
  | uncount =>
    have ht : t ∈ l := by
      rw [hmem, hpc]
      rfl
    have hpos := List.length_pos_of_mem ht
    refine ⟨l.erase t, hnd.erase t, ?_, fun u => ?_⟩
    · rw [List.length_erase_of_mem ht]
      simp only [hlen]
      omega
    · by_cases hu : u = t
      · simp [hu, hnd.mem_erase_iff, Phase.next, Point.counted]
      · simp [hu, hnd.mem_erase_iff, hmem]
  | _ => exact hsame rfl rfl

/-- A listener that is on its way stays so, until no word is spoken. -/
theorem Act.listenerWoken (h : Inv st) (hpc : st.thread t = .run pc)
    (ha : Act st.shared pc f' pc') (hspoken : f'.spoken = true) (hq : st.queue .listeners ≠ []) :
    ∃ u, awake (Function.update st.thread t (.run pc') u) = true ∧
      (Function.update st.thread t (.run pc') u).next.attends = true := by
  have hnonneg := h.number_nonneg
  have hkeep : st.shared.spoken = true → (pc.attends = true → pc'.attends = true) →
      ∃ u, awake (Function.update st.thread t (.run pc') u) = true ∧
        (Function.update st.thread t (.run pc') u).next.attends = true := by
    intro hs hattends
    refine woken_update (h.listenerWoken hs hq) fun _ hp => ⟨rfl, hattends ?_⟩
    rwa [hpc] at hp
  cases ha with
  | setSpoken => exact ⟨t, by simp [awake], by simp [Phase.next, Point.attends]⟩
  | clearSpoken => simp at hspoken
  | clearSpokenAgain => simp at hspoken
  | silent hs => simp [hs] at hspoken
  | noSpeakerWaits hn =>
    -- the word was cleared because nobody was counted
    have hheld := h.held t _ hpc rfl
    simp [hheld.1 (by omega)] at hspoken
  | _ => exact hkeep hspoken (by simp [Point.attends])

/-- A speaker that is on its way stays so, until a word is spoken. -/
theorem Act.speakerWoken (h : Inv st) (hpc : st.thread t = .run pc)
    (ha : Act st.shared pc f' pc') (hspoken : f'.spoken = false) (hq : st.queue .speakers ≠ []) :
    ∃ u, awake (Function.update st.thread t (.run pc') u) = true ∧
      (Function.update st.thread t (.run pc') u).next.serves = true := by
  have hkeep : st.shared.spoken = false → (pc.serves = true → pc'.serves = true) →
      ∃ u, awake (Function.update st.thread t (.run pc') u) = true ∧
        (Function.update st.thread t (.run pc') u).next.serves = true := by
    intro hs hserves
    refine woken_update (h.speakerWoken hs hq) fun _ hp => ⟨rfl, hserves ?_⟩
    rwa [hpc] at hp
  cases ha with
  | setSpoken => simp at hspoken
  | spoken hs => simp [hs] at hspoken
  | clearSpoken =>
    have hheld := h.held t _ hpc rfl
    exact absurd (h.speakers_nil hheld.1) hq
  | clearSpokenAgain => exact ⟨t, by simp [awake], by simp [Phase.next, Point.serves]⟩
  | _ => exact hkeep hspoken (by simp [Point.serves])

/-- A statement that neither waits nor wakes. -/
theorem act_inv (h : Inv st) (hpc : st.thread t = .run pc) (ha : Act st.shared pc f' pc') :
    Inv { st with shared := f', thread := Function.update st.thread t (.run pc') } := by
  obtain ⟨hcall, hstage⟩ : CallOk st.shared pc ∧ StageOk st.shared pc := by
    have hok := h.ok t
    rwa [hpc] at hok
  have hlock : hasLock (st.thread t) = pc.inside := by rw [hpc]; rfl
  have hinside := ha.inside_eq
  -- a listener about to read the word finds it put down and untaken: this is what being inside
  -- the lock at `readWord` promises
  have hread : ∀ i w, pc = .listen i w .readWord →
      st.shared.calls[st.shared.speaker]? = some (.speak st.shared.myword) ∧
        ¬ Taken st.shared st.shared.speaker := by
    rintro i w rfl
    obtain ⟨-, ⟨v, hv⟩, hfresh⟩ := h.held t _ hpc rfl
    have hok := h.ok v
    rw [hv.thread] at hok
    exact ⟨hok.1, hfresh⟩
  refine ⟨?_, ?_, ?_, ?_, ha.counted h hpc, ?_, ?_, ha.takes_ok h.takes hcall hstage hread, ?_, ?_⟩
  · exact h.queued.setThread (by simp [hpc]) (by simp)
  · exact lock_same h.lock (by rw [hlock]; exact hinside)
  · -- a step keeps its call, ends it, or opens the next one, whose number is fresh
    rcases ha.call_cases with heq | heq | heq
    · exact distinct_same h.distinct (by rw [hpc]; exact heq)
    · refine distinct_update h.distinct fun i hi => ?_
      simp [Phase.next, heq] at hi
    · refine distinct_update h.distinct fun i hi u _ hu => ?_
      have hlt := (h.ok u).callOk.lt hu
      simp only [Phase.next, heq, Option.some.injEq] at hi
      omega
  · exact ok_update (fun u hu => ha.others_ok h hpc hu) (ha.point_ok h.takes hcall hstage)
  · -- the lock is free, so the thread that moves is outside and the slot is as it was
    intro hfree
    have hout : pc.inside = false := by
      rw [Bool.eq_false_iff, ← hlock]
      exact fun hl => by simp [(h.lock t).mpr hl] at hfree
    exact (ha.sameSlot hpc hout).settled (h.free hfree)
  · -- only one thread is inside the lock: either the one that moves, or one the step leaves alone
    intro u p hu hp
    by_cases hut : u = t
    · subst hut
      simp only [Function.update_self, Phase.run.injEq] at hu
      subst hu
      exact ha.held h hpc (hinside ▸ hp)
    · simp only [Function.update_of_ne hut] at hu
      have hout : pc.inside = false := by
        rw [Bool.eq_false_iff, ← hlock]
        intro hl
        have hother := lock_other h ((h.lock t).mpr hl) hut
        rw [hu] at hother
        exact absurd hp (by rw [show p.inside = false from hother]; simp)
      exact (ha.sameSlot hpc hout).held (h.held u p hu hp)
  · exact ha.listenerWoken h hpc
  · exact ha.speakerWoken h hpc

/-- A thread without the lock goes on waiting for it. -/
theorem move_inv {phase : Phase Unit Cond Point} (h : Inv st)
    (hold : ∀ c n, st.thread t ≠ .asleep c n) (hnew : ∀ c n, phase ≠ .asleep c n)
    (hlock : hasLock (st.thread t) = false) (hlock' : hasLock phase = false)
    (hok : PhaseOk st.shared phase) (hcall : phase.next.call = (st.thread t).next.call)
    (hcounted : phase.next.counted = (st.thread t).next.counted)
    (hattends : (st.thread t).next.attends = true → phase.next.attends = true)
    (hserves : (st.thread t).next.serves = true → phase.next.serves = true) :
    Inv { st with thread := Function.update st.thread t phase } := by
  have hslot : SameSlot st { st with thread := Function.update st.thread t phase } := by
    refine ⟨rfl, rfl, rfl, rfl, rfl, rfl, fun u p hu => ?_⟩
    have hut : u ≠ t := by
      rintro rfl
      exact hold _ _ hu
    simpa [hut] using hu
  have hawake : awake phase = true := by
    cases phase with
    | asleep c n => exact absurd rfl (hnew c n)
    | _ => rfl
  refine ⟨h.queued.setThread hold hnew, lock_same h.lock (hlock'.trans hlock.symm),
    distinct_same h.distinct hcall, ok_update (fun u _ => h.ok u) hok,
    counted_same h.counted hcounted, fun hfree => hslot.settled (h.free hfree), ?_, h.takes, ?_, ?_⟩
  · intro u p hu hp
    by_cases hut : u = t
    · subst hut
      simp only [Function.update_self] at hu
      simp [hu, hasLock, hp] at hlock'
    · simp only [Function.update_of_ne hut] at hu
      exact hslot.held (h.held u p hu hp)
  · exact fun hs hq => woken_update (h.listenerWoken hs hq) fun _ hp => ⟨hawake, hattends hp⟩
  · exact fun hs hq => woken_update (h.speakerWoken hs hq) fun _ hp => ⟨hawake, hserves hp⟩

theorem acquire_inv (h : Inv st) (hpc : st.thread t = .run pc) (ha : Acquires pc pc') :
    Inv { st with thread := Function.update st.thread t (.entering () pc') } := by
  have hok := h.ok t
  rw [hpc] at hok
  cases ha with
  | speak =>
    refine move_inv h (by simp [hpc]) (by simp) ?_ rfl ⟨hok.1, hok.2, rfl⟩ ?_ ?_ ?_ ?_
    all_goals simp [hpc, hasLock, Point.inside, Phase.next, Point.call, Point.counted,
      Point.attends, Point.serves]
  | listen =>
    refine move_inv h (by simp [hpc]) (by simp) ?_ rfl ⟨hok.1, hok.2, rfl⟩ ?_ ?_ ?_ ?_
    all_goals simp [hpc, hasLock, Point.inside, Phase.next, Point.call, Point.counted,
      Point.attends, Point.serves]

theorem retry_inv {c : Cond} (h : Inv st) (hpc : st.thread t = .woken c pc) :
    Inv { st with thread := Function.update st.thread t (.entering () pc) } := by
  have hok := h.ok t
  rw [hpc] at hok
  refine move_inv h (by simp [hpc]) (by simp) ?_ rfl ⟨hok.1, hok.2.1, waitsOn_entry hok.2.2⟩ ?_ ?_
    ?_ ?_
  all_goals rw [hpc]
  all_goals simp [Phase.next, hasLock]

theorem enter_inv (h : Inv st) (hpc : st.thread t = .entering () pc)
    (hfree : st.holder () = none) :
    Inv { st with holder := Function.update st.holder () (some t)
                  thread := Function.update st.thread t (.run pc) } := by
  have hok := h.ok t
  rw [hpc] at hok
  have hslot : SameSlot st { st with holder := Function.update st.holder () (some t)
                                     thread := Function.update st.thread t (.run pc) } := by
    refine ⟨rfl, rfl, rfl, rfl, rfl, rfl, fun u p hu => ?_⟩
    have hut : u ≠ t := by
      rintro rfl
      simp [hpc] at hu
    simpa [hut] using hu
  obtain ⟨hin, hheld⟩ := entry_held hok.2.2 (hslot.settled (h.free hfree))
  refine ⟨h.queued.setThread (by simp [hpc]) (by simp), ?_,
    distinct_same h.distinct (by rw [hpc]; rfl), ok_update (fun u _ => h.ok u) ⟨hok.1, hok.2.1⟩,
    counted_same h.counted (by rw [hpc]; rfl), by simp, ?_, h.takes, ?_, ?_⟩
  · simpa using lock_take (.run pc) h hfree hin
  · intro u p hu hp
    by_cases hut : u = t
    · subst hut
      simp only [Function.update_self, Phase.run.injEq] at hu
      exact hu ▸ hheld
    · simp only [Function.update_of_ne hut] at hu
      have hlock := (h.lock u).mpr (by rw [hu]; exact hp)
      simp [hfree] at hlock
  · intro hs hq
    refine woken_update (h.listenerWoken hs hq) fun _ hp => ⟨rfl, ?_⟩
    rwa [hpc] at hp
  · intro hs hq
    refine woken_update (h.speakerWoken hs hq) fun _ hp => ⟨rfl, ?_⟩
    rwa [hpc] at hp

/-- A thread gives up the lock, and the slot is as it was. -/
theorem release_inv (h : Inv st) (hpc : st.thread t = .run pc) (hr : Releases pc pc')
    (hheld : st.holder () = some t) :
    Inv { st with holder := Function.update st.holder () none
                  thread := Function.update st.thread t (.run pc') } := by
  have hok := h.ok t
  rw [hpc] at hok
  -- letting the lock go changes nothing the two parties exchange words through
  have hslot : SameSlot st { st with holder := Function.update st.holder () none
                                     thread := Function.update st.thread t (.run pc') } := by
    refine ⟨rfl, rfl, rfl, rfl, rfl, rfl, fun u p hu => ?_⟩
    have hut : u ≠ t := by
      rintro rfl
      simp [hpc] at hu
    simpa [hut] using hu
  have hin : pc.inside = true := by cases hr <;> rfl
  -- a thread leaves the lock only with its half of the exchange done
  have hset : Settled st := by
    have hheld := h.held t pc hpc hin
    cases hr with
    | speak => exact hheld
    | listen =>
      rw [Settled, if_neg (by simp [hheld.1])]
      exact hheld.2
  have hcall : pc'.call = pc.call := by cases hr <;> rfl
  have hcounted : pc'.counted = pc.counted := by cases hr <;> rfl
  have hout : pc'.inside = false := by cases hr <;> rfl
  refine ⟨h.queued.setThread (by simp [hpc]) (by simp), ?_,
    distinct_same h.distinct (by rw [hpc]; exact hcall), ?_,
    counted_same h.counted (by rw [hpc]; exact hcounted), fun _ => hslot.settled hset, ?_, h.takes,
    ?_, ?_⟩
  · simpa using lock_drop (.run pc') h hheld hout
  · exact ok_update (fun u _ => h.ok u) (by cases hr <;> exact hok)
  · intro u p hu hp
    by_cases hut : u = t
    · subst hut
      simp only [Function.update_self, Phase.run.injEq] at hu
      simp [← hu, hout] at hp
    · simp only [Function.update_of_ne hut] at hu
      have hlock := lock_other h hheld hut
      simp [hu, hasLock, hp] at hlock
  · -- whoever had to be woken is not at a point of a releasing thread, so the promise of a wake
    -- passes to the new state
    intro hs hq
    refine woken_update (h.listenerWoken hs hq) fun _ hp => ?_
    rw [hpc] at hp
    cases hr <;> simp [Phase.next, Point.attends] at hp
  · intro hs hq
    refine woken_update (h.speakerWoken hs hq) fun _ hp => ?_
    rw [hpc] at hp
    cases hr <;> simp [Phase.next, Point.serves] at hp

/-- A thread goes to sleep and gives up the lock. -/
theorem sleep_inv {c : Cond} (h : Inv st) (hpc : st.thread t = .run pc) (hs : Sleeps pc c pc')
    (hheld : st.holder () = some t) (hq' : Queued { st with
      holder := Function.update st.holder () none
      queue := Function.update st.queue c (st.queue c ++ [t])
      thread := Function.update st.thread t (.asleep c pc') }) :
    Inv { st with holder := Function.update st.holder () none
                  queue := Function.update st.queue c (st.queue c ++ [t])
                  thread := Function.update st.thread t (.asleep c pc') } := by
  have hok := h.ok t
  rw [hpc] at hok
  have hin : pc.inside = true := by cases hs <;> rfl
  have hthread : ∀ u p, st.thread u = .asleep .pairs p →
      Function.update st.thread t (.asleep c pc') u = .asleep .pairs p := by
    intro u p hu
    have hut : u ≠ t := by
      rintro rfl
      simp [hpc] at hu
    simpa [hut] using hu
  have hcall : pc'.call = pc.call := by cases hs <;> rfl
  have hcounted : pc'.counted = pc.counted := by cases hs <;> rfl
  have hheldAt := h.held t pc hpc hin
  refine ⟨hq', ?_, distinct_same h.distinct (by rw [hpc]; exact hcall), ?_,
    counted_same h.counted (by rw [hpc]; exact hcounted), fun _ => ?_, ?_, h.takes, ?_, ?_⟩
  · simpa using lock_drop (.asleep c pc') h hheld rfl
  · refine ok_update (fun u _ => h.ok u) ?_
    cases hs with
    | speakers => exact ⟨hok.1, fun _ => hok.2, rfl⟩
    | pairs => exact ⟨hok.1, fun hne => absurd rfl hne, rfl⟩
    | listeners => exact ⟨hok.1, fun _ => hok.2, rfl⟩
  · cases hs with
    | speakers =>
      refine @SameSlot.settled _ st _ ⟨rfl, rfl, rfl, rfl, rfl, by simp, hthread⟩ ?_
      rw [Settled, if_pos hheldAt.1]
      exact hheldAt.2
    | listeners =>
      refine @SameSlot.settled _ st _ ⟨rfl, rfl, rfl, rfl, rfl, by simp, hthread⟩ ?_
      rw [Settled, if_neg (by simp [hheldAt.1])]
      exact hheldAt.2
    | pairs =>
      -- the speaker is now the one thread asleep on `pairs`
      obtain ⟨hspoken, hempty, hspeaker, hword⟩ := hheldAt
      rw [Settled, if_pos hspoken]
      refine ⟨⟨t, ?_, ?_⟩, ?_⟩
      · have hnil : st.queue .pairs = [] := hempty
        simp [hnil]
      · simp [hspeaker, hword]
      · simp only [hspeaker]
        exact hok.2
  · intro u p hu hp
    by_cases hut : u = t
    · simp [hut] at hu
    · simp only [Function.update_of_ne hut] at hu
      have hlock := lock_other h hheld hut
      simp [hu, hasLock, hp] at hlock
  · intro hspoken hq
    cases hs with
    | listeners =>
      have hsilent : st.shared.spoken = false := hheldAt.1
      simp [hsilent] at hspoken
    | speakers =>
      refine woken_update (h.listenerWoken hspoken (by simpa using hq)) fun _ hp => ?_
      simp [hpc, Phase.next, Point.attends] at hp
    | pairs =>
      refine woken_update (h.listenerWoken hspoken (by simpa using hq)) fun _ hp => ?_
      simp [hpc, Phase.next, Point.attends] at hp
  · intro hspoken hq
    cases hs with
    | speakers =>
      have htrue : st.shared.spoken = true := hheldAt.1
      simp [htrue] at hspoken
    | listeners =>
      refine woken_update (h.speakerWoken hspoken (by simpa using hq)) fun _ hp => ?_
      simp [hpc, Phase.next, Point.serves] at hp
    | pairs =>
      have htrue : st.shared.spoken = true := hheldAt.1
      simp [htrue] at hspoken

/-- `wake` on a condition that nobody is asleep on. -/
theorem wakeNone_inv {c : Cond} (h : Inv st) (hpc : st.thread t = .run pc) (hw : Wakes pc c pc')
    (hnil : st.queue c = []) : Inv { st with thread := Function.update st.thread t (.run pc') } := by
  have hok := h.ok t
  rw [hpc] at hok
  have hslot : SameSlot st { st with thread := Function.update st.thread t (.run pc') } := by
    refine ⟨rfl, rfl, rfl, rfl, rfl, rfl, fun u p hu => ?_⟩
    have hut : u ≠ t := by
      rintro rfl
      simp [hpc] at hu
    simpa [hut] using hu
  have hin : pc.inside = true := by cases hw <;> rfl
  have hin' : pc'.inside = pc.inside := by cases hw <;> rfl
  have hcall : pc'.call = pc.call := by cases hw <;> rfl
  have hcounted : pc'.counted = pc.counted := by cases hw <;> rfl
  have hlock : hasLock (st.thread t) = true := by rw [hpc]; exact hin
  have hheld := h.held t pc hpc hin
  refine ⟨h.queued.setThread (by simp [hpc]) (by simp), ?_,
    distinct_same h.distinct (by rw [hpc]; exact hcall), ?_,
    counted_same h.counted (by rw [hpc]; exact hcounted), ?_, ?_, h.takes, ?_, ?_⟩
  · exact lock_same h.lock (by rw [hpc]; exact hin')
  · exact ok_update (fun u _ => h.ok u) (by cases hw <;> exact hok)
  · -- the waker still holds the lock
    intro hfree
    simp [(h.lock t).mpr hlock] at hfree
  · intro u p hu hp
    by_cases hut : u = t
    · subst hut
      simp only [Function.update_self, Phase.run.injEq] at hu
      subst hu
      cases hw with
      | listeners => exact @SameSlot.held _ _ _ hslot (.speak _ _ .wakeListener) hheld
      | speakers => exact @SameSlot.held _ _ _ hslot (.listen _ _ .wakeSpeaker) hheld
      | pairs =>
        -- a pair in progress has its speaker asleep on this queue, which is then not empty
        obtain ⟨-, -, u, hu⟩ := hheld
        simp [hu.queue] at hnil
    · simp only [Function.update_of_ne hut] at hu
      have hother := lock_other h ((h.lock t).mpr hlock) hut
      simp [hu, hasLock, hp] at hother
  · -- a wake owed to the queue that was found empty is owed to nobody
    intro hs hq
    cases hw with
    | listeners => exact absurd hnil hq
    | pairs =>
      exact woken_update (h.listenerWoken hs hq) fun _ _ => ⟨rfl, rfl⟩
    | speakers =>
      refine woken_update (h.listenerWoken hs hq) fun _ hp => ?_
      simp [hpc, Phase.next, Point.attends] at hp
  · intro hs hq
    refine woken_update (h.speakerWoken hs ?_) fun _ hp => ?_
    · exact hq
    · cases hw with
      | speakers => exact absurd hnil hq
      | listeners => simp [hpc, Phase.next, Point.serves] at hp
      | pairs => simp [hpc, Phase.next, Point.serves] at hp

/-- `wake` on a condition that a thread is asleep on. -/
theorem wakeSome_inv {c : Cond} {u : T} {rest : List T} {n : Point} (h : Inv st)
    (hpc : st.thread t = .run pc) (hw : Wakes pc c pc') (hcons : st.queue c = u :: rest)
    (hu : st.thread u = .asleep c n) (hq' : Queued { st with
      queue := Function.update st.queue c rest
      thread := Function.update (Function.update st.thread u (.woken c n)) t (.run pc') }) :
    Inv { st with
      queue := Function.update st.queue c rest
      thread := Function.update (Function.update st.thread u (.woken c n)) t (.run pc') } := by
  have hok := h.ok t
  rw [hpc] at hok
  have hoku := h.ok u
  rw [hu] at hoku
  have hut : u ≠ t := by
    rintro rfl
    simp [hpc] at hu
  have hpc₁ : Function.update st.thread u (.woken c n) t = .run pc := by
    simpa [Ne.symm hut] using hpc
  have hin : pc.inside = true := by cases hw <;> rfl
  have hin' : pc'.inside = pc.inside := by cases hw <;> rfl
  have hcall : pc'.call = pc.call := by cases hw <;> rfl
  have hcounted : pc'.counted = pc.counted := by cases hw <;> rfl
  have hlock : hasLock (st.thread t) = true := by rw [hpc]; exact hin
  have hheld := h.held t pc hpc hin
  -- the slot, if the woken thread is not a speaker in it
  have hslot : c ≠ .pairs → SameSlot st { st with
      queue := Function.update st.queue c rest
      thread := Function.update (Function.update st.thread u (.woken c n)) t (.run pc') } := by
    refine fun hc => ⟨rfl, rfl, rfl, rfl, rfl, by simp [Ne.symm hc], fun x p hx => ?_⟩
    have hxt : x ≠ t := by
      rintro rfl
      simp [hpc] at hx
    have hxu : x ≠ u := by
      rintro rfl
      rw [hu] at hx
      exact hc (Phase.asleep.inj hx).1
    simpa [hxt, hxu] using hx
  have hfirst : ∀ {p : Point → Bool},
      (∃ x, awake (st.thread x) = true ∧ p (st.thread x).next = true) →
      ∃ x, awake (Function.update st.thread u (.woken c n) x) = true ∧
        p (Function.update st.thread u (.woken c n) x).next = true :=
    fun hx => woken_update hx fun hawake => by simp [hu, awake] at hawake
  have hwoken : ∀ {p : Point → Bool}, p n = true →
      ∃ x, awake (Function.update (Function.update st.thread u (.woken c n)) t (.run pc') x) = true ∧
        p (Function.update (Function.update st.thread u (.woken c n)) t (.run pc') x).next = true :=
    fun hp => ⟨u, by simp [hut, awake], by simpa [hut, Phase.next] using hp⟩
  refine ⟨hq', ?_, ?_, ?_, ?_, ?_, ?_, h.takes, ?_, ?_⟩
  · refine lock_same (lock_same h.lock (by rw [hu]; rfl)) ?_
    rw [hpc₁]
    exact hin'
  · refine distinct_same (distinct_same h.distinct (by rw [hu]; rfl)) ?_
    rw [hpc₁]
    exact hcall
  · refine ok_update (fun x _ => ok_update (fun y _ => h.ok y) ?_ x) (by cases hw <;> exact hok)
    refine ⟨hoku.1, ?_, hoku.2.2⟩
    cases hw with
    | listeners => exact hoku.2.1 (by simp)
    | speakers => exact hoku.2.1 (by simp)
    | pairs =>
      -- the word of the speaker has just been taken
      obtain ⟨-, htaken, v, hv⟩ := hheld
      obtain rfl : u = v := (List.cons.inj (hcons.symm.trans hv.queue)).1
      obtain ⟨-, rfl⟩ := Phase.asleep.inj (hu.symm.trans hv.thread)
      exact htaken
  · refine counted_same (counted_same h.counted (by rw [hu]; rfl)) ?_
    rw [hpc₁]
    exact hcounted
  · intro hfree
    simp [(h.lock t).mpr hlock] at hfree
  · intro x p hx hp
    by_cases hxt : x = t
    · subst hxt
      simp only [Function.update_self, Phase.run.injEq] at hx
      subst hx
      cases hw with
      | listeners => exact @SameSlot.held _ _ _ (hslot (by simp)) (.speak _ _ .wakeListener) hheld
      | speakers => exact @SameSlot.held _ _ _ (hslot (by simp)) (.listen _ _ .wakeSpeaker) hheld
      | pairs =>
        obtain ⟨hnumber, -, v, hv⟩ := hheld
        have hrest : rest = [] := (List.cons.inj (hcons.symm.trans hv.queue)).2
        exact ⟨hnumber, by simp [Empty, hrest]⟩
    · have hother := lock_other h ((h.lock t).mpr hlock) hxt
      by_cases hxu : x = u
      · simp [hxu, hut] at hx
      · simp only [Function.update_of_ne hxt, Function.update_of_ne hxu] at hx
        simp [hx, hasLock, hp] at hother
  · intro hs hq
    cases hw with
    | listeners => exact hwoken (listener_attends hoku.2.2)
    | pairs =>
      refine woken_update (hfirst (h.listenerWoken hs (by simpa using hq))) fun _ _ => ⟨rfl, rfl⟩
    | speakers =>
      refine woken_update (hfirst (h.listenerWoken hs (by simpa using hq))) fun _ hp => ?_
      simp [hpc₁, Phase.next, Point.attends] at hp
  · intro hs hq
    cases hw with
    | speakers => exact hwoken (speaker_serves hoku.2.2)
    | listeners =>
      have htrue : st.shared.spoken = true := hheld.1
      simp [htrue] at hs
    | pairs =>
      refine woken_update (hfirst (h.speakerWoken hs (by simpa using hq))) fun _ hp => ?_
      simp [hpc₁, Phase.next, Point.serves] at hp

/-- Every step of every thread keeps the invariant. -/
theorem step_inv {st' : Monitor T} (h : Inv st) (hstep : Step (program T) st st') : Inv st' := by
  have hqueued := h.queued.step hstep
  cases hstep with
  | act hpc hinstr => exact act_inv h hpc (act_of_instr hinstr)
  | acquire hpc hinstr => exact acquire_inv h hpc (acquires_of_instr hinstr)
  | enter hpc hfree => exact enter_inv h hpc hfree
  | release hpc hinstr hheld => exact release_inv h hpc (releases_of_instr hinstr) hheld
  | sleep hpc hinstr hheld => exact sleep_inv h hpc (sleeps_of_instr hinstr) hheld hqueued
  | wakeNone hpc hinstr _ hnil => exact wakeNone_inv h hpc (wakes_of_instr hinstr) hnil
  | @wakeSome t u pc i c next rest hpc hinstr _ hcons =>
    obtain ⟨n, hn⟩ := h.queued.head_asleep hcons
    rw [hn] at hqueued ⊢
    exact wakeSome_inv h hpc (wakes_of_instr hinstr) hcons hn hqueued
  | retry hpc => exact retry_inv h hpc

end Steps

/-! ## Runs -/

theorem inv_init (T : Type) : Inv (init T).monitor where
  queued := ⟨by simp [init, Threads.monitor, Status.phase], by simp [init, Threads.monitor]⟩
  lock := by simp [init, Threads.monitor, Status.phase, hasLock, Point.inside]
  distinct := by simp [init, Threads.monitor, Status.phase, Phase.next, Point.call]
  ok _ := ⟨trivial, trivial⟩
  counted := ⟨[], by simp [init, Threads.monitor, Status.phase, Phase.next, Point.counted]⟩
  free _ := by simp [Settled, init, Threads.monitor, Empty]
  held := by
    intro t pc hpc hin
    have hout : pc = .outside := (Phase.run.inj hpc).symm
    simp [hout, Point.inside] at hin
  takes := ⟨by simp [init, Threads.monitor], by simp [init, Threads.monitor],
    by simp [init, Threads.monitor], by simp [init, Threads.monitor],
    by simp [init, Threads.monitor], by simp [init, Threads.monitor]⟩
  listenerWoken := by simp [init, Threads.monitor]
  speakerWoken := by simp [init, Threads.monitor]

variable [DecidableEq T] {choices : List (Choice T Call)}
  {st : Threads T Unit Cond Point Fields}

theorem run_inv (h : Threads.run (program T) (init T) choices = some st) : Inv st.monitor := by
  have hlocks : Threads.LockQueued (init T) := ⟨by simp [init], by simp [init]⟩
  have hsteps := Threads.run_steps hlocks (inv_init T).queued h
  exact hsteps.invariant step_inv (inv_init T)

/-- Every word is delivered exactly once. A `listen` that has returned took one word, and
    returned it; no word was taken twice; and the word of a `speak` that has returned has
    been taken. -/
structure Delivered (f : Fields) : Prop where
  heard : ∀ l w, (l, w) ∈ f.heard → ∃ s, f.calls[s]? = some (.speak w) ∧
    ⟨l, s, w⟩ ∈ f.takes ∧ ∀ k ∈ f.takes, k.listener = l → k = ⟨l, s, w⟩
  once : ∀ k ∈ f.takes, ∀ k' ∈ f.takes, k.speaker = k'.speaker → k.listener = k'.listener
  spoke : ∀ s ∈ f.spoke, ∃ k ∈ f.takes, k.speaker = s

/-- Every interleaving delivers every word exactly once. -/
theorem run_delivered (h : Threads.run (program T) (init T) choices = some st) :
    Delivered st.shared := by
  have htakes : TakesOk st.shared := (run_inv h).takes
  refine ⟨fun l w hlw => ?_, fun k hk k' hk' heq => ?_, htakes.spoke⟩
  · obtain ⟨s, hs⟩ := htakes.heard l w hlw
    refine ⟨s, htakes.words _ hs, hs, fun k hk hl => ?_⟩
    exact List.inj_on_of_nodup_map htakes.listeners hk hs hl
  · rw [List.inj_on_of_nodup_map htakes.speakers hk hk' heq]

/-- Thread 0 speaks, thread 1 listens, and both return. -/
theorem run_delivered_pair :
    ∃ st, Threads.run (program Nat) (init Nat) (List.replicate 8 ⟨0, .speak 7, 0⟩ ++
      List.replicate 10 ⟨1, .listen, 0⟩ ++ List.replicate 3 ⟨0, .listen, 0⟩) = some st ∧
      st.shared.heard = [(1, 7)] ∧ st.shared.spoke = [0] ∧ Delivered st.shared := by
  obtain ⟨st, hst, htest⟩ := Option.map_eq_some_iff.mp (show
    (Threads.run (program Nat) (init Nat) (List.replicate 8 ⟨0, .speak 7, 0⟩ ++
      List.replicate 10 ⟨1, .listen, 0⟩ ++ List.replicate 3 ⟨0, .listen, 0⟩)).map
      (fun st => decide (st.shared.heard = [(1, 7)] ∧ st.shared.spoke = [0])) = some true
    by decide +kernel)
  simp only [decide_eq_true_eq] at htest
  exact ⟨st, hst, htest.1, htest.2, run_delivered hst⟩

/-- All threads are outside or asleep, and among them are a speaker whose word has not been
    taken and a listener. -/
structure Stranded (st : Threads T Unit Cond Point Fields) : Prop where
  quiet : ∀ t, st.status t = .ready .outside ∨ ∃ c next, st.status t = .waitSemaphore c next
  speaker : ∃ t c i w line, st.status t = .waitSemaphore c (.speak i w line) ∧ ¬ Taken st.shared i
  listener : ∃ t c i w line, st.status t = .waitSemaphore c (.listen i w line)

/-- No interleaving strands a speaker and a listener. -/
theorem run_not_stranded (h : Threads.run (program T) (init T) choices = some st) :
    ¬ Stranded st := by
  intro hstr
  have hinv := run_inv h
  have hasleep : ∀ {t c n}, st.status t = .waitSemaphore c n → st.monitor.thread t = .asleep c n ∧
      t ∈ st.monitor.queue c ∧ n.waitsOn = some c := by
    intro t c n ht
    have hphase : st.monitor.thread t = .asleep c n := by
      simp [Threads.monitor, ht, Status.phase]
    have hok := hinv.ok t
    rw [hphase] at hok
    exact ⟨hphase, (hinv.queued.mem_iff c t).mpr ⟨n, hphase⟩, hok.2.2⟩
  -- nobody is on the way, and nobody has the lock
  have hidle : ∀ t, awake (st.monitor.thread t) = true → (st.monitor.thread t).next = .outside := by
    intro t hawake
    rcases hstr.quiet t with ht | ⟨c, n, ht⟩
    · simp [Threads.monitor, ht, Status.phase, Phase.next]
    · simp [(hasleep ht).1, awake] at hawake
  have hfree : st.monitor.holder () = none := by
    by_contra hne
    obtain ⟨t, ht⟩ := Option.ne_none_iff_exists'.mp hne
    have hlock := (hinv.lock t).mp ht
    rcases hstr.quiet t with hs | ⟨c, n, hs⟩
    · simp [Threads.monitor, hs, Status.phase, hasLock, Point.inside] at hlock
    · simp [(hasleep hs).1, hasLock] at hlock
  have hsettled := hinv.free hfree
  obtain ⟨tl, cl, il, wl, linel, hl⟩ := hstr.listener
  obtain ⟨-, hlmem, hlwaits⟩ := hasleep hl
  have hcl : cl = .listeners := by
    cases linel <;> simp [Point.waitsOn] at hlwaits
    exact hlwaits.symm
  cases hspoken : st.monitor.shared.spoken with
  | true =>
    obtain ⟨t, hawake, hattends⟩ :=
      hinv.listenerWoken hspoken (List.ne_nil_of_mem (hcl ▸ hlmem))
    simp [hidle t hawake, Point.attends] at hattends
  | false =>
    rw [Settled, if_neg (by simp [hspoken])] at hsettled
    obtain ⟨ts, cs, is, ws, lines, hs, -⟩ := hstr.speaker
    obtain ⟨-, hsmem, hswaits⟩ := hasleep hs
    have hcs : cs = .speakers ∨ cs = .pairs := by
      cases lines <;> simp [Point.waitsOn] at hswaits
      · exact Or.inl hswaits.symm
      · exact Or.inr hswaits.symm
    rcases hcs with rfl | rfl
    · obtain ⟨t, hawake, hserves⟩ := hinv.speakerWoken hspoken (List.ne_nil_of_mem hsmem)
      simp [hidle t hawake, Point.serves] at hserves
    · exact List.ne_nil_of_mem hsmem hsettled

/-- A listener goes to sleep, and a speaker after it; the listener has been woken. -/
theorem run_not_stranded_pair :
    ∃ st, Threads.run (program Nat) (init Nat) (List.replicate 5 ⟨1, .listen, 0⟩ ++
      List.replicate 8 ⟨0, .speak 7, 0⟩) = some st ∧
      st.status 0 = .waitSemaphore .pairs (.speak 1 7 .release) ∧ ¬ Stranded st := by
  obtain ⟨st, hst, htest⟩ := Option.map_eq_some_iff.mp (show
    (Threads.run (program Nat) (init Nat) (List.replicate 5 ⟨1, .listen, 0⟩ ++
      List.replicate 8 ⟨0, .speak 7, 0⟩)).map
      (fun st => decide (st.status 0 = .waitSemaphore .pairs (.speak 1 7 .release))) = some true
    by decide +kernel)
  simp only [decide_eq_true_eq] at htest
  exact ⟨st, hst, htest, run_not_stranded hst⟩

end Communicator

end Nachos
