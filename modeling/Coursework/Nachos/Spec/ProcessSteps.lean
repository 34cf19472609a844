import Coursework.Nachos.Spec.ProcessInvariant

/-!
# Every step keeps the invariant of the processes

First the statements that change the fields of processes, then those that only concern
locks and conditions, and from both what holds in every state that is reached.
-/

namespace Nachos

namespace Processes

open Mesa (Phase Step Steps Queued)

/-! ## The other threads -/

section Other

variable {f f' : Processes} {t u c : Nat} {pc pc' : Point}

theorem Change.registered_mono {v v' : UserProc} (h : Change f t pc pc' c v v')
    (hr : v.registered = true) : v'.registered = true := by
  rcases h.registered with heq | heq
  · rw [heq, hr]
  · exact heq.1

theorem Change.creator_eq {v v' : UserProc} (h : Change f t pc pc' c v v')
    (hc : c < f.globalPid) : v'.creator = v.creator := by
  rcases h.creator with heq | heq
  · exact heq
  · omega

/-- A process belongs to the `exec` of its creator until it is registered. -/
theorem Change.registered_eq {v v' : UserProc} (h : Change f t pc pc' c v v') (hu : u ≠ t)
    (hc : v.creator = some u) : v'.registered = v.registered := by
  rcases h.registered with heq | ⟨-, -, heq⟩
  · exact heq
  · exact absurd (Option.some.inj (hc.symm.trans heq)) hu

theorem Change.children_eq {v v' : UserProc} (h : Change f t pc pc' u v v') (hu : u ≠ t) :
    v'.children = v.children := by
  rcases h.children with heq | ⟨heq, -⟩ | ⟨heq, -⟩
  · exact heq
  · exact absurd heq hu
  · exact absurd heq hu

theorem Change.ending_eq {v v' : UserProc} (h : Change f t pc pc' u v v')
    (hu : u = t → pc.exiting = true) : v'.ending = v.ending := by
  rcases h.ending with heq | ⟨heq, hpc⟩
  · exact heq
  · simp [hu heq] at hpc

theorem Change.early_eq {v v' : UserProc} (h : Change f t pc pc' u v v')
    (hu : u = t → pc.notified = true) : v'.early = v.early := by
  rcases h.early with heq | ⟨heq, s, rfl, -⟩
  · exact heq
  · simp [Point.notified, ExitLine.notified] at hu
    exact absurd heq hu

/-- Has the thread looked at `freeChildren` and not yet acted on it? -/
def JoinLine.looked : JoinLine → Bool
  | .test | .sleep => true
  | .findChild | .acquire | .search | .release | .remove | .report => false

/-- Has the thread looked at `freeChildren` and not yet acted on it? -/
def Point.looked : Point → Bool
  | .join _ _ _ _ line => line.looked
  | _ => false

variable (hch : ∀ c, Change f t pc pc' c (f.process c) (f'.process c))
  (hlt : ∀ c q, (f.process c).creator = some q → c < f.globalPid) (hu : u ≠ t)

include hch hlt hu

theorem execOk_other {line : ExecLine} (h : ExecOk f u c line) : ExecOk f' u c line := by
  have hcr : (f.process c).creator = some u → (f'.process c).creator = some u := by
    intro hc
    exact ((hch c).creator_eq (hlt c u hc)).trans hc
  have hreg : (f.process c).creator = some u →
      (f'.process c).registered = (f.process c).registered := (hch c).registered_eq hu
  cases line
  case load | fork =>
    refine ⟨hcr h.1, (hreg h.1).trans h.2.1, ?_⟩
    rcases (hch c).forked with heq | ⟨-, hmine⟩
    · exact heq.trans h.2.2
    · exact absurd (Option.some.inj (h.1.symm.trans hmine)) hu
  case setParent => exact ⟨hcr h.1, (hreg h.1).trans h.2⟩
  case addChild =>
    refine ⟨hcr h.1, (hreg h.1).trans h.2.1, ?_⟩
    rw [(hch u).children_eq hu]
    exact h.2.2
  all_goals trivial

omit hlt in
theorem exitOk_other {s : BitVec 32} {line : ExitLine} (h : ExitOk f u s line) :
    ExitOk f' u s line := by
  have hend : (f'.process u).ending = (f.process u).ending :=
    (hch u).ending_eq fun heq => absurd heq hu
  cases line
  case acquireParent | addBucket =>
    obtain ⟨⟨e, he, hs⟩, hr⟩ := h
    exact ⟨⟨e, hend.trans he, hs⟩, (hch u).registered_mono hr⟩
  all_goals
    obtain ⟨e, he, hs⟩ := h
    exact ⟨e, hend.trans he, hs⟩

omit hlt in
theorem joinOk_other {pid r : BitVec 32} {line : JoinLine}
    (hfree : line.looked = true → (f'.process u).freeChildren = (f.process u).freeChildren)
    (h : JoinOk f u pid c r line) : JoinOk f' u pid c r line := by
  have hkids : (f'.process u).children = (f.process u).children := (hch u).children_eq hu
  cases line
  case acquire | search => exact ⟨hkids ▸ h.1, h.2⟩
  case test => exact ⟨⟨hkids ▸ h.1.1, h.1.2⟩, h.2.trans (by rw [hfree rfl])⟩
  case sleep => exact ⟨⟨hkids ▸ h.1.1, h.1.2⟩, (by rw [hfree rfl] : _ = _).trans h.2⟩
  all_goals trivial

theorem pointOk_other {p : Point}
    (hfree : p.looked = true → (f'.process u).freeChildren = (f.process u).freeChildren)
    (h : PointOk f u p) : PointOk f' u p := by
  cases p with
  | user _ => trivial
  | exec im c line => exact execOk_other hch hlt hu h
  | exit s line => exact exitOk_other hch hu h
  | join pid addr c r line => exact joinOk_other hch hu hfree h
  | finished =>
    obtain ⟨e, he⟩ := h
    exact ⟨e, ((hch u).ending_eq fun heq => absurd heq hu).trans he⟩

/-- What holds of a thread that does not act. -/
theorem phaseOk_other {phase : Phase LockId FreeCondition Point}
    (hfree : ∀ p, phase = .run p → p.looked = true →
      (f'.process u).freeChildren = (f.process u).freeChildren)
    (h : PhaseOk f u phase) : PhaseOk f' u phase := by
  cases phase with
  | run p => exact pointOk_other hch hlt hu (hfree p rfl) h
  | entering l p =>
    obtain ⟨hp, hentry⟩ := h
    refine ⟨pointOk_other hch hlt hu ?_ hp, ?_⟩
    · cases hentry <;> simp [Point.looked, JoinLine.looked]
    · cases hentry with
      | parent hq => exact .parent (((hch u).creator_eq (hlt u _ hq)).trans hq)
      | _ => constructor
  | asleep d p =>
    obtain ⟨hp, hsleep⟩ := h
    refine ⟨pointOk_other hch hlt hu ?_ hp, hsleep⟩
    cases hsleep
    simp [Point.looked, JoinLine.looked]
  | woken d p =>
    obtain ⟨hp, hsleep⟩ := h
    refine ⟨pointOk_other hch hlt hu ?_ hp, hsleep⟩
    cases hsleep
    simp [Point.looked, JoinLine.looked]

end Other

/-! ## The thread that acts -/

theorem Inv.creator_lt {st : Monitor} (h : Inv st) (c q : Nat)
    (hc : (st.shared.process c).creator = some q) : c < st.shared.globalPid := by
  by_contra hge
  rw [(h.fresh c (Nat.le_of_not_lt hge)).1] at hc
  simp at hc

section Own

variable {st : Monitor} {t : Nat} {pc pc' : Point} {f' : Processes}

/-- Where a thread goes, it relies on what its last statement has made true. -/
theorem Act.pointOk (h : Inv st) (hok : PointOk st.shared t pc) (ha : Act st.shared t pc f' pc') :
    PointOk f' t pc' := by
  cases ha with
  | callExit e hf => exact ⟨e, by simp [modify], rfl⟩
  | assignPid => exact ⟨by simp, by simp, by simp⟩
  | load _ _ =>
    exact ⟨by simpa [modify] using hok.1, by simpa [modify] using hok.2.1,
      by simpa [modify] using hok.2.2⟩
  | fork => exact ⟨by simpa [modify] using hok.1, by simpa [modify] using hok.2.1⟩
  | @setParent im c =>
    refine ⟨by simpa [modify] using hok.1, by simp [modify], fun hmem => ?_⟩
    -- a child is registered, this one was not yet
    have hold : c ∈ (st.shared.process t).children := by
      rw [process_modify] at hmem
      split at hmem <;> exact hmem
    exact absurd (h.children t c hold).2 (by simp [hok.2])
  | unload => exact ⟨hok.choose, by simpa [modify] using hok.choose_spec⟩
  | @orphan s j c hj =>
    obtain ⟨e, he, hs⟩ := hok
    refine ⟨e, ?_, hs⟩
    rw [process_modify]
    split <;> exact he
  | hasParent q hq =>
    obtain ⟨e, he, hs⟩ := hok
    exact ⟨⟨e, by simpa [modify] using he, hs⟩, by simpa [modify] using (h.parent t q hq).2⟩
  | noParent hq =>
    obtain ⟨e, he, hs⟩ := hok
    exact ⟨e, by simpa [modify] using he, hs⟩
  | @addBucket s q hq =>
    obtain ⟨⟨e, he, hs⟩, -⟩ := hok
    refine ⟨e, ?_, hs⟩
    rw [process_modify]
    split <;> exact he
  | decrement => exact hok
  | testLast => exact hok
  | orphanEnd => exact hok
  | found hmem hpid => exact ⟨hmem, hpid⟩
  | search => exact ⟨hok, rfl⟩
  | testMiss hr => exact ⟨hok.1, hok.2.symm.trans hr⟩
  | _ => trivial

/-- A thread that acts belongs to a process that has been made. -/
theorem Act.lt_globalPid (h : Inv st) (hpc : st.thread t = .run pc)
    (ha : Act st.shared t pc f' pc') : t < st.shared.globalPid := by
  by_contra hge
  obtain ⟨hproc, hthread⟩ := h.fresh t (Nat.le_of_not_lt hge)
  rw [hthread] at hpc
  obtain rfl := Phase.run.inj hpc
  cases ha <;> simp_all

theorem Act.forked (h : Inv st) (hpc : st.thread t = .run pc) (ha : Act st.shared t pc f' pc') :
    (st.shared.process t).forked = true := by
  by_cases huser : st.thread t = .run (.user none)
  · rw [hpc] at huser
    obtain rfl := Phase.run.inj huser
    cases ha <;> assumption
  · exact h.running t huser

/-- Processes that have not been made stay as they are. -/
theorem Act.fresh (h : Inv st) (hpc : st.thread t = .run pc) (ha : Act st.shared t pc f' pc')
    (c : Nat) (hc : f'.globalPid ≤ c) : f'.process c = {} := by
  have hpids := ha.pids
  have hold : st.shared.process c = {} := (h.fresh c (Nat.le_trans hpids hc)).1
  have ht : t < st.shared.globalPid := ha.lt_globalPid h hpc
  have hok : PointOk st.shared t pc := by simpa [hpc, PhaseOk] using h.ok t
  have hmod : ∀ p g, p < st.shared.globalPid → (st.shared.modify p g).process c = {} := by
    intro p g hp
    rw [process_modify, if_neg (by omega), hold]
  cases ha with
  | callExit e hf => exact hmod _ _ ht
  | assignPid =>
    have hne : c ≠ st.shared.globalPid := by
      simp only at hc
      omega
    simp [hne, hold]
  | load _ _ =>
    dsimp only
    exact hmod _ _ (h.creator_lt _ _ hok.1)
  | fork => exact hmod _ _ (h.creator_lt _ _ hok.1)
  | setParent => exact hmod _ _ (h.creator_lt _ _ hok.1)
  | addChild => exact hmod _ _ ht
  | unload =>
    dsimp only
    exact hmod _ _ ht
  | orphan hj =>
    exact hmod _ _ (h.creator_lt _ _ (h.children t _ (List.mem_of_getElem? hj)).1)
  | hasParent q hq => exact hmod _ _ ht
  | noParent hq => exact hmod _ _ ht
  | addBucket q hq => exact hmod _ _ (h.maker t q (h.parent t q hq).1)
  | remove => exact hmod _ _ ht
  | _ => exact hold

end Own

/-! ## The processes as a family -/

section Family

variable {st : Monitor} {t : Nat} {pc pc' : Point} {f' : Processes}

/-- The state after a statement that neither waits nor wakes. -/
abbrev acted (st : Monitor) (t : Nat) (f' : Processes) (pc' : Point) : Monitor :=
  { st with shared := f', thread := Function.update st.thread t (.run pc') }

/-- What is true of the statement of a thread stays true, if it stays true where one acts. -/
theorem acted_next {p : Point → Bool} (hpc : st.thread t = .run pc)
    (ht : p pc = true → p pc' = true) (u : Nat) (hu : p (st.thread u).next = true) :
    p ((acted st t f' pc').thread u).next = true := by
  by_cases hut : u = t
  · subst hut
    simpa [Phase.next] using ht (by simpa [hpc, Phase.next] using hu)
  · simpa [hut] using hu

/-- A thread that is not exiting was not. -/
theorem acted_exiting (hpc : st.thread t = .run pc) (ha : Act st.shared t pc f' pc') (u : Nat)
    (hu : ((acted st t f' pc').thread u).next.exiting = false) :
    (st.thread u).next.exiting = false := by
  by_contra hex
  rw [acted_next hpc ha.exiting u (by simpa using hex)] at hu
  simp at hu

/-- A bucket keeps what is known of it. -/
theorem BucketOk.act (h : Inv st) (hpc : st.thread t = .run pc) (ha : Act st.shared t pc f' pc')
    (hch : ∀ c, Change st.shared t pc pc' c (st.shared.process c) (f'.process c)) {q : Nat}
    {b : Bucket} (hb : BucketOk st q b) : BucketOk (acted st t f' pc') q b where
  pid := hb.pid
  creator := ((hch _).creator_eq (h.creator_lt _ _ hb.creator)).trans hb.creator
  registered := (hch _).registered_mono hb.registered
  status := by
    obtain ⟨e, he, hs⟩ := hb.status
    refine ⟨e, ((hch _).ending_eq fun heq => ?_).trans he, hs⟩
    have hnot := hb.notified
    rw [heq, hpc, Phase.next] at hnot
    cases ha <;> first | rfl | simp [Point.notified] at hnot
  notified := acted_next hpc ha.notified _ hb.notified

/-- The bucket of a process that has just left it with its parent. -/
theorem BucketOk.add (h : Inv st) {s : BitVec 32} (hok : PointOk st.shared t (.exit s .addBucket))
    (hch : ∀ c, Change st.shared t (.exit s .addBucket) (.exit s .wakeParent) c
      (st.shared.process c) (f'.process c)) {q : Nat}
    (hq : (st.shared.process t).parent = some q) :
    BucketOk (acted st t f' (.exit s .wakeParent)) q ⟨s, pidOf t, t⟩ where
  pid := rfl
  creator := by
    have hcr := (h.parent t q hq).1
    exact ((hch t).creator_eq (h.creator_lt t q hcr)).trans hcr
  registered := (hch t).registered_mono hok.2
  status := by
    obtain ⟨⟨e, he, hs⟩, -⟩ := hok
    exact ⟨e, ((hch t).ending_eq fun _ => rfl).trans he, hs.symm⟩
  notified := by simp [Phase.next, Point.notified, ExitLine.notified]

theorem Sent.act (h : Inv st)
    (hch : ∀ c, Change st.shared t pc pc' c (st.shared.process c) (f'.process c)) {c : Nat}
    (hs : Sent st c) : Sent (acted st t f' pc') c := by
  obtain ⟨q, hcr, b, hb, hsrc⟩ := hs
  refine ⟨q, ((hch c).creator_eq (h.creator_lt c q hcr)).trans hcr, b, ?_, hsrc⟩
  rcases (hch q).freeChildren with heq | ⟨s, -, -, -, heq⟩
  · exact heq ▸ hb
  · exact heq ▸ List.mem_append_left _ hb

theorem Excused.act (h : Inv st) (hpc : st.thread t = .run pc) (ha : Act st.shared t pc f' pc')
    (hch : ∀ c, Change st.shared t pc pc' c (st.shared.process c) (f'.process c)) {c : Nat}
    (hnot : (st.thread c).next.notified = true) (hx : Excused st c) :
    Excused (acted st t f' pc') c := by
  have hlt : c < st.shared.globalPid := by
    by_contra hge
    rw [(h.fresh c (Nat.le_of_not_lt hge)).2] at hnot
    simp [Phase.next, Point.notified] at hnot
  have hcr := (hch c).creator_eq hlt
  rcases hx with hearly | hnone | ⟨q, hq, hexit⟩
  · refine .inl (((hch c).early_eq fun heq => ?_).trans hearly)
    subst heq
    simpa [hpc, Phase.next] using hnot
  · exact .inr (.inl (hcr.trans hnone))
  · exact .inr (.inr ⟨q, hcr.trans hq, acted_next hpc ha.exiting q hexit⟩)

/-- A process that finds no parent at the test has an excuse. -/
theorem excused_of_noParent (h : Inv st) {s : BitVec 32}
    (hpc : st.thread t = .run (.exit s .testParent))
    (ha : Act st.shared t (.exit s .testParent) f' pc')
    (hnone : (st.shared.process t).parent = none) : Excused (acted st t f' pc') t := by
  cases ha with
  | hasParent q hq => simp [hnone] at hq
  | noParent _ =>
    cases hcr : (st.shared.process t).creator with
    | none => exact .inr (.inl (by simpa [modify] using hcr))
    | some q =>
      cases hreg : (st.shared.process t).registered with
      | false => exact .inl (by simp [modify, hcr, hreg])
      | true =>
        refine .inr (.inr ⟨q, by simpa [modify] using hcr, ?_⟩)
        -- a parent that is not exiting would still be in the field
        have hexit : (st.thread q).next.exiting = true := by
          by_contra hne
          have hkeeps := h.keeps t q hcr hreg (by simpa using hne)
          simp [hnone] at hkeeps
        exact acted_next (p := Point.exiting) hpc (fun _ => rfl) q hexit

/-- Only the statement that adds it makes a bucket appear. -/
theorem Sent.of_act (h : Inv st)
    (hch : ∀ c, Change st.shared t pc pc' c (st.shared.process c) (f'.process c)) {c : Nat}
    (hs : Sent (acted st t f' pc') c) : Sent st c ∨ (c = t ∧ ∃ s, pc = .exit s .addBucket) := by
  obtain ⟨q, -, b, hb, rfl⟩ := hs
  rcases (hch q).freeChildren with heq | ⟨s, hpc, -, -, heq⟩
  · rw [heq] at hb
    exact .inl ⟨q, (h.buckets q b hb).creator, b, hb, rfl⟩
  · rw [heq] at hb
    rcases List.mem_append.mp hb with hb | hb
    · exact .inl ⟨q, (h.buckets q b hb).creator, b, hb, rfl⟩
    · exact .inr ⟨by rw [List.mem_singleton.mp hb], s, hpc⟩

/-- A process that has left a bucket is past the notification. -/
theorem Sent.notified (h : Inv st) {c : Nat} (hs : Sent st c) :
    (st.thread c).next.notified = true := by
  obtain ⟨q, -, b, hb, rfl⟩ := hs
  exact (h.buckets q b hb).notified

/-- A process that looks at its `parent` too early leaves no bucket. -/
theorem Act.silent (h : Inv st) (hpc : st.thread t = .run pc) (ha : Act st.shared t pc f' pc')
    (hch : ∀ c, Change st.shared t pc pc' c (st.shared.process c) (f'.process c)) {c : Nat}
    (hc : (f'.process c).early = true) :
    ((acted st t f' pc').thread c).next.notified = true ∧ ¬ Sent (acted st t f' pc') c := by
  rcases (hch c).early with heq | ⟨rfl, s, rfl, hreg⟩
  · obtain ⟨hnot, hsent⟩ := h.silent c (heq.symm.trans hc)
    refine ⟨acted_next hpc ha.notified c hnot, fun hs => ?_⟩
    rcases hs.of_act h hch with hs | ⟨rfl, s, rfl⟩
    · exact hsent hs
    · simp [hpc, Phase.next, Point.notified, ExitLine.notified] at hnot
  · refine ⟨?_, fun hs => ?_⟩
    · cases ha with
      | hasParent q hq =>
        have hfalse := hreg hc
        simp [(h.parent c q hq).2] at hfalse
      | noParent _ => simp [Phase.next, Point.notified, ExitLine.notified]
    · rcases hs.of_act h hch with hs | ⟨-, s', heq⟩
      · have hnot := hs.notified h
        simp [hpc, Phase.next, Point.notified, ExitLine.notified] at hnot
      · cases heq

/-- Every statement keeps the family in order. -/
theorem Act.family (h : Inv st) (hpc : st.thread t = .run pc) (ha : Act st.shared t pc f' pc') :
    Family (acted st t f' pc') := by
  have hok : PointOk st.shared t pc := by simpa [hpc, PhaseOk] using h.ok t
  have hch := ha.change (h.fresh _ (Nat.le_refl _)).1 hok
  have hcr : ∀ {c q}, (st.shared.process c).creator = some q → (f'.process c).creator = some q := by
    intro c q hc
    exact ((hch c).creator_eq (h.creator_lt c q hc)).trans hc
  refine ⟨?maker, ?parent, ?keeps, ?children, ?nodup, ?buckets, ?once, ?sent, ?silent⟩
  case maker =>
    intro c q hc
    refine Nat.lt_of_lt_of_le ?_ ha.pids
    rcases (hch c).creator with heq | ⟨-, heq⟩
    · exact h.maker c q (heq.symm.trans hc)
    · obtain rfl := Option.some.inj (heq.symm.trans hc)
      exact ha.lt_globalPid h hpc
  case parent =>
    intro c q hp
    rcases (hch c).parent with heq | ⟨heq, hreg, hc⟩ | ⟨heq, -⟩
    · obtain ⟨hc, hreg⟩ := h.parent c q (heq.symm.trans hp)
      exact ⟨hcr hc, (hch c).registered_mono hreg⟩
    · obtain rfl := Option.some.inj (heq.symm.trans hp)
      exact ⟨hcr hc, hreg⟩
    · simp [heq] at hp
  case keeps =>
    intro c q hc hreg hexit
    rcases (hch c).registered with heq | ⟨-, hparent, hmine⟩
    · have hlt : c < st.shared.globalPid := by
        by_contra hge
        rw [(h.fresh c (Nat.le_of_not_lt hge)).1, hreg] at heq
        simp at heq
      have hold : (st.shared.process c).creator = some q := ((hch c).creator_eq hlt).symm.trans hc
      have hp := h.keeps c q hold (heq.symm.trans hreg) (acted_exiting hpc ha q hexit)
      rcases (hch c).parent with hsame | ⟨hset, -, hmine⟩ | ⟨-, hkid, hpc'⟩
      · exact hsame.trans hp
      · exact hset.trans (hmine.symm.trans hold)
      · -- the parent is removed by a creator that is exiting
        obtain rfl := Option.some.inj (hold.symm.trans (h.children t c hkid).1)
        simp [Phase.next, hpc'] at hexit
    · exact hparent.trans ((hcr hmine).symm.trans hc)
  case children =>
    have hold : ∀ q c, c ∈ (st.shared.process q).children →
        (f'.process c).creator = some q ∧ (f'.process c).registered = true := by
      intro q c hc
      obtain ⟨hmine, hreg⟩ := h.children q c hc
      exact ⟨hcr hmine, (hch c).registered_mono hreg⟩
    intro q c hc
    rcases (hch q).children with heq | ⟨-, d, heq⟩ | ⟨rfl, -, d, -, heq, -, hmine, hreg⟩
    · exact hold q c (heq ▸ hc)
    · exact hold q c (List.mem_of_mem_erase (heq ▸ hc))
    · rcases List.mem_append.mp (heq ▸ hc) with hc | hc
      · exact hold q c hc
      · obtain rfl := List.mem_singleton.mp hc
        exact ⟨hcr hmine, (hch c).registered_mono hreg⟩
  case nodup =>
    intro q
    show (f'.process q).children.Nodup
    rcases (hch q).children with heq | ⟨-, d, heq⟩ | ⟨-, -, d, -, heq, hd, -⟩
    · exact heq ▸ h.childrenNodup q
    · exact heq ▸ (h.childrenNodup q).erase d
    · rw [heq]
      refine List.nodup_append.mpr ⟨h.childrenNodup q, by simp, ?_⟩
      rintro a ha b hb rfl
      exact hd (List.mem_singleton.mp hb ▸ ha)
  case buckets =>
    intro q b hb
    rcases (hch q).freeChildren with heq | ⟨s, rfl, rfl, hq, heq⟩
    · exact (h.buckets q b (heq ▸ hb)).act h hpc ha hch
    · rcases List.mem_append.mp (heq ▸ hb) with hb | hb
      · exact (h.buckets q b hb).act h hpc ha hch
      · obtain rfl := List.mem_singleton.mp hb
        exact .add h hok hch hq
  case once =>
    intro q
    show ((f'.process q).freeChildren.map Bucket.source).Nodup
    rcases (hch q).freeChildren with heq | ⟨s, rfl, rfl, hq, heq⟩
    · exact heq ▸ h.once q
    · rw [heq, List.map_append]
      refine List.nodup_append.mpr ⟨h.once q, by simp, ?_⟩
      rintro a ha b hb rfl
      -- a process that has left a bucket is past the statement
      obtain ⟨b', hb', rfl⟩ := List.mem_map.mp ha
      have hnot := (h.buckets q b' hb').notified
      rw [List.mem_singleton.mp hb, hpc] at hnot
      simp [Phase.next, Point.notified, ExitLine.notified] at hnot
  case sent =>
    intro c hnot
    have hold : (st.thread c).next.notified = true →
        Sent (acted st t f' pc') c ∨ Excused (acted st t f' pc') c := by
      intro hn
      exact (h.sent c hn).imp (Sent.act h hch) (Excused.act h hpc ha hch hn)
    by_cases hct : c = t
    · subst hct
      simp only [Function.update_self, Phase.next] at hnot
      rcases ha.notified_cases hnot with hn | ⟨s, rfl, hnone⟩ | ⟨s, q, rfl, rfl, hq⟩
      · exact hold (by simpa [hpc, Phase.next] using hn)
      · exact .inr (excused_of_noParent h hpc ha hnone)
      · refine .inl ⟨q, hcr (h.parent c q hq).1, ⟨s, pidOf c, c⟩, ?_, rfl⟩
        cases ha with
        | addBucket q' hq' =>
          obtain rfl := Option.some.inj (hq.symm.trans hq')
          simp [modify]
    · exact hold (by simpa [hct] using hnot)
  case silent =>
    intro c hc
    exact ha.silent h hpc hch hc

end Family

/-! ## A statement that neither waits nor wakes -/

section Act

variable {st : Monitor} {t : Nat} {pc pc' : Point} {f' : Processes}

theorem Act.ownLock_eq {f : Processes} (ha : Act f t pc f' pc') : pc'.ownLock = pc.ownLock := by
  cases ha <;> rfl

theorem Act.parentLock_eq {f : Processes} (ha : Act f t pc f' pc') :
    pc'.parentLock = pc.parentLock := by
  cases ha <;> rfl

/-- Two threads under one `freeLock` are the same. -/
theorem Inv.lock_unique (h : Inv st) {q u : Nat} (ht : InLock st.shared t q (st.thread t))
    (hu : InLock st.shared u q (st.thread u)) : t = u :=
  Option.some.inj (((h.lock q t).mpr ht).symm.trans ((h.lock q u).mpr hu))

/-- A thread that adds a bucket to a process has the lock of it. -/
theorem Inv.inLock_addBucket (h : Inv st) {s : BitVec 32} {q : Nat}
    (hpc : st.thread t = .run (.exit s .addBucket)) (hq : (st.shared.process t).parent = some q) :
    InLock st.shared t q (st.thread t) := by
  rw [hpc]
  exact .inr ⟨rfl, (h.parent t q hq).1⟩

theorem Act.lock (h : Inv st) (hpc : st.thread t = .run pc) (ha : Act st.shared t pc f' pc')
    (hch : ∀ c, Change st.shared t pc pc' c (st.shared.process c) (f'.process c)) (q u : Nat) :
    st.holder (.freeLock q) = some u ↔ InLock f' u q ((acted st t f' pc').thread u) := by
  rw [h.lock q u]
  by_cases hlt : u < st.shared.globalPid
  · have hcr := (hch u).creator_eq hlt
    by_cases hut : u = t
    · subst hut
      simp only [hpc, Function.update_self, InLock, hcr, ha.ownLock_eq, ha.parentLock_eq]
    · simp only [Function.update_of_ne hut]
      cases st.thread u <;> simp only [InLock, hcr]
  · have hut : u ≠ t := by
      rintro rfl
      exact hlt (ha.lt_globalPid h hpc)
    have hfresh := (h.fresh u (Nat.le_of_not_lt hlt)).2
    simp [hut, hfresh, InLock, Point.ownLock, Point.parentLock]

/-- A process that has looked at its buckets, under its lock, gets none meanwhile. -/
theorem Act.freeChildren_looked (h : Inv st) (hpc : st.thread t = .run pc)
    (hch : ∀ c, Change st.shared t pc pc' c (st.shared.process c) (f'.process c)) {u : Nat}
    (hu : u ≠ t) {p : Point} (hp : st.thread u = .run p) (hlooked : p.looked = true) :
    (f'.process u).freeChildren = (st.shared.process u).freeChildren := by
  rcases (hch u).freeChildren with heq | ⟨s, rfl, -, hq, -⟩
  · exact heq
  · have hown : p.ownLock = true := by
      cases p with
      | join pid addr c r line => cases line <;> first | rfl | cases hlooked
      | _ => cases hlooked
    have hin : InLock st.shared u u (st.thread u) := by
      rw [hp]
      exact .inl ⟨hown, rfl⟩
    exact absurd (h.lock_unique hin (h.inLock_addBucket hpc hq)) hu

/-- A bucket for a process that sleeps is added under its lock, by a thread that is then
    about to wake it. -/
theorem Misses.act (h : Inv st) (hpc : st.thread t = .run pc) (ha : Act st.shared t pc f' pc')
    (hch : ∀ c, Change st.shared t pc pc' c (st.shared.process c) (f'.process c)) {p : Nat}
    {pid : BitVec 32} (hm : Misses st p pid) : Misses (acted st t f' pc') p pid := by
  rcases (hch p).freeChildren with heq | ⟨s, rfl, rfl, hq, heq⟩
  · rcases hm with hnone | ⟨l, b, s, hl, hnone, hb⟩
    · exact .inl (by rw [heq]; exact hnone)
    · refine .inr ⟨l, b, s, heq.trans hl, hnone, ?_⟩
      have hbt : b.source ≠ t := by
        intro hbt
        rw [hbt, hpc] at hb
        obtain rfl := Phase.run.inj hb
        cases ha
      simpa [hbt] using hb
  · rcases hm with hnone | ⟨l, b, s', hl, -, hb⟩
    · exact .inr ⟨_, _, s, heq, hnone, by simp⟩
    · -- the thread that was about to wake the process would have the lock too
      have hbucket := h.buckets p b (hl ▸ List.mem_append_right l List.mem_cons_self)
      have hin : InLock st.shared b.source p (st.thread b.source) := by
        rw [hb]
        exact .inr ⟨rfl, hbucket.creator⟩
      obtain heq := h.lock_unique hin (h.inLock_addBucket hpc hq)
      rw [heq, hpc] at hb
      cases hb

/-- A statement that neither waits nor wakes. -/
theorem act_inv (h : Inv st) (hpc : st.thread t = .run pc) (ha : Act st.shared t pc f' pc')
    (hqueued : Queued (acted st t f' pc')) : Inv (acted st t f' pc') := by
  have hok : PointOk st.shared t pc := by simpa [hpc, PhaseOk] using h.ok t
  -- what one step can do to a process is listed once, in `Change`; the clauses below use that list
  have hch := ha.change (h.fresh _ (Nat.le_refl _)).1 hok
  refine { ha.family h hpc with
    queued := hqueued, ok := ?ok, lock := ha.lock h hpc hch, fresh := ?fresh, running := ?running,
    waits := ?waits }
  case ok =>
    intro u
    by_cases hut : u = t
    · subst hut
      simpa [PhaseOk] using ha.pointOk h hok
    · simp only [Function.update_of_ne hut]
      exact phaseOk_other hch h.creator_lt hut
        (fun p hp hlooked => Act.freeChildren_looked h hpc hch hut hp hlooked) (h.ok u)
  case fresh =>
    intro c hc
    refine ⟨ha.fresh h hpc c hc, ?_⟩
    have hge := Nat.le_trans ha.pids hc
    -- the thread that moves has a number already
    have hct : c ≠ t := by
      rintro rfl
      exact absurd (ha.lt_globalPid h hpc) (Nat.not_lt.mpr hge)
    simpa [hct] using (h.fresh c hge).2
  case running =>
    intro u hu
    have hold : (st.shared.process u).forked = true := by
      by_cases hut : u = t
      · subst hut
        exact ha.forked h hpc
      · exact h.running u (by simpa [hut] using hu)
    rcases (hch u).forked with heq | ⟨heq, -⟩
    · exact heq.trans hold
    · exact heq
  case waits =>
    intro p pid addr c r hp
    have hpt : p ≠ t := by
      rintro rfl
      simp at hp
    simp only [Function.update_of_ne hpt] at hp
    exact (h.waits p pid addr c r hp).act h hpc ha hch

end Act

/-! ## Locks and conditions -/

/-- Steps that leave the fields alone keep the family in order. -/
theorem Family.move {st st' : Monitor} (h : Family st) (hshared : st'.shared = st.shared)
    (hexit : ∀ u, (st'.thread u).next.exiting = (st.thread u).next.exiting)
    (hnot : ∀ u, (st'.thread u).next.notified = (st.thread u).next.notified) : Family st' where
  maker := by rw [hshared]; exact h.maker
  parent := by rw [hshared]; exact h.parent
  keeps := by simp only [hshared, hexit]; exact h.keeps
  children := by rw [hshared]; exact h.children
  childrenNodup := by rw [hshared]; exact h.childrenNodup
  buckets := by
    intro q b hb
    rw [hshared] at hb
    obtain ⟨hpid, hcr, hreg, hstatus, hb⟩ := h.buckets q b hb
    rw [← hshared] at hcr hreg hstatus
    exact ⟨hpid, hcr, hreg, hstatus, by rw [hnot]; exact hb⟩
  once := by rw [hshared]; exact h.once
  sent := by
    simp only [hnot, Sent, Excused, hshared, hexit]
    exact h.sent
  silent := by
    simp only [hnot, Sent, hshared]
    exact h.silent

/-- A step that leaves the fields alone. -/
theorem Inv.move {st st' : Monitor} (h : Inv st) (hqueued : Queued st')
    (hshared : st'.shared = st.shared)
    (hexit : ∀ u, (st'.thread u).next.exiting = (st.thread u).next.exiting)
    (hnot : ∀ u, (st'.thread u).next.notified = (st.thread u).next.notified)
    (hok : ∀ u, PhaseOk st.shared u (st'.thread u))
    (hlock : ∀ q u, st'.holder (.freeLock q) = some u ↔ InLock st.shared u q (st'.thread u))
    (hfresh : ∀ c, st.thread c = .run (.user none) → st'.thread c = .run (.user none))
    (hwaits : ∀ p pid addr c r, st'.thread p = .asleep ⟨p⟩ (.join pid addr c r .search) →
      Misses st' p pid) : Inv st' :=
  { h.toFamily.move hshared hexit hnot with
    queued := hqueued
    ok := by rw [hshared]; exact hok
    lock := by rw [hshared]; exact hlock
    fresh := by
      intro c hc
      rw [hshared] at hc ⊢
      exact ⟨(h.fresh c hc).1, hfresh c (h.fresh c hc).2⟩
    running := by
      intro u hu
      rw [hshared]
      exact h.running u fun huser => hu (hfresh u huser)
    waits := hwaits }

section Move

variable {st : Monitor} {t : Nat} {pc pc' : Point} {l : LockId} {d : FreeCondition}
  {phase : Phase LockId FreeCondition Point} {th : Nat → Phase LockId FreeCondition Point}

theorem next_update {p : Point → Bool} {u : Nat} (hu : p (th u).next = p (st.thread u).next)
    (h : p phase.next = p (st.thread t).next) :
    p (Function.update th t phase u).next = p (st.thread u).next := by
  by_cases hut : u = t
  · subst hut
    simpa using h
  · simpa [hut] using hu

theorem ok_update {f : Processes} {u : Nat} (hu : PhaseOk f u (th u)) (h : PhaseOk f t phase) :
    PhaseOk f u (Function.update th t phase u) := by
  by_cases hut : u = t
  · subst hut
    simpa using h
  · simpa [hut] using hu

theorem lock_update {f : Processes} {holder : LockId → Option Nat} {q u : Nat}
    (hu : u ≠ t → (holder (.freeLock q) = some u ↔ InLock f u q (th u)))
    (h : holder (.freeLock q) = some t ↔ InLock f t q phase) :
    holder (.freeLock q) = some u ↔ InLock f u q (Function.update th t phase u) := by
  by_cases hut : u = t
  · subst hut
    simpa using h
  · simpa [hut] using hu hut

theorem fresh_update (ht : st.thread t ≠ .run (.user none)) {c : Nat}
    (hc : st.thread c = .run (.user none)) (hth : th c = .run (.user none)) :
    Function.update th t phase c = .run (.user none) := by
  have hct : c ≠ t := by
    rintro rfl
    exact ht hc
  simpa [hct] using hth

/-- A thread that is not about to wake another one moves, and does not sleep. -/
theorem waits_update (h : Inv st) {holder : LockId → Option Nat} {queue : FreeCondition → List Nat}
    (ht : ∀ s, st.thread t ≠ .run (.exit s .wakeParent))
    (hphase : ∀ pid addr c r, phase = .asleep ⟨t⟩ (.join pid addr c r .search) →
      searchFreeChildren (st.shared.process t).freeChildren pid = -2) (p : Nat)
    (pid addr : BitVec 32) (c : Nat) (r : BitVec 32)
    (hp : Function.update st.thread t phase p = .asleep ⟨p⟩ (.join pid addr c r .search)) :
    Misses { st with holder := holder, queue := queue
                     thread := Function.update st.thread t phase } p pid := by
  by_cases hpt : p = t
  · subst hpt
    exact .inl (hphase pid addr c r (by simpa using hp))
  · simp only [Function.update_of_ne hpt] at hp
    rcases h.waits p pid addr c r hp with hnone | ⟨l, b, s, hl, hnone, hb⟩
    · exact .inl hnone
    · refine .inr ⟨l, b, s, hl, hnone, ?_⟩
      have hbt : b.source ≠ t := by
        rintro rfl
        exact ht s hb
      simpa [hbt] using hb

/-- One thread moves, and wakes no other. -/
theorem Inv.moveThread (h : Inv st) {holder : LockId → Option Nat}
    {queue : FreeCondition → List Nat}
    (hqueued : Queued { st with holder := holder, queue := queue
                                thread := Function.update st.thread t phase })
    (hexit : phase.next.exiting = (st.thread t).next.exiting)
    (hnot : phase.next.notified = (st.thread t).next.notified)
    (hok : PhaseOk st.shared t phase)
    (hother : ∀ q u, u ≠ t → (holder (.freeLock q) = some u ↔ st.holder (.freeLock q) = some u))
    (hown : ∀ q, holder (.freeLock q) = some t ↔ InLock st.shared t q phase)
    (huser : st.thread t ≠ .run (.user none))
    (hwake : ∀ s, st.thread t ≠ .run (.exit s .wakeParent))
    (hsleep : ∀ pid addr c r, phase = .asleep ⟨t⟩ (.join pid addr c r .search) →
      searchFreeChildren (st.shared.process t).freeChildren pid = -2) :
    Inv { st with holder := holder, queue := queue
                  thread := Function.update st.thread t phase } :=
  h.move hqueued rfl (fun _ => next_update (p := Point.exiting) rfl hexit)
    (fun _ => next_update (p := Point.notified) rfl hnot) (fun u => ok_update (h.ok u) hok)
    (fun q u => lock_update (fun hu => (hother q u hu).trans (h.lock q u)) (hown q))
    (fun _ hc => fresh_update huser hc hc) (waits_update h hwake hsleep)

theorem Inv.pointOk (h : Inv st) (hpc : st.thread t = .run pc) : PointOk st.shared t pc := by
  simpa [hpc, PhaseOk] using h.ok t

theorem acquire_inv (h : Inv st) (hpc : st.thread t = .run pc)
    (ha : Acquires st.shared t pc l pc')
    (hqueued : Queued { st with thread := Function.update st.thread t (.entering l pc') }) :
    Inv { st with thread := Function.update st.thread t (.entering l pc') } := by
  have hok := h.pointOk hpc
  refine h.moveThread hqueued ?exiting ?notified ?ok (fun _ _ _ => .rfl) (fun q => ?own) ?user
    (fun s => ?wake) (by simp)
  case ok =>
    cases ha with
    | exec => exact ⟨trivial, .exec⟩
    | execFail => exact ⟨trivial, .execFail⟩
    | parent q hq => exact ⟨hok, .parent (h.parent t q hq).1⟩
    | exit => exact ⟨hok, .exit⟩
    | join => exact ⟨hok, .join⟩
  case own =>
    rw [h.lock, hpc]
    cases ha <;> simp [InLock, Point.ownLock, Point.parentLock, JoinLine.locked, ExitLine.locked]
  all_goals
    rw [hpc]
    cases ha <;> first | rfl | simp

theorem enter_inv (h : Inv st) (hpc : st.thread t = .entering l pc) (hfree : st.holder l = none)
    (hqueued : Queued { st with holder := Function.update st.holder l (some t)
                                thread := Function.update st.thread t (.run pc) }) :
    Inv { st with holder := Function.update st.holder l (some t)
                  thread := Function.update st.thread t (.run pc) } := by
  have hok : PhaseOk st.shared t (.entering l pc) := hpc ▸ h.ok t
  obtain ⟨hpoint, hentry⟩ := hok
  refine h.moveThread hqueued ?exiting ?notified hpoint (fun q u hu => ?other) (fun q => ?own) ?user
    (fun s => ?wake) (by simp)
  case other =>
    by_cases hl : l = .freeLock q
    · subst hl
      simp [hfree, Ne.symm hu]
    · simp [Ne.symm hl]
  case own =>
    -- a thread enters the lock of its own list, the one of its parent, or a lock of neither kind
    by_cases hl : l = .freeLock q
    · subst hl
      cases hentry with
      | parent hq => simp [InLock, Point.parentLock, ExitLine.locked, hq]
      | join => simp [InLock, Point.ownLock, JoinLine.locked]
    · rw [Function.update_of_ne (Ne.symm hl), h.lock, hpc]
      cases hentry with
      | parent hq =>
        refine ⟨False.elim, ?_⟩
        rintro (⟨hown, -⟩ | ⟨-, hcr⟩)
        · simp [Point.ownLock] at hown
        · rw [hq] at hcr
          exact hl (by rw [Option.some.inj hcr])
      | join =>
        refine ⟨False.elim, ?_⟩
        rintro (⟨-, rfl⟩ | ⟨hparent, -⟩)
        · exact hl rfl
        · simp [Point.parentLock] at hparent
      | _ => simp [InLock, Point.ownLock, Point.parentLock, ExitLine.locked]
  all_goals
    rw [hpc]
    first | rfl | simp

theorem Releases.pointOk {f : Processes} (hr : Releases f t pc l pc') (hok : PointOk f t pc) :
    PointOk f t pc' := by
  cases hr with
  | parent q hq => exact hok
  | exit =>
    obtain ⟨e, he, -⟩ := hok
    exact ⟨e, he⟩
  | _ => trivial

/-- A thread that gives up a lock. -/
theorem holder_release {holder : LockId → Option Nat} (hheld : holder l = some t) {q u : Nat}
    (hu : u ≠ t) :
    Function.update holder l none (.freeLock q) = some u ↔ holder (.freeLock q) = some u := by
  by_cases hl : l = .freeLock q
  · subst hl
    simp [hheld, Ne.symm hu]
  · simp [Ne.symm hl]

theorem release_inv (h : Inv st) (hpc : st.thread t = .run pc) (hr : Releases st.shared t pc l pc')
    (hheld : st.holder l = some t)
    (hqueued : Queued { st with holder := Function.update st.holder l none
                                thread := Function.update st.thread t (.run pc') }) :
    Inv { st with holder := Function.update st.holder l none
                  thread := Function.update st.thread t (.run pc') } := by
  have hout : ∀ q, ¬ InLock st.shared t q (.run pc') := by
    intro q
    cases hr <;> simp [InLock, Point.ownLock, Point.parentLock, JoinLine.locked, ExitLine.locked]
  refine h.moveThread hqueued ?exiting ?notified (hr.pointOk (h.pointOk hpc))
    (fun q u hu => holder_release hheld hu) (fun q => ?own) ?user (fun s => ?wake) (by simp)
  case own =>
    simp only [hout q, iff_false]
    by_cases hl : l = .freeLock q
    · simp [hl]
    · rw [Function.update_of_ne (Ne.symm hl), h.lock, hpc]
      -- the lock that is released is the only one
      cases hr with
      | parent q' hq' =>
        rintro (⟨hown, -⟩ | ⟨-, hcr⟩)
        · simp [Point.ownLock] at hown
        · rw [(h.parent t q' hq').1] at hcr
          exact hl (by rw [Option.some.inj hcr])
      | join =>
        rintro (⟨-, rfl⟩ | ⟨hparent, -⟩)
        · exact hl rfl
        · simp [Point.parentLock] at hparent
      | _ => simp [InLock, Point.ownLock, Point.parentLock, ExitLine.locked]
  all_goals
    rw [hpc]
    cases hr <;> first | rfl | simp

theorem sleep_inv (h : Inv st) (hpc : st.thread t = .run pc) (hs : Sleeps t pc d pc')
    (hheld : st.holder (program.lockOf d) = some t) {queue : FreeCondition → List Nat}
    (hqueued : Queued { st with holder := Function.update st.holder (program.lockOf d) none
                                queue := queue
                                thread := Function.update st.thread t (.asleep d pc') }) :
    Inv { st with holder := Function.update st.holder (program.lockOf d) none
                  queue := queue
                  thread := Function.update st.thread t (.asleep d pc') } := by
  have hok := h.pointOk hpc
  cases hs with
  | @join pid addr r c =>
    refine h.moveThread hqueued ?exiting ?notified ⟨hok.1, .join⟩
      (fun q u hu => holder_release hheld hu) (fun q => ?own) ?user (fun s => ?wake) ?sleep
    case own =>
      simp only [InLock, iff_false]
      by_cases hq : q = t
      · subst hq
        simp [program]
      · have hl : LockId.freeLock q ≠ program.lockOf ⟨t⟩ := by
          simpa [program] using hq
        rw [Function.update_of_ne hl, h.lock, hpc]
        simp [InLock, Point.ownLock, Point.parentLock, hq]
    case sleep =>
      intro pid' addr' c' r' heq
      simp only [Phase.asleep.injEq, Point.join.injEq, true_and] at heq
      exact heq.1 ▸ hok.2
    all_goals
      rw [hpc]
      first | rfl | simp

theorem retry_inv (h : Inv st) (hpc : st.thread t = .woken d pc)
    (hqueued : Queued { st with
      thread := Function.update st.thread t (.entering (program.lockOf d) pc) }) :
    Inv { st with thread := Function.update st.thread t (.entering (program.lockOf d) pc) } := by
  have hok : PhaseOk st.shared t (.woken d pc) := hpc ▸ h.ok t
  obtain ⟨hpoint, hsleep⟩ := hok
  cases hsleep with
  | join =>
    refine h.moveThread hqueued ?exiting ?notified ⟨hpoint, .join⟩ (fun _ _ _ => .rfl)
      (fun q => ?own) ?user (fun s => ?wake) (by simp)
    case own =>
      rw [h.lock, hpc]
      rfl
    all_goals
      rw [hpc]
      first | rfl | simp

/-- The thread that `wake` finds is the process itself, asleep in `join`. -/
theorem Inv.asleep_self (h : Inv st) {u : Nat} {n : Point} (hu : st.thread u = .asleep d n) :
    d = ⟨u⟩ := by
  have hok : PhaseOk st.shared u (.asleep d n) := hu ▸ h.ok u
  cases hok.2
  rfl

/-- The rest of a wake, once the thread in the queue has been woken. -/
theorem wake_inv (h : Inv st) (hpc : st.thread t = .run pc) (hw : Wakes st.shared t pc d pc')
    {queue : FreeCondition → List Nat}
    (hqueued : Queued { st with queue := queue, thread := Function.update th t (.run pc') })
    (hth : ∀ u, th u = st.thread u ∨ ∃ n, st.thread u = .asleep d n ∧ th u = .woken d n)
    (hd : ∀ n, th d.process ≠ .asleep d n) :
    Inv { st with queue := queue, thread := Function.update th t (.run pc') } := by
  cases hw with
  | @exit s q hq =>
    have hnext : ∀ u, (th u).next = (st.thread u).next := by
      intro u
      rcases hth u with heq | ⟨n, hold, hnew⟩
      · rw [heq]
      · rw [hold, hnew]
        rfl
    refine h.move hqueued rfl (fun u => ?exiting) (fun u => ?notified) (fun u => ?ok)
      (fun p u => ?lock) (fun c hc => ?fresh) ?waits
    case exiting =>
      refine next_update (p := Point.exiting) (congrArg _ (hnext u)) ?_
      rw [hpc]
      rfl
    case notified =>
      refine next_update (p := Point.notified) (congrArg _ (hnext u)) ?_
      rw [hpc]
      rfl
    case ok =>
      refine ok_update ?_ (h.pointOk hpc)
      have hok := h.ok u
      rcases hth u with heq | ⟨n, hold, hnew⟩
      · exact heq ▸ hok
      · rw [hold] at hok
        exact hnew ▸ hok
    case lock =>
      refine lock_update (fun _ => ?_) ?_
      · rw [h.lock]
        rcases hth u with heq | ⟨n, hold, hnew⟩
        · rw [heq]
        · rw [hold, hnew]
          rfl
      · rw [h.lock, hpc]
        rfl
    case fresh =>
      refine fresh_update (by simp [hpc]) hc ?_
      rcases hth c with heq | ⟨n, hold, -⟩
      · exact heq.trans hc
      · simp [hc] at hold
    case waits =>
      intro p pid addr c r hp
      have hpt : p ≠ t := by
        rintro rfl
        simp at hp
      simp only [Function.update_of_ne hpt] at hp
      have hpq : p ≠ q := by
        rintro rfl
        exact hd _ hp
      have hold : st.thread p = .asleep ⟨p⟩ (.join pid addr c r .search) := by
        rcases hth p with heq | ⟨n, -, hnew⟩
        · exact heq.symm.trans hp
        · simp [hnew] at hp
      rcases h.waits p pid addr c r hold with hnone | ⟨l, b, s', hl, hnone, hb⟩
      · exact .inl hnone
      · refine .inr ⟨l, b, s', hl, hnone, ?_⟩
        -- the bucket belongs to another process, so its thread is not the one that wakes
        have hcr := (h.buckets p b (hl ▸ List.mem_append_right l List.mem_cons_self)).creator
        have hbt : b.source ≠ t := by
          intro hbt
          rw [hbt, (h.parent t q hq).1] at hcr
          exact hpq (Option.some.inj hcr).symm
        rcases hth b.source with heq | ⟨n, hasleep, -⟩
        · simpa [hbt, heq] using hb
        · simp [hb] at hasleep

theorem wakeNone_inv (h : Inv st) (hpc : st.thread t = .run pc) (hw : Wakes st.shared t pc d pc')
    (hqueue : st.queue d = [])
    (hqueued : Queued { st with thread := Function.update st.thread t (.run pc') }) :
    Inv { st with thread := Function.update st.thread t (.run pc') } := by
  refine wake_inv h hpc hw hqueued (fun _ => .inl rfl) (fun n hn => ?_)
  have hmem := (h.queued.mem_iff d d.process).mpr ⟨n, hn⟩
  simp [hqueue] at hmem

theorem wakeSome_inv (h : Inv st) (hpc : st.thread t = .run pc) (hw : Wakes st.shared t pc d pc')
    {u : Nat} {rest : List Nat} (hqueue : st.queue d = u :: rest)
    (hqueued : Queued { st with queue := Function.update st.queue d rest
                                thread := Function.update (Function.update st.thread u
                                  (st.thread u).wake) t (.run pc') }) :
    Inv { st with queue := Function.update st.queue d rest
                  thread := Function.update (Function.update st.thread u (st.thread u).wake) t
                    (.run pc') } := by
  obtain ⟨n, hn⟩ := h.queued.head_asleep hqueue
  obtain rfl := h.asleep_self hn
  refine wake_inv h hpc hw hqueued (fun x => ?_) (by simp [hn, Phase.wake])
  by_cases hx : x = u
  · subst hx
    exact .inr ⟨n, hn, by simp [hn, Phase.wake]⟩
  · exact .inl (by simp [hx])

end Move

/-! ## Runs -/

/-- Every step of every thread keeps the invariant. -/
theorem step_inv {st st' : Monitor} (h : Inv st) (hstep : Step program st st') : Inv st' := by
  have hqueued := h.queued.step hstep
  cases hstep with
  | @act t pc i shared next hpc hinstr =>
    have hex : Executes st.shared t pc (.act shared next) := hinstr ▸ executes_instr pc i
    exact act_inv h hpc hex hqueued
  | @acquire t pc i l next hpc hinstr =>
    have hex : Executes st.shared t pc (.acquire l next) := hinstr ▸ executes_instr pc i
    exact acquire_inv h hpc hex hqueued
  | enter hpc hfree => exact enter_inv h hpc hfree hqueued
  | @release t pc i l next hpc hinstr hheld =>
    have hex : Executes st.shared t pc (.release l next) := hinstr ▸ executes_instr pc i
    exact release_inv h hpc hex hheld hqueued
  | @sleep t pc i c next hpc hinstr hheld =>
    have hex : Executes st.shared t pc (.sleep c next) := hinstr ▸ executes_instr pc i
    exact sleep_inv h hpc hex hheld hqueued
  | @wakeNone t pc i c next hpc hinstr hheld hqueue =>
    have hex : Executes st.shared t pc (.wake c next) := hinstr ▸ executes_instr pc i
    exact wakeNone_inv h hpc hex hqueue hqueued
  | @wakeSome t u pc i c next rest hpc hinstr hheld hqueue =>
    have hex : Executes st.shared t pc (.wake c next) := hinstr ▸ executes_instr pc i
    exact wakeSome_inv h hpc hex hqueue hqueued
  | retry hpc => exact retry_inv h hpc hqueued

/-- Processes that have no relatives, with all threads in user mode. -/
structure Alone (st : Monitor) : Prop where
  creator : ∀ c, (st.shared.process c).creator = none
  registered : ∀ c, (st.shared.process c).registered = false
  parent : ∀ c, (st.shared.process c).parent = none
  children : ∀ c, (st.shared.process c).children = []
  freeChildren : ∀ c, (st.shared.process c).freeChildren = []
  early : ∀ c, (st.shared.process c).early = false
  fresh : ∀ c, st.shared.globalPid ≤ c → st.shared.process c = {}
  thread : ∀ t, st.thread t = .run (.user none)
  holder : ∀ l, st.holder l = none
  queue : ∀ d, st.queue d = []

theorem Alone.inv {st : Monitor} (h : Alone st) : Inv st where
  maker := by simp [h.creator]
  parent := by simp [h.parent]
  keeps := by simp [h.creator]
  children := by simp [h.children]
  childrenNodup := by simp [h.children]
  buckets := by simp [h.freeChildren]
  once := by simp [h.freeChildren]
  sent := by simp [h.thread, Phase.next, Point.notified]
  silent := by simp [h.early]
  queued := ⟨by simp [h.queue, h.thread], by simp [h.queue]⟩
  ok := by
    intro t
    rw [h.thread]
    trivial
  lock := by simp [h.holder, h.thread, InLock, Point.ownLock, Point.parentLock]
  fresh := fun c hc => ⟨h.fresh c hc, h.thread c⟩
  running := fun t ht => absurd (h.thread t) ht
  waits := by simp [h.thread]

/-- The invariant holds when the root process has been forked. -/
theorem boot_inv {n : Nat} {image : Image} {st : System} (h : boot n image = some st) :
    Inv st.monitor := by
  unfold boot at h
  split at h
  · obtain rfl := Option.some.inj h
    refine Alone.inv ⟨fun c => ?_, fun c => ?_, fun c => ?_, fun c => ?_, fun c => ?_, fun c => ?_,
      fun c hc => ?fresh, fun _ => rfl, fun _ => rfl, fun _ => rfl⟩
    case fresh =>
      have hne : c ≠ 0 := by
        simp only [Threads.monitor] at hc
        omega
      simp [Threads.monitor, hne]
    all_goals by_cases hc : c = 0 <;> simp [Threads.monitor, hc]
  · simp at h

section Run

variable {n : Nat} {image : Image} {st st' : System} {choices : List (Choice Nat Syscall)}

/-- A run of the threads is an interleaving of the monitor. -/
theorem boot_steps (hboot : boot n image = some st)
    (h : Threads.run program st choices = some st') :
    Steps program st.monitor st'.monitor := by
  refine Threads.run_steps ?_ (boot_inv hboot).queued h
  unfold boot at hboot
  split at hboot
  · obtain rfl := Option.some.inj hboot
    exact ⟨by simp, by simp⟩
  · simp at hboot

/-- The invariant holds in every state that is reached. -/
theorem run_inv (hboot : boot n image = some st) (h : Threads.run program st choices = some st') :
    Inv st'.monitor :=
  (boot_steps hboot h).invariant step_inv (boot_inv hboot)

end Run

end Processes

end Nachos
