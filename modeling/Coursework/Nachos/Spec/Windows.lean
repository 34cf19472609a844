import Mathlib.Logic.Function.Basic
import Coursework.Nachos.Interleaving

/-!
# Frames held by threads

A thread that has given up `memLock` in the middle of the paging code holds a frame: it
is saving the page in it, reading a page into it, or copying to or from it. `Exclusive`
is what keeps the holders apart: each holds a frame of its own, the frame is pinned, and
the page tables say of it what the thread will go on to rely on.
-/

namespace Nachos

/-- The part of the kernel state that decides who has which frame. `entry` is the `ppn`
    of a valid page table entry. -/
structure Shape where
  numPhysPages : Nat
  owner : Nat → Option (Option Nat × Nat)
  pinned : Nat → Bool
  entry : Nat → Nat → Option Int
  numPages : Nat → Nat
  live : Nat → Bool
  numProcesses : Nat
  current : Option Nat

namespace Shape

/-- Pin or unpin a frame. -/
def setPinned (s : Shape) (f : Nat) (b : Bool) : Shape :=
  { s with pinned := Function.update s.pinned f b }

/-- Overwrite the owner of a frame. -/
def setOwner (s : Shape) (f : Nat) (o : Option (Option Nat × Nat)) : Shape :=
  { s with owner := Function.update s.owner f o }

/-- Overwrite one page table entry. -/
def setEntry (s : Shape) (p v : Nat) (e : Option Int) : Shape :=
  { s with entry := fun p' v' => if p' = p ∧ v' = v then e else s.entry p' v' }

/-- A new process, with no page in memory. -/
def spawn (s : Shape) (numPages : Nat) : Shape :=
  { s with
    entry := Function.update s.entry s.numProcesses fun _ => none
    numPages := Function.update s.numPages s.numProcesses numPages
    live := Function.update s.live s.numProcesses true
    numProcesses := s.numProcesses + 1 }

/-- Process `p` gives up the frames its valid entries name, and is no longer live. It was
    the one that was running. -/
def kill (s : Shape) (p : Nat) : Shape :=
  { s with
    owner := fun f =>
      if ∃ v < s.numPages p, (s.entry p v).map Int.toNat = some f then none else s.owner f
    live := Function.update s.live p false
    current := none }

end Shape

/-- What a thread is doing to page `v` of its process. Within a step it can also have a
    frame assigned that is not filled yet. -/
inductive Win where
  | idle
  | waiting (v : Nat)
  | saving (v f q w : Nat)
  | filling (v f : Nat)
  | loading (v f : Nat)
  | copying (v f : Nat)

/-- The frame a thread holds. -/
def Win.frame : Win → Option Nat
  | .idle => none
  | .waiting _ => none
  | .saving _ f _ _ => some f
  | .filling _ f => some f
  | .loading _ f => some f
  | .copying _ f => some f

/-- Does the thread have a frame assigned to a page that is not valid yet? -/
def Win.opens : Win → Nat → Nat → Prop
  | .filling v f, v', f' => v = v' ∧ f = f'
  | .loading v f, v', f' => v = v' ∧ f = f'
  | _, _, _ => False

/-- Page `v` of `p` is not in memory. -/
structure Missing (s : Shape) (p v : Nat) : Prop where
  live : s.live p = true
  inRange : v < s.numPages p
  invalid : s.entry p v = none

/-- Page `v` of `p` is in frame `f`. -/
structure Present (s : Shape) (p v f : Nat) : Prop where
  live : s.live p = true
  inRange : v < s.numPages p
  entry : s.entry p v = some (f : Int)

/-- Page `w` of `q` is being saved from frame `f`. Its process may exit meanwhile; the
    frame then has no owner. -/
def Victim (s : Shape) (f q w : Nat) : Prop :=
  Present s q w f ∨ (s.live q = false ∧ q < s.numProcesses ∧ s.owner f = none)

/-- What the tables say about the frame that a thread of `p` holds. -/
def Win.Ok (s : Shape) (p : Nat) : Win → Prop
  | .idle => True
  | .waiting v => Missing s p v
  | .saving v f q w => Missing s p v ∧ f < s.numPhysPages ∧ s.pinned f = true ∧ Victim s f q w
  | .filling v f => Missing s p v ∧ f < s.numPhysPages ∧ s.owner f = some (some p, v)
  | .loading v f => Missing s p v ∧ f < s.numPhysPages ∧ s.owner f = some (some p, v) ∧
      s.pinned f = true
  | .copying v f => Present s p v f ∧ s.pinned f = true

/-- A change of the tables that leaves a thread alone. -/
theorem Win.Ok.mono {s s' : Shape} {p : Nat} {x : Win} (hx : x.Ok s p)
    (hnum : s'.numPhysPages = s.numPhysPages)
    (hmiss : ∀ v, x ≠ .idle → Missing s p v → Missing s' p v)
    (hpin : ∀ f, x.frame = some f → s.pinned f = true → s'.pinned f = true)
    (howner : ∀ v f, x.frame = some f → s.owner f = some (some p, v) →
      s'.owner f = some (some p, v))
    (hpres : ∀ v f, x.frame = some f → Present s p v f → Present s' p v f)
    (hvict : ∀ f q w, x.frame = some f → Victim s f q w → Victim s' f q w) : x.Ok s' p := by
  cases x with
  | idle => trivial
  | waiting v => exact hmiss v (by simp) hx
  | saving v f q w =>
    exact ⟨hmiss v (by simp) hx.1, hnum ▸ hx.2.1, hpin f rfl hx.2.2.1, hvict f q w rfl hx.2.2.2⟩
  | filling v f => exact ⟨hmiss v (by simp) hx.1, hnum ▸ hx.2.1, howner v f rfl hx.2.2⟩
  | loading v f =>
    exact ⟨hmiss v (by simp) hx.1, hnum ▸ hx.2.1, howner v f rfl hx.2.2.1, hpin f rfl hx.2.2.2⟩
  | copying v f => exact ⟨hpres v f rfl hx.1, hpin f rfl hx.2⟩

/-- The tables agree with each other and with the threads. -/
structure Exclusive (s : Shape) (win : Nat → Win) : Prop where
  forward : ∀ p v e, s.live p = true → v < s.numPages p → s.entry p v = some e →
    ∃ f : Nat, e = f ∧ f < s.numPhysPages ∧ s.owner f = some (some p, v)
  backward : ∀ f o, f < s.numPhysPages → s.owner f = some o → ∃ p v, o = (some p, v) ∧
    s.live p = true ∧ v < s.numPages p ∧ (s.entry p v = some (f : Int) ∨ (win p).opens v f)
  ok : ∀ p, (win p).Ok s p
  apart : ∀ p p' f, (win p).frame = some f → (win p').frame = some f → p = p'
  fresh : ∀ p, s.numProcesses ≤ p → s.live p = false
  dead : ∀ p, s.live p = false → win p = .idle
  running : ∀ p, s.current = some p → s.live p = true

namespace Exclusive

variable {s : Shape} {win : Nat → Win}

/-- Two pages of live processes are not in the same frame. -/
theorem entry_inj (h : Exclusive s win) {p v p' v' : Nat} {e : Int} (hl : s.live p = true)
    (hn : v < s.numPages p) (he : s.entry p v = some e) (hl' : s.live p' = true)
    (hn' : v' < s.numPages p') (he' : s.entry p' v' = some e) : p = p' ∧ v = v' := by
  obtain ⟨f, hf, -, ho⟩ := h.forward p v e hl hn he
  obtain ⟨f', hf', -, ho'⟩ := h.forward p' v' e hl' hn' he'
  have : f = f' := by omega
  subst this
  rw [ho] at ho'
  simpa using ho'

/-- Giving up the page in a frame is giving up all entries that name the frame. -/
theorem entry_drop (h : Exclusive s win) {q w f : Nat} (hp : Present s q w f) (p v : Nat)
    (hl : s.live p = true) (hn : v < s.numPages p) :
    (s.setEntry q w none).entry p v =
      if s.entry p v = some (f : Int) then none else s.entry p v := by
  by_cases heq : p = q ∧ v = w
  · obtain ⟨rfl, rfl⟩ := heq
    simp [Shape.setEntry, hp.entry]
  · simp only [Shape.setEntry, if_neg heq]
    rw [if_neg]
    intro he
    exact heq (h.entry_inj hl hn he hp.live hp.inRange hp.entry)

/-- No entry names a frame without an owner. -/
theorem entry_ne (h : Exclusive s win) {f : Nat} (ho : s.owner f = none) (p v : Nat)
    (hl : s.live p = true) (hn : v < s.numPages p) : s.entry p v ≠ some (f : Int) := by
  intro he
  obtain ⟨g, hg, -, hog⟩ := h.forward p v f hl hn he
  have : g = f := by omega
  simp [this, ho] at hog

/-- A frame in use that nobody has pinned belongs to a page that is in memory. -/
theorem entry_of_owner (h : Exclusive s win) (hfill : ∀ p v f, win p ≠ .filling v f)
    {f q w : Nat} (hf : f < s.numPhysPages) (ho : s.owner f = some (some q, w))
    (hpin : s.pinned f = false) : Present s q w f := by
  obtain ⟨p, v, heq, hl, hn, he⟩ := h.backward f _ hf ho
  simp only [Prod.mk.injEq, Option.some.injEq] at heq
  obtain ⟨rfl, rfl⟩ := heq
  refine ⟨hl, hn, he.resolve_right fun hop => ?_⟩
  have hok := h.ok q
  cases hw : win q with
  | loading v' f' =>
    rw [hw] at hop hok
    obtain ⟨rfl, rfl⟩ := hop
    simp [hok.2.2.2] at hpin
  | filling v' f' => exact hfill q v' f' hw
  | _ => rw [hw] at hop; exact hop

/-- A thread that holds a frame has it pinned. -/
theorem frame_ne (h : Exclusive s win) (hfill : ∀ p v f, win p ≠ .filling v f) {f : Nat}
    (hpin : s.pinned f = false) (p : Nat) : (win p).frame ≠ some f := by
  intro hf
  have hok := h.ok p
  cases hw : win p with
  | idle => simp [hw, Win.frame] at hf
  | waiting v => simp [hw, Win.frame] at hf
  | filling v g => exact hfill p v g hw
  | saving v g q w =>
    rw [hw] at hf hok
    obtain rfl : g = f := Option.some.inj hf
    simp [hok.2.2.1] at hpin
  | loading v g =>
    rw [hw] at hf hok
    obtain rfl : g = f := Option.some.inj hf
    simp [hok.2.2.2] at hpin
  | copying v g =>
    rw [hw] at hf hok
    obtain rfl : g = f := Option.some.inj hf
    simp [hok.2] at hpin

/-- Only the windows of other threads matter to what a step of `p` may change. -/
theorem ok_update {s' : Shape} {p : Nat} {x : Win} (hx : x.Ok s' p)
    (hother : ∀ q, q ≠ p → (win q).Ok s' q) (q : Nat) : (Function.update win p x q).Ok s' q := by
  by_cases hq : q = p
  · subst hq
    simpa using hx
  · simpa [hq] using hother q hq

/-- The new window of `p` holds a frame that no other thread holds. -/
theorem apart_update (h : Exclusive s win) {p : Nat} {x : Win}
    (hother : ∀ q f, q ≠ p → x.frame = some f → (win q).frame ≠ some f) (q q' f : Nat)
    (hq : (Function.update win p x q).frame = some f)
    (hq' : (Function.update win p x q').frame = some f) : q = q' := by
  by_cases e : q = p <;> by_cases e' : q' = p
  · rw [e, e']
  · subst e
    simp only [Function.update_self, Function.update_of_ne e'] at hq hq'
    exact absurd hq' (hother q' f e' hq)
  · subst e'
    simp only [Function.update_self, Function.update_of_ne e] at hq hq'
    exact absurd hq (hother q f e hq')
  · simp only [Function.update_of_ne e, Function.update_of_ne e'] at hq hq'
    exact h.apart q q' f hq hq'

/-- A thread that holds no frame starts or stops waiting for a page. -/
theorem setWin (h : Exclusive s win) {p : Nat} {x : Win} (hold : (win p).frame = none)
    (hnew : x.frame = none) (hx : x.Ok s p) (hlive : s.live p = true) :
    Exclusive s (Function.update win p x) := by
  refine ⟨h.forward, ?_, ok_update hx fun q _ => h.ok q, h.apart_update (by simp [hnew]),
    h.fresh, ?_, h.running⟩
  · intro f o hf ho
    obtain ⟨q, w, rfl, hl, hn, he⟩ := h.backward f o hf ho
    refine ⟨q, w, rfl, hl, hn, he.imp_right fun hop => ?_⟩
    have hq : q ≠ p := by
      rintro rfl
      cases hw : win q <;> simp [hw, Win.opens, Win.frame] at hop hold
    simpa [hq] using hop
  · intro q hq
    have hne : q ≠ p := by
      rintro rfl
      simp [hlive] at hq
    simpa [hne] using h.dead q hq

/-- Pinning or unpinning a frame leaves the holders of other frames alone. -/
theorem ok_setPinned {x : Win} {p f : Nat} {b : Bool} (hx : x.Ok s p)
    (hne : x.frame ≠ some f ∨ b = true) : x.Ok (s.setPinned f b) p := by
  refine hx.mono rfl (fun v _ hm => ⟨hm.live, hm.inRange, hm.invalid⟩) ?_ (fun _ _ _ ho => ho)
    (fun _ _ _ hp => ⟨hp.live, hp.inRange, hp.entry⟩)
    (fun _ _ _ _ hv => hv.imp_left fun hp => ⟨hp.live, hp.inRange, hp.entry⟩)
  intro g hg hpin
  simp only [Shape.setPinned, Function.update_apply]
  split
  · rename_i hgf
    exact hne.resolve_left fun hn => hn (hgf ▸ hg)
  · exact hpin

/-- A thread pins a frame that no other thread holds. -/
theorem hold (h : Exclusive s win) {p f : Nat} {x : Win} (hlive : s.live p = true)
    (hframe : x.frame = some f) (hother : ∀ q, q ≠ p → (win q).frame ≠ some f)
    (hopen : ∀ v g, (win p).opens v g → x.opens v g) (hx : x.Ok (s.setPinned f true) p) :
    Exclusive (s.setPinned f true) (Function.update win p x) := by
  refine ⟨h.forward, ?_, ok_update hx fun q _ => ok_setPinned (h.ok q) (Or.inr rfl),
    h.apart_update ?_, h.fresh, ?_, h.running⟩
  · intro g o hg ho
    obtain ⟨q, w, rfl, hl, hn, he⟩ := h.backward g o hg ho
    refine ⟨q, w, rfl, hl, hn, he.imp_right fun hop => ?_⟩
    by_cases hq : q = p
    · subst hq
      simpa using hopen w g hop
    · simpa [hq] using hop
  · intro q g hq hg
    rw [hframe] at hg
    exact Option.some.inj hg ▸ hother q hq
  · intro q hq
    have hne : q ≠ p := by
      rintro rfl
      have : s.live q = false := hq
      simp [hlive] at this
    simpa [hne] using h.dead q hq

/-- A thread gives its frame up. -/
theorem release (h : Exclusive s win) {p v f : Nat} (hw : win p = .copying v f) :
    Exclusive (s.setPinned f false) (Function.update win p .idle) := by
  have hok := h.ok p
  rw [hw] at hok
  have hother : ∀ q, q ≠ p → (win q).frame ≠ some f := fun q hq hf =>
    hq (h.apart q p f hf (by rw [hw]; rfl))
  refine ⟨h.forward, ?_, ok_update trivial
    fun q hq => ok_setPinned (h.ok q) (Or.inl (hother q hq)),
    h.apart_update (by simp [Win.frame]), h.fresh, ?_,
    h.running⟩
  · intro g o hg ho
    obtain ⟨q, w, rfl, hl, hn, he⟩ := h.backward g o hg ho
    refine ⟨q, w, rfl, hl, hn, he.imp_right fun hop => ?_⟩
    have hq : q ≠ p := by
      rintro rfl
      simp [hw, Win.opens] at hop
    simpa [hq] using hop
  · intro q hq
    have hne : q ≠ p := by
      rintro rfl
      have : s.live q = false := hq
      simp [hok.1.live] at this
    simpa [hne] using h.dead q hq

/-- A frame that no other thread holds is assigned to a missing page. Whatever page was in
    the frame is given up. -/
theorem take (h : Exclusive s win) {p v f : Nat} {pinned : Nat → Bool}
    {entry : Nat → Nat → Option Int} (hf : f < s.numPhysPages) (hmiss : Missing s p v)
    (hopen : ∀ w g, ¬ (win p).opens w g) (hother : ∀ q, q ≠ p → (win q).frame ≠ some f)
    (hpin : ∀ g, g ≠ f → pinned g = s.pinned g)
    (hentry : ∀ q w, s.live q = true → w < s.numPages q →
      entry q w = if s.entry q w = some (f : Int) then none else s.entry q w) :
    Exclusive { s.setOwner f (some (some p, v)) with pinned := pinned, entry := entry }
      (Function.update win p (.filling v f)) := by
  -- entries of other frames stay
  have hkeep : ∀ q w (g : Nat), s.live q = true → w < s.numPages q → g ≠ f →
      s.entry q w = some (g : Int) → entry q w = some (g : Int) := by
    intro q w g hl hn hg he
    rw [hentry q w hl hn, he, if_neg]
    simp only [Option.some.injEq]
    omega
  have hnone : ∀ q w, s.live q = true → w < s.numPages q → s.entry q w = none →
      entry q w = none := by
    intro q w hl hn he
    rw [hentry q w hl hn, he]
    simp
  refine ⟨?_, ?_, ok_update ⟨⟨hmiss.live, hmiss.inRange, ?_⟩, hf, ?_⟩ ?_, h.apart_update ?_, h.fresh,
    ?_, h.running⟩
  · intro q w e hl hn he
    have he' : entry q w = some e := he
    rw [hentry q w hl hn] at he'
    split at he'
    · simp at he'
    rename_i hne
    obtain ⟨g, hg, hlt, ho⟩ := h.forward q w e hl hn he'
    have hgf : g ≠ f := by
      rintro rfl
      exact hne (by rw [he', hg])
    exact ⟨g, hg, hlt, by simpa [Shape.setOwner, hgf] using ho⟩
  · intro g o hg ho
    by_cases hgf : g = f
    · subst hgf
      simp only [Shape.setOwner, Function.update_self, Option.some.injEq] at ho
      exact ⟨p, v, ho.symm, hmiss.live, hmiss.inRange, Or.inr (by simp [Win.opens])⟩
    · simp only [Shape.setOwner, Function.update_of_ne hgf] at ho
      obtain ⟨q, w, rfl, hl, hn, he⟩ := h.backward g o hg ho
      refine ⟨q, w, rfl, hl, hn, ?_⟩
      rcases he with he | hop
      · exact Or.inl (hkeep q w g hl hn hgf he)
      · have hq : q ≠ p := by
          rintro rfl
          exact hopen w g hop
        exact Or.inr (by simpa [hq] using hop)
  · exact hnone p v hmiss.live hmiss.inRange hmiss.invalid
  · simp [Shape.setOwner]
  · intro q hq
    have hgf : ∀ g, (win q).frame = some g → g ≠ f := fun g hg heq => hother q hq (heq ▸ hg)
    refine (h.ok q).mono rfl ?_ ?_ ?_ ?_ ?_
    · exact fun w _ hm => ⟨hm.live, hm.inRange, hnone q w hm.live hm.inRange hm.invalid⟩
    · exact fun g hg hp => (hpin g (hgf g hg)).trans hp
    · exact fun w g hg ho => by simpa [Shape.setOwner, hgf g hg] using ho
    · exact fun w g hg hp =>
        ⟨hp.live, hp.inRange, hkeep q w g hp.live hp.inRange (hgf g hg) hp.entry⟩
    · intro g q' w' hg hv
      rcases hv with hp | ⟨hl, hlt, ho⟩
      · exact Or.inl ⟨hp.live, hp.inRange, hkeep _ _ g hp.live hp.inRange (hgf g hg) hp.entry⟩
      · exact Or.inr ⟨hl, hlt, by simpa [Shape.setOwner, hgf g hg] using ho⟩
  · intro q g hq hg
    simp only [Win.frame, Option.some.injEq] at hg
    exact hg ▸ hother q hq
  · intro q hq
    have hne : q ≠ p := by
      rintro rfl
      have : s.live q = false := hq
      simp [hmiss.live] at this
    simpa [hne] using h.dead q hq

/-- A thread that has filled its frame makes the page valid and lets the frame go. -/
theorem fill (h : Exclusive s win) (pinned : Nat → Bool) {p v f : Nat}
    (hw : win p = .filling v f ∨ win p = .loading v f)
    (hpin : ∀ g, g ≠ f → pinned g = s.pinned g) :
    Exclusive { s.setEntry p v (some (f : Int)) with pinned := pinned }
      (Function.update win p .idle) := by
  have hmine : Missing s p v ∧ f < s.numPhysPages ∧ s.owner f = some (some p, v) := by
    have hok := h.ok p
    rcases hw with hw | hw <;> rw [hw] at hok
    · exact hok
    · exact ⟨hok.1, hok.2.1, hok.2.2.1⟩
  obtain ⟨hmiss, hf, howner⟩ := hmine
  have hframe : (win p).frame = some f := by rcases hw with hw | hw <;> rw [hw] <;> rfl
  have hother : ∀ q, q ≠ p → (win q).frame ≠ some f := fun q hq hf =>
    hq (h.apart q p f hf hframe)
  -- no entry but the new one changes, and it is missing before
  have hent : ∀ q w, ¬ (q = p ∧ w = v) → (s.setEntry p v (some (f : Int))).entry q w =
      s.entry q w := by
    intro q w hne
    simp only [Shape.setEntry, if_neg hne]
  have hval : ∀ q w e, s.entry q w = some e → (s.setEntry p v (some (f : Int))).entry q w =
      some e := by
    intro q w e he
    rw [hent q w, he]
    rintro ⟨rfl, rfl⟩
    simp [hmiss.invalid] at he
  have hinv : ∀ q w, q ≠ p → s.entry q w = none →
      (s.setEntry p v (some (f : Int))).entry q w = none := by
    intro q w hq he
    rw [hent q w fun heq => hq heq.1, he]
  refine ⟨?_, ?_, ok_update trivial ?_, h.apart_update (by simp [Win.frame]), h.fresh, ?_,
    h.running⟩
  · intro q w e hl hn he
    by_cases heq : q = p ∧ w = v
    · obtain ⟨rfl, rfl⟩ := heq
      simp only [Shape.setEntry, and_self, if_true, Option.some.injEq] at he
      exact ⟨f, he.symm, hf, howner⟩
    · exact h.forward q w e hl hn ((hent q w heq).symm.trans he)
  · intro g o hg ho
    obtain ⟨q, w, rfl, hl, hn, he⟩ := h.backward g o hg ho
    refine ⟨q, w, rfl, hl, hn, ?_⟩
    rcases he with he | hop
    · exact Or.inl (hval q w g he)
    · by_cases hq : q = p
      · subst hq
        have : w = v ∧ g = f := by
          rcases hw with hw | hw <;> rw [hw] at hop <;> exact ⟨hop.1.symm, hop.2.symm⟩
        obtain ⟨rfl, rfl⟩ := this
        exact Or.inl (by simp [Shape.setEntry])
      · exact Or.inr (by simpa [hq] using hop)
  · intro q hq
    have hgf : ∀ g, (win q).frame = some g → g ≠ f := fun g hg heq => hother q hq (heq ▸ hg)
    refine (h.ok q).mono rfl ?_ ?_ (fun _ _ _ ho => ho) ?_ ?_
    · exact fun w _ hm => ⟨hm.live, hm.inRange, hinv q w hq hm.invalid⟩
    · exact fun g hg hp => (hpin g (hgf g hg)).trans hp
    · exact fun w g _ hp => ⟨hp.live, hp.inRange, hval q w g hp.entry⟩
    · exact fun g q' w' _ hv =>
        hv.imp_left fun hp => ⟨hp.live, hp.inRange, hval q' w' g hp.entry⟩
  · intro q hq
    have hne : q ≠ p := by
      rintro rfl
      have : s.live q = false := hq
      simp [hmiss.live] at this
    simpa [hne] using h.dead q hq

/-- The entries of a process that exits are not looked at any more; a page of it that is
    being saved keeps its frame out of use. -/
theorem kill (h : Exclusive s win) {p : Nat} (hl : s.live p = true) (hw : win p = .idle) :
    Exclusive (s.kill p) win := by
  have hlive : ∀ q, (s.kill p).live q = true → q ≠ p ∧ s.live q = true := by
    intro q hq
    simp only [Shape.kill, Function.update_apply] at hq
    split at hq
    · simp at hq
    · exact ⟨‹_›, hq⟩
  have halive : ∀ q, q ≠ p → s.live q = true → (s.kill p).live q = true := by
    intro q hq hlq
    simpa [Shape.kill, hq] using hlq
  -- a frame that a page of another process names is not given up
  have hown : ∀ q w (f : Nat), q ≠ p → s.owner f = some (some q, w) →
      (s.kill p).owner f = some (some q, w) := by
    intro q w f hq ho
    simp only [Shape.kill]
    rw [if_neg, ho]
    rintro ⟨v, hn, hv⟩
    obtain ⟨e, he, hef⟩ := Option.map_eq_some_iff.mp hv
    obtain ⟨g, hg, -, hog⟩ := h.forward p v e hl hn he
    have : g = f := by omega
    rw [this, ho] at hog
    simp only [Option.some.injEq, Prod.mk.injEq] at hog
    exact hq hog.1
  refine ⟨?_, ?_, ?_, h.apart, ?_, ?_, fun q hq => by simp [Shape.kill] at hq⟩
  · intro q w e hlq hn he
    obtain ⟨hq, hlq⟩ := hlive q hlq
    obtain ⟨f, hf, hlt, ho⟩ := h.forward q w e hlq hn he
    exact ⟨f, hf, hlt, hown q w f hq ho⟩
  · intro f o hf ho
    simp only [Shape.kill] at ho
    split at ho
    · simp at ho
    rename_i hfree
    obtain ⟨q, w, rfl, hlq, hn, he⟩ := h.backward f o hf ho
    have hq : q ≠ p := by
      rintro rfl
      rcases he with he | hop
      · exact hfree ⟨w, hn, by simp [he]⟩
      · simp [hw, Win.opens] at hop
    exact ⟨q, w, rfl, halive q hq hlq, hn, he⟩
  · intro q
    by_cases hidle : win q = .idle
    · rw [hidle]
      trivial
    have hq : q ≠ p := by
      rintro rfl
      exact hidle hw
    refine (h.ok q).mono rfl ?_ (fun _ _ hp => hp) (fun w g _ ho => hown q w g hq ho) ?_ ?_
    · exact fun w _ hm => ⟨halive q hq hm.live, hm.inRange, hm.invalid⟩
    · exact fun w g _ hp => ⟨halive q hq hp.live, hp.inRange, hp.entry⟩
    · intro g q' w' _ hv
      by_cases hq' : q' = p
      · -- the process of the page that is being saved exits
        subst hq'
        have hp : Present s q' w' g := hv.resolve_right fun hd => by simp [hl] at hd
        refine Or.inr ⟨by simp [Shape.kill], ?_, ?_⟩
        · by_contra hge
          simp [h.fresh q' (Nat.le_of_not_lt hge)] at hl
        · simp only [Shape.kill]
          rw [if_pos ⟨w', hp.inRange, by simp [hp.entry]⟩]
      · rcases hv with hp | ⟨hl', hlt, ho⟩
        · exact Or.inl ⟨halive q' hq' hp.live, hp.inRange, hp.entry⟩
        · refine Or.inr ⟨by simpa [Shape.kill, hq'] using hl', hlt, ?_⟩
          simp only [Shape.kill]
          split
          · rfl
          · exact ho
  · intro q hq
    simp only [Shape.kill, Function.update_apply]
    split
    · rfl
    · exact h.fresh q hq
  · intro q hq
    by_cases hqp : q = p
    · exact hqp ▸ hw
    · exact h.dead q (by simpa [Shape.kill, hqp] using hq)

/-- A new process has no page in memory and its thread holds nothing. -/
theorem spawn (h : Exclusive s win) (numPages : Nat) : Exclusive (s.spawn numPages) win := by
  have hnew := h.fresh s.numProcesses (Nat.le_refl _)
  -- a live process is not the new one, so every page present before is present still
  have hne : ∀ {q}, s.live q = true → q ≠ s.numProcesses := by
    rintro q hl rfl
    simp [hnew] at hl
  have hpres : ∀ {q w f}, Present s q w f → Present (s.spawn numPages) q w f := by
    intro q w f hp
    have hq := hne hp.live
    exact ⟨by simpa [Shape.spawn, hq] using hp.live, by simpa [Shape.spawn, hq] using hp.inRange,
      by simpa [Shape.spawn, hq] using hp.entry⟩
  refine ⟨?_, ?_, ?_, h.apart, ?_, ?_, ?_⟩
  · intro q w e hl hn he
    by_cases hq : q = s.numProcesses
    · subst hq
      simp [Shape.spawn] at he
    · simp only [Shape.spawn, Function.update_of_ne hq] at hl hn he
      exact h.forward q w e hl hn he
  · intro f o hf ho
    obtain ⟨q, w, rfl, hl, hn, he⟩ := h.backward f o hf ho
    have hq := hne hl
    refine ⟨q, w, rfl, by simpa [Shape.spawn, hq] using hl, by simpa [Shape.spawn, hq] using hn, ?_⟩
    simpa [Shape.spawn, hq] using he
  · intro q
    refine (h.ok q).mono rfl ?_ (fun _ _ hp => hp) (fun _ _ _ ho => ho) (fun _ _ _ hp => hpres hp) ?_
    · intro v _ hm
      have hq := hne hm.live
      exact ⟨by simpa [Shape.spawn, hq] using hm.live, by simpa [Shape.spawn, hq] using hm.inRange,
        by simpa [Shape.spawn, hq] using hm.invalid⟩
    · intro g q' w' _ hv
      rcases hv with hp | ⟨hl, hlt, ho⟩
      · exact Or.inl (hpres hp)
      · have hq' : q' ≠ s.numProcesses := Nat.ne_of_lt hlt
        exact Or.inr ⟨by simpa [Shape.spawn, hq'] using hl, Nat.lt_succ_of_lt hlt, ho⟩
  · intro q hq
    have hne' : q ≠ s.numProcesses := by simp only [Shape.spawn] at hq; omega
    simp only [Shape.spawn, Function.update_of_ne hne'] at hq ⊢
    exact h.fresh q (by omega)
  · intro q hq
    by_cases hqn : q = s.numProcesses
    · subst hqn
      simp [Shape.spawn] at hq
    · exact h.dead q (by simpa [Shape.spawn, hqn] using hq)
  · intro q hq
    have hl := h.running q hq
    simpa [Shape.spawn, hne hl] using hl

/-- The processor is given to a live process, or to none. -/
theorem switch (h : Exclusive s win) {next : Option Nat}
    (hnext : ∀ p, next = some p → s.live p = true) : Exclusive { s with current := next } win where
  forward := h.forward
  backward := h.backward
  ok p := (h.ok p).mono rfl (fun _ _ hm => ⟨hm.live, hm.inRange, hm.invalid⟩) (fun _ _ hp => hp)
    (fun _ _ _ ho => ho) (fun _ _ _ hp => ⟨hp.live, hp.inRange, hp.entry⟩)
    fun _ _ _ _ hv => hv.imp_left fun hp => ⟨hp.live, hp.inRange, hp.entry⟩
  apart := h.apart
  fresh := h.fresh
  dead := h.dead
  running := hnext

end Exclusive

end Nachos
