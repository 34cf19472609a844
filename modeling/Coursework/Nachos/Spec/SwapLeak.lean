import Coursework.Nachos.Spec.LiveProcesses
import Coursework.Nachos.Spec.SwapSlots

/-!
# Swap slots are not lost

`addToSwap` takes a slot and `loadFromSwap` gives it back, and `numSwapPages` counts the
slots there are. A slot that is not free is then the slot of a page (`Covered`): nothing
else keeps slots. The page may be one of a process that has exited, since
`unloadSections` gives up the frames of the process only. Its slot is lost.
-/

namespace Nachos

/-- Page `v` of `p` is marked as being on swap; the process may have exited. -/
def Saved (m : View) (p v : Nat) : Prop :=
  v < m.numPages p ∧ (m.entry p v).valid = false ∧ (m.entry p v).dirty = true

/-- An entry of a live process is none of a process that has exited. -/
theorem View.entry_setEntry_of_dead {m : View} {p q w : Nat} {e : TranslationEntry}
    (hq : m.live q = true) (hp : m.live p = false) (v : Nat) :
    (m.setEntry q w e).entry p v = m.entry p v := by
  have hne : p ≠ q := by
    intro heq
    rw [heq, hq] at hp
    cases hp
  simp only [View.setEntry]
  rw [if_neg (fun h => hne h.1)]

/-- A process that has exited stays so, and no page of it goes to swap any more. -/
theorem Micro.saved_of_dead {ph ph' : Phase} {m m' : View} (h : Micro ph m ph' m')
    (hwf : WF ph m) (hev : NoLostMark m'.trace) {p : Nat} (hlt : p < m.numProcesses)
    (hdead : m.live p = false) :
    p < m'.numProcesses ∧ m'.live p = false ∧ ∀ v, Saved m' p v → Saved m p v := by
  -- the changes that set an entry of a live process
  have hother : ∀ {q w : Nat} {e : TranslationEntry}, m.live q = true → ∀ v,
      v < m.numPages p → ((m.setEntry q w e).entry p v).valid = false →
      ((m.setEntry q w e).entry p v).dirty = true → Saved m p v := by
    intro q w e hq v hn hv hd
    rw [View.entry_setEntry_of_dead hq hdead] at hv hd
    exact ⟨hn, hv, hd⟩
  cases h with
  | @saveDirty ph m q i before hcur hv hd hb hn =>
    refine ⟨hlt, hdead, fun v hs => ?_⟩
    obtain ⟨hvn, hinv, hdirty⟩ := hs
    by_cases heq : p = q ∧ v = (m.tlb i).vpn
    · -- the dying process itself: the page was in memory or on swap
      obtain ⟨rfl, rfl⟩ := heq
      simp only [View.setTlb, View.setEntry, View.emit, and_self, if_true] at hinv
      have hmark := Micro.marked hb (hev _ List.mem_cons_self)
      exact ⟨hvn, hinv, hmark.resolve_left (by simp [hinv])⟩
    · simp only [View.setTlb, View.setEntry, View.emit, if_neg heq] at hinv hdirty
      exact ⟨hvn, hinv, hdirty⟩
  | dropSaved =>
    exact ⟨hlt, hdead, fun v hs => hother hwf.phase.1 v hs.1 hs.2.1 hs.2.2⟩
  | dropClean hl hn hv hd hp =>
    exact ⟨hlt, hdead, fun v hs => hother hl v hs.1 hs.2.1 hs.2.2⟩
  | fillSwap =>
    exact ⟨hlt, hdead, fun v hs => hother hwf.phase.2.2.1 v hs.1 hs.2.1 hs.2.2⟩
  | fillCoff hc hs =>
    exact ⟨hlt, hdead, fun v hs => hother hwf.phase.2.2.1 v hs.1 hs.2.1 hs.2.2⟩
  | fillZero hc hm =>
    exact ⟨hlt, hdead, fun v hs => hother hwf.phase.2.2.1 v hs.1 hs.2.1 hs.2.2⟩
  | touch hl hn hv =>
    exact ⟨hlt, hdead, fun v hs => hother hl v hs.1 hs.2.1 hs.2.2⟩
  | spawn hc =>
    have hne : p ≠ m.numProcesses := Nat.ne_of_lt hlt
    refine ⟨Nat.lt_succ_of_lt hlt, ?_, fun v hs => ?_⟩
    · simp only [View.spawn, Function.update_apply, if_neg hne]
      exact hdead
    · obtain ⟨hvn, hinv, hdirty⟩ := hs
      simp only [View.spawn, Function.update_apply, if_neg hne] at hvn hinv hdirty
      exact ⟨hvn, hinv, hdirty⟩
  | kill hl =>
    refine ⟨hlt, ?_, fun v hs => ⟨hs.1, hs.2.1, hs.2.2⟩⟩
    simp only [View.kill, Function.update_apply]
    split
    · rfl
    · exact hdead
  | _ => exact ⟨hlt, hdead, fun v hs => ⟨hs.1, hs.2.1, hs.2.2⟩⟩

/-- Every slot is free, or the slot of a saved page, or is just being written. -/
def Covered (ph : Phase) (m : View) : Prop :=
  ∀ s < m.numSwapPages, s ∈ m.freeSwap ∨
    (∃ p v, p < m.numProcesses ∧ Saved m p v ∧ (m.entry p v).ppn = s) ∨
    ∃ q w f written, ph = .saving q w f s written

namespace Covered

variable {ph : Phase} {m : View}

/-- A change after which the saved pages and the free slots are still there. -/
theorem mono {ph' : Phase} {m' : View} (hc : Covered ph m)
    (hnum : m'.numSwapPages = m.numSwapPages) (hfree : ∀ s ∈ m.freeSwap, s ∈ m'.freeSwap)
    (hsaved : ∀ p v, p < m.numProcesses → Saved m p v → p < m'.numProcesses ∧ Saved m' p v ∧
      (m'.entry p v).ppn = (m.entry p v).ppn)
    (hph : ∀ q w f s written, ph = .saving q w f s written →
      ∃ written', ph' = .saving q w f s written') : Covered ph' m' := by
  intro s hs
  rw [hnum] at hs
  rcases hc s hs with h | ⟨p, v, hp, h, hs⟩ | ⟨q, w, f, written, h⟩
  · exact Or.inl (hfree s h)
  · obtain ⟨hp', h', heq⟩ := hsaved p v hp h
    exact Or.inr (Or.inl ⟨p, v, hp', h', heq.trans hs⟩)
  · obtain ⟨written', h'⟩ := hph q w f s written h
    exact Or.inr (Or.inr ⟨q, w, f, written', h'⟩)

/-- Setting a dirty bit keeps every saved page. -/
theorem saved_setDirty {p v q w : Nat} (h : Saved m q w) :
    Saved (m.setEntry p v { m.entry p v with dirty := true }) q w ∧
      ((m.setEntry p v { m.entry p v with dirty := true }).entry q w).ppn = (m.entry q w).ppn := by
  obtain ⟨hn, hv, hd⟩ := h
  by_cases heq : q = p ∧ w = v
  · obtain ⟨rfl, rfl⟩ := heq
    exact ⟨⟨hn, by simpa [View.setEntry] using hv, by simp [View.setEntry]⟩, by simp [View.setEntry]⟩
  · exact ⟨⟨hn, by simpa [View.setEntry, heq] using hv, by simpa [View.setEntry, heq] using hd⟩,
      by simp [View.setEntry, heq]⟩

/-- Overwriting the entry of a page that is not on swap keeps every saved page. -/
theorem saved_setEntry {p v q w : Nat} {e : TranslationEntry} (hp : ¬ Saved m p v)
    (h : Saved m q w) : Saved (m.setEntry p v e) q w ∧
      ((m.setEntry p v e).entry q w).ppn = (m.entry q w).ppn := by
  have hne : ¬ (q = p ∧ w = v) := by
    intro heq
    rw [heq.1, heq.2] at h
    exact hp h
  obtain ⟨hn, hv, hd⟩ := h
  simp only [Saved, View.setEntry, if_neg hne]
  exact ⟨⟨hn, hv, hd⟩, trivial⟩

/-- The saved page is on swap in the slot that was written. -/
theorem dropSaved {q w f spn : Nat} (hc : Covered (.saving q w f spn true) m)
    (hwf : WF (.saving q w f spn true) m) :
    Covered (.vacant f) (m.setEntry q w { m.entry q w with ppn := spn, valid := false }) := by
  obtain ⟨hl, hn, hv, hd, -⟩ := hwf.phase
  have hlt : q < m.numProcesses := by
    by_contra hge
    rw [hwf.fresh q (Nat.le_of_not_lt hge)] at hl
    cases hl
  have hnot : ¬ Saved m q w := fun h => Bool.false_ne_true (h.2.1.symm.trans hv)
  intro s hs
  rcases hc s hs with h | ⟨p, v, hp, h, heq⟩ | ⟨q', w', f', written, h⟩
  · exact Or.inl h
  · obtain ⟨h', hppn⟩ := saved_setEntry (e := { m.entry q w with ppn := spn, valid := false }) hnot h
    exact Or.inr (Or.inl ⟨p, v, hp, h', hppn.trans heq⟩)
  · -- the slot that was being written
    cases h
    exact Or.inr (Or.inl ⟨q, w, hlt,
      ⟨hn, by simp [View.setEntry], by simpa [View.setEntry] using hd⟩,
      by simp [View.setEntry]⟩)

/-- A page is read back, and its slot is free again. -/
theorem fillSwap {f p v : Nat} (hc : Covered (.filling f p v true) m) {e : TranslationEntry}
    (memory : Nat → UInt8) :
    Covered .quiet { m.setEntry p v e with
      memory := memory, freeSwap := (m.entry p v).ppn.toNat :: m.freeSwap } := by
  intro s hs
  rcases hc s hs with h | ⟨q, w, hq, h, heq⟩ | ⟨q, w, f', written, h⟩
  · exact Or.inl (List.mem_cons_of_mem _ h)
  · by_cases hpage : q = p ∧ w = v
    · obtain ⟨rfl, rfl⟩ := hpage
      refine Or.inl (List.mem_cons.mpr (Or.inl ?_))
      omega
    · obtain ⟨hn, hv, hd⟩ := h
      exact Or.inr (Or.inl ⟨q, w, hq, ⟨hn, by simpa [View.setEntry, hpage] using hv,
        by simpa [View.setEntry, hpage] using hd⟩, by simpa [View.setEntry, hpage] using heq⟩)
  · cases h

/-- Every change keeps track of every slot. -/
theorem micro {ph' : Phase} {m' : View} (h : Micro ph m ph' m') (hwf : WF ph m)
    (hs : Slots ph m) (hc : Covered ph m) : Covered ph' m' := by
  -- a page that is filled from elsewhere is not on swap
  have hfill : ∀ {f p v : Nat}, ph = .filling f p v false → ¬ Saved m p v := by
    intro f p v heq hsaved
    have hphase := hs.phase
    rw [heq] at hphase
    have hclean : (m.entry p v).dirty = false := hphase
    rw [hsaved.2.2] at hclean
    cases hclean
  cases h with
  | note e he =>
    exact hc.mono rfl (fun _ h => h) (fun _ _ hp h => ⟨hp, ⟨h.1, h.2.1, h.2.2⟩, rfl⟩)
      fun q w f s written h => ⟨written, h⟩
  | saveClean hv hd =>
    exact hc.mono rfl (fun _ h => h) (fun _ _ hp h => ⟨hp, ⟨h.1, h.2.1, h.2.2⟩, rfl⟩)
      fun q w f s written h => ⟨written, h⟩
  | saveDirty before hcur hv hd hb hn =>
    exact hc.mono rfl (fun _ h => h) (fun _ _ hp h => ⟨hp, saved_setDirty h⟩)
      fun q w f s written h => ⟨written, h⟩
  | @newSlot m q w f hl hn hv hd hp hfree =>
    intro s hlt
    by_cases hlast : s = m.numSwapPages
    · exact Or.inr (Or.inr ⟨q, w, f, false, by rw [hlast]⟩)
    · have hold : s < m.numSwapPages := by
        have : s < m.numSwapPages + 1 := hlt
        omega
      rcases hc s hold with h | h | ⟨q', w', f', written, h⟩
      · exact Or.inl h
      · exact Or.inr (Or.inl h)
      · cases h
  | @reuseSlot m q w f spn hl hn hv hd hp hfree =>
    intro s hlt
    by_cases htaken : s = spn
    · exact Or.inr (Or.inr ⟨q, w, f, false, by rw [htaken]⟩)
    · rcases hc s hlt with h | h | ⟨q', w', f', written, h⟩
      · exact Or.inl ((List.mem_erase_of_ne htaken).mpr h)
      · exact Or.inr (Or.inl h)
      · cases h
  | writeSlot =>
    exact hc.mono rfl (fun _ h => h) (fun _ _ hp h => ⟨hp, ⟨h.1, h.2.1, h.2.2⟩, rfl⟩)
      fun q w f s written h => by cases h; exact ⟨true, rfl⟩
  | dropSaved =>
    exact (hc.dropSaved hwf).mono rfl (fun _ h => h) (fun _ _ hp h => ⟨hp, ⟨h.1, h.2.1, h.2.2⟩, rfl⟩)
      fun q w f s written h => by cases h
  | @dropClean m q w f hl hn hv hd hp =>
    have hnot : ¬ Saved m q w := fun h => Bool.false_ne_true (h.2.1.symm.trans hv)
    exact hc.mono rfl (fun _ h => h) (fun _ _ hp h => ⟨hp, saved_setEntry hnot h⟩)
      fun q w f s written h => by cases h
  | fillSwap => exact hc.fillSwap _
  | fillCoff hcoff hsec =>
    exact hc.mono rfl (fun _ h => h) (fun _ _ hp h => ⟨hp, saved_setEntry (hfill rfl) h⟩)
      fun q w f s written h => by cases h
  | fillZero hcoff hm =>
    exact hc.mono rfl (fun _ h => h) (fun _ _ hp h => ⟨hp, saved_setEntry (hfill rfl) h⟩)
      fun q w f s written h => by cases h
  | touch hl hn hv =>
    exact hc.mono rfl (fun _ h => h) (fun _ _ hp h => ⟨hp, saved_setDirty h⟩)
      fun q w f s written h => by cases h
  | @spawn m child hchild =>
    refine hc.mono rfl (fun _ h => h) ?_ fun q w f s written h => by cases h
    intro p v hp h
    have hne : p ≠ m.numProcesses := Nat.ne_of_lt hp
    obtain ⟨hn, hv, hd⟩ := h
    simp only [Saved, View.spawn, Function.update_apply, if_neg hne]
    exact ⟨Nat.lt_succ_of_lt hp, ⟨hn, hv, hd⟩, trivial⟩
  | _ =>
    exact hc.mono rfl (fun _ h => h) (fun _ _ hp h => ⟨hp, ⟨h.1, h.2.1, h.2.2⟩, rfl⟩)
      fun q w f s written h => by cases h

end Covered

/-- No page of a process that has exited is on swap. -/
def DeadOffSwap (m : View) : Prop :=
  ∀ p v, p < m.numProcesses → m.live p = false → ¬ Saved m p v

/-- Along a chain, a process that has exited gets no page on swap. -/
theorem Chain.saved_of_dead {ph ph' : Phase} {m m' : View} (h : Chain (ph, m) (ph', m'))
    (hwf : WF ph m) (hev : NoLostMark m'.trace) {p : Nat} (hlt : p < m.numProcesses)
    (hdead : m.live p = false) {v : Nat} (hs : Saved m' p v) : Saved m p v := by
  let I : Phase → View → Prop := fun ph₁ m₁ => WF ph₁ m₁ ∧ (NoLostMark m₁.trace →
    p < m₁.numProcesses ∧ m₁.live p = false ∧ ∀ v, Saved m₁ p v → Saved m p v)
  have hI : I ph' m' := by
    refine h.invariant (I := I) ?_ ⟨hwf, fun _ => ⟨hlt, hdead, fun v h => h⟩⟩
    intro ph₁ m₁ ph₂ m₂ hm hinv
    refine ⟨WF.micro hm hinv.1, fun hev₂ => ?_⟩
    obtain ⟨hlt₁, hdead₁, hsaved₁⟩ := hinv.2 (hev₂.suffix hm.trace_suffix)
    obtain ⟨hlt₂, hdead₂, hsaved₂⟩ := hm.saved_of_dead hinv.1 hev₂ hlt₁ hdead₁
    exact ⟨hlt₂, hdead₂, fun v h => hsaved₁ v (hsaved₂ v h)⟩
  exact (hI.2 hev).2.2 v hs

namespace Kernel

/-- No page of process `p` is on swap. -/
def offSwap (k : Kernel) (p : Nat) : Bool :=
  (List.range (k.process p).numPages).all fun v => !k.onSwap p v

theorem onSwap_of_offSwap {k : Kernel} {p : Nat} (h : k.offSwap p = true) (v : Nat) :
    k.onSwap p v = false := by
  by_cases hv : v < (k.process p).numPages
  · have := List.all_eq_true.mp h v (List.mem_range.mpr hv)
    simpa using this
  · simp [onSwap, hv]

/-- No operation of the sequence ends a process that has a page on swap. -/
def exitsOffSwap : Kernel → List Op → Bool
  | _, [] => true
  | k, op :: ops => (k.ending op).all k.offSwap &&
      match k.step op with
      | .ok k' => exitsOffSwap k' ops
      | .error _ => true

/-- Every swap slot is accounted for. -/
structure SlotsAccounted (k : Kernel) : Prop where
  /-- A slot is free, or it is the slot of exactly one page of a live process. -/
  slot : ∀ s < k.numSwapPages,
    (s ∈ k.freeSwap ∧ ∀ p v, k.onSwap p v = true → (k.pte p v).ppn ≠ s) ∨
    (s ∉ k.freeSwap ∧ ∃ p v, k.onSwap p v = true ∧ (k.pte p v).ppn = s ∧
      ∀ q w, k.onSwap q w = true → (k.pte q w).ppn = s → q = p ∧ w = v)
  /-- When one process remains, it has all the slots in use. -/
  last : ∀ p, (∀ q, k.isLive q = true → q = p) → ∀ s < k.numSwapPages, s ∉ k.freeSwap →
    ∃ v, k.onSwap p v = true ∧ (k.pte p v).ppn = s

theorem onSwap_iff {k : Kernel} {p v : Nat} : k.onSwap p v = true ↔ OnSwap k.view p v := by
  simp only [onSwap, OnSwap, view, TranslationEntry.forget_valid, TranslationEntry.forget_dirty,
    Bool.and_eq_true, decide_eq_true_eq, Bool.not_eq_true', and_assoc]

/-- What is known between two operations. -/
structure Accounted (k : Kernel) : Prop where
  wf : WF .quiet k.view
  unpinned : k.Unpinned
  slots : NoLostMark k.trace → Slots .quiet k.view ∧ Covered .quiet k.view
  dead : NoLostMark k.trace → DeadOffSwap k.view

namespace Accounted

variable {k k' : Kernel}

/-- The pages of processes that had exited before the operation are not on swap after it. -/
theorem dead_of_chain (ha : Accounted k) (hc : Chain (.quiet, k.view) (.quiet, k'.view))
    (htrace : NoLostMark k.trace) (hev : NoLostMark k'.trace) {p v : Nat}
    (hlt : p < k.numProcesses) (hdead : k.view.live p = false) : ¬ Saved k'.view p v :=
  fun hs => ha.dead htrace p v hlt hdead (hc.saved_of_dead ha.wf hev hlt hdead hs)

/-- An operation that ends no process with a page on swap keeps account of the slots. -/
theorem step {op : Op} (ha : Accounted k) (h : k.step op = .ok k')
    (hexit : (k.ending op).all k.offSwap = true) : Accounted k' := by
  have hout := step_chain ha.wf ha.unpinned op
  rw [h] at hout
  obtain ⟨hc, hu⟩ := hout
  let I : Phase → View → Prop := fun ph m => WF ph m ∧ k.trace <:+ m.trace ∧
    (NoLostMark m.trace → Slots ph m ∧ Covered ph m)
  have hI : I .quiet k'.view := by
    refine hc.invariant (I := I) ?_ ⟨ha.wf, List.suffix_rfl, ha.slots⟩
    intro ph m ph' m' hm hinv
    obtain ⟨hwf, hsuf, hs⟩ := hinv
    refine ⟨WF.micro hm hwf, hsuf.trans hm.trace_suffix, fun hev => ?_⟩
    obtain ⟨hslots, hcov⟩ := hs (hev.suffix hm.trace_suffix)
    exact ⟨Slots.micro hm hwf hslots hev, Covered.micro hm hwf hslots hcov⟩
  obtain ⟨hwf', hsuf, hslots'⟩ := hI
  refine ⟨hwf', hu, hslots', fun hev p v hlt hdead hsaved => ?_⟩
  have htrace : NoLostMark k.trace := hev.suffix hsuf
  have hlt' : p < k'.census.2 := hlt
  have hdead' : k'.census.1 p = false := hdead
  by_cases hold : p < k.census.2 ∧ k.census.1 p = false
  · exact ha.dead_of_chain hc htrace hev hold.1 hold.2 hsaved
  -- otherwise the operation made or ended `p`
  apply hold
  cases hend : k.ending op with
  | some q =>
    obtain ⟨hcur, hrun⟩ := handleExit_of_ending h hend
    obtain ⟨hl, k₁, h₁, hc₁, -⟩ := handleExit_kill ha.wf ha.unpinned hcur
    obtain rfl : k₁ = k' := Except.ok.inj (h₁.symm.trans hrun)
    rw [census_handleExit hrun] at hlt' hdead'
    by_cases hq : p = q
    · -- its page tables did not change after it gave up its frames
      subst hq
      exfalso
      have hkilled : Saved (k.view.kill p) p v :=
        hc₁.saved_of_dead (WF.micro (Micro.kill hl) ha.wf) hev hlt' (by simp [View.kill]) hsaved
      have hon : k.onSwap p v = true :=
        onSwap_iff.mpr ⟨hl, hkilled.1, hkilled.2.1, hkilled.2.2⟩
      rw [hend] at hexit
      rw [onSwap_of_offSwap hexit v] at hon
      cases hon
    · refine ⟨hlt', ?_⟩
      simpa [Function.update_apply, hq] using hdead'
  | none =>
    by_cases hload : ∃ sections, op = .load sections
    · obtain ⟨sections, rfl⟩ := hload
      obtain rfl : k.load sections = k' := Except.ok.inj h
      rcases census_load k sections with hsame | hnew
      · rw [hsame] at hlt' hdead'
        exact ⟨hlt', hdead'⟩
      · rw [hnew] at hlt' hdead'
        have hne : p ≠ k.census.2 := by
          intro heq
          simp [heq] at hdead'
        have hlt₁ : p < k.census.2 + 1 := hlt'
        refine ⟨by omega, ?_⟩
        simpa [Function.update_apply, hne] using hdead'
    · have hsame := census_step h (fun sections heq => hload ⟨sections, heq⟩) hend
      rw [hsame] at hlt' hdead'
      exact ⟨hlt', hdead'⟩

/-- A run in which no process exits with a page on swap keeps account of the slots. -/
theorem run {ops : List Op} : ∀ {k : Kernel}, Accounted k → k.run ops = .ok k' →
    k.exitsOffSwap ops = true → Accounted k' := by
  induction ops with
  | nil =>
    intro k ha h hexit
    obtain rfl : k = k' := by simpa [Kernel.run, pure, Except.pure] using h
    exact ha
  | cons op ops ih =>
    intro k ha h hexit
    rw [Kernel.run, List.foldlM_cons] at h
    obtain ⟨k₁, h₁, h⟩ := Except.bind_eq_ok.mp h
    simp only [exitsOffSwap, h₁, Bool.and_eq_true] at hexit
    exact ih (ha.step h₁ hexit.1) h hexit.2

/-- The booted kernel has no slot. -/
theorem initKernel {n : Nat} (hn : 0 < n) (ioBlocks : Bool) :
    Accounted (Kernel.initKernel n ioBlocks) := by
  refine ⟨wf_initKernel hn ioBlocks, fun _ => rfl, fun _ => ⟨⟨?_, ?_, ?_, ?_, trivial⟩, ?_⟩, ?_⟩ <;>
    simp [Kernel.initKernel, view, pte, OnSwap, Covered, DeadOffSwap]

/-- The pages on swap are those of live processes, and they have all the slots in use. -/
theorem slotsAccounted (ha : Accounted k) (hev : NoLostMark k.trace) : SlotsAccounted k := by
  obtain ⟨hslots, hcov⟩ := ha.slots hev
  have howner : ∀ s < k.numSwapPages, s ∉ k.freeSwap →
      ∃ p v, k.onSwap p v = true ∧ (k.pte p v).ppn = s := by
    intro s hs hfree
    rcases hcov s hs with h | ⟨p, v, hp, hsaved, hppn⟩ | ⟨q, w, f, written, h⟩
    · exact absurd h hfree
    · have hlive : k.view.live p = true := by
        by_contra hdead
        exact ha.dead hev p v hp (Bool.eq_false_iff.mpr hdead) hsaved
      exact ⟨p, v, onSwap_iff.mpr ⟨hlive, hsaved.1, hsaved.2.1, hsaved.2.2⟩, hppn⟩
    · cases h
  refine ⟨fun s hs => ?_, fun p hone s hs hfree => ?_⟩
  · by_cases hfree : s ∈ k.freeSwap
    · refine Or.inl ⟨hfree, fun p v hon heq => ?_⟩
      obtain ⟨t, ht, -, hnot⟩ := hslots.held p v (onSwap_iff.mp hon)
      have hts : t = s := by
        have : (k.pte p v).ppn = t := ht
        omega
      exact hnot (hts ▸ hfree)
    · obtain ⟨p, v, hon, hppn⟩ := howner s hs hfree
      refine Or.inr ⟨hfree, p, v, hon, hppn, fun q w hon' hppn' => ?_⟩
      exact hslots.distinct q w p v (onSwap_iff.mp hon') (onSwap_iff.mp hon) (hppn'.trans hppn.symm)
  · obtain ⟨q, v, hon, hppn⟩ := howner s hs hfree
    obtain rfl := hone q (onSwap_iff.mp hon).1
    exact ⟨v, hon, hppn⟩

end Accounted

/-- In a run in which no lost page is marked and no process exits while a page of it is on
    swap, every slot is free or is the slot of exactly one page of a live process. -/
theorem run_slotsAccounted {n : Nat} (hn : 0 < n) {ioBlocks : Bool} {ops : List Op} {k : Kernel}
    (h : (initKernel n ioBlocks).run ops = .ok k) (hev : NoLostMark k.trace)
    (hexit : (initKernel n ioBlocks).exitsOffSwap ops = true) : SlotsAccounted k :=
  (Accounted.run (Accounted.initKernel hn ioBlocks) h hexit).slotsAccounted hev

/-- One frame: page 0 of process 0 goes to swap for process 1, which exits. -/
theorem run_slotsAccounted_two_processes :
    ∃ k, (initKernel 1 true).run [.load emptySections, .load emptySections, .contextSwitch (some 0),
      .kernelWrite 0 0 [7] 0 1, .contextSwitch (some 1), .kernelRead 1 0 [0] 0 1, .exit] = .ok k ∧
      k.numSwapPages = 1 ∧ k.onSwap 0 0 = true ∧ SlotsAccounted k := by
  obtain ⟨k, hk, htest⟩ := Except.exists_of_map_eq_ok
    (r := (initKernel 1 true).run [.load emptySections, .load emptySections,
      .contextSwitch (some 0), .kernelWrite 0 0 [7] 0 1, .contextSwitch (some 1),
      .kernelRead 1 0 [0] 0 1, .exit])
    (fun k => decide (k.numSwapPages = 1) && k.onSwap 0 0 && k.trace.all fun e => !e.marksLost)
    (by decide +kernel)
  simp only [Bool.and_eq_true, decide_eq_true_eq] at htest
  refine ⟨k, hk, htest.1.1, htest.1.2, run_slotsAccounted (by decide) hk ?_ (by decide +kernel)⟩
  simpa [NoLostMark] using htest.2

/-- One frame: page 0 of process 0 goes to swap for process 1, and process 0 exits. The one
    slot is not free, and process 1, the only one that is left, has no page on swap. -/
theorem not_slotsAccounted_two_processes :
    ∃ k, (initKernel 1 true).run [.load emptySections, .load emptySections, .contextSwitch (some 0),
      .kernelWrite 0 0 [7] 0 1, .contextSwitch (some 1), .kernelRead 1 0 [0] 0 1,
      .contextSwitch (some 0), .exit] = .ok k ∧ NoLostMark k.trace ∧ ¬ SlotsAccounted k := by
  obtain ⟨k, hk, htest⟩ := Except.exists_of_map_eq_ok
    (r := (initKernel 1 true).run [.load emptySections, .load emptySections,
      .contextSwitch (some 0), .kernelWrite 0 0 [7] 0 1, .contextSwitch (some 1),
      .kernelRead 1 0 [0] 0 1, .contextSwitch (some 0), .exit])
    (fun k => decide (k.numSwapPages = 1) && k.freeSwap.isEmpty && decide (k.numProcesses = 2) &&
      !k.isLive 0 && k.offSwap 1 && k.trace.all fun e => !e.marksLost) (by decide +kernel)
  simp only [Bool.and_eq_true, decide_eq_true_eq, List.isEmpty_iff, Bool.not_eq_true'] at htest
  obtain ⟨⟨⟨⟨⟨hnum, hfree⟩, hproc⟩, hzero⟩, hone⟩, hev⟩ := htest
  refine ⟨k, hk, by simpa [NoLostMark] using hev, fun hacc => ?_⟩
  have hwf : WF .quiet k.view :=
    (run_chain (wf_initKernel (by decide) true) (fun _ => rfl) hk).1.invariant WF.micro
      (wf_initKernel (by decide) true)
  have hlast : ∀ q, k.isLive q = true → q = 1 := by
    intro q hq
    have hlt : q < k.numProcesses := by
      by_contra hge
      have hdead : k.isLive q = false := hwf.fresh q (Nat.le_of_not_lt hge)
      simp [hq] at hdead
    have hne : q ≠ 0 := by
      rintro rfl
      simp [hq] at hzero
    omega
  obtain ⟨v, hon, -⟩ := hacc.last 1 hlast 0 (by omega) (by simp [hfree])
  rw [onSwap_of_offSwap hone v] at hon
  cases hon

end Kernel

end Nachos
