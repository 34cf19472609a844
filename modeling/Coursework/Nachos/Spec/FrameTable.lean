import Coursework.Nachos.Spec.PagingView

/-!
# The inverted page table and the page tables agree

`WF` is what the paging code keeps true of the tables, at every point of a fault: a
valid page table entry names a frame that names it back, and a frame names a page that
names it back, except for the one frame that is changing hands. It also bounds what the
TLB can hold, so that no array of the kernel is indexed outside its bounds.
-/

namespace Nachos

/-- The frame that is between two pages in this phase. -/
def Phase.opens : Phase → Nat → Prop
  | .vacant f, g => f = g
  | .filling f _ _ _, g => f = g
  | _, _ => False

/-- What is known of the page or the frame a phase is about. -/
def Phase.Ok (m : View) : Phase → Prop
  | .quiet => True
  | .saving q w f _ _ => m.live q = true ∧ w < m.numPages q ∧ (m.entry q w).valid = true ∧
      (m.entry q w).dirty = true ∧ (m.entry q w).ppn = f
  | .vacant f => f < m.numPhysPages ∧ ∀ p v, m.live p = true → v < m.numPages p →
      (m.entry p v).valid = true → (m.entry p v).ppn ≠ f
  | .filling f p v _ => f < m.numPhysPages ∧ m.frame f = some (some p, v) ∧
      m.live p = true ∧ v < m.numPages p ∧ (m.entry p v).valid = false
  | .dying p => m.live p = false

/-- The tables are well formed, in a given phase of a fault. -/
structure WF (ph : Phase) (m : View) : Prop where
  pos : 0 < m.numPhysPages
  index : ∀ p v, m.live p = true → (m.entry p v).vpn = v
  forward : ∀ p v, m.live p = true → v < m.numPages p → (m.entry p v).valid = true →
    ∃ f : Nat, (m.entry p v).ppn = f ∧ f < m.numPhysPages ∧ m.frame f = some (some p, v)
  backward : ∀ f o, f < m.numPhysPages → m.frame f = some o → ¬ ph.opens f →
    ∃ p v, o = (some p, v) ∧ m.live p = true ∧ v < m.numPages p ∧
      (m.entry p v).valid = true ∧ (m.entry p v).ppn = f
  phase : ph.Ok m
  tlb : ∀ i, (m.tlb i).valid = true → i < tlbSize ∧ ∃ p f : Nat, m.current = some p ∧
    (m.tlb i).vpn < m.numPages p ∧ (m.tlb i).ppn = f ∧ f < m.numPhysPages
  coff : ∀ p v, m.live p = true → v < m.numCoffPages p → ∃ s,
    (m.coffMap p v).coffSection = some s ∧ 0 ≤ (m.coffMap p v).sectionPage ∧
      (m.coffMap p v).sectionPage < s.numPages
  current : ∀ p, m.current = some p → m.live p = true ∨ ph = .dying p
  fresh : ∀ p, m.numProcesses ≤ p → m.live p = false

namespace WF

variable {ph : Phase} {m : View}

/-- Two valid entries of live processes name different frames. -/
theorem entry_inj (hwf : WF ph m) {p v p' v' : Nat} (hl : m.live p = true) (hn : v < m.numPages p)
    (hv : (m.entry p v).valid = true) (hl' : m.live p' = true) (hn' : v' < m.numPages p')
    (hv' : (m.entry p' v').valid = true) (h : (m.entry p v).ppn = (m.entry p' v').ppn) :
    p = p' ∧ v = v' := by
  obtain ⟨f, hf, -, ho⟩ := hwf.forward p v hl hn hv
  obtain ⟨f', hf', -, ho'⟩ := hwf.forward p' v' hl' hn' hv'
  have : f = f' := by omega
  subst this
  rw [ho] at ho'
  simpa using ho'

/-- Entries keep their own page number. -/
theorem index_setEntry (hwf : WF ph m) {p v : Nat} {e : TranslationEntry}
    (he : m.live p = true → e.vpn = v) (p' v' : Nat) (hl : m.live p' = true) :
    ((m.setEntry p v e).entry p' v').vpn = v' := by
  simp only [View.setEntry]
  split
  · rename_i h
    rw [he (h.1 ▸ hl), h.2]
  · exact hwf.index p' v' hl

/-- An event does not touch the tables. -/
theorem emit (hwf : WF ph m) (e : Event) : WF ph (m.emit e) :=
  ⟨hwf.pos, hwf.index, hwf.forward, hwf.backward, by cases ph <;> exact hwf.phase, hwf.tlb,
    hwf.coff, hwf.current, hwf.fresh⟩

/-- Setting the dirty bit of an entry. -/
theorem setDirty (hwf : WF ph m) (p v : Nat) :
    WF ph (m.setEntry p v { m.entry p v with dirty := true }) := by
  -- the entry keeps its valid bit and its frame
  have hentry : ∀ p' v', ((m.setEntry p v { m.entry p v with dirty := true }).entry p' v').valid =
      (m.entry p' v').valid ∧ ((m.setEntry p v { m.entry p v with dirty := true }).entry p' v').ppn =
      (m.entry p' v').ppn := by
    intro p' v'
    simp only [View.setEntry]
    split
    · rename_i h; rw [h.1, h.2]; exact ⟨rfl, rfl⟩
    · exact ⟨rfl, rfl⟩
  refine ⟨hwf.pos, ?_, ?_, ?_, ?_, hwf.tlb, hwf.coff, hwf.current, hwf.fresh⟩
  · exact hwf.index_setEntry (hwf.index p v)
  · intro p' v' hl hn hv
    rw [(hentry p' v').1] at hv
    rw [(hentry p' v').2]
    exact hwf.forward p' v' hl hn hv
  · intro f o hf ho hop
    obtain ⟨p', v', rfl, hl, hn, hv, hp⟩ := hwf.backward f o hf ho hop
    exact ⟨p', v', rfl, hl, hn, (hentry p' v').1.trans hv, (hentry p' v').2.trans hp⟩
  · have hph := hwf.phase
    cases ph with
    | quiet => trivial
    | saving q w f spn written =>
      obtain ⟨hl, hn, hv, hd, hp⟩ := hph
      refine ⟨hl, hn, (hentry q w).1.trans hv, ?_, (hentry q w).2.trans hp⟩
      simp only [View.setEntry]
      split
      · rfl
      · exact hd
    | vacant f =>
      refine ⟨hph.1, fun p' v' hl hn hv => ?_⟩
      rw [(hentry p' v').1] at hv
      rw [(hentry p' v').2]
      exact hph.2 p' v' hl hn hv
    | filling f p' v' onSwap =>
      exact ⟨hph.1, hph.2.1, hph.2.2.1, hph.2.2.2.1, (hentry p' v').1.trans hph.2.2.2.2⟩
    | dying p' => exact hph

/-- Overwriting a TLB entry, with one that stays within the bounds if it is valid. -/
theorem setTlb (hwf : WF ph m) {i : Nat} {e : TranslationEntry}
    (he : e.valid = true → i < tlbSize ∧ ∃ p f : Nat, m.current = some p ∧
      e.vpn < m.numPages p ∧ e.ppn = f ∧ f < m.numPhysPages) : WF ph (m.setTlb i e) := by
  refine ⟨hwf.pos, hwf.index, hwf.forward, hwf.backward, by cases ph <;> exact hwf.phase, ?_,
    hwf.coff, hwf.current, hwf.fresh⟩
  intro j hj
  simp only [View.setTlb, Function.update_apply] at hj ⊢
  split at hj
  · rename_i h
    subst h
    simpa using he hj
  · rename_i h
    simpa [h] using hwf.tlb j hj

/-- Writing to memory or to the swap file, and changing the set of free slots. -/
theorem setData (hwf : WF ph m) (memory : Nat → UInt8) (swapFile : HostFile) (numSwapPages : Nat)
    (freeSwap : List Nat) :
    WF ph { m with memory := memory, swapFile := swapFile, numSwapPages := numSwapPages,
                   freeSwap := freeSwap } :=
  ⟨hwf.pos, hwf.index, hwf.forward, hwf.backward, by cases ph <;> exact hwf.phase, hwf.tlb,
    hwf.coff, hwf.current, hwf.fresh⟩

/-- A page loses its frame: the frame is vacant. -/
theorem drop (hwf : WF ph m) (hph : ∀ g, ¬ ph.opens g) (hdy : ∀ p, ph ≠ .dying p) {q w f : Nat}
    {e : TranslationEntry} (hl : m.live q = true) (hn : w < m.numPages q)
    (hv : (m.entry q w).valid = true) (hp : (m.entry q w).ppn = f) (he : e.valid = false)
    (hi : e.vpn = (m.entry q w).vpn) : WF (.vacant f) (m.setEntry q w e) := by
  have hold : ∀ p v, ((m.setEntry q w e).entry p v).valid = true →
      ¬ (p = q ∧ v = w) ∧ (m.setEntry q w e).entry p v = m.entry p v := by
    intro p v h
    simp only [View.setEntry] at h ⊢
    split at h
    · simp [he] at h
    · rename_i hne; exact ⟨hne, by rw [if_neg hne]⟩
  refine ⟨hwf.pos, ?_, ?_, ?_, ⟨?_, ?_⟩, hwf.tlb, hwf.coff, ?_, hwf.fresh⟩
  · exact hwf.index_setEntry fun hl => hi.trans (hwf.index q w hl)
  · intro p v hlp hnp hvp
    have heq := (hold p v hvp).2
    rw [heq] at hvp ⊢
    exact hwf.forward p v hlp hnp hvp
  · intro g o hg ho hop
    obtain ⟨p, v, rfl, hlp, hnp, hvp, hpp⟩ := hwf.backward g o hg ho (hph g)
    -- the entry that was dropped named `f`, and `g` is another frame
    have hne : ¬ (p = q ∧ v = w) := by
      rintro ⟨rfl, rfl⟩
      exact hop (by simp only [Phase.opens]; omega)
    refine ⟨p, v, rfl, hlp, hnp, ?_⟩
    simp only [View.setEntry, if_neg hne]
    exact ⟨hvp, hpp⟩
  · obtain ⟨g, hg, hlt, -⟩ := hwf.forward q w hl hn hv
    have : f = g := by omega
    exact this ▸ hlt
  · intro p v hlp hnp hvp hpp
    obtain ⟨hne, heq⟩ := hold p v hvp
    rw [heq] at hvp hpp
    exact hne (hwf.entry_inj hlp hnp hvp hl hn hv (hpp.trans hp.symm))
  · intro p hcur
    rcases hwf.current p hcur with h | h
    · exact Or.inl h
    · exact absurd h (hdy p)

/-- A frame that no entry names is assigned to a page. -/
theorem claim (hwf : WF ph m) {f p v : Nat} (onSwap : Bool) (hf : f < m.numPhysPages)
    (hph : ∀ g, ph.opens g → f = g) (hdy : ∀ p, ph ≠ .dying p)
    (hnone : ∀ p v, m.live p = true → v < m.numPages p → (m.entry p v).valid = true →
      (m.entry p v).ppn ≠ f)
    (hl : m.live p = true) (hn : v < m.numPages p) (hv : (m.entry p v).valid = false) :
    WF (.filling f p v onSwap) (m.setOwner f (some (some p, v))) := by
  refine ⟨hwf.pos, hwf.index, ?_, ?_, ⟨hf, by simp [View.setOwner], hl, hn, hv⟩, hwf.tlb,
    hwf.coff, ?_, hwf.fresh⟩
  · intro p' v' hl' hn' hv'
    obtain ⟨g, hg, hlt, ho⟩ := hwf.forward p' v' hl' hn' hv'
    have hne : g ≠ f := by
      rintro rfl
      exact hnone p' v' hl' hn' hv' hg
    exact ⟨g, hg, hlt, by simpa [View.setOwner, Function.update_apply, hne] using ho⟩
  · intro g o hg ho hop
    have hne : g ≠ f := fun h => hop h.symm
    simp only [View.setOwner, Function.update_apply, if_neg hne] at ho
    exact hwf.backward g o hg ho fun h => hne (hph g h).symm
  · intro p' hcur
    rcases hwf.current p' hcur with h | h
    · exact Or.inl h
    · exact absurd h (hdy p')

/-- The page the frame was assigned to becomes valid. -/
theorem fill {f p v : Nat} {onSwap : Bool} (hwf : WF (.filling f p v onSwap) m)
    {e : TranslationEntry} (he : e.valid = true) (hp : e.ppn = f)
    (hi : e.vpn = (m.entry p v).vpn) : WF .quiet (m.setEntry p v e) := by
  obtain ⟨hf, hown, hl, hn, hv⟩ := hwf.phase
  refine ⟨hwf.pos, ?_, ?_, ?_, trivial, hwf.tlb, hwf.coff, ?_, hwf.fresh⟩
  · exact hwf.index_setEntry fun hl => hi.trans (hwf.index p v hl)
  · intro p' v' hl' hn' hv'
    by_cases h : p' = p ∧ v' = v
    · obtain ⟨rfl, rfl⟩ := h
      exact ⟨f, by simpa [View.setEntry] using hp, hf, hown⟩
    · simp only [View.setEntry, if_neg h] at hv' ⊢
      exact hwf.forward p' v' hl' hn' hv'
  · intro g o hg ho _
    by_cases hgf : g = f
    · subst hgf
      rw [show (m.setEntry p v e).frame g = m.frame g from rfl, hown] at ho
      simp only [Option.some.injEq] at ho
      exact ⟨p, v, ho.symm, hl, hn, by simp [View.setEntry, he], by simp [View.setEntry, hp]⟩
    · obtain ⟨p', v', rfl, hl', hn', hv', hp'⟩ :=
        hwf.backward g o hg ho fun h => hgf h.symm
      have hne : ¬ (p' = p ∧ v' = v) := by
        rintro ⟨rfl, rfl⟩
        simp [hv] at hv'
      refine ⟨p', v', rfl, hl', hn', ?_⟩
      simp only [View.setEntry, if_neg hne]
      exact ⟨hv', hp'⟩
  · intro p' hcur
    rcases hwf.current p' hcur with h | h
    · exact Or.inl h
    · simp at h

/-- A new process has no valid entry. -/
theorem spawn {child : VMProcess} (hwf : WF .quiet m) (hc : child.Fresh) :
    WF .quiet (m.spawn child) := by
  -- the number of the new process was not live, so nothing of the old state refers to it
  have hnew := hwf.fresh m.numProcesses (Nat.le_refl _)
  refine ⟨hwf.pos, ?_, ?_, ?_, trivial, ?_, ?_, ?_, ?_⟩
  · intro p v hl
    simp only [View.spawn, Function.update_apply] at hl ⊢
    split
    · exact hc.index v
    · rename_i h
      exact hwf.index p v (by simpa [h] using hl)
  · intro p v hl hn hv
    by_cases h : p = m.numProcesses
    · subst h
      simp [View.spawn, hc.invalid] at hv
    · simp only [View.spawn, Function.update_apply, if_neg h] at hl hn hv ⊢
      exact hwf.forward p v hl hn hv
  · intro f o hf ho hop
    obtain ⟨p, v, rfl, hl, hn, hv, hp⟩ := hwf.backward f o hf ho hop
    have h : p ≠ m.numProcesses := by
      rintro rfl
      simp [hnew] at hl
    exact ⟨p, v, rfl, by simpa [View.spawn, Function.update_apply, h] using ⟨hl, hn, hv, hp⟩⟩
  · intro i hi
    obtain ⟨hlt, p, f, hcur, hn, hp, hf⟩ := hwf.tlb i hi
    have h : p ≠ m.numProcesses := by
      rintro rfl
      rcases hwf.current _ hcur with h | h <;> simp [hnew] at h
    refine ⟨hlt, p, f, hcur, ?_, hp, hf⟩
    simpa [View.spawn, Function.update_apply, h] using hn
  · intro p v hl hn
    by_cases h : p = m.numProcesses
    · subst h
      simp only [View.spawn, Function.update_self] at hn ⊢
      exact hc.coff v hn
    · simp only [View.spawn, Function.update_apply, if_neg h] at hl hn ⊢
      exact hwf.coff p v hl hn
  · intro p hcur
    left
    rcases hwf.current p hcur with h | h
    · simp only [View.spawn, Function.update_apply]
      split
      · exact hc.live
      · exact h
    · simp at h
  · intro p hp
    have h : p ≠ m.numProcesses := by simp only [View.spawn] at hp; omega
    simp only [View.spawn, Function.update_apply, if_neg h] at hp ⊢
    exact hwf.fresh p (by omega)

/-- The frames of a process that exits are exactly those its valid entries name. -/
theorem kill {p : Nat} (hwf : WF .quiet m) (hl : m.live p = true) : WF (.dying p) (m.kill p) := by
  refine ⟨hwf.pos, ?_, ?_, ?_, by simp [Phase.Ok, View.kill], hwf.tlb, ?_, ?_, ?_⟩
  · intro p' v' hl'
    simp only [View.kill, Function.update_apply] at hl'
    split at hl'
    · simp at hl'
    · exact hwf.index p' v' hl'
  · intro p' v' hl' hn' hv'
    have hne : p' ≠ p := by
      rintro rfl
      simp [View.kill] at hl'
    simp only [View.kill, Function.update_apply, if_neg hne] at hl' hn' hv'
    obtain ⟨f, hf, hlt, ho⟩ := hwf.forward p' v' hl' hn' hv'
    refine ⟨f, hf, hlt, ?_⟩
    simp only [View.kill]
    rw [if_neg]
    · exact ho
    · rintro ⟨v, hn, hv, hp⟩
      -- a frame given back would have `p` as its owner
      obtain ⟨g, hg, -, ho'⟩ := hwf.forward p v hl hn hv
      have : g = f := by omega
      rw [this, ho] at ho'
      simp only [Option.some.injEq, Prod.mk.injEq] at ho'
      exact hne ho'.1
  · intro f o hf ho _
    simp only [View.kill] at ho
    split at ho
    · simp at ho
    · -- a frame that keeps its owner was not mapped by `p`
      rename_i hfree
      obtain ⟨p', v', rfl, hl', hn', hv', hp'⟩ := hwf.backward f o hf ho (by simp [Phase.opens])
      have hne : p' ≠ p := by
        rintro rfl
        exact hfree ⟨v', hn', hv', by omega⟩
      exact ⟨p', v', rfl, by simp [View.kill, hne, hl'], hn', hv', hp'⟩
  · intro p' v' hl'
    have hne : p' ≠ p := by
      rintro rfl
      simp [View.kill] at hl'
    simp only [View.kill, Function.update_apply, if_neg hne] at hl'
    exact hwf.coff p' v' hl'
  · intro p' hcur
    by_cases h : p' = p
    · exact Or.inr (h ▸ rfl)
    · left
      rcases hwf.current p' hcur with h' | h'
      · simpa [View.kill, Function.update_apply, h] using h'
      · simp at h'
  · intro p' hp'
    simp only [View.kill, Function.update_apply]
    split
    · rfl
    · exact hwf.fresh p' hp'

/-- The running process changes while the TLB is empty. -/
theorem setCurrent (hwf : WF ph m) (hop : ∀ g, ¬ ph.opens g) {next : Option Nat}
    (htlb : ∀ i, (m.tlb i).valid = false) (hlive : ∀ p, next = some p → m.live p = true) :
    WF .quiet { m with current := next } :=
  ⟨hwf.pos, hwf.index, hwf.forward, fun f o hf ho _ => hwf.backward f o hf ho (hop f), trivial,
    fun i hi => by simp [htlb i] at hi, hwf.coff, fun p hp => Or.inl (hlive p hp), hwf.fresh⟩

/-- A valid entry of the running process may go into the TLB. -/
theorem tlb_of_entry (hwf : WF .quiet m) {i p v : Nat} (hcur : m.current = some p)
    (hn : v < m.numPages p) (hv : (m.entry p v).valid = true) (hi : i < tlbSize) :
    i < tlbSize ∧ ∃ p' f : Nat, m.current = some p' ∧ (m.entry p v).vpn < m.numPages p' ∧
      (m.entry p v).ppn = f ∧ f < m.numPhysPages := by
  have hl := (hwf.current p hcur).resolve_right (by simp)
  obtain ⟨f, hp, hf, -⟩ := hwf.forward p v hl hn hv
  exact ⟨hi, p, f, hcur, (hwf.index p v hl).symm ▸ hn, hp, hf⟩

/-- The first half of `addToSwap` starts a save. -/
theorem startSave (hwf : WF .quiet m) {q w f spn : Nat} (hl : m.live q = true)
    (hn : w < m.numPages q) (hv : (m.entry q w).valid = true) (hd : (m.entry q w).dirty = true)
    (hp : (m.entry q w).ppn = f) (written : Bool) : WF (.saving q w f spn written) m :=
  ⟨hwf.pos, hwf.index, hwf.forward,
    fun f o hf ho _ => hwf.backward f o hf ho (by simp [Phase.opens]),
    ⟨hl, hn, hv, hd, hp⟩, hwf.tlb, hwf.coff,
    fun p hcur => Or.inl ((hwf.current p hcur).resolve_right (by simp)), hwf.fresh⟩

/-- A save whose page is on the disk. -/
theorem written {q w f spn : Nat} (hwf : WF (.saving q w f spn false) m) :
    WF (.saving q w f spn true) m :=
  ⟨hwf.pos, hwf.index, hwf.forward,
    fun f o hf ho _ => hwf.backward f o hf ho (by simp [Phase.opens]), hwf.phase, hwf.tlb,
    hwf.coff, fun p hcur => Or.inl ((hwf.current p hcur).resolve_right (by simp)), hwf.fresh⟩

/-- Every change keeps the tables well formed. -/
theorem micro {ph' : Phase} {m' : View} (h : Micro ph m ph' m') (hwf : WF ph m) : WF ph' m' := by
  cases h with
  | note e he => exact hwf.emit e
  | saveClean hv hd => exact hwf.setTlb (by simp)
  | saveDirty before hcur hv hd hb hn => exact ((hwf.emit _).setDirty _ _).setTlb (by simp)
  | newSlot hl hw hv hd hp hfree =>
    -- a new slot and a used one differ only in the data kept about slots
    exact (hwf.startSave hl hw hv hd hp false).setData _ _ _ _
  | reuseSlot hl hw hv hd hp hfree =>
    exact (hwf.startSave hl hw hv hd hp false).setData _ _ _ _
  | writeSlot => exact hwf.written.setData _ _ _ _
  | @dropSaved m q w f spn =>
    obtain ⟨hl, hn, hv, -, hp⟩ := hwf.phase
    exact (hwf.drop (e := { m.entry q w with ppn := spn, valid := false }) (by simp [Phase.opens])
      (by simp) hl hn hv hp rfl rfl).emit _
  | @dropClean m q w f hl hn hv hd hp =>
    exact ((hwf.emit _).drop (e := { m.entry q w with valid := false }) (by simp [Phase.opens])
      (by simp) hl hn hv hp rfl rfl).emit _
  | @claimFree m f p v hf hfree hl hn hv =>
    -- no valid entry refers to a frame without an owner
    refine hwf.claim _ hf (by simp [Phase.opens]) (by simp) ?_ hl hn hv
    intro p' v' hl' hn' hv' hp'
    obtain ⟨g, hg, -, ho⟩ := hwf.forward p' v' hl' hn' hv'
    have : g = f := by omega
    rw [this, hfree] at ho
    simp at ho
  | claimVacant hl hn hv =>
    exact hwf.claim _ hwf.phase.1 (by simp [Phase.opens]) (by simp) hwf.phase.2 hl hn hv
  | @fillSwap m f p v =>
    exact (hwf.fill (e := { m.entry p v with ppn := f, valid := true }) rfl rfl rfl).setData _ _ _ _
  | @fillCoff m f p v s hc hs =>
    exact (hwf.fill (e := { m.entry p v with ppn := f, valid := true }) rfl rfl rfl).setData _ _ _ _
  | @fillZero m f p v memory hc hm =>
    exact ((hwf.emit _).fill (e := { m.entry p v with ppn := f, valid := true })
      rfl rfl rfl).setData _ _ _ _
  | addTlb hcur hn hv hi hold =>
    exact hwf.setTlb fun _ => hwf.tlb_of_entry hcur hn hv hi
  | replaceTlb old hcur hn hv hi hb hold =>
    exact (hwf.emit _).setTlb fun _ => hwf.tlb_of_entry hcur hn hv hi
  | userLoad hcur hv hp hoff => exact hwf.emit _
  | @userStore m i p f off bytes hcur hv hp hoff =>
    -- a store by the user sets the dirty bit of the slot in the buffer, not of the table
    exact ((hwf.emit _).setTlb (e := { m.tlb i with dirty := true }) fun _ =>
      hwf.tlb i hv).setData _ _ _ _
  | touch hl hn hv => exact hwf.setDirty _ _
  | kernelRead hl hn hv hp hoff => exact hwf.emit _
  | kernelWrite hl hn hv hd hp hoff => exact (hwf.emit _).setData _ _ _ _
  | spawn hc => exact hwf.spawn hc
  | kill hl => exact hwf.kill hl
  | leave htlb => exact hwf.setCurrent (by simp [Phase.opens]) htlb (by simp)
  | switchTo htlb hlive => exact hwf.setCurrent (by simp [Phase.opens]) htlb hlive

end WF

end Nachos
