import Coursework.Nachos.Spec.RunChain

/-!
# Swap slots

The `ppn` of an entry that is dirty and not valid is a slot of the swap file. Slots are
handed out by `addToSwap` and returned by `loadFromSwap`, and each of them has one owner.
The reading of `ppn` depends on the dirty bit, which `saveState` sets from the TLB: a
page that is neither in memory nor on swap must not be marked.
-/

namespace Nachos

/-- `saveState` marked a page dirty that was neither in memory nor on swap: its `ppn`
    was no slot number and is taken for one from then on. -/
def Event.marksLost : Event → Bool
  | .markDirty _ _ before => !before.valid && !before.dirty
  | _ => false

/-- No lost page was marked dirty. -/
def NoLostMark (trace : List Event) : Prop := ∀ e ∈ trace, e.marksLost = false

theorem NoLostMark.suffix {trace trace' : List Event} (h : NoLostMark trace')
    (hs : trace <:+ trace') : NoLostMark trace := fun e he => h e (hs.mem he)

/-- Page `v` of `p` is on swap. -/
def OnSwap (m : View) (p v : Nat) : Prop :=
  m.live p = true ∧ v < m.numPages p ∧ (m.entry p v).valid = false ∧ (m.entry p v).dirty = true

/-- Setting the dirty bit of a page that is in memory or on swap. -/
theorem OnSwap.of_setDirty {m : View} {p v : Nat}
    (hb : (m.entry p v).valid = true ∨ (m.entry p v).dirty = true) {q w : Nat}
    (h : OnSwap (m.setEntry p v { m.entry p v with dirty := true }) q w) :
    OnSwap m q w ∧ ((m.setEntry p v { m.entry p v with dirty := true }).entry q w).ppn =
      (m.entry q w).ppn := by
  obtain ⟨hl, hn, hv, hd⟩ := h
  simp only [View.setEntry] at hv hd ⊢
  split at hv
  · rename_i heq
    obtain ⟨rfl, rfl⟩ := heq
    have hinv : (m.entry q w).valid = false := hv
    exact ⟨⟨hl, hn, hinv, hb.resolve_left (by simp [hinv])⟩, by simp⟩
  · rename_i hne
    rw [if_neg hne] at hd
    exact ⟨⟨hl, hn, hv, hd⟩, by rw [if_neg hne]⟩

/-- An entry that is valid, or clean, is on no slot. -/
theorem OnSwap.of_setEntry {m : View} {p v : Nat} {e : TranslationEntry}
    (he : e.valid = true ∨ e.dirty = false) {q w : Nat} (h : OnSwap (m.setEntry p v e) q w) :
    ¬ (q = p ∧ w = v) ∧ OnSwap m q w ∧ ((m.setEntry p v e).entry q w).ppn = (m.entry q w).ppn := by
  obtain ⟨hl, hn, hv, hd⟩ := h
  simp only [View.setEntry] at hv hd ⊢
  split at hv
  · rename_i heq
    rw [if_pos heq] at hd
    rcases he with h | h
    · simp [h] at hv
    · simp [h] at hd
  · rename_i hne
    rw [if_neg hne] at hd
    exact ⟨hne, ⟨hl, hn, hv, hd⟩, by rw [if_neg hne]⟩

/-- The page whose dirty bit `saveState` copies is in memory or on swap. -/
theorem Micro.marked {m : View} {p v : Nat} {before : TranslationEntry}
    (hb : before.forget = m.entry p v) (hev : (Event.markDirty p v before).marksLost = false) :
    (m.entry p v).valid = true ∨ (m.entry p v).dirty = true := by
  rw [← hb]
  cases hval : before.valid with
  | true => exact Or.inl hval
  | false => exact Or.inr (by simpa [Event.marksLost, hval] using hev)

/-- A page on swap was on swap before, in the same slot, or has just been saved. -/
theorem Micro.onSwap_cases {ph ph' : Phase} {m m' : View} (h : Micro ph m ph' m')
    (hev : NoLostMark m'.trace) {q w : Nat} (hon : OnSwap m' q w) :
    (OnSwap m q w ∧ (m'.entry q w).ppn = (m.entry q w).ppn) ∨
    ∃ f spn : Nat, ph = .saving q w f spn true ∧ (m'.entry q w).ppn = spn := by
  cases h with
  | @saveDirty ph m p i before hcur hv hd hb hn =>
    exact Or.inl (OnSwap.of_setDirty (Micro.marked hb (hev _ List.mem_cons_self)) hon)
  | @dropSaved m p v f spn =>
    -- the only step by which a page gets onto the swap file, at the slot its phase names
    by_cases heq : q = p ∧ w = v
    · obtain ⟨rfl, rfl⟩ := heq
      exact Or.inr ⟨f, spn, rfl, by simp [View.setEntry, View.emit]⟩
    · obtain ⟨hl, hn, hv, hd⟩ := hon
      simp only [View.setEntry, View.emit, if_neg heq] at hl hn hv hd
      exact Or.inl ⟨⟨hl, hn, hv, hd⟩, by simp [View.setEntry, View.emit, heq]⟩
  | @dropClean m p v f hl hn hv hd hp =>
    exact Or.inl (OnSwap.of_setEntry (m := m) (e := { m.entry p v with valid := false })
      (Or.inr hd) hon).2
  | @fillSwap m f p v =>
    -- the three fills make the entry valid, so the page in question is another one
    exact Or.inl (OnSwap.of_setEntry (m := m) (e := { m.entry p v with ppn := f, valid := true })
      (Or.inl rfl) ⟨hon.1, hon.2.1, hon.2.2.1, hon.2.2.2⟩).2
  | @fillCoff m f p v s hc hs =>
    exact Or.inl (OnSwap.of_setEntry (m := m) (e := { m.entry p v with ppn := f, valid := true })
      (Or.inl rfl) ⟨hon.1, hon.2.1, hon.2.2.1, hon.2.2.2⟩).2
  | @fillZero m f p v memory hc hm =>
    exact Or.inl (OnSwap.of_setEntry (m := m) (e := { m.entry p v with ppn := f, valid := true })
      (Or.inl rfl) ⟨hon.1, hon.2.1, hon.2.2.1, hon.2.2.2⟩).2
  | touch hl hn hv => exact Or.inl (OnSwap.of_setDirty (Or.inl hv) hon)
  | @spawn m child hc =>
    obtain ⟨hl, hn, hv, hd⟩ := hon
    by_cases heq : q = m.numProcesses
    · subst heq
      simp [View.spawn, hc.clean] at hd
    · simp only [View.spawn, Function.update_apply, if_neg heq] at hl hn hv hd
      exact Or.inl ⟨⟨hl, hn, hv, hd⟩, by simp [View.spawn, heq]⟩
  | @kill m p hl =>
    obtain ⟨hl, hn, hv, hd⟩ := hon
    simp only [View.kill, Function.update_apply] at hl
    split at hl
    · simp at hl
    · exact Or.inl ⟨⟨hl, hn, hv, hd⟩, rfl⟩
  | _ => exact Or.inl ⟨⟨hon.1, hon.2.1, hon.2.2.1, hon.2.2.2⟩, rfl⟩

/-- What a phase says about slots: a page being saved has a slot of its own, and a page
    being filled is read from swap exactly if it is on swap. -/
def Phase.SlotOk (m : View) : Phase → Prop
  | .saving _ _ _ spn _ => spn < m.numSwapPages ∧ spn ∉ m.freeSwap ∧
      ∀ p v, OnSwap m p v → (m.entry p v).ppn ≠ spn
  | .filling _ p v onSwap => (m.entry p v).dirty = onSwap
  | _ => True

/-- Every slot in use has one owner, and no slot in use is free. -/
structure Slots (ph : Phase) (m : View) : Prop where
  nodup : m.freeSwap.Nodup
  bound : ∀ s ∈ m.freeSwap, s < m.numSwapPages
  held : ∀ p v, OnSwap m p v → ∃ s : Nat, (m.entry p v).ppn = s ∧ s < m.numSwapPages ∧
    s ∉ m.freeSwap
  distinct : ∀ p v p' v', OnSwap m p v → OnSwap m p' v' →
    (m.entry p v).ppn = (m.entry p' v').ppn → p = p' ∧ v = v'
  phase : ph.SlotOk m

namespace Slots

variable {ph : Phase} {m : View}

/-- A change of the view after which no more pages are on swap, with the same slots. -/
theorem mono {ph' : Phase} {m' : View} (hs : Slots ph m) (hfree : m'.freeSwap = m.freeSwap)
    (hnum : m'.numSwapPages = m.numSwapPages)
    (hsub : ∀ p v, OnSwap m' p v → OnSwap m p v ∧ (m'.entry p v).ppn = (m.entry p v).ppn)
    (hph : ph'.SlotOk m') : Slots ph' m' := by
  refine ⟨hfree ▸ hs.nodup, by rw [hfree, hnum]; exact hs.bound, ?_, ?_, hph⟩
  · intro p v h
    obtain ⟨h, hp⟩ := hsub p v h
    rw [hp, hfree, hnum]
    exact hs.held p v h
  · intro p v p' v' h h' heq
    obtain ⟨h, hp⟩ := hsub p v h
    obtain ⟨h', hp'⟩ := hsub p' v' h'
    rw [hp, hp'] at heq
    exact hs.distinct p v p' v' h h' heq

/-- Setting the dirty bit of a page that is in memory or on swap keeps every slot. -/
theorem setDirty {p v : Nat} (hs : Slots ph m) (hwf : WF ph m)
    (hb : (m.entry p v).valid = true ∨ (m.entry p v).dirty = true) :
    Slots ph (m.setEntry p v { m.entry p v with dirty := true }) := by
  refine hs.mono rfl rfl (fun _ _ h => h.of_setDirty hb) ?_
  have hph := hs.phase
  cases ph with
  | saving q w f spn written =>
    refine ⟨hph.1, hph.2.1, fun p' v' h => ?_⟩
    obtain ⟨h', hp⟩ := h.of_setDirty hb
    rw [hp]
    exact hph.2.2 p' v' h'
  | filling f p' v' onSwap =>
    simp only [Phase.SlotOk, View.setEntry] at hph ⊢
    split
    · rename_i h
      obtain ⟨rfl, rfl⟩ := h
      have hinv := hwf.phase.2.2.2.2
      exact (hb.resolve_left (by simp [hinv])).symm.trans hph
    · exact hph
  | quiet => trivial
  | vacant f => trivial
  | dying p' => trivial

/-- A slot is taken for a page that is still in memory. -/
theorem take {q w f spn : Nat} {written : Bool} (hs : Slots .quiet m)
    {numSwapPages : Nat} {freeSwap : List Nat} (hnd : freeSwap.Nodup)
    (hsub : ∀ s ∈ freeSwap, s ∈ m.freeSwap) (hle : m.numSwapPages ≤ numSwapPages)
    (hlt : spn < numSwapPages) (hnin : spn ∉ freeSwap)
    (hnot : ∀ p v, OnSwap m p v → (m.entry p v).ppn ≠ spn) :
    Slots (.saving q w f spn written)
      { m with numSwapPages := numSwapPages, freeSwap := freeSwap } := by
  refine ⟨hnd, fun s h => Nat.lt_of_lt_of_le (hs.bound s (hsub s h)) hle, ?_, hs.distinct,
    hlt, hnin, hnot⟩
  intro p v h
  obtain ⟨s, hp, hb, hf⟩ := hs.held p v h
  exact ⟨s, hp, Nat.lt_of_lt_of_le hb hle, fun h => hf (hsub s h)⟩

/-- Writing to the swap file moves no slot. -/
theorem written {q w f spn : Nat} (hs : Slots (.saving q w f spn false) m) (swapFile : HostFile) :
    Slots (.saving q w f spn true) { m with swapFile := swapFile } :=
  ⟨hs.nodup, hs.bound, hs.held, hs.distinct, hs.phase⟩

/-- The page that was saved is on swap in its slot. -/
theorem dropSaved {q w f spn : Nat} (hs : Slots (.saving q w f spn true) m)
    (hwf : WF (.saving q w f spn true) m) :
    Slots (.vacant f) (m.setEntry q w { m.entry q w with ppn := spn, valid := false }) := by
  obtain ⟨hlt, hnin, hnot⟩ := hs.phase
  -- every page on swap now is the saved one, or was on swap before
  have hcases : ∀ p v, OnSwap (m.setEntry q w { m.entry q w with ppn := spn, valid := false }) p v →
      (p = q ∧ v = w) ∨ (¬ (p = q ∧ v = w) ∧ OnSwap m p v) := by
    intro p v h
    by_cases heq : p = q ∧ v = w
    · exact Or.inl heq
    · obtain ⟨hl, hn, hv, hd⟩ := h
      simp only [View.setEntry, if_neg heq] at hv hd
      exact Or.inr ⟨heq, hl, hn, hv, hd⟩
  refine ⟨hs.nodup, hs.bound, ?_, ?_, trivial⟩
  · intro p v h
    rcases hcases p v h with ⟨rfl, rfl⟩ | ⟨hne, h'⟩
    · exact ⟨spn, by simp [View.setEntry], hlt, hnin⟩
    · simp only [View.setEntry, if_neg hne]
      exact hs.held p v h'
  · intro p v p' v' h h' heq
    rcases hcases p v h with ⟨rfl, rfl⟩ | ⟨hne, h₁⟩ <;>
      rcases hcases p' v' h' with ⟨rfl, rfl⟩ | ⟨hne', h₁'⟩
    · exact ⟨rfl, rfl⟩
    · simp only [View.setEntry, and_self, if_true, if_neg hne'] at heq
      exact absurd heq.symm (hnot p' v' h₁')
    · simp only [View.setEntry, and_self, if_true, if_neg hne] at heq
      exact absurd heq (hnot p v h₁)
    · simp only [View.setEntry, if_neg hne, if_neg hne'] at heq
      exact hs.distinct p v p' v' h₁ h₁' heq

/-- A page is read back, and its slot is free again. -/
theorem fillSwap {f p v : Nat} (hs : Slots (.filling f p v true) m)
    (hwf : WF (.filling f p v true) m) {e : TranslationEntry} (he : e.valid = true)
    (memory : Nat → UInt8) :
    Slots .quiet { m.setEntry p v e with
      memory := memory, freeSwap := (m.entry p v).ppn.toNat :: m.freeSwap } := by
  obtain ⟨-, -, hl, hn, hv⟩ := hwf.phase
  have hon : OnSwap m p v := ⟨hl, hn, hv, hs.phase⟩
  obtain ⟨s, hp, hlt, hnin⟩ := hs.held p v hon
  have hslot : (m.entry p v).ppn.toNat = s := by omega
  have hsub : ∀ q w, OnSwap (m.setEntry p v e) q w → ¬ (q = p ∧ w = v) ∧ OnSwap m q w ∧
      ((m.setEntry p v e).entry q w).ppn = (m.entry q w).ppn := fun _ _ h => h.of_setEntry (Or.inl he)
  rw [hslot]
  refine ⟨List.nodup_cons.mpr ⟨hnin, hs.nodup⟩, ?_, ?_, ?_, trivial⟩
  · intro t ht
    rcases List.mem_cons.mp ht with rfl | ht
    · exact hlt
    · exact hs.bound t ht
  · intro q w h
    obtain ⟨hne, h', hpp⟩ := hsub q w h
    obtain ⟨t, hpt, htlt, htn⟩ := hs.held q w h'
    refine ⟨t, hpp.trans hpt, htlt, fun ht => ?_⟩
    rcases List.mem_cons.mp ht with rfl | ht
    · exact hne (hs.distinct q w p v h' hon (hpt.trans hp.symm))
    · exact htn ht
  · intro q w q' w' h h' heq
    obtain ⟨-, h, hpp⟩ := hsub q w h
    obtain ⟨-, h', hpp'⟩ := hsub q' w' h'
    exact hs.distinct q w q' w' h h' (hpp.symm.trans (heq.trans hpp'))

/-- A page that was not on swap gets a frame. -/
theorem fill {f p v : Nat} {onSwap : Bool} (hs : Slots (.filling f p v onSwap) m)
    {e : TranslationEntry} (he : e.valid = true) : Slots .quiet (m.setEntry p v e) :=
  hs.mono rfl rfl (fun _ _ h => (h.of_setEntry (Or.inl he)).2) trivial

/-- Every change but the marking of a lost page keeps the slots apart. -/
theorem micro {ph' : Phase} {m' : View} (h : Micro ph m ph' m') (hwf : WF ph m)
    (hs : Slots ph m) (hev : NoLostMark m'.trace) : Slots ph' m' := by
  have hback : (∀ q w f spn, ph ≠ .saving q w f spn true) → ∀ p v, OnSwap m' p v →
      OnSwap m p v ∧ (m'.entry p v).ppn = (m.entry p v).ppn := fun hph p v hon =>
    (h.onSwap_cases hev hon).resolve_right fun ⟨f, spn, heq, _⟩ => hph p v f spn heq
  cases h with
  | note e he =>
    exact hs.mono rfl rfl (fun _ _ h => ⟨h, rfl⟩) (by cases ph <;> exact hs.phase)
  | saveClean hv hd =>
    exact hs.mono rfl rfl (fun _ _ h => ⟨h, rfl⟩) (by cases ph <;> exact hs.phase)
  | saveDirty before hcur hv hd hb hn =>
    have hset := hs.setDirty hwf (Micro.marked hb (hev _ List.mem_cons_self))
    exact hset.mono rfl rfl (fun _ _ h => ⟨h, rfl⟩) (by cases ph <;> exact hset.phase)
  | @newSlot m q w f hl hn hv hd hp hfree =>
    refine hs.take (by simp [hfree]) (fun s h => h) (Nat.le_succ _) (Nat.lt_succ_self _)
      (by simp [hfree]) fun p v h heq => ?_
    obtain ⟨s, hps, hlt, -⟩ := hs.held p v h
    omega
  | @reuseSlot m q w f spn hl hn hv hd hp hfree =>
    refine hs.take (hs.nodup.erase _) (fun s h => List.mem_of_mem_erase h) (Nat.le_refl _)
      (hs.bound _ hfree) (fun h => (hs.nodup.mem_erase_iff.mp h).1 rfl) fun p v h heq => ?_
    obtain ⟨s, hps, -, hnin⟩ := hs.held p v h
    have : s = spn := by omega
    exact hnin (this ▸ hfree)
  | writeSlot => exact hs.written _
  | dropSaved =>
    have := hs.dropSaved hwf
    exact this.mono rfl rfl (fun _ _ h => ⟨h, rfl⟩) trivial
  | claimFree => exact hs.mono rfl rfl (hback (by simp)) rfl
  | claimVacant => exact hs.mono rfl rfl (hback (by simp)) rfl
  | fillSwap => exact hs.fillSwap hwf rfl _
  | touch hl hn hv => exact hs.setDirty hwf (Or.inl hv)
  | _ => exact hs.mono rfl rfl (hback (by simp)) trivial

end Slots

namespace Kernel

/-- Page `v` of the live process `p` is marked as being on swap: its `ppn` is a slot. -/
def onSwap (k : Kernel) (p v : Nat) : Bool :=
  (k.process p).live && decide (v < (k.process p).numPages) && !(k.pte p v).valid &&
    (k.pte p v).dirty

/-- No swap slot is shared. -/
structure SlotsApart (k : Kernel) : Prop where
  /-- The slots of pages on swap exist and are not free. -/
  held : ∀ p v, k.onSwap p v = true → ∃ s : Nat, (k.pte p v).ppn = s ∧ s < k.numSwapPages ∧
    s ∉ k.freeSwap
  /-- The slots of different pages are different. -/
  distinct : ∀ p v p' v', k.onSwap p v = true → k.onSwap p' v' = true →
    (k.pte p v).ppn = (k.pte p' v').ppn → p = p' ∧ v = v'
  /-- The free slots exist, and none is listed twice. -/
  free : k.freeSwap.Nodup ∧ ∀ s ∈ k.freeSwap, s < k.numSwapPages

/-- In a run in which `saveState` never marks a lost page, no swap slot is shared. -/
theorem run_slotsApart {n : Nat} (hn : 0 < n) {ioBlocks : Bool} {ops : List Op} {k : Kernel}
    (h : (initKernel n ioBlocks).run ops = .ok k) (hev : NoLostMark k.trace) : SlotsApart k := by
  have hinv : WF .quiet k.view ∧ (NoLostMark k.view.trace → Slots .quiet k.view) := by
    refine run_invariant (I := fun ph m => WF ph m ∧ (NoLostMark m.trace → Slots ph m)) hn ?_ ?_ h
    · refine ⟨wf_initKernel hn ioBlocks, fun _ => ⟨?_, ?_, ?_, ?_, trivial⟩⟩ <;>
        simp [initKernel, view, pte, OnSwap]
    · rintro ph m ph' m' hm ⟨hwf, hs⟩
      refine ⟨WF.micro hm hwf, fun hev => ?_⟩
      exact Slots.micro hm hwf (hs (hev.suffix hm.trace_suffix)) hev
  have hs := hinv.2 hev
  have hon : ∀ p v, k.onSwap p v = true → OnSwap k.view p v := by
    intro p v h
    simp only [onSwap, Bool.and_eq_true, decide_eq_true_eq, Bool.not_eq_true'] at h
    exact ⟨h.1.1.1, h.1.1.2, h.1.2, h.2⟩
  exact ⟨fun p v h => hs.held p v (hon p v h),
    fun p v p' v' h h' => hs.distinct p v p' v' (hon p v h) (hon p' v' h'),
    hs.nodup, hs.bound⟩

/-- One frame: page 0 goes to swap and comes back, and page 1 goes to swap. -/
theorem run_slotsApart_one_frame :
    ∃ k, (initKernel 1 true).run [.load emptySections, .contextSwitch (some 0),
      .kernelWrite 0 0 [7] 0 1, .kernelWrite 0 1024 [8] 0 1, .kernelRead 0 0 [0] 0 1] = .ok k ∧
      k.onSwap 0 1 = true ∧ SlotsApart k := by
  obtain ⟨k, hk, htest⟩ := Except.exists_of_map_eq_ok
    (r := (initKernel 1 true).run [.load emptySections, .contextSwitch (some 0),
      .kernelWrite 0 0 [7] 0 1, .kernelWrite 0 1024 [8] 0 1, .kernelRead 0 0 [0] 0 1])
    (fun k => k.onSwap 0 1 && k.trace.all fun e => !e.marksLost) (by decide +kernel)
  simp only [Bool.and_eq_true] at htest
  refine ⟨k, hk, htest.1, run_slotsApart (by decide) hk ?_⟩
  simpa [NoLostMark] using htest.2

/-- One frame: page 0 is stored to and evicted as clean, and the context switch marks it
    dirty from the stale TLB entry. No slot exists, and page 0 seems to have one. -/
theorem not_slotsApart_one_frame :
    ∃ k, (initKernel 1 true).run [.load emptySections, .contextSwitch (some 0),
      .userStore 0 [7] ⟨0, by decide⟩, .userStore 0 [7] ⟨0, by decide⟩,
      .userLoad 1024 1 ⟨0, by decide⟩, .contextSwitch none] = .ok k ∧ ¬ SlotsApart k := by
  obtain ⟨k, hk, htest⟩ := Except.exists_of_map_eq_ok
    (r := (initKernel 1 true).run [.load emptySections, .contextSwitch (some 0),
      .userStore 0 [7] ⟨0, by decide⟩, .userStore 0 [7] ⟨0, by decide⟩,
      .userLoad 1024 1 ⟨0, by decide⟩, .contextSwitch none])
    (fun k => k.onSwap 0 0 && decide (k.numSwapPages = 0)) (by decide +kernel)
  refine ⟨k, hk, fun hs => ?_⟩
  simp only [Bool.and_eq_true, decide_eq_true_eq] at htest
  obtain ⟨s, -, hlt, -⟩ := hs.held 0 0 htest.1
  omega

end Kernel

end Nachos
