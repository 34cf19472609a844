import Coursework.Nachos.Spec.FrameTable

/-!
# Operations are chains of changes

Each function of the fault path is shown to return, on well-formed tables, and to
change the view by a chain of `Micro` steps. The tables are well formed in between, so
that no assertion fails, no array is indexed outside its bounds and `evictPage` finds
the process it calls. No frame is pinned between operations, which is why the clock
never goes to sleep and ends within its second sweep.
-/

namespace Nachos

namespace Kernel

/-- The two states differ at most in used bits, pins and the clock hand. -/
structure SameView (k k' : Kernel) : Prop where
  view : k'.view = k.view
  ioBlocks : k'.ioBlocks = k.ioBlocks

/-- No frame is pinned. -/
def Unpinned (k : Kernel) : Prop := ∀ f, (k.invertedPageTable f).pinned = false

/-- The two states have the same pins. -/
def SamePins (k k' : Kernel) : Prop :=
  ∀ f, (k'.invertedPageTable f).pinned = (k.invertedPageTable f).pinned

theorem SamePins.refl {k : Kernel} : SamePins k k := fun _ => rfl

theorem SamePins.trans {k₁ k₂ k₃ : Kernel} (h : SamePins k₁ k₂) (h' : SamePins k₂ k₃) :
    SamePins k₁ k₃ := fun f => (h' f).trans (h f)

theorem SamePins.unpinned {k k' : Kernel} (h : SamePins k k') (hu : k.Unpinned) : k'.Unpinned :=
  fun f => (h f).trans (hu f)

theorem modifyPTE_of_lt {k : Kernel} {p v : Nat} (hn : v < (k.process p).numPages)
    (f : TranslationEntry → TranslationEntry) :
    k.modifyPTE p v f = .ok (k.setPTE p v (f (k.pte p v))) := by
  rw [modifyPTE, if_pos hn]

theorem modifyFrame_of_lt {k : Kernel} {f : Nat} (hf : f < k.numPhysPages)
    (g : InvertedBucket → InvertedBucket) :
    k.modifyFrame f g = .ok (k.setFrame f (g (k.invertedPageTable f))) := by
  rw [modifyFrame, if_pos ⟨by omega, by omega⟩, Int.toNat_natCast]

/-- Assigning to a used bit of a page table entry does not show. -/
theorem modifyPTE_used {k : Kernel} {p v : Nat} (hn : v < (k.process p).numPages) (b : Bool) :
    ∃ k', k.modifyPTE p v (fun e => { e with used := b }) = .ok k' ∧ SameView k k' ∧
      k'.invertedPageTable = k.invertedPageTable ∧ k'.currentPage = k.currentPage :=
  ⟨_, modifyPTE_of_lt hn _, ⟨view_setPTE_used _ _ _ _ rfl, rfl⟩, rfl, rfl⟩

/-- Assigning to fields of a frame other than its owner does not show. -/
theorem modifyFrame_owner {k : Kernel} {f : Nat} (hf : f < k.numPhysPages)
    {g : InvertedBucket → InvertedBucket} (hg : ∀ b, (g b).owner = b.owner) :
    ∃ k', k.modifyFrame f g = .ok k' ∧ SameView k k' ∧ k'.invertedPageTable =
      Function.update k.invertedPageTable f (g (k.invertedPageTable f)) :=
  ⟨_, modifyFrame_of_lt hf g, ⟨view_setFrame_owner _ _ _ (hg _), rfl⟩, rfl⟩

/-! ## `saveState` -/

/-- What `saveState` leaves alone. -/
structure Saves (k k' : Kernel) : Prop where
  pins : SamePins k k'
  view : ∃ tlb entry trace, k'.view = { k.view with tlb := tlb, entry := entry, trace := trace }
  entry : ∀ p v, ∃ d, k'.view.entry p v = { k.view.entry p v with dirty := d }
  ioBlocks : k'.ioBlocks = k.ioBlocks

theorem Saves.refl {k : Kernel} : Saves k k :=
  ⟨SamePins.refl, ⟨_, _, _, rfl⟩, fun _ _ => ⟨_, rfl⟩, rfl⟩

theorem Saves.trans {k₁ k₂ k₃ : Kernel} (h : Saves k₁ k₂) (h' : Saves k₂ k₃) : Saves k₁ k₃ := by
  obtain ⟨tlb, entry, trace, hv⟩ := h.view
  obtain ⟨tlb', entry', trace', hv'⟩ := h'.view
  refine ⟨h.pins.trans h'.pins, ⟨tlb', entry', trace', ?_⟩, fun p v => ?_,
    h'.ioBlocks.trans h.ioBlocks⟩
  · rw [hv', hv]
  · obtain ⟨d, hd⟩ := h.entry p v
    obtain ⟨d', hd'⟩ := h'.entry p v
    exact ⟨d', by rw [hd', hd]⟩

/-- The used bits of a TLB entry are copied to the page table and to the frame. -/
theorem copyUsed_spec {k : Kernel} {p f : Nat} {entry : TranslationEntry}
    (hn : entry.vpn < (k.process p).numPages) (hp : entry.ppn = f) (hf : f < k.numPhysPages) :
    ∃ k', copyUsed p entry k = .ok k' ∧ SameView k k' ∧ SamePins k k' := by
  unfold copyUsed
  split
  · obtain ⟨k₁, h₁, hs₁, hi₁, -⟩ := modifyPTE_used hn true
    have hf₁ : f < k₁.numPhysPages := by
      rwa [show k₁.numPhysPages = k.numPhysPages from congrArg View.numPhysPages hs₁.view]
    obtain ⟨k₂, h₂, hs₂, hi₂⟩ :=
      modifyFrame_owner (g := fun b => { b with used := true }) hf₁ fun _ => rfl
    refine ⟨k₂, ?_, ⟨hs₂.view.trans hs₁.view, hs₂.ioBlocks.trans hs₁.ioBlocks⟩, fun g => ?_⟩
    · rw [h₁, hp]
      exact h₂
    · rw [hi₂, hi₁, Function.update_apply]
      split
      · rename_i h; rw [h]
      · rfl
  · exact ⟨k, rfl, ⟨rfl, rfl⟩, SamePins.refl⟩

/-- The view after the dirty bit of a TLB entry has been copied. -/
def dirtied (k : Kernel) (p : Nat) (entry : TranslationEntry) : View :=
  if entry.dirty then
    (k.view.emit (.markDirty p entry.vpn (k.pte p entry.vpn))).setEntry p entry.vpn
      { k.view.entry p entry.vpn with dirty := true }
  else k.view

/-- The dirty bit of a TLB entry is copied to the page table. -/
theorem copyDirty_spec {k : Kernel} {p : Nat} (entry : TranslationEntry)
    (hn : entry.vpn < (k.process p).numPages) :
    ∃ k', copyDirty p entry k = .ok k' ∧ k'.view = k.dirtied p entry ∧ SamePins k k' ∧
      k'.ioBlocks = k.ioBlocks := by
  unfold copyDirty dirtied
  split
  · refine ⟨_, modifyPTE_of_lt (k := k.emit _) hn _, ?_, fun _ => rfl, rfl⟩
    rw [view_setPTE, view_emit]
    rfl
  · exact ⟨k, rfl, rfl, SamePins.refl, rfl⟩

/-- One iteration of `saveState`. -/
theorem saveEntry_chain {ph : Phase} {k : Kernel} {p : Nat} (hwf : WF ph k.view)
    (hcur : k.current = some p) (i : Nat) :
    ∃ k', saveEntry p k i = .ok k' ∧ Chain (ph, k.view) (ph, k'.view) ∧ Saves k k' ∧
      (k'.view.tlb i).valid = false ∧ ∀ j, j ≠ i → k'.view.tlb j = k.view.tlb j := by
  unfold saveEntry readTLBEntry
  by_cases hv : (k.tlb i).valid = true
  · obtain ⟨-, p', f, hcur', hn, hp, hf⟩ := hwf.tlb i hv
    obtain rfl : p = p' := Option.some.inj (hcur.symm.trans hcur')
    obtain ⟨k₁, h₁, hv₁, hpin₁, hio₁⟩ := copyDirty_spec (k.tlb i) hn
    -- copying the dirty bit changes one entry, and in it that bit alone
    have hfix : ∃ entry trace, k₁.view = { k.view with entry := entry, trace := trace } ∧
        ∀ p v, ∃ d, entry p v = { k.view.entry p v with dirty := d } := by
      rw [hv₁, dirtied]
      split
      · refine ⟨_, _, rfl, fun p' v' => ?_⟩
        dsimp only
        split
        · rename_i h; rw [h.1, h.2]; exact ⟨true, rfl⟩
        · exact ⟨_, rfl⟩
      · exact ⟨_, _, rfl, fun _ _ => ⟨_, rfl⟩⟩
    obtain ⟨entry, trace, hview, hentry⟩ := hfix
    have hn₁ : (k.tlb i).vpn < (k₁.process p).numPages :=
      lt_of_lt_of_eq hn (congrFun (congrArg View.numPages hview) p).symm
    have hf₁ : f < k₁.numPhysPages := lt_of_lt_of_eq hf (congrArg View.numPhysPages hview).symm
    obtain ⟨k₂, h₂, hs₂, hpin₂⟩ := copyUsed_spec hn₁ hp hf₁
    -- the used bit goes to the frame table, which the view does not show
    have hend : (k₂.writeTLBEntry i { k.tlb i with valid := false }).view =
        (k.dirtied p (k.tlb i)).setTlb i { k.view.tlb i with valid := false } := by
      rw [view_writeTLBEntry, hs₂.view, hv₁]
      rfl
    refine ⟨k₂.writeTLBEntry i { k.tlb i with valid := false }, ?_, ?_, ⟨?_, ?_, ?_, ?_⟩, ?_, ?_⟩
    · simp only [hv, if_true, h₁, h₂, bind, Except.bind]
    · rw [hend, dirtied]
      apply Chain.single
      split
      · rename_i hd
        exact Micro.saveDirty _ hcur hv hd rfl hn
      · rename_i hd
        exact Micro.saveClean hv (Bool.eq_false_iff.mpr hd)
    · exact (hpin₁.trans hpin₂).trans fun _ => rfl
    · rw [hend, ← hv₁, hview]
      exact ⟨_, _, _, rfl⟩
    · intro p' v'
      rw [hend, ← hv₁, hview]
      exact hentry p' v'
    · exact hs₂.ioBlocks.trans hio₁
    · simp [hend, View.setTlb]
    · intro j hj
      rw [hend, ← hv₁, hview]
      simp only [View.setTlb, Function.update_apply, if_neg hj]
  · refine ⟨k, ?_, Chain.refl, Saves.refl, Bool.eq_false_iff.mpr hv, fun _ _ => rfl⟩
    rw [if_neg hv]

/-- `saveState` on the TLB entries with these indices. -/
theorem foldlM_saveEntry {ph : Phase} {p : Nat} (is : List Nat) :
    ∀ {k : Kernel}, WF ph k.view → k.current = some p →
    ∃ k', is.foldlM (saveEntry p) k = .ok k' ∧ Chain (ph, k.view) (ph, k'.view) ∧ Saves k k' ∧
      (∀ i ∈ is, (k'.view.tlb i).valid = false) ∧
      ∀ j, (k.view.tlb j).valid = false → (k'.view.tlb j).valid = false := by
  induction is with
  | nil => exact fun {k} _ _ => ⟨k, rfl, Chain.refl, Saves.refl, by simp, fun _ h => h⟩
  | cons i is ih =>
    intro k hwf hcur
    obtain ⟨k₁, h₁, hc₁, hs₁, hi₁, hj₁⟩ := saveEntry_chain hwf hcur i
    have hcur₁ : k₁.current = some p := by
      obtain ⟨_, _, _, hv⟩ := hs₁.view
      exact (congrArg View.current hv).trans hcur
    obtain ⟨k₂, h₂, hc₂, hs₂, hi₂, hj₂⟩ := ih (hc₁.invariant WF.micro hwf) hcur₁
    have hstay : ∀ j, (k.view.tlb j).valid = false → (k₁.view.tlb j).valid = false := by
      intro j hj
      by_cases h : j = i
      · exact h ▸ hi₁
      · rw [hj₁ j h]; exact hj
    refine ⟨k₂, ?_, hc₁.trans hc₂, hs₁.trans hs₂, ?_, fun j hj => hj₂ j (hstay j hj)⟩
    · rw [List.foldlM_cons, h₁]
      exact h₂
    · intro j hj
      rcases List.mem_cons.mp hj with rfl | h
      · exact hj₂ j hi₁
      · exact hi₂ j h

/-- `saveState` copies the bits of the TLB back and empties it. -/
theorem saveState_chain {ph : Phase} {k : Kernel} {p : Nat} (hwf : WF ph k.view)
    (hcur : k.current = some p) :
    ∃ k', k.saveState p = .ok k' ∧ Chain (ph, k.view) (ph, k'.view) ∧ Saves k k' ∧
      ∀ i, (k'.view.tlb i).valid = false := by
  obtain ⟨k', h, hc, hs, hi, hj⟩ := foldlM_saveEntry (List.range tlbSize) hwf hcur
  refine ⟨k', h, hc, hs, fun i => ?_⟩
  by_cases hlt : i < tlbSize
  · exact hi i (List.mem_range.mpr hlt)
  · refine hj i (Bool.eq_false_iff.mpr fun hv => hlt (hwf.tlb i hv).1)

/-- The running thread is switched out. -/
theorem switchOut_chain {ph : Phase} {k : Kernel} (hwf : WF ph k.view) :
    ∃ k', k.switchOut = .ok k' ∧ Chain (ph, k.view) (ph, k'.view) ∧ Saves k k' ∧
      ∀ i, (k'.view.tlb i).valid = false := by
  unfold switchOut
  cases hcur : k.current with
  | some p => exact saveState_chain hwf hcur
  | none =>
    refine ⟨k, rfl, Chain.refl, Saves.refl, fun i => Bool.eq_false_iff.mpr fun hv => ?_⟩
    obtain ⟨-, p, f, hp, -⟩ := hwf.tlb i hv
    have : k.current = some p := hp
    simp [hcur] at this

/-- File I/O may switch the running thread out. -/
theorem delay_chain {ph : Phase} {k : Kernel} (hwf : WF ph k.view) :
    ∃ k', k.delay = .ok k' ∧ Chain (ph, k.view) (ph, k'.view) ∧ Saves k k' := by
  unfold delay
  split
  · obtain ⟨k', h, hc, hs, -⟩ := switchOut_chain hwf
    exact ⟨k', h, hc, hs⟩
  · exact ⟨k, rfl, Chain.refl, Saves.refl⟩

/-! ## The clock -/

/-- An assigned frame belongs to a page of a live process. -/
theorem owner_of_assigned {k : Kernel} (hwf : WF .quiet k.view) {c : Nat} (hc : c < k.numPhysPages)
    (ha : (k.invertedPageTable c).assigned = true) :
    ∃ p, (k.invertedPageTable c).process = some p ∧ k.view.live p = true ∧
      (k.invertedPageTable c).tEntry.vpn < (k.process p).numPages ∧
      (k.view.entry p (k.invertedPageTable c).tEntry.vpn).valid = true ∧
      (k.view.entry p (k.invertedPageTable c).tEntry.vpn).ppn = c := by
  have hframe : k.view.frame c = some ((k.invertedPageTable c).process,
      (k.invertedPageTable c).tEntry.vpn) := by
    simp [view, InvertedBucket.owner, ha]
  obtain ⟨p, v, ho, hl, hn, hv, hp⟩ := hwf.backward c _ hc hframe (by simp [Phase.opens])
  simp only [Prod.mk.injEq] at ho
  obtain ⟨ho, rfl⟩ := ho
  exact ⟨p, ho, hl, hn, hv, hp⟩

/-- The clock clears the used bit of the frame it passes over. -/
theorem passOver_spec {k : Kernel} (hwf : WF .quiet k.view) {c : Nat} (hc : c < k.numPhysPages)
    (ha : (k.invertedPageTable c).assigned = true) :
    ∃ k', k.passOver c = .ok k' ∧ SameView k k' ∧ SamePins k k' ∧ k'.currentPage = c + 1 ∧
      ∀ g, (k'.invertedPageTable g).used = if g = c then false else (k.invertedPageTable g).used := by
  obtain ⟨p, hp, -, hn, -⟩ := owner_of_assigned hwf hc ha
  have hframe : (k.setFrame c { k.invertedPageTable c with used := false }).view = k.view :=
    view_setFrame_owner _ _ _ rfl
  obtain ⟨k', h', hs', hi', -⟩ := modifyPTE_used
    (k := k.setFrame c { k.invertedPageTable c with used := false }) hn false
  refine ⟨{ k' with currentPage := c + 1 }, ?_, ⟨hs'.view.trans hframe, hs'.ioBlocks⟩, ?_, rfl, ?_⟩
  · unfold passOver
    dsimp only
    split
    · rename_i h
      simp [hp] at h
    · rename_i q h
      obtain rfl : p = q := Option.some.inj (hp.symm.trans h)
      simp only [h', bind, Except.bind]
  · intro g
    simp only [hi', setFrame, Function.update_apply]
    split
    · rename_i h; rw [h]
    · rfl
  · intro g
    simp only [hi', setFrame, Function.update_apply]
    split <;> rfl

/-- What the clock hands out: a frame in range, free or assigned to a page. -/
structure ClockFound (k k' : Kernel) (f : Nat) : Prop where
  inRange : f < k.numPhysPages
  pins : SamePins k k'
  ioBlocks : k'.ioBlocks = k.ioBlocks
  view : (k.view.frame f = none ∧ ∃ pinned, k'.view = k.view.emit (.claim f pinned)) ∨
    ((k.invertedPageTable f).assigned = true ∧ k'.view = k.view)

/-- With no frame pinned the clock finds one. It has cleared the used bits of the last
    `j` frames it passed over, so it stops after one more sweep at the latest. -/
theorem clockLoop_spec {j : Nat} :
    ∀ {k : Kernel} {fuel total : Nat} {notPinned : Bool}, WF .quiet k.view → k.Unpinned →
    j ≤ k.numPhysPages → k.numPhysPages - j < fuel →
    (∀ d, k.numPhysPages - j ≤ d → d < k.numPhysPages →
      (k.invertedPageTable ((k.currentPage + d) % k.numPhysPages)).used = false) →
    ∃ f k', clockLoop fuel total notPinned k = .ok (some f, k') ∧ ClockFound k k' f := by
  intro k fuel total notPinned hwf hu hj hfuel hused
  induction fuel generalizing j k total notPinned with
  | zero => omega
  | succ fuel ih =>
    have hpos := hwf.pos
    have hc : k.currentPage % k.numPhysPages < k.numPhysPages := Nat.mod_lt _ hpos
    unfold clockLoop
    simp only [hu (k.currentPage % k.numPhysPages)]
    generalize hcdef : k.currentPage % k.numPhysPages = c at hc ⊢
    by_cases ha : (k.invertedPageTable c).assigned = true
    · by_cases hub : (k.invertedPageTable c).used = true
      · -- passed over: one more frame is known to be unused
        simp only [ha, hub, Bool.not_true, Bool.false_eq_true, if_false, Bool.not_false,
          Bool.and_false, Bool.or_true]
        obtain ⟨k₁, h₁, hs₁, hpin₁, hcp₁, hused₁⟩ := passOver_spec hwf hc ha
        have hphys : k₁.numPhysPages = k.numPhysPages := congrArg View.numPhysPages hs₁.view
        have hjlt : j < k.numPhysPages := by
          rcases Nat.lt_or_ge j k.numPhysPages with h | h
          · exact h
          · have := hused 0 (by omega) hpos
            rw [Nat.add_zero, hcdef, hub] at this
            simp at this
        obtain ⟨f, k', h', hfound⟩ := @ih (j + 1) k₁ (total + 1) true
          (hs₁.view ▸ hwf) (hpin₁.unpinned hu) (by omega) (by omega) (by
            intro d hd hd'
            rw [hphys] at hd hd' ⊢
            rw [hcp₁, hused₁]
            split
            · rfl
            · rename_i hne
              -- frame `c + 1 + d` was behind the hand before this iteration too
              have hd1 : d + 1 < k.numPhysPages := by
                by_contra hge
                have : d + 1 = k.numPhysPages := by omega
                apply hne
                rw [Nat.add_assoc, Nat.add_comm 1 d, this, Nat.add_mod_right,
                  Nat.mod_eq_of_lt hc]
              have := hused (d + 1) (by omega) hd1
              rwa [Nat.add_mod, hcdef, Nat.mod_eq_of_lt hd1, ← Nat.add_assoc, Nat.add_right_comm]
                at this)
        refine ⟨f, k', ?_, ?_⟩
        · simp only [h₁, bind, Except.bind]
          exact h'
        · refine ⟨hphys ▸ hfound.inRange, hpin₁.trans hfound.pins,
            hfound.ioBlocks.trans hs₁.ioBlocks, ?_⟩
          have hview := hfound.view
          rw [hs₁.view] at hview
          rcases hview with h | ⟨ha', hv'⟩
          · exact Or.inl h
          · right
            refine ⟨?_, hv'⟩
            have : k₁.view.frame f = k.view.frame f := by rw [hs₁.view]
            by_contra hna
            simp [view, InvertedBucket.owner, ha', hna] at this
      · simp only [ha, hub]
        exact ⟨c, _, rfl, hc, fun _ => rfl, rfl, Or.inr ⟨ha, rfl⟩⟩
    · simp only [ha]
      refine ⟨c, _, rfl, hc, fun _ => rfl, rfl, Or.inl ⟨?_, _, rfl⟩⟩
      simp [view, InvertedBucket.owner, ha]

/-- `clockAlgorithm` returns a frame. -/
theorem clockAlgorithm_spec {k : Kernel} (hwf : WF .quiet k.view) (hu : k.Unpinned) :
    ∃ f k', k.clockAlgorithm = .ok (some f, k') ∧ ClockFound k k' f :=
  clockLoop_spec (j := 0) hwf hu (by omega) (by omega) (by omega)

end Kernel

end Nachos
