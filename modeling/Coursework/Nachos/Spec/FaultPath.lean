import Coursework.Nachos.Spec.PagingChain

/-!
# The page fault as a chain of changes

`pageFault` from the clock to the valid entry: a victim is saved or dropped, its frame
is assigned to the faulting page and filled. Each function returns on well-formed
tables, so a page fault of a live process always ends with the page in a frame.
-/

namespace Nachos

namespace Kernel

/-- The fields of the view that a fault does not change, and the pins it leaves. -/
structure Keeps (k k' : Kernel) : Prop where
  numPhysPages : k'.numPhysPages = k.numPhysPages
  numPages : k'.view.numPages = k.view.numPages
  live : k'.view.live = k.view.live
  current : k'.current = k.current
  unpinned : k.Unpinned → k'.Unpinned

theorem Keeps.refl {k : Kernel} : Keeps k k := ⟨rfl, rfl, rfl, rfl, id⟩

theorem Keeps.trans {k₁ k₂ k₃ : Kernel} (h : Keeps k₁ k₂) (h' : Keeps k₂ k₃) : Keeps k₁ k₃ :=
  ⟨h'.numPhysPages.trans h.numPhysPages, h'.numPages.trans h.numPages, h'.live.trans h.live,
    h'.current.trans h.current, h'.unpinned ∘ h.unpinned⟩

theorem Saves.keeps {k k' : Kernel} (h : Saves k k') : Keeps k k' := by
  obtain ⟨tlb, entry, trace, hv⟩ := h.view
  exact ⟨congrArg View.numPhysPages hv, by rw [hv], by rw [hv], congrArg View.current hv,
    h.pins.unpinned⟩

/-! ## Swap -/

/-- Only frame `f` may be pinned. -/
def PinnedOnly (f : Nat) (k : Kernel) : Prop :=
  ∀ g, g ≠ f → (k.invertedPageTable g).pinned = false

/-- Pinning a frame. -/
theorem pin_spec {k : Kernel} {f : Nat} (hf : f < k.numPhysPages) (hu : k.Unpinned) :
    ∃ k', k.modifyFrame f (fun b => { b with pinned := true }) = .ok k' ∧ SameView k k' ∧
      PinnedOnly f k' := by
  obtain ⟨k', h', hs', hi'⟩ :=
    modifyFrame_owner (g := fun b => { b with pinned := true }) hf fun _ => rfl
  refine ⟨k', h', hs', fun g hg => ?_⟩
  rw [hi', Function.update_apply, if_neg hg]
  exact hu g

/-- Taking the one pin back. -/
theorem unpin_spec {k : Kernel} {f : Nat} (hf : f < k.numPhysPages) (hu : k.PinnedOnly f) :
    ∃ k', k.unpin f = .ok k' ∧ SameView k k' ∧ k'.Unpinned := by
  obtain ⟨k', h', hs', hi'⟩ :=
    modifyFrame_owner (g := fun b => { b with pinned := false }) hf fun _ => rfl
  refine ⟨k', h', hs', fun g => ?_⟩
  rw [hi', Function.update_apply]
  split
  · rfl
  · rename_i h; exact hu g h

theorem view_swapWrite (k : Kernel) (spn : Int) (f : Nat) :
    (k.swapWrite spn f).view = { k.view with
      swapFile := k.view.swapFile.write (wrap32 (spn * pageSize)) pageSize
        fun i => k.view.memory (frameAddr f i) } := by
  unfold swapWrite
  rfl

/-- The slot `addToSwap` chooses. -/
theorem addToSwapBegin_chain {k : Kernel} (hwf : WF .quiet k.view) (hu : k.Unpinned)
    {q w f : Nat} (hl : k.view.live q = true) (hn : w < k.view.numPages q)
    (hv : (k.view.entry q w).valid = true) (hd : (k.view.entry q w).dirty = true)
    (hp : (k.view.entry q w).ppn = f) :
    ∃ spn k', k.addToSwapBegin f = .ok (spn, k') ∧
      Micro .quiet k.view (.saving q w f spn false) k'.view ∧ PinnedOnly f k' ∧
      (∃ numSwapPages freeSwap, k'.view =
        { k.view with numSwapPages := numSwapPages, freeSwap := freeSwap }) := by
  have hf : f < k.numPhysPages := by
    obtain ⟨g, hg, hlt, -⟩ := hwf.forward q w hl hn hv
    have : f = g := by omega
    exact this ▸ hlt
  unfold addToSwapBegin
  cases hmin : k.freeSwap.min? with
  | none =>
    -- no slot is free: the file grows by one
    obtain ⟨k', h', hs', hpin⟩ :=
      pin_spec (k := { k with numSwapPages := k.numSwapPages + 1 }) hf hu
    refine ⟨k.numSwapPages, k', by simp only [h', bind, Except.bind], ?_, hpin, _, _, hs'.view⟩
    rw [hs'.view]
    exact Micro.newSlot hl hn hv hd hp (List.min?_eq_none_iff.mp hmin)
  | some spn =>
    -- the lowest free slot is taken again
    obtain ⟨k', h', hs', hpin⟩ :=
      pin_spec (k := { k with freeSwap := k.freeSwap.erase spn }) hf hu
    refine ⟨spn, k', by simp only [h', bind, Except.bind], ?_, hpin, _, _, hs'.view⟩
    rw [hs'.view]
    exact Micro.reuseSlot hl hn hv hd hp (List.min?_mem hmin)

/-- `addToSwap` leaves the page on the disk, with its mapping still in place. -/
theorem addToSwap_chain {k : Kernel} (hwf : WF .quiet k.view) (hu : k.Unpinned)
    {q w f : Nat} (hl : k.view.live q = true) (hn : w < k.view.numPages q)
    (hv : (k.view.entry q w).valid = true) (hd : (k.view.entry q w).dirty = true)
    (hp : (k.view.entry q w).ppn = f) :
    ∃ spn k', k.addToSwap f = .ok (spn, k') ∧
      Chain (.quiet, k.view) (.saving q w f spn true, k'.view) ∧ Keeps k k' ∧ k'.Unpinned ∧
      (∀ p v, (k.view.entry p v).valid = false → (k'.view.entry p v).valid = false) := by
  -- in three parts: the frame is pinned and a slot chosen, the processor is given away while the
  -- transfer runs, and the slot is written
  obtain ⟨spn, k₁, h₁, hm₁, hpin₁, numSwap₁, free₁, hv₁⟩ :=
    addToSwapBegin_chain hwf hu hl hn hv hd hp
  have hwf₁ := WF.micro hm₁ hwf
  obtain ⟨k₂, h₂, hc₂, hs₂⟩ := delay_chain hwf₁
  have hwf₂ : WF _ k₂.view := hc₂.invariant WF.micro hwf₁
  -- the phase says that the page is still where it was
  have hf₂ : f < (k₂.swapWrite spn f).numPhysPages := by
    obtain ⟨hl₂, hn₂, hv₂, -, hp₂⟩ := hwf₂.phase
    obtain ⟨g, hg, hlt, -⟩ := hwf₂.forward q w hl₂ hn₂ hv₂
    have : f = g := by omega
    exact this ▸ hlt
  have hpin₂ : (k₂.swapWrite spn f).PinnedOnly f :=
    fun g hg => (hs₂.pins g).trans (hpin₁ g hg)
  obtain ⟨k₃, h₃, hs₃, hu₃⟩ := unpin_spec (k := k₂.swapWrite spn f) hf₂ hpin₂
  have hend := hs₃.view
  rw [view_swapWrite] at hend
  have hkeep : Keeps k₁ k₂ := hs₂.keeps
  refine ⟨spn, k₃, ?_, ?_, ⟨?_, ?_, ?_, ?_, fun _ => hu₃⟩, hu₃, ?_⟩
  · unfold addToSwap
    simp only [h₁, h₂, bind, Except.bind, Int.toNat_natCast, h₃]
  · refine (Chain.single hm₁).trans (hc₂.trans (Chain.single ?_))
    rw [hend]
    exact Micro.writeSlot
  · exact ((congrArg View.numPhysPages hend).trans hkeep.numPhysPages).trans
      (congrArg View.numPhysPages hv₁)
  · rw [hend]
    exact hkeep.numPages.trans (by rw [hv₁])
  · rw [hend]
    exact hkeep.live.trans (by rw [hv₁])
  · exact ((congrArg View.current hend).trans hkeep.current).trans (congrArg View.current hv₁)
  · intro p v h
    obtain ⟨d, he⟩ := hs₂.entry p v
    rw [hend]
    simp only [he, hv₁]
    exact h

/-! ## Eviction -/

/-- `savePage` gives up the mapping of a page and leaves its frame vacant. -/
theorem savePage_chain {k : Kernel} (hwf : WF .quiet k.view) (hu : k.Unpinned)
    {q w f : Nat} (hl : k.view.live q = true) (hn : w < k.view.numPages q)
    (hv : (k.view.entry q w).valid = true) (hp : (k.view.entry q w).ppn = f) :
    ∃ k', k.savePage q w = .ok k' ∧ Chain (.quiet, k.view) (.vacant f, k'.view) ∧ Keeps k k' ∧
      (∀ p v, (k.view.entry p v).valid = false → (k'.view.entry p v).valid = false) := by
  have hnle : ¬ (k.process q).numPages ≤ w := Nat.not_le.mpr hn
  have hppn : (k.pte q w).ppn = f := hp
  unfold savePage
  rw [if_neg hnle]
  dsimp only
  split
  · rename_i hd
    obtain ⟨spn, k₁, h₁, hc₁, hk₁, hu₁, hval₁⟩ := addToSwap_chain hwf hu hl hn hv hd hp
    have hn₁ : w < (k₁.process q).numPages :=
      lt_of_lt_of_eq hn (congrFun hk₁.numPages q).symm
    -- the two assignments to the entry are one change of the view
    have hview : ((k₁.setPTE q w { k₁.pte q w with ppn := spn }).setPTE q w
        { k₁.pte q w with ppn := spn, valid := false }).view =
        k₁.view.setEntry q w { k₁.view.entry q w with ppn := spn, valid := false } := by
      simp only [view_setPTE, View.setEntry]
      congr 1
      funext p v
      split <;> rfl
    have hpte : (k₁.setPTE q w { k₁.pte q w with ppn := spn }).pte q w =
        { k₁.pte q w with ppn := (spn : Int) } := by
      simp [pte, setPTE]
    have hn₂ : w < ((k₁.setPTE q w { k₁.pte q w with ppn := spn }).process q).numPages := by
      simpa [setPTE] using hn₁
    refine ⟨((k₁.setPTE q w { k₁.pte q w with ppn := spn }).setPTE q w
        { k₁.pte q w with ppn := spn, valid := false }).updateTLB q w, ?_, ?_, ?_, ?_⟩
    · simp only [hppn, h₁, bind, Except.bind, modifyPTE_of_lt hn₁, invalidate]
      rw [modifyPTE_of_lt hn₂, hpte]
    · refine hc₁.trans (Chain.single ?_)
      have hend : Micro (.saving q w f spn true) k₁.view (.vacant f) _ := .dropSaved
      rw [updateTLB, view_emit, hview]
      exact hend
    · refine hk₁.trans ⟨rfl, ?_, ?_, rfl, fun h => h⟩
      · rw [updateTLB, view_emit, hview]
        rfl
      · rw [updateTLB, view_emit, hview]
        rfl
    · intro p v h
      rw [updateTLB, view_emit, hview]
      simp only [View.emit, View.setEntry]
      split
      · rfl
      · exact hval₁ p v h
  · rename_i hd
    have hclean : (k.view.entry q w).dirty = false := Bool.eq_false_iff.mpr hd
    set e := Event.dropped q w fun i => k.memory (frameAddr (k.pte q w).ppn.toNat i) with he
    have he' : e = Event.dropped q w fun i => k.view.memory (frameAddr f i) := by
      rw [he, hppn]
      rfl
    have hview : ((k.emit e).setPTE q w { k.pte q w with valid := false }).view =
        (k.view.emit e).setEntry q w { k.view.entry q w with valid := false } := by
      rw [view_setPTE, view_emit]
      rfl
    refine ⟨((k.emit e).setPTE q w { k.pte q w with valid := false }).updateTLB q w, ?_, ?_,
      ⟨rfl, ?_, ?_, rfl, fun h => h⟩, ?_⟩
    · simp only [invalidate, bind, Except.bind, modifyPTE_of_lt (k := k.emit e) hn]
      rfl
    · apply Chain.single
      have hend := Micro.dropClean hl hn hv hclean hp
      rw [updateTLB, view_emit, hview, he']
      exact hend
    · rw [updateTLB, view_emit, hview]
      rfl
    · rw [updateTLB, view_emit, hview]
      rfl
    · intro p v h
      rw [updateTLB, view_emit, hview]
      simp only [View.emit, View.setEntry]
      split
      · rfl
      · exact h

/-- `evictPage` finds the process of an assigned frame. -/
theorem evictPage_chain {k : Kernel} (hwf : WF .quiet k.view) (hu : k.Unpinned) {f : Nat}
    (hf : f < k.numPhysPages) (ha : (k.invertedPageTable f).assigned = true) :
    ∃ k', k.evictPage f = .ok k' ∧ Chain (.quiet, k.view) (.vacant f, k'.view) ∧ Keeps k k' ∧
      (∀ p v, (k.view.entry p v).valid = false → (k'.view.entry p v).valid = false) := by
  obtain ⟨q, hq, hl, hn, hv, hp⟩ := owner_of_assigned hwf hf ha
  unfold evictPage
  dsimp only
  split
  · rename_i h
    simp [hq] at h
  · rename_i q' h
    obtain rfl : q = q' := Option.some.inj (hq.symm.trans h)
    exact savePage_chain hwf hu hl hn hv hp

/-- `getAvailablePage` assigns a frame to the page. -/
theorem getAvailablePage_chain {k : Kernel} (hwf : WF .quiet k.view) (hu : k.Unpinned) {p v : Nat}
    (hl : k.view.live p = true) (hn : v < k.view.numPages p)
    (hv : (k.view.entry p v).valid = false) :
    ∃ f k', k.getAvailablePage p v = .ok (f, k') ∧
      Chain (.quiet, k.view) (.filling f p v (k'.view.entry p v).dirty, k'.view) ∧ Keeps k k' := by
  obtain ⟨f, k₁, h₁, hfound⟩ := clockAlgorithm_spec hwf hu
  have hassign : ∀ k : Kernel, (k.assignPage f p v).view = k.view.setOwner f (some (some p, v)) := by
    intro k
    rw [assignPage, view_setFrame]
    rfl
  have hpins : ∀ k : Kernel, k.Unpinned → (k.assignPage f p v).Unpinned := by
    intro k hk g
    simp only [assignPage, setFrame, Function.update_apply]
    split
    · exact hk f
    · exact hk g
  have hkeep : ∀ k : Kernel, Keeps k (k.assignPage f p v) := fun k =>
    ⟨rfl, by rw [hassign]; rfl, by rw [hassign]; rfl, rfl, hpins k⟩
  rcases hfound.view with ⟨hnone, pinned, hview⟩ | ⟨ha, hview⟩
  · -- the clock found a frame without an owner
    have hfree : (k₁.invertedPageTable f).assigned = false := by
      have : k₁.view.frame f = none := by rw [hview]; exact hnone
      by_contra h
      simp [view, InvertedBucket.owner, h] at this
    refine ⟨f, k₁.assignPage f p v, ?_, ?_, Keeps.trans ?_ (hkeep k₁)⟩
    · simp only [getAvailablePage, takePage, h₁, bind, Except.bind, hfree]
      rfl
    · rw [hassign, hview]
      refine (Chain.single (Micro.note (.claim f pinned) rfl)).trans (Chain.single ?_)
      exact Micro.claimFree hfound.inRange hnone hl hn hv
    · exact ⟨congrArg View.numPhysPages hview, by rw [hview]; rfl, by rw [hview]; rfl,
        congrArg View.current hview, hfound.pins.unpinned⟩
  · -- the clock found a frame with an owner, which loses its page first
    have ha₁ : (k₁.invertedPageTable f).assigned = true := by
      have : k₁.view.frame f = k.view.frame f := by rw [hview]
      by_contra h
      simp [view, InvertedBucket.owner, h, ha] at this
    obtain ⟨k₂, h₂, hc₂, hk₂, hval₂⟩ := evictPage_chain (hview ▸ hwf) (hfound.pins.unpinned hu)
      (lt_of_lt_of_eq hfound.inRange (congrArg View.numPhysPages hview).symm) ha₁
    refine ⟨f, k₂.assignPage f p v, ?_, ?_, Keeps.trans ?_ (hk₂.trans (hkeep k₂))⟩
    · simp only [getAvailablePage, takePage, h₁, bind, Except.bind, ha₁, if_true, h₂]
    · rw [hassign]
      rw [hview] at hc₂
      refine hc₂.trans (Chain.single ?_)
      rw [hview] at hval₂
      refine Micro.claimVacant ?_ ?_ (hval₂ p v hv)
      · rw [hk₂.live, hview]; exact hl
      · rw [hk₂.numPages, hview]; exact hn
    · exact ⟨congrArg View.numPhysPages hview, congrArg View.numPages hview,
        congrArg View.live hview, congrArg View.current hview, hfound.pins.unpinned⟩

/-! ## Filling the frame -/

theorem view_swapRead (k : Kernel) (spn : Int) (f : Nat) :
    (k.swapRead spn f).view = { k.view with
      memory := k.view.swapFile.read (wrap32 (spn * pageSize)) pageSize k.view.memory
        (frameAddr f 0) } := by
  unfold swapRead
  rfl

/-- `loadFromSwap` reads the slot into the frame and frees it. -/
theorem loadFromSwap_chain {ph : Phase} {k : Kernel} (hwf : WF ph k.view) (hu : k.Unpinned)
    {f : Nat} (hf : f < k.numPhysPages) (spn : Int) :
    ∃ (m : View) (k' : Kernel), k.loadFromSwap spn f = .ok k' ∧ Chain (ph, k.view) (ph, m) ∧
      (∀ p v, (m.entry p v).ppn = (k.view.entry p v).ppn) ∧ Keeps k k' ∧ k'.Unpinned ∧
      k'.view = { m with
        memory := m.swapFile.read (wrap32 (spn * pageSize)) pageSize m.memory (frameAddr f 0)
        freeSwap := spn.toNat :: m.freeSwap } := by
  obtain ⟨k₁, h₁, hs₁, hpin₁⟩ := pin_spec hf hu
  have hwf₁ : WF ph k₁.view := hs₁.view ▸ hwf
  obtain ⟨k₂, h₂, hc₂, hs₂⟩ := delay_chain hwf₁
  have hkeep : Keeps k₁ k₂ := hs₂.keeps
  have hphys : k₂.numPhysPages = k.numPhysPages :=
    hkeep.numPhysPages.trans (congrArg View.numPhysPages hs₁.view)
  have hf₂ : f < (k₂.swapRead spn f).numPhysPages := hphys ▸ hf
  obtain ⟨k₃, h₃, hs₃, hu₃⟩ := unpin_spec hf₂ fun g hg => (hs₂.pins g).trans (hpin₁ g hg)
  have hend := hs₃.view
  rw [view_swapRead] at hend
  refine ⟨k₂.view, { k₃ with freeSwap := spn.toNat :: k₃.freeSwap }, ?_, hs₁.view ▸ hc₂, ?_,
    ⟨?_, ?_, ?_, ?_, fun _ => hu₃⟩, hu₃, ?_⟩
  · unfold loadFromSwap
    simp only [h₁, h₂, h₃, bind, Except.bind]
  · intro p v
    obtain ⟨d, he⟩ := hs₂.entry p v
    rw [he, hs₁.view]
  · exact (congrArg View.numPhysPages hend).trans hphys
  · exact (congrArg View.numPages hend).trans (hkeep.numPages.trans (by rw [hs₁.view]))
  · exact (congrArg View.live hend).trans (hkeep.live.trans (by rw [hs₁.view]))
  · exact (congrArg View.current hend).trans
      (hkeep.current.trans (congrArg View.current hs₁.view))
  · have hfree : k₃.freeSwap = k₂.freeSwap := congrArg View.freeSwap hend
    rw [show ({ k₃ with freeSwap := spn.toNat :: k₃.freeSwap } : Kernel).view =
      { k₃.view with freeSwap := spn.toNat :: k₃.freeSwap } from rfl, hend, hfree]
    rfl

/-- `loadPage` passes its assertions and copies a page of the section into the frame. -/
theorem loadPage_chain {ph : Phase} {k : Kernel} (hwf : WF ph k.view) {f : Nat}
    (hf : f < k.numPhysPages) {s : CoffSection} {spn : Int} (h0 : 0 ≤ spn)
    (hlt : spn < s.numPages) :
    ∃ k₁ k', k.loadPage s spn f = .ok k' ∧ Chain (ph, k.view) (ph, k₁.view) ∧ Saves k k₁ ∧
      k' = { k₁ with memory := blit k₁.memory (frameAddr f 0) pageSize (s.pageByte spn.toNat) } := by
  unfold loadPage
  rw [if_pos ⟨h0, hlt, hf⟩]
  split
  · obtain ⟨k₁, h₁, hc₁, hs₁⟩ := delay_chain hwf
    exact ⟨k₁, _, by simp only [h₁, bind, Except.bind], hc₁, hs₁, rfl⟩
  · exact ⟨k, _, rfl, Chain.refl, Saves.refl, rfl⟩

/-- `fillPage` puts the bytes of the page into its frame. The entry becomes valid in the
    same change of the view, by the assignments at the end of `initializePage`. -/
theorem fillPage_chain {k : Kernel} {f p v : Nat}
    (hwf : WF (.filling f p v (k.view.entry p v).dirty) k.view) (hu : k.Unpinned) :
    ∃ (m : View) (k' : Kernel), k.fillPage f p v = .ok k' ∧ k'.Unpinned ∧ Keeps k k' ∧
      Chain (.filling f p v (k.view.entry p v).dirty, k.view)
        (.filling f p v (k.view.entry p v).dirty, m) ∧
      Micro (.filling f p v (k.view.entry p v).dirty) m .quiet
        (k'.view.setEntry p v { k'.view.entry p v with ppn := f, valid := true }) := by
  obtain ⟨hf, -, hl, hn, -⟩ := hwf.phase
  unfold fillPage
  -- a dirty entry has its page in the swap file
  by_cases hd : (k.pte p v).dirty = true
  · rw [if_pos hd]
    obtain ⟨m, k', h', hc, hppn, hk, hu', hv'⟩ := loadFromSwap_chain hwf hu hf (k.pte p v).ppn
    refine ⟨m, k', h', hu', hk, hc, ?_⟩
    have hd' : (k.view.entry p v).dirty = true := hd
    have hppn' : (k.pte p v).ppn = (m.entry p v).ppn := (hppn p v).symm
    rw [hd', hv', hppn']
    exact Micro.fillSwap
  · have hd' : (k.view.entry p v).dirty = false := Bool.eq_false_iff.mpr hd
    rw [if_neg hd]
    rw [hd'] at hwf ⊢
    -- a clean one has it in the executable, or is a page of the stack and starts with zeros
    by_cases hc : v < (k.process p).numCoffPages
    · rw [if_pos hc]
      obtain ⟨s, hs, h0, hlt⟩ := hwf.coff p v hl hc
      obtain ⟨k₁, k', h', hch, hsv, hk'⟩ := loadPage_chain hwf hf h0 hlt
      subst hk'
      have hkeep := hsv.keeps
      have hmap : k₁.view.coffMap p v = k.view.coffMap p v ∧
          k₁.view.numCoffPages p = k.view.numCoffPages p := by
        obtain ⟨_, _, _, hview⟩ := hsv.view
        rw [hview]
        exact ⟨rfl, rfl⟩
      have hs' : ((k.process p).coffMap v).coffSection = some s := hs
      refine ⟨k₁.view, { k₁ with
          memory := blit k₁.memory (frameAddr f 0) pageSize
            (s.pageByte (k.view.coffMap p v).sectionPage.toNat) }, ?_, hsv.pins.unpinned hu,
        ⟨hkeep.numPhysPages, hkeep.numPages, hkeep.live, hkeep.current, hkeep.unpinned⟩, hch, ?_⟩
      · simp only [hs']
        exact h'
      · have hend := Micro.fillCoff (f := f) (hmap.2 ▸ hc) (hmap.1.symm ▸ hs)
        rw [hmap.1] at hend
        exact hend
    · rw [if_neg hc]
      exact ⟨k.view, _, rfl, hu, ⟨rfl, rfl, rfl, rfl, id⟩, Chain.refl, Micro.fillZero hc rfl⟩

/-- `pageFault` returns with the page in a frame. -/
theorem pageFault_chain {k : Kernel} (hwf : WF .quiet k.view) (hu : k.Unpinned) {p v : Nat}
    (hl : k.view.live p = true) (hn : v < k.view.numPages p)
    (hv : (k.view.entry p v).valid = false) :
    ∃ k', k.pageFault p v = .ok k' ∧ Chain (.quiet, k.view) (.quiet, k'.view) ∧ Keeps k k' ∧
      k'.Unpinned ∧ (k'.view.entry p v).valid = true := by
  obtain ⟨f, k₁, h₁, hc₁, hk₁⟩ := getAvailablePage_chain hwf hu hl hn hv
  have hwf₁ := hc₁.invariant WF.micro hwf
  obtain ⟨m, k₂, h₂, hu₂, hk₂, hc₂, hm₂⟩ := fillPage_chain hwf₁ (hk₁.unpinned hu)
  have hn₂ : v < (k₂.process p).numPages :=
    lt_of_lt_of_eq hn (congrFun ((hk₁.trans hk₂).numPages) p).symm
  -- the entry is marked valid last, which ends the fault
  have hview : (k₂.setPTE p v { k₂.pte p v with ppn := f, used := true, valid := true }).view =
      k₂.view.setEntry p v { k₂.view.entry p v with ppn := f, valid := true } := by
    rw [view_setPTE]
    rfl
  refine ⟨k₂.setPTE p v { k₂.pte p v with ppn := f, used := true, valid := true }, ?_, ?_,
    (hk₁.trans hk₂).trans ⟨rfl, ?_, ?_, rfl, id⟩, hu₂, ?_⟩
  · simp only [pageFault, initializePage, h₁, h₂, bind, Except.bind]
    exact modifyPTE_of_lt hn₂ _
  · rw [hview]
    exact hc₁.trans (hc₂.trans (Chain.single hm₂))
  · rw [hview]; rfl
  · rw [hview]; rfl
  · rw [hview]
    simp [View.setEntry]

/-! ## The TLB miss -/

theorem freeEntry_lt (k : Kernel) (random : Fin tlbSize) : k.freeEntry random < tlbSize := by
  unfold freeEntry
  cases h : (List.range tlbSize).find? fun i => !(k.readTLBEntry i).valid with
  | none => exact random.isLt
  | some i => exact List.mem_range.mp (List.mem_of_find?_eq_some h)

/-- `addToTLB` enters a valid entry of the running process. -/
theorem addToTLB_chain {k : Kernel} {p v : Nat} (hcur : k.current = some p)
    (hn : v < k.view.numPages p) (hv : (k.view.entry p v).valid = true) (random : Fin tlbSize) :
    Micro .quiet k.view .quiet (k.addToTLB p v random).view ∧ Keeps k (k.addToTLB p v random) := by
  have hi := k.freeEntry_lt random
  unfold addToTLB readTLBEntry
  dsimp only
  generalize k.freeEntry random = i at hi ⊢
  split
  · rename_i hold
    refine ⟨?_, ⟨rfl, rfl, rfl, rfl, id⟩⟩
    rw [view_writeTLBEntry, view_emit]
    exact Micro.replaceTlb (k.tlb i) hcur hn hv hi rfl hold
  · rename_i hold
    refine ⟨?_, ⟨rfl, rfl, rfl, rfl, id⟩⟩
    rw [view_writeTLBEntry]
    exact Micro.addTlb hcur hn hv hi (Bool.eq_false_iff.mpr hold)

/-- `handleTLBMiss` of the running process returns, unless its assertion fails because
    the program has used an address outside its pages. -/
theorem handleTLBMiss_chain {k : Kernel} (hwf : WF .quiet k.view) (hu : k.Unpinned) {p : Nat}
    (hcur : k.current = some p) (vAddr : Int) (random : Fin tlbSize) :
    (k.handleTLBMiss p vAddr random = .error .assertion ∧
      k.view.numPages p ≤ pageFromAddress vAddr) ∨
    ∃ k', k.handleTLBMiss p vAddr random = .ok k' ∧
      Chain (.quiet, k.view) (.quiet, k'.view) ∧ k'.Unpinned := by
  have hl : k.view.live p = true := (hwf.current p hcur).resolve_right (by simp)
  unfold handleTLBMiss
  dsimp only
  split
  · -- the page exists: it is in memory, or is brought there first
    rename_i hn
    right
    by_cases hv : (k.pte p (pageFromAddress vAddr)).valid = true
    · obtain ⟨hm, hk⟩ := addToTLB_chain hcur hn hv random
      rw [if_pos hv]
      exact ⟨_, rfl, Chain.single hm, hk.unpinned hu⟩
    · obtain ⟨k₁, h₁, hc₁, hk₁, hu₁, hv₁⟩ :=
        pageFault_chain hwf hu hl hn (Bool.eq_false_iff.mpr hv)
      obtain ⟨hm, hk⟩ := addToTLB_chain (hk₁.current.trans hcur)
        (lt_of_lt_of_eq hn (congrFun hk₁.numPages p).symm) hv₁ random
      refine ⟨k₁.addToTLB p (pageFromAddress vAddr) random, ?_, hc₁.trans (Chain.single hm),
        hk.unpinned hu₁⟩
      rw [if_neg hv]
      simp only [h₁, bind, Except.bind]
  · rename_i hn
    exact Or.inl ⟨rfl, Nat.le_of_not_lt hn⟩

end Kernel

end Nachos
