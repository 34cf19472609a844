import Coursework.ForStd.Except
import Coursework.Nachos.Spec.FaultPath

/-!
# Runs as chains of changes

Every operation of a run either is a chain of changes that leaves no frame pinned, or
stops in one of two checks that a user program or a caller of the kernel can fail: the
page range assertion of `handleTLBMiss` and the array bounds of `System.arraycopy`. An
invariant of `Micro` is therefore an invariant of every run (`run_invariant`).
-/

namespace Nachos

namespace Kernel

/-- What an operation may come to. -/
def Outcome (k : Kernel) : Except Halt Kernel → Prop
  | .ok k' => Chain (.quiet, k.view) (.quiet, k'.view) ∧ k'.Unpinned
  | .error e => e = .assertion ∨ e = .indexOutOfBounds

theorem Outcome.self {k : Kernel} (hu : k.Unpinned) : Outcome k (.ok k) := ⟨Chain.refl, hu⟩

/-! ## User loads and stores -/

/-- An aligned access stays within its page. -/
theorem aligned_offset {vaddr : Int} {size : Nat} (hs : size = 1 ∨ size = 2 ∨ size = 4)
    (ha : vaddr % size = 0) : offsetFromAddress vaddr + size ≤ pageSize := by
  unfold offsetFromAddress toUnsigned pageSize
  rcases hs with rfl | rfl | rfl <;> omega

/-- A translation succeeds through a valid TLB entry for the page. -/
theorem translate_spec {k k' : Kernel} {vaddr : Int} {size paddr : Nat} {writing : Bool}
    (h : k.translate vaddr size writing = .ok (paddr, k')) :
    vaddr % size = 0 ∧ ∃ i f : Nat, (k.tlb i).valid = true ∧
      (k.tlb i).vpn = pageFromAddress vaddr ∧ (k.tlb i).ppn = f ∧
      (writing = true → (k.tlb i).readOnly = false) ∧
      paddr = frameAddr f (offsetFromAddress vaddr) ∧
      k' = k.writeTLBEntry i { k.tlb i with used := true, dirty := (k.tlb i).dirty || writing } := by
  unfold translate at h
  split at h
  · simp at h
  rename_i ha
  split at h
  · simp at h
  rename_i i hi
  have hfound := List.find?_some hi
  simp only [Bool.and_eq_true, beq_iff_eq] at hfound
  dsimp only at h
  split at h
  · simp at h
  rename_i hro
  split at h
  · simp at h
  rename_i hbus
  simp only [Except.ok.injEq, Prod.mk.injEq] at h
  refine ⟨Decidable.not_not.mp ha, i, (k.tlb i).ppn.toNat, hfound.1, hfound.2, by omega, ?_,
    h.1.symm, h.2.symm⟩
  intro hw
  simpa [hw] using hro

/-- A TLB entry that keeps all but its used bit is no change of the view. -/
theorem view_writeTLBEntry_used (k : Kernel) (i : Nat) (e : TranslationEntry)
    (he : e.forget = (k.tlb i).forget) : (k.writeTLBEntry i e).view = k.view := by
  rw [view_writeTLBEntry, he]
  simp only [View.setTlb, view, View.mk.injEq, true_and, and_true]
  exact Function.update_eq_self i fun j => (k.tlb j).forget

/-- A load that does not trap reads through a TLB entry. -/
theorem readMem_chain {k k' : Kernel} {p : Nat} {vaddr : Int} {size : Nat}
    (hcur : k.current = some p) (hs : size = 1 ∨ size = 2 ∨ size = 4) (hu : k.Unpinned)
    (h : k.readMem p vaddr size = .ok k') : Outcome k (.ok k') := by
  unfold readMem at h
  cases ht : k.translate vaddr size false with
  | error e => simp [ht, bind, Except.bind] at h
  | ok r =>
    obtain ⟨paddr, k₁⟩ := r
    obtain ⟨ha, i, f, hv, hvpn, hp, -, rfl, rfl⟩ := translate_spec ht
    simp only [ht, bind, Except.bind, Except.ok.injEq] at h
    subst h
    refine ⟨Chain.single ?_, hu⟩
    have hmicro := Micro.userLoad (m := k.view) hcur hv hp (aligned_offset hs ha)
    have hvpn' : (k.view.tlb i).vpn = pageFromAddress vaddr := hvpn
    rw [hvpn', page_mul_add_offset] at hmicro
    rw [view_emit, view_writeTLBEntry_used _ _ _ (by simp [TranslationEntry.forget])]
    exact hmicro

/-- A store that does not trap writes through a TLB entry and marks it dirty. -/
theorem writeMem_chain {k k' : Kernel} {p : Nat} {vaddr : Int} {bytes : List UInt8}
    (hcur : k.current = some p) (hs : bytes.length = 1 ∨ bytes.length = 2 ∨ bytes.length = 4)
    (hu : k.Unpinned) (h : k.writeMem p vaddr bytes = .ok k') : Outcome k (.ok k') := by
  unfold writeMem at h
  cases ht : k.translate vaddr bytes.length true with
  | error e => simp [ht, bind, Except.bind] at h
  | ok r =>
    obtain ⟨paddr, k₁⟩ := r
    obtain ⟨ha, i, f, hv, hvpn, hp, -, rfl, rfl⟩ := translate_spec ht
    simp only [ht, bind, Except.bind, Except.ok.injEq] at h
    subst h
    refine ⟨Chain.single ?_, hu⟩
    have hmicro := Micro.userStore (m := k.view) hcur hv hp (aligned_offset hs ha)
    have hvpn' : (k.view.tlb i).vpn = pageFromAddress vaddr := hvpn
    rw [hvpn', page_mul_add_offset] at hmicro
    convert hmicro using 1
    have htlb := k.view_writeTLBEntry i
      { k.tlb i with used := true, dirty := (k.tlb i).dirty || true }
    rw [Bool.or_true] at htlb ⊢
    exact congrArg (fun m : View => View.emit { m with
      memory := blit k.memory (frameAddr f (offsetFromAddress vaddr)) bytes.length
        fun j => bytes.getD j 0 } (.wrote p (toUnsigned vaddr) bytes)) htlb

/-! ## Exit -/

/-- The view after the frames of these pages of `p` have been given up. -/
def released (m : View) (p : Nat) (vs : List Nat) : View :=
  { m with frame := fun f =>
      if ∃ v ∈ vs, (m.entry p v).valid = true ∧ (m.entry p v).ppn.toNat = f then none
      else m.frame f }

/-- `unloadSections` on these pages. -/
theorem foldlM_unloadPage {p : Nat} (vs : List Nat) :
    ∀ {k : Kernel}, (∀ v ∈ vs, (k.view.entry p v).valid = true →
      ∃ f : Nat, (k.view.entry p v).ppn = f ∧ f < k.numPhysPages) →
    ∃ k', vs.foldlM (unloadPage p) k = .ok k' ∧ k'.view = released k.view p vs ∧ SamePins k k' := by
  induction vs with
  | nil => exact fun {k} _ => ⟨k, rfl, by simp [released], SamePins.refl⟩
  | cons v vs ih =>
    intro k hb
    -- one page: the frame of a valid entry loses its owner
    have hone : ∃ k₁, unloadPage p k v = .ok k₁ ∧ k₁.view = released k.view p [v] ∧
        SamePins k k₁ := by
      unfold unloadPage
      by_cases hv : (k.pte p v).valid = true
      · obtain ⟨f, hp, hf⟩ := hb v List.mem_cons_self hv
        have hp' : (k.pte p v).ppn = f := hp
        rw [if_pos hv, hp', modifyFrame_of_lt hf]
        refine ⟨_, rfl, ?_, ?_⟩
        · rw [view_setFrame]
          simp only [View.setOwner, released]
          congr 1
          funext g
          have hv' : (k.view.entry p v).valid = true := hv
          by_cases hg : g = f
          · simp [hg, InvertedBucket.owner, hv', hp]
          · have hg' : ¬ f = g := fun h => hg h.symm
            simp [hg, hg', hp]
        · intro g
          simp only [setFrame, Function.update_apply]
          split
          · rename_i h; rw [h]
          · rfl
      · rw [if_neg hv]
        have hv' : ¬ (k.view.entry p v).valid = true := hv
        exact ⟨k, rfl, by simp [released, hv'], SamePins.refl⟩
    obtain ⟨k₁, h₁, hv₁, hp₁⟩ := hone
    have hentry : k₁.view.entry = k.view.entry := by rw [hv₁]; rfl
    have hphys : k₁.numPhysPages = k.numPhysPages := by
      exact (congrArg View.numPhysPages hv₁)
    obtain ⟨k₂, h₂, hv₂, hp₂⟩ := ih (k := k₁) fun w hw => by
      rw [hentry, hphys]
      exact hb w (List.mem_cons_of_mem _ hw)
    refine ⟨k₂, ?_, ?_, hp₁.trans hp₂⟩
    · rw [List.foldlM_cons, h₁]
      exact h₂
    · rw [hv₂, hv₁]
      simp only [released]
      congr 1
      funext g
      by_cases hin : ∃ w ∈ vs, (k.view.entry p w).valid = true ∧
          (k.view.entry p w).ppn.toNat = g
      · simp [hin]
      · simp [hin]

/-- `handleExit` of the running process gives up its frames, and then empties the TLB. -/
theorem handleExit_kill {k : Kernel} (hwf : WF .quiet k.view) (hu : k.Unpinned) {p : Nat}
    (hcur : k.current = some p) :
    k.view.live p = true ∧ ∃ k', k.handleExit p = .ok k' ∧
      Chain (.dying p, k.view.kill p) (.quiet, k'.view) ∧ k'.Unpinned := by
  have hl : k.view.live p = true := (hwf.current p hcur).resolve_right (by simp)
  have hbound : ∀ v ∈ List.range (k.process p).numPages, (k.view.entry p v).valid = true →
      ∃ f : Nat, (k.view.entry p v).ppn = f ∧ f < k.numPhysPages := by
    intro v hv hval
    obtain ⟨f, hf, hlt, -⟩ := hwf.forward p v hl (List.mem_range.mp hv) hval
    exact ⟨f, hf, hlt⟩
  obtain ⟨k₁, h₁, hv₁, hp₁⟩ := foldlM_unloadPage _ hbound
  let k₂ : Kernel := { k₁ with
    process := Function.update k₁.process p { k₁.process p with live := false } }
  -- the released frames and the cleared flag are one change of the view
  have hv₂ : k₂.view = k.view.kill p := by
    have hlive : k₂.view = { k₁.view with live := Function.update k₁.view.live p false } := by
      simp only [k₂, view, pte, View.mk.injEq, true_and, and_true]
      refine ⟨?_, ?_, ?_, ?_, ?_⟩ <;> funext q <;> by_cases h : q = p <;> simp [h]
    rw [hlive, hv₁]
    simp only [released, View.kill]
    congr 1
    funext f
    simp only [List.mem_range]
    rfl
  have hwf₂ : WF (.dying p) k₂.view := hv₂ ▸ WF.micro (Micro.kill hl) hwf
  obtain ⟨k₃, h₃, hc₃, hs₃, htlb₃⟩ := switchOut_chain hwf₂
  refine ⟨hl, { k₃ with current := none }, ?_, ?_, ?_⟩
  · simp only [handleExit, unloadSections, h₁, bind, Except.bind]
    simp only [k₂] at h₃
    rw [h₃]
  · rw [← hv₂]
    exact hc₃.trans (Chain.single (Micro.leave htlb₃))
  · exact hs₃.pins.unpinned (k := k₂) (hp₁.unpinned hu)

/-- `handleExit` of the running process is a chain of changes. -/
theorem handleExit_chain {k : Kernel} (hwf : WF .quiet k.view) (hu : k.Unpinned) {p : Nat}
    (hcur : k.current = some p) : Outcome k (k.handleExit p) := by
  obtain ⟨hl, k', h', hc, hu'⟩ := handleExit_kill hwf hu hcur
  rw [h']
  exact ⟨(Chain.single (Micro.kill hl)).trans hc, hu'⟩

/-- An exception of the running process is handled. -/
theorem handleException_chain {k : Kernel} (hwf : WF .quiet k.view) (hu : k.Unpinned) {p : Nat}
    (hcur : k.current = some p) (vaddr : Int) (random : Fin tlbSize) (e : MipsException) :
    Outcome k (k.handleException p vaddr random e) := by
  have hexit : Outcome k (k.handleExit p) := handleExit_chain hwf hu hcur
  cases e with
  | tlbMiss =>
    simp only [handleException]
    rcases handleTLBMiss_chain hwf hu hcur vaddr random with ⟨h, -⟩ | ⟨k', h, hc, hu'⟩
    · rw [h]
      exact Or.inl rfl
    · rw [h]
      exact ⟨hc, hu'⟩
  | addressError => exact hexit
  | readOnly => exact hexit
  | busError => exact hexit

/-! ## Kernel copies -/

/-- What `verifyVaddr` promises for page `v` of `p`, in frame `f`. -/
structure Verified (k k' : Kernel) (p v f : Nat) (write : Bool) : Prop where
  chain : Chain (.quiet, k.view) (.quiet, k'.view)
  pins : PinnedOnly f k'
  inRange : f < k'.numPhysPages
  valid : (k'.view.entry p v).valid = true
  ppn : (k'.view.entry p v).ppn = f
  dirty : write = true → (k'.view.entry p v).dirty = true
  numPages : k'.view.numPages = k.view.numPages
  live : k'.view.live = k.view.live

/-- `verifyVaddr` on a page that is in memory. -/
theorem verifyVaddr_present {k : Kernel} (hwf : WF .quiet k.view) (hu : k.Unpinned) {p v : Nat}
    (hl : k.view.live p = true) (hn : v < k.view.numPages p)
    (hv : (k.view.entry p v).valid = true) (write : Bool) :
    ∃ k' f, verifyVaddr p k v write = .ok (true, k') ∧ Verified k k' p v f write := by
  obtain ⟨f, hp, hf, -⟩ := hwf.forward p v hl hn hv
  have hval : (k.pte p v).valid = true := hv
  have hppn : (k.pte p v).ppn = f := hp
  have hnle : ¬ (k.process p).numPages ≤ v := Nat.not_le.mpr hn
  let e : Event := .pin p v f (k.invertedPageTable f).pinned
  obtain ⟨k₁, h₁, hs₁, hi₁⟩ := modifyFrame_owner (k := k.emit e) (f := f)
    (g := fun b => { b with
      used := true, pinned := true
      tEntry := { b.tEntry with dirty := b.tEntry.dirty || write } }) hf fun _ => rfl
  -- pinning a page is invisible to the view but for the event it leaves
  have hv₁ : k₁.view = k.view.emit e := hs₁.view
  have hpin₁ : PinnedOnly f k₁ := by
    intro g hg
    rw [hi₁, Function.update_apply, if_neg hg]
    exact hu g
  have hchain : Chain (.quiet, k.view) (.quiet, k₁.view) := by
    rw [hv₁]
    exact Chain.single (Micro.note e rfl)
  have hrun : verifyVaddr p k v write =
      (if write then k₁.modifyPTE p v fun e => { e with dirty := true } else .ok k₁) >>=
        fun k => .ok (true, k) := by
    simp only [verifyVaddr, pinPage, hnle, hval, hppn, if_true, if_false, bind, Except.bind,
      Int.toNat_natCast, e] at h₁ ⊢
    rw [h₁]
  cases write with
  | false =>
    refine ⟨k₁, f, by rw [hrun]; rfl, hchain, hpin₁, ?_, ?_, ?_, by simp, ?_, ?_⟩
    · exact lt_of_lt_of_eq hf (congrArg View.numPhysPages hv₁).symm
    all_goals rw [hv₁]
    · exact hv
    · exact hp
    · rfl
    · rfl
  | true =>
    -- before a write the page is marked dirty as well, which the view does see
    have hn₁ : v < (k₁.process p).numPages :=
      lt_of_lt_of_eq hn (congrFun (congrArg View.numPages hv₁) p).symm
    have hview : (k₁.setPTE p v { k₁.pte p v with dirty := true }).view =
        k₁.view.setEntry p v { k₁.view.entry p v with dirty := true } := by
      rw [view_setPTE]
      rfl
    refine ⟨k₁.setPTE p v { k₁.pte p v with dirty := true }, f, ?_, ?_, hpin₁, ?_, ?_, ?_, ?_,
      ?_, ?_⟩
    · rw [hrun, if_pos rfl, modifyPTE_of_lt hn₁]
      rfl
    · refine hchain.trans (Chain.single ?_)
      rw [hview]
      refine Micro.touch ?_ hn₁ ?_
      · rw [hv₁]; exact hl
      · rw [hv₁]; exact hv
    · exact lt_of_lt_of_eq hf (congrArg View.numPhysPages hv₁).symm
    all_goals rw [hview]
    · simp only [View.setEntry, and_self, if_true, hv₁]
      exact hv
    · simp only [View.setEntry, and_self, if_true, hv₁]
      exact hp
    · simp [View.setEntry]
    · rw [hv₁]; rfl
    · rw [hv₁]; rfl

/-- `verifyVaddr` refuses a page outside the process, and otherwise returns with the page
    in a frame, pinned. -/
theorem verifyVaddr_spec {k : Kernel} (hwf : WF .quiet k.view) (hu : k.Unpinned) {p : Nat}
    (hl : k.view.live p = true) (v : Nat) (write : Bool) :
    verifyVaddr p k v write = .ok (false, k) ∨
    (v < k.view.numPages p ∧
      ∃ k' f, verifyVaddr p k v write = .ok (true, k') ∧ Verified k k' p v f write) := by
  by_cases hn : v < k.view.numPages p
  · refine Or.inr ⟨hn, ?_⟩
    by_cases hv : (k.view.entry p v).valid = true
    · exact verifyVaddr_present hwf hu hl hn hv write
    · obtain ⟨k₁, h₁, hc₁, hk₁, hu₁, hv₁⟩ :=
        pageFault_chain hwf hu hl hn (Bool.eq_false_iff.mpr hv)
      have hn₁ : v < k₁.view.numPages p := hk₁.numPages ▸ hn
      obtain ⟨k', f, h', hver⟩ := verifyVaddr_present (hc₁.invariant WF.micro hwf) hu₁
        (hk₁.live ▸ hl) hn₁ hv₁ write
      refine ⟨k', f, ?_, hc₁.trans hver.chain, hver.pins, hver.inRange, hver.valid, hver.ppn,
        hver.dirty, hver.numPages.trans hk₁.numPages, hver.live.trans hk₁.live⟩
      -- after the fault the page is there, and the rest is the same
      have hval : ¬ (k.pte p v).valid = true := hv
      have hval₁ : (k₁.pte p v).valid = true := hv₁
      have hnle : ¬ (k.process p).numPages ≤ v := Nat.not_le.mpr hn
      have hnle₁ : ¬ (k₁.process p).numPages ≤ v := Nat.not_le.mpr hn₁
      rw [← h']
      simp only [verifyVaddr, hnle, hnle₁, hval, hval₁, if_true, if_false, h₁, bind, Except.bind]
      rfl
  · left
    have hle : (k.process p).numPages ≤ v := Nat.le_of_not_lt hn
    simp only [verifyVaddr, hle, if_true]

/-- One `System.arraycopy` within the frame of a verified page. -/
theorem arraycopy_chain {k k₀ : Kernel} {p v f off n : Nat} {write : Bool}
    (hl : k.view.live p = true) (hn : v < k.view.numPages p) (hver : Verified k₀ k p v f write)
    (hoff : off + n ≤ pageSize) (dataPos : Int) (data : List UInt8) :
    k.arraycopy write p (v * pageSize + off) ((k.pte p v).ppn * pageSize + off) dataPos n data =
      .error .indexOutOfBounds ∨
    ∃ k' data', k.arraycopy write p (v * pageSize + off) ((k.pte p v).ppn * pageSize + off)
        dataPos n data = .ok (k', data') ∧
      Chain (.quiet, k.view) (.quiet, k'.view) ∧ k'.invertedPageTable = k.invertedPageTable ∧
      k'.process = k.process ∧ k'.numPhysPages = k.numPhysPages := by
  have hppn : (k.pte p v).ppn = f := hver.ppn
  have hbase : ((k.pte p v).ppn * pageSize + off).toNat = frameAddr f off := by
    rw [hppn]
    unfold frameAddr
    omega
  unfold arraycopy
  split
  · -- the bounds hold, and the bytes copied lie within the one frame that is pinned
    rename_i hb
    right
    dsimp only
    rw [hbase]
    cases write with
    | false =>
      exact ⟨_, _, rfl, Chain.single (Micro.kernelRead hl hn hver.valid hver.ppn hoff), rfl, rfl,
        rfl⟩
    | true =>
      have hlen : ((data.drop dataPos.toNat).take n).length = n := by
        rw [List.length_take, List.length_drop]
        omega
      refine ⟨_, _, rfl, Chain.single ?_, rfl, rfl, rfl⟩
      have hfits : off + ((data.drop dataPos.toNat).take n).length ≤ pageSize := by
        rw [hlen]
        exact hoff
      have hmicro := Micro.kernelWrite hl hn hver.valid (hver.dirty rfl) hver.ppn hfits
      rw [hlen] at hmicro
      exact hmicro
  · exact Or.inl rfl

/-- What a kernel copy may come to. -/
def CopyOutcome (k : Kernel) : Except Halt (Nat × Kernel × List UInt8) → Prop
  | .ok (_, k', _) => Chain (.quiet, k.view) (.quiet, k'.view) ∧ k'.Unpinned
  | .error e => e = .indexOutOfBounds

/-- The copy loop ends: each iteration copies at least one byte, or is the last. -/
theorem copyLoop_chain {write : Bool} {p : Nat} {vaddr offset : Int} {length : Nat} :
    ∀ {fuel byteNum : Nat} {k : Kernel} {data : List UInt8}, WF .quiet k.view → k.Unpinned →
    k.view.live p = true → length - byteNum < fuel →
    CopyOutcome k (copyLoop (verifyVaddr p) (verifyClean p) write p vaddr offset length fuel
      byteNum k data) := by
  intro fuel
  induction fuel with
  | zero => intro _ _ _ _ _ _ h; omega
  | succ fuel ih =>
    intro byteNum k data hwf hu hl hfuel
    unfold copyLoop
    -- the page may be refused, and then the loop ends where it is
    rcases verifyVaddr_spec hwf hu hl (pageFromAddress (vaddr + byteNum)) write with
      h | ⟨hn, k₁, f, h₁, hver⟩
    · simp only [h, bind, Except.bind]
      exact ⟨Chain.refl, hu⟩
    simp only [h₁, bind, Except.bind, Bool.not_true, Bool.false_eq_true, if_false]
    -- names for the page, the offset in it and the number of bytes of this round
    generalize hv : pageFromAddress (vaddr + byteNum) = v at *
    generalize hoffdef : offsetFromAddress (vaddr + byteNum) = off at *
    have hofflt : off < pageSize := hoffdef ▸ offsetFromAddress_lt _
    have haddr : toUnsigned (vaddr + byteNum) = v * pageSize + off := by
      rw [← hv, ← hoffdef, page_mul_add_offset]
    have hl₁ : k₁.view.live p = true := hver.live ▸ hl
    have hn₁ : v < k₁.view.numPages p := hver.numPages ▸ hn
    generalize hcount : min (pageSize - off) (length - byteNum) = count
    rcases @arraycopy_chain k₁ k p v f off count write hl₁ hn₁ hver (by omega)
      (wrap32 (offset + byteNum)) data with h₂ | ⟨k₂, data₂, h₂, hc₂, hi₂, hp₂, hf₂⟩
    · simp only [haddr, h₂]
      rfl
    simp only [haddr, h₂]
    have hppn₂ : (k₂.pte p v).ppn = f := by
      simp only [pte, hp₂]
      exact hver.ppn
    obtain ⟨k₃, h₃, hs₃, hu₃⟩ := unpin_spec (k := k₂) (f := f) (hf₂ ▸ hver.inRange)
      fun g hg => by rw [hi₂]; exact hver.pins g hg
    have hclean : verifyClean p k₂ v = .ok k₃ := by rw [verifyClean, hppn₂, h₃]
    -- after the copy the page is unpinned, so the next round starts as this one did
    have hchain : Chain (.quiet, k.view) (.quiet, k₃.view) := by
      rw [hs₃.view]
      exact hver.chain.trans hc₂
    simp only [hclean]
    split
    · have hl₃ : k₃.view.live p = true := by
        rw [hs₃.view]
        simp only [view, hp₂]
        exact hl₁
      have := @ih (byteNum + count) k₃ data₂ (hchain.invariant WF.micro hwf) hu₃ hl₃
        (by omega)
      revert this
      cases copyLoop (verifyVaddr p) (verifyClean p) write p vaddr offset length fuel
          (byteNum + count) k₃ data₂ with
      | error e => exact id
      | ok r => exact fun h => ⟨hchain.trans h.1, h.2⟩
    · exact ⟨hchain, hu₃⟩

/-- `readVirtualMemory` and `writeVirtualMemory` of a live process. -/
theorem copyVirtualMemory_chain {k : Kernel} (hwf : WF .quiet k.view) (hu : k.Unpinned) {p : Nat}
    (hl : k.view.live p = true) (write : Bool) (vaddr : Int) (data : List UInt8)
    (offset length : Int) :
    CopyOutcome k (copyVirtualMemory (verifyVaddr p) (verifyClean p) write k p vaddr data offset
      length) := by
  unfold copyVirtualMemory
  split
  · exact ⟨Chain.refl, hu⟩
  split
  · exact ⟨Chain.refl, hu⟩
  · exact copyLoop_chain hwf hu hl (by omega)

/-! ## Loading -/

/-- A contiguous executable covers its pages. -/
theorem coffPages_covers {sections : List CoffSection} :
    ∀ {first n v : Nat}, coffPages first sections = some n → first ≤ v → v < n →
    ∃ s ∈ sections, s.covers v = true := by
  induction sections with
  | nil =>
    intro first n v h hv hn
    simp only [coffPages, Option.some.injEq] at h
    omega
  | cons s rest ih =>
    intro first n v h hv hn
    simp only [coffPages, ne_eq, ite_not] at h
    split at h
    · rename_i hfirst
      by_cases hs : v < first + s.numPages
      · refine ⟨s, List.mem_cons_self, ?_⟩
        simp only [CoffSection.covers, decide_eq_true_eq]
        omega
      · obtain ⟨s', hs', hc⟩ := ih h (by omega) hn
        exact ⟨s', List.mem_cons_of_mem _ hs', hc⟩
    · simp at h

/-- The tables `loadSections` makes for an executable that `load` accepts. -/
theorem fresh_loadSections {sections : List CoffSection} {n : Nat}
    (h : coffPages 0 sections = some n) :
    (loadSections (n + stackPages + 1) sections).Fresh := by
  refine ⟨rfl, fun _ => rfl, fun _ => rfl, fun _ => rfl, fun v hv => ?_⟩
  have hv' : v < n := by
    simp only [loadSections] at hv
    omega
  obtain ⟨s, hs, hc⟩ := coffPages_covers h (Nat.zero_le v) hv'
  simp only [loadSections, mapSections]
  cases hfind : sections.reverse.find? (·.covers v) with
  | none =>
    have := List.find?_eq_none.mp hfind s (List.mem_reverse.mpr hs)
    exact absurd hc this
  | some s' =>
    have hc' := List.find?_some hfind
    simp only [CoffSection.covers, decide_eq_true_eq] at hc'
    refine ⟨s', rfl, ?_, ?_⟩
    · dsimp only; omega
    · dsimp only; omega

/-- `load` makes a new process, or refuses the executable. -/
theorem load_chain {k : Kernel} (hu : k.Unpinned) (sections : List CoffSection) :
    Outcome k (.ok (k.load sections)) := by
  unfold load
  cases h : coffPages 0 sections with
  | none => exact Outcome.self hu
  | some n =>
    refine ⟨Chain.single ?_, hu⟩
    have hview : ∀ child : VMProcess, ({ k with
        process := Function.update k.process k.numProcesses child
        numProcesses := k.numProcesses + 1 } : Kernel).view = k.view.spawn child := by
      intro child
      simp only [view, pte, View.spawn, View.mk.injEq, true_and, and_true]
      refine ⟨?_, ?_, ?_, ?_, ?_⟩ <;> funext q <;> by_cases hq : q = k.numProcesses <;>
        simp [hq]
    rw [hview]
    exact Micro.spawn (fresh_loadSections h)

/-! ## Steps and runs -/

/-- A user access either goes through, or traps into the kernel. -/
theorem userAccess_chain {k : Kernel} (hwf : WF .quiet k.view) (hu : k.Unpinned) (vaddr : Int)
    (size : Nat) (random : Fin tlbSize) (access : Nat → Except MipsException Kernel)
    (haccess : ∀ p k', k.current = some p → (size = 1 ∨ size = 2 ∨ size = 4) →
      access p = .ok k' → Outcome k (.ok k')) :
    Outcome k (k.userAccess vaddr size random access) := by
  unfold userAccess
  cases hcur : k.current with
  | none => exact Outcome.self hu
  | some p =>
    dsimp only
    split
    · rename_i hs
      cases h : access p with
      | ok k' => exact haccess p k' hcur hs h
      | error e => exact handleException_chain hwf hu hcur vaddr random e
    · exact Or.inl rfl

/-- Every operation is a chain of changes, or stops in a check. -/
theorem step_chain {k : Kernel} (hwf : WF .quiet k.view) (hu : k.Unpinned) (op : Op) :
    Outcome k (k.step op) := by
  -- reads and writes by the kernel are one loop
  have hcopy : ∀ {p : Nat} (write : Bool) (vaddr : Int) (data : List UInt8) (offset length : Int),
      k.isLive p = true → Outcome k (copyVirtualMemory (verifyVaddr p) (verifyClean p) write k p
        vaddr data offset length >>= fun copied => .ok copied.2.1) := by
    intro p write vaddr data offset length hl
    have h := copyVirtualMemory_chain hwf hu hl write vaddr data offset length
    revert h
    cases copyVirtualMemory (verifyVaddr p) (verifyClean p) write k p vaddr data offset length with
    | error e => exact fun h => Or.inr h
    | ok r => exact fun h => h
  cases op with
  | load sections => exact load_chain hu sections
  | userLoad vaddr size random =>
    exact userAccess_chain hwf hu vaddr size random _ fun p k' hcur hs h =>
      readMem_chain hcur hs hu h
  | userStore vaddr bytes random =>
    exact userAccess_chain hwf hu vaddr bytes.length random _ fun p k' hcur hs h =>
      writeMem_chain hcur hs hu h
  | kernelRead p vaddr data offset length =>
    simp only [step]
    split
    · exact hcopy false vaddr data offset length ‹_›
    · exact Outcome.self hu
  | kernelWrite p vaddr data offset length =>
    simp only [step]
    split
    · exact hcopy true vaddr data offset length ‹_›
    · exact Outcome.self hu
  | contextSwitch next =>
    simp only [step]
    split
    · rename_i hlive
      obtain ⟨k₁, h₁, hc₁, hs₁, htlb₁⟩ := switchOut_chain hwf
      simp only [h₁, bind, Except.bind]
      refine ⟨hc₁.trans (Chain.single (Micro.switchTo htlb₁ ?_)), hs₁.pins.unpinned hu⟩
      intro p hp
      subst hp
      rw [hs₁.keeps.live]
      exact hlive
    · exact Outcome.self hu
  | exit =>
    simp only [step]
    split
    · exact Outcome.self hu
    · rename_i p hcur
      exact handleExit_chain hwf hu hcur

/-- The tables of the booted kernel. -/
theorem wf_initKernel {n : Nat} (hn : 0 < n) (ioBlocks : Bool) :
    WF .quiet (initKernel n ioBlocks).view := by
  refine ⟨hn, ?_, ?_, ?_, trivial, ?_, ?_, ?_, ?_⟩ <;>
    simp [initKernel, view, pte, InvertedBucket.owner, TranslationEntry.forget]

/-- A run that comes to its end is a chain of changes. -/
theorem run_chain {ops : List Op} : ∀ {k k' : Kernel}, WF .quiet k.view → k.Unpinned →
    k.run ops = .ok k' → Chain (.quiet, k.view) (.quiet, k'.view) ∧ k'.Unpinned := by
  induction ops with
  | nil =>
    intro k k' hwf hu h
    obtain rfl : k = k' := by simpa [run, pure, Except.pure] using h
    exact ⟨Chain.refl, hu⟩
  | cons op ops ih =>
    intro k k' hwf hu h
    have hstep := step_chain hwf hu op
    simp only [run, List.foldlM_cons, bind, Except.bind] at h
    cases hop : k.step op with
    | error e => simp [hop] at h
    | ok k₁ =>
      rw [hop] at h hstep
      obtain ⟨hc, hu'⟩ := ih (hstep.1.invariant WF.micro hwf) hstep.2 h
      exact ⟨hstep.1.trans hc, hu'⟩

/-- What every change preserves holds in every state that a run reaches. -/
theorem run_invariant {I : Phase → View → Prop} {n : Nat} {ioBlocks : Bool} (hn : 0 < n)
    (hinit : I .quiet (initKernel n ioBlocks).view)
    (hstep : ∀ {ph m ph' m'}, Micro ph m ph' m' → I ph m → I ph' m')
    {ops : List Op} {k : Kernel} (h : (initKernel n ioBlocks).run ops = .ok k) : I .quiet k.view :=
  (run_chain (wf_initKernel hn ioBlocks) (fun _ => rfl) h).1.invariant hstep hinit

/-! ## The two tables -/

/-- The frame table and the page tables of the live processes are inverse to each other. -/
structure TablesInverse (k : Kernel) : Prop where
  /-- An assigned frame names a page that names it back. -/
  frame : ∀ f < k.numPhysPages, (k.invertedPageTable f).assigned = true →
    ∃ p, (k.invertedPageTable f).process = some p ∧ (k.process p).live = true ∧
      (k.invertedPageTable f).tEntry.vpn < (k.process p).numPages ∧
      (k.pte p (k.invertedPageTable f).tEntry.vpn).valid = true ∧
      (k.pte p (k.invertedPageTable f).tEntry.vpn).ppn = f
  /-- A valid entry names a frame that names it back. -/
  page : ∀ p v, (k.process p).live = true → v < (k.process p).numPages →
    (k.pte p v).valid = true → ∃ f : Nat, (k.pte p v).ppn = f ∧ f < k.numPhysPages ∧
      (k.invertedPageTable f).assigned = true ∧ (k.invertedPageTable f).process = some p ∧
      (k.invertedPageTable f).tEntry.vpn = v
  /-- No two valid entries share a frame. -/
  distinct : ∀ p v p' v', (k.process p).live = true → v < (k.process p).numPages →
    (k.pte p v).valid = true → (k.process p').live = true → v' < (k.process p').numPages →
    (k.pte p' v').valid = true → (k.pte p v).ppn = (k.pte p' v').ppn → p = p' ∧ v = v'

/-- Well-formed tables are inverse to each other. -/
theorem tablesInverse_of_wf {k : Kernel} (hwf : WF .quiet k.view) : TablesInverse k where
  frame f hf ha := owner_of_assigned hwf hf ha
  page p v hl hn hv := by
    obtain ⟨f, hp, hf, ho⟩ := hwf.forward p v hl hn hv
    refine ⟨f, hp, hf, ?_⟩
    simp only [view, InvertedBucket.owner] at ho
    split at ho
    · rename_i ha
      simpa [ha] using ho
    · simp at ho
  distinct p v p' v' hl hn hv hl' hn' hv' h := hwf.entry_inj hl hn hv hl' hn' hv' h

/-- After every operation of every run the two tables are inverse to each other. The next
    operation, whichever it is, returns or fails one of the two checks: in particular
    `evictPage` never calls a null process. -/
theorem run_tablesInverse {n : Nat} (hn : 0 < n) {ioBlocks : Bool} {ops : List Op} {k : Kernel}
    (h : (initKernel n ioBlocks).run ops = .ok k) :
    TablesInverse k ∧ (∀ f < k.numPhysPages, (k.invertedPageTable f).assigned = true →
      ∃ k', k.evictPage f = .ok k') ∧
    ∀ op, k.step op ≠ .error .nullPointer ∧
      ((∃ k', k.step op = .ok k') ∨ k.step op = .error .assertion ∨
        k.step op = .error .indexOutOfBounds) := by
  obtain ⟨hc, hu⟩ := run_chain (wf_initKernel hn ioBlocks) (fun _ => rfl) h
  have hwf : WF .quiet k.view := hc.invariant WF.micro (wf_initKernel hn ioBlocks)
  refine ⟨tablesInverse_of_wf hwf, fun f hf ha => ?_, fun op => ?_⟩
  · obtain ⟨k', h', -⟩ := evictPage_chain hwf hu hf ha
    exact ⟨k', h'⟩
  · have hstep := step_chain hwf hu op
    cases hop : k.step op with
    | ok k' => exact ⟨by simp, Or.inl ⟨k', rfl⟩⟩
    | error e =>
      rw [hop] at hstep
      rcases hstep with rfl | rfl <;> simp

/-- One frame, two processes: each fault evicts the other's page. -/
theorem run_tablesInverse_two_processes :
    ∃ k, (initKernel 1 true).run [.load emptySections, .load emptySections, .contextSwitch (some 0),
      .userStore 0 [7] ⟨0, by decide⟩, .contextSwitch (some 1),
      .userLoad 0 1 ⟨0, by decide⟩, .exit] = .ok k ∧ TablesInverse k := by
  obtain ⟨k, hk, -⟩ := Except.exists_of_map_eq_ok
    (r := (initKernel 1 true).run [.load emptySections, .load emptySections,
      .contextSwitch (some 0), .userStore 0 [7] ⟨0, by decide⟩, .contextSwitch (some 1),
      .userLoad 0 1 ⟨0, by decide⟩, .exit]) (fun _ => true) (by decide +kernel)
  exact ⟨k, hk, (run_tablesInverse (by decide) hk).1⟩

end Kernel

end Nachos
