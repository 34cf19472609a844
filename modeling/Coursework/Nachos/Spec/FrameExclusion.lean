import Coursework.Nachos.Spec.Shapes

/-!
# Frame exclusivity under interleaving

Every step of the interleaved kernel keeps `Exclusive`, as long as two things do not
happen that the code does not prevent. `verifyVaddr` must not pin a frame that is pinned
already: `pinned` is a single bit, and the thread that pinned the frame first goes on to
clear it and to give the frame away. And the clock must not hand out a pinned frame: it
looks at `assigned` first, and the frame of a page that is being saved is unassigned when
its process exits.
-/

namespace Nachos

open Except (bind_eq_ok)

/-- `verifyVaddr` pinned a pinned frame, or the clock handed one out. -/
def Event.mispins : Event → Bool
  | .pin _ _ _ already => already
  | .claim _ pinned => pinned
  | _ => false

/-- No pinned frame was pinned again or handed out. -/
def NoMispin (trace : List Event) : Prop := ∀ e ∈ trace, e.mispins = false

theorem NoMispin.suffix {trace trace' : List Event} (h : NoMispin trace') (hs : trace <:+ trace') :
    NoMispin trace := fun e he => h e (hs.mem he)

/-- What a thread holds at a point of the code. -/
def Pc.win : Pc → Win
  | .idle => .idle
  | .asleep vpn _ _ => .waiting vpn
  | .saving vpn _ availablePage owner victim _ _ _ => .saving vpn availablePage owner victim
  | .loading vpn _ ppn _ _ => .loading vpn ppn
  | .copying vpn frame => .copying vpn frame

@[simp] theorem Pc.win_wake (pc : Pc) : pc.wake.win = pc.win := by
  cases pc <;> rfl

theorem Pc.win_ne_filling (pc : Pc) (v f : Nat) : pc.win ≠ .filling v f := by
  cases pc <;> simp [Pc.win]

namespace World

/-- What the threads hold. -/
def wins (w : World) : Nat → Win := fun p => (w.pc p).win

/-- The page being saved is in the frame that the fault is to get. -/
def SavesVictim (pc : Nat → Pc) : Prop :=
  ∀ p vpn caller f owner victim ppn spn written,
    pc p = .saving vpn caller f owner victim ppn spn written → ppn = (f : Int)

/-- The invariant of every interleaving. -/
structure Inv (w : World) : Prop where
  pos : 0 < w.kernel.numPhysPages
  exclusive : Exclusive w.kernel.shape w.wins
  saves : SavesVictim w.pc

theorem wins_goto (w : World) (p : Nat) (pc : Pc) (k : Kernel) :
    (w.goto p pc k).wins = Function.update w.wins p pc.win := by
  funext q
  by_cases hq : q = p <;> simp [wins, goto, hq]

theorem wins_wakeAll (w : World) : w.wakeAll.wins = w.wins := by
  funext q
  simp [wins, wakeAll]

theorem savesVictim_goto {w : World} (h : SavesVictim w.pc) {p : Nat} {pc : Pc} {k : Kernel}
    (hpc : ∀ vpn caller f owner victim ppn spn written,
      pc = .saving vpn caller f owner victim ppn spn written → ppn = (f : Int)) :
    SavesVictim (w.goto p pc k).pc := by
  intro q vpn caller f owner victim ppn spn written hq
  by_cases hqp : q = p
  · subst hqp
    simp only [goto, Function.update_self] at hq
    exact hpc _ _ _ _ _ _ _ _ hq
  · simp only [goto, Function.update_of_ne hqp] at hq
    exact h q _ _ _ _ _ _ _ _ hq

theorem savesVictim_wakeAll {w : World} (h : SavesVictim w.pc) : SavesVictim w.wakeAll.pc := by
  intro q vpn caller f owner victim ppn spn written hq
  simp only [wakeAll] at hq
  refine h q vpn caller f owner victim ppn spn written ?_
  cases hpc : w.pc q <;> simp [hpc, Pc.wake] at hq ⊢
  exact hq

variable {w w' : World} {k : Kernel} {p v : Nat} {caller : Caller}

/-- Between steps no frame is assigned and not filled. -/
theorem update_ne_filling (w : World) (p : Nat) {x : Win} (hx : ∀ v f, x ≠ .filling v f)
    (q v f : Nat) : Function.update w.wins p x q ≠ .filling v f := by
  by_cases hq : q = p
  · subst hq
    simpa using hx v f
  · simpa [hq, wins] using (w.pc q).win_ne_filling v f

theorem finishFault_trace (h : w.finishFault p v k caller = .ok w') :
    k.trace <:+ w'.kernel.trace := by
  cases caller with
  | handleTLBMiss random =>
    obtain rfl := Except.ok.inj h
    exact (k.same_addToTLB p v random).trace
  | verifyVaddr write =>
    simp only [finishFault, bind_eq_ok] at h
    obtain ⟨k', h₁, h₂⟩ := h
    obtain rfl := Except.ok.inj h₂
    exact (Kernel.shape_pinPage h₁).2.1

theorem fill_trace {f : Nat} (h : w.fill p v caller f k = .ok w') :
    k.trace <:+ w'.kernel.trace := by
  unfold fill at h
  dsimp only at h
  split at h
  · rw [bind_eq_ok] at h
    obtain ⟨k₂, h₂, h₃⟩ := h
    obtain rfl := Except.ok.inj h₃
    obtain ⟨-, -, rfl⟩ := Kernel.modifyFrame_eq_ok h₂
    exact List.suffix_rfl
  · rename_i hd
    rw [bind_eq_ok] at h
    obtain ⟨k₂, h₂, h₃⟩ := h
    have htrace := (Kernel.shape_initializePage (Bool.eq_false_iff.mpr hd) h₂).2
    exact List.IsSuffix.trans htrace (finishFault_trace h₃)

theorem evict_trace {f : Nat} (h : w.evict p v caller f k = .ok w') :
    k.trace <:+ w'.kernel.trace := by
  unfold evict at h
  dsimp only at h
  split at h
  · simp at h
  split at h
  · simp at h
  split at h
  · rw [bind_eq_ok] at h
    obtain ⟨⟨spn, k₁⟩, h₁, h₂⟩ := h
    obtain rfl := Except.ok.inj h₂
    exact (Kernel.shape_addToSwapBegin h₁).2 ▸ List.suffix_rfl
  · rw [bind_eq_ok] at h
    obtain ⟨k₁, h₁, h₂⟩ := h
    exact (Kernel.shape_invalidate h₁).2.trans (fill_trace h₂)

theorem pageFault_trace (h : w.pageFault p v caller k = .ok w') : k.trace <:+ w'.kernel.trace := by
  unfold pageFault at h
  rw [bind_eq_ok] at h
  obtain ⟨⟨r, k₁⟩, h₁, h⟩ := h
  have htrace := (Kernel.same_clockLoop h₁).trace
  cases r with
  | none =>
    obtain rfl := Except.ok.inj h
    exact htrace
  | some f =>
    dsimp only at h
    split at h
    · exact htrace.trans (evict_trace h)
    · exact htrace.trans (fill_trace h)

theorem needPage_trace (h : w.needPage p v caller = .ok w') :
    w.kernel.trace <:+ w'.kernel.trace := by
  unfold needPage at h
  split at h
  · exact finishFault_trace h
  · exact pageFault_trace h

theorem resume_trace (h : w.resume p = .ok w') : w.kernel.trace <:+ w'.kernel.trace := by
  unfold resume at h
  split at h
  · exact pageFault_trace h
  · simp only [bind_eq_ok] at h
    obtain ⟨k₁, h₁, k₂, h₂, k₃, h₃, h⟩ := h
    obtain ⟨-, rfl⟩ := Kernel.modifyPTE_eq_ok h₂
    have htrace : w.kernel.trace <:+ k₃.trace :=
      (Kernel.shape_unpin h₁).2 ▸ (Kernel.shape_invalidate h₃).2
    exact htrace.trans (fill_trace h)
  · simp only [bind_eq_ok] at h
    obtain ⟨k₁, h₁, k₂, h₂, h⟩ := h
    obtain ⟨-, hk₂⟩ := Kernel.modifyPTE_eq_ok h₂
    have htrace : k₂.trace = k₁.trace := by rw [hk₂]; rfl
    have hfinish := finishFault_trace h
    rwa [htrace, (Kernel.shape_unpin h₁).2] at hfinish
  · obtain rfl := Except.ok.inj h
    exact List.suffix_rfl

theorem transfer_trace (w : World) (p : Nat) :
    w.kernel.trace <:+ (w.transfer p).kernel.trace := by
  unfold transfer
  split
  · exact (Kernel.same_swapWrite _ _ _).trace
  · exact (Kernel.same_swapRead _ _ _).trace
  · exact List.suffix_rfl

theorem userAccess_trace {vaddr : Int} {random : Fin tlbSize}
    {result : Except MipsException Kernel}
    (hres : ∀ k', result = .ok k' → Kernel.Same w.kernel k')
    (h : w.userAccess p vaddr random result = .ok w') : w.kernel.trace <:+ w'.kernel.trace := by
  unfold userAccess at h
  split at h
  · obtain rfl := Except.ok.inj h
    exact (hres _ rfl).trace
  · split at h
    · exact needPage_trace h
    · simp at h
  · rw [bind_eq_ok] at h
    obtain ⟨k₁, h₁, h₂⟩ := h
    obtain rfl := Except.ok.inj h₂
    exact Kernel.handleExit_trace h₁

theorem act_trace {action : Action} (h : w.act p action = .ok w') :
    w.kernel.trace <:+ w'.kernel.trace := by
  -- an action whose guard fails changes nothing
  have hstay : .ok w = Except.ok (ε := Halt) w' → w.kernel.trace <:+ w'.kernel.trace := by
    intro h
    obtain rfl := Except.ok.inj h
    exact List.suffix_rfl
  cases action with
  | load sections =>
    obtain rfl := Except.ok.inj h
    exact (w.kernel.shape_load sections).2 ▸ List.suffix_rfl
  | contextSwitch next => exact hstay h
  | userLoad vaddr size random =>
    simp only [act] at h
    split at h
    · exact userAccess_trace (fun _ => Kernel.same_readMem) h
    · exact hstay h
  | userStore vaddr bytes random =>
    simp only [act] at h
    split at h
    · exact userAccess_trace (fun _ => Kernel.same_writeMem) h
    · exact hstay h
  | verifyVaddr vpn write =>
    simp only [act] at h
    split at h
    · exact needPage_trace h
    · exact hstay h
  | copy write pageOffset n data =>
    simp only [act, copy] at h
    split at h
    · rw [bind_eq_ok] at h
      obtain ⟨⟨k₁, _⟩, h₁, h₂⟩ := h
      obtain rfl := Except.ok.inj h₂
      exact (Kernel.same_arraycopy h₁).trace
    · exact hstay h
  | verifyClean =>
    simp only [act, clean] at h
    split at h
    · rw [bind_eq_ok] at h
      obtain ⟨k₁, h₁, h₂⟩ := h
      obtain rfl := Except.ok.inj h₂
      exact (Kernel.shape_unpin h₁).2 ▸ List.suffix_rfl
    · exact hstay h
  | transfer =>
    obtain rfl := Except.ok.inj h
    exact transfer_trace w p
  | resume => exact resume_trace h
  | exit =>
    simp only [act] at h
    split at h
    · rw [bind_eq_ok] at h
      obtain ⟨k₁, h₁, h₂⟩ := h
      obtain rfl := Except.ok.inj h₂
      exact Kernel.handleExit_trace h₁
    · exact hstay h

/-- What a step can be. -/
theorem step_cases {action : Action} (h : w.step action = .ok w') :
    (∃ next k', next.all w.kernel.isLive = true ∧ w.kernel.switchOut = .ok k' ∧
      w' = { w with kernel := { k' with current := next } }) ∨
    (∃ p, w.kernel.current = some p ∧ w.act p action = .ok w') ∨
    (∃ sections, w' = { w with kernel := w.kernel.load sections }) ∨ w' = w := by
  by_cases hswitch : ∃ next, action = .contextSwitch next
  · obtain ⟨next, rfl⟩ := hswitch
    simp only [step] at h
    split at h
    · rename_i hnext
      rw [bind_eq_ok] at h
      obtain ⟨k₁, h₁, h₂⟩ := h
      exact Or.inl ⟨next, k₁, hnext, h₁, (Except.ok.inj h₂).symm⟩
    · exact Or.inr (Or.inr (Or.inr (Except.ok.inj h).symm))
  · unfold step at h
    split at h
    · exact absurd ⟨_, rfl⟩ hswitch
    split at h
    · rename_i hcur _
      exact Or.inr (Or.inl ⟨_, hcur, h⟩)
    · exact Or.inr (Or.inr (Or.inl ⟨_, (Except.ok.inj h).symm⟩))
    · exact Or.inr (Or.inr (Or.inr (Except.ok.inj h).symm))

/-- A step only adds to the history. -/
theorem step_trace {action : Action} (h : w.step action = .ok w') :
    w.kernel.trace <:+ w'.kernel.trace := by
  obtain ⟨next, k₁, -, h₁, rfl⟩ | ⟨p, -, h₁⟩ | ⟨sections, rfl⟩ | rfl := step_cases h
  · exact (Kernel.same_switchOut h₁).trace
  · exact act_trace h₁
  · exact (w.kernel.shape_load sections).2 ▸ List.suffix_rfl
  · exact List.suffix_rfl

theorem run_trace {actions : List Action} (h : w.run actions = .ok w') :
    w.kernel.trace <:+ w'.kernel.trace :=
  Except.foldlM_invariant (R := fun a b : World => a.kernel.trace <:+ b.kernel.trace)
    (fun _ => List.suffix_rfl) List.IsSuffix.trans step_trace h

/-! ## The invariant -/

/-- The caller of `pageFault` finds its page in frame `f`. -/
theorem finishFault_inv (hpos : 0 < k.numPhysPages) (hsav : SavesVictim w.pc) {f : Nat}
    (hex : Exclusive k.shape (Function.update w.wins p .idle)) (hp : Present k.shape p v f)
    (h : w.finishFault p v k caller = .ok w') (hev : NoMispin w'.kernel.trace) : Inv w' := by
  cases caller with
  | handleTLBMiss random =>
    obtain rfl := Except.ok.inj h
    have hs := k.same_addToTLB p v random
    refine ⟨Nat.lt_of_lt_of_eq hpos (congrArg Shape.numPhysPages hs.shape).symm, ?_,
      savesVictim_goto hsav (by simp)⟩
    rw [wins_goto]
    exact hs.shape.symm ▸ hex
  | verifyVaddr write =>
    simp only [finishFault, bind_eq_ok] at h
    obtain ⟨k', h₁, h₂⟩ := h
    obtain rfl := Except.ok.inj h₂
    obtain ⟨hshape, -, hpin⟩ := Kernel.shape_pinPage h₁
    have hppn : (k.pte p v).ppn = f := (TranslationEntry.mapped_eq_some.mp hp.entry).2
    rw [hppn, Int.toNat_natCast] at hshape hpin
    refine ⟨?_, ?_, savesVictim_goto hsav (by simp)⟩
    · exact Nat.lt_of_lt_of_eq hpos (congrArg Shape.numPhysPages hshape).symm
    · -- the frame was not pinned, so no other thread holds it
      have hfree : k.shape.pinned f = false := hev _ hpin
      have hfill := w.update_ne_filling p (x := .idle) (by simp)
      rw [wins_goto, hppn, Int.toNat_natCast]
      have hhold := hex.hold (p := p) (f := f) (x := .copying v f) hp.live rfl
        (fun q _ => hex.frame_ne hfill hfree q) (by simp [Win.opens])
        ⟨⟨hp.live, hp.inRange, hp.entry⟩, by simp [Shape.setPinned]⟩
      rw [Function.update_idem] at hhold
      exact hshape.symm ▸ hhold

/-- A frame has just been assigned to the missing page. -/
theorem fill_inv (hpos : 0 < k.numPhysPages) (hsav : SavesVictim w.pc) {f : Nat}
    (hex : Exclusive (k.shape.setOwner f (some (some p, v)))
      (Function.update w.wins p (.filling v f)))
    (h : w.fill p v caller f k = .ok w') (hev : NoMispin w'.kernel.trace) : Inv w' := by
  have hshape := k.shape_assignPage f p v
  have hphys : (k.assignPage f p v).numPhysPages = k.numPhysPages := rfl
  obtain ⟨hmiss, hf, howner⟩ : Win.Ok (k.shape.setOwner f (some (some p, v))) p (.filling v f) := by
    simpa using hex.ok p
  unfold fill at h
  dsimp only at h
  generalize k.assignPage f p v = k₁ at h hshape hphys
  rw [← hshape] at hex hmiss howner
  split at h
  · -- the page is on swap: the frame is pinned for the read
    rw [bind_eq_ok] at h
    obtain ⟨k₂, h₂, h₃⟩ := h
    obtain rfl := Except.ok.inj h₃
    obtain ⟨-, -, rfl⟩ := Kernel.modifyFrame_eq_ok h₂
    refine ⟨hphys ▸ hpos, ?_, savesVictim_goto hsav (by simp)⟩
    rw [wins_goto]
    have hself : Function.update w.wins p (.filling v f) p = .filling v f := by simp
    have hhold := hex.hold (p := p) (f := f) (x := .loading v f) hmiss.live rfl
      (fun q hq hfr => hq (hex.apart q p f hfr (by rw [hself]; rfl)))
      (fun w g hop => by rw [hself] at hop; exact hop)
      ⟨⟨hmiss.live, hmiss.inRange, hmiss.invalid⟩, by rw [← hshape] at hf; exact hf, howner,
        by simp [Shape.setPinned]⟩
    rw [Function.update_idem] at hhold
    rw [Int.toNat_natCast]
    exact (Kernel.shape_setFrame_pinned (k := k₁) (f := f)
      (b := { k₁.invertedPageTable f with pinned := true }) rfl).symm ▸ hhold
  · rename_i hd
    rw [bind_eq_ok] at h
    obtain ⟨k₂, h₂, h₃⟩ := h
    obtain ⟨hshape₂, -⟩ := Kernel.shape_initializePage (Bool.eq_false_iff.mpr hd) h₂
    have hfill := hex.fill k₁.shape.pinned (p := p) (v := v) (f := f)
      (Or.inl (by simp)) fun _ _ => rfl
    rw [Function.update_idem] at hfill
    have hex₂ : Exclusive k₂.shape (Function.update w.wins p .idle) := hshape₂.symm ▸ hfill
    have hpos₁ : 0 < k₁.numPhysPages := hphys ▸ hpos
    have hpos₂ : 0 < k₂.numPhysPages :=
      Nat.lt_of_lt_of_eq hpos₁ (congrArg Shape.numPhysPages hshape₂).symm
    refine finishFault_inv (f := f) hpos₂ hsav hex₂ ?_ h₃ hev
    rw [hshape₂]
    exact ⟨hmiss.live, hmiss.inRange, by simp [Shape.setEntry]⟩

/-- An entry is given up for the frame it names, which is assigned to a missing page. -/
theorem take_inv {k₀ : Kernel} (hpos : 0 < k.numPhysPages) (hsav : SavesVictim w.pc)
    {x : Win} {f : Nat} (hex : Exclusive k₀.shape (Function.update w.wins p x))
    (hf : f < k₀.numPhysPages) (hmiss : Missing k₀.shape p v) (hx : ∀ v f, ¬ x.opens v f)
    (hother : ∀ q, q ≠ p → (w.wins q).frame ≠ some f) {pinned : Nat → Bool}
    {entry : Nat → Nat → Option Int} (hpin : ∀ g, g ≠ f → pinned g = k₀.shape.pinned g)
    (hentry : ∀ q w, k₀.shape.live q = true → w < k₀.shape.numPages q →
      entry q w = if k₀.shape.entry q w = some (f : Int) then none else k₀.shape.entry q w)
    (hshape : k.shape = { k₀.shape with pinned := pinned, entry := entry })
    (h : w.fill p v caller f k = .ok w') (hev : NoMispin w'.kernel.trace) : Inv w' := by
  have htake := hex.take hf hmiss (by simpa using hx)
    (fun q hq => by simpa [hq] using hother q hq) hpin hentry
  rw [Function.update_idem] at htake
  refine fill_inv hpos hsav ?_ h hev
  rw [hshape]
  exact htake

/-- `evictPage` on a frame that is in use and not pinned. -/
theorem evict_inv (hpos : 0 < k.numPhysPages) (hsav : SavesVictim w.pc) {f : Nat}
    (hex : Exclusive k.shape (Function.update w.wins p (.waiting v))) (hf : f < k.numPhysPages)
    (ha : (k.invertedPageTable f).assigned = true) (hpin : k.shape.pinned f = false)
    (h : w.evict p v caller f k = .ok w') (hev : NoMispin w'.kernel.trace) : Inv w' := by
  have hfill := w.update_ne_filling p (x := .waiting v) (by simp)
  have hother : ∀ q, q ≠ p → (w.wins q).frame ≠ some f := fun q hq => by
    simpa [hq] using hex.frame_ne hfill hpin q
  have hmiss : Missing k.shape p v := by simpa [Win.Ok] using hex.ok p
  unfold evict at h
  dsimp only at h
  split at h
  · simp at h
  rename_i owner howner
  split at h
  · simp at h
  -- the owner of the frame has the page in it
  have hpres : Present k.shape owner (k.invertedPageTable f).tEntry.vpn f := by
    refine hex.entry_of_owner hfill hf ?_ hpin
    simp [Kernel.shape, InvertedBucket.owner, ha, howner]
  have hppn : (k.pte owner (k.invertedPageTable f).tEntry.vpn).ppn = f :=
    (TranslationEntry.mapped_eq_some.mp hpres.entry).2
  split at h
  · rw [bind_eq_ok] at h
    obtain ⟨⟨spn, k₁⟩, h₁, h₂⟩ := h
    obtain rfl := Except.ok.inj h₂
    obtain ⟨hshape, -⟩ := Kernel.shape_addToSwapBegin h₁
    rw [hppn, Int.toNat_natCast] at hshape
    refine ⟨?_, ?_, savesVictim_goto hsav ?_⟩
    · exact Nat.lt_of_lt_of_eq hpos (congrArg Shape.numPhysPages hshape).symm
    · have hhold := hex.hold (p := p) (f := f)
        (x := .saving v f owner (k.invertedPageTable f).tEntry.vpn) hmiss.live rfl
        (fun q _ => hex.frame_ne hfill hpin q) (by simp [Win.opens])
        ⟨⟨hmiss.live, hmiss.inRange, hmiss.invalid⟩, hf, by simp [Shape.setPinned],
          Or.inl ⟨hpres.live, hpres.inRange, hpres.entry⟩⟩
      rw [Function.update_idem] at hhold
      rw [wins_goto]
      exact hshape.symm ▸ hhold
    · intro _ _ _ _ _ _ _ _ heq
      simp only [Pc.saving.injEq] at heq
      obtain ⟨-, -, rfl, -, -, rfl, -⟩ := heq
      exact hppn
  · rw [bind_eq_ok] at h
    obtain ⟨k₁, h₁, h₂⟩ := h
    obtain ⟨hshape, -⟩ := Kernel.shape_invalidate h₁
    have hpos₁ : 0 < k₁.numPhysPages :=
      Nat.lt_of_lt_of_eq hpos (congrArg Shape.numPhysPages hshape).symm
    refine take_inv hpos₁ hsav hex hf hmiss (by simp [Win.opens]) hother (fun _ _ => rfl) ?_
      hshape h₂ hev
    intro q u hl hn
    exact hex.entry_drop hpres q u hl hn

/-- `pageFault` for a missing page. -/
theorem pageFault_inv (hpos : 0 < k.numPhysPages) (hsav : SavesVictim w.pc)
    (hex : Exclusive k.shape (Function.update w.wins p (.waiting v)))
    (h : w.pageFault p v caller k = .ok w') (hev : NoMispin w'.kernel.trace) : Inv w' := by
  have hmiss : Missing k.shape p v := by simpa [Win.Ok] using hex.ok p
  unfold pageFault at h
  rw [bind_eq_ok] at h
  obtain ⟨⟨r, k₁⟩, h₁, h⟩ := h
  have hs := Kernel.same_clockLoop h₁
  have hpos₁ : 0 < k₁.numPhysPages :=
    Nat.lt_of_lt_of_eq hpos (congrArg Shape.numPhysPages hs.shape).symm
  cases r with
  | none =>
    obtain rfl := Except.ok.inj h
    refine ⟨hpos₁, ?_, savesVictim_goto hsav (by simp)⟩
    rw [wins_goto]
    exact hs.shape.symm ▸ hex
  | some f =>
    obtain ⟨hf, hcase⟩ := Kernel.clockLoop_found hpos h₁
    have hf₁ : f < k₁.numPhysPages :=
      Nat.lt_of_lt_of_eq hf (congrArg Shape.numPhysPages hs.shape).symm
    have hex₁ : Exclusive k₁.shape (Function.update w.wins p (.waiting v)) := hs.shape.symm ▸ hex
    have hown : (k₁.invertedPageTable f).owner = (k.invertedPageTable f).owner :=
      congrFun (congrArg Shape.owner hs.shape) f
    have has : (k₁.invertedPageTable f).assigned = (k.invertedPageTable f).assigned :=
      InvertedBucket.assigned_of_owner hown
    dsimp only at h
    rcases hcase with ⟨ha, hclaim⟩ | ⟨ha, hpin⟩
    · -- a frame without an owner: no entry names it, and no thread holds it
      rw [has, ha, if_neg (by simp)] at h
      have hpin : k₁.shape.pinned f = false := by
        rw [hs.shape]
        exact hev _ ((fill_trace h).mem hclaim)
      have hnone : k₁.shape.owner f = none := by
        simp [Kernel.shape, InvertedBucket.owner, has, ha]
      have hfree := hex₁.frame_ne (w.update_ne_filling p (by simp)) hpin
      have hmiss₁ : Missing k₁.shape p v := hs.shape.symm ▸ hmiss
      exact take_inv hpos₁ hsav hex₁ hf₁ hmiss₁ (by simp [Win.opens])
        (fun q hq => by simpa [hq] using hfree q) (fun _ _ => rfl)
        (fun q u hl hn => (if_neg (hex₁.entry_ne hnone q u hl hn)).symm) rfl h hev
    · rw [has, ha, if_pos rfl] at h
      exact evict_inv hpos₁ hsav hex₁ hf₁ (has.trans ha) (hs.shape.symm ▸ hpin) h hev

theorem Inv.of_same (h : Inv w) {k' : Kernel} (hs : Kernel.Same w.kernel k') :
    Inv { w with kernel := k' } :=
  ⟨Nat.lt_of_lt_of_eq h.pos (congrArg Shape.numPhysPages hs.shape).symm,
    hs.shape.symm ▸ h.exclusive, h.saves⟩

/-- A live thread outside the paging code needs a page. -/
theorem needPage_inv (hinv : Inv w) (hpc : w.pc p = .idle) (hl : w.kernel.shape.live p = true)
    (hn : v < w.kernel.shape.numPages p) (h : w.needPage p v caller = .ok w')
    (hev : NoMispin w'.kernel.trace) : Inv w' := by
  have hwin : w.wins p = .idle := by simp [wins, hpc, Pc.win]
  unfold needPage at h
  split at h
  · rename_i hv
    obtain ⟨f, hf, -⟩ := hinv.exclusive.forward p v (w.kernel.pte p v).ppn hl hn
      (TranslationEntry.mapped_eq_some.mpr ⟨hv, rfl⟩)
    refine finishFault_inv hinv.pos hinv.saves (f := f) ?_ ⟨hl, hn, ?_⟩ h hev
    · rw [← hwin, Function.update_eq_self]
      exact hinv.exclusive
    · exact TranslationEntry.mapped_eq_some.mpr ⟨hv, hf⟩
  · rename_i hv
    refine pageFault_inv hinv.pos hinv.saves
      (hinv.exclusive.setWin (by rw [hwin]; rfl) rfl ?_ hl) h hev
    exact ⟨hl, hn, TranslationEntry.mapped_eq_none.mpr (Bool.eq_false_iff.mpr hv)⟩

/-- The end of `savePage`: the slot is recorded and the mapping is given up. -/
theorem shape_dropSaved {k k₁ k₂ k₃ : Kernel} {q x f spn : Nat}
    (h₁ : k.unpin (f : Int) = .ok k₁)
    (h₂ : k₁.modifyPTE q x (fun e => { e with ppn := spn }) = .ok k₂)
    (h₃ : k₂.invalidate q x = .ok k₃) :
    k₃.shape = (k.shape.setPinned f false).setEntry q x none := by
  obtain ⟨hs₁, -⟩ := Kernel.shape_unpin h₁
  obtain ⟨-, rfl⟩ := Kernel.modifyPTE_eq_ok h₂
  obtain ⟨hs₃, -⟩ := Kernel.shape_invalidate h₃
  rw [hs₃, Kernel.shape_setPTE, hs₁, Int.toNat_natCast]
  simp only [Shape.setEntry, Shape.mk.injEq, true_and, and_true]
  funext q' x'
  split <;> rfl

/-- A thread gets `memLock` back. -/
theorem resume_inv (hinv : Inv w) (h : w.resume p = .ok w') (hev : NoMispin w'.kernel.trace) :
    Inv w' := by
  have hex := hinv.exclusive
  have hself : ∀ x, w.wins p = x → Function.update w.wins p x = w.wins := by
    rintro x rfl
    exact Function.update_eq_self p w.wins
  unfold resume at h
  split at h
  · -- woken up in the clock
    rename_i vpn caller hpc
    refine pageFault_inv hinv.pos hinv.saves ?_ h hev
    rw [hself (.waiting vpn) (by simp [wins, hpc, Pc.win])]
    exact hex
  · -- the victim is on the disk
    rename_i vpn caller f owner victim ppn spn hpc
    have hwin : w.wins p = .saving vpn f owner victim := by simp [wins, hpc, Pc.win]
    have hok := hex.ok p
    rw [hwin] at hok
    obtain ⟨hmiss, hf, -, hvict⟩ := hok
    obtain rfl : ppn = (f : Int) := hinv.saves p _ _ _ _ _ _ _ _ hpc
    simp only [bind_eq_ok] at h
    obtain ⟨k₁, h₁, k₂, h₂, k₃, h₃, h⟩ := h
    have hshape := shape_dropSaved h₁ h₂ h₃
    have hpos₃ : 0 < k₃.numPhysPages :=
      Nat.lt_of_lt_of_eq hinv.pos (congrArg Shape.numPhysPages hshape).symm
    have hother : ∀ q, q ≠ p → (w.wakeAll.wins q).frame ≠ some f := by
      intro q hq hfr
      rw [wins_wakeAll] at hfr
      exact hq (hex.apart q p f hfr (by rw [hwin]; rfl))
    refine take_inv (w := w.wakeAll) (x := .saving vpn f owner victim) hpos₃
      (savesVictim_wakeAll hinv.saves) ?_ hf hmiss (by simp [Win.opens]) hother ?_ ?_ hshape h hev
    · rw [wins_wakeAll, hself _ hwin]
      exact hex
    · intro g hg
      simp [Shape.setPinned, hg]
    · intro q u hl hn
      rcases hvict with hp | ⟨hdead, -, hnone⟩
      · exact hex.entry_drop hp q u hl hn
      · -- its process has exited, and no live entry names the frame
        have hne : ¬ (q = owner ∧ u = victim) := by
          rintro ⟨rfl, rfl⟩
          simp [hdead] at hl
        rw [if_neg (hex.entry_ne hnone q u hl hn)]
        exact if_neg hne
  · -- the page has been read from swap
    rename_i vpn caller f spn hpc
    have hwin : w.wins p = .loading vpn f := by simp [wins, hpc, Pc.win]
    have hok := hex.ok p
    rw [hwin] at hok
    obtain ⟨hmiss, -, -, -⟩ := hok
    simp only [bind_eq_ok] at h
    obtain ⟨k₁, h₁, k₂, h₂, h⟩ := h
    obtain ⟨hs₁, -⟩ := Kernel.shape_unpin h₁
    obtain ⟨-, rfl⟩ := Kernel.modifyPTE_eq_ok h₂
    have hfill := hex.fill (w.kernel.shape.setPinned f false).pinned (p := p) (v := vpn)
      (f := f) (Or.inr hwin)
      fun g hg => by simp [Shape.setPinned, hg]
    have hshape : Kernel.shape (Kernel.setPTE { k₁ with freeSwap := spn.toNat :: k₁.freeSwap } p vpn
        { k₁.pte p vpn with ppn := f, used := true, valid := true }) =
        { w.kernel.shape.setEntry p vpn (some (f : Int)) with
          pinned := (w.kernel.shape.setPinned f false).pinned } := by
      rw [Kernel.shape_setPTE]
      refine (congrArg (fun s : Shape => s.setEntry p vpn (some (f : Int))) hs₁).trans ?_
      rw [Int.toNat_natCast]
      rfl
    refine finishFault_inv (w := w.wakeAll) (f := f) ?_ (savesVictim_wakeAll hinv.saves) ?_ ?_ h hev
    · exact Nat.lt_of_lt_of_eq hinv.pos (congrArg Shape.numPhysPages hshape).symm
    · rw [wins_wakeAll]
      exact hshape.symm ▸ hfill
    · have hp : Present { w.kernel.shape.setEntry p vpn (some (f : Int)) with
          pinned := (w.kernel.shape.setPinned f false).pinned } p vpn f :=
        ⟨hmiss.live, hmiss.inRange, by simp [Shape.setEntry]⟩
      exact hshape.symm ▸ hp
  · obtain rfl := Except.ok.inj h
    exact hinv

/-- The swap I/O of a thread. -/
theorem transfer_inv (hinv : Inv w) : Inv (w.transfer p) := by
  have hgoto : ∀ pc k', (w.pc p).win = pc.win → Kernel.Same w.kernel k' →
      (∀ vpn caller (f : Nat) owner victim ppn spn written,
        pc = .saving vpn caller f owner victim ppn spn written → ppn = (f : Int)) →
      Inv (w.goto p pc k') := by
    intro pc k' hwin hs hsav
    refine ⟨?_, ?_, savesVictim_goto hinv.saves hsav⟩
    · exact Nat.lt_of_lt_of_eq hinv.pos (congrArg Shape.numPhysPages hs.shape).symm
    · rw [wins_goto, ← hwin]
      rw [show (w.pc p).win = w.wins p from rfl, Function.update_eq_self]
      exact hs.shape.symm ▸ hinv.exclusive
  unfold transfer
  split
  · rename_i vpn caller f owner victim ppn spn hpc
    refine hgoto _ _ (by simp [hpc, Pc.win]) (Kernel.same_swapWrite _ _ _) ?_
    intro _ _ _ _ _ _ _ _ heq
    simp only [Pc.saving.injEq] at heq
    obtain ⟨-, -, rfl, -, -, rfl, -⟩ := heq
    exact hinv.saves p _ _ _ _ _ _ _ _ hpc
  · rename_i vpn caller f spn hpc
    exact hgoto _ _ (by simp [hpc, Pc.win]) (Kernel.same_swapRead _ _ _) (by simp)
  · exact hinv

/-- `verifyClean` unpins the frame that `verifyVaddr` pinned. -/
theorem clean_inv (hinv : Inv w) (h : w.clean p = .ok w') : Inv w' := by
  unfold clean at h
  split at h
  · rename_i vpn f hpc
    rw [bind_eq_ok] at h
    obtain ⟨k₁, h₁, h₂⟩ := h
    obtain rfl := Except.ok.inj h₂
    obtain ⟨hs₁, -⟩ := Kernel.shape_unpin h₁
    have hwin : w.wins p = .copying vpn f := by simp [wins, hpc, Pc.win]
    have hok := hinv.exclusive.ok p
    rw [hwin] at hok
    have hppn : (w.kernel.pte p vpn).ppn = f := (TranslationEntry.mapped_eq_some.mp hok.1.entry).2
    rw [hppn, Int.toNat_natCast] at hs₁
    refine ⟨?_, ?_, savesVictim_goto (savesVictim_wakeAll hinv.saves) (by simp)⟩
    · exact Nat.lt_of_lt_of_eq hinv.pos (congrArg Shape.numPhysPages hs₁).symm
    · rw [wins_goto, wins_wakeAll]
      exact hs₁.symm ▸ hinv.exclusive.release hwin
  · obtain rfl := Except.ok.inj h
    exact hinv

/-- A process outside the paging code exits. -/
theorem exit_inv (hinv : Inv w) (hpc : w.pc p = .idle) (hl : w.kernel.shape.live p = true)
    {k' : Kernel} (h : w.kernel.handleExit p = .ok k') : Inv { w with kernel := k' } := by
  have hshape := Kernel.shape_handleExit hinv.exclusive hl h
  refine ⟨?_, ?_, hinv.saves⟩
  · exact Nat.lt_of_lt_of_eq hinv.pos (congrArg Shape.numPhysPages hshape).symm
  · exact hshape.symm ▸ hinv.exclusive.kill hl (by simp [wins, hpc, Pc.win])

theorem userAccess_inv (hinv : Inv w) (hpc : w.pc p = .idle)
    (hl : w.kernel.shape.live p = true) {vaddr : Int} {random : Fin tlbSize}
    {result : Except MipsException Kernel}
    (hres : ∀ k', result = .ok k' → Kernel.Same w.kernel k')
    (h : w.userAccess p vaddr random result = .ok w') (hev : NoMispin w'.kernel.trace) :
    Inv w' := by
  cases result with
  | ok k' =>
    obtain rfl := Except.ok.inj h
    exact hinv.of_same (hres k' rfl)
  | error e =>
    have hexit : (do let k ← w.kernel.handleExit p; .ok { w with kernel := k }) =
        Except.ok (ε := Halt) w' → Inv w' := by
      intro h
      rw [bind_eq_ok] at h
      obtain ⟨k', h₁, h₂⟩ := h
      obtain rfl := Except.ok.inj h₂
      exact exit_inv hinv hpc hl h₁
    cases e with
    | tlbMiss =>
      simp only [userAccess] at h
      split at h
      · exact needPage_inv hinv hpc hl ‹_› h hev
      · simp at h
    | addressError => exact hexit h
    | readOnly => exact hexit h
    | busError => exact hexit h

theorem load_inv (hinv : Inv w) (sections : List CoffSection) :
    Inv { w with kernel := w.kernel.load sections } := by
  obtain ⟨hshape, htrace⟩ := w.kernel.shape_load sections
  rcases hshape with hshape | ⟨n, hshape⟩
  · exact hinv.of_same ⟨hshape, htrace ▸ List.suffix_rfl⟩
  · refine ⟨?_, ?_, hinv.saves⟩
    · exact Nat.lt_of_lt_of_eq hinv.pos (congrArg Shape.numPhysPages hshape).symm
    · exact hshape.symm ▸ hinv.exclusive.spawn n

/-- What the running thread does keeps the invariant. -/
theorem act_inv (hinv : Inv w) (hl : w.kernel.shape.live p = true) {action : Action}
    (h : w.act p action = .ok w') (hev : NoMispin w'.kernel.trace) : Inv w' := by
  -- an action whose guard fails changes nothing
  have hstay : .ok w = Except.ok (ε := Halt) w' → Inv w' := by
    intro h
    obtain rfl := Except.ok.inj h
    exact hinv
  cases action with
  | load sections =>
    obtain rfl := Except.ok.inj h
    exact load_inv hinv sections
  | contextSwitch next => exact hstay h
  | userLoad vaddr size random =>
    simp only [act] at h
    split at h
    · exact userAccess_inv hinv ‹_› hl (fun _ => Kernel.same_readMem) h hev
    · exact hstay h
  | userStore vaddr bytes random =>
    simp only [act] at h
    split at h
    · exact userAccess_inv hinv ‹_› hl (fun _ => Kernel.same_writeMem) h hev
    · exact hstay h
  | verifyVaddr vpn write =>
    simp only [act] at h
    split at h
    · rename_i hcond
      exact needPage_inv hinv hcond.1 hl hcond.2 h hev
    · exact hstay h
  | copy write pageOffset n data =>
    simp only [act, copy] at h
    split at h
    · rw [bind_eq_ok] at h
      obtain ⟨⟨k₁, _⟩, h₁, h₂⟩ := h
      obtain rfl := Except.ok.inj h₂
      exact hinv.of_same (Kernel.same_arraycopy h₁)
    · exact hstay h
  | verifyClean => exact clean_inv hinv h
  | transfer =>
    obtain rfl := Except.ok.inj h
    exact transfer_inv hinv
  | resume => exact resume_inv hinv h hev
  | exit =>
    simp only [act] at h
    split at h
    · rw [bind_eq_ok] at h
      obtain ⟨k₁, h₁, h₂⟩ := h
      obtain rfl := Except.ok.inj h₂
      exact exit_inv hinv ‹_› hl h₁
    · exact hstay h

/-- Another thread gets the processor. -/
theorem switch_inv (hinv : Inv w) {next : Option Nat} (hnext : next.all w.kernel.isLive = true)
    {k' : Kernel} (h : w.kernel.switchOut = .ok k') :
    Inv { w with kernel := { k' with current := next } } := by
  have hs := Kernel.same_switchOut h
  have hshape : Kernel.shape { k' with current := next } =
      { w.kernel.shape with current := next } :=
    congrArg (fun s : Shape => { s with current := next }) hs.shape
  refine ⟨?_, ?_, hinv.saves⟩
  · exact Nat.lt_of_lt_of_eq hinv.pos (congrArg Shape.numPhysPages hs.shape).symm
  · have hlive : ∀ q, next = some q → w.kernel.shape.live q = true := by
      rintro q rfl
      exact hnext
    exact hshape.symm ▸ hinv.exclusive.switch hlive

theorem step_inv (hinv : Inv w) {action : Action} (h : w.step action = .ok w')
    (hev : NoMispin w'.kernel.trace) : Inv w' := by
  obtain ⟨next, k₁, hnext, h₁, rfl⟩ | ⟨p, hcur, h₁⟩ | ⟨sections, rfl⟩ | rfl := step_cases h
  · exact switch_inv hinv hnext h₁
  · exact act_inv hinv (hinv.exclusive.running p hcur) h₁ hev
  · exact load_inv hinv sections
  · exact hinv

/-- Every interleaving keeps the invariant. -/
theorem run_inv {actions : List Action} (hinv : Inv w) (h : w.run actions = .ok w')
    (hev : NoMispin w'.kernel.trace) : Inv w' := by
  induction actions generalizing w with
  | nil =>
    obtain rfl := Except.ok.inj h
    exact hinv
  | cons action actions ih =>
    simp only [run, List.foldlM_cons, bind_eq_ok] at h
    obtain ⟨w₁, h₁, h₂⟩ := h
    exact ih (step_inv hinv h₁ (hev.suffix (run_trace h₂))) h₂

theorem inv_init {n : Nat} (hn : 0 < n) (ioBlocks : Bool) : Inv (init n ioBlocks) where
  pos := hn
  exclusive := by
    refine ⟨?_, ?_, fun p => trivial, ?_, fun _ _ => rfl, fun _ _ => rfl, ?_⟩
    · intro p v e hl
      simp [init, Kernel.initKernel, Kernel.shape] at hl
    · intro f o _ ho
      simp [init, Kernel.initKernel, Kernel.shape, InvertedBucket.owner] at ho
    · intro p p' f hf
      simp [wins, init, Pc.win, Win.frame] at hf
    · intro p hp
      simp [init, Kernel.initKernel, Kernel.shape] at hp
  saves := by
    intro p _ _ _ _ _ _ _ _ hp
    simp [init] at hp

/-- Frames are exclusive: no two valid page table entries of live processes name the same
    frame, and the frame that a kernel copy pinned is still the one of the page that it
    copies. -/
structure FrameExclusive (w : World) : Prop where
  entries : ∀ p v q u, (w.kernel.process p).live = true → v < (w.kernel.process p).numPages →
    (w.kernel.process q).live = true → u < (w.kernel.process q).numPages →
    (w.kernel.pte p v).valid = true → (w.kernel.pte q u).valid = true →
    (w.kernel.pte p v).ppn = (w.kernel.pte q u).ppn → p = q ∧ v = u
  copies : ∀ p v f, w.pc p = .copying v f → (w.kernel.invertedPageTable f).assigned = true ∧
    (w.kernel.invertedPageTable f).process = some p ∧
    (w.kernel.invertedPageTable f).tEntry.vpn = v

/-- Every interleaving in which no pinned frame is pinned again or handed out keeps frames
    exclusive. -/
theorem run_frameExclusive {n : Nat} (hn : 0 < n) {ioBlocks : Bool} {actions : List Action}
    (h : (init n ioBlocks).run actions = .ok w) (hev : NoMispin w.kernel.trace) :
    FrameExclusive w := by
  have hex := (run_inv (inv_init hn ioBlocks) h hev).exclusive
  refine ⟨?_, ?_⟩
  · intro p v q u hlp hvp hlq huq hp hq hppn
    have hp' : w.kernel.shape.entry p v = some (w.kernel.pte p v).ppn :=
      TranslationEntry.mapped_eq_some.mpr ⟨hp, rfl⟩
    have hq' : w.kernel.shape.entry q u = some (w.kernel.pte p v).ppn :=
      TranslationEntry.mapped_eq_some.mpr ⟨hq, hppn.symm⟩
    obtain ⟨f, hf, -, ho⟩ := hex.forward p v _ hlp hvp hp'
    obtain ⟨g, hg, -, ho'⟩ := hex.forward q u _ hlq huq hq'
    obtain rfl : f = g := by omega
    rw [ho] at ho'
    simpa using ho'
  · intro p v f hpc
    have hok := hex.ok p
    rw [show w.wins p = .copying v f by simp [wins, hpc, Pc.win]] at hok
    obtain ⟨g, hg, -, ho⟩ := hex.forward p v f hok.1.live hok.1.inRange hok.1.entry
    obtain rfl : f = g := by omega
    have howner : (w.kernel.invertedPageTable f).owner = some (some p, v) := ho
    unfold InvertedBucket.owner at howner
    split at howner
    · rename_i ha
      simp only [Option.some.injEq, Prod.mk.injEq] at howner
      exact ⟨ha, howner.1, howner.2⟩
    · simp at howner

/-- Two processes and one frame: process 1 needs the frame while process 0 copies from
    it, sleeps until process 0 has called `verifyClean`, and then saves and takes it. -/
theorem run_frameExclusive_one_frame :
    ∃ w, (init 1 true).run [.load emptySections, .load emptySections, .contextSwitch (some 0),
      .verifyVaddr 0 true, .contextSwitch (some 1), .verifyVaddr 0 false, .contextSwitch (some 0),
      .verifyClean, .contextSwitch (some 1), .resume, .transfer, .resume] = .ok w ∧
      w.pc 1 = .copying 0 0 ∧ FrameExclusive w := by
  obtain ⟨w, hw, htest⟩ := Except.exists_of_map_eq_ok (r := (init 1 true).run [.load emptySections,
    .load emptySections, .contextSwitch (some 0), .verifyVaddr 0 true, .contextSwitch (some 1),
    .verifyVaddr 0 false, .contextSwitch (some 0), .verifyClean, .contextSwitch (some 1), .resume,
    .transfer, .resume])
    (fun w => decide (w.pc 1 = .copying 0 0) && w.kernel.trace.all fun e => !e.mispins)
    (by decide +kernel)
  simp only [Bool.and_eq_true, decide_eq_true_eq] at htest
  refine ⟨w, hw, htest.1, run_frameExclusive (by decide) hw ?_⟩
  simpa [NoMispin] using htest.2

/-- While process 1 saves page 0 of process 0, process 0 pins it for a copy; process 1
    then clears the bit and takes the frame. -/
def copyDuringSave : List Action :=
  [.load emptySections, .load emptySections, .contextSwitch (some 0), .verifyVaddr 0 true,
    .verifyClean, .contextSwitch (some 1), .verifyVaddr 0 false, .contextSwitch (some 0),
    .verifyVaddr 0 false, .contextSwitch (some 1), .transfer, .resume]

/-- While process 1 saves page 0 of process 0, process 0 exits and process 2 is given the
    frame, which process 1 then takes as well. -/
def exitDuringSave : List Action :=
  [.load emptySections, .load emptySections, .load emptySections, .contextSwitch (some 0),
    .verifyVaddr 0 true, .verifyClean, .contextSwitch (some 1), .verifyVaddr 0 false,
    .contextSwitch (some 0), .exit, .contextSwitch (some 2), .verifyVaddr 0 false,
    .contextSwitch (some 1), .transfer, .resume]

/-- The first run ends with the frame of a kernel copy assigned to another process, the
    second with two entries that name the same frame. -/
theorem not_frameExclusive_one_frame :
    (∃ w, (init 1 true).run copyDuringSave = .ok w ∧ ¬ FrameExclusive w) ∧
      ∃ w, (init 1 true).run exitDuringSave = .ok w ∧ ¬ FrameExclusive w := by
  constructor
  · obtain ⟨w, hw, htest⟩ := Except.exists_of_map_eq_ok (r := (init 1 true).run copyDuringSave)
      (fun w => decide (w.pc 0 = .copying 0 0 ∧ (w.kernel.invertedPageTable 0).process = some 1))
      (by decide +kernel)
    simp only [decide_eq_true_eq] at htest
    refine ⟨w, hw, fun hex => ?_⟩
    have howner := (hex.copies 0 0 0 htest.1).2.1
    simp [htest.2] at howner
  · obtain ⟨w, hw, htest⟩ := Except.exists_of_map_eq_ok (r := (init 1 true).run exitDuringSave)
      (fun w => (w.kernel.process 1).live && decide (0 < (w.kernel.process 1).numPages) &&
        (w.kernel.process 2).live && decide (0 < (w.kernel.process 2).numPages) &&
        (w.kernel.pte 1 0).valid && (w.kernel.pte 2 0).valid &&
        decide ((w.kernel.pte 1 0).ppn = (w.kernel.pte 2 0).ppn))
      (by decide +kernel)
    simp only [Bool.and_eq_true, decide_eq_true_eq] at htest
    obtain ⟨⟨⟨⟨⟨⟨hl₁, hn₁⟩, hl₂⟩, hn₂⟩, hv₁⟩, hv₂⟩, hppn⟩ := htest
    refine ⟨w, hw, fun hex => ?_⟩
    have hsame := (hex.entries 1 0 2 0 hl₁ hn₁ hl₂ hn₂ hv₁ hv₂ hppn).1
    simp at hsame

end World

end Nachos
