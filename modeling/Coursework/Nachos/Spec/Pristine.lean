import Coursework.Nachos.Spec.PageBytes

/-!
# Pages that are dropped were not modified

`savePage` drops a page whose dirty bit is not set, because it can be made again from
the COFF file or by `zero`. This is right as long as no dirty bit is lost on its way
from the TLB to the page table.

`VMKernel.zero` leaves the last byte of a frame as it was. A page that is zero-filled a
second time is therefore the same page again only if that byte is the same.
-/

namespace Nachos

/-! ## What a page held first -/

/-- The frame of page `v` of `p` when it was zero-filled for the first time. -/
def firstZeroed : List Event → Nat → Nat → Option (Nat → UInt8)
  | [], _, _ => none
  | e :: trace, p, v =>
    match firstZeroed trace p v with
    | some frame => some frame
    | none =>
      match e with
      | .zeroed p' v' frame => if p' = p ∧ v' = v then some frame else none
      | _ => none

theorem firstZeroed_suffix {trace trace' : List Event} (hs : trace <:+ trace') {p v : Nat}
    {frame : Nat → UInt8} (h : firstZeroed trace p v = some frame) :
    firstZeroed trace' p v = some frame := by
  obtain ⟨es, rfl⟩ := hs
  induction es with
  | nil => exact h
  | cons e es ih => simp only [List.cons_append, firstZeroed, ih]

theorem firstZeroed_mem {trace : List Event} {p v : Nat} {frame : Nat → UInt8}
    (h : firstZeroed trace p v = some frame) : .zeroed p v frame ∈ trace := by
  induction trace with
  | nil => simp [firstZeroed] at h
  | cons e trace ih =>
    simp only [firstZeroed] at h
    split at h
    · rename_i frame' h'
      obtain rfl : frame' = frame := Option.some.inj h
      exact List.mem_cons_of_mem _ (ih h')
    · split at h
      · split at h
        · rename_i hpv
          obtain ⟨rfl, rfl⟩ := hpv
          obtain rfl := Option.some.inj h
          exact List.mem_cons_self
        · simp at h
      · simp at h

theorem firstZeroed_cons (trace : List Event) (p v : Nat) (frame : Nat → UInt8) :
    ∃ first, firstZeroed (.zeroed p v frame :: trace) p v = some first ∧
      (first = frame ∨ firstZeroed trace p v = some first) := by
  simp only [firstZeroed]
  cases h : firstZeroed trace p v with
  | some first => exact ⟨first, rfl, Or.inr rfl⟩
  | none => exact ⟨frame, by simp, Or.inl rfl⟩

/-- Does a page that is zero-filled again have the last byte it had the first time? -/
def Event.zeroStable (trace : List Event) : Event → Bool
  | .zeroed p v frame =>
    (firstZeroed trace p v).map (fun first => first (pageSize - 1)) == some (frame (pageSize - 1))
  | _ => true

/-- Every page that was zero-filled again found the last byte it had the first time. -/
def StableZero (trace : List Event) : Prop := ∀ e ∈ trace, e.zeroStable trace = true

theorem StableZero.last {trace : List Event} (h : StableZero trace) {p v : Nat}
    {frame first : Nat → UInt8} (hm : .zeroed p v frame ∈ trace)
    (hf : firstZeroed trace p v = some first) : first (pageSize - 1) = frame (pageSize - 1) := by
  simpa [Event.zeroStable, hf] using h _ hm

theorem exists_firstZeroed {trace : List Event} {p v : Nat} {frame : Nat → UInt8}
    (h : .zeroed p v frame ∈ trace) : ∃ first, firstZeroed trace p v = some first := by
  induction trace with
  | nil => simp at h
  | cons e trace ih =>
    rcases List.mem_cons.mp h with rfl | h
    · obtain ⟨first, hf, -⟩ := firstZeroed_cons trace p v frame
      exact ⟨first, hf⟩
    · obtain ⟨first, hf⟩ := ih h
      exact ⟨first, firstZeroed_suffix (List.suffix_cons _ _) hf⟩

theorem StableZero.suffix {trace trace' : List Event} (h : StableZero trace')
    (hs : trace <:+ trace') : StableZero trace := by
  intro e he
  cases e with
  | zeroed p v frame =>
    obtain ⟨first, hf⟩ := exists_firstZeroed he
    have := h.last (hs.mem he) (firstZeroed_suffix hs hf)
    simp [Event.zeroStable, hf, this]
  | _ => rfl

/-- What `initializePage` loads for a COFF page, and what any other page held when it was
    first zero-filled. -/
def View.initialByte (m : View) (p v j : Nat) : Option UInt8 :=
  if v < m.numCoffPages p then
    (m.coffMap p v).coffSection.map fun s => s.pageByte (m.coffMap p v).sectionPage.toNat j
  else (firstZeroed m.trace p v).map fun frame => frame j

/-- A byte that a page once held initially, it held initially. -/
theorem Micro.initialByte {ph ph' : Phase} {m m' : View} (h : Micro ph m ph' m') {p v j : Nat}
    {b : UInt8} (hp : p < m.numProcesses) (hb : m.initialByte p v j = some b) :
    m'.initialByte p v j = some b := by
  obtain ⟨hcoff, hmap⟩ := h.config.2 p hp
  simp only [View.initialByte, hcoff, hmap] at hb ⊢
  split
  · rename_i hc
    rwa [if_pos hc] at hb
  · rename_i hc
    rw [if_neg hc, Option.map_eq_some_iff] at hb
    obtain ⟨frame, hf, rfl⟩ := hb
    rw [firstZeroed_suffix h.trace_suffix hf]
    rfl

/-- Only `zero` records a fill, and it fills all bytes but the last. -/
theorem Micro.zeroed_mem {ph ph' : Phase} {m m' : View} (h : Micro ph m ph' m') {p v : Nat}
    {frame : Nat → UInt8} (hm : .zeroed p v frame ∈ m'.trace) :
    .zeroed p v frame ∈ m.trace ∨ ∀ j < pageSize - 1, frame j = 0 := by
  cases h with
  | @fillZero m f p' v' memory hc hmem =>
    rcases List.mem_cons.mp hm with heq | hm
    · right
      intro j hj
      simp only [Event.zeroed.injEq] at heq
      rw [heq.2.2, hmem]
      dsimp only
      rw [show frameAddr f j = frameAddr f 0 + j by simp [frameAddr]]
      exact blit_inside hj
    · exact Or.inl hm
  | note e he =>
    rcases List.mem_cons.mp hm with rfl | hm
    · simp [Event.isPin] at he
    · exact Or.inl hm
  | _ => first | exact Or.inl hm | exact Or.inl (by simpa [View.emit, View.setTlb, View.setEntry] using hm)

/-- Only `savePage` records a drop, of a page with a clean entry. -/
theorem Micro.dropped_mem {ph ph' : Phase} {m m' : View} (h : Micro ph m ph' m') {q w : Nat}
    {frame : Nat → UInt8} (hm : .dropped q w frame ∈ m'.trace) :
    .dropped q w frame ∈ m.trace ∨ ∃ f, InFrame m q w f ∧ (m.entry q w).dirty = false ∧
      frame = (fun i => m.memory (frameAddr f i)) ∧
      .updateTLB q w (m.inTLB q w) ∈ m'.trace := by
  cases h with
  | @dropClean m p v f hl hn hv hd hp =>
    have hup : Event.updateTLB p v (m.inTLB p v) ∈ (((m.emit (.dropped p v fun i =>
        m.memory (frameAddr f i))).setEntry p v { m.entry p v with valid := false }).emit
          (.updateTLB p v (m.inTLB p v))).trace := List.mem_cons_self
    simp only [View.emit, View.setEntry, List.mem_cons, reduceCtorEq, false_or] at hm
    rcases hm with heq | hm
    · simp only [Event.dropped.injEq] at heq
      obtain ⟨rfl, rfl, rfl⟩ := heq
      exact Or.inr ⟨f, ⟨hl, hn, hv, hp⟩, hd, rfl, hup⟩
    · exact Or.inl hm
  | note e he =>
    rcases List.mem_cons.mp hm with rfl | hm
    · simp [Event.isPin] at he
    · exact Or.inl hm
  | _ => first | exact Or.inl hm | exact Or.inl (by simpa [View.emit, View.setTlb, View.setEntry] using hm)

/-- A page that is in the frame it is being put in has just been filled: from the swap file,
    from its section, or with zeros. -/
theorem Micro.filled_cases {ph' : Phase} {m m' : View} {q w g : Nat} {onSwap : Bool}
    (h : Micro (.filling g q w onSwap) m ph' m') (hwf : WF (.filling g q w onSwap) m)
    (hin : InFrame m' q w g) :
    (onSwap = true ∧ ((m'.entry q w).dirty = false → (m.entry q w).dirty = false)) ∨
    (w < m.numCoffPages q ∧
      ∀ j < pageSize, m'.initialByte q w j = some (m'.memory (frameAddr g j))) ∨
    ¬ w < m.numCoffPages q ∧ ∃ memory,
      memory = blit m.memory (frameAddr g 0) (pageSize - 1) (fun _ => 0) ∧
      m' = { (m.emit (.zeroed q w fun i => memory (frameAddr g i))).setEntry q w
        { m.entry q w with ppn := g, valid := true } with memory := memory } := by
  have hwf' := WF.micro h hwf
  cases h with
  -- the first three leave the page invalid
  | note => exact absurd hin.valid (by simp [hwf'.phase.2.2.2.2])
  | saveClean => exact absurd hin.valid (by simp [hwf'.phase.2.2.2.2])
  | saveDirty => exact absurd hin.valid (by simp [hwf'.phase.2.2.2.2])
  | fillSwap => exact Or.inl ⟨rfl, fun hd => View.dirty_of_update hd rfl⟩
  | fillCoff hc hs =>
    refine Or.inr (Or.inl ⟨hc, fun j hj => ?_⟩)
    have hadr : frameAddr g j = frameAddr g 0 + j := by simp [frameAddr]
    dsimp only
    rw [hadr, blit_inside hj]
    simp only [View.initialByte, View.setEntry, if_pos hc, hs, Option.map_some]
  | fillZero hc hm => exact Or.inr (Or.inr ⟨hc, _, hm, rfl⟩)

/-! ## The invariant -/

/-- Every page in memory that nothing marks as modified holds what it held first, and so
    did every page that was dropped. -/
structure Pristine (ph : Phase) (m : View) : Prop where
  bytes : ∀ p v f j, InFrame m p v f → Untouched m p v → j < pageSize →
    m.initialByte p v j = some (m.memory (frameAddr f j))
  zeros : ∀ p v frame, .zeroed p v frame ∈ m.trace → ∀ j < pageSize - 1, frame j = 0
  dropped : ∀ q w frame, .dropped q w frame ∈ m.trace → q < m.numProcesses ∧
    ∀ j < pageSize, m.initialByte q w j = some (frame j)
  phase : ∀ f p v, ph = .filling f p v true → (m.entry p v).dirty = true

namespace Pristine

variable {ph : Phase} {m : View}

/-- A page that has just been filled holds what it held first, unless it was on swap. -/
theorem filled {ph' : Phase} {m' : View} {q w g : Nat} {onSwap : Bool} (hp : Pristine ph m)
    (hph : ph = .filling g q w onSwap) (h : Micro ph m ph' m') (hwf : WF ph m)
    (hz : StableZero m'.trace) (hin : InFrame m' q w g) (hu : Untouched m' q w) {j : Nat}
    (hj : j < pageSize) : m'.initialByte q w j = some (m'.memory (frameAddr g j)) := by
  subst hph
  obtain ⟨rfl, hdirty⟩ | ⟨-, hbyte⟩ | ⟨hc, memory, hm, rfl⟩ := h.filled_cases hwf hin
  · have hclean := hdirty hu.1
    simp [hp.phase g q w rfl] at hclean
  · exact hbyte j hj
  · have hadr : frameAddr g j = frameAddr g 0 + j := by simp [frameAddr]
    set frame := fun i => memory (frameAddr g i) with hframe
    obtain ⟨first, hfirst, hcase⟩ := firstZeroed_cons m.trace q w frame
    have hbyte : first j = frame j := by
      rcases hcase with rfl | hold
      · rfl
      by_cases hlast : j < pageSize - 1
      · rw [hp.zeros q w first (firstZeroed_mem hold) j hlast, hframe]
        dsimp only
        rw [hadr, hm, blit_inside hlast]
      · have : j = pageSize - 1 := by omega
        rw [this]
        exact hz.last List.mem_cons_self hfirst
    simp only [View.initialByte, View.setEntry, View.emit, if_neg hc, hfirst, Option.map_some,
      hbyte]
    rfl

/-- Every change keeps it that way, if no dirty bit is lost. -/
theorem micro {ph' : Phase} {m' : View} (h : Micro ph m ph' m') (hwf : WF ph m)
    (hco : Coherent m) (hp : Pristine ph m) (hev : NoLoss m'.trace) (hz : StableZero m'.trace) :
    Pristine ph' m' := by
  have hlive : ∀ p, m.live p = true → p < m.numProcesses := by
    intro p hl
    by_contra hge
    simp [hwf.fresh p (by omega)] at hl
  refine ⟨?_, ?_, ?_, ?_⟩
  · intro p v f j hin hu hj
    cases h.page_byte hwf hco hj hin with
    | same hin₀ hmem hlast =>
      have hu₀ := Untouched.of_micro h hev (hlive p hin₀.live) hu
      rw [hmem]
      exact h.initialByte (hlive p hin₀.live) (hp.bytes p v f j hin₀ hu₀ hj)
    | filled onSwap hph => exact hp.filled hph h hwf hz hin hu hj
    | wrote hlast hmod => exact absurd hu hmod
  · intro p v frame hm
    rcases h.zeroed_mem hm with hm | hzero
    · exact hp.zeros p v frame hm
    · exact hzero
  · intro q w frame hm
    rcases h.dropped_mem hm with hm | ⟨f, hin, hd, rfl, hup⟩
    · obtain ⟨hlt, hb⟩ := hp.dropped q w frame hm
      exact ⟨Nat.lt_of_lt_of_le hlt h.config.1, fun j hj => h.initialByte hlt (hb j hj)⟩
    · -- the page was not in the TLB when it was dropped
      have hnot : m.inTLB q w = false := (hev _ hup).1
      have hu : Untouched m q w := by
        refine ⟨hd, fun i hv hcur hvpn => ?_⟩
        exact absurd hvpn (View.inTLB_eq_false.mp hnot i (hwf.tlb i hv).1 hcur hv)
      have hlt := hlive q hin.live
      exact ⟨Nat.lt_of_lt_of_le hlt h.config.1,
        fun j hj => h.initialByte hlt (hp.bytes q w f j hin hu hj)⟩
  · intro f p v hph
    cases h with
    | note => exact hp.phase f p v hph
    | saveClean => exact hp.phase f p v hph
    | saveDirty =>
      simp only [View.setTlb, View.setEntry, View.emit]
      split
      · rfl
      · exact hp.phase f p v hph
    | claimFree =>
      simp only [Phase.filling.injEq] at hph
      obtain ⟨rfl, rfl, rfl, hd⟩ := hph
      exact hd
    | claimVacant =>
      simp only [Phase.filling.injEq] at hph
      obtain ⟨rfl, rfl, rfl, hd⟩ := hph
      exact hd
    | _ => simp at hph

end Pristine

namespace Kernel

/-- What `initializePage` loads for a COFF page, and what any other page held when it was
    first zero-filled. -/
def initialByte (k : Kernel) (p v j : Nat) : Option UInt8 :=
  if v < (k.process p).numCoffPages then
    let bucket := (k.process p).coffMap v
    bucket.coffSection.map fun s => s.pageByte bucket.sectionPage.toNat j
  else (firstZeroed k.trace p v).map fun frame => frame j

/-- Every page that was dropped without a copy on swap held what it would be made from
    again. -/
def DropsPristine (k : Kernel) : Prop :=
  ∀ q w frame, .dropped q w frame ∈ k.trace → ∀ j < pageSize,
    k.initialByte q w j = some (frame j)

/-- In a run that loses no dirty bit, and in which `zero` finds the same last byte when it
    fills a page again, no modified page is dropped. -/
theorem run_dropsPristine {n : Nat} (hn : 0 < n) {ioBlocks : Bool} {ops : List Op} {k : Kernel}
    (h : (initKernel n ioBlocks).run ops = .ok k) (hev : NoLoss k.trace)
    (hz : StableZero k.trace) : DropsPristine k := by
  have hinv : WF .quiet k.view ∧ (NoLoss k.view.trace → StableZero k.view.trace →
      Coherent k.view ∧ Pristine .quiet k.view) := by
    refine run_invariant (I := fun ph m => WF ph m ∧ (NoLoss m.trace → StableZero m.trace →
      Coherent m ∧ Pristine ph m)) hn ?_ ?_ h
    · refine ⟨wf_initKernel hn ioBlocks, fun _ _ => ⟨?_, ?_, ?_, ?_, ?_⟩⟩
      · intro i p hv
        simp [initKernel, view, TranslationEntry.forget] at hv
      · intro p v f j hin
        have := hin.valid
        simp [initKernel, view, pte, TranslationEntry.forget] at this
      · simp [initKernel, view]
      · simp [initKernel, view]
      · simp
    · rintro ph m ph' m' hm ⟨hwf, hp⟩
      refine ⟨WF.micro hm hwf, fun hev hz => ?_⟩
      obtain ⟨hco, hpr⟩ := hp (hev.suffix hm.trace_suffix) (hz.suffix hm.trace_suffix)
      exact ⟨Coherent.micro hm hwf hco hev.noStale, Pristine.micro hm hwf hco hpr hev hz⟩
  exact fun q w frame hm => ((hinv.2 hev hz).2.dropped q w frame hm).2

/-- One frame, and a kernel copy that reads page 0, page 1 and page 0 again: both pages
    are dropped, and page 0 is zero-filled twice. -/
theorem run_dropsPristine_one_frame :
    ∃ k, (initKernel 1 true).run [.load emptySections, .kernelRead 0 0 [0] 0 1,
      .kernelRead 0 1024 [0] 0 1, .kernelRead 0 0 [0] 0 1] = .ok k ∧ DropsPristine k := by
  obtain ⟨k, hk, htest⟩ := Except.exists_of_map_eq_ok
    (r := (initKernel 1 true).run [.load emptySections, .kernelRead 0 0 [0] 0 1,
      .kernelRead 0 1024 [0] 0 1, .kernelRead 0 0 [0] 0 1])
    (fun k => (k.trace.all fun e => !e.evictsMapped && !e.losesDirty) &&
      k.trace.all fun e => e.zeroStable k.trace) (by decide +kernel)
  simp only [Bool.and_eq_true, List.all_eq_true, Bool.not_eq_true'] at htest
  exact ⟨k, hk, run_dropsPristine (by decide) hk htest.1 htest.2⟩

/-- One frame: byte 7 is stored to page 0, whose dirty bit is in the TLB only, and the
    fault on page 1 drops page 0. -/
theorem not_dropsPristine_one_frame :
    ∃ k, (initKernel 1 true).run [.load emptySections, .contextSwitch (some 0),
      .userStore 0 [7] ⟨0, by decide⟩, .userStore 0 [7] ⟨0, by decide⟩,
      .userLoad 1024 1 ⟨0, by decide⟩] = .ok k ∧ ¬ DropsPristine k := by
  obtain ⟨k, hk, htest⟩ := Except.exists_of_map_eq_ok
    (r := (initKernel 1 true).run [.load emptySections, .contextSwitch (some 0),
      .userStore 0 [7] ⟨0, by decide⟩, .userStore 0 [7] ⟨0, by decide⟩,
      .userLoad 1024 1 ⟨0, by decide⟩])
    (fun k => k.initialByte 0 0 0 == some 0 && k.trace.any fun
      | .dropped q w frame => q == 0 && w == 0 && frame 0 == 7
      | _ => false) (by decide +kernel)
  refine ⟨k, hk, fun hdrop => ?_⟩
  simp only [Bool.and_eq_true, beq_iff_eq, List.any_eq_true] at htest
  obtain ⟨hinit, e, he, hmatch⟩ := htest
  split at hmatch
  · rename_i q w frame
    simp only [Bool.and_eq_true, beq_iff_eq] at hmatch
    obtain ⟨⟨rfl, rfl⟩, hbyte⟩ := hmatch
    have := hdrop 0 0 frame he 0 (by decide)
    rw [hinit, hbyte] at this
    simp at this
  · simp at hmatch

end Kernel

end Nachos
