import Coursework.Nachos.Spec.PageBytes
import Coursework.Nachos.Spec.SwapSlots

/-!
# The bytes of a page, wherever it is

A page that is not being filled or written keeps its bytes: in its frame, in its swap
slot, and on the way between the two. `Stored` says that the bytes of all pages satisfy
a given predicate, and `Stored.micro` reduces its preservation to the pages that are
filled from elsewhere. The swap file must stay below `2^31` bytes, as its byte addresses
are Java `int`s.
-/

namespace Nachos

/-- The number of slots below which every byte address of the swap file is an `int`. -/
def maxSwapPages : Nat := 2 ^ 21

/-! ## Swap slots as byte ranges -/

/-- The byte address of a slot does not overflow. -/
theorem swapAddr_eq {spn : Nat} (h : spn < maxSwapPages) :
    wrap32 ((spn : Int) * pageSize) = (spn * pageSize : Nat) := by
  simp only [maxSwapPages, pageSize, wrap32, Int.bmod] at *
  omega

/-- Byte `j` of a slot. -/
def HostFile.slotByte (file : HostFile) (spn j : Nat) : UInt8 := file.bytes (spn * pageSize + j)

/-- Writing a slot: its bytes, the bytes of other slots, and the length of the file. -/
theorem HostFile.write_slot (file : HostFile) {spn : Nat} (page : Nat → UInt8)
    (h : spn < maxSwapPages) :
    (∀ j < pageSize, (file.write (wrap32 ((spn : Int) * pageSize)) pageSize page).slotByte spn j =
      page j) ∧
    (∀ s j, s ≠ spn → j < pageSize →
      (file.write (wrap32 ((spn : Int) * pageSize)) pageSize page).slotByte s j =
        file.slotByte s j) ∧
    (spn + 1) * pageSize ≤ (file.write (wrap32 ((spn : Int) * pageSize)) pageSize page).length ∧
    file.length ≤ (file.write (wrap32 ((spn : Int) * pageSize)) pageSize page).length := by
  rw [swapAddr_eq h]
  have hpos : ¬ ((spn * pageSize : Nat) : Int) < 0 := by omega
  simp only [HostFile.write, if_neg hpos, Int.toNat_natCast, HostFile.slotByte]
  refine ⟨fun j hj => blit_inside hj, fun s j hs hj => blit_outside ?_, ?_, ?_⟩
  · simp only [pageSize] at *
    omega
  · rw [Nat.succ_mul]
    exact Nat.le_max_right _ _
  · exact Nat.le_max_left _ _

/-- Reading a slot that was written. -/
theorem HostFile.read_slot {file : HostFile} {spn f j : Nat} {memory : Nat → UInt8}
    (h : spn < maxSwapPages) (hlen : (spn + 1) * pageSize ≤ file.length) (hj : j < pageSize) :
    file.read (wrap32 ((spn : Int) * pageSize)) pageSize memory (frameAddr f 0) (frameAddr f j) =
      file.slotByte spn j := by
  rw [swapAddr_eq h]
  have hpos : ¬ ((spn * pageSize : Nat) : Int) < 0 := by omega
  have hmin : min pageSize (file.length - spn * pageSize) = pageSize := by
    rw [Nat.succ_mul] at hlen
    omega
  simp only [HostFile.read, if_neg hpos, Int.toNat_natCast, hmin, HostFile.slotByte]
  rw [show frameAddr f j = frameAddr f 0 + j by simp [frameAddr], blit_inside hj]

/-! ## What a change does to the history and to the swap file -/

/-- The last event, if it is a read, with the history before it. -/
def lastRead : List Event → Option (Nat × Nat × List UInt8 × List Event)
  | .read p va bytes :: trace => some (p, va, bytes, trace)
  | _ => none

theorem lastRead_eq_some {trace earlier : List Event} {p va : Nat} {bytes : List UInt8}
    (h : lastRead trace = some (p, va, bytes, earlier)) : trace = .read p va bytes :: earlier := by
  unfold lastRead at h
  split at h
  · cases h
    rfl
  · cases h

/-- A change writes at most to a page that is in memory and is marked afterwards. -/
theorem Micro.lastWrite_cases {ph ph' : Phase} {m m' : View} (h : Micro ph m ph' m')
    (hco : Coherent m) {q w j : Nat} (hj : j < pageSize) :
    lastWrite m'.trace q (w * pageSize + j) = lastWrite m.trace q (w * pageSize + j) ∨
    (ph = .quiet ∧ (m.entry q w).valid = true ∧ ¬ Untouched m' q w) := by
  cases h with
  | note e he =>
    left
    cases e <;> first | rfl | simp [Event.isPin] at he
  | @userStore m i p f off bytes hcur hv hp hoff =>
    have heq := lastWrite_wrote m.trace (p := p) (v := (m.tlb i).vpn) (q := q) (w := w)
      hoff hj
    by_cases hpage : p = q ∧ (m.tlb i).vpn = w
    · right
      obtain ⟨rfl, rfl⟩ := hpage
      refine ⟨rfl, (hco i p hv hcur).1, fun hu => ?_⟩
      have := hu.2 i
      simp only [View.setTlb, View.emit, Function.update_self] at this
      exact absurd (this hv hcur trivial) (by simp)
    · left
      rw [if_neg fun h => hpage ⟨h.1, h.2.1⟩] at heq
      exact heq
  | @kernelWrite m p v f off bytes hl hn hv hd hp hoff =>
    have heq := lastWrite_wrote m.trace (p := p) (v := v) (q := q) (w := w) hoff hj
    by_cases hpage : p = q ∧ v = w
    · right
      obtain ⟨rfl, rfl⟩ := hpage
      refine ⟨rfl, hv, fun hu => ?_⟩
      have hclean : (m.entry p v).dirty = false := hu.1
      simp [hd] at hclean
    · left
      rw [if_neg fun h => hpage ⟨h.1, h.2.1⟩] at heq
      exact heq
  | _ => exact Or.inl rfl

/-- The swap file changes only when a page is saved. -/
theorem Micro.swapFile_cases {ph ph' : Phase} {m m' : View} (h : Micro ph m ph' m') :
    m'.swapFile = m.swapFile ∨ ∃ q w f spn, ph = .saving q w f spn false ∧
      m'.swapFile = m.swapFile.write (wrap32 ((spn : Int) * pageSize)) pageSize
        fun i => m.memory (frameAddr f i) := by
  cases h with
  | @writeSlot m q w f spn => exact Or.inr ⟨q, w, f, spn, rfl, by dsimp only⟩
  | _ => exact Or.inl rfl

theorem Micro.numSwapPages_le {ph ph' : Phase} {m m' : View} (h : Micro ph m ph' m') :
    m.numSwapPages ≤ m'.numSwapPages := by
  cases h with
  | newSlot => exact Nat.le_succ _
  | _ => exact Nat.le_refl _

/-- With a coherent TLB, `saveState` marks only pages that are in memory. -/
theorem Micro.noLostMark {ph ph' : Phase} {m m' : View} (h : Micro ph m ph' m')
    (hco : Coherent m) (hev : NoLostMark m.trace) : NoLostMark m'.trace := by
  have hcons : ∀ e, e.marksLost = false → NoLostMark (e :: m.trace) := by
    intro e he e' he'
    rcases List.mem_cons.mp he' with rfl | he'
    · exact he
    · exact hev e' he'
  cases h with
  | note e he => exact hcons e (by cases e <;> first | rfl | simp [Event.isPin] at he)
  | saveDirty before hcur hv hd hb hn =>
    have hval := (hco _ _ hv hcur).1
    rw [← hb] at hval
    refine hcons _ ?_
    simp only [TranslationEntry.forget_valid] at hval
    simp [Event.marksLost, hval]
  | dropClean =>
    intro e he
    rcases List.mem_cons.mp he with rfl | he
    · rfl
    · exact hcons _ rfl e he
  | dropSaved => exact hcons _ rfl
  | fillZero => exact hcons _ rfl
  | replaceTlb => exact hcons _ rfl
  | userLoad => exact hcons _ rfl
  | userStore => exact hcons _ rfl
  | kernelRead => exact hcons _ rfl
  | kernelWrite => exact hcons _ rfl
  | _ => exact hev

/-- A live process has a number below that of the next one. -/
theorem WF.lt_of_live {ph : Phase} {m : View} (hwf : WF ph m) {p : Nat} (hl : m.live p = true) :
    p < m.numProcesses := by
  by_contra hge
  rw [hwf.fresh p (Nat.le_of_not_lt hge)] at hl
  cases hl

/-! ## The invariant -/

/-- The bytes of the pages in memory and on swap satisfy `ok`, and a slot that has been
    written for a page holds the bytes of the frame. -/
structure Stored (ok : Nat → Nat → Nat → UInt8 → Prop) (ph : Phase) (m : View) : Prop where
  memory : ∀ p v f j, InFrame m p v f → j < pageSize → ok p v j (m.memory (frameAddr f j))
  swap : ∀ p v (s : Nat), OnSwap m p v → (m.entry p v).ppn = s →
    (s + 1) * pageSize ≤ m.swapFile.length ∧ ∀ j < pageSize, ok p v j (m.swapFile.slotByte s j)
  phase : ∀ q w f spn, ph = .saving q w f spn true → (spn + 1) * pageSize ≤ m.swapFile.length ∧
    ∀ j < pageSize, m.swapFile.slotByte spn j = m.memory (frameAddr f j)

namespace Stored

variable {ok ok' : Nat → Nat → Nat → UInt8 → Prop} {ph : Phase} {m : View}

/-- A page that has just been read back from swap. -/
theorem fillSwap {f p v : Nat} (hst : Stored ok (.filling f p v true) m)
    (hwf : WF (.filling f p v true) m) (hs : Slots (.filling f p v true) m)
    (hnum : m.numSwapPages ≤ maxSwapPages) {j : Nat} (hj : j < pageSize) :
    ok p v j (m.swapFile.read (wrap32 ((m.entry p v).ppn * pageSize)) pageSize m.memory
      (frameAddr f 0) (frameAddr f j)) := by
  obtain ⟨-, -, hl, hn, hinv⟩ := hwf.phase
  have hon : OnSwap m p v := ⟨hl, hn, hinv, hs.phase⟩
  obtain ⟨s, hp, hlt, -⟩ := hs.held p v hon
  obtain ⟨hlen, hbyte⟩ := hst.swap p v s hon hp
  rw [hp, HostFile.read_slot (Nat.lt_of_lt_of_le hlt hnum) hlen hj]
  exact hbyte j hj

/-- A slot that has been written holds the bytes of the frame. -/
theorem phase_micro {ph' : Phase} {m' : View} (h : Micro ph m ph' m') (hs : Slots ph m)
    (hst : Stored ok ph m) (hnum : m.numSwapPages ≤ maxSwapPages) {q w f spn : Nat}
    (hph : ph' = .saving q w f spn true) : (spn + 1) * pageSize ≤ m'.swapFile.length ∧
      ∀ j < pageSize, m'.swapFile.slotByte spn j = m'.memory (frameAddr f j) := by
  cases h with
  | note => exact hst.phase q w f spn hph
  | saveClean => exact hst.phase q w f spn hph
  | saveDirty => exact hst.phase q w f spn hph
  | @writeSlot m q' w' f' spn' =>
    simp only [Phase.saving.injEq, and_true] at hph
    obtain ⟨rfl, rfl, rfl, rfl⟩ := hph
    obtain ⟨hown, -, hlen, -⟩ := HostFile.write_slot m.swapFile
      (fun i => m.memory (frameAddr f' i)) (Nat.lt_of_lt_of_le hs.phase.1 hnum)
    dsimp only
    exact ⟨hlen, hown⟩
  | _ => simp at hph

/-- The bytes of the pages on swap. -/
theorem swap_micro {ph' : Phase} {m' : View} (h : Micro ph m ph' m') (hwf : WF ph m)
    (hco : Coherent m) (hs : Slots ph m) (hst : Stored ok ph m) (hmark : NoLostMark m'.trace)
    (hnum : m.numSwapPages ≤ maxSwapPages)
    (hsame : ∀ p v j b, m.live p = true → j < pageSize → lastWrite m'.trace p (v * pageSize + j) =
      lastWrite m.trace p (v * pageSize + j) → ok p v j b → ok' p v j b)
    {p v s : Nat} (hon : OnSwap m' p v) (hp : (m'.entry p v).ppn = s) :
    (s + 1) * pageSize ≤ m'.swapFile.length ∧
    ∀ j < pageSize, ok' p v j (m'.swapFile.slotByte s j) := by
  rcases h.onSwap_cases hmark hon with ⟨hon₀, hp₀⟩ | ⟨f, spn, hph, hspn⟩
  · -- the page was on swap before, in the same slot, and nothing was written to it
    obtain ⟨hlen, hbyte⟩ := hst.swap p v s hon₀ (hp₀.symm.trans hp)
    have hlast : ∀ j, j < pageSize → lastWrite m'.trace p (v * pageSize + j) =
        lastWrite m.trace p (v * pageSize + j) := by
      intro j hj
      rcases h.lastWrite_cases hco hj with hlast | ⟨-, hval, -⟩
      · exact hlast
      · simp [hon₀.2.2.1] at hval
    rcases h.swapFile_cases with hfile | ⟨q, w, f, spn, rfl, hfile⟩
    · rw [hfile]
      exact ⟨hlen, fun j hj => hsame p v j _ hon₀.1 hj (hlast j hj) (hbyte j hj)⟩
    · obtain ⟨hlt, -, hnot⟩ := hs.phase
      have hne : s ≠ spn := by
        rintro rfl
        exact hnot p v hon₀ (hp₀.symm.trans hp)
      obtain ⟨-, hother, -, hgrow⟩ := HostFile.write_slot m.swapFile
        (fun i => m.memory (frameAddr f i)) (Nat.lt_of_lt_of_le hlt hnum)
      rw [hfile]
      refine ⟨Nat.le_trans hlen hgrow, fun j hj => ?_⟩
      rw [hother s j hne hj]
      exact hsame p v j _ hon₀.1 hj (hlast j hj) (hbyte j hj)
  · -- the page has just been saved: the slot holds the bytes of its frame
    subst hph
    obtain rfl : s = spn := by omega
    obtain ⟨hl, hn, hv, -, hpp⟩ := hwf.phase
    obtain ⟨hlen, hbyte⟩ := hst.phase p v f s rfl
    have hfile : m'.swapFile = m.swapFile := by
      rcases h.swapFile_cases with hfile | ⟨_, _, _, _, heq, -⟩
      · exact hfile
      · simp at heq
    rw [hfile]
    refine ⟨hlen, fun j hj => ?_⟩
    rcases h.lastWrite_cases hco hj with hlast | ⟨hq, -⟩
    · rw [hbyte j hj]
      exact hsame p v j _ hl hj hlast (hst.memory p v f j ⟨hl, hn, hv, hpp⟩ hj)
    · simp at hq

/-- Every change keeps the bytes of all pages, if it does so for a byte that is not
    written, for a byte that is, and for a page that is not filled from swap. -/
theorem micro {ph' : Phase} {m' : View} (h : Micro ph m ph' m') (hwf : WF ph m)
    (hco : Coherent m) (hs : Slots ph m) (hst : Stored ok ph m) (hmark : NoLostMark m'.trace)
    (hnum : m.numSwapPages ≤ maxSwapPages)
    (hsame : ∀ p v j b, m.live p = true → j < pageSize → lastWrite m'.trace p (v * pageSize + j) =
      lastWrite m.trace p (v * pageSize + j) → ok p v j b → ok' p v j b)
    (hwrote : ∀ p v j b, j < pageSize → lastWrite m'.trace p (v * pageSize + j) = some b →
      ok' p v j b)
    (hfilled : ∀ p v f j, ph = .filling f p v false → InFrame m' p v f → j < pageSize →
      ok' p v j (m'.memory (frameAddr f j))) : Stored ok' ph' m' := by
  refine ⟨fun p v f j hin hj => ?_, fun p v s hon hp => ?_, fun q w f spn hph => ?_⟩
  · cases h.page_byte hwf hco hj hin with
    | same hin₀ hmem hlast =>
      rw [hmem]
      exact hsame p v j _ hin₀.live hj hlast (hst.memory p v f j hin₀ hj)
    | filled onSwap hph =>
      cases onSwap with
      | false => exact hfilled p v f j hph hin hj
      | true =>
        subst hph
        have hwf' := WF.micro h hwf
        obtain ⟨-, -, hl, -⟩ := hwf.phase
        cases h with
        | note => exact absurd hin.valid (by simp [hwf'.phase.2.2.2.2])
        | saveClean => exact absurd hin.valid (by simp [hwf'.phase.2.2.2.2])
        | saveDirty => exact absurd hin.valid (by simp [hwf'.phase.2.2.2.2])
        | fillSwap => exact hsame p v j _ hl hj rfl (hst.fillSwap hwf hs hnum hj)
    | wrote hlast hmod => exact hwrote p v j _ hj hlast
  · exact swap_micro h hwf hco hs hst hmark hnum hsame hon hp
  · exact hst.phase_micro h hs hnum hph

end Stored

end Nachos
