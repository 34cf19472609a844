import Coursework.Nachos.Spec.TlbCoherence

/-!
# The bytes of a page

What each change of the view does to the bytes of a page that is in memory, and what is
known about modified pages. A store sets the dirty bit of the TLB entry only, so a page
stays marked as modified as long as that bit gets to the page table: no page is evicted
while the TLB maps it, and no TLB entry is overwritten while it is dirty and its page
table entry is not.
-/

namespace Nachos

/-- `addToTLB` overwrote a dirty entry whose page table entry is clean. -/
def Event.losesDirty : Event → Bool
  | .replaced old tableDirty => old.dirty && !tableDirty
  | _ => false

/-- No dirty bit was lost: no page was evicted while the TLB mapped it, and no dirty TLB
    entry was overwritten before its bit was copied back. -/
def NoLoss (trace : List Event) : Prop :=
  ∀ e ∈ trace, e.evictsMapped = false ∧ e.losesDirty = false

namespace NoLoss

variable {trace trace' : List Event}

theorem suffix (h : NoLoss trace') (hs : trace <:+ trace') : NoLoss trace :=
  fun e he => h e (hs.mem he)

theorem noStale (h : NoLoss trace) : NoStale trace := fun e he => (h e he).1

end NoLoss

/-- The processes and their executables do not change. -/
theorem Micro.config {ph ph' : Phase} {m m' : View} (h : Micro ph m ph' m') :
    m.numProcesses ≤ m'.numProcesses ∧ ∀ p < m.numProcesses,
      m'.numCoffPages p = m.numCoffPages p ∧ m'.coffMap p = m.coffMap p := by
  cases h with
  | spawn hc =>
    refine ⟨Nat.le_succ _, fun p hp => ?_⟩
    have hne : p ≠ m.numProcesses := Nat.ne_of_lt hp
    simp [View.spawn, hne]
  | _ => exact ⟨Nat.le_refl _, fun _ _ => ⟨rfl, rfl⟩⟩

/-- Nothing says that page `v` of `p` was modified: not its page table entry, and not the
    TLB if `p` is running. -/
def Untouched (m : View) (p v : Nat) : Prop :=
  (m.entry p v).dirty = false ∧ ∀ i, (m.tlb i).valid = true → m.current = some p →
    (m.tlb i).vpn = v → (m.tlb i).dirty = false

/-- Overwriting an entry with one that has the same dirty bit. -/
theorem View.dirty_of_update {m : View} {p v q w : Nat} {e : TranslationEntry}
    (h : (if q = p ∧ w = v then e else m.entry q w).dirty = false)
    (he : e.dirty = (m.entry p v).dirty) : (m.entry q w).dirty = false := by
  split at h
  · rename_i heq
    rw [heq.1, heq.2, ← he, h]
  · exact h

/-- A page that was modified stays marked as modified, if no dirty bit is lost. -/
theorem Untouched.of_micro {ph ph' : Phase} {m m' : View} (h : Micro ph m ph' m')
    (hev : NoLoss m'.trace) {p v : Nat} (hp : p < m.numProcesses) (hu : Untouched m' p v) :
    Untouched m p v := by
  obtain ⟨hd, ht⟩ := hu
  cases h with
  | note => exact ⟨hd, ht⟩
  | @saveClean ph m i hv hc =>
    refine ⟨hd, fun j hj hcur hvpn => ?_⟩
    by_cases hji : j = i
    · exact hji ▸ hc
    · have := ht j
      simp only [View.setTlb, Function.update_apply, if_neg hji] at this
      exact this hj hcur hvpn
  | @saveDirty ph m q i before hcur hv hdi hb hn =>
    -- the page of the saved entry is dirty now, so `v` is another page
    simp only [View.setTlb, View.setEntry, View.emit] at hd ht
    split at hd
    · simp at hd
    rename_i hne
    refine ⟨hd, fun j hj hcur' hvpn => ?_⟩
    by_cases hji : j = i
    · subst hji
      obtain rfl : q = p := Option.some.inj (hcur.symm.trans hcur')
      exact absurd ⟨rfl, hvpn.symm⟩ hne
    · have := ht j
      simp only [Function.update_apply, if_neg hji] at this
      exact this hj hcur' hvpn
  | newSlot => exact ⟨hd, ht⟩
  | reuseSlot => exact ⟨hd, ht⟩
  | writeSlot => exact ⟨hd, fun i => ht i⟩
  | dropSaved => exact ⟨View.dirty_of_update hd rfl, ht⟩
  | dropClean => exact ⟨View.dirty_of_update hd rfl, ht⟩
  | claimFree => exact ⟨hd, ht⟩
  | claimVacant => exact ⟨hd, ht⟩
  | fillSwap => exact ⟨View.dirty_of_update hd rfl, fun i => ht i⟩
  | fillCoff => exact ⟨View.dirty_of_update hd rfl, fun i => ht i⟩
  | fillZero => exact ⟨View.dirty_of_update hd rfl, fun i => ht i⟩
  | @addTlb m i q w hcur hn hv hi hold =>
    refine ⟨hd, fun j hj hcur' hvpn => ?_⟩
    have hji : j ≠ i := by
      rintro rfl
      simp [hold] at hj
    have := ht j
    simp only [View.setTlb, Function.update_apply, if_neg hji] at this
    exact this hj hcur' hvpn
  | @replaceTlb m i q w old hcur hn hv hi hb hold =>
    refine ⟨hd, fun j hj hcur' hvpn => ?_⟩
    by_cases hji : j = i
    · -- a dirty entry is overwritten only if the page table says so too
      subst hji
      obtain rfl : q = p := Option.some.inj (hcur.symm.trans hcur')
      have hlost := (hev _ List.mem_cons_self).2
      have hdirty : (m.tlb j).dirty = old.dirty := by rw [← hb]; rfl
      have hvpn' : old.vpn = v := by rw [← hvpn, ← hb]; rfl
      have hclean : (m.entry q v).dirty = false := hd
      simp only [Event.losesDirty, hvpn', hclean, Bool.not_false, Bool.and_true] at hlost
      exact hdirty.trans hlost
    · have := ht j
      simp only [View.setTlb, View.emit, Function.update_apply, if_neg hji] at this
      exact this hj hcur' hvpn
  | userLoad => exact ⟨hd, ht⟩
  | @userStore m i q f off bytes hcur hv hpp hoff =>
    refine ⟨hd, fun j hj hcur' hvpn => ?_⟩
    have := ht j
    simp only [View.setTlb, View.emit, Function.update_apply] at this
    by_cases hji : j = i
    · subst hji
      simp only [if_true] at this
      exact absurd (this hv hcur' hvpn) (by simp)
    · simp only [if_neg hji] at this
      exact this hj hcur' hvpn
  | touch hl hn hv =>
    refine ⟨?_, ht⟩
    simp only [View.setEntry] at hd
    split at hd
    · simp at hd
    · exact hd
  | kernelRead => exact ⟨hd, ht⟩
  | kernelWrite => exact ⟨hd, ht⟩
  | spawn hc =>
    have hne : p ≠ m.numProcesses := Nat.ne_of_lt hp
    simp only [View.spawn, Function.update_apply, if_neg hne] at hd
    exact ⟨hd, ht⟩
  | kill => exact ⟨hd, ht⟩
  | leave htlb => exact ⟨hd, fun i hi => by simp [htlb i] at hi⟩
  | switchTo htlb hlive => exact ⟨hd, fun i hi => by simp [htlb i] at hi⟩

/-! ## Writes -/

/-- The byte that process `p` last wrote at virtual address `a`. -/
def lastWrite : List Event → Nat → Nat → Option UInt8
  | [], _, _ => none
  | .wrote p' va bytes :: trace, p, a =>
    if p' = p ∧ va ≤ a ∧ a < va + bytes.length then bytes[a - va]? else lastWrite trace p a
  | _ :: trace, p, a => lastWrite trace p a

/-- A write within page `v` of `p`, seen from byte `j` of page `w` of `q`. -/
theorem lastWrite_wrote (trace : List Event) {p v off q w j : Nat} {bytes : List UInt8}
    (hoff : off + bytes.length ≤ pageSize) (hj : j < pageSize) :
    lastWrite (.wrote p (v * pageSize + off) bytes :: trace) q (w * pageSize + j) =
      if p = q ∧ v = w ∧ off ≤ j ∧ j < off + bytes.length then bytes[j - off]?
      else lastWrite trace q (w * pageSize + j) := by
  have hrange : (p = q ∧ v * pageSize + off ≤ w * pageSize + j ∧
      w * pageSize + j < v * pageSize + off + bytes.length) ↔
      (p = q ∧ v = w ∧ off ≤ j ∧ j < off + bytes.length) := by
    simp only [pageSize] at *
    omega
  simp only [lastWrite]
  by_cases h : p = q ∧ v = w ∧ off ≤ j ∧ j < off + bytes.length
  · rw [if_pos (hrange.mpr h), if_pos h, h.2.1, Nat.add_sub_add_left]
  · rw [if_neg (mt hrange.mp h), if_neg h]

/-- Bytes of other frames are not overwritten. -/
theorem blit_frame {memory bytes : Nat → UInt8} {f g off n j : Nat} (hoff : off + n ≤ pageSize)
    (hj : j < pageSize) (h : f ≠ g ∨ j < off ∨ off + n ≤ j) :
    blit memory (frameAddr f off) n bytes (frameAddr g j) = memory (frameAddr g j) := by
  apply blit_outside
  simp only [frameAddr, pageSize] at *
  omega

/-- Byte `j` of page `w` of `q`, in frame `g`, after a write to page `v` of `p` in frame `f`:
    it is unchanged, or it is the byte written. -/
theorem store_byte {m : View} {p v f off q w g j : Nat} {bytes : List UInt8}
    (hinj : f = g ↔ p = q ∧ v = w) (hoff : off + bytes.length ≤ pageSize) (hj : j < pageSize) :
    (blit m.memory (frameAddr f off) bytes.length (fun i => bytes.getD i 0) (frameAddr g j) =
        m.memory (frameAddr g j) ∧
      lastWrite (.wrote p (v * pageSize + off) bytes :: m.trace) q (w * pageSize + j) =
        lastWrite m.trace q (w * pageSize + j)) ∨
    (p = q ∧ v = w ∧
      lastWrite (.wrote p (v * pageSize + off) bytes :: m.trace) q (w * pageSize + j) =
        some (blit m.memory (frameAddr f off) bytes.length (fun i => bytes.getD i 0)
          (frameAddr g j))) := by
  rw [lastWrite_wrote _ hoff hj]
  by_cases h : p = q ∧ v = w ∧ off ≤ j ∧ j < off + bytes.length
  · right
    obtain ⟨rfl, rfl, hle, hlt⟩ := h
    obtain rfl : f = g := hinj.mpr ⟨rfl, rfl⟩
    refine ⟨rfl, rfl, ?_⟩
    have hidx : j - off < bytes.length := by omega
    have hadr : frameAddr f j = frameAddr f off + (j - off) := by
      simp only [frameAddr]
      omega
    rw [if_pos ⟨rfl, rfl, hle, hlt⟩, hadr, blit_inside hidx, List.getElem?_eq_getElem hidx]
    simp [hidx]
  · left
    rw [if_neg h]
    refine ⟨blit_frame hoff hj ?_, rfl⟩
    by_cases hfg : f = g
    · right
      obtain ⟨rfl, rfl⟩ := hinj.mp hfg
      omega
    · exact Or.inl hfg

/-! ## Bytes in memory -/

/-- Page `v` of the live process `p` is in frame `f`. -/
structure InFrame (m : View) (p v f : Nat) : Prop where
  live : m.live p = true
  inRange : v < m.numPages p
  valid : (m.entry p v).valid = true
  ppn : (m.entry p v).ppn = f

/-- Pages in the same frame are the same page. -/
theorem InFrame.unique {ph : Phase} {m : View} (hwf : WF ph m) {p v f q w g : Nat}
    (h : InFrame m p v f) (h' : InFrame m q w g) : f = g ↔ p = q ∧ v = w := by
  constructor
  · rintro rfl
    exact hwf.entry_inj h.live h.inRange h.valid h'.live h'.inRange h'.valid
      (h.ppn.trans h'.ppn.symm)
  · rintro ⟨rfl, rfl⟩
    have := h.ppn.symm.trans h'.ppn
    omega

/-- A page that is in a frame after an entry of another page, or only the dirty bit of an
    entry, was overwritten. -/
theorem InFrame.of_update {m : View} {p v q w f : Nat} {e : TranslationEntry}
    (h : InFrame (m.setEntry p v e) q w f)
    (he : ¬ (q = p ∧ w = v) ∨ (e.valid = (m.entry p v).valid ∧ e.ppn = (m.entry p v).ppn)) :
    InFrame m q w f := by
  obtain ⟨hl, hn, hv, hp⟩ := h
  simp only [View.setEntry] at hl hn hv hp
  split at hv
  · rename_i heq
    rw [if_pos heq] at hp
    obtain ⟨hval, hppn⟩ := he.resolve_left (not_not.mpr heq)
    obtain ⟨rfl, rfl⟩ := heq
    exact ⟨hl, hn, hval ▸ hv, hppn ▸ hp⟩
  · rename_i hne
    rw [if_neg hne] at hp
    exact ⟨hl, hn, hv, hp⟩

/-- A page that is in a frame after an entry became invalid is another page. -/
theorem InFrame.of_invalid {m : View} {p v q w f : Nat} {e : TranslationEntry}
    (h : InFrame (m.setEntry p v e) q w f) (he : e.valid = false) : InFrame m q w f := by
  refine h.of_update (Or.inl fun heq => ?_)
  have hv := h.valid
  simp only [View.setEntry, if_pos heq, he] at hv
  simp at hv

/-- What a change does to a byte of a page that is in memory afterwards: nothing, or the
    page has just been filled, or the byte was written by its process. -/
inductive PageByte (ph : Phase) (m m' : View) (q w g j : Nat) : Prop where
  | same (hin : InFrame m q w g) (hmem : m'.memory (frameAddr g j) = m.memory (frameAddr g j))
      (hlast : lastWrite m'.trace q (w * pageSize + j) = lastWrite m.trace q (w * pageSize + j))
  | filled (onSwap : Bool) (hph : ph = .filling g q w onSwap)
  | wrote (hlast : lastWrite m'.trace q (w * pageSize + j) = some (m'.memory (frameAddr g j)))
      (hmod : ¬ Untouched m' q w)

/-- A fill overwrites the bytes of its own frame only. -/
theorem PageByte.fill {f p v q w g j : Nat} {onSwap : Bool} {m m' : View} {e : TranslationEntry}
    (hwf' : WF .quiet m') (he : m'.entry = (m.setEntry p v e).entry) (hl : m'.live = m.live)
    (hn : m'.numPages = m.numPages) (hin : InFrame m' q w g) (hfill : InFrame m' p v f)
    (hmem : f ≠ g → m'.memory (frameAddr g j) = m.memory (frameAddr g j))
    (hlast : lastWrite m'.trace q (w * pageSize + j) = lastWrite m.trace q (w * pageSize + j)) :
    PageByte (.filling f p v onSwap) m m' q w g j := by
  by_cases hfg : f = g
  · obtain ⟨rfl, rfl⟩ := (hfill.unique hwf' hin).mp hfg
    exact .filled onSwap (by rw [hfg])
  · have hne : ¬ (q = p ∧ w = v) := by
      rintro ⟨rfl, rfl⟩
      exact hfg ((hfill.unique hwf' hin).mpr ⟨rfl, rfl⟩)
    refine .same (InFrame.of_update (e := e) ⟨?_, ?_, ?_, ?_⟩ (Or.inl hne)) (hmem hfg) hlast
    · exact hl ▸ hin.live
    · exact hn ▸ hin.inRange
    · exact he ▸ hin.valid
    · exact he ▸ hin.ppn

theorem Micro.page_byte {ph ph' : Phase} {m m' : View} (h : Micro ph m ph' m') (hwf : WF ph m)
    (hco : Coherent m) {q w g j : Nat} (hj : j < pageSize) (hin : InFrame m' q w g) :
    PageByte ph m m' q w g j := by
  have hwf' := WF.micro h hwf
  cases h with
  | note e he =>
    refine .same ⟨hin.live, hin.inRange, hin.valid, hin.ppn⟩ rfl ?_
    cases e <;> first | rfl | simp [Event.isPin] at he
  | saveClean => exact .same ⟨hin.live, hin.inRange, hin.valid, hin.ppn⟩ rfl rfl
  | @saveDirty ph m p i before hcur hv hd hb hn =>
    exact .same (InFrame.of_update (m := m) (p := p) (v := (m.tlb i).vpn)
      (e := { m.entry p (m.tlb i).vpn with dirty := true })
      ⟨hin.live, hin.inRange, hin.valid, hin.ppn⟩ (Or.inr ⟨rfl, rfl⟩)) rfl rfl
  | newSlot => exact .same ⟨hin.live, hin.inRange, hin.valid, hin.ppn⟩ rfl rfl
  | reuseSlot => exact .same ⟨hin.live, hin.inRange, hin.valid, hin.ppn⟩ rfl rfl
  | writeSlot => exact .same ⟨hin.live, hin.inRange, hin.valid, hin.ppn⟩ rfl rfl
  | @dropSaved m p v f spn =>
    exact .same (InFrame.of_invalid (m := m) (p := p) (v := v)
      (e := { m.entry p v with ppn := spn, valid := false })
      ⟨hin.live, hin.inRange, hin.valid, hin.ppn⟩ rfl) rfl rfl
  | @dropClean m p v f hl hn hv hd hp =>
    exact .same (InFrame.of_invalid (m := m) (p := p) (v := v)
      (e := { m.entry p v with valid := false })
      ⟨hin.live, hin.inRange, hin.valid, hin.ppn⟩ rfl) rfl rfl
  | claimFree => exact .same ⟨hin.live, hin.inRange, hin.valid, hin.ppn⟩ rfl rfl
  | claimVacant => exact .same ⟨hin.live, hin.inRange, hin.valid, hin.ppn⟩ rfl rfl
  | @fillSwap m f p v =>
    obtain ⟨-, -, hl, hn, -⟩ := hwf.phase
    refine PageByte.fill hwf' rfl rfl rfl hin
      ⟨hl, hn, by simp [View.setEntry], by simp [View.setEntry]⟩ (fun hfg => ?_) rfl
    simp only [HostFile.read]
    split
    · rfl
    · exact blit_frame (by omega) hj (Or.inl hfg)
  | @fillCoff m f p v s hc hs =>
    obtain ⟨-, -, hl, hn, -⟩ := hwf.phase
    exact PageByte.fill hwf' rfl rfl rfl hin
      ⟨hl, hn, by simp [View.setEntry], by simp [View.setEntry]⟩
      (fun hfg => blit_frame (by omega) hj (Or.inl hfg)) rfl
  | @fillZero m f p v memory hc hm =>
    obtain ⟨-, -, hl, hn, -⟩ := hwf.phase
    refine PageByte.fill hwf' rfl rfl rfl hin
      ⟨hl, hn, by simp [View.setEntry], by simp [View.setEntry]⟩ (fun hfg => ?_) rfl
    have hsize : 0 + (pageSize - 1) ≤ pageSize := by simp [pageSize]
    dsimp only
    rw [hm]
    exact blit_frame hsize hj (Or.inl hfg)
  | addTlb => exact .same ⟨hin.live, hin.inRange, hin.valid, hin.ppn⟩ rfl rfl
  | replaceTlb => exact .same ⟨hin.live, hin.inRange, hin.valid, hin.ppn⟩ rfl rfl
  | userLoad => exact .same ⟨hin.live, hin.inRange, hin.valid, hin.ppn⟩ rfl rfl
  | @userStore m i p f off bytes hcur hv hp hoff =>
    have hin' : InFrame m q w g := ⟨hin.live, hin.inRange, hin.valid, hin.ppn⟩
    -- the store goes to the frame of the running process's page
    have hst : InFrame m p (m.tlb i).vpn f := by
      obtain ⟨hval, hppn⟩ := hco i p hv hcur
      obtain ⟨-, p', -, hcur', hn, -⟩ := hwf.tlb i hv
      obtain rfl : p = p' := Option.some.inj (hcur.symm.trans hcur')
      exact ⟨(hwf.current p hcur).resolve_right (by simp), hn, hval, hppn.trans hp⟩
    rcases store_byte (hst.unique hwf hin') hoff hj with ⟨hmem, hlast⟩ | ⟨rfl, rfl, hlast⟩
    · exact .same hin' hmem hlast
    · refine .wrote hlast fun hu => ?_
      have := hu.2 i
      simp only [View.setTlb, View.emit, Function.update_self] at this
      exact absurd (this hv hcur trivial) (by simp)
  | @touch m p v hl hn hv =>
    exact .same (InFrame.of_update (m := m) (p := p) (v := v)
      (e := { m.entry p v with dirty := true }) hin (Or.inr ⟨rfl, rfl⟩)) rfl rfl
  | kernelRead => exact .same ⟨hin.live, hin.inRange, hin.valid, hin.ppn⟩ rfl rfl
  | @kernelWrite m p v f off bytes hl hn hv hd hp hoff =>
    have hin' : InFrame m q w g := ⟨hin.live, hin.inRange, hin.valid, hin.ppn⟩
    have hst : InFrame m p v f := ⟨hl, hn, hv, hp⟩
    rcases store_byte (hst.unique hwf hin') hoff hj with ⟨hmem, hlast⟩ | ⟨rfl, rfl, hlast⟩
    · exact .same hin' hmem hlast
    · refine .wrote hlast fun hu => ?_
      have := hu.1
      simp only [View.emit] at this
      simp [hd] at this
  | @spawn m child hc =>
    have hne : q ≠ m.numProcesses := by
      rintro rfl
      have hv := hin.valid
      simp [View.spawn, hc.invalid] at hv
    obtain ⟨hl, hn, hv, hp⟩ := hin
    simp only [View.spawn, Function.update_apply, if_neg hne] at hl hn hv hp
    exact .same ⟨hl, hn, hv, hp⟩ rfl rfl
  | @kill m p hlive =>
    have hl := hin.live
    simp only [View.kill, Function.update_apply] at hl
    split at hl
    · simp at hl
    · exact .same ⟨hl, hin.inRange, hin.valid, hin.ppn⟩ rfl rfl
  | leave => exact .same ⟨hin.live, hin.inRange, hin.valid, hin.ppn⟩ rfl rfl
  | switchTo => exact .same ⟨hin.live, hin.inRange, hin.valid, hin.ppn⟩ rfl rfl

end Nachos
