import Coursework.Nachos.Spec.Pristine
import Coursework.Nachos.Spec.Transparency

/-!
# What a page holds

A page that is in memory or on swap holds, byte for byte, what its process wrote there last,
and where it wrote nothing what the page was made from: its COFF section, or zeros. Two facts
meet here. `Remembers` is about the bytes that were written, `Pristine` about the pages that
were not touched; a page of which some bytes were written needs both, wherever it goes.
-/

namespace Nachos

/-- The byte that a process finds at a place, if it is determined yet: the last byte of a page
    that `zero` makes is not, before it is made. -/
def View.content (m : View) (p v j : Nat) : Option UInt8 :=
  (lastWrite m.trace p (v * pageSize + j)).or (m.initialByte p v j)

/-- What `content` says of a process stays so as long as the process does not write there. -/
theorem Micro.content {ph ph' : Phase} {m m' : View} (h : Micro ph m ph' m') {p v j : Nat}
    {b : UInt8} (hp : p < m.numProcesses)
    (hlast : lastWrite m'.trace p (v * pageSize + j) = lastWrite m.trace p (v * pageSize + j))
    (hb : m.content p v j = some b) : m'.content p v j = some b := by
  simp only [View.content, hlast] at hb ⊢
  cases hw : lastWrite m.trace p (v * pageSize + j) with
  | some b' =>
    rw [hw] at hb
    exact hb
  | none =>
    rw [hw, Option.none_or] at hb
    exact h.initialByte hp hb

/-- Every page in memory and on swap holds its contents. -/
def Holds (ph : Phase) (m : View) : Prop := Stored (fun p v j b => m.content p v j = some b) ph m

/-- A page that is not filled from swap is not marked as modified. -/
theorem Slots.untouched {f p v : Nat} {m : View} (hs : Slots (.filling f p v false) m)
    (hwf : WF (.filling f p v false) m) (hco : Coherent m) : Untouched m p v := by
  obtain ⟨-, -, -, -, hinv⟩ := hwf.phase
  refine ⟨hs.phase, fun i hv hcur hvpn => ?_⟩
  have hmapped := (hco i p hv hcur).1
  rw [hvpn, hinv] at hmapped
  cases hmapped

/-- A fill does not mark a page as modified. -/
theorem Micro.fill_untouched {f p v : Nat} {ph' : Phase} {m m' : View}
    (h : Micro (.filling f p v false) m ph' m') (hwf : WF (.filling f p v false) m)
    (hu : Untouched m p v) (hin : InFrame m' p v f) : Untouched m' p v := by
  have hwf' := WF.micro h hwf
  cases h with
  | note => exact absurd hin.valid (by simp [hwf'.phase.2.2.2.2])
  | saveClean => exact absurd hin.valid (by simp [hwf'.phase.2.2.2.2])
  | saveDirty => exact absurd hin.valid (by simp [hwf'.phase.2.2.2.2])
  | fillCoff => exact ⟨by simpa [View.setEntry] using hu.1, hu.2⟩
  | fillZero => exact ⟨by simpa [View.setEntry, View.emit] using hu.1, hu.2⟩

/-- Every change keeps the contents of all pages. -/
theorem Holds.micro {ph ph' : Phase} {m m' : View} (hh : Holds ph m) (h : Micro ph m ph' m')
    (hwf : WF ph m) (hco : Coherent m) (hs : Slots ph m) (hr : Remembers ph m)
    (hp : Pristine ph m) (hz : StableZero m'.trace) (hmark : NoLostMark m'.trace)
    (hnum : m.numSwapPages ≤ maxSwapPages) : Holds ph' m' := by
  apply Stored.micro h hwf hco hs hh hmark hnum
  · intro p v j b hl _ hlast hb
    exact h.content (hwf.lt_of_live hl) hlast hb
  · intro p v j b _ hb
    rw [View.content, hb, Option.some_or]
  · -- a page that is filled from elsewhere has not been written, so it is what it was first
    rintro p v f j rfl hin hj
    have hu := h.fill_untouched hwf (hs.untouched hwf hco) hin
    have hnot : lastWrite m'.trace p (v * pageSize + j) = none := by
      rw [Option.eq_none_iff_forall_ne_some]
      intro b hb
      rcases h.lastWrite_cases (q := p) (w := v) hco hj with hlast | ⟨hq, -⟩
      · exact hr.not_written_of_filling rfl hwf hco hs hj (hlast.symm.trans hb)
      · cases hq
    rw [View.content, hnot, Option.none_or]
    exact hp.filled rfl h hwf hz hin hu hj

/-! ## Chains from the booted kernel -/

/-- A history in which the kernel lost no dirty bit, `zero` found the last byte it had found
    before, and the swap file stayed below `2^31` bytes. -/
structure Undisturbed (m : View) : Prop where
  noLoss : NoLoss m.trace
  stableZero : StableZero m.trace
  swap : m.numSwapPages ≤ maxSwapPages

theorem Undisturbed.before {ph ph' : Phase} {m m' : View} (h : Undisturbed m')
    (hm : Micro ph m ph' m') : Undisturbed m :=
  ⟨h.noLoss.suffix hm.trace_suffix, h.stableZero.suffix hm.trace_suffix,
    Nat.le_trans hm.numSwapPages_le h.swap⟩

theorem Undisturbed.of_chain {s s' : Phase × View} (h : Undisturbed s'.2) (hc : Chain s s') :
    Undisturbed s.2 := by
  induction hc with
  | refl => exact h
  | tail _ hm ih => exact ih (h.before hm)

/-- The invariants of an undisturbed history. -/
structure Sound (ph : Phase) (m : View) : Prop where
  coherent : Coherent m
  noLostMark : NoLostMark m.trace
  slots : Slots ph m
  remembers : Remembers ph m
  pristine : Pristine ph m
  holds : Holds ph m

theorem Sound.micro {ph ph' : Phase} {m m' : View} (hs : Sound ph m) (hwf : WF ph m)
    (h : Micro ph m ph' m') (hu : Undisturbed m') : Sound ph' m' := by
  obtain ⟨hco, hmark, hslots, hr, hp, hh⟩ := hs
  have hmark' := h.noLostMark hco hmark
  have hnum := (hu.before h).swap
  exact ⟨Coherent.micro h hwf hco hu.noLoss.noStale, hmark', Slots.micro h hwf hslots hmark',
    Remembers.micro h hwf hco hslots hr hu.noLoss hmark' hnum,
    Pristine.micro h hwf hco hp hu.noLoss hu.stableZero,
    hh.micro h hwf hco hslots hr hp hu.stableZero hmark' hnum⟩

namespace Kernel

/-- The booted kernel has no page in memory. -/
theorem not_inFrame_initKernel (n : Nat) (ioBlocks : Bool) (p v f : Nat) :
    ¬ InFrame (initKernel n ioBlocks).view p v f := by
  intro hin
  have hvalid := hin.valid
  simp [initKernel, view, pte, TranslationEntry.forget] at hvalid

theorem sound_initKernel (n : Nat) (ioBlocks : Bool) :
    Sound .quiet (initKernel n ioBlocks).view := by
  have hout := not_inFrame_initKernel n ioBlocks
  constructor
  case slots => constructor <;> simp [initKernel, view, pte, OnSwap, Phase.SlotOk]
  case remembers =>
    refine ⟨fun p v f j b hin => absurd hin (hout p v f), ?_, ?_, ?_, ?_⟩ <;>
      simp [initKernel, view, pte, OnSwap, lastWrite]
  case pristine =>
    refine ⟨fun p v f j hin => absurd hin (hout p v f), ?_, ?_, ?_⟩ <;> simp [initKernel, view]
  case holds =>
    refine ⟨fun p v f j hin => absurd hin (hout p v f), ?_, ?_⟩ <;>
      simp [initKernel, view, OnSwap]
  all_goals simp [initKernel, view, Coherent, NoLostMark, TranslationEntry.forget]

/-- The tables and the contents of all pages, after any undisturbed history. -/
theorem chain_sound {n : Nat} (hn : 0 < n) {ioBlocks : Bool} {s : Phase × View}
    (h : Chain (.quiet, (initKernel n ioBlocks).view) s) :
    WF s.1 s.2 ∧ (Undisturbed s.2 → Sound s.1 s.2) := by
  apply h.invariant (I := fun ph m => WF ph m ∧ (Undisturbed m → Sound ph m))
  · rintro ph m ph' m' hm ⟨hwf, hsound⟩
    exact ⟨WF.micro hm hwf, fun hu => (hsound (hu.before hm)).micro hwf hm hu⟩
  · exact ⟨wf_initKernel hn ioBlocks, fun _ => sound_initKernel n ioBlocks⟩

end Kernel

end Nachos
