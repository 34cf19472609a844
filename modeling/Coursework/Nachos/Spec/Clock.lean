import Coursework.Nachos.Spec.Shapes
import Mathlib.Data.Nat.Find

/-!
# The clock

The hand of `clockAlgorithm` comes to the frames in a fixed order, and what it leaves
behind after `j` frames can be written down: the used bits of those frames and of the
pages in them are clear, and nothing else is different (`Kernel.swept`). The loop follows
that description until it comes to a frame it can hand out, which is before the end of
the second sweep.
-/

namespace Nachos

/-- The clock hands out a frame that is unassigned, or unpinned with its used bit clear. -/
def InvertedBucket.victim (b : InvertedBucket) : Bool := !b.assigned || (!b.pinned && !b.used)

namespace Kernel

/-! ## What the hand leaves behind -/

/-- The frame the hand comes to after `j` others. -/
def handAt (k : Kernel) (j : Nat) : Nat := (k.currentPage + j) % k.numPhysPages

/-- Is `f` among the first `j` frames the hand comes to? -/
def passed (k : Kernel) (j f : Nat) : Bool := (List.range j).any fun i => k.handAt i == f

/-- Does the inverted page table say that frame `f` holds page `v` of process `p`? -/
def holds (k : Kernel) (f p v : Nat) : Bool :=
  (k.invertedPageTable f).process.any (· == p) && (k.invertedPageTable f).tEntry.vpn == v

/-- Is page `v` of process `p` in one of the first `j` frames the hand comes to? -/
def passedPage (k : Kernel) (j p v : Nat) : Bool :=
  (List.range j).any fun i => k.holds (k.handAt i) p v

/-- Is one of the first `j` frames the hand comes to not pinned? -/
def passedUnpinned (k : Kernel) (j : Nat) : Bool :=
  (List.range j).any fun i => !(k.invertedPageTable (k.handAt i)).pinned

/-- The inverted page table after the hand has passed over `j` frames. -/
def sweptTable (k : Kernel) (j f : Nat) : InvertedBucket :=
  { k.invertedPageTable f with used := (k.invertedPageTable f).used && !k.passed j f }

/-- The page tables after the hand has passed over `j` frames. -/
def sweptEntry (k : Kernel) (j p v : Nat) : TranslationEntry :=
  { k.pte p v with used := (k.pte p v).used && !k.passedPage j p v }

/-- The kernel after the hand has passed over `j` frames. -/
def swept (k : Kernel) (j : Nat) : Kernel :=
  { k with
    invertedPageTable := k.sweptTable j
    process := fun p => { k.process p with pageTable := k.sweptEntry j p }
    currentPage := if j = 0 then k.currentPage else k.handAt (j - 1) + 1 }

theorem swept_zero (k : Kernel) : k.swept 0 = k := by
  have htable : k.sweptTable 0 = k.invertedPageTable := by
    funext f
    simp [sweptTable, passed]
  have hprocess : (fun p => { k.process p with pageTable := k.sweptEntry 0 p }) = k.process := by
    funext p
    have hpages : k.sweptEntry 0 p = (k.process p).pageTable := by
      funext v
      simp [sweptEntry, passedPage, pte]
    rw [hpages]
  simp only [swept]
  rw [htable, hprocess]
  rfl

theorem passed_succ (k : Kernel) (j f : Nat) :
    k.passed (j + 1) f = (k.passed j f || k.handAt j == f) := by
  simp [passed, List.range_succ]

theorem passedPage_succ (k : Kernel) (j p v : Nat) :
    k.passedPage (j + 1) p v = (k.passedPage j p v || k.holds (k.handAt j) p v) := by
  simp [passedPage, List.range_succ]

theorem passedUnpinned_succ (k : Kernel) (j : Nat) :
    k.passedUnpinned (j + 1) =
      (k.passedUnpinned j || !(k.invertedPageTable (k.handAt j)).pinned) := by
  simp [passedUnpinned, List.range_succ]

/-! ## The order of the hand -/

theorem handAt_lt {k : Kernel} (hn : 0 < k.numPhysPages) (j : Nat) :
    k.handAt j < k.numPhysPages :=
  Nat.mod_lt _ hn

/-- The hand comes to the same frame one sweep later. -/
theorem handAt_add (k : Kernel) (j : Nat) : k.handAt (j + k.numPhysPages) = k.handAt j := by
  show (k.currentPage + (j + k.numPhysPages)) % k.numPhysPages = _
  rw [← Nat.add_assoc, Nat.add_mod_right]
  rfl

/-- Where the hand points is the next frame it comes to. -/
theorem swept_hand (k : Kernel) (j : Nat) :
    (k.swept j).currentPage % k.numPhysPages = k.handAt j := by
  cases j with
  | zero => rfl
  | succ j =>
    show ((k.currentPage + j) % k.numPhysPages + 1) % k.numPhysPages = _
    rw [Nat.mod_add_mod]
    rfl

/-- One sweep comes to every frame. -/
theorem exists_handAt {k : Kernel} {f : Nat} (hf : f < k.numPhysPages) :
    ∃ j < k.numPhysPages, k.handAt j = f := by
  have hn : 0 < k.numPhysPages := Nat.zero_lt_of_lt hf
  have hc : k.currentPage % k.numPhysPages < k.numPhysPages := Nat.mod_lt _ hn
  have hmod : ∀ j, k.handAt j = (k.currentPage % k.numPhysPages + j) % k.numPhysPages := by
    intro j
    rw [Nat.mod_add_mod]
    rfl
  by_cases h : k.currentPage % k.numPhysPages ≤ f
  · -- ahead of the hand
    have hsum : k.currentPage % k.numPhysPages + (f - k.currentPage % k.numPhysPages) = f := by
      omega
    refine ⟨f - k.currentPage % k.numPhysPages, by omega, ?_⟩
    rw [hmod, hsum, Nat.mod_eq_of_lt hf]
  · -- behind it: the hand goes over the end of the table first
    have hsum : k.currentPage % k.numPhysPages
        + (f + k.numPhysPages - k.currentPage % k.numPhysPages) = f + k.numPhysPages := by
      omega
    refine ⟨f + k.numPhysPages - k.currentPage % k.numPhysPages, by omega, ?_⟩
    rw [hmod, hsum, Nat.add_mod_right, Nat.mod_eq_of_lt hf]

/-! ## One frame -/

/-- Each assigned frame belongs to a page of a process. -/
def FramesOwned (k : Kernel) : Prop :=
  ∀ f < k.numPhysPages, (k.invertedPageTable f).assigned = true →
    ∃ p, (k.invertedPageTable f).process = some p ∧
      (k.invertedPageTable f).tEntry.vpn < (k.process p).numPages

/-- The frame the hand comes to after `j` others, as it is then. -/
def visited (k : Kernel) (j : Nat) : InvertedBucket := k.sweptTable j (k.handAt j)

theorem sweptTable_succ (k : Kernel) (j : Nat) :
    Function.update (k.sweptTable j) (k.handAt j) { k.visited j with used := false } =
      k.sweptTable (j + 1) := by
  funext f
  by_cases hf : f = k.handAt j
  · subst hf
    simp [visited, sweptTable, passed_succ]
  · have hne : (k.handAt j == f) = false := beq_eq_false_iff_ne.mpr (Ne.symm hf)
    rw [Function.update_of_ne hf]
    simp [sweptTable, passed_succ, hne]

theorem sweptEntry_succ {k : Kernel} {j p : Nat}
    (hp : (k.invertedPageTable (k.handAt j)).process = some p) (q v : Nat) :
    k.sweptEntry (j + 1) q v =
      if q = p ∧ v = (k.invertedPageTable (k.handAt j)).tEntry.vpn then
        { k.sweptEntry j q v with used := false }
      else k.sweptEntry j q v := by
  have hholds : k.holds (k.handAt j) q v = true ↔
      q = p ∧ v = (k.invertedPageTable (k.handAt j)).tEntry.vpn := by
    simp only [holds, hp, Option.any_some, Bool.and_eq_true, beq_iff_eq]
    exact and_congr eq_comm eq_comm
  by_cases h : q = p ∧ v = (k.invertedPageTable (k.handAt j)).tEntry.vpn
  · rw [if_pos h]
    simp [sweptEntry, passedPage_succ, hholds.mpr h]
  · have hnot : k.holds (k.handAt j) q v = false := Bool.eq_false_iff.mpr (mt hholds.mp h)
    rw [if_neg h]
    simp [sweptEntry, passedPage_succ, hnot]

/-- `passOver` when the frame has an owner. -/
theorem passOver_eq {k : Kernel} {c p : Nat} (hp : (k.invertedPageTable c).process = some p)
    (hv : (k.invertedPageTable c).tEntry.vpn < (k.process p).numPages) :
    k.passOver c = .ok
      { (k.setFrame c { k.invertedPageTable c with used := false }).setPTE p
          (k.invertedPageTable c).tEntry.vpn
          { k.pte p (k.invertedPageTable c).tEntry.vpn with used := false } with
        currentPage := c + 1 } := by
  have hlt : (k.invertedPageTable c).tEntry.vpn <
      ((k.setFrame c { k.invertedPageTable c with used := false }).process p).numPages := hv
  have hmodify := modifyPTE_of_lt hlt fun e => { e with used := false }
  simp only [passOver]
  split
  · rename_i hnone
    rw [hp] at hnone
    cases hnone
  · rename_i q hq
    have hqp : q = p := Option.some.inj (hq.symm.trans hp)
    rw [hqp]
    exact hmodify ▸ rfl

/-- Passing over one more frame clears its used bit and that of its page. -/
theorem passOver_swept {k : Kernel} {j p : Nat}
    (hp : (k.invertedPageTable (k.handAt j)).process = some p)
    (hv : (k.invertedPageTable (k.handAt j)).tEntry.vpn < (k.process p).numPages) :
    (k.swept j).passOver (k.handAt j) = .ok (k.swept (j + 1)) := by
  have hp' : ((k.swept j).invertedPageTable (k.handAt j)).process = some p := hp
  have hv' : ((k.swept j).invertedPageTable (k.handAt j)).tEntry.vpn <
      ((k.swept j).process p).numPages := hv
  have hpages : Function.update (k.sweptEntry j p) (k.invertedPageTable (k.handAt j)).tEntry.vpn
      { k.sweptEntry j p (k.invertedPageTable (k.handAt j)).tEntry.vpn with used := false } =
      k.sweptEntry (j + 1) p := by
    funext v
    rw [sweptEntry_succ hp]
    by_cases hv : v = (k.invertedPageTable (k.handAt j)).tEntry.vpn
    · subst hv
      simp
    · simp [hv]
  rw [passOver_eq hp' hv']
  refine congrArg Except.ok ?_
  simp only [setPTE, setFrame, swept, Kernel.mk.injEq, true_and, and_true]
  refine ⟨sweptTable_succ k j, rfl, ?_⟩
  funext q
  by_cases hq : q = p
  · subst hq
    rw [Function.update_self]
    exact congrArg (fun t => { k.process q with pageTable := t }) hpages
  · -- the pages of the other processes are not touched
    have hother : k.sweptEntry (j + 1) q = k.sweptEntry j q := by
      funext v
      rw [sweptEntry_succ hp, if_neg (fun h => hq h.1)]
    rw [Function.update_of_ne hq, hother]

/-! ## The loop -/

theorem visited_victim (k : Kernel) (j : Nat) :
    (k.visited j).victim = (!(k.invertedPageTable (k.handAt j)).assigned ||
      (!(k.invertedPageTable (k.handAt j)).pinned &&
        !((k.invertedPageTable (k.handAt j)).used && !k.passed j (k.handAt j)))) := rfl

/-- A frame that the clock will take some time is a victim in the first two sweeps. -/
theorem exists_victim {k : Kernel} {f : Nat} (hf : f < k.numPhysPages)
    (hfree : (k.invertedPageTable f).assigned = false ∨ (k.invertedPageTable f).pinned = false) :
    ∃ j < 2 * k.numPhysPages, (k.visited j).victim = true := by
  obtain ⟨i, hi, hat⟩ := exists_handAt hf
  rcases hfree with hfree | hfree
  · refine ⟨i, by omega, ?_⟩
    rw [visited_victim, hat, hfree]
    rfl
  · -- in the second sweep its used bit is clear, because the first sweep passed over it
    refine ⟨i + k.numPhysPages, by omega, ?_⟩
    have hpassed : k.passed (i + k.numPhysPages) f = true := by
      simp only [passed, List.any_eq_true, List.mem_range, beq_iff_eq]
      exact ⟨i, by omega, hat⟩
    rw [visited_victim, handAt_add, hat, hfree, hpassed]
    simp

/-- Once a whole sweep has found no victim, the flag `notPinned` is up. -/
theorem passedUnpinned_of_sweep {k : Kernel} {f : Nat} (hf : f < k.numPhysPages)
    (hfree : (k.invertedPageTable f).assigned = false ∨ (k.invertedPageTable f).pinned = false)
    {j : Nat} (hj : k.numPhysPages ≤ j) (hno : ∀ i < j, (k.visited i).victim = false) :
    k.passedUnpinned j = true := by
  obtain ⟨i, hi, hat⟩ := exists_handAt hf
  have hvictim := hno i (by omega)
  rw [visited_victim, hat] at hvictim
  have hpinned : (k.invertedPageTable f).pinned = false := by
    rcases hfree with hfree | hfree
    · simp [hfree] at hvictim
    · exact hfree
  simp only [passedUnpinned, List.any_eq_true, List.mem_range]
  exact ⟨i, by omega, by rw [hat, hpinned]; rfl⟩

/-- At a victim the loop ends. -/
theorem clockLoop_stop {k : Kernel} {j : Nat} (hvictim : (k.visited j).victim = true) :
    ∃ trace, ∀ (fuel total : Nat) (notPinned : Bool),
      clockLoop (fuel + 1) total notPinned (k.swept j) = .ok (some (k.handAt j),
        { k.swept j with currentPage := k.handAt j + 1, trace := trace }) := by
  have hc : (k.swept j).currentPage % (k.swept j).numPhysPages = k.handAt j := swept_hand k j
  have hbucket : (k.swept j).invertedPageTable (k.handAt j) = k.visited j := rfl
  unfold clockLoop
  simp only [hc, hbucket]
  cases ha : (k.visited j).assigned with
  | false =>
    refine ⟨.claim (k.handAt j) (k.visited j).pinned :: k.trace, fun fuel total notPinned => ?_⟩
    rw [if_pos (by decide)]
    rfl
  | true =>
    have hunused : (!(k.visited j).pinned && !(k.visited j).used) = true := by
      simpa [InvertedBucket.victim, ha] using hvictim
    refine ⟨k.trace, fun fuel total notPinned => ?_⟩
    rw [if_neg (by decide), if_pos hunused]
    rfl

/-- At any other frame the loop passes over it, and sleeps only if it has passed over a whole
    sweep of pinned frames. -/
theorem clockLoop_pass {k : Kernel} (howned : k.FramesOwned) (hn : 0 < k.numPhysPages) {j : Nat}
    (hvictim : (k.visited j).victim = false) (fuel : Nat) :
    clockLoop (fuel + 1) j (k.passedUnpinned j) (k.swept j) =
      if k.numPhysPages ≤ j + 1 && !k.passedUnpinned (j + 1) then .ok (none, k.swept (j + 1))
      else clockLoop fuel (j + 1) (k.passedUnpinned (j + 1)) (k.swept (j + 1)) := by
  have hc : (k.swept j).currentPage % (k.swept j).numPhysPages = k.handAt j := swept_hand k j
  have hbucket : (k.swept j).invertedPageTable (k.handAt j) = k.visited j := rfl
  simp only [InvertedBucket.victim, Bool.or_eq_false_iff, Bool.not_eq_false'] at hvictim
  obtain ⟨ha, hused⟩ := hvictim
  obtain ⟨p, hp, hv⟩ := howned _ (handAt_lt hn j) ha
  have hflag : (k.passedUnpinned j || !(k.visited j).pinned) = k.passedUnpinned (j + 1) :=
    (passedUnpinned_succ k j).symm
  have hphys : (k.swept (j + 1)).numPhysPages = k.numPhysPages := rfl
  conv => left; unfold clockLoop
  simp only [hc, hbucket]
  rw [if_neg (by rw [ha]; decide), if_neg (by rw [hused]; decide), passOver_swept hp hv, hflag]
  show (if _ then _ else _) = _
  rw [hphys]

/-- The loop from the moment the hand has passed over `j` frames, when the first victim is
    `m` frames ahead. Fuel beyond the `m + 1` iterations is not looked at. -/
theorem clockLoop_run {k : Kernel} (howned : k.FramesOwned) {f : Nat} (hf : f < k.numPhysPages)
    (hfree : (k.invertedPageTable f).assigned = false ∨ (k.invertedPageTable f).pinned = false)
    {m : Nat} : ∀ {j : Nat}, (k.visited (j + m)).victim = true →
      (∀ i < j + m, (k.visited i).victim = false) →
      ∃ trace, ∀ fuel, m < fuel → clockLoop fuel j (k.passedUnpinned j) (k.swept j) =
        .ok (some (k.handAt (j + m)),
          { k.swept (j + m) with currentPage := k.handAt (j + m) + 1, trace := trace }) := by
  induction m with
  | zero =>
    intro j hvictim _
    obtain ⟨trace, hstop⟩ := clockLoop_stop hvictim
    refine ⟨trace, fun fuel hfuel => ?_⟩
    obtain ⟨fuel, rfl⟩ : ∃ n, fuel = n + 1 := ⟨fuel - 1, by omega⟩
    exact hstop fuel j _
  | succ m ih =>
    intro j hvictim hno
    have hshift : j + (m + 1) = j + 1 + m := by omega
    -- the test of the second sweep does not stop the loop: in the first sweep it has passed a
    -- frame that is free or not pinned
    have hawake : (decide (k.numPhysPages ≤ j + 1) && !k.passedUnpinned (j + 1)) = false := by
      by_cases hsweep : k.numPhysPages ≤ j + 1
      · rw [passedUnpinned_of_sweep hf hfree hsweep fun i hi => hno i (by omega)]
        simp
      · simp [hsweep]
    rw [hshift]
    obtain ⟨trace, hrest⟩ := ih (hshift ▸ hvictim) fun i hi => hno i (by omega)
    refine ⟨trace, fun fuel hfuel => ?_⟩
    obtain ⟨fuel, rfl⟩ : ∃ n, fuel = n + 1 := ⟨fuel - 1, by omega⟩
    -- one pass, and the rest by induction from the next frame
    rw [clockLoop_pass howned (Nat.zero_lt_of_lt hf) (hno j (by omega)), hawake]
    exact hrest fuel (by omega)

/-- The clock stops at the first victim the hand comes to, within two sweeps, and all it
    has done is to clear the used bits of the frames it passed over and of the pages in
    them, and to leave the hand behind the frame it returns. -/
theorem clockAlgorithm_firstVictim {k : Kernel} (howned : k.FramesOwned)
    (hfree : ∃ f < k.numPhysPages, (k.invertedPageTable f).assigned = false ∨
      (k.invertedPageTable f).pinned = false) :
    ∃ j < 2 * k.numPhysPages, ∃ trace,
      k.handAt j < k.numPhysPages ∧
      (k.visited j).victim = true ∧ (∀ i < j, (k.visited i).victim = false) ∧
      k.clockLoop (j + 1) 0 false = .ok (some (k.handAt j),
        { k.swept j with currentPage := k.handAt j + 1, trace := trace }) ∧
      k.clockAlgorithm = k.clockLoop (j + 1) 0 false := by
  obtain ⟨f, hf, hfree⟩ := hfree
  have hex : ∃ j, (k.visited j).victim = true := (exists_victim hf hfree).imp fun _ h => h.2
  -- the first victim, and no later than the one that is known to be there
  have hfirst : (k.visited (Nat.find hex)).victim = true := Nat.find_spec hex
  have hbefore : ∀ i < Nat.find hex, (k.visited i).victim = false :=
    fun i hi => Bool.eq_false_iff.mpr (Nat.find_min hex hi)
  have hsoon : Nat.find hex < 2 * k.numPhysPages := by
    obtain ⟨j, hj, hvictim⟩ := exists_victim hf hfree
    exact Nat.lt_of_le_of_lt (Nat.find_min' hex hvictim) hj
  generalize Nat.find hex = j at hfirst hbefore hsoon
  obtain ⟨trace, hrun⟩ := clockLoop_run howned hf hfree (m := j) (j := 0)
    (by rwa [Nat.zero_add]) (by rwa [Nat.zero_add])
  have hflag : k.passedUnpinned 0 = false := rfl
  rw [Nat.zero_add, swept_zero, hflag] at hrun
  refine ⟨j, hsoon, trace, handAt_lt (Nat.zero_lt_of_lt hf) j, hfirst, hbefore,
    hrun (j + 1) (by omega), ?_⟩
  rw [clockAlgorithm, hrun _ (by omega), hrun _ (by omega)]

/-- A table of two frames, both in use: frame 0 is pinned, frame 1 is not. -/
def twoUsedFrames : Kernel where
  numPhysPages := 2
  ioBlocks := false
  invertedPageTable := fun f =>
    { tEntry := { vpn := f }, used := true, pinned := f == 0, assigned := true, process := some 0 }
  process := fun _ => { numPages := 2 }

/-- The clock passes over both frames and hands out frame 1 in its second sweep. -/
theorem clockAlgorithm_firstVictim_secondSweep :
    ∃ j < 2 * twoUsedFrames.numPhysPages, ∃ trace,
      twoUsedFrames.handAt j < twoUsedFrames.numPhysPages ∧
      (twoUsedFrames.visited j).victim = true ∧
      (∀ i < j, (twoUsedFrames.visited i).victim = false) ∧
      twoUsedFrames.clockLoop (j + 1) 0 false = .ok (some (twoUsedFrames.handAt j),
        { twoUsedFrames.swept j with
          currentPage := twoUsedFrames.handAt j + 1, trace := trace }) ∧
      twoUsedFrames.clockAlgorithm = twoUsedFrames.clockLoop (j + 1) 0 false :=
  clockAlgorithm_firstVictim
    (fun f hf _ => ⟨0, rfl, hf⟩)
    ⟨1, by decide, Or.inr rfl⟩

end Kernel

end Nachos
