import Coursework.ForStd.Option
import Coursework.KinectTrack.Stride
import Mathlib.Algebra.Order.Field.Rat
import Mathlib.Data.Int.Cast.Lemmas

/-!
# Where a stride begins and ends

The feet pass each other at the frames whose sign differs from that of the frame before. The scan
finds the first and the third of these crossings. If there is only one and it is at the last frame,
the stride is empty and its averages divide by zero.

## Key results

- `scan_spec`: what the loop finds, from any frame on
- `getStridePositions_eq`: the two ends in terms of the crossings
- `stridePositions_wellFormed_iff`: when the boundaries are well formed
-/

namespace KinectTrack

namespace Stride

section Crossings

/-- The places of a list of signs where the sign differs from the one before. -/
def crossings (signs : List Bool) : List Nat :=
  (List.range signs.length).filter fun i => 0 < i ∧ signs[i]? ≠ signs[i - 1]?

/-- The same, by recursion, for signs that follow the sign `prev` and begin at place `i`. -/
def crossingsFrom : Nat → Bool → List Bool → List Nat
  | _, _, [] => []
  | i, prev, sign :: signs =>
    if prev ≠ sign then i :: crossingsFrom (i + 1) sign signs else crossingsFrom (i + 1) sign signs

theorem crossingsFrom_eq (before : List Bool) (prev : Bool) (signs : List Bool) :
    crossingsFrom (before.length + 1) prev signs =
      (List.range' (before.length + 1) signs.length).filter fun i =>
        0 < i ∧ (before ++ prev :: signs)[i]? ≠ (before ++ prev :: signs)[i - 1]? := by
  induction signs generalizing before prev with
  | nil => rfl
  | cons sign signs ih =>
    -- the sign at this place joins those before
    have hrest := ih (before ++ [prev]) sign
    rw [List.length_append, List.length_singleton, List.append_assoc, List.singleton_append]
      at hrest
    have hhere : (before ++ prev :: sign :: signs)[before.length + 1]? = some sign := by
      have hplace : before.length + 1 - before.length = 1 := by omega
      rw [List.getElem?_append_right (by omega), hplace]
      rfl
    have hprev : (before ++ prev :: sign :: signs)[before.length + 1 - 1]? = some prev := by
      rw [Nat.add_sub_cancel, List.getElem?_append_right (Nat.le_refl _), Nat.sub_self]
      rfl
    rw [List.length_cons, List.range'_succ, List.filter_cons, crossingsFrom, hhere, hprev, hrest]
    by_cases hsign : prev = sign
    · rw [if_neg (by simpa using hsign), if_neg (by simp [hsign])]
    · rw [if_pos (by simpa using hsign), if_pos (by simpa using Ne.symm hsign)]

/-- At the first place there is no crossing. -/
theorem crossings_cons (sign : Bool) (signs : List Bool) :
    crossings (sign :: signs) = crossingsFrom 1 sign signs := by
  have hfrom := crossingsFrom_eq [] sign signs
  rw [List.length_nil, Nat.zero_add, List.nil_append] at hfrom
  rw [crossings, List.length_cons, List.range_eq_range', List.range'_succ, List.filter_cons,
    if_neg (by simp), hfrom]

theorem crossings_pairwise (signs : List Bool) : (crossings signs).Pairwise (· < ·) :=
  List.pairwise_lt_range.filter _

/-- The third crossing comes after the first. -/
theorem first_lt_third {signs : List Bool} {c : Nat} (hthird : (crossings signs)[2]? = some c) :
    ∃ a, (crossings signs)[0]? = some a ∧ a < c := by
  obtain ⟨hlen, rfl⟩ := List.getElem?_eq_some_iff.1 hthird
  have hlt := List.pairwise_iff_getElem.1 (crossings_pairwise signs) 0 2 (by omega) hlen (by decide)
  exact ⟨_, List.getElem?_eq_getElem (by omega), hlt⟩

theorem mem_crossings {signs : List Bool} {i : Nat} :
    i ∈ crossings signs ↔ i < signs.length ∧ 0 < i ∧ signs[i]? ≠ signs[i - 1]? := by
  rw [crossings, List.mem_filter, List.mem_range, decide_eq_true_iff]

end Crossings

section Scan

variable {F : Type} [Sub F] [Zero F] [LT F] [DecidableLT F] {s : Stride F}

/-- The signs of the foot differences. -/
def signs (frames : List (DanSkeleton F)) : List Bool := frames.map leftBehind

theorem scan_capturedFrames (frames : List (DanSkeleton F)) (i : Nat) (truthTest : Bool)
    (num : Nat) : (scan frames i truthTest num s).capturedFrames = s.capturedFrames := by
  induction frames generalizing i truthTest num s with
  | nil => rfl
  | cons d frames ih =>
    rw [scan]
    split
    · split
      · exact ih ..
      · split
        · rfl
        · exact ih ..
    · exact ih ..

theorem getStridePositions_capturedFrames {s₀ : Stride F} (h : s.getStridePositions = some s₀) :
    s₀.capturedFrames = s.capturedFrames := by
  rw [getStridePositions] at h
  split at h
  · cases h
  · cases h
    split
    · exact scan_capturedFrames ..
    · exact scan_capturedFrames ..

/-- With `num` crossings found, the loop sets the first one if it is still missing, and the third
    one if there are enough. -/
theorem scan_spec (frames : List (DanSkeleton F)) (i : Nat) (truthTest : Bool) {num : Nat}
    (hnum : num ≤ 2) :
    let cs := crossingsFrom i truthTest (signs frames)
    (scan frames i truthTest num s).firstFrame =
        (if num = 0 then cs[0]?.getD s.firstFrame else s.firstFrame) ∧
      (scan frames i truthTest num s).lastFrame = cs[2 - num]?.getD s.lastFrame := by
  induction frames generalizing i truthTest num s with
  | nil =>
    apply And.intro
    · exact (ite_self _).symm
    · rfl
  | cons d frames ih =>
    rw [scan, signs, List.map_cons, crossingsFrom]
    by_cases hcross : truthTest ≠ leftBehind d
    · have hflip : (!truthTest) = leftBehind d := Bool.not_eq.2 hcross
      simp only [if_pos hcross, hflip]
      by_cases h0 : num = 0
      · -- the first crossing
        subst h0
        exact ih _ _ (Nat.le_succ 1)
      · rw [if_neg h0]
        by_cases h2 : num = 2
        · -- the third, where the loop ends
          subst h2
          exact ⟨rfl, rfl⟩
        · -- the second crossing
          have h1 : num = 1 := by omega
          subst h1
          exact ih _ _ (Nat.le_refl 2)
    · have hsame : truthTest = leftBehind d := Classical.not_not.1 hcross
      simp only [if_neg hcross]
      rw [← hsame]
      exact ih _ _ hnum

/-- The two ends: the first and the third crossing, or the last frame. -/
theorem getStridePositions_eq {frames : List (DanSkeleton F)} (hframes : frames ≠ []) :
    ∃ s, (ofFrames frames).getStridePositions = some s ∧ s.capturedFrames = frames ∧
      s.firstFrame = (crossings (signs frames))[0]?.getD 0 ∧
      s.lastFrame = (crossings (signs frames))[2]?.getD (frames.length - 1) := by
  obtain ⟨d, rest, rfl⟩ := List.exists_cons_of_ne_nil hframes
  have hcs : crossingsFrom 0 (leftBehind d) (signs (d :: rest)) =
      crossings (signs (d :: rest)) := by
    rw [signs, List.map_cons, crossings_cons, crossingsFrom, if_neg (not_not_intro rfl)]
  obtain ⟨hfirst, hlast⟩ := scan_spec (s := ofFrames (d :: rest)) (d :: rest) 0 (leftBehind d)
    (Nat.zero_le 2)
  have hframes := scan_capturedFrames (s := ofFrames (d :: rest)) (d :: rest) 0 (leftBehind d) 0
  rw [hcs] at hlast
  rw [hcs, if_pos rfl] at hfirst
  cases hthird : (crossings (signs (d :: rest)))[2]? with
  | none =>
    -- no last frame was found
    rw [hthird] at hlast
    have hle : (scan (d :: rest) 0 (leftBehind d) 0 (ofFrames (d :: rest))).lastFrame ≤
        (scan (d :: rest) 0 (leftBehind d) 0 (ofFrames (d :: rest))).firstFrame := by
      rw [hlast]
      exact Nat.zero_le _
    refine ⟨_, congrArg some (if_pos hle), hframes, hfirst, ?_⟩
    exact congrArg (fun frames => frames.length - 1) hframes
  | some c =>
    rw [hthird] at hlast
    obtain ⟨a, ha, hlt⟩ := first_lt_third hthird
    rw [ha] at hfirst
    have hgt : ¬ (scan (d :: rest) 0 (leftBehind d) 0 (ofFrames (d :: rest))).lastFrame ≤
        (scan (d :: rest) 0 (leftBehind d) 0 (ofFrames (d :: rest))).firstFrame := by
      rw [hlast, hfirst]
      exact Nat.not_le_of_lt hlt
    rw [ha]
    exact ⟨_, congrArg some (if_neg hgt), hframes, hfirst, hlast⟩

end Scan

section Line

variable {F : Type} [Zero F] [One F] [Mul F] [NatCast F]

/-- A world of one dimension, where all angles are 0. -/
def line : Geometry F := ⟨fun _ => 0, fun _ => 1, id, fun _ _ => 0, fun _ _ => 0⟩

/-- Joint `j` is `j` before or behind the origin. -/
def onLine (direction : F) : DanSkeleton F :=
  ⟨⟨fun j => ⟨direction * (j.val : F), 0, 0⟩, ⟨0, 0, 0⟩⟩, false⟩

end Line

section Statistics

variable {F : Type} [Field F] [LinearOrder F]

/-- The boundaries are the first and the third crossing where there are such, the stride has a
    frame, and no average divides by zero. -/
structure WellFormed (geometry : Geometry F) (s : Stride F) : Prop where
  first_lt : s.firstFrame < s.lastFrame
  last_lt : s.lastFrame < s.capturedFrames.length
  first_eq : s.firstFrame = (crossings (signs s.capturedFrames))[0]?.getD 0
  last_eq : s.lastFrame =
    (crossings (signs s.capturedFrames))[2]?.getD (s.capturedFrames.length - 1)
  metersPerSecond : (s.strideMetersPerSecond geometry).isSome
  width : s.widthBetweenFeetAvg.isSome
  leftAngle : (s.leftFootAngleAvg geometry).isSome
  rightAngle : (s.rightFootAngleAvg geometry).isSome
  angles : ∀ foot, ∃ angles, s.getAllFootAngles geometry foot = some angles ∧
    angles.length = s.lastFrame - s.firstFrame

variable {geometry : Geometry F} {s : Stride F}

theorem divide_of_ne {b : F} (a : F) (hb : b ≠ 0) : divide a b = some (a / b) := if_neg hb

omit [Field F] [LinearOrder F] in
theorem framesFrom_eq (first : Nat) {last : Nat} (hlast : last ≤ s.capturedFrames.length) :
    ∃ frames, s.framesFrom first last = some frames ∧ frames.length = last - first := by
  have hframes : ∀ i ∈ List.range' first (last - first), ∃ d, s.capturedFrames[i]? = some d := by
    intro i hi
    rw [List.mem_range'_1] at hi
    exact ⟨_, List.getElem?_eq_getElem (by omega)⟩
  obtain ⟨frames, heq, hlen⟩ := List.exists_mapM_eq_some hframes
  exact ⟨frames, heq, hlen.trans List.length_range'⟩

/-- As many angles as frames. -/
theorem getAllFootAngles_eq (geometry : Geometry F) (hlt : s.firstFrame < s.lastFrame)
    (hlast : s.lastFrame < s.capturedFrames.length) (foot : RelDir) :
    ∃ angles, s.getAllFootAngles geometry foot = some angles ∧
      angles.length = s.lastFrame - s.firstFrame := by
  obtain ⟨frames, hframes, hlen⟩ := framesFrom_eq s.firstFrame (Nat.le_of_lt hlast)
  -- the two pairs of joints share the ankle
  have hangles : ∀ d ∈ frames, ∃ angle, angleBetweenJointPairs geometry
      (d.joints (JointType.startEnum foot), d.joints (JointType.next (JointType.startEnum foot)))
      (d.joints (JointType.next (JointType.startEnum foot)),
        d.joints (JointType.next (JointType.next (JointType.startEnum foot)))) = some angle :=
    fun d _ => ⟨_, if_neg (not_not_intro rfl)⟩
  obtain ⟨angles, heq, hlen'⟩ := List.exists_mapM_eq_some hangles
  refine ⟨angles, ?_, hlen'.trans hlen⟩
  rw [getAllFootAngles, if_neg (Nat.not_le_of_lt hlt), hframes]
  exact heq

theorem wellFormed_of_lt [IsStrictOrderedRing F] (hlt : s.firstFrame < s.lastFrame)
    (hlast : s.lastFrame < s.capturedFrames.length)
    (hfirst : s.firstFrame = (crossings (signs s.capturedFrames))[0]?.getD 0)
    (hthird : s.lastFrame =
      (crossings (signs s.capturedFrames))[2]?.getD (s.capturedFrames.length - 1)) :
    WellFormed geometry s := by
  -- the only divisors are the number of frames and the seconds
  have hframes : (s.strideLengthFrames : F) ≠ 0 := by
    rw [Int.cast_ne_zero, strideLengthFrames]
    omega
  have hseconds : (s.strideLengthFrames : F) / 30 ≠ 0 :=
    div_ne_zero hframes (OfNat.ofNat_ne_zero 30)
  obtain ⟨frames, hwidth, -⟩ := framesFrom_eq s.firstFrame (Nat.le_of_lt hlast)
  have hangle : ∀ foot, (s.footAngleAvg geometry foot).isSome := by
    intro foot
    obtain ⟨angles, hangles, -⟩ := getAllFootAngles_eq geometry hlt hlast foot
    rw [footAngleAvg, hangles]
    exact congrArg Option.isSome (divide_of_ne _ hframes)
  have hmeters : ∃ meters, s.strideLengthMeters geometry = some meters := by
    rw [strideLengthMeters, List.getElem?_eq_getElem (Nat.lt_trans hlt hlast),
      List.getElem?_eq_getElem hlast]
    exact ⟨_, rfl⟩
  obtain ⟨meters, hmeters⟩ := hmeters
  refine ⟨hlt, hlast, hfirst, hthird, ?_, ?_, hangle .L, hangle .R,
    getAllFootAngles_eq geometry hlt hlast⟩
  · rw [strideMetersPerSecond, divide_of_ne _ (OfNat.ofNat_ne_zero 30), Option.bind_eq_bind,
      Option.bind_some, hmeters]
    exact congrArg Option.isSome (divide_of_ne _ hseconds)
  · rw [widthBetweenFeetAvg, hwidth]
    exact congrArg Option.isSome (divide_of_ne _ hframes)

/-- The boundaries of two or more frames are well formed unless the first crossing is at the last
    frame. -/
theorem stridePositions_wellFormed_iff [IsStrictOrderedRing F] (geometry : Geometry F)
    (frames : List (DanSkeleton F)) (hframes : 2 ≤ frames.length) :
    (∃ s, (ofFrames frames).getStridePositions = some s ∧ s.capturedFrames = frames ∧
        WellFormed geometry s) ↔
      (crossings (signs frames)).head? ≠ some (frames.length - 1) := by
  obtain ⟨s, hs, rfl, hfirst, hlast⟩ := getStridePositions_eq
    (List.ne_nil_of_length_pos (Nat.lt_of_lt_of_le Nat.zero_lt_two hframes))
  have hbound : ∀ i ∈ crossings (signs s.capturedFrames), i < s.capturedFrames.length := by
    intro i hi
    have hmem := (mem_crossings.1 hi).1
    rwa [signs, List.length_map] at hmem
  rw [List.head?_eq_getElem?]
  apply Iff.intro
  · -- the first crossing at the last frame leaves no room for `lastFrame`
    rintro ⟨s', hs', -, hwell⟩ hhead
    obtain rfl : s = s' := Option.some_inj.1 (hs.symm.trans hs')
    have hlt := hwell.first_lt
    have hlast := hwell.last_lt
    rw [hfirst, hhead, Option.getD_some] at hlt
    omega
  · intro hhead
    refine ⟨s, hs, rfl, ?_⟩
    cases hthird : (crossings (signs s.capturedFrames))[2]? with
    | none =>
      -- no third crossing: the last frame ends the stride
      have hlast' : s.lastFrame = s.capturedFrames.length - 1 := by
        rw [hlast, hthird, Option.getD_none]
      apply wellFormed_of_lt _ (by omega) hfirst hlast
      cases hcs : (crossings (signs s.capturedFrames))[0]? with
      | none =>
        rw [hfirst, hcs, Option.getD_none]
        omega
      | some a =>
        have ha := hbound a (List.mem_of_getElem? hcs)
        have hne : a ≠ s.capturedFrames.length - 1 :=
          fun heq => hhead (hcs.trans (congrArg some heq))
        rw [hfirst, hcs, Option.getD_some]
        omega
    | some c =>
      -- the third crossing comes after the first
      obtain ⟨a, ha, hlt⟩ := first_lt_third hthird
      have hc := hbound c (List.mem_of_getElem? hthird)
      have hlast' : s.lastFrame = c := by rw [hlast, hthird, Option.getD_some]
      apply wellFormed_of_lt _ (by omega) hfirst hlast
      rw [hfirst, ha, Option.getD_some]
      omega

/-- The feet pass each other at the frames 1, 2 and 3 of five. -/
def walk : List (DanSkeleton ℚ) := [onLine 1, onLine (-1), onLine 1, onLine (-1), onLine (-1)]

theorem stridePositions_wellFormed_iff_walk :
    crossings (signs walk) = [1, 2, 3] ∧ ∃ s, (ofFrames walk).getStridePositions = some s ∧
      s.capturedFrames = walk ∧ WellFormed line s :=
  ⟨by decide +kernel,
    (stridePositions_wellFormed_iff line walk (by decide)).2 (by decide +kernel)⟩

/-- The feet pass each other at the last of two frames: the stride is empty. -/
theorem not_wellFormed_turn :
    ¬ ∃ s : Stride ℚ, (ofFrames [onLine 1, onLine (-1)]).getStridePositions = some s ∧
      s.capturedFrames = [onLine 1, onLine (-1)] ∧ WellFormed line s := by
  rintro ⟨s, hs, -, hwell⟩
  obtain ⟨s', hs', -, hfirst, hlast⟩ := getStridePositions_eq
    (List.cons_ne_nil (onLine (1 : ℚ)) [onLine (-1)])
  obtain rfl : s = s' := Option.some_inj.1 (hs.symm.trans hs')
  have hcrossings : crossings (signs [onLine (1 : ℚ), onLine (-1)]) = [1] := by decide +kernel
  have hlt := hwell.first_lt
  rw [hfirst, hlast, hcrossings] at hlt
  exact Nat.lt_irrefl _ hlt

end Statistics

end Stride

end KinectTrack
