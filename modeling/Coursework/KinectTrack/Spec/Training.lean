import Coursework.ForStd.Option
import Coursework.KinectTrack.SkelListStats
import Mathlib.Logic.Relation
import Mathlib.Order.Lattice

/-!
# When training stops

An iteration moves every cluster that has frames by less than the bound exactly when the largest
movement stays below it. The test of the loop is the wrong way round: it goes on after an iteration
in which nothing moves, and stops at the first movement.

## Key results

- `updateKlusters_lt`: the largest movement
- `trainKlusters_eq_some`: when training returns
- `stopsAtConvergence_iff`: when it stops exactly at convergence
-/

namespace KinectTrack

namespace SkelListStats

open Relation

variable {closet : List (List (Skeleton ℚ))} {klusterz : List Kluster} {s s' : Training}

/-- An iteration after which another one follows. -/
def Continues (closet : List (List (Skeleton ℚ))) (s s' : Training) : Prop :=
  iteration closet s = some s' ∧ s'.movement < klusterTrainingValue

/-- Training makes this iteration. -/
def Makes (closet : List (List (Skeleton ℚ))) (klusterz : List Kluster) (s s' : Training) : Prop :=
  ReflTransGen (Continues closet) (start klusterz) s ∧ iteration closet s = some s'

/-- Training returns after this iteration. -/
def Returns (closet : List (List (Skeleton ℚ))) (klusterz : List Kluster) (s s' : Training) :
    Prop :=
  Makes closet klusterz s s' ∧ ¬ s'.movement < klusterTrainingValue

/-- Every cluster that has frames is nearer than the bound to where it was. -/
def Near (bound : ℚ) (buckets : List (List (Skeleton ℚ))) (before after : List Kluster) : Prop :=
  ∀ (i : Nat) (bucket : List (Skeleton ℚ)) (kluster moved : Kluster),
    buckets[i]? = some bucket → bucket ≠ [] → before[i]? = some kluster →
    after[i]? = some moved → dist moved.points kluster.points < bound

/-- The iteration moves every cluster that has frames by less than the bound. -/
def Converged (closet : List (List (Skeleton ℚ))) (s s' : Training) : Prop :=
  ∀ discreteFrames buckets, assignAllToKlusters closet s.klusterz = some discreteFrames →
    fillBuckets closet discreteFrames s.klusterz.length = some buckets →
    Near klusterTrainingValue buckets s.klusterz s'.klusterz

/-- Training returns after an iteration exactly when it has converged. -/
def StopsAtConvergence (closet : List (List (Skeleton ℚ))) (klusterz : List Kluster) : Prop :=
  ∀ s s', Makes closet klusterz s s' → (Returns closet klusterz s s' ↔ Converged closet s s')

/-! ## The loop -/

theorem loop_eq_some {r : Training} :
    (∃ fuel, loop closet fuel s = some r) ↔
      ∃ s', ReflTransGen (Continues closet) s s' ∧ iteration closet s' = some r ∧
        ¬ r.movement < klusterTrainingValue := by
  apply Iff.intro
  · rintro ⟨fuel, hfuel⟩
    induction fuel generalizing s with
    | zero => cases hfuel
    | succ fuel ih =>
      obtain ⟨s₁, hs₁, hnext⟩ := Option.bind_eq_some_iff.1 hfuel
      -- the test of the loop decides whether this iteration was the last
      by_cases hlt : s₁.movement < klusterTrainingValue
      · rw [if_pos hlt] at hnext
        obtain ⟨s', hreach, hlast⟩ := ih hnext
        exact ⟨s', hreach.head ⟨hs₁, hlt⟩, hlast⟩
      · rw [if_neg hlt] at hnext
        cases hnext
        exact ⟨s, .refl, hs₁, hlt⟩
  · rintro ⟨s', hreach, hs', hlast⟩
    induction hreach using ReflTransGen.head_induction_on with
    | refl =>
      refine ⟨1, ?_⟩
      rw [loop, hs', Option.bind_some, if_neg hlast]
    | head hstep _ ih =>
      obtain ⟨fuel, hfuel⟩ := ih
      refine ⟨fuel + 1, ?_⟩
      rw [loop, hstep.1, Option.bind_some, if_pos hstep.2, hfuel]

/-- `trainKlusters` returns what its last iteration makes. -/
theorem trainKlusters_eq_some {r : Training} :
    (∃ fuel, trainKlusters closet klusterz fuel = some r) ↔ ∃ s, Returns closet klusterz s r := by
  apply loop_eq_some.trans
  exact exists_congr fun s => and_assoc.symm

/-! ## One iteration -/

theorem near_cons {bound : ℚ} {bucket : List (Skeleton ℚ)} {buckets : List (List (Skeleton ℚ))}
    {kluster moved : Kluster} {before after : List Kluster} :
    Near bound (bucket :: buckets) (kluster :: before) (moved :: after) ↔
      (bucket ≠ [] → dist moved.points kluster.points < bound) ∧
        Near bound buckets before after := by
  apply Iff.intro
  · intro h
    exact ⟨fun hne => h 0 _ _ _ rfl hne rfl rfl, fun i => h (i + 1)⟩
  · rintro ⟨hhead, htail⟩ i bucket' kluster' moved' hbucket hne hbefore hafter
    -- the first cluster or one after it
    cases i with
    | zero =>
      cases hbucket
      cases hbefore
      cases hafter
      exact hhead hne
    | succ i => exact htail i _ _ _ hbucket hne hbefore hafter

/-- The largest movement is below the bound exactly when all are. -/
theorem updateKlusters_lt (buckets : List (List (Skeleton ℚ))) (klusterz : List Kluster)
    (movement bound : ℚ) :
    (updateKlusters buckets klusterz movement).2 < bound ↔ movement < bound ∧
      Near bound buckets klusterz (updateKlusters buckets klusterz movement).1 := by
  induction buckets generalizing klusterz movement with
  | nil => exact ⟨fun h => ⟨h, fun i _ _ _ hbucket => by cases hbucket⟩, And.left⟩
  | cons bucket buckets ih =>
    cases klusterz with
    | nil => exact ⟨fun h => ⟨h, fun i _ _ _ _ _ hbefore => by cases hbefore⟩, And.left⟩
    | cons kluster klusterz =>
      rw [updateKlusters]
      by_cases hempty : bucket.length < 1
      · -- a cluster without frames stays
        have hbucket : bucket = [] := List.eq_nil_of_length_eq_zero (by omega)
        rw [if_pos hempty]
        show (updateKlusters buckets klusterz movement).2 < bound ↔ movement < bound ∧
          Near bound (bucket :: buckets) (kluster :: klusterz)
            (kluster :: (updateKlusters buckets klusterz movement).1)
        rw [near_cons, ih, hbucket]
        simp only [ne_eq, not_true_eq_false, false_implies, true_and]
      · -- a cluster with frames moves to their mean, which counts for the movement
        have hbucket : bucket ≠ [] := by
          rintro rfl
          exact hempty Nat.zero_lt_one
        rw [if_neg hempty]
        show (updateKlusters buckets klusterz (max movement _)).2 < bound ↔ movement < bound ∧
          Near bound (bucket :: buckets) (kluster :: klusterz)
            (⟨mean bucket, kluster.points⟩ :: (updateKlusters buckets klusterz (max movement _)).1)
        rw [near_cons, ih, max_lt_iff, and_assoc]
        simp only [ne_eq, hbucket, not_false_eq_true, forall_const]
        rfl

theorem iteration_eq_some :
    iteration closet s = some s' ↔ ∃ discreteFrames buckets,
      assignAllToKlusters closet s.klusterz = some discreteFrames ∧
      fillBuckets closet discreteFrames s.klusterz.length = some buckets ∧
      s' = ⟨(updateKlusters buckets s.klusterz s.movement).1, discreteFrames,
        (updateKlusters buckets s.klusterz s.movement).2⟩ := by
  apply Iff.intro
  · intro h
    obtain ⟨discreteFrames, hassign, h⟩ := Option.bind_eq_some_iff.1 h
    obtain ⟨buckets, hfill, h⟩ := Option.bind_eq_some_iff.1 h
    cases h
    exact ⟨discreteFrames, buckets, hassign, hfill, rfl⟩
  · rintro ⟨discreteFrames, buckets, hassign, hfill, rfl⟩
    rw [iteration, hassign, Option.bind_eq_bind, Option.bind_some, hfill]
    rfl

/-- The movement is below the bound exactly when it was before and the iteration has converged. -/
theorem movement_lt_iff (h : iteration closet s = some s') :
    s'.movement < klusterTrainingValue ↔
      s.movement < klusterTrainingValue ∧ Converged closet s s' := by
  obtain ⟨discreteFrames, buckets, hassign, hfill, rfl⟩ := iteration_eq_some.1 h
  rw [updateKlusters_lt]
  apply and_congr_right'
  apply Iff.intro
  · intro hnear discreteFrames' buckets' hassign' hfill'
    cases hassign.symm.trans hassign'
    cases hfill.symm.trans hfill'
    exact hnear
  · exact fun hconverged => hconverged _ _ hassign hfill

/-! ## Iterations that are made -/

theorem nearer_foldl_lt {n : Nat} (skelly : Skeleton ℚ) {candidates : List (Kluster × Nat)}
    (hcandidates : ∀ c ∈ candidates, c.2 < n) {found : Nat × ℚ} (hfound : found.1 < n) :
    (candidates.foldl (nearer skelly) found).1 < n := by
  induction candidates generalizing found with
  | nil => exact hfound
  | cons c candidates ih =>
    apply ih fun c' hc' => hcandidates c' (List.mem_cons_of_mem c hc')
    rw [nearer]
    split
    · exact hcandidates c List.mem_cons_self
    · exact hfound

/-- The cluster of a frame is one that there is. -/
theorem frameToKluster_lt {skelly : Skeleton ℚ} {k : Nat}
    (h : frameToKluster klusterz skelly = some k) : k < klusterz.length := by
  obtain ⟨first, hfirst, rfl⟩ := Option.map_eq_some_iff.1 h
  obtain ⟨hlen, -⟩ := List.getElem?_eq_some_iff.1 hfirst
  apply nearer_foldl_lt skelly _ hlen
  intro c hc
  exact List.snd_lt_of_mem_zipIdx hc

theorem fillBuckets_eq_some {assigned : List (Nat × Skeleton ℚ)}
    {buckets : List (List (Skeleton ℚ))} (h : ∀ a ∈ assigned, a.1 < buckets.length) :
    ∃ filled, assigned.foldlM addToBucket buckets = some filled := by
  induction assigned generalizing buckets with
  | nil => exact ⟨buckets, rfl⟩
  | cons a assigned ih =>
    rw [List.foldlM_cons, addToBucket, if_pos (h a List.mem_cons_self)]
    apply ih
    intro a' ha'
    rw [List.length_modify]
    exact h a' (List.mem_cons_of_mem a ha')

/-- An iteration fails only where there is a frame and no cluster for it. -/
theorem exists_iteration (closet : List (List (Skeleton ℚ))) (klusterz : List Kluster)
    (h : klusterz ≠ [] ∨ closet.flatten = []) :
    ∃ s', iteration closet (start klusterz) = some s' := by
  have hframe : ∀ sequence ∈ closet, ∃ klusters,
      sequence.mapM (frameToKluster klusterz) = some klusters := by
    intro sequence hsequence
    have hall : ∀ frame ∈ sequence, ∃ k, frameToKluster klusterz frame = some k := by
      intro frame hframe
      cases h with
      | inl hne =>
        obtain ⟨first, rest, rfl⟩ := List.exists_cons_of_ne_nil hne
        exact ⟨_, rfl⟩
      | inr hempty =>
        have hmem : frame ∈ closet.flatten := List.mem_flatten.2 ⟨sequence, hsequence, hframe⟩
        rw [hempty] at hmem
        cases hmem
    obtain ⟨klusters, hklusters, -⟩ := List.exists_mapM_eq_some hall
    exact ⟨klusters, hklusters⟩
  obtain ⟨discreteFrames, hassign, -⟩ := List.exists_mapM_eq_some hframe
  -- a frame goes into the bucket of a cluster that there is
  have hfill : ∃ buckets, fillBuckets closet discreteFrames klusterz.length = some buckets := by
    apply fillBuckets_eq_some
    intro a ha
    obtain ⟨⟨klusters, frames⟩, hmem, ha⟩ := List.mem_flatMap.1 ha
    obtain ⟨sequence, -, hklusters⟩ := (List.of_mapM_eq_some hassign).2 _ (List.of_mem_zip hmem).1
    obtain ⟨frame, -, hk⟩ := (List.of_mapM_eq_some hklusters).2 _ (List.of_mem_zip ha).1
    rw [List.length_replicate]
    exact frameToKluster_lt hk
  obtain ⟨buckets, hfill⟩ := hfill
  exact ⟨_, iteration_eq_some.2 ⟨discreteFrames, buckets, hassign, hfill, rfl⟩⟩

theorem iteration_eq_none (hframes : closet.flatten ≠ []) :
    iteration closet (start []) = none := by
  cases h : iteration closet (start []) with
  | none => rfl
  | some s =>
    obtain ⟨discreteFrames, buckets, hassign, -, -⟩ := iteration_eq_some.1 h
    obtain ⟨frame, hframe⟩ := List.exists_mem_of_ne_nil _ hframes
    obtain ⟨sequence, hsequence, hmem⟩ := List.mem_flatten.1 hframe
    obtain ⟨klusters, hklusters⟩ := (List.of_mapM_eq_some hassign).1 sequence hsequence
    obtain ⟨k, hk⟩ := (List.of_mapM_eq_some hklusters).1 frame hmem
    cases hk

/-! ## When training stops -/

/-- The first iteration decides: training goes on if it has converged, and returns if not. -/
theorem not_stopsAtConvergence (h : iteration closet (start klusterz) = some s') :
    ¬ StopsAtConvergence closet klusterz := by
  intro hstops
  have hmakes : Makes closet klusterz (start klusterz) s' := ⟨.refl, h⟩
  have hstart : (start klusterz).movement < klusterTrainingValue := by
    show (0 : ℚ) < 1 / 1000
    decide +kernel
  by_cases hconverged : Converged closet (start klusterz) s'
  · exact ((hstops _ _ hmakes).2 hconverged).2 ((movement_lt_iff h).2 ⟨hstart, hconverged⟩)
  · have hreturns : Returns closet klusterz (start klusterz) s' :=
      ⟨hmakes, fun hlt => hconverged ((movement_lt_iff h).1 hlt).2⟩
    exact hconverged ((hstops _ _ hmakes).1 hreturns)

/-- Training stops exactly at convergence only where it makes no iteration, because there is a frame
    and no cluster for it. -/
theorem stopsAtConvergence_iff (closet : List (List (Skeleton ℚ))) (klusterz : List Kluster) :
    StopsAtConvergence closet klusterz ↔ klusterz = [] ∧ closet.flatten ≠ [] := by
  apply Iff.intro
  · intro hstops
    apply Classical.byContradiction
    intro h
    have hmakes : klusterz ≠ [] ∨ closet.flatten = [] := by
      rw [Classical.not_and_iff_not_or_not, Classical.not_not] at h
      exact h
    obtain ⟨s', hs'⟩ := exists_iteration closet klusterz hmakes
    exact not_stopsAtConvergence hs' hstops
  · rintro ⟨rfl, hframes⟩ s s' ⟨hreach, hs'⟩
    -- nothing is reached but the beginning
    have hnone := iteration_eq_none hframes
    cases hreach.cases_head with
    | inl hstart =>
      subst hstart
      cases hnone.symm.trans hs'
    | inr hstep =>
      obtain ⟨s₁, hstep, -⟩ := hstep
      cases hnone.symm.trans hstep.1

/-- One frame and a cluster that is already there: nothing moves, and training goes on. -/
theorem not_stopsAtConvergence_still :
    ¬ StopsAtConvergence [[⟨fun _ => ⟨0, 0, 0⟩, ⟨0, 0, 0⟩⟩]]
      [⟨fun _ => ⟨0, 0, 0⟩, fun _ => ⟨0, 0, 0⟩⟩] := by
  intro hstops
  obtain ⟨s', hs'⟩ := exists_iteration [[⟨fun _ => ⟨0, 0, 0⟩, ⟨0, 0, 0⟩⟩]]
    [⟨fun _ => ⟨0, 0, 0⟩, fun _ => ⟨0, 0, 0⟩⟩] (.inl (List.cons_ne_nil _ []))
  exact not_stopsAtConvergence hs' hstops

end SkelListStats

end KinectTrack
