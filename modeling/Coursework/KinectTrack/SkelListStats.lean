import Coursework.KinectTrack.Skeleton
import Mathlib.Algebra.Order.Ring.Rat
import Mathlib.Algebra.Field.Rat

/-!
# Training clusters

`trainKlusters` of `skelListStats`: frames are assigned to their nearest clusters, and every cluster
that has frames moves to their mean, until a test of the largest movement says stop. Coordinates are
rational numbers. An index out of range is modelled as none.
-/

namespace KinectTrack

/-- The rows of a cluster in `klusterz` and `oldKlusterz`. -/
structure Kluster where
  points : Fin 20 → SkeletonPoint ℚ
  oldPoints : Fin 20 → SkeletonPoint ℚ

/-- The fields that training changes, and its variable `movement`. -/
structure Training where
  klusterz : List Kluster
  discreteFrames : List (List Nat)
  movement : ℚ

namespace SkelListStats

def klusterTrainingValue : ℚ := 1 / 1000

/-- The sum of the squared differences, of a cluster and a frame or of a cluster and what it was. -/
def dist (a b : Fin 20 → SkeletonPoint ℚ) : ℚ :=
  ((List.finRange 20).map fun i =>
    ((a i).x - (b i).x) ^ 2 + ((a i).y - (b i).y) ^ 2 + ((a i).z - (b i).z) ^ 2).sum

def frameDistFromKluster (kluster : Kluster) (frame : Skeleton ℚ) : ℚ :=
  dist kluster.points frame.joints

def klusterDistFromKluster (kluster : Kluster) : ℚ := dist kluster.points kluster.oldPoints

/-- One round of the loop of `frameToKluster`, with `assignedKluster` and `minimum`. -/
def nearer (skelly : Skeleton ℚ) (found : Nat × ℚ) (next : Kluster × Nat) : Nat × ℚ :=
  let temp := frameDistFromKluster next.1 skelly
  if temp < found.2 then (next.2, temp) else found

def frameToKluster (klusterz : List Kluster) (skelly : Skeleton ℚ) : Option Nat :=
  klusterz[0]?.map fun first =>
    (klusterz.zipIdx.foldl (nearer skelly) (0, frameDistFromKluster first skelly)).1

def assignAllToKlusters (closet : List (List (Skeleton ℚ))) (klusterz : List Kluster) :
    Option (List (List Nat)) :=
  closet.mapM fun sequence => sequence.mapM (frameToKluster klusterz)

/-- `buckets[discreteFrames[i][j]].Add(closet[i][j])` -/
def addToBucket (buckets : List (List (Skeleton ℚ))) (assigned : Nat × Skeleton ℚ) :
    Option (List (List (Skeleton ℚ))) :=
  if assigned.1 < buckets.length then some (buckets.modify assigned.1 (· ++ [assigned.2])) else none

/-- The frames of every cluster. -/
def fillBuckets (closet : List (List (Skeleton ℚ))) (discreteFrames : List (List Nat))
    (numKlusters : Nat) : Option (List (List (Skeleton ℚ))) :=
  ((discreteFrames.zip closet).flatMap fun (klusters, frames) => klusters.zip frames).foldlM
    addToBucket (List.replicate numKlusters [])

def mean (bucket : List (Skeleton ℚ)) (k : Fin 20) : SkeletonPoint ℚ :=
  ⟨(bucket.map fun skel => (skel.joints k).x).sum / bucket.length,
    (bucket.map fun skel => (skel.joints k).y).sum / bucket.length,
    (bucket.map fun skel => (skel.joints k).z).sum / bucket.length⟩

/-- The loop over the clusters, with `movement`. -/
def updateKlusters : List (List (Skeleton ℚ)) → List Kluster → ℚ → List Kluster × ℚ
  | bucket :: buckets, kluster :: klusterz, movement =>
    if bucket.length < 1 then
      let (updated, movement) := updateKlusters buckets klusterz movement
      (kluster :: updated, movement)
    else
      let moved := ⟨mean bucket, kluster.points⟩
      let (updated, movement) :=
        updateKlusters buckets klusterz (max movement (klusterDistFromKluster moved))
      (moved :: updated, movement)
  | _, klusterz, movement => (klusterz, movement)

/-- One iteration. -/
def iteration (closet : List (List (Skeleton ℚ))) (s : Training) : Option Training := do
  let discreteFrames ← assignAllToKlusters closet s.klusterz
  let buckets ← fillBuckets closet discreteFrames s.klusterz.length
  let (klusterz, movement) := updateKlusters buckets s.klusterz s.movement
  return ⟨klusterz, discreteFrames, movement⟩

/-- The loop, for so many iterations at most. -/
def loop (closet : List (List (Skeleton ℚ))) : Nat → Training → Option Training
  | 0, _ => none
  | fuel + 1, s =>
    (iteration closet s).bind fun s =>
      if s.movement < klusterTrainingValue then loop closet fuel s else some s

/-- The beginning of `trainKlusters`. -/
def start (klusterz : List Kluster) : Training := ⟨klusterz, [], 0⟩

/-- `trainKlusters` returns with this state. -/
def trainKlusters (closet : List (List (Skeleton ℚ))) (klusterz : List Kluster) (fuel : Nat) :
    Option Training :=
  loop closet fuel (start klusterz)

end SkelListStats

end KinectTrack
