import Mathlib.Algebra.Notation.Defs
import Mathlib.Order.Notation

/-!
# Skeletons

The skeletons of the Kinect, as far as the tracker reads them: 20 joints and a position. The
coordinates are of any type with the operations that the code uses; sines and angles are parameters.
-/

namespace KinectTrack

variable {F : Type}

structure SkeletonPoint (F : Type) where
  x : F
  y : F
  z : F
  deriving DecidableEq

structure Skeleton (F : Type) where
  /-- `Joints[(JointType)j].Position` -/
  joints : Fin 20 → SkeletonPoint F
  position : SkeletonPoint F

structure DanSkeleton (F : Type) extends Skeleton F where
  isStepSkel : Bool

inductive RelDir where
  | L
  | R
  deriving DecidableEq

def JointType.footLeft : Fin 20 := 15

def JointType.footRight : Fin 20 := 19

/-- `startEnum` of `getAllFootAngles`: the knee, before the ankle and the foot. -/
def JointType.startEnum : RelDir → Fin 20
  | .L => 13
  | .R => 17

/-- `(JointType) j + 1` -/
def JointType.next (j : Fin 20) : Fin 20 := j + 1

/-- `Math` and the vectors of `System.Windows`. -/
structure Geometry (F : Type) where
  sin : F → F
  cos : F → F
  sqrt : F → F
  /-- `Vector.AngleBetween` -/
  angleBetween : F × F → F × F → F
  /-- `Vector3D.AngleBetween` -/
  angleBetween3D : SkeletonPoint F → SkeletonPoint F → F

namespace DanSkeleton

/-- `DanSkeleton(Skeleton s)` -/
def ofSkeleton (s : Skeleton F) : DanSkeleton F := ⟨s, false⟩

variable [Add F] [Sub F] [Mul F]

def rotatePoint (geometry : Geometry F) (x z xCenter zCenter angle : F) : F × F :=
  let cX := x - xCenter
  let cZ := z - zCenter
  let sinAngle := geometry.sin angle
  let cosAngle := geometry.cos angle
  let xRot := cX * cosAngle - cZ * sinAngle
  let zRot := cX * sinAngle + cZ * cosAngle
  (xRot + xCenter, zRot + zCenter)

/-- The new position of one joint, or of the skeleton. -/
def rotatePosition (geometry : Geometry F) (xCenter zCenter angle : F) (p : SkeletonPoint F) :
    SkeletonPoint F :=
  let rotXZ := rotatePoint geometry p.x p.z xCenter zCenter angle
  ⟨rotXZ.1, p.y, rotXZ.2⟩

def rotateJointsXZ (geometry : Geometry F) (xCenter zCenter angle : F) (d : DanSkeleton F) :
    DanSkeleton F :=
  { d with
    joints := fun j => rotatePosition geometry xCenter zCenter angle (d.joints j)
    position := rotatePosition geometry xCenter zCenter angle d.position }

end DanSkeleton

end KinectTrack
