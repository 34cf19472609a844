import Coursework.KinectTrack.Skeleton
import Mathlib.Algebra.Field.Defs
import Mathlib.Algebra.Order.Group.Unbundled.Abs

/-!
# Strides

`Stride` finds where a stride begins and ends: at the first and third frame at which the feet pass
each other. Its statistics are averages over the frames between. A division by zero and an exception
are modelled as none.
-/

namespace KinectTrack

variable {F : Type}

/-- The fields that the constructor sets. -/
structure Stride (F : Type) where
  capturedFrames : List (DanSkeleton F)
  firstFrame : Nat
  lastFrame : Nat
  midFrame : Nat
  firstFootDown : RelDir
  midFootDown : RelDir
  lastFootDown : RelDir

namespace Stride

/-- A new object, whose other fields have the values of their types. -/
def ofFrames (capturedFrames : List (DanSkeleton F)) : Stride F :=
  ⟨capturedFrames, 0, 0, 0, .L, .L, .L⟩

/-! ## The begin and the end -/

section Positions

variable [Sub F] [Zero F] [LT F] [DecidableLT F]

def footDifference (d : DanSkeleton F) : F :=
  (d.joints JointType.footLeft).x - (d.joints JointType.footRight).x

/-- The left foot is behind the right one. -/
def leftBehind (d : DanSkeleton F) : Bool := footDifference d < 0

def getLowerFoot (skel : DanSkeleton F) : RelDir :=
  if (skel.joints JointType.footLeft).y < (skel.joints JointType.footRight).y then .L else .R

/-- The loop of `getStridePositions` over the frames from number `i` on. -/
def scan : List (DanSkeleton F) → Nat → Bool → Nat → Stride F → Stride F
  | [], _, _, _, s => s
  | d :: frames, i, truthTest, crossingPointNum, s =>
    if truthTest ≠ leftBehind d then
      if crossingPointNum = 0 then
        scan frames (i + 1) (!truthTest) 1
          { s with firstFrame := i, firstFootDown := getLowerFoot d }
      else if crossingPointNum = 2 then
        { s with lastFrame := i, lastFootDown := getLowerFoot d }
      else
        scan frames (i + 1) (!truthTest) (crossingPointNum + 1)
          { s with midFootDown := getLowerFoot d, midFrame := i }
    else scan frames (i + 1) truthTest crossingPointNum s

def getStridePositions (s : Stride F) : Option (Stride F) :=
  match s.capturedFrames with
  | [] => none
  | skeletonZero :: _ =>
    let s := scan s.capturedFrames 0 (leftBehind skeletonZero) 0 s
    -- where no last frame was found
    some (if s.lastFrame ≤ s.firstFrame then
      { s with lastFrame := s.capturedFrames.length - 1 } else s)

end Positions

/-! ## The constructor -/

section Constructor

variable [Add F] [Sub F] [Mul F] [Zero F] [One F] [LT F] [DecidableLT F]

def convertToDanFromSkel (rawSkeletonList : List (Skeleton F)) : List (DanSkeleton F) :=
  rawSkeletonList.map DanSkeleton.ofSkeleton

def rotateSkelList (geometry : Geometry F) (skelList : List (DanSkeleton F)) :
    Option (List (DanSkeleton F)) :=
  match skelList.head?, skelList.getLast? with
  | some startSkel, some endSkel =>
    let startPos := startSkel.position
    let endPos := endSkel.position
    let angleVector := (endPos.x - startPos.x, endPos.z - startPos.z)
    let idealVector : F × F := (1, 0)
    let angle := geometry.angleBetween angleVector idealVector
    some (skelList.map (DanSkeleton.rotateJointsXZ geometry startPos.x startPos.z angle))
  | _, _ => none

/-- `capturedFrames[i].isStepSkel = true` -/
def markStep (i : Nat) (s : Stride F) : Stride F :=
  { s with
    capturedFrames := s.capturedFrames.modify i fun d => { d with isStepSkel := true } }

/-- `Stride(List<Skeleton> rawSkeletonList, bool doRotate)` -/
def new (geometry : Geometry F) (rawSkeletonList : List (Skeleton F)) (doRotate : Bool) :
    Option (Stride F) :=
  let capturedFrames := convertToDanFromSkel rawSkeletonList
  (if doRotate then rotateSkelList geometry capturedFrames else some capturedFrames).bind
    fun capturedFrames =>
      (ofFrames capturedFrames).getStridePositions.map fun s =>
        (s.markStep s.firstFrame).markStep s.lastFrame

end Constructor

/-! ## Statistics -/

section Statistics

variable [Field F] [LinearOrder F]

def divide (a b : F) : Option F := if b = 0 then none else some (a / b)

/-- `Utils3D.skelPointDist` -/
def skelPointDist (geometry : Geometry F) (s1 s2 : SkeletonPoint F) : F :=
  let xterm := s1.x - s2.x
  let yterm := s1.y - s2.y
  let zterm := s1.z - s2.z
  geometry.sqrt (xterm * xterm + yterm * yterm + zterm * zterm)

def strideLengthMeters (geometry : Geometry F) (s : Stride F) : Option F :=
  match s.capturedFrames[s.firstFrame]?, s.capturedFrames[s.lastFrame]? with
  | some firstSkelInCycle, some lastSkelInCycle =>
    some (skelPointDist geometry (firstSkelInCycle.joints JointType.footRight)
      (lastSkelInCycle.joints JointType.footRight))
  | _, _ => none

def strideLengthFrames (s : Stride F) : Int := (s.lastFrame : Int) - s.firstFrame

def strideMetersPerSecond (geometry : Geometry F) (s : Stride F) : Option F := do
  let seconds ← divide (s.strideLengthFrames : F) 30
  divide (← s.strideLengthMeters geometry) seconds

/-- `capturedFrames[i]` for all these `i`. -/
def framesFrom (s : Stride F) (first last : Nat) : Option (List (DanSkeleton F)) :=
  (List.range' first (last - first)).mapM fun i => s.capturedFrames[i]?

def widthBetweenFeetAvg (s : Stride F) : Option F := do
  let frames ← s.framesFrom s.firstFrame s.lastFrame
  let widthSum := (frames.map fun curSkel =>
    |(curSkel.joints JointType.footRight).z - (curSkel.joints JointType.footLeft).z|).sum
  divide widthSum s.strideLengthFrames

def jointPairToVector3D (pair : SkeletonPoint F × SkeletonPoint F) : SkeletonPoint F :=
  ⟨pair.2.x - pair.1.x, pair.2.y - pair.1.y, pair.2.z - pair.1.z⟩

def angleBetweenJointPairs (geometry : Geometry F)
    (pair1 pair2 : SkeletonPoint F × SkeletonPoint F) : Option F :=
  if pair1.2 ≠ pair2.1 then none
  else some (geometry.angleBetween3D (jointPairToVector3D pair1) (jointPairToVector3D pair2))

def getAllFootAngles (geometry : Geometry F) (s : Stride F) (foot : RelDir) : Option (List F) := do
  let lframei := if s.lastFrame ≤ s.firstFrame then s.capturedFrames.length else s.lastFrame
  let frames ← s.framesFrom s.firstFrame lframei
  frames.mapM fun curSkel =>
    let knee := JointType.startEnum foot
    let ankle := JointType.next knee
    angleBetweenJointPairs geometry (curSkel.joints knee, curSkel.joints ankle)
      (curSkel.joints ankle, curSkel.joints (JointType.next ankle))

/-- `leftFootAngleAvg` and `rightFootAngleAvg` -/
def footAngleAvg (geometry : Geometry F) (s : Stride F) (foot : RelDir) : Option F := do
  let angles ← s.getAllFootAngles geometry foot
  divide angles.sum s.strideLengthFrames

def leftFootAngleAvg (geometry : Geometry F) (s : Stride F) : Option F := s.footAngleAvg geometry .L

def rightFootAngleAvg (geometry : Geometry F) (s : Stride F) : Option F :=
  s.footAngleAvg geometry .R

end Statistics

end Stride

end KinectTrack
