import Coursework.KinectTrack.Stride

/-!
# Stride files

A stride is written as one line for each captured frame, 63 numbers with a tab after each, and a
line that marks its end. Reading builds every stride again with the constructor. A file is the list
of its characters; how a number is written and read is a parameter. An exception is modelled as
none.
-/

namespace KinectTrack

variable {F D : Type}

/-- `F` is `float`, `D` is `double`. -/
structure FloatText (F D : Type) where
  /-- What is appended for a float. -/
  toText : F → List Char
  /-- `Convert.ToDouble` -/
  toDouble : List Char → Option D
  /-- `(float)` -/
  toFloat : D → F
  /-- The elements of a new `double[]`. -/
  zero : D

/-! ## Reading lines -/

/-- The lines of the rest of a file, with the line that has been begun. After a carriage return a
    line feed belongs to the same end of line. -/
def splitLines : Bool → List Char → List Char → List (List Char)
  | _, line, [] => if line = [] then [] else [line]
  | afterReturn, line, c :: rest =>
    if c = '\n' then
      if afterReturn then splitLines false [] rest else line :: splitLines false [] rest
    else if c = '\r' then line :: splitLines true [] rest
    else splitLines false (line ++ [c]) rest

/-- `System.IO.File.ReadAllLines` -/
def readAllLines (file : List Char) : List (List Char) := splitLines false [] file

namespace Stride

/-! ## Writing -/

def strideMarker : List Char := "[STRIDE]".toList

def pointText (text : FloatText F D) (p : SkeletonPoint F) : List Char :=
  text.toText p.x ++ '\t' :: (text.toText p.y ++ '\t' :: (text.toText p.z ++ ['\t']))

def frameText (text : FloatText F D) (currentFrame : DanSkeleton F) : List Char :=
  (List.finRange 20).flatMap (fun j => pointText text (currentFrame.joints j)) ++
    pointText text currentFrame.position ++ ['\n']

/-- `writeListOfStridesToFile`, which appends. -/
def writeListOfStridesToFile (text : FloatText F D) (sList : List (Stride F)) (file : List Char) :
    List Char :=
  file ++ sList.flatMap fun s =>
    s.capturedFrames.flatMap (frameText text) ++ (strideMarker ++ [' ', '\n'])

/-! ## Reading -/

/-- The fields up to the first empty one. -/
def convertFields (text : FloatText F D) : List (List Char) → Option (List D)
  | [] => some []
  | s :: fields =>
    if s = [] then some []
    else do
      let d ← text.toDouble s
      let ds ← convertFields text fields
      return d :: ds

/-- `posArray`, as long as there are fields. -/
def posArray (text : FloatText F D) (skelLine : List Char) : Option (List D) := do
  let splitSkelLine := (skelLine.filter (· ≠ ' ')).splitOn '\t'
  let ds ← convertFields text splitSkelLine
  return ds ++ List.replicate (splitSkelLine.length - ds.length) text.zero

def readPoint (text : FloatText F D) (posArray : List D) (doubleIndex : Nat) :
    Option (SkeletonPoint F) := do
  let x ← posArray[doubleIndex]?
  let y ← posArray[doubleIndex + 1]?
  let z ← posArray[doubleIndex + 2]?
  return ⟨text.toFloat x, text.toFloat y, text.toFloat z⟩

def readSkeleton (text : FloatText F D) (skelLine : List Char) : Option (Skeleton F) := do
  let posArray ← posArray text skelLine
  let joints4Skel ← Vector.ofFnM fun j : Fin 20 => readPoint text posArray (3 * j)
  let skelPos ← readPoint text posArray 60
  return ⟨fun j => joints4Skel.get j, skelPos⟩

variable [Add F] [Sub F] [Mul F] [Zero F] [One F] [LT F] [DecidableLT F]

/-- The loop over the lines, with the lines since the last marker. -/
def loadLines (text : FloatText F D) (geometry : Geometry F) :
    List (List Char) → List (List Char) → Option (List (Stride F))
  | _, [] => some []
  | curStrideLines, line :: allLines =>
    if strideMarker.isPrefixOf line then do
      let strideList ← curStrideLines.mapM (readSkeleton text)
      let buildMe ← new geometry strideList false
      let output ← loadLines text geometry [] allLines
      return buildMe :: output
    else loadLines text geometry (curStrideLines ++ [line]) allLines

def loadListOfStridesFromFile (text : FloatText F D) (geometry : Geometry F) (file : List Char) :
    Option (List (Stride F)) :=
  loadLines text geometry [] (readAllLines file)

end Stride

end KinectTrack
