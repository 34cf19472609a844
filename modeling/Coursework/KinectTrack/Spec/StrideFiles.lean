import Coursework.KinectTrack.Spec.StridePositions
import Coursework.KinectTrack.StrideFiles
import Mathlib.Data.List.Basic

/-!
# Stride files round-trip

A file is its lines, a line is its fields with a tab after each, and the fields are the coordinates
of the 21 points of a frame. Reading undoes each of the three. The constructor computes the same
positions from frames that it has already rotated.

## Key results

- `readAllLines_unlines`: the lines of a file
- `readSkeleton_frameLine`: the skeleton of a line
- `new_capturedFrames`: the constructor on the frames of a stride
- `loadListOfStridesFromFile_write`: reading what two calls have written
-/

namespace KinectTrack

variable {F D : Type} {text : FloatText F D}

/-- The text of a float parses back to it, is not empty and has no character with a meaning in the
    file. -/
structure FloatText.RoundTrips (text : FloatText F D) : Prop where
  parses : ∀ x, ∃ d, text.toDouble (text.toText x) = some d ∧ text.toFloat d = x
  toText_ne_nil : ∀ x, text.toText x ≠ []
  plain : ∀ x, ∀ c ∈ text.toText x, c ∉ ['\t', '\n', '\r', ' ', '[']

/-! ## Lines -/

/-- Lines with a line feed after each. -/
def unlines (lines : List (List Char)) : List Char := lines.flatMap (· ++ ['\n'])

theorem splitLines_append {l : List Char} (hl : ∀ c ∈ l, c ≠ '\n' ∧ c ≠ '\r')
    (line rest : List Char) :
    splitLines false line (l ++ '\n' :: rest) = (line ++ l) :: splitLines false [] rest := by
  induction l generalizing line with
  | nil => simp [splitLines]
  | cons c l ih =>
    have hc := hl c List.mem_cons_self
    rw [List.cons_append, splitLines, if_neg hc.1, if_neg hc.2,
      ih fun c hc => hl c (List.mem_cons_of_mem _ hc), List.append_assoc, List.singleton_append]

theorem readAllLines_unlines {lines : List (List Char)}
    (hlines : ∀ l ∈ lines, ∀ c ∈ l, c ≠ '\n' ∧ c ≠ '\r') :
    readAllLines (unlines lines) = lines := by
  induction lines with
  | nil => rfl
  | cons l lines ih =>
    have hl := hlines l List.mem_cons_self
    have hrest := ih fun l hl => hlines l (List.mem_cons_of_mem _ hl)
    rw [readAllLines] at hrest ⊢
    rw [unlines, List.flatMap_cons, List.append_assoc, List.singleton_append,
      splitLines_append hl]
    exact congrArg (l :: ·) hrest

/-! ## Fields -/

/-- Fields with a tab after each. -/
def unfields (fields : List (List Char)) : List Char := fields.flatMap (· ++ ['\t'])

theorem splitOn_unfields {fields : List (List Char)} (hfields : ∀ l ∈ fields, '\t' ∉ l) :
    (unfields fields).splitOn '\t' = fields ++ [[]] := by
  induction fields with
  | nil => exact List.splitOn_nil _
  | cons l fields ih =>
    have hl := hfields l List.mem_cons_self
    rw [unfields, List.flatMap_cons, List.append_assoc, List.singleton_append,
      List.splitOn_append_cons_self, List.splitOn_eq_singleton hl]
    exact congrArg (l :: ·) (ih fun l hl => hfields l (List.mem_cons_of_mem _ hl))

namespace Stride

/-! ## The coordinates of a frame -/

/-- The joints and the position. -/
def points (s : Skeleton F) : List (SkeletonPoint F) :=
  (List.finRange 20).map s.joints ++ [s.position]

def coordinates (points : List (SkeletonPoint F)) : List F :=
  points.flatMap fun p => [p.x, p.y, p.z]

/-- The line of a frame, without its end. -/
def frameLine (text : FloatText F D) (s : Skeleton F) : List Char :=
  unfields ((coordinates (points s)).map text.toText)

theorem unfields_coordinates (ps : List (SkeletonPoint F)) :
    unfields ((coordinates ps).map text.toText) = ps.flatMap (pointText text) := by
  induction ps with
  | nil => rfl
  | cons p ps ih =>
    rw [List.flatMap_cons, ← ih]
    simp [coordinates, unfields, pointText]

theorem frameText_eq (d : DanSkeleton F) :
    frameText text d = frameLine text d.toSkeleton ++ ['\n'] := by
  rw [frameLine, unfields_coordinates, points, List.flatMap_append, List.flatMap_map]
  simp [frameText]

/-! ## Reading a frame -/

theorem convertFields_toText (h : text.RoundTrips) (xs : List F) :
    ∃ ds, convertFields text (xs.map text.toText ++ [[]]) = some ds ∧ ds.map text.toFloat = xs := by
  induction xs with
  | nil => exact ⟨[], rfl, rfl⟩
  | cons x xs ih =>
    obtain ⟨d, hd, hx⟩ := h.parses x
    obtain ⟨ds, hds, hxs⟩ := ih
    refine ⟨d :: ds, ?_, by rw [List.map_cons, hx, hxs]⟩
    rw [List.map_cons, List.cons_append, convertFields, if_neg (h.toText_ne_nil x), hd, hds]
    rfl

theorem frameLine_plain (h : text.RoundTrips) (s : Skeleton F) :
    ∀ c ∈ frameLine text s, c ∉ ['\n', '\r', ' ', '['] := by
  intro c hc
  rw [frameLine, unfields, List.mem_flatMap] at hc
  obtain ⟨field, hfield, hc⟩ := hc
  obtain ⟨x, _, rfl⟩ := List.mem_map.1 hfield
  -- a character of a number, or a tab
  cases List.mem_append.1 hc with
  | inl hc =>
    have hplain := h.plain x c hc
    exact fun hmem => hplain (List.mem_cons_of_mem _ hmem)
  | inr hc =>
    rw [List.mem_singleton.1 hc]
    decide

/-- The numbers of a line, and the element for its empty last field. -/
theorem posArray_frameLine (h : text.RoundTrips) (s : Skeleton F) :
    ∃ ds, posArray text (frameLine text s) = some (ds ++ [text.zero]) ∧
      ds.map text.toFloat = coordinates (points s) := by
  obtain ⟨ds, hds, hxs⟩ := convertFields_toText h (coordinates (points s))
  -- there are no blanks to replace
  have hspaces : (frameLine text s).filter (· ≠ ' ') = frameLine text s := by
    rw [List.filter_eq_self]
    intro c hc
    have hplain := frameLine_plain h s c hc
    exact decide_eq_true fun heq => hplain (by rw [heq]; decide)
  -- 63 fields, and an empty one after the last tab
  have hsplit : (frameLine text s).splitOn '\t' =
      (coordinates (points s)).map text.toText ++ [[]] := by
    apply splitOn_unfields
    intro field hfield htab
    obtain ⟨x, _, rfl⟩ := List.mem_map.1 hfield
    exact h.plain x _ htab List.mem_cons_self
  have hlen : ds.length = (coordinates (points s)).length := by rw [← hxs, List.length_map]
  refine ⟨ds, ?_, hxs⟩
  rw [posArray, hspaces, hsplit]
  show (convertFields text _).bind _ = _
  rw [hds, Option.bind_some, List.length_append, List.length_map, List.length_singleton, hlen,
    Nat.add_sub_cancel_left]
  rfl

/-- Three numbers in a row are a point. -/
theorem readPoint_eq {ps : List (SkeletonPoint F)} {ds rest : List D} {p : SkeletonPoint F}
    {i : Nat} (hds : ds.map text.toFloat = coordinates ps) (hp : ps[i]? = some p) :
    readPoint text (ds ++ rest) (3 * i) = some p := by
  induction ps generalizing ds i with
  | nil => cases hp
  | cons q ps ih =>
    -- the first three numbers are those of the first point
    obtain ⟨dx, ds₁, rfl, hx, hds₁⟩ := List.map_eq_cons_iff.1 hds
    obtain ⟨dy, ds₂, rfl, hy, hds₂⟩ := List.map_eq_cons_iff.1 hds₁
    obtain ⟨dz, ds₃, rfl, hz, hds₃⟩ := List.map_eq_cons_iff.1 hds₂
    cases i with
    | zero =>
      cases hp
      show some (⟨text.toFloat dx, text.toFloat dy, text.toFloat dz⟩ : SkeletonPoint F) = _
      rw [hx, hy, hz]
    | succ i =>
      show readPoint text (ds₃ ++ rest) (3 * i) = some p
      exact ih hds₃ hp

theorem readSkeleton_frameLine (h : text.RoundTrips) (s : Skeleton F) :
    readSkeleton text (frameLine text s) = some s := by
  obtain ⟨ds, hds, hxs⟩ := posArray_frameLine h s
  have hjoint : ∀ j : Fin 20, readPoint text (ds ++ [text.zero]) (3 * j) = some (s.joints j) := by
    intro j
    apply readPoint_eq hxs
    have hj : j.val < ((List.finRange 20).map s.joints).length := by
      rw [List.length_map, List.length_finRange]
      exact j.isLt
    rw [points, List.getElem?_append_left hj, List.getElem?_map, List.getElem?_eq_getElem (by simp)]
    simp
  -- the position is point 20
  have hposition : readPoint text (ds ++ [text.zero]) 60 = some s.position := by
    apply readPoint_eq (i := 20) hxs
    rfl
  have hjoints : (Vector.ofFnM fun j : Fin 20 => readPoint text (ds ++ [text.zero]) (3 * j)) =
      some (Vector.ofFn s.joints) := by
    rw [funext hjoint]
    exact Vector.ofFnM_pure
  rw [readSkeleton, hds, Option.bind_eq_bind, Option.bind_some, hjoints]
  simp [hposition, Vector.get]

/-- The lines of a stride. -/
def strideLines (text : FloatText F D) (frames : List (Skeleton F)) : List (List Char) :=
  frames.map (frameLine text) ++ [strideMarker ++ [' ']]

theorem frameLine_not_marker (h : text.RoundTrips) (s : Skeleton F) :
    strideMarker.isPrefixOf (frameLine text s) = false := by
  rw [Bool.eq_false_iff]
  intro hmarker
  obtain ⟨rest, hrest⟩ := List.isPrefixOf_iff_prefix.1 hmarker
  have hmem : '[' ∈ frameLine text s := by
    rw [← hrest]
    exact List.mem_cons_self
  exact frameLine_plain h s '[' hmem (by decide)

/-! ## The constructor on its own frames -/

/-- Marking a step changes no skeleton. -/
theorem markStep_skeletons (i : Nat) (s : Stride F) :
    (s.markStep i).capturedFrames.map DanSkeleton.toSkeleton =
      s.capturedFrames.map DanSkeleton.toSkeleton := by
  apply List.ext_getElem?
  intro k
  rw [List.getElem?_map, List.getElem?_map, markStep, List.getElem?_modify,
    Option.map_eq_map, Option.map_map]
  congr 1
  funext d
  show (if i = k then _ else d).toSkeleton = _
  split <;> rfl

theorem convertToDan_skeletons {frames : List (DanSkeleton F)}
    (hframes : ∀ d ∈ frames, d.isStepSkel = false) :
    convertToDanFromSkel (frames.map DanSkeleton.toSkeleton) = frames := by
  rw [convertToDanFromSkel, List.map_map]
  conv => rhs; rw [← List.map_id frames]
  apply List.map_congr_left
  intro d hd
  obtain ⟨skeleton, isStepSkel⟩ := d
  cases hframes _ hd
  rfl

variable [Add F] [Sub F] [Mul F] [Zero F] [One F] {geometry geometry' : Geometry F} {s : Stride F}

/-- The frames before the steps are marked. -/
theorem rotated_unmarked {raw : List (Skeleton F)} {doRotate : Bool}
    {frames : List (DanSkeleton F)}
    (h : (if doRotate then rotateSkelList geometry (convertToDanFromSkel raw)
      else some (convertToDanFromSkel raw)) = some frames) :
    ∀ d ∈ frames, d.isStepSkel = false := by
  have hraw : ∀ d ∈ convertToDanFromSkel raw, d.isStepSkel = false := by
    intro d hd
    obtain ⟨skeleton, _, rfl⟩ := List.mem_map.1 hd
    rfl
  -- rotation keeps the marks
  split at h
  · rw [rotateSkelList] at h
    split at h
    · cases h
      intro d hd
      obtain ⟨d₀, hd₀, rfl⟩ := List.mem_map.1 hd
      exact hraw d₀ hd₀
    · cases h
  · cases h
    exact hraw

variable [LT F] [DecidableLT F]

/-- A stride that the constructor has built is built again from its own frames. -/
theorem new_capturedFrames {raw : List (Skeleton F)} {doRotate : Bool}
    (h : new geometry raw doRotate = some s) :
    new geometry' (s.capturedFrames.map DanSkeleton.toSkeleton) false = some s := by
  obtain ⟨frames, hframes, h⟩ := Option.bind_eq_some_iff.1 h
  obtain ⟨s₀, hs₀, rfl⟩ := Option.map_eq_some_iff.1 h
  have hcaptured : s₀.capturedFrames = frames := getStridePositions_capturedFrames hs₀
  rw [markStep_skeletons, markStep_skeletons, hcaptured, new, if_neg Bool.false_ne_true,
    convertToDan_skeletons (rotated_unmarked hframes), Option.bind_some, hs₀]
  rfl

/-! ## Reading a file -/

theorem loadLines_strideLines (h : text.RoundTrips) (cur : List (List Char))
    (frames : List (Skeleton F)) (rest : List (List Char)) :
    loadLines text geometry cur (strideLines text frames ++ rest) =
      ((cur ++ frames.map (frameLine text)).mapM (readSkeleton text)).bind fun strideList =>
        (new geometry strideList false).bind fun buildMe =>
          (loadLines text geometry [] rest).bind fun output => some (buildMe :: output) := by
  induction frames generalizing cur with
  | nil =>
    show loadLines text geometry cur ((strideMarker ++ [' ']) :: rest) = _
    -- the marker ends the stride
    rw [loadLines, if_pos (by decide), List.map_nil, List.append_nil]
    rfl
  | cons frame frames ih =>
    show loadLines text geometry cur (frameLine text frame :: (strideLines text frames ++ rest)) = _
    -- the line of a frame is kept
    rw [loadLines, if_neg (by rw [frameLine_not_marker h]; exact Bool.false_ne_true), ih,
      List.append_assoc]
    rfl

/-- A stride that the constructor has built. -/
def Built (geometry : Geometry F) (s : Stride F) : Prop :=
  ∃ raw doRotate, new geometry raw doRotate = some s

theorem loadLines_strides (h : text.RoundTrips) {strides : List (Stride F)}
    (hstrides : ∀ s ∈ strides, Built geometry s) :
    loadLines text geometry [] (strides.flatMap fun s =>
      strideLines text (s.capturedFrames.map DanSkeleton.toSkeleton)) = some strides := by
  induction strides with
  | nil => rfl
  | cons s strides ih =>
    obtain ⟨raw, doRotate, hnew⟩ := hstrides s List.mem_cons_self
    have hrest := ih fun s hs => hstrides s (List.mem_cons_of_mem _ hs)
    have hread : ((s.capturedFrames.map DanSkeleton.toSkeleton).map (frameLine text)).mapM
        (readSkeleton text) = some (s.capturedFrames.map DanSkeleton.toSkeleton) := by
      rw [List.mapM_map]
      have hall := List.mapM_eq_some_map (l := s.capturedFrames.map DanSkeleton.toSkeleton)
        (g := id) fun frame _ => readSkeleton_frameLine h frame
      rwa [List.map_id] at hall
    rw [List.flatMap_cons, loadLines_strideLines h, List.nil_append, hread, Option.bind_some,
      new_capturedFrames hnew, Option.bind_some, hrest]
    rfl

/-! ## The round trip -/

omit [Add F] [Sub F] [Mul F] [Zero F] [One F] [LT F] [DecidableLT F] in
/-- Writing appends lines. -/
theorem writeListOfStridesToFile_eq (strides : List (Stride F)) (file : List Char) :
    writeListOfStridesToFile text strides file = file ++ unlines (strides.flatMap fun s =>
      strideLines text (s.capturedFrames.map DanSkeleton.toSkeleton)) := by
  have hframes : ∀ frames : List (DanSkeleton F), frames.flatMap (frameText text) =
      unlines ((frames.map DanSkeleton.toSkeleton).map (frameLine text)) := by
    intro frames
    rw [unlines, List.flatMap_map, List.flatMap_map]
    exact List.flatMap_congr fun d _ => frameText_eq d
  rw [writeListOfStridesToFile, unlines, List.flatMap_assoc]
  congr 1
  apply List.flatMap_congr
  intro s _
  rw [hframes, strideLines, List.flatMap_append]
  rfl

omit [Add F] [Sub F] [Mul F] [Zero F] [One F] [LT F] [DecidableLT F] in
theorem strideLines_plain (h : text.RoundTrips) (frames : List (Skeleton F)) :
    ∀ l ∈ strideLines text frames, ∀ c ∈ l, c ≠ '\n' ∧ c ≠ '\r' := by
  intro l hl c hc
  cases List.mem_append.1 hl with
  | inl hl =>
    obtain ⟨frame, _, rfl⟩ := List.mem_map.1 hl
    have hplain := frameLine_plain h frame c hc
    simp only [List.mem_cons, not_or] at hplain
    exact ⟨hplain.1, hplain.2.1⟩
  | inr hl =>
    rw [List.mem_singleton.1 hl] at hc
    have hmarker : (strideMarker ++ [' ']).all (fun c => c ≠ '\n' ∧ c ≠ '\r') = true := by decide
    rw [List.all_eq_true] at hmarker
    exact of_decide_eq_true (hmarker c hc)

/-- Strides that are written by two calls are read as they were. -/
theorem loadListOfStridesFromFile_write (geometry : Geometry F) (h : text.RoundTrips)
    (A B : List (Stride F)) (hbuilt : ∀ s ∈ A ++ B, Built geometry s) :
    loadListOfStridesFromFile text geometry
        (writeListOfStridesToFile text B (writeListOfStridesToFile text A [])) =
      some (A ++ B) := by
  have hlines : ∀ l ∈ (A ++ B).flatMap (fun s =>
      strideLines text (s.capturedFrames.map DanSkeleton.toSkeleton)),
      ∀ c ∈ l, c ≠ '\n' ∧ c ≠ '\r' := by
    intro l hl
    obtain ⟨s, _, hl⟩ := List.mem_flatMap.1 hl
    exact strideLines_plain h _ l hl
  -- the two calls have written the lines of `A ++ B`
  rw [writeListOfStridesToFile_eq, writeListOfStridesToFile_eq, List.nil_append, unlines, unlines,
    ← List.flatMap_append, ← List.flatMap_append, loadListOfStridesFromFile]
  show loadLines text geometry [] (readAllLines (unlines _)) = _
  rw [readAllLines_unlines hlines]
  exact loadLines_strides h hbuilt

end Stride

/-! ## Whole numbers -/

/-- The value of a row of digits. -/
def wholeNumber (digits : List Char) : Option Int :=
  if digits ≠ [] ∧ digits.all Char.isDigit then some (Nat.ofDigitChars 10 digits 0) else none

def wholeText (x : Int) : List Char :=
  if x < 0 then '-' :: Nat.toDigits 10 x.natAbs else Nat.toDigits 10 x.natAbs

def parseWhole (s : List Char) : Option Int :=
  if s.head? = some '-' then (wholeNumber s.tail).map (- ·) else wholeNumber s

/-- The text of floats that are whole numbers. -/
def FloatText.whole : FloatText Int Int := ⟨wholeText, parseWhole, id, 0⟩

theorem wholeNumber_toDigits (n : Nat) : wholeNumber (Nat.toDigits 10 n) = some (n : Int) := by
  have hdigits : (Nat.toDigits 10 n).all Char.isDigit = true :=
    List.all_eq_true.2 fun c hc => Nat.isDigit_of_mem_toDigits (by decide) (by decide) hc
  rw [wholeNumber, if_pos ⟨Nat.toDigits_ne_nil, hdigits⟩,
    Nat.ofDigitChars_toDigits (by decide) (by decide)]

theorem parseWhole_wholeText (x : Int) : parseWhole (wholeText x) = some x := by
  rw [wholeText, parseWhole]
  by_cases hx : x < 0
  · rw [if_pos hx, List.head?_cons, if_pos rfl, List.tail_cons, wholeNumber_toDigits,
      Option.map_some]
    exact congrArg some (by omega)
  · rw [if_neg hx, if_neg, wholeNumber_toDigits]
    · exact congrArg some (by omega)
    · -- a digit is not a sign
      intro hhead
      have hdigit := Nat.isDigit_of_mem_toDigits (by decide) (by decide)
        (List.mem_of_mem_head? hhead)
      exact absurd hdigit (by decide)

theorem wholeText_plain {x : Int} {c : Char} (hc : c ∈ wholeText x) :
    c ∉ ['\t', '\n', '\r', ' ', '['] := by
  have hdigit : ∀ n, c ∈ Nat.toDigits 10 n → c ∉ ['\t', '\n', '\r', ' ', '['] := by
    intro n hc hmem
    have hisDigit := Nat.isDigit_of_mem_toDigits (by decide) (by decide) hc
    have hnone : ['\t', '\n', '\r', ' ', '['].all (fun c => !c.isDigit) = true := by decide
    rw [List.all_eq_true] at hnone
    exact absurd (hnone c hmem) (by rw [hisDigit]; decide)
  rw [wholeText] at hc
  split at hc
  · cases hc with
    | head => decide
    | tail _ hc => exact hdigit _ hc
  · exact hdigit _ hc

theorem FloatText.whole_roundTrips : FloatText.whole.RoundTrips where
  parses x := ⟨x, parseWhole_wholeText x, rfl⟩
  toText_ne_nil x := by
    show wholeText x ≠ []
    rw [wholeText]
    split
    · exact List.cons_ne_nil _ _
    · exact Nat.toDigits_ne_nil
  plain _ _ := wholeText_plain

namespace Stride

/-- A stride of one frame. -/
def snapshot : Stride Int := ⟨[{ onLine 1 with isStepSkel := true }], 0, 0, 0, .L, .L, .L⟩

theorem snapshot_built : Built line snapshot := ⟨[(onLine 1).toSkeleton], false, rfl⟩

/-- A stride of five frames, from the first to the third of those where the feet pass each other. -/
def walked : Stride Int :=
  ⟨[onLine 1, { onLine (-1) with isStepSkel := true }, onLine 1,
    { onLine (-1) with isStepSkel := true }, onLine (-1)], 1, 3, 2, .R, .R, .R⟩

theorem walked_built : Built line walked :=
  ⟨[onLine 1, onLine (-1), onLine 1, onLine (-1), onLine (-1)].map DanSkeleton.toSkeleton, false,
    rfl⟩

theorem loadListOfStridesFromFile_write_twoCalls :
    loadListOfStridesFromFile .whole line
        (writeListOfStridesToFile .whole [snapshot, walked]
          (writeListOfStridesToFile .whole [walked] [])) =
      some ([walked] ++ [snapshot, walked]) := by
  apply loadListOfStridesFromFile_write line FloatText.whole_roundTrips
  intro s hs
  simp only [List.cons_append, List.nil_append, List.mem_cons, List.not_mem_nil, or_false] at hs
  rcases hs with rfl | rfl | rfl
  · exact walked_built
  · exact snapshot_built
  · exact walked_built

end Stride

end KinectTrack
