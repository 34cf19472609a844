import Coursework.Level.Loader
import Coursework.ForStd.Except

/-!
# The loops of the loader, line by line

Each loop is a fold over the lines of the file. The first one needs an empty line: after the end of
the file it goes on for ever with the line that `fgets` leaves in the buffer.

## Key results

- `describeLoop_lines`, `describeLoop_stuck`: the first loop with and without an empty line
- `connectLoop_lines`: the second loop, which always ends
- `load_ends_iff`: when `load_level` ends
-/

namespace Level

open CStd

/-- A line of the first loop: the rooms and the buffer after it. -/
def describeLine (t : List Room × List UInt8) (line : List UInt8) :
    Except Stop (List Room × List UInt8) := do
  let rooms ← describe t.1 (overlay t.2 line)
  return (rooms, overlay t.2 line)

/-- A line of the second loop. -/
def connectLine (t : List Room × List UInt8) (line : List UInt8) :
    Except Stop (List Room × List UInt8) := do
  let rooms ← connect t.1 (overlay t.2 line)
  return (rooms, overlay t.2 line)

/-- The second loop takes a line that is not empty and ends before the file does. -/
def Taken (line : List UInt8) : Prop := line.head? ≠ some newline ∧ Complete 255 line

instance (line : List UInt8) : Decidable (Taken line) := inferInstanceAs (Decidable (_ ∧ _))

/-- The lines of the second loop, in what follows the empty line. -/
def connectionLines (rest : List UInt8) : List (List UInt8) :=
  (lines 255 255 (skipCharacters whitespace rest).rest).takeWhile fun line => Taken line

/-- There is an empty line after the header; the lines before it can be stored, with no access
    outside of an array, and so can the connections after it up to the first failed assertion. -/
def CanLoad (content : List UInt8) : Prop :=
  ∃ s, header content = .ok s ∧ ∃ ds e tail t,
    lines 255 255 s.file.rest = ds ++ e :: tail ∧ (∀ d ∈ ds, d.head? ≠ some newline) ∧
    e.head? = some newline ∧ ds.foldlM describeLine (s.rooms, s.buf) = .ok t ∧
    (connectionLines tail.flatten).foldlM connectLine (t.1, overlay t.2 e) ≠ .error .undefined

variable {s : State} {rooms : List Room} {buf content l rest : List UInt8} {fuel : Nat}
  {ds ls tail : List (List UInt8)} {e : List UInt8} {stop : Stop}

/-! ## Errors -/

theorem defined_error {α : Type} {x : Option α} (h : defined x = .error stop) :
    stop = .undefined := by
  cases x with
  | none => exact (Except.error.inj h).symm
  | some a => cases h

theorem bind_error {α β : Type} {x : Except Stop α} {f : α → Except Stop β}
    (h : (x >>= f) = .error stop) : x = .error stop ∨ ∃ a, x = .ok a ∧ f a = .error stop := by
  cases x with
  | error e => exact .inl (congrArg Except.error (Except.error.inj h))
  | ok a => exact .inr ⟨a, rfl, h⟩

theorem describe_error (h : describe rooms buf = .error stop) : stop = .undefined := by
  unfold describe at h
  dsimp only at h
  split at h
  · exact (Except.error.inj h).symm
  · cases bind_error h with
    | inl hdefined => exact defined_error hdefined
    | inr htext =>
      obtain ⟨text, -, hif⟩ := htext
      split at hif
      · cases hif
      · exact (Except.error.inj hif).symm

theorem describeLines_error {t : List Room × List UInt8}
    (h : ds.foldlM describeLine t = .error stop) : stop = .undefined := by
  by_contra hne
  refine Except.foldlM_ne_error ?_ ds t h
  intro t line hline
  cases bind_error hline with
  | inl hdescribe => exact hne (describe_error hdescribe)
  | inr hreturn =>
    obtain ⟨rooms, -, hreturn⟩ := hreturn
    cases hreturn

theorem header_error (h : header content = .error stop) : stop = .undefined := by
  unfold header at h
  dsimp only at h
  obtain hline | ⟨line, -, h⟩ := bind_error h
  · exact defined_error hline
  · obtain hnum | ⟨numRooms, -, h⟩ := bind_error h
    · exact defined_error hnum
    · by_cases hpos : numRooms ≤ 0
      · rw [if_pos hpos] at h
        exact (Except.error.inj h).symm
      · rw [if_neg hpos] at h
        cases h

/-! ## Steps of the loops -/

theorem head?_overlay (hl : l ≠ []) (buf : List UInt8) : (overlay buf l).head? = l.head? := by
  cases l with
  | nil => exact absurd rfl hl
  | cons c l => rfl

theorem fgets_line (heof : s.file.eof = false) (h : lines 255 255 s.file.rest = l :: ls) :
    s.fgets = ⟨⟨ls.flatten, decide (¬ Complete 255 l)⟩, overlay s.buf l, s.rooms⟩ := by
  rw [State.fgets, fgets_lines (by decide) heof h]

theorem fgets_eof (h : s.file.rest = []) : s.fgets = ⟨⟨[], true⟩, s.buf, s.rooms⟩ := by
  rw [State.fgets, fgets_end (by decide) h]

/-- A line of the first loop that is not empty. -/
theorem describeLoop_cons (heof : s.file.eof = false)
    (h : lines 255 255 s.file.rest = l :: ls) (hl : l.head? ≠ some newline) :
    describeLoop (fuel + 1) s =
      match describe s.rooms (overlay s.buf l) with
      | .error e => some (throw e)
      | .ok rooms =>
        describeLoop fuel ⟨⟨ls.flatten, decide (¬ Complete 255 l)⟩, overlay s.buf l, rooms⟩ := by
  have hne := lines_ne_nil (by decide) h
  obtain ⟨c, hc⟩ : ∃ c, l.head? = some c := by
    cases l with
    | nil => exact absurd rfl hne
    | cons c l => exact ⟨c, rfl⟩
  rw [describeLoop, fgets_line heof h]
  simp only [head?_overlay hne, hc]
  rw [hc] at hl
  refine (if_neg fun heq => hl (congrArg some heq)).trans ?_
  cases describe s.rooms (overlay s.buf l) with
  | error stop => rfl
  | ok rooms => rfl

/-- With an empty line the first loop is a fold over the lines before it. -/
theorem describeLoop_lines (heof : s.file.eof = false)
    (h : lines 255 255 s.file.rest = ds ++ e :: tail) (hds : ∀ d ∈ ds, d.head? ≠ some newline)
    (he : e.head? = some newline) (hfuel : ds.length < fuel) :
    describeLoop fuel s = some (do
      let t ← ds.foldlM describeLine (s.rooms, s.buf)
      return ⟨⟨tail.flatten, false⟩, overlay t.2 e, t.1⟩) := by
  induction ds generalizing s fuel with
  | nil =>
    obtain ⟨fuel, rfl⟩ : ∃ n, fuel = n + 1 := ⟨fuel - 1, by omega⟩
    have hne := lines_ne_nil (by decide) h
    -- the empty line has a newline, so that the flag is not set when it ends the loop
    have hcomplete : Complete 255 e := .inl (List.mem_of_head? he)
    rw [describeLoop, fgets_line heof h]
    simp only [head?_overlay hne, he, hcomplete, not_true, decide_false, if_true]
    rfl
  | cons d ds ih =>
    obtain ⟨fuel, rfl⟩ : ∃ n, fuel = n + 1 := ⟨fuel - 1, by omega⟩
    rw [List.cons_append] at h
    rw [List.length_cons] at hfuel
    -- the empty line is still to come, so that this line is not the last one
    have hcomplete := lines_complete (by decide) h (by simp)
    have hrest := (lines_tail (by decide) h).2.2
    rw [describeLoop_cons heof h (hds d List.mem_cons_self), List.foldlM_cons, describeLine]
    cases hd : describe s.rooms (overlay s.buf d) with
    | error stop => rfl
    | ok rooms =>
      simp only [hcomplete, not_true, decide_false]
      rw [ih rfl hrest (fun d' hd' => hds d' (List.mem_cons_of_mem d hd')) (by omega)]
      rfl

/-- Without one it never ends, except where its behaviour is undefined. -/
theorem describeLoop_stuck (heof : s.file.rest ≠ [] → s.file.eof = false)
    (h : ∀ l ∈ lines 255 255 s.file.rest, l.head? ≠ some newline)
    (hbuf : s.buf.head? ≠ some newline) :
    describeLoop fuel s = none ∨ describeLoop fuel s = some (throw .undefined) := by
  induction fuel generalizing s with
  | zero => exact .inl rfl
  | succ fuel ih =>
    by_cases hrest : s.file.rest = []
    · -- the line that is in the buffer is taken once more
      rw [describeLoop, fgets_eof hrest]
      dsimp only
      cases hc : s.buf.head? with
      | none => exact .inr rfl
      | some c =>
        rw [hc] at hbuf
        dsimp only
        rw [if_neg (fun heq => hbuf (congrArg some heq))]
        cases hd : describe s.rooms s.buf with
        | error stop => exact .inr (by rw [describe_error hd])
        | ok rooms =>
          exact ih (fun hne => absurd rfl hne) (fun l hl => absurd hl List.not_mem_nil)
            (hc ▸ hbuf)
    · -- one more line is read, after which the flag may be set; the test does not look at it
      obtain ⟨l, ls, hls⟩ := List.exists_cons_of_ne_nil
        (fun hnil : lines 255 255 s.file.rest = [] => hrest (lines_eq_nil.1 hnil))
      have hrest' := (lines_tail (by decide) hls).2.2
      rw [hls] at h
      rw [describeLoop_cons (heof hrest) hls (h l List.mem_cons_self)]
      cases hd : describe s.rooms (overlay s.buf l) with
      | error stop => exact .inr (by rw [describe_error hd])
      | ok rooms =>
        apply ih
        · intro hmore
          have hcomplete := lines_complete (by decide) hls (fun hnil => hmore (by rw [hnil]; rfl))
          exact decide_eq_false (not_not.2 hcomplete)
        · intro l' hl'
          exact h l' (List.mem_cons_of_mem l (hrest' ▸ hl'))
        · rw [head?_overlay (lines_ne_nil (by decide) hls)]
          exact h l List.mem_cons_self

/-- The second loop is a fold over its lines. -/
theorem connectLoop_lines (heof : s.file.rest ≠ [] → s.file.eof = false) (hbuf : s.buf ≠ [])
    (h : lines 255 255 s.file.rest = ls) (hfuel : ls.length < fuel) :
    connectLoop fuel s = some (do
      let t ← (ls.takeWhile fun line => Taken line).foldlM connectLine (s.rooms, s.buf)
      return t.1) := by
  induction ls generalizing s fuel with
  | nil =>
    obtain ⟨fuel, rfl⟩ : ∃ n, fuel = n + 1 := ⟨fuel - 1, by omega⟩
    obtain ⟨c, hc⟩ : ∃ c, s.buf.head? = some c := by
      obtain ⟨c, cs, hcons⟩ := List.exists_cons_of_ne_nil hbuf
      exact ⟨c, by rw [hcons]; rfl⟩
    -- at the end of the file the flag ends the loop, whatever the buffer has
    rw [connectLoop, fgets_eof (lines_eq_nil.1 h)]
    simp only [hc, or_true, if_true]
    rfl
  | cons l ls ih =>
    obtain ⟨fuel, rfl⟩ : ∃ n, fuel = n + 1 := ⟨fuel - 1, by omega⟩
    rw [List.length_cons] at hfuel
    have hne := lines_ne_nil (by decide) h
    have hrest : s.file.rest ≠ [] := by
      intro hnil
      rw [hnil] at h
      cases h
    obtain ⟨c, hc⟩ : ∃ c, l.head? = some c := by
      obtain ⟨c, cs, rfl⟩ := List.exists_cons_of_ne_nil hne
      exact ⟨c, rfl⟩
    have hover : overlay s.buf l ≠ [] := by simp [overlay]
    rw [connectLoop, fgets_line (heof hrest) h]
    simp only [head?_overlay hne, hc, decide_eq_true_eq]
    by_cases htaken : Taken l
    · have hgoes : ¬ (c = newline ∨ ¬ Complete 255 l) := by
        rw [not_or, not_not]
        exact ⟨fun heq => htaken.1 (heq ▸ hc), htaken.2⟩
      have htake : (l :: ls).takeWhile (fun line => Taken line) =
          l :: ls.takeWhile fun line => Taken line :=
        List.takeWhile_cons_of_pos (decide_eq_true htaken)
      rw [if_neg hgoes, htake, List.foldlM_cons, connectLine]
      cases hl : connect s.rooms (overlay s.buf l) with
      | error stop => rfl
      | ok rooms =>
        have hnext := ih (s := ⟨⟨ls.flatten, decide (¬ Complete 255 l)⟩, overlay s.buf l, rooms⟩)
          (fun _ => decide_eq_false (not_not.2 htaken.2)) hover (lines_tail (by decide) h).2.2
          (show ls.length < fuel by omega)
        exact hnext
    · -- an empty line, or one that ends with the file: it is not used
      have hstops : c = newline ∨ ¬ Complete 255 l := by
        by_contra hgoes
        rw [not_or, not_not] at hgoes
        apply htaken
        refine ⟨?_, hgoes.2⟩
        rw [hc]
        exact fun heq => hgoes.1 (Option.some.inj heq)
      have htake : (l :: ls).takeWhile (fun line => Taken line) = [] :=
        List.takeWhile_cons_of_neg (by rwa [decide_eq_true_eq])
      rw [if_pos hstops, htake]
      rfl

/-! ## Fuel -/

theorem describeLoop_mono {fuel' : Nat} (hle : fuel ≤ fuel') {r : Except Stop State}
    (h : describeLoop fuel s = some r) : describeLoop fuel' s = some r := by
  induction fuel generalizing s fuel' with
  | zero => cases h
  | succ fuel ih =>
    obtain ⟨fuel', rfl⟩ : ∃ n, fuel' = n + 1 := ⟨fuel' - 1, by omega⟩
    rw [describeLoop] at h ⊢
    cases hc : s.fgets.buf.head? with
    | none =>
      simp only [hc] at h ⊢
      exact h
    | some c =>
      simp only [hc] at h ⊢
      by_cases hline : c = newline
      · rw [if_pos hline] at h ⊢
        exact h
      · rw [if_neg hline] at h ⊢
        cases hd : describe s.fgets.rooms s.fgets.buf with
        | error stop =>
          simp only [hd] at h ⊢
          exact h
        | ok rooms =>
          simp only [hd] at h ⊢
          exact ih (by omega) h

theorem connectLoop_mono {fuel' : Nat} (hle : fuel ≤ fuel') {r : Except Stop (List Room)}
    (h : connectLoop fuel s = some r) : connectLoop fuel' s = some r := by
  induction fuel generalizing s fuel' with
  | zero => cases h
  | succ fuel ih =>
    obtain ⟨fuel', rfl⟩ : ∃ n, fuel' = n + 1 := ⟨fuel' - 1, by omega⟩
    rw [connectLoop] at h ⊢
    cases hc : s.fgets.buf.head? with
    | none =>
      simp only [hc] at h ⊢
      exact h
    | some c =>
      simp only [hc] at h ⊢
      by_cases hline : c = newline ∨ s.fgets.file.eof = true
      · rw [if_pos hline] at h ⊢
        exact h
      · rw [if_neg hline] at h ⊢
        cases hd : connect s.fgets.rooms s.fgets.buf with
        | error stop =>
          simp only [hd] at h ⊢
          exact h
        | ok rooms =>
          simp only [hd] at h ⊢
          exact ih (by omega) h

theorem loadLevel_mono {fuel' : Nat} (hle : fuel ≤ fuel') {r : Except Stop (List Room)}
    (h : loadLevel fuel (some content) = some r) : loadLevel fuel' (some content) = some r := by
  simp only [loadLevel] at h ⊢
  cases hheader : header content with
  | error stop =>
    simp only [hheader] at h ⊢
    exact h
  | ok s =>
    simp only [hheader] at h ⊢
    cases hloop : describeLoop fuel s with
    | none =>
      simp only [hloop] at h
      cases h
    | some t =>
      simp only [hloop, describeLoop_mono hle hloop] at h ⊢
      cases t with
      | error stop => exact h
      | ok s' => exact connectLoop_mono hle h

/-- The result does not depend on the rounds. -/
theorem loadLevel_unique {fuel' : Nat} {r r' : Except Stop (List Room)}
    (h : loadLevel fuel (some content) = some r) (h' : loadLevel fuel' (some content) = some r') :
    r = r' := by
  have h₁ := loadLevel_mono (Nat.le_max_left fuel fuel') h
  have h₂ := loadLevel_mono (Nat.le_max_right fuel fuel') h'
  exact Option.some.inj (h₁.symm.trans h₂)

/-! ## The whole run -/

theorem skipCharacters_eof {skipList : List UInt8} (rest : List UInt8)
    (hne : (skipCharacters skipList rest).rest ≠ []) :
    (skipCharacters skipList rest).eof = false := by
  induction rest with
  | nil => exact absurd rfl hne
  | cons c rest ih =>
    rw [skipCharacters] at hne ⊢
    split at hne
    · next hc =>
      rw [if_pos hc]
      exact ih hne
    · next hc =>
      rw [if_neg hc]
      split <;> rfl

theorem skipCharacters_length (skipList rest : List UInt8) :
    (skipCharacters skipList rest).rest.length ≤ rest.length := by
  induction rest with
  | nil => exact Nat.le_refl 0
  | cons c rest ih =>
    rw [skipCharacters]
    split
    · exact Nat.le_succ_of_le ih
    · split
      · exact Nat.le_succ _
      · exact Nat.le_refl _

theorem fgets_length (s : State) : s.fgets.file.rest.length ≤ s.file.rest.length := by
  have happend := readLine_append 255 s.file.rest
  rw [← happend, List.length_append]
  show (readLine 255 s.file.rest).2.1.length ≤ _
  omega

/-- What the header leaves: where the stream is, and a line in the buffer that is not empty. -/
theorem header_ok (h : header content = .ok s) :
    (s.file.rest ≠ [] → s.file.eof = false) ∧ s.file.rest.length ≤ content.length ∧
      s.buf ≠ [] ∧ s.buf.head? ≠ some newline := by
  obtain ⟨first, hfirst⟩ : ∃ f, f = State.fgets ⟨skipCharacters whitespace content, [], []⟩ :=
    ⟨_, rfl⟩
  rw [header, ← hfirst] at h
  obtain ⟨line, hline, h⟩ := Except.bind_eq_ok.1 h
  obtain ⟨numRooms, hnum, h⟩ := Except.bind_eq_ok.1 h
  have hpos : ¬ numRooms ≤ 0 := by
    intro hle
    rw [if_pos hle] at h
    cases h
  rw [if_neg hpos] at h
  obtain rfl := Except.ok.inj h
  refine ⟨skipCharacters_eof _, ?_, ?_, ?_⟩
  · have h₁ := skipCharacters_length whitespace content
    have h₂ := fgets_length ⟨skipCharacters whitespace content, [], []⟩
    have h₃ := skipCharacters_length whitespace first.file.rest
    have h₄ := skipCharacters_length whitespace (skipCharacters whitespace first.file.rest).rest
    rw [← hfirst] at h₂
    exact Nat.le_trans h₄ (Nat.le_trans h₃ (Nat.le_trans h₂ h₁))
  · show first.buf ≠ []
    intro hnil
    rw [hnil] at hline
    cases hline
  · show first.buf.head? ≠ some newline
    intro hnewline
    by_cases hrest : (skipCharacters whitespace content).rest = []
    · rw [hfirst, fgets_eof hrest] at hnewline
      cases hnewline
    · -- the line would be empty, and its number 0
      obtain ⟨l, ls, hls⟩ := List.exists_cons_of_ne_nil
        (fun hnil : lines 255 255 (skipCharacters whitespace content).rest = [] =>
          hrest (lines_eq_nil.1 hnil))
      have hbuf : first.buf = overlay [] l := by
        rw [hfirst, fgets_line (skipCharacters_eof _ hrest) hls]
      rw [hbuf, head?_overlay (lines_ne_nil (by decide) hls)] at hnewline
      rw [hbuf, lines_newline (by decide) hls hnewline] at hline
      obtain rfl : [newline] = line := Except.ok.inj hline
      obtain rfl : 0 = numRooms := Except.ok.inj hnum
      exact hpos (Int.le_refl 0)

/-- What `load_level` does with a file that has an empty line after the descriptions. -/
theorem loadLevel_lines (hheader : header content = .ok s)
    (h : lines 255 255 s.file.rest = ds ++ e :: tail) (hds : ∀ d ∈ ds, d.head? ≠ some newline)
    (he : e.head? = some newline) (hfuel : content.length < fuel) :
    loadLevel fuel (some content) = some (do
      let t ← ds.foldlM describeLine (s.rooms, s.buf)
      let t ← (connectionLines tail.flatten).foldlM connectLine (t.1, overlay t.2 e)
      return t.1) := by
  obtain ⟨heof, hlength, -, -⟩ := header_ok hheader
  have hcount := lines_length_le 255 255 s.file.rest
  have hflatten := lines_flatten 255 255 s.file.rest
  rw [h] at hcount hflatten
  rw [List.length_append, List.length_cons] at hcount
  have hne : s.file.rest ≠ [] := by
    intro hnil
    rw [hnil] at h
    simp [lines] at h
  simp only [loadLevel, hheader]
  -- every line has a byte at least, so that the rounds are enough for both loops
  rw [describeLoop_lines (heof hne) h hds he (by omega)]
  cases hfold : ds.foldlM describeLine (s.rooms, s.buf) with
  | error stop => rfl
  | ok t =>
    have htail := lines_length_le 255 255 (skipCharacters whitespace tail.flatten).rest
    have hskip := skipCharacters_length whitespace tail.flatten
    have hrest : tail.flatten.length ≤ s.file.rest.length := by
      rw [← hflatten, List.flatten_append, List.flatten_cons, List.length_append,
        List.length_append]
      omega
    exact connectLoop_lines (s := ⟨skipCharacters whitespace tail.flatten, overlay t.2 e, t.1⟩)
      (skipCharacters_eof _) (by simp [overlay]) rfl (by omega)

/-- The first empty line, if there is one. -/
theorem exists_empty_line (ls : List (List UInt8)) :
    (∀ l ∈ ls, l.head? ≠ some newline) ∨ ∃ ds e tail, ls = ds ++ e :: tail ∧
      (∀ d ∈ ds, d.head? ≠ some newline) ∧ e.head? = some newline := by
  induction ls with
  | nil => exact .inl nofun
  | cons l ls ih =>
    by_cases hl : l.head? = some newline
    · exact .inr ⟨[], l, ls, rfl, nofun, hl⟩
    · cases ih with
      | inl hnone => exact .inl (List.forall_mem_cons.2 ⟨hl, hnone⟩)
      | inr hsome =>
        obtain ⟨ds, e, tail, rfl, hds, he⟩ := hsome
        exact .inr ⟨l :: ds, e, tail, rfl, List.forall_mem_cons.2 ⟨hl, hds⟩, he⟩

/-- `load_level` returns or fails an assertion, with enough rounds, exactly for the contents that it
    can load. -/
theorem load_ends_iff (content : List UInt8) :
    (∃ fuel r, loadLevel fuel (some content) = some r ∧ r ≠ .error .undefined) ↔
      CanLoad content := by
  constructor
  · intro hends
    obtain ⟨fuel, r, hload, hdefined⟩ := hends
    cases hheader : header content with
    | error stop =>
      simp only [loadLevel, hheader, header_error hheader] at hload
      exact absurd (Option.some.inj hload).symm hdefined
    | ok s =>
      obtain ⟨heof, -, -, hbuf⟩ := header_ok hheader
      obtain hnone | ⟨ds, e, tail, hls, hds, he⟩ := exists_empty_line (lines 255 255 s.file.rest)
      · -- the first loop does not end
        simp only [loadLevel, hheader] at hload
        have hstuck : describeLoop fuel s = none ∨ describeLoop fuel s = some (throw .undefined) :=
          describeLoop_stuck heof hnone hbuf
        cases hstuck with
        | inl hendless =>
          rw [hendless] at hload
          cases hload
        | inr hundefined =>
          rw [hundefined] at hload
          exact absurd (Option.some.inj hload).symm hdefined
      · -- an empty line: the result is known for enough rounds, and more do not change it
        have hmore := loadLevel_mono (Nat.le_max_left fuel (content.length + 1)) hload
        rw [loadLevel_lines hheader hls hds he (by omega)] at hmore
        rw [← Option.some.inj hmore] at hdefined
        cases hfold : ds.foldlM describeLine (s.rooms, s.buf) with
        | error stop =>
          rw [hfold, describeLines_error hfold] at hdefined
          exact absurd rfl hdefined
        | ok t =>
          refine ⟨s, hheader, ds, e, tail, t, hls, hds, he, hfold, ?_⟩
          intro hundefined
          rw [hfold] at hdefined
          apply hdefined
          show ((connectionLines tail.flatten).foldlM connectLine (t.1, overlay t.2 e) >>= _) = _
          rw [hundefined]
          rfl
  · intro hcan
    obtain ⟨s, hheader, ds, e, tail, t, hls, hds, he, hfold, hconnect⟩ := hcan
    refine ⟨content.length + 1, _, loadLevel_lines hheader hls hds he (Nat.lt_succ_self _), ?_⟩
    rw [hfold]
    intro hundefined
    replace hundefined : ((connectionLines tail.flatten).foldlM connectLine (t.1, overlay t.2 e) >>=
        fun t => return t.1) = Except.error Stop.undefined := hundefined
    cases bind_error hundefined with
    | inl herror => exact hconnect herror
    | inr hreturn =>
      obtain ⟨t', -, hreturn⟩ := hreturn
      cases hreturn

theorem canLoad_of_ok (h : loadLevel fuel (some content) = some (.ok rooms)) : CanLoad content := by
  apply (load_ends_iff content).1
  refine ⟨fuel, _, h, ?_⟩
  intro hundefined
  cases hundefined

end Level
