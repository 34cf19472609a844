import Mathlib.Algebra.Group.Nat.Defs
import Mathlib.Algebra.Ring.Int.Defs
import Mathlib.Data.List.Basic
import Mathlib.Tactic.Common

/-!
# Text files and strings of C

What programs that read text with `fgets` rest on: the classes of characters, `atoi`, strings in
memory that end with a zero byte, `strtok`, and streams. A stream is what has not been read of it,
with its end-of-file flag. `fgets` cuts it into lines, of which the last one may be incomplete and
long ones come in pieces.

## Key results

- `fgets_lines`: what `fgets` reads and leaves, line by line
- `lines_append`: the lines of a text that starts with a line
- `tokens_append`: the tokens of a text that starts with a token
-/

namespace CStd

def newline : UInt8 := 10

/-! ## Characters and numbers -/

/-- `isdigit` -/
def isdigit (c : UInt8) : Bool := 48 ≤ c && c ≤ 57

/-- `isspace` -/
def isspace (c : UInt8) : Bool := c == 32 || (9 ≤ c && c ≤ 13)

/-- The number that decimal digits stand for. -/
def number (digits : List UInt8) : Nat := digits.foldl (fun n c => 10 * n + (c.toNat - 48)) 0

/-- `atoi`, for numbers that an `int` of 32 bits has. -/
def atoi (s : List UInt8) : Option Int :=
  let (sign, s) := match s.dropWhile isspace with
    | 45 :: s => ((-1 : Int), s)
    | 43 :: s => (1, s)
    | s => (1, s)
  let value := sign * number (s.takeWhile isdigit)
  if -2 ^ 31 ≤ value ∧ value < 2 ^ 31 then some value else none

variable {l digits rest bytes : List UInt8} {c : UInt8}

theorem isdigit_bounds (h : isdigit c = true) : 48 ≤ c.toNat ∧ c.toNat ≤ 57 := by
  simp only [isdigit, Bool.and_eq_true, decide_eq_true_eq] at h
  exact h

theorem isspace_of_isdigit (h : isdigit c = true) : isspace c = false := by
  have hbounds := isdigit_bounds h
  have h32 : c ≠ 32 := by
    intro heq
    rw [heq] at hbounds
    exact absurd hbounds (by decide)
  have h13 : ¬ c ≤ 13 := by
    intro hle
    have : c.toNat ≤ 13 := hle
    omega
  simp [isspace, h32, h13]

theorem takeWhile_append_stop {α : Type} {p : α → Bool} {l r : List α} (hl : ∀ c ∈ l, p c = true)
    (hr : ∀ c ∈ r.head?, p c = false) : (l ++ r).takeWhile p = l := by
  rw [List.takeWhile_append_of_pos hl]
  cases r with
  | nil => simp
  | cons c r => simp [hr c rfl]

theorem dropWhile_append_stop {α : Type} {p : α → Bool} {l r : List α} (hl : ∀ c ∈ l, p c = true)
    (hr : ∀ c ∈ r.head?, p c = false) : (l ++ r).dropWhile p = r := by
  rw [List.dropWhile_append_of_pos hl]
  cases r with
  | nil => rfl
  | cons c r => simp [hr c rfl]

/-- `atoi` of digits up to something else. -/
theorem atoi_digits (hne : digits ≠ []) (hdigits : ∀ c ∈ digits, isdigit c = true)
    (hrest : ∀ c ∈ rest.head?, isdigit c = false) (hlt : number digits < 2 ^ 31) :
    atoi (digits ++ rest) = some (number digits : Int) := by
  obtain ⟨c, ds, rfl⟩ := List.exists_cons_of_ne_nil hne
  have hc := hdigits c List.mem_cons_self
  have hbounds := isdigit_bounds hc
  -- a digit is no white space and no sign
  have hdrop : (c :: ds ++ rest).dropWhile isspace = c :: ds ++ rest := by
    simp [isspace_of_isdigit hc]
  have h45 : c ≠ 45 := by
    intro heq
    rw [heq] at hbounds
    exact absurd hbounds (by decide)
  have h43 : c ≠ 43 := by
    intro heq
    rw [heq] at hbounds
    exact absurd hbounds (by decide)
  have htake := takeWhile_append_stop hdigits hrest
  simp only [atoi, hdrop]
  split
  · next heq => exact absurd (List.cons.inj heq).1 h45
  · next heq => exact absurd (List.cons.inj heq).1 h43
  · rw [htake, Int.one_mul, if_pos (by omega)]

/-! ## Strings -/

/-- The string at the start of the memory, which goes up to a zero byte. -/
def cstring (bytes : List UInt8) : Option (List UInt8) :=
  if 0 ∈ bytes then some (bytes.takeWhile (· ≠ 0)) else none

theorem cstring_append (hl : 0 ∉ l) (rest : List UInt8) : cstring (l ++ 0 :: rest) = some l := by
  have hne : ∀ c ∈ l, decide (c ≠ 0) = true := by
    intro c hc
    exact decide_eq_true fun heq => hl (heq ▸ hc)
  rw [cstring, if_pos (by simp)]
  rw [takeWhile_append_stop hne (by simp)]

/-- The string of a line, with its newline. -/
theorem cstring_line (hl : 0 ∉ l) (rest : List UInt8) :
    cstring (l ++ [newline] ++ 0 :: rest) = some (l ++ [newline]) := by
  apply cstring_append
  intro hmem
  rw [List.mem_append, List.mem_singleton] at hmem
  exact hmem.elim hl (by decide)

/-- The tokens that `strtok` gives until it returns NULL. -/
def tokens (delims s : List UInt8) : List (List UInt8) :=
  (s.splitOnP (delims.contains ·)).filter (· ≠ [])

theorem tokens_append {delims w : List UInt8} (hw : ∀ c ∈ w, c ∉ delims) (hne : w ≠ [])
    (hc : c ∈ delims) (rest : List UInt8) :
    tokens delims (w ++ c :: rest) = w :: tokens delims rest := by
  rw [tokens, List.splitOnP_append_cons_of_forall_mem (by simpa using hw) _ (by simpa using hc)]
  simp [hne, tokens]

theorem tokens_nil (delims : List UInt8) : tokens delims [] = [] := by
  simp [tokens]

/-! ## Streams -/

structure File where
  rest : List UInt8
  /-- `feof` -/
  eof : Bool
  deriving DecidableEq

/-- Up to `n` bytes, as far as a newline: the bytes, what is left, and if the end of the file has
    been met. -/
def readLine : Nat → List UInt8 → List UInt8 × List UInt8 × Bool
  | 0, rest => ([], rest, false)
  | _ + 1, [] => ([], [], true)
  | n + 1, c :: rest =>
    if c = newline then ([c], rest, false)
    else
      let (line, rest, eof) := readLine n rest
      (c :: line, rest, eof)

/-- `buf` after a line has been read into it, with a zero byte. -/
def overlay (buf line : List UInt8) : List UInt8 := line ++ 0 :: buf.drop (line.length + 1)

/-- `fgets(buf, n + 1, f)`, where `buf` is the part of the buffer that has been written. When there
    are no bytes the buffer stays as it is. -/
def fgets (n : Nat) (f : File) (buf : List UInt8) : File × List UInt8 :=
  let (line, rest, eof) := readLine n f.rest
  (⟨rest, f.eof || eof⟩, if line = [] then buf else overlay buf line)

/-- The lines that `fgets` cuts a text into, where there is place for `room` bytes in the first one
    and `n` in the others. -/
def lines (n : Nat) : Nat → List UInt8 → List (List UInt8)
  | _, [] => []
  | room, c :: rest =>
    if c = newline ∨ room ≤ 1 then [c] :: lines n n rest
    else
      match lines n (room - 1) rest with
      | [] => [[c]]
      | line :: ls => (c :: line) :: ls

/-- `fgets` does not look beyond this line. -/
def Complete (n : Nat) (line : List UInt8) : Prop :=
  newline ∈ line ∨ n ≤ line.length

instance (n : Nat) (line : List UInt8) : Decidable (Complete n line) :=
  inferInstanceAs (Decidable (_ ∨ _))

/-! ## Lines -/

variable {n room : Nat} {f : File} {buf : List UInt8} {ls : List (List UInt8)}

theorem lines_eq (hroom : 0 < room) (hne : rest ≠ []) :
    lines n room rest = (readLine room rest).1 :: lines n n (readLine room rest).2.1 := by
  induction rest generalizing room with
  | nil => exact absurd rfl hne
  | cons c rest ih =>
    obtain ⟨room, rfl⟩ : ∃ r, room = r + 1 := ⟨room - 1, by omega⟩
    rw [lines, readLine]
    by_cases hc : c = newline
    · rw [if_pos (.inl hc), if_pos hc]
    · rw [Nat.add_sub_cancel, if_neg hc]
      by_cases hlast : room = 0
      · -- the last byte that there is place for
        subst hlast
        rw [if_pos (.inr (Nat.le_refl _))]
        rfl
      · have hmore : ¬ (c = newline ∨ room + 1 ≤ 1) := not_or.2 ⟨hc, by omega⟩
        rw [if_neg hmore]
        cases rest with
        | nil =>
          obtain ⟨room, rfl⟩ : ∃ r, room = r + 1 := ⟨room - 1, by omega⟩
          rfl
        | cons d rest => rw [ih (by omega) (by simp)]

theorem readLine_append (n : Nat) (rest : List UInt8) :
    (readLine n rest).1 ++ (readLine n rest).2.1 = rest := by
  induction rest generalizing n with
  | nil => cases n <;> rfl
  | cons c rest ih =>
    cases n with
    | zero => rfl
    | succ n =>
      rw [readLine]
      split
      · rfl
      · show c :: ((readLine n rest).1 ++ (readLine n rest).2.1) = c :: rest
        rw [ih]

/-- The end of the file is met in a line that is not complete. -/
theorem readLine_eof (n : Nat) (rest : List UInt8) :
    (readLine n rest).2.2 = true ↔ ¬ Complete n (readLine n rest).1 := by
  induction rest generalizing n with
  | nil => cases n <;> simp [readLine, Complete]
  | cons c rest ih =>
    cases n with
    | zero => simp [readLine, Complete]
    | succ n =>
      rw [readLine]
      split
      · -- the newline ends the line before the end of the file is met
        next hc => simp [Complete, hc]
      · next hc =>
        show (readLine n rest).2.2 = true ↔ ¬ (newline ∈ c :: (readLine n rest).1 ∨
          n + 1 ≤ (readLine n rest).1.length + 1)
        rw [ih, Complete, List.mem_cons, or_iff_right (Ne.symm hc), Nat.succ_le_succ_iff]

theorem readLine_ne_nil (hn : 0 < n) (hne : rest ≠ []) : (readLine n rest).1 ≠ [] := by
  obtain ⟨c, rest, rfl⟩ := List.exists_cons_of_ne_nil hne
  obtain ⟨n, rfl⟩ : ∃ m, n = m + 1 := ⟨n - 1, by omega⟩
  rw [readLine]
  split
  · exact List.cons_ne_nil _ _
  · exact List.cons_ne_nil _ _

theorem readLine_rest (h : (readLine n rest).2.2 = true) : (readLine n rest).2.1 = [] := by
  induction rest generalizing n with
  | nil => cases n <;> rfl
  | cons c rest ih =>
    cases n with
    | zero => cases h
    | succ n =>
      rw [readLine] at h ⊢
      split
      · next hc =>
        rw [if_pos hc] at h
        cases h
      · next hc =>
        rw [if_neg hc] at h
        exact ih h

/-- Nothing is lost between the lines. -/
theorem lines_flatten (n room : Nat) (rest : List UInt8) : (lines n room rest).flatten = rest := by
  induction rest generalizing room with
  | nil => rfl
  | cons c rest ih =>
    rw [lines]
    split
    · rw [List.flatten_cons, ih]
      rfl
    · split
      · next heq =>
        -- the last byte of the text
        have hnil := ih (room - 1)
        rw [heq] at hnil
        rw [← hnil]
        rfl
      · next line ls heq =>
        have hrest := ih (room - 1)
        rw [heq, List.flatten_cons] at hrest
        rw [List.flatten_cons, List.cons_append, hrest]

theorem lines_eq_nil : lines n room rest = [] ↔ rest = [] := by
  constructor
  · intro h
    rw [← lines_flatten n room rest, h]
    rfl
  · intro h
    rw [h]
    rfl

theorem lines_length_le (n room : Nat) (rest : List UInt8) :
    (lines n room rest).length ≤ rest.length := by
  induction rest generalizing room with
  | nil => exact Nat.le_refl 0
  | cons c rest ih =>
    rw [lines]
    split
    · exact Nat.succ_le_succ (ih n)
    · have hrest := ih (room - 1)
      split
      · exact Nat.succ_le_succ (Nat.zero_le _)
      · next heq =>
        rw [heq, List.length_cons] at hrest
        rw [List.length_cons, List.length_cons]
        omega

/-- What `fgets` leaves has the other lines. -/
theorem lines_tail (hn : 0 < n) (h : lines n n rest = l :: ls) :
    (readLine n rest).1 = l ∧ (readLine n rest).2.1 = ls.flatten ∧ lines n n ls.flatten = ls := by
  have hne : rest ≠ [] := by
    intro hnil
    rw [hnil] at h
    cases h
  -- what is left is the text of the other lines, and these are its lines
  obtain ⟨hl, hls⟩ := List.cons.inj ((lines_eq hn hne).symm.trans h)
  have hrest : (readLine n rest).2.1 = ls.flatten := by rw [← hls, lines_flatten]
  exact ⟨hl, hrest, by rw [← hrest, hls]⟩

theorem lines_ne_nil (hn : 0 < n) (h : lines n n rest = l :: ls) : l ≠ [] := by
  rw [← (lines_tail hn h).1]
  apply readLine_ne_nil hn
  intro hnil
  rw [hnil] at h
  cases h

/-- `fgets` reads the first line and leaves the others. -/
theorem fgets_lines (hn : 0 < n) (heof : f.eof = false) (h : lines n n f.rest = l :: ls) :
    fgets n f buf = (⟨ls.flatten, decide (¬ Complete n l)⟩, overlay buf l) := by
  obtain ⟨hl, hrest, -⟩ := lines_tail hn h
  have hflag : (readLine n f.rest).2.2 = decide (¬ Complete n l) := by
    rw [← hl, Bool.eq_iff_iff, readLine_eof, decide_eq_true_eq]
  simp only [fgets, heof, Bool.false_or, hrest, hflag]
  rw [hl, if_neg (lines_ne_nil hn h)]

/-- Only the last line is not complete. -/
theorem lines_complete (hn : 0 < n) (h : lines n n rest = l :: ls) (hls : ls ≠ []) :
    Complete n l := by
  obtain ⟨hl, hrest, htail⟩ := lines_tail hn h
  -- `fgets` would have met the end of the file, and there would be no line behind
  by_contra hopen
  rw [← hl, ← readLine_eof] at hopen
  rw [readLine_rest hopen] at hrest
  rw [← hrest] at htail
  exact hls htail.symm

/-- A line that starts with a newline is empty. -/
theorem lines_newline (hn : 0 < n) (h : lines n n rest = l :: ls) (hl : l.head? = some newline) :
    l = [newline] := by
  cases rest with
  | nil => cases h
  | cons c rest =>
    obtain ⟨n, rfl⟩ : ∃ m, n = m + 1 := ⟨n - 1, by omega⟩
    have hline := (List.cons.inj ((lines_eq hn (List.cons_ne_nil c rest)).symm.trans h)).1
    rw [readLine] at hline
    by_cases hc : c = newline
    · rw [if_pos hc, hc] at hline
      -- the newline ends the line
      exact hline.symm
    · rw [if_neg hc] at hline
      rw [← hline] at hl
      exact absurd (Option.some.inj hl) hc

/-- At the end of the file the buffer stays as it is. -/
theorem fgets_end (hn : 0 < n) (h : f.rest = []) : fgets n f buf = (⟨[], true⟩, buf) := by
  obtain ⟨n, rfl⟩ : ∃ m, n = m + 1 := ⟨n - 1, by omega⟩
  simp [fgets, h, readLine]

/-- The first line goes up to the newline. -/
theorem lines_append (hl : newline ∉ l) (hlen : l.length < room) (rest : List UInt8) :
    lines n room (l ++ newline :: rest) = (l ++ [newline]) :: lines n n rest := by
  induction l generalizing room with
  | nil => exact if_pos (.inl rfl)
  | cons c l ih =>
    rw [List.mem_cons, not_or] at hl
    rw [List.length_cons] at hlen
    have hmore : ¬ (c = newline ∨ room ≤ 1) := not_or.2 ⟨Ne.symm hl.1, by omega⟩
    rw [List.cons_append, lines, if_neg hmore, ih hl.2 (by omega)]
    rfl

/-- A text without newline that fits is one line. -/
theorem lines_last (hl : newline ∉ l) (hne : l ≠ []) (hlen : l.length ≤ room) :
    lines n room l = [l] := by
  induction l generalizing room with
  | nil => exact absurd rfl hne
  | cons c l ih =>
    rw [List.mem_cons, not_or] at hl
    rw [List.length_cons] at hlen
    cases l with
    | nil =>
      rw [lines]
      split <;> rfl
    | cons d l =>
      rw [List.length_cons] at hlen
      have hmore : ¬ (c = newline ∨ room ≤ 1) := not_or.2 ⟨Ne.symm hl.1, by omega⟩
      rw [lines, if_neg hmore, ih hl.2 (List.cons_ne_nil _ _) (by rw [List.length_cons]; omega)]

end CStd
