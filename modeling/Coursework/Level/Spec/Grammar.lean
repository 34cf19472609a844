import Coursework.Level.Loader

/-!
# Level files

The files that the loader is for: the number of rooms, an empty line, the descriptions, an empty
line, and the connections. The values of these types are well formed, so that there are no others
to think of.

## Key results

- `Description.plain`, `Connection.plain`: the lines of a file are read as they were written
- `lines_plain`, `lines_piece`: the lines of a text of such lines, and of a piece of it
-/

namespace Level

open CStd

/-- A number as it is written. -/
structure Numeral where
  digits : List UInt8
  ne : digits ≠ []
  isDigits : ∀ c ∈ digits, isdigit c = true

def Numeral.value (x : Numeral) : Nat := number x.digits

/-- A description, `<id> <text>`. -/
structure Description where
  id : Numeral
  gap : List UInt8
  text : List UInt8
  gap_ne : gap ≠ []
  blanks : ∀ c ∈ gap, c = 32 ∨ c = 9
  text_ne : text ≠ []
  start : ∀ c ∈ text.head?, isspace c = false
  bytes : ∀ c ∈ text, c ≠ newline ∧ c ≠ 0
  short : (id.digits ++ gap ++ text).length < 255

def Description.line (d : Description) : List UInt8 := d.id.digits ++ d.gap ++ d.text

/-- The line of a connection, `<can-go|cant-go> <direction> <a> <b>`. -/
def connectionLine (locked : Bool) (dir : Direction) (a b : Numeral) : List UInt8 :=
  (if locked then cantGo else canGo) ++ 32 :: directionName dir ++ 32 :: a.digits ++ 32 :: b.digits

structure Connection where
  locked : Bool
  dir : Direction
  a : Numeral
  b : Numeral
  short : (connectionLine locked dir a b).length < 255

def Connection.line (c : Connection) : List UInt8 := connectionLine c.locked c.dir c.a c.b

/-- What comes after the last line. -/
inductive Ending where
  /-- Nothing, not even a newline. -/
  | bare
  | newline
  /-- A newline and an empty line. -/
  | emptyLine
  deriving DecidableEq

structure LevelFile where
  count : Numeral
  descriptions : List Description
  connections : List Connection
  ending : Ending
  short : count.digits.length < 255
  int : count.value < 2 ^ 31
  ids : ∀ d ∈ descriptions, d.id.value < count.value
  ends : ∀ c ∈ connections, c.a.value < count.value ∧ c.b.value < count.value

/-- Lines, each with its newline. -/
def join (ls : List (List UInt8)) : List UInt8 := ls.flatMap (· ++ [newline])

/-- The file up to the connections. -/
def LevelFile.head (file : LevelFile) : List UInt8 :=
  join ([file.count.digits, []] ++ file.descriptions.map Description.line ++ [[]])

def LevelFile.bytes (file : LevelFile) : List UInt8 :=
  match file.ending with
  | .bare => (file.head ++ join (file.connections.map Connection.line)).dropLast
  | .newline => file.head ++ join (file.connections.map Connection.line)
  | .emptyLine => file.head ++ join (file.connections.map Connection.line ++ [[]])

/-! ## Lines -/

/-- A line that `fgets` reads in one piece, and that is not skipped. -/
structure Plain (l : List UInt8) : Prop where
  newline_notMem : newline ∉ l
  zero_notMem : 0 ∉ l
  short : l.length < 255
  start : ∃ c, l.head? = some c ∧ c ∉ whitespace ∧ c ≠ 255

variable {l p rest : List UInt8} {ls : List (List UInt8)} {c : UInt8}

theorem Plain.ne_nil (h : Plain l) : l ≠ [] := by
  obtain ⟨c, hc, -⟩ := h.start
  intro hnil
  rw [hnil] at hc
  cases hc

/-- What `all` computes. -/
theorem forall_of_all {q : UInt8 → Prop} [DecidablePred q] (h : l.all (fun c => q c) = true) :
    ∀ c ∈ l, q c := by
  intro c hc
  exact of_decide_eq_true (List.all_eq_true.1 h c hc)

/-- A character of another class than these bytes is none of them. -/
theorem ne_of_class {p : UInt8 → Bool} {d : UInt8} (hc : p c = true) (hd : p d = false) :
    c ≠ d := by
  intro heq
  rw [heq, hd] at hc
  cases hc

theorem Numeral.newline_notMem (x : Numeral) : newline ∉ x.digits :=
  fun hmem => ne_of_class (x.isDigits _ hmem) (by decide : isdigit newline = false) rfl

theorem Numeral.zero_notMem (x : Numeral) : 0 ∉ x.digits :=
  fun hmem => ne_of_class (x.isDigits _ hmem) (by decide : isdigit 0 = false) rfl

theorem Numeral.not_whitespace (x : Numeral) : ∀ c ∈ x.digits, c ∉ whitespace := by
  intro c hc hmem
  have hdigit := x.isDigits c hc
  simp only [whitespace, ascii, List.map_cons, List.map_nil, List.mem_cons, List.not_mem_nil,
    or_false] at hmem
  obtain rfl | rfl | rfl := hmem
  · exact absurd hdigit (by decide)
  · exact absurd hdigit (by decide)
  · exact absurd hdigit (by decide)

theorem Numeral.head (x : Numeral) :
    ∃ c, x.digits.head? = some c ∧ isdigit c = true ∧ c ∉ whitespace ∧ c ≠ 255 := by
  obtain ⟨c, cs, hcons⟩ := List.exists_cons_of_ne_nil x.ne
  have hmem : c ∈ x.digits := by simp [hcons]
  refine ⟨c, by rw [hcons]; rfl, x.isDigits c hmem, x.not_whitespace c hmem, ?_⟩
  exact ne_of_class (x.isDigits c hmem) (by decide)

/-- What is between the id and the text is white space. -/
theorem Description.gap_class (d : Description) :
    ∀ c ∈ d.gap, isspace c = true ∧ isdigit c = false := by
  intro c hc
  cases d.blanks c hc with
  | inl hspace => rw [hspace]; decide
  | inr htab => rw [htab]; decide

theorem Description.plain (d : Description) : Plain d.line := by
  have hgap : ∀ c ∈ d.gap, c ≠ newline ∧ c ≠ 0 := by
    intro c hc
    cases d.blanks c hc with
    | inl hspace => rw [hspace]; decide
    | inr htab => rw [htab]; decide
  refine ⟨?_, ?_, d.short, ?_⟩
  · intro hmem
    rw [Description.line, List.mem_append, List.mem_append] at hmem
    obtain (hid | hg) | htext := hmem
    · exact d.id.newline_notMem hid
    · exact (hgap _ hg).1 rfl
    · exact (d.bytes _ htext).1 rfl
  · intro hmem
    rw [Description.line, List.mem_append, List.mem_append] at hmem
    obtain (hid | hg) | htext := hmem
    · exact d.id.zero_notMem hid
    · exact (hgap _ hg).2 rfl
    · exact (d.bytes _ htext).2 rfl
  · obtain ⟨c, hc, -, hstart⟩ := d.id.head
    refine ⟨c, ?_, hstart⟩
    rw [Description.line, List.append_assoc, List.head?_append, hc]
    rfl

theorem directionName_bytes (d : Direction) :
    newline ∉ directionName d ∧ 0 ∉ directionName d := by
  cases d <;> decide

theorem Connection.plain (c : Connection) : Plain c.line := by
  have hkind : ∀ locked : Bool, newline ∉ (if locked then cantGo else canGo) ∧
      0 ∉ (if locked then cantGo else canGo) := by decide
  have hname := directionName_bytes c.dir
  refine ⟨?_, ?_, c.short, ?_⟩
  · intro hmem
    simp only [Connection.line, connectionLine, List.mem_append, List.mem_cons] at hmem
    obtain ((hk | hs | hd) | hs | ha) | hs | hb := hmem
    · exact (hkind c.locked).1 hk
    · exact absurd hs (by decide)
    · exact hname.1 hd
    · exact absurd hs (by decide)
    · exact c.a.newline_notMem ha
    · exact absurd hs (by decide)
    · exact c.b.newline_notMem hb
  · intro hmem
    simp only [Connection.line, connectionLine, List.mem_append, List.mem_cons] at hmem
    obtain ((hk | hs | hd) | hs | ha) | hs | hb := hmem
    · exact (hkind c.locked).2 hk
    · exact absurd hs (by decide)
    · exact hname.2 hd
    · exact absurd hs (by decide)
    · exact c.a.zero_notMem ha
    · exact absurd hs (by decide)
    · exact c.b.zero_notMem hb
  · refine ⟨'c'.toUInt8, ?_, by decide, by decide⟩
    have hhead : (if c.locked then cantGo else canGo).head? = some 'c'.toUInt8 := by
      cases c.locked <;> rfl
    simp only [Connection.line, connectionLine, List.append_assoc, List.head?_append, hhead]
    rfl

theorem join_cons (l : List UInt8) (ls : List (List UInt8)) :
    join (l :: ls) = l ++ newline :: join ls := by
  rw [join, List.flatMap_cons, List.append_assoc]
  rfl

theorem lines_plain (h : ∀ l ∈ ls, Plain l) (rest : List UInt8) :
    lines 255 255 (join ls ++ rest) = ls.map (· ++ [newline]) ++ lines 255 255 rest := by
  induction ls with
  | nil => rfl
  | cons l ls ih =>
    have hl := h l List.mem_cons_self
    rw [join_cons, List.append_assoc, List.cons_append, lines_append hl.newline_notMem hl.short,
      ih fun l' hl' => h l' (List.mem_cons_of_mem l hl')]
    rfl

/-- The lines of a piece of such a text: all but the last one are complete. -/
theorem lines_piece (h : ∀ l ∈ ls, Plain l) (hp : p <+: join ls) :
    ∃ m q, lines 255 255 p = (ls.take m).map (· ++ [newline]) ++ q ∧
      ∀ l ∈ q, ¬ Complete 255 l ∧ l.head? ≠ some newline := by
  induction ls generalizing p with
  | nil => exact ⟨0, [], by rw [List.prefix_nil.1 hp]; rfl, nofun⟩
  | cons l ls ih =>
    have hl := h l List.mem_cons_self
    obtain ⟨t, ht⟩ := hp
    rw [join_cons, List.append_eq_append_iff] at ht
    have hinside : p <+: l → ∃ m q, lines 255 255 p = ((l :: ls).take m).map (· ++ [newline]) ++ q ∧
        ∀ l ∈ q, ¬ Complete 255 l ∧ l.head? ≠ some newline := by
      intro hpre
      refine ⟨0, lines 255 255 p, rfl, ?_⟩
      cases p with
      | nil => exact nofun
      | cons c p =>
        have hnot : newline ∉ c :: p := fun hmem => hl.newline_notMem (hpre.subset hmem)
        have hshort := Nat.lt_of_le_of_lt hpre.length_le hl.short
        rw [lines_last hnot (List.cons_ne_nil c p) (Nat.le_of_lt hshort)]
        intro l' hl'
        rw [List.mem_singleton.1 hl']
        refine ⟨not_or.2 ⟨hnot, Nat.not_le.2 hshort⟩, ?_⟩
        intro hhead
        exact hnot (List.mem_of_head? hhead)
    cases ht with
    | inl hin =>
      -- the piece ends in this line
      obtain ⟨t', hl', -⟩ := hin
      exact hinside ⟨t', hl'.symm⟩
    | inr hout =>
      obtain ⟨p', hp', hrest⟩ := hout
      cases p' with
      | nil =>
        -- the piece ends before the newline of this line
        rw [List.append_nil] at hp'
        exact hinside (hp' ▸ List.prefix_rfl)
      | cons c p' =>
        -- the piece has this line in full
        obtain ⟨rfl, hjoin⟩ := List.cons.inj hrest
        obtain ⟨m, q, hlines, hq⟩ := ih (fun l' hl' => h l' (List.mem_cons_of_mem l hl'))
          (p := p') ⟨t, hjoin.symm⟩
        refine ⟨m + 1, q, ?_, hq⟩
        rw [hp', lines_append hl.newline_notMem hl.short, hlines]
        rfl

end Level
