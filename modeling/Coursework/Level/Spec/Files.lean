import Coursework.Level.Spec.Grammar
import Coursework.Level.Spec.Reading

/-!
# Loading level files

What the loader does with the parts of a level file: the header, the line of a description, and the
line of a connection.

## Key results

- `header_file`, `describe_line`, `connect_line`: the parts
- `describeLines_file`, `connectLines_file`: the two loops
- `loadLevel_ends_iff`: when the loader ends, for every content and for every piece of a level file
-/

namespace Level

open CStd

variable {rooms : List Room} {buf content l rest text : List UInt8} {file : LevelFile} {s : State}

/-! ## The header -/

theorem skipCharacters_append {skipList ws : List UInt8} (hws : ∀ c ∈ ws, c ∈ skipList)
    (rest : List UInt8) : skipCharacters skipList (ws ++ rest) = skipCharacters skipList rest := by
  induction ws with
  | nil => rfl
  | cons c ws ih =>
    rw [List.cons_append, skipCharacters, if_pos (hws c List.mem_cons_self),
      ih fun d hd => hws d (List.mem_cons_of_mem c hd)]

/-- Nothing is skipped. -/
def Starts (rest : List UInt8) : Prop := ∀ c ∈ rest.head?, c ∉ whitespace ∧ c ≠ 255

theorem skipCharacters_starts (h : Starts rest) :
    skipCharacters whitespace rest = ⟨rest, decide (rest = [])⟩ := by
  cases rest with
  | nil => rfl
  | cons c rest =>
    obtain ⟨hwhite, h255⟩ := h c rfl
    rw [skipCharacters, if_neg hwhite, if_neg h255]
    rfl

theorem Numeral.starts (x : Numeral) (rest : List UInt8) : Starts (x.digits ++ rest) := by
  obtain ⟨c, hc, -, hstart⟩ := x.head
  intro d hd
  rw [List.head?_append, hc] at hd
  cases hd
  exact hstart

theorem Plain.starts (h : Plain l) (rest : List UInt8) : Starts (l ++ rest) := by
  obtain ⟨c, hc, hstart⟩ := h.start
  intro d hd
  rw [List.head?_append, hc] at hd
  cases hd
  exact hstart

/-- The header of a file: the count, and white space. -/
theorem header_file (file : LevelFile) {ws : List UInt8} (hws : ∀ c ∈ ws, c ∈ whitespace)
    (hrest : Starts rest) :
    header (file.count.digits ++ newline :: (ws ++ rest)) =
      if 0 < file.count.value then
        .ok ⟨⟨rest, decide (rest = [])⟩, overlay [] (file.count.digits ++ [newline]),
          (List.range file.count.value).map emptyRoom⟩
      else .error .undefined := by
  have hdigits := file.count.isDigits
  have hskip := skipCharacters_starts (file.count.starts (newline :: (ws ++ rest)))
  have hlines : lines 255 255 (file.count.digits ++ newline :: (ws ++ rest)) = _ :=
    lines_append file.count.newline_notMem file.short (ws ++ rest)
  have hcomplete : Complete 255 (file.count.digits ++ [newline]) := .inl (by simp)
  have hfgets : State.fgets ⟨skipCharacters whitespace (file.count.digits ++ newline ::
      (ws ++ rest)), [], []⟩ = ⟨⟨ws ++ rest, false⟩,
        overlay [] (file.count.digits ++ [newline]), []⟩ := by
    rw [hskip]
    have hline := fgets_line (s := ⟨⟨file.count.digits ++ newline :: (ws ++ rest), false⟩, [], []⟩)
      rfl hlines
    rw [lines_flatten] at hline
    simp only [hcomplete, not_true, decide_false] at hline
    rw [← hline]
    congr 2
    simp
  have hend : ∀ c ∈ [newline].head?, isdigit c = false := by
    intro c hc
    cases hc
    rfl
  have hatoi : atoi (file.count.digits ++ [newline]) = some (file.count.value : Int) :=
    atoi_digits file.count.ne hdigits hend file.int
  have hcstring : cstring (overlay [] (file.count.digits ++ [newline])) =
      some (file.count.digits ++ [newline]) := cstring_line file.count.zero_notMem _
  rw [header, hfgets]
  simp only [hcstring, defined]
  show (defined (atoi (file.count.digits ++ [newline])) >>= _) = _
  rw [hatoi]
  show (if (file.count.value : Int) ≤ 0 then _ else _) = _
  rw [skipCharacters_append hws, skipCharacters_starts hrest, skipCharacters_starts hrest]
  by_cases hpos : 0 < file.count.value
  · rw [if_neg (by omega), if_pos hpos]
    rfl
  · rw [if_pos (by omega), if_neg hpos]
    rfl

/-- A file that ends in its first line. -/
theorem header_short (h : text <+: file.count.digits ++ [newline]) (hok : header text = .ok s) :
    s.file.rest = [] := by
  have hstarts : Starts text := by
    intro c hc
    obtain ⟨t, ht⟩ := h
    apply file.count.starts [newline] c
    rw [← ht, List.head?_append, hc]
    rfl
  have hrest : (State.fgets ⟨skipCharacters whitespace text, [], []⟩).file.rest = [] := by
    rw [skipCharacters_starts hstarts]
    by_cases hnil : text = []
    · -- there is nothing to read
      rw [fgets_eof hnil]
    · have hlines : lines 255 255 text = [text] := by
        by_cases hmem : newline ∈ text
        · -- then it is the whole line
          obtain ⟨t, ht⟩ := h
          cases List.append_eq_append_iff.1 ht with
          | inl hin =>
            obtain ⟨t', ht', -⟩ := hin
            exact absurd (ht' ▸ List.mem_append_left t' hmem) file.count.newline_notMem
          | inr hout =>
            obtain ⟨t', ht', hend⟩ := hout
            cases t' with
            | nil =>
              rw [List.append_nil] at ht'
              exact absurd (ht' ▸ hmem) file.count.newline_notMem
            | cons c t' =>
              obtain ⟨rfl, htail⟩ := List.cons.inj hend
              obtain ⟨rfl, -⟩ := List.append_eq_nil_iff.1 htail.symm
              rw [ht', lines_append file.count.newline_notMem file.short]
              rfl
        · have hlength := h.length_le
          have hshort := file.short
          rw [List.length_append, List.length_singleton] at hlength
          exact lines_last hmem hnil (by omega)
      have heof : decide (text = []) = false := decide_eq_false hnil
      rw [fgets_line heof hlines]
      rfl
  rw [header] at hok
  obtain ⟨line, -, hok⟩ := Except.bind_eq_ok.1 hok
  obtain ⟨numRooms, -, hok⟩ := Except.bind_eq_ok.1 hok
  by_cases hpos : numRooms ≤ 0
  · rw [if_pos hpos] at hok
    cases hok
  · rw [if_neg hpos, hrest] at hok
    obtain rfl := Except.ok.inj hok
    rfl

/-! ## A description -/

/-- The loader can store the description: `rmNum` has place for nine digits, and the copy of the
    text must not be cut before its start. -/
def Description.Storable (d : Description) : Prop := d.id.digits.length ≤ 9 ∧ 2 ≤ d.text.length

instance (d : Description) : Decidable d.Storable := inferInstanceAs (Decidable (_ ∧ _))

def describeRoom (rooms : List Room) (i : Nat) (text : List UInt8) : List Room :=
  rooms.modify i fun room => { room with description := some text }

/-- The text that is stored loses its first and its last character. -/
theorem describe_line (d : Description) (hid : d.id.value < rooms.length) (buf : List UInt8) :
    describe rooms (overlay buf (d.line ++ [newline])) =
      if d.Storable then .ok (describeRoom rooms d.id.value d.text.tail.dropLast)
      else .error .undefined := by
  obtain ⟨c, t, htext⟩ := List.exists_cons_of_ne_nil d.text_ne
  -- what an earlier and longer line has left in the buffer
  obtain ⟨stale, hstale⟩ : ∃ stale, stale = buf.drop ((d.line ++ [newline]).length + 1) := ⟨_, rfl⟩
  have hbuf : overlay buf (d.line ++ [newline]) =
      d.id.digits ++ (d.gap ++ (c :: (t ++ [newline] ++ 0 :: stale))) := by
    rw [overlay, ← hstale, Description.line, htext]
    simp
  have hc : isspace c = false := d.start c (by rw [htext]; rfl)
  have hdigits : (overlay buf (d.line ++ [newline])).takeWhile isdigit = d.id.digits := by
    rw [hbuf]
    apply takeWhile_append_stop d.id.isDigits
    intro x hx
    obtain ⟨g, gs, hcons⟩ := List.exists_cons_of_ne_nil d.gap_ne
    rw [hcons] at hx
    apply (d.gap_class x _).2
    rw [hcons, ← Option.some.inj hx]
    exact List.mem_cons_self
  -- `p1` is one character beyond the white space when the loop ends
  have hspaces : (d.gap ++ (c :: (t ++ [newline] ++ 0 :: stale))).dropWhile isspace =
      c :: (t ++ [newline] ++ 0 :: stale) := by
    apply dropWhile_append_stop fun x hx => (d.gap_class x hx).1
    intro x hx
    cases hx
    exact hc
  have hstring : cstring (t ++ [newline] ++ 0 :: stale) = some (t ++ [newline]) := by
    apply cstring_line
    intro hmem
    exact (d.bytes 0 (by rw [htext]; exact List.mem_cons_of_mem c hmem)).2 rfl
  simp only [describe, hdigits]
  rw [hbuf, List.drop_left, hspaces]
  simp only [hstring, defined]
  have hlength : 2 ≤ (t ++ [newline]).length ↔ 2 ≤ d.text.length := by
    rw [htext]
    simp
  -- the string ends with the newline, and two characters are cut
  have htake : (t ++ [newline]).take ((t ++ [newline]).length - 2) = d.text.tail.dropLast := by
    rw [htext, List.length_append, List.length_singleton, List.dropLast_eq_take]
    show _ = t.take (t.length - 1)
    rw [List.take_append_of_le_length (by omega)]
    rfl
  have hcond : (d.id.digits.length ≤ 9 ∧ number d.id.digits < rooms.length ∧
      2 ≤ (t ++ [newline]).length) ↔ d.Storable := by
    rw [hlength]
    exact ⟨fun h => ⟨h.1, h.2.2⟩, fun h => ⟨h.1, hid, h.2⟩⟩
  show (if _ then _ else _) = _
  by_cases hstorable : d.Storable
  · rw [if_pos (hcond.2 hstorable), if_pos hstorable, htake]
    rfl
  · rw [if_neg (mt hcond.1 hstorable), if_neg hstorable]
    rfl

/-- The rooms after these descriptions. -/
def describeAll (rooms : List Room) (ds : List Description) : List Room :=
  ds.foldl (fun rooms d => describeRoom rooms d.id.value d.text.tail.dropLast) rooms

theorem length_describeRoom (rooms : List Room) (i : Nat) (text : List UInt8) :
    (describeRoom rooms i text).length = rooms.length := List.length_modify ..

/-- The first loop on the lines of a file. -/
theorem describeLines_file {ds : List Description} (hids : ∀ d ∈ ds, d.id.value < rooms.length)
    (buf : List UInt8) :
    ∃ buf', (ds.map fun d => d.line ++ [newline]).foldlM describeLine (rooms, buf) =
      if ∀ d ∈ ds, d.Storable then .ok (describeAll rooms ds, buf') else .error .undefined := by
  induction ds generalizing rooms buf with
  | nil => exact ⟨buf, (if_pos nofun).symm⟩
  | cons d ds ih =>
    have hd := describe_line d (hids d List.mem_cons_self) buf
    have hrest : ∀ e ∈ ds,
        e.id.value < (describeRoom rooms d.id.value d.text.tail.dropLast).length := by
      intro e he
      rw [length_describeRoom]
      exact hids e (List.mem_cons_of_mem d he)
    obtain ⟨buf', hfold⟩ := ih hrest (overlay buf (d.line ++ [newline]))
    refine ⟨buf', ?_⟩
    rw [List.map_cons, List.foldlM_cons, describeLine, hd]
    by_cases hstorable : d.Storable
    · rw [if_pos hstorable]
      apply hfold.trans
      simp only [List.forall_mem_cons, hstorable, true_and]
      rfl
    · -- the loop stops at this line
      have hnot : ¬ ∀ e ∈ d :: ds, e.Storable := fun hall => hstorable (hall d List.mem_cons_self)
      rw [if_neg hstorable, if_neg hnot]
      rfl

/-! ## A connection -/

/-- The line of a connection as a description: it is taken for one of room 0. -/
theorem describe_connection (c : Connection) (hrooms : 0 < rooms.length) (buf : List UInt8) :
    ∃ text, describe rooms (overlay buf (c.line ++ [newline])) =
      .ok (describeRoom rooms 0 text) := by
  -- the line starts with a letter: no digit is copied, and no white space is skipped
  obtain ⟨x, y, t, hline, hx⟩ : ∃ x y t, c.line = x :: y :: t ∧
      isdigit x = false ∧ isspace x = false := by
    rw [Connection.line, connectionLine]
    cases c.locked
    · exact ⟨_, _, _, rfl, by decide⟩
    · exact ⟨_, _, _, rfl, by decide⟩
  have hzero : 0 ∉ y :: t := by
    intro hmem
    apply c.plain.zero_notMem
    rw [hline]
    exact List.mem_cons_of_mem x hmem
  obtain ⟨stale, hstale⟩ : ∃ stale, stale = buf.drop ((c.line ++ [newline]).length + 1) := ⟨_, rfl⟩
  have hbuf : overlay buf (c.line ++ [newline]) = x :: (y :: t ++ [newline] ++ 0 :: stale) := by
    rw [overlay, ← hstale, hline]
    simp
  have hstring : cstring (y :: t ++ [newline] ++ 0 :: stale) = some (y :: t ++ [newline]) :=
    cstring_line hzero stale
  have hcond : 0 ≤ 9 ∧ number [] < rooms.length ∧ 2 ≤ (y :: t ++ [newline]).length :=
    ⟨Nat.zero_le 9, hrooms, by simp⟩
  refine ⟨(y :: t ++ [newline]).take ((y :: t ++ [newline]).length - 2), ?_⟩
  have hdigits : (x :: (y :: t ++ [newline] ++ 0 :: stale)).takeWhile isdigit = [] :=
    List.takeWhile_cons_of_neg (by rw [hx.1]; exact Bool.false_ne_true)
  have hspaces : (x :: (y :: t ++ [newline] ++ 0 :: stale)).dropWhile isspace =
      x :: (y :: t ++ [newline] ++ 0 :: stale) :=
    List.dropWhile_cons_of_neg (by rw [hx.2]; exact Bool.false_ne_true)
  simp only [hbuf, describe, hdigits, List.length_nil, List.drop_zero, hspaces, hstring, defined]
  show (if _ then _ else _) = _
  rw [if_pos hcond]
  rfl

theorem roomIndex_numeral (x : Numeral) (hx : x.value < rooms.length) (hint : x.value < 2 ^ 31) :
    roomIndex rooms x.digits = .ok x.value := by
  have hatoi : atoi (x.digits ++ []) = some (x.value : Int) :=
    atoi_digits x.ne x.isDigits nofun hint
  rw [List.append_nil] at hatoi
  have hrange : (0 : Int) ≤ x.value ∧ (x.value : Int) < rooms.length := by omega
  simp only [roomIndex, hatoi, defined]
  show (if _ then _ else _) = _
  rw [if_pos hrange]
  rfl

theorem direction_name (d : Direction) : direction (directionName d) = .ok d := by
  cases d <;> rfl

theorem tokenizer_line (c : Connection) :
    tokenizer (c.line ++ [newline]) whitespace =
      [if c.locked then cantGo else canGo, directionName c.dir, c.a.digits, c.b.digits] := by
  have hspace : (32 : UInt8) ∈ whitespace := by decide
  have hnewline : newline ∈ whitespace := by decide
  have hkind : ∀ locked : Bool, (∀ x ∈ (if locked then cantGo else canGo), x ∉ whitespace) ∧
      (if locked then cantGo else canGo) ≠ [] := by
    intro locked
    cases locked <;> exact ⟨forall_of_all rfl, by decide⟩
  have hname : ∀ d, (∀ x ∈ directionName d, x ∉ whitespace) ∧ directionName d ≠ [] := by
    intro d
    cases d <;> exact ⟨forall_of_all rfl, by decide⟩
  have hline : c.line ++ [newline] = (if c.locked then cantGo else canGo) ++ 32 ::
      (directionName c.dir ++ 32 :: (c.a.digits ++ 32 :: (c.b.digits ++ newline :: []))) := by
    simp [Connection.line, connectionLine]
  -- three words end with a space, and the last one with the newline
  rw [tokenizer, hline, tokens_append (hkind c.locked).1 (hkind c.locked).2 hspace,
    tokens_append (hname c.dir).1 (hname c.dir).2 hspace,
    tokens_append c.a.not_whitespace c.a.ne hspace,
    tokens_append c.b.not_whitespace c.b.ne hnewline, tokens_nil]

theorem connect_line (c : Connection) (ha : c.a.value < rooms.length)
    (hb : c.b.value < rooms.length) (hint : rooms.length ≤ 2 ^ 31) (buf : List UInt8) :
    connect rooms (overlay buf (c.line ++ [newline])) =
      .ok (link rooms c.dir c.a.value c.b.value c.locked) := by
  have hstring : cstring (overlay buf (c.line ++ [newline])) = some (c.line ++ [newline]) :=
    cstring_line c.plain.zero_notMem _
  have hkind : ¬ ((if c.locked then cantGo else canGo) ≠ canGo ∧
      (if c.locked then cantGo else canGo) ≠ cantGo) := by
    cases c.locked <;> decide
  have hlocked : decide ((if c.locked then cantGo else canGo) ≠ canGo) = c.locked := by
    cases c.locked <;> rfl
  have hwords := tokenizer_line c
  simp only [connect, hstring, defined]
  show (if 32 < (tokenizer (c.line ++ [newline]) whitespace).length then _ else _) = _
  rw [hwords, if_neg (by simp)]
  show (if (if c.locked then cantGo else canGo) ≠ canGo ∧
    (if c.locked then cantGo else canGo) ≠ cantGo then _ else _) = _
  rw [if_neg hkind]
  show (direction (directionName c.dir) >>= _) = _
  rw [direction_name]
  show (roomIndex rooms c.a.digits >>= _) = _
  rw [roomIndex_numeral c.a ha (by omega)]
  show (roomIndex rooms c.b.digits >>= _) = _
  rw [roomIndex_numeral c.b hb (by omega)]
  show Except.ok (link _ _ _ _ _) = _
  rw [hlocked]

/-- The rooms after these connections. -/
def linkAll (rooms : List Room) (cs : List Connection) : List Room :=
  cs.foldl (fun rooms c => link rooms c.dir c.a.value c.b.value c.locked) rooms

theorem length_link (rooms : List Room) (dir : Direction) (a b : Nat) (locked : Bool) :
    (link rooms dir a b locked).length = rooms.length := by
  unfold link
  cases locked <;> simp

/-- The second loop on the lines of a file. -/
theorem connectLines_file {cs : List Connection}
    (hends : ∀ c ∈ cs, c.a.value < rooms.length ∧ c.b.value < rooms.length)
    (hint : rooms.length ≤ 2 ^ 31) (buf : List UInt8) :
    ∃ buf', (cs.map fun c => c.line ++ [newline]).foldlM connectLine (rooms, buf) =
      .ok (linkAll rooms cs, buf') := by
  induction cs generalizing rooms buf with
  | nil => exact ⟨buf, rfl⟩
  | cons c cs ih =>
    obtain ⟨ha, hb⟩ := hends c List.mem_cons_self
    have hlength := length_link rooms c.dir c.a.value c.b.value c.locked
    rw [List.map_cons, List.foldlM_cons, connectLine, connect_line c ha hb hint buf]
    apply ih
    · intro d hd
      rw [hlength]
      exact hends d (List.mem_cons_of_mem c hd)
    · rw [hlength]
      exact hint

/-! ## The whole file -/

/-- A piece of a text that goes on is a piece of its first part, or has all of that. -/
theorem prefix_append_cases {p a b : List UInt8} (h : p <+: a ++ b) :
    p <+: a ∨ ∃ q, p = a ++ q ∧ q <+: b := by
  obtain ⟨t, ht⟩ := h
  cases List.append_eq_append_iff.1 ht with
  | inl hin =>
    obtain ⟨t', ha, -⟩ := hin
    exact .inl ⟨t', ha.symm⟩
  | inr hout =>
    obtain ⟨q, hp, hb⟩ := hout
    exact .inr ⟨q, hp, t, hb.symm⟩

theorem head_eq (file : LevelFile) : file.head = file.count.digits ++ [newline] ++
    ([newline] ++ (join (file.descriptions.map Description.line) ++ [newline])) := by
  simp [LevelFile.head, join]

/-- What follows the connections. -/
def LevelFile.extra (file : LevelFile) : List UInt8 :=
  if file.ending = .emptyLine then [newline] else []

theorem bytes_eq (h : file.ending ≠ .bare) : file.bytes =
    file.head ++ (join (file.connections.map Connection.line) ++ file.extra) := by
  unfold LevelFile.bytes LevelFile.extra
  cases hending : file.ending with
  | bare => exact absurd hending h
  | newline => simp
  | emptyLine => simp [join]

theorem bytes_piece (file : LevelFile) : file.bytes <+:
    file.head ++ (join (file.connections.map Connection.line) ++ file.extra) := by
  by_cases h : file.ending = .bare
  · have hextra : file.extra = [] := by simp [LevelFile.extra, h]
    rw [hextra, List.append_nil, LevelFile.bytes, h]
    exact List.dropLast_prefix _
  · exact ⟨[], by rw [List.append_nil, bytes_eq h]⟩

theorem plain_descriptions (file : LevelFile) :
    ∀ l ∈ file.descriptions.map Description.line, Plain l := by
  intro l hl
  obtain ⟨d, -, rfl⟩ := List.mem_map.1 hl
  exact d.plain

theorem plain_connections (file : LevelFile) :
    ∀ l ∈ file.connections.map Connection.line, Plain l := by
  intro l hl
  obtain ⟨c, -, rfl⟩ := List.mem_map.1 hl
  exact c.plain

theorem Plain.head?_ne (h : Plain l) : (l ++ [newline]).head? ≠ some newline := by
  obtain ⟨c, cs, rfl⟩ := List.exists_cons_of_ne_nil h.ne_nil
  intro hhead
  exact h.newline_notMem (List.mem_of_head? hhead)

theorem starts_piece {ls : List (List UInt8)} (h : ∀ l ∈ ls, Plain l) {p : List UInt8}
    (hp : p <+: join ls) : Starts p := by
  intro c hc
  obtain ⟨t, ht⟩ := hp
  cases ls with
  | nil =>
    rw [List.append_eq_nil_iff.1 ht |>.1] at hc
    cases hc
  | cons l ls =>
    apply (h l List.mem_cons_self).starts (newline :: join ls) c
    rw [← join_cons, ← ht, List.head?_append, hc]
    rfl

/-- The lines of a piece of a text, none of which is empty. -/
theorem prefix_no_empty_line {ls : List (List UInt8)} (h : ∀ l ∈ ls, Plain l) {p : List UInt8}
    (hp : p <+: join ls) : ∀ l ∈ lines 255 255 p, l.head? ≠ some newline := by
  obtain ⟨m, q, hlines, hq⟩ := lines_piece h hp
  intro l hl
  rw [hlines, List.mem_append, List.mem_map] at hl
  cases hl with
  | inl hcomplete =>
    obtain ⟨l', hl', rfl⟩ := hcomplete
    exact (h l' (List.mem_of_mem_take hl')).head?_ne
  | inr hlast => exact (hq l hlast).2

theorem not_canLoad (hheader : ∀ s, header content = .ok s →
    ∀ l ∈ lines 255 255 s.file.rest, l.head? ≠ some newline) : ¬ CanLoad content := by
  intro hcan
  obtain ⟨s, hok, ds, e, tail, t, hls, -, he, -⟩ := hcan
  exact hheader s hok e (hls ▸ List.mem_append_right ds List.mem_cons_self) he

/-- The room array before the first loop. -/
def LevelFile.emptyRooms (file : LevelFile) : List Room :=
  (List.range file.count.value).map emptyRoom

theorem length_emptyRooms (file : LevelFile) : file.emptyRooms.length = file.count.value := by
  simp [LevelFile.emptyRooms]

theorem whitespace_cons {ws : List UInt8} (h : ∀ c ∈ ws, c ∈ whitespace) :
    ∀ c ∈ newline :: ws, c ∈ whitespace :=
  List.forall_mem_cons.2 ⟨by decide, h⟩

theorem newline_whitespace : ∀ c ∈ [newline], c ∈ whitespace := whitespace_cons nofun

/-- With descriptions, the first loop has their lines and the empty line. -/
theorem header_descriptions (hds : file.descriptions ≠ []) (q : List UInt8) :
    ∃ s, header (file.head ++ q) = .ok s ∧ s.rooms = file.emptyRooms ∧
      lines 255 255 s.file.rest = file.descriptions.map (fun d => d.line ++ [newline]) ++
        [newline] :: lines 255 255 q := by
  obtain ⟨d, ds, hcons⟩ := List.exists_cons_of_ne_nil hds
  have hpos : 0 < file.count.value :=
    Nat.zero_lt_of_lt (file.ids d (by rw [hcons]; exact List.mem_cons_self))
  have hplain := plain_descriptions file
  have hstarts : Starts (join (file.descriptions.map Description.line) ++ newline :: q) := by
    rw [hcons, List.map_cons, join_cons, List.append_assoc]
    exact d.plain.starts _
  have htext : file.head ++ q = file.count.digits ++ newline ::
      ([newline] ++ (join (file.descriptions.map Description.line) ++ newline :: q)) := by
    simp [head_eq]
  have hok := header_file file newline_whitespace hstarts
  rw [← htext, if_pos hpos] at hok
  refine ⟨_, hok, rfl, ?_⟩
  have hempty : lines 255 255 ([] ++ newline :: q) = ([] ++ [newline]) :: lines 255 255 q :=
    lines_append List.not_mem_nil (by decide) q
  show lines 255 255 (join (file.descriptions.map Description.line) ++ newline :: q) = _
  rw [lines_plain hplain, List.map_map]
  exact congrArg _ hempty

/-- The second loop takes lines until one that is empty or not complete. -/
theorem connectionLines_append {cs : List Connection} {r : List UInt8}
    (hstarts : Starts (join (cs.map Connection.line) ++ r))
    (hr : ∀ l ∈ (lines 255 255 r).head?, ¬ Taken l) :
    connectionLines (join (cs.map Connection.line) ++ r) =
      cs.map fun c => c.line ++ [newline] := by
  have hplain : ∀ l ∈ cs.map Connection.line, Plain l := by
    intro l hl
    obtain ⟨c, -, rfl⟩ := List.mem_map.1 hl
    exact c.plain
  rw [connectionLines, skipCharacters_starts hstarts, lines_plain hplain, List.map_map]
  apply takeWhile_append_stop
  · intro l hl
    -- these have their newline, so that the flag is not set
    obtain ⟨c, -, rfl⟩ := List.mem_map.1 hl
    exact decide_eq_true ⟨c.plain.head?_ne, .inl (List.mem_append_right _ List.mem_cons_self)⟩
  · intro l hl
    exact decide_eq_false (hr l hl)

theorem connectionLines_all {cs : List Connection} {r : List UInt8} (hr : r = [] ∨ r = [newline]) :
    connectionLines (join (cs.map Connection.line) ++ r) = cs.map fun c => c.line ++ [newline] := by
  cases cs with
  | nil =>
    -- the empty line at the end is white space before the connections
    obtain rfl | rfl := hr
    · rfl
    · rfl
  | cons c cs =>
    apply connectionLines_append
    · rw [List.map_cons, join_cons, List.append_assoc]
      exact c.plain.starts _
    · obtain rfl | rfl := hr
      · exact nofun
      · intro l hl htaken
        obtain rfl : [newline] = l := Option.some.inj hl
        exact htaken.1 rfl

/-- In a piece of the connections, those whose lines are complete. -/
theorem connectionLines_piece {q : List UInt8}
    (hq : q <+: join (file.connections.map Connection.line) ++ file.extra) :
    ∃ m, connectionLines q = (file.connections.take m).map fun c => c.line ++ [newline] := by
  cases prefix_append_cases hq with
  | inl hin =>
    have hplain := plain_connections file
    obtain ⟨m, q', hlines, hq'⟩ := lines_piece hplain hin
    refine ⟨m, ?_⟩
    rw [connectionLines, skipCharacters_starts (starts_piece hplain hin), hlines,
      ← List.map_take, List.map_map]
    apply takeWhile_append_stop
    · intro l hl
      obtain ⟨c, -, rfl⟩ := List.mem_map.1 hl
      exact decide_eq_true ⟨c.plain.head?_ne, .inl (List.mem_append_right _ List.mem_cons_self)⟩
    · intro l hl
      exact decide_eq_false fun h => (hq' l (List.mem_of_head? hl)).1 h.2
  | inr hout =>
    obtain ⟨r, rfl, hr⟩ := hout
    refine ⟨file.connections.length, ?_⟩
    rw [List.take_length]
    apply connectionLines_all
    unfold LevelFile.extra at hr
    split at hr
    · cases List.prefix_cons_iff.1 hr with
      | inl hnil => exact .inl hnil
      | inr hcons =>
        obtain ⟨t, rfl, ht⟩ := hcons
        rw [List.prefix_nil.1 ht]
        exact .inr rfl
    · exact .inl (List.prefix_nil.1 hr)

theorem length_describeAll (rooms : List Room) (ds : List Description) :
    (describeAll rooms ds).length = rooms.length := by
  induction ds generalizing rooms with
  | nil => rfl
  | cons d ds ih => exact (ih _).trans (length_describeRoom ..)

theorem ids_lt (file : LevelFile) :
    ∀ d ∈ file.descriptions, d.id.value < file.emptyRooms.length := by
  intro d hd
  rw [length_emptyRooms]
  exact file.ids d hd

theorem ends_lt (file : LevelFile) {cs : List Connection} (hcs : cs ⊆ file.connections) :
    ∀ c ∈ cs, c.a.value < (describeAll file.emptyRooms file.descriptions).length ∧
      c.b.value < (describeAll file.emptyRooms file.descriptions).length := by
  intro c hc
  rw [length_describeAll, length_emptyRooms]
  exact file.ends c (hcs hc)

theorem description_lines_head (ds : List Description) :
    ∀ l ∈ ds.map (fun d => d.line ++ [newline]), l.head? ≠ some newline := by
  intro l hl
  obtain ⟨d, -, rfl⟩ := List.mem_map.1 hl
  exact d.plain.head?_ne

/-- A file with descriptions that goes on beyond the empty line after them is loaded when they can
    be stored; then the rooms have the descriptions and these connections. -/
theorem loadLevel_descriptions (hds : file.descriptions ≠ []) {q : List UInt8}
    {cs : List Connection} (hq : connectionLines q = cs.map fun c => c.line ++ [newline])
    (hcs : cs ⊆ file.connections) {fuel : Nat} (hfuel : (file.head ++ q).length < fuel) :
    loadLevel fuel (some (file.head ++ q)) =
      if ∀ d ∈ file.descriptions, d.Storable then
        some (.ok (linkAll (describeAll file.emptyRooms file.descriptions) cs))
      else some (.error .undefined) := by
  obtain ⟨s, hheader, hrooms, hls⟩ := header_descriptions hds q
  obtain ⟨buf, hfold⟩ := describeLines_file (ids_lt file) s.buf
  rw [loadLevel_lines hheader hls (description_lines_head _) rfl hfuel, lines_flatten, hq, hrooms,
    hfold]
  by_cases hall : ∀ d ∈ file.descriptions, d.Storable
  · have hlength : (describeAll file.emptyRooms file.descriptions).length ≤ 2 ^ 31 := by
      rw [length_describeAll, length_emptyRooms]
      exact Nat.le_of_lt file.int
    obtain ⟨buf', hconnect⟩ := connectLines_file (ends_lt file hcs) hlength
      (overlay buf [newline])
    rw [if_pos hall, if_pos hall]
    show some ((cs.map fun c => c.line ++ [newline]).foldlM connectLine
      (describeAll file.emptyRooms file.descriptions, overlay buf [newline]) >>= _) = _
    rw [hconnect]
    rfl
  · rw [if_neg hall, if_neg hall]
    rfl

theorem canLoad_descriptions (hds : file.descriptions ≠ []) {q : List UInt8}
    (hq : q <+: join (file.connections.map Connection.line) ++ file.extra) :
    CanLoad (file.head ++ q) ↔ ∀ d ∈ file.descriptions, d.Storable := by
  obtain ⟨m, hlines⟩ := connectionLines_piece hq
  have hload := loadLevel_descriptions hds hlines (List.take_subset m _) (Nat.lt_succ_self _)
  rw [← load_ends_iff]
  constructor
  · intro hends
    obtain ⟨fuel, r, hr, hdefined⟩ := hends
    by_contra hnot
    rw [if_neg hnot] at hload
    exact hdefined (loadLevel_unique hr hload)
  · intro hall
    rw [if_pos hall] at hload
    exact ⟨_, _, hload, nofun⟩

/-- A file that ends in its first line has no empty line. -/
theorem not_canLoad_short (h : text <+: file.count.digits ++ [newline]) : ¬ CanLoad text := by
  apply not_canLoad
  intro s hs l hl
  rw [header_short h hs] at hl
  cases hl

/-- Nor has one that ends before such a line. -/
theorem not_canLoad_blank {ws p : List UInt8} (hws : ∀ c ∈ ws, c ∈ whitespace) (hp : Starts p)
    (hlines : ∀ l ∈ lines 255 255 p, l.head? ≠ some newline) :
    ¬ CanLoad (file.count.digits ++ newline :: (ws ++ p)) := by
  apply not_canLoad
  intro s hs
  rw [header_file file hws hp] at hs
  by_cases hpos : 0 < file.count.value
  · rw [if_pos hpos] at hs
    obtain rfl := Except.ok.inj hs
    exact hlines
  · rw [if_neg hpos] at hs
    cases hs

/-- Nor has one with white space only. -/
theorem not_canLoad_white {ws : List UInt8} (hws : ∀ c ∈ ws, c ∈ whitespace) :
    ¬ CanLoad (file.count.digits ++ newline :: ws) := by
  have hstarts : Starts [] := by
    intro c hc
    cases hc
  have hlines : ∀ l ∈ lines 255 255 [], l.head? ≠ some newline := by
    intro l hl
    cases hl
  have hblank : ¬ CanLoad (file.count.digits ++ newline :: (ws ++ [])) :=
    not_canLoad_blank hws hstarts hlines
  rwa [List.append_nil] at hblank

/-- A file that ends before the empty line after its descriptions. -/
theorem not_canLoad_head (htext : text <+: file.head) (hne : text ≠ file.head) :
    ¬ CanLoad text := by
  have hplain := plain_descriptions file
  rw [head_eq] at htext hne
  cases prefix_append_cases htext with
  -- the piece ends in the first line
  | inl hshort => exact not_canLoad_short hshort
  | inr hlong =>
    obtain ⟨q, rfl, hq⟩ := hlong
    rw [List.singleton_append, List.prefix_cons_iff] at hq
    cases hq with
    | inl hnil =>
      rw [hnil, List.append_nil]
      exact not_canLoad_short List.prefix_rfl
    | inr hcons =>
      obtain ⟨p, rfl, hp⟩ := hcons
      cases List.prefix_concat_iff.1 hp with
      | inl hall =>
        -- it has the empty line after the descriptions
        rw [hall] at hne
        exact absurd rfl hne
      | inr hin =>
        -- it ends in the descriptions
        have hblank : ¬ CanLoad (file.count.digits ++ newline :: ([newline] ++ p)) :=
          not_canLoad_blank newline_whitespace (starts_piece hplain hin)
            (prefix_no_empty_line hplain hin)
        rw [List.append_assoc]
        exact hblank

/-! ## Files without descriptions -/

theorem describeRoom_twice (rooms : List Room) (i : Nat) (text text' : List UInt8) :
    describeRoom (describeRoom rooms i text) i text' = describeRoom rooms i text' := by
  rw [describeRoom, describeRoom, List.modify_modify_eq]
  rfl

/-- The first loop takes the connections for descriptions of room 0. -/
theorem describeLines_connections {cs : List Connection} (hne : cs ≠ [])
    (hrooms : 0 < rooms.length) (buf : List UInt8) :
    ∃ text buf', (cs.map fun c => c.line ++ [newline]).foldlM describeLine (rooms, buf) =
      .ok (describeRoom rooms 0 text, buf') := by
  induction cs generalizing rooms buf with
  | nil => exact absurd rfl hne
  | cons c cs ih =>
    obtain ⟨text, hdescribe⟩ := describe_connection c hrooms buf
    rw [List.map_cons, List.foldlM_cons, describeLine, hdescribe]
    by_cases hcs : cs = []
    · rw [hcs]
      exact ⟨text, _, rfl⟩
    · have hlength : 0 < (describeRoom rooms 0 text).length := by rwa [length_describeRoom]
      obtain ⟨text', buf', hrest⟩ := ih hcs hlength (overlay buf (c.line ++ [newline]))
      rw [describeRoom_twice] at hrest
      exact ⟨text', buf', hrest⟩

theorem bytes_eq_of_nil (hds : file.descriptions = []) (hending : file.ending = .emptyLine) :
    file.bytes = file.count.digits ++ newline ::
      ([newline, newline] ++ (join (file.connections.map Connection.line) ++ [newline])) := by
  have hbare : file.ending ≠ .bare := by
    rw [hending]
    decide
  rw [bytes_eq hbare, head_eq, LevelFile.extra, if_pos hending, hds]
  simp [join]

theorem loadLevel_connections (hds : file.descriptions = []) (hcs : file.connections ≠ [])
    (hending : file.ending = .emptyLine) {fuel : Nat} (hfuel : file.bytes.length < fuel) :
    ∃ text, loadLevel fuel (some file.bytes) =
      some (.ok (describeRoom file.emptyRooms 0 text)) := by
  obtain ⟨c, cs, hcons⟩ := List.exists_cons_of_ne_nil hcs
  have hpos : 0 < file.count.value :=
    Nat.zero_lt_of_lt (file.ends c (by rw [hcons]; exact List.mem_cons_self)).1
  have hplain := plain_connections file
  have hstarts : Starts (join (file.connections.map Connection.line) ++ [newline]) := by
    rw [hcons, List.map_cons, join_cons, List.append_assoc]
    exact c.plain.starts _
  have hheader := header_file file (whitespace_cons newline_whitespace) hstarts
  rw [← bytes_eq_of_nil hds hending, if_pos hpos] at hheader
  have hls : lines 255 255 (join (file.connections.map Connection.line) ++ [newline]) =
      (file.connections.map fun c => c.line ++ [newline]) ++ [newline] :: [] := by
    rw [lines_plain hplain, List.map_map]
    rfl
  have hheads : ∀ l ∈ file.connections.map (fun c => c.line ++ [newline]),
      l.head? ≠ some newline := by
    intro l hl
    obtain ⟨c, -, rfl⟩ := List.mem_map.1 hl
    exact c.plain.head?_ne
  obtain ⟨text, buf', hfold⟩ := describeLines_connections hcs
    (show 0 < file.emptyRooms.length by rwa [length_emptyRooms])
    (overlay [] (file.count.digits ++ [newline]))
  refine ⟨text, ?_⟩
  rw [loadLevel_lines hheader hls hheads rfl hfuel]
  show some ((file.connections.map fun c => c.line ++ [newline]).foldlM describeLine
    (file.emptyRooms, overlay [] (file.count.digits ++ [newline])) >>= _) = _
  rw [hfold]
  rfl

/-- Without descriptions there is no empty line before the one at the end of the file. -/
theorem canLoad_reaches_end (hds : file.descriptions = []) (htext : text <+: file.bytes)
    (hcan : CanLoad text) : ∃ r, r ≠ [] ∧ r <+: file.extra ∧
      text = file.count.digits ++ newline ::
        ([newline, newline] ++ (join (file.connections.map Connection.line) ++ r)) := by
  have hplain := plain_connections file
  have hlong := htext.trans (bytes_piece file)
  have hhead : file.head ++ (join (file.connections.map Connection.line) ++ file.extra) =
      (file.count.digits ++ [newline]) ++ ([newline, newline] ++
        (join (file.connections.map Connection.line) ++ file.extra)) := by
    rw [head_eq, hds]
    simp [join]
  rw [hhead] at hlong
  -- where the piece ends: in the first line, the empty lines, the connections, or at the end
  cases prefix_append_cases hlong with
  | inl hshort => exact absurd hcan (not_canLoad_short hshort)
  | inr hmore =>
    obtain ⟨q, rfl, hq⟩ := hmore
    rw [List.append_assoc, List.singleton_append] at hcan
    cases prefix_append_cases hq with
    | inl hblank =>
      have hws : ∀ c ∈ q, c ∈ whitespace := by
        intro c hc
        exact whitespace_cons newline_whitespace c (hblank.subset hc)
      exact absurd hcan (not_canLoad_white hws)
    | inr hconnections =>
      obtain ⟨p, rfl, hp⟩ := hconnections
      have hpiece : ¬ p <+: join (file.connections.map Connection.line) := by
        intro hin
        exact not_canLoad_blank (whitespace_cons newline_whitespace) (starts_piece hplain hin)
          (prefix_no_empty_line hplain hin) hcan
      obtain ⟨r, rfl, hr⟩ := (prefix_append_cases hp).resolve_left hpiece
      refine ⟨r, ?_, hr, ?_⟩
      · intro hnil
        apply hpiece
        exact ⟨[], by rw [hnil, List.append_nil, List.append_nil]⟩
      · rw [List.append_assoc, List.singleton_append]

theorem canLoad_connections (hds : file.descriptions = []) (htext : text <+: file.bytes) :
    CanLoad text ↔ file.connections ≠ [] ∧ file.ending = .emptyLine ∧ text = file.bytes := by
  constructor
  · intro hcan
    obtain ⟨r, hne, hr, rfl⟩ := canLoad_reaches_end hds htext hcan
    by_cases hending : file.ending = .emptyLine
    · rw [LevelFile.extra, if_pos hending, List.prefix_cons_iff] at hr
      obtain ⟨t, rfl, ht⟩ := hr.resolve_left hne
      rw [List.prefix_nil.1 ht] at hcan ⊢
      have hcs : file.connections ≠ [] := by
        intro hnil
        rw [hnil] at hcan
        exact not_canLoad_white (whitespace_cons (whitespace_cons newline_whitespace)) hcan
      exact ⟨hcs, hending, (bytes_eq_of_nil hds hending).symm⟩
    · rw [LevelFile.extra, if_neg hending] at hr
      exact absurd (List.prefix_nil.1 hr) hne
  · intro h
    obtain ⟨hcs, hending, rfl⟩ := h
    obtain ⟨rooms, hload⟩ := loadLevel_connections hds hcs hending (Nat.lt_succ_self _)
    exact canLoad_of_ok hload

/-- A piece of a level file, up to any byte, is loaded when it has the descriptions, at least one,
    and the empty line after them, and they can be stored; without descriptions only a whole file
    that has connections and ends with an empty line. -/
theorem canLoad_piece (htext : text <+: file.bytes) : CanLoad text ↔
    file.descriptions ≠ [] ∧ (∀ d ∈ file.descriptions, d.Storable) ∧
      file.head.length ≤ text.length ∨
    file.descriptions = [] ∧ file.connections ≠ [] ∧ file.ending = .emptyLine ∧
      text = file.bytes := by
  by_cases hds : file.descriptions = []
  · rw [canLoad_connections hds htext]
    constructor
    · intro h
      exact .inr ⟨hds, h⟩
    · intro h
      exact (h.resolve_left fun hdescribed => hdescribed.1 hds).2
  · rw [or_iff_left (fun h => hds h.1), and_iff_right hds]
    cases prefix_append_cases (htext.trans (bytes_piece file)) with
    | inl hin =>
      -- a piece that ends with the empty line has no connections
      by_cases hall : text = file.head
      · rw [hall, and_iff_left (Nat.le_refl _)]
        have hcan := canLoad_descriptions hds (List.nil_prefix (l :=
          join (file.connections.map Connection.line) ++ file.extra))
        rwa [List.append_nil] at hcan
      · constructor
        · intro hcan
          exact absurd hcan (not_canLoad_head hin hall)
        · intro h
          exact absurd (hin.eq_of_length (Nat.le_antisymm hin.length_le h.2)) hall
    | inr hout =>
      obtain ⟨q, rfl, hq⟩ := hout
      rw [canLoad_descriptions hds hq, and_iff_left (by rw [List.length_append]; omega)]

/-- The loader ends, with enough rounds, on the contents that it can load; for the pieces of level
    files these are the ones with their descriptions in full. -/
theorem loadLevel_ends_iff (content : List UInt8) :
    ((∃ fuel r, loadLevel fuel (some content) = some r ∧ r ≠ .error .undefined) ↔
      CanLoad content) ∧
    ∀ file : LevelFile, content <+: file.bytes →
      ((∃ fuel r, loadLevel fuel (some content) = some r ∧ r ≠ .error .undefined) ↔
        file.descriptions ≠ [] ∧ (∀ d ∈ file.descriptions, d.Storable) ∧
          file.head.length ≤ content.length ∨
        file.descriptions = [] ∧ file.connections ≠ [] ∧ file.ending = .emptyLine ∧
          content = file.bytes) := by
  constructor
  · exact load_ends_iff content
  · intro file hpiece
    rw [load_ends_iff, canLoad_piece hpiece]

/-- The number 0. -/
def zero : Numeral := ⟨ascii ['0'], by decide, forall_of_all rfl⟩

/-- The number 1. -/
def one : Numeral := ⟨ascii ['1'], by decide, forall_of_all rfl⟩

/-- The line `0 hello`. -/
def hello : Description where
  id := zero
  gap := ascii [' ']
  text := ascii ['h', 'e', 'l', 'l', 'o']
  gap_ne := by decide
  blanks := forall_of_all rfl
  text_ne := by decide
  start := by
    intro c hc
    cases hc
    rfl
  bytes := forall_of_all rfl
  short := by decide

/-- A file with one room. -/
def oneRoom : LevelFile where
  count := one
  descriptions := [hello]
  connections := []
  ending := .newline
  short := by decide
  int := by decide
  ids := List.forall_mem_singleton.2 (by decide)
  ends := nofun

theorem loadLevel_ends_oneRoom :
    ∃ fuel r, loadLevel fuel (some oneRoom.bytes) = some r ∧ r ≠ .error .undefined := by
  apply ((loadLevel_ends_iff oneRoom.bytes).2 oneRoom List.prefix_rfl).2
  exact .inl ⟨by decide, by decide, by decide⟩

/-- Without its last newline the loader does not end. -/
theorem not_loadLevel_ends_truncated :
    ¬ ∃ fuel r, loadLevel fuel (some oneRoom.bytes.dropLast) = some r ∧ r ≠ .error .undefined := by
  have hhead : oneRoom.bytes.dropLast <+: oneRoom.head := List.dropLast_prefix _
  rw [load_ends_iff]
  exact not_canLoad_head hhead (by decide)

end Level
