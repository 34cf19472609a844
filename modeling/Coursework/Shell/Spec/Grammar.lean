import Coursework.ForStd.Except
import Coursework.Shell.Parser
import Mathlib.Data.List.Induction

/-!
# The grammar of the shell

A line is a sequence of tokens. The tokens split at `|` into commands; a command is a sequence of
words and redirections in any order, with at most `MAXARGS - 1` words. `parsecmd` accepts these
lines and no others.
-/

namespace Shell

/-! ## Tokens -/

/-- The token of a symbol. -/
def symbolToken (c : UInt8) : Option Token :=
  if c = '|'.toUInt8 then some .bar
  else if c = '<'.toUInt8 then some (.redir .input)
  else if c = '>'.toUInt8 then some (.redir .output)
  else none

/-- The tokens of a line: a word goes on as long as there is neither white space nor a symbol. -/
def tokens : List UInt8 → List Token
  | [] => []
  | c :: s =>
    if isWhitespace c then tokens s
    else
      match symbolToken c with
      | some t => t :: tokens s
      | none =>
        match (s.head?.map inWord).getD false, tokens s with
        | true, .word w :: ts => .word (c :: w) :: ts
        | _, ts => .word [c] :: ts

theorem tokens_skipWhitespace (s : List UInt8) : tokens (skipWhitespace s) = tokens s := by
  induction s with
  | nil => rfl
  | cons c s ih =>
    by_cases hc : isWhitespace c = true
    · rw [skipWhitespace, List.dropWhile_cons_of_pos hc, tokens, if_pos hc]
      exact ih
    · rw [skipWhitespace, List.dropWhile_cons_of_neg hc]

theorem length_skipWhitespace (s : List UInt8) : (skipWhitespace s).length ≤ s.length :=
  (List.dropWhile_suffix _).length_le

theorem symbolToken_eq_none_iff {c : UInt8} : symbolToken c = none ↔ isSymbol c = false := by
  simp only [symbolToken, isSymbol, symbols, chars, List.map_cons, List.map_nil, List.contains_cons,
    List.contains_nil, Bool.or_false, Bool.or_eq_false_iff, beq_eq_false_iff_ne]
  split_ifs with hbar hless hgreater <;> simp_all

theorem inWord_eq_true_iff {c : UInt8} :
    inWord c = true ↔ isWhitespace c = false ∧ symbolToken c = none := by
  rw [symbolToken_eq_none_iff, inWord, Bool.and_eq_true, Bool.not_eq_true', Bool.not_eq_true']

theorem tokens_symbol {c : UInt8} (hws : isWhitespace c = false) {t : Token}
    (ht : symbolToken c = some t) (s : List UInt8) : tokens (c :: s) = t :: tokens s := by
  simp [tokens, hws, ht]

theorem tokens_inWord {c : UInt8} (h : inWord c = true) (s : List UInt8) :
    tokens (c :: s) = .word (c :: s.takeWhile inWord) :: tokens (s.dropWhile inWord) := by
  obtain ⟨hws, hsym⟩ := inWord_eq_true_iff.mp h
  induction s generalizing c with
  | nil => simp [tokens, hws, hsym]
  | cons d s ih =>
    rw [tokens, hws, if_neg Bool.false_ne_true, hsym]
    cases hd : inWord d with
    | true =>
      obtain ⟨hwsd, hsymd⟩ := inWord_eq_true_iff.mp hd
      simp [hd, ih hd hwsd hsymd]
    | false => simp [hd]

/-- What the line starts with after its white space. -/
theorem skipWhitespace_cases (s : List UInt8) :
    (skipWhitespace s = [] ∧ tokens s = []) ∨
    (∃ c s' t, skipWhitespace s = c :: s' ∧ symbolToken c = some t ∧ tokens s = t :: tokens s') ∨
    (∃ c s', skipWhitespace s = c :: s' ∧ inWord c = true ∧
      tokens s = .word (c :: s'.takeWhile inWord) :: tokens (s'.dropWhile inWord)) := by
  rw [← tokens_skipWhitespace]
  cases hs : skipWhitespace s with
  | nil => exact .inl ⟨rfl, rfl⟩
  | cons c s' =>
    have hws : isWhitespace c = false := by
      have hhead := List.head?_dropWhile_not isWhitespace s
      rw [← skipWhitespace, hs] at hhead
      simpa using hhead
    cases hsym : symbolToken c with
    | some t => exact .inr (.inl ⟨c, s', t, rfl, hsym, tokens_symbol hws hsym s'⟩)
    | none =>
      have hword := inWord_eq_true_iff.mpr ⟨hws, hsym⟩
      exact .inr (.inr ⟨c, s', rfl, hword, tokens_inWord hword s'⟩)

theorem gettoken_of_symbol {s s' : List UInt8} {c : UInt8} {t : Token}
    (hs : skipWhitespace s = c :: s') (ht : symbolToken c = some t) :
    gettoken s = (some t, skipWhitespace s') := by
  rw [gettoken, hs]
  simp only [symbolToken] at ht
  split_ifs at ht ⊢ <;> simp_all

theorem gettoken_of_inWord {s s' : List UInt8} {c : UInt8}
    (hs : skipWhitespace s = c :: s') (hc : inWord c = true) :
    gettoken s =
      (some (.word (c :: s'.takeWhile inWord)), skipWhitespace (s'.dropWhile inWord)) := by
  have hsym := (inWord_eq_true_iff.mp hc).2
  rw [gettoken, hs, ← List.takeWhile_cons_of_pos hc, ← List.dropWhile_cons_of_pos hc]
  simp only [symbolToken] at hsym
  split_ifs at hsym with hbar hless hgreater
  change (if c = _ then _ else if c = _ then _ else if c = _ then _ else _) = _
  rw [if_neg hbar, if_neg hless, if_neg hgreater]

theorem gettoken_nil {s : List UInt8} (h : tokens s = []) : gettoken s = (none, []) := by
  obtain ⟨hs, -⟩ | ⟨c, s', t, -, -, ht⟩ | ⟨c, s', -, -, ht⟩ := skipWhitespace_cases s
  · rw [gettoken, hs]
  · rw [h] at ht
    cases ht
  · rw [h] at ht
    cases ht

theorem gettoken_cons {s : List UInt8} {t : Token} {ts : List Token} (h : tokens s = t :: ts) :
    ∃ s', gettoken s = (some t, s') ∧ tokens s' = ts ∧ s'.length < s.length := by
  have hle := length_skipWhitespace s
  obtain ⟨-, ht⟩ | ⟨c, s', t', hs, hc, ht⟩ | ⟨c, s', hs, hc, ht⟩ := skipWhitespace_cases s
  · rw [h] at ht
    cases ht
  · rw [h] at ht
    cases ht
    have hle' := length_skipWhitespace s'
    rw [hs, List.length_cons] at hle
    exact ⟨_, gettoken_of_symbol hs hc, tokens_skipWhitespace s', by omega⟩
  · rw [h] at ht
    cases ht
    have hle' := length_skipWhitespace (s'.dropWhile inWord)
    have hdrop := (List.dropWhile_suffix (l := s') inWord).length_le
    rw [hs, List.length_cons] at hle
    exact ⟨_, gettoken_of_inWord hs hc, tokens_skipWhitespace _, by omega⟩

/-- The first token is this symbol. -/
def startsWith (p : Token → Bool) (ts : List Token) : Bool := (ts.head?.map p).getD false

/-- `peek` asks for the first token when its argument has symbols only. -/
theorem peek_eq {toks : List UInt8} {p : Token → Bool}
    (hsym : ∀ c t, symbolToken c = some t → toks.contains c = p t)
    (hnone : ∀ c w, symbolToken c = none → toks.contains c = p (.word w)) (s : List UInt8) :
    peek s toks = (startsWith p (tokens s), skipWhitespace s) := by
  obtain ⟨hs, ht⟩ | ⟨c, s', t, hs, hc, ht⟩ | ⟨c, s', hs, hc, ht⟩ := skipWhitespace_cases s
  · rw [peek, hs, ht]
    rfl
  · rw [peek, hs, ht]
    exact congrArg (·, c :: s') (hsym c t hc)
  · rw [peek, hs, ht]
    exact congrArg (·, c :: s') (hnone c _ (inWord_eq_true_iff.mp hc).2)

def Token.isBar : Token → Bool
  | .bar => true
  | _ => false

def Token.isRedir : Token → Bool
  | .redir _ => true
  | _ => false

theorem startsWith_bar (ts : List Token) : startsWith Token.isBar (.bar :: ts) = true := rfl

theorem peek_bar (s : List UInt8) :
    peek s (chars ['|']) = (startsWith Token.isBar (tokens s), skipWhitespace s) := by
  apply peek_eq
  · intro c t ht
    simp only [symbolToken] at ht
    split_ifs at ht <;> cases ht <;> simp_all [chars, Token.isBar]
  · intro c w hc
    simp only [symbolToken] at hc
    split_ifs at hc
    simp_all [chars, Token.isBar]

theorem peek_redir (s : List UInt8) :
    peek s (chars ['<', '>']) =
      (startsWith Token.isRedir (tokens s), skipWhitespace s) := by
  apply peek_eq
  · intro c t ht
    simp only [symbolToken] at ht
    split_ifs at ht <;> cases ht <;> simp_all +decide [chars, Token.isRedir]
  · intro c w hc
    simp only [symbolToken] at hc
    split_ifs at hc
    simp_all [chars, Token.isRedir]

/-! ## Commands -/

/-- A part of a command: a word, or a redirection, that is `<` or `>` and the word after it. -/
inductive Item where
  | word (w : Word)
  | redir (type : RedirType) (file : Word)

namespace Item

def tokens : Item → List Token
  | word w => [.word w]
  | redir type file => [.redir type, .word file]

end Item

/-- The words of a command, in their order. -/
def wordsOf : List Item → List Word
  | [] => []
  | .word w :: items => w :: wordsOf items
  | .redir _ _ :: items => wordsOf items

/-- The redirections of a command, in their order. -/
def redirsOf : List Item → List (RedirType × Word)
  | [] => []
  | .word _ :: items => redirsOf items
  | .redir type file :: items => (type, file) :: redirsOf items

/-- The `argv` with these words: the pointers after them are null. -/
def argvOf (ws : List Word) : Vector (Option Word) maxArgs := Vector.ofFn fun i => ws[i.val]?

theorem getElem_argvOf (ws : List Word) {i : Nat} (hi : i < maxArgs) :
    (argvOf ws)[i] = ws[i]? := by
  rw [argvOf, Vector.getElem_ofFn]

/-- An `execcmd` inside its redirections, the first one innermost. -/
def wrapped (ws : List Word) (rs : List (RedirType × Word)) : Cmd :=
  rs.foldl (fun cmd r => .redir cmd r.2 r.1) (.exec (argvOf ws))

theorem wrapped_concat (ws : List Word) (rs : List (RedirType × Word)) (type : RedirType)
    (file : Word) : wrapped ws (rs ++ [(type, file)]) = .redir (wrapped ws rs) file type := by
  rw [wrapped, List.foldl_append]
  rfl

theorem execcmd_eq : execcmd = wrapped [] [] := by
  decide

theorem argvOf_set (ws : List Word) (w : Word) (h : ws.length < maxArgs) :
    (argvOf ws).set ws.length (some w) = argvOf (ws ++ [w]) := by
  apply Vector.ext
  intro i hi
  rw [Vector.getElem_set, getElem_argvOf, getElem_argvOf]
  split
  · next heq => simp [← heq]
  · next hne =>
    by_cases hlt : i < ws.length
    · rw [List.getElem?_append_left hlt]
    · rw [List.getElem?_eq_none (by omega), List.getElem?_eq_none (by simp; omega)]

theorem argvOf_set_none (ws : List Word) (h : ws.length < maxArgs) :
    (argvOf ws).set ws.length none = argvOf ws := by
  apply Vector.ext
  intro i hi
  rw [Vector.getElem_set, getElem_argvOf]
  split
  · next heq => simp [← heq]
  · rfl

/-- `cmd->argv[argc] = w` behind any redirections. -/
theorem setArg_wrapped {i : Nat} (hi : i < maxArgs) (w : Option Word) (ws ws' : List Word)
    (h : (argvOf ws).set i w = argvOf ws') (rs : List (RedirType × Word)) :
    (wrapped ws rs).setArg i w = some (wrapped ws' rs) := by
  induction rs using List.reverseRec with
  | nil =>
    change (if h : i < maxArgs then some (Cmd.exec ((argvOf ws).set i w)) else none) = _
    rw [dif_pos hi, h]
    rfl
  | append_singleton rs r ih =>
    rw [wrapped_concat, Cmd.setArg, ih, wrapped_concat]
    rfl

/-- What the parser does with a token, token by token: the command with the words and the
    redirections so far. -/
def itemsOf : List Word → List (RedirType × Word) → List Token →
    Except ParseError (Cmd × List Token)
  | ws, rs, [] => .ok (wrapped ws rs, [])
  | ws, rs, .bar :: ts => .ok (wrapped ws rs, .bar :: ts)
  | ws, rs, .word w :: ts =>
    if maxArgs ≤ ws.length + 1 then .error .tooManyArgs else itemsOf (ws ++ [w]) rs ts
  | ws, rs, .redir type :: .word file :: ts => itemsOf ws (rs ++ [(type, file)]) ts
  | _, _, .redir _ :: _ => .error .missingFile

/-! ## The parser works token by token -/

theorem parseredirs_done {s : List UInt8} (h : startsWith Token.isRedir (tokens s) = false)
    (fuel : Nat) (cmd : Cmd) : parseredirs (fuel + 1) cmd s = .ok (cmd, skipWhitespace s) := by
  simp [parseredirs, peek_redir, h]

theorem parseredirs_redir {s : List UInt8} {type : RedirType} {file : Word} {ts : List Token}
    (h : tokens s = .redir type :: .word file :: ts) (fuel : Nat) (cmd : Cmd) :
    ∃ s', parseredirs (fuel + 1) cmd s = parseredirs fuel (.redir cmd file type) s' ∧
      tokens s' = ts ∧ s'.length < s.length := by
  have hskip := length_skipWhitespace s
  obtain ⟨s₁, h₁, ht₁, hlen₁⟩ := gettoken_cons ((tokens_skipWhitespace s).trans h)
  obtain ⟨s₂, h₂, ht₂, hlen₂⟩ := gettoken_cons ht₁
  refine ⟨s₂, ?_, ht₂, by omega⟩
  have hstart : startsWith Token.isRedir (tokens s) = true := by rw [h]; rfl
  simp [parseredirs, peek_redir, hstart, h₁, h₂]

theorem parseredirs_missing {s : List UInt8} {type : RedirType} {ts : List Token}
    (h : tokens s = .redir type :: ts) (hts : ∀ file ts', ts ≠ .word file :: ts') (fuel : Nat)
    (cmd : Cmd) : parseredirs (fuel + 1) cmd s = .error .missingFile := by
  obtain ⟨s₁, h₁, ht₁, -⟩ := gettoken_cons ((tokens_skipWhitespace s).trans h)
  have hstart : startsWith Token.isRedir (tokens s) = true := by rw [h]; rfl
  cases ts with
  | nil => simp [parseredirs, peek_redir, hstart, h₁, gettoken_nil ht₁]
  | cons t ts =>
    obtain ⟨s₂, h₂, -, -⟩ := gettoken_cons ht₁
    cases t with
    | word file => exact absurd rfl (hts file ts)
    | bar => simp [parseredirs, peek_redir, hstart, h₁, h₂]
    | redir type' => simp [parseredirs, peek_redir, hstart, h₁, h₂]

theorem parseargs_bar {s : List UInt8} {ts : List Token} (h : tokens s = .bar :: ts)
    (fuel : Nat) (ret : Cmd) (argc : Nat) :
    parseargs (fuel + 1) ret argc s = endArgs ret argc (skipWhitespace s) := by
  simp [parseargs, peek_bar, h, startsWith, Token.isBar]

theorem parseargs_nil {s : List UInt8} (h : tokens s = []) (fuel : Nat) (ret : Cmd) (argc : Nat) :
    parseargs (fuel + 1) ret argc s = endArgs ret argc [] := by
  simp [parseargs, peek_bar, h, startsWith, gettoken_nil ((tokens_skipWhitespace s).trans h)]

theorem parseargs_word {s : List UInt8} {w : Word} {ts : List Token}
    (h : tokens s = .word w :: ts) (fuel : Nat) {ret ret' : Cmd} {argc : Nat}
    (hret : ret.setArg argc (some w) = some ret') :
    ∃ s', parseargs (fuel + 1) ret argc s =
        (if maxArgs ≤ argc + 1 then .error .tooManyArgs
        else parseredirs fuel ret' s' >>= fun p => parseargs fuel p.1 (argc + 1) p.2) ∧
      tokens s' = ts ∧ s'.length < s.length := by
  have hskip := length_skipWhitespace s
  obtain ⟨s₁, h₁, ht₁, hlen₁⟩ := gettoken_cons ((tokens_skipWhitespace s).trans h)
  refine ⟨s₁, ?_, ht₁, by omega⟩
  have hstart : startsWith Token.isBar (tokens s) = false := by rw [h]; rfl
  simp only [parseargs, peek_bar, hstart, Bool.false_eq_true, if_false, h₁, hret]

theorem endArgs_wrapped (ws : List Word) (rs : List (RedirType × Word)) (s : List UInt8)
    (hws : ws.length < maxArgs) : endArgs (wrapped ws rs) ws.length s = .ok (wrapped ws rs, s) := by
  rw [endArgs, setArg_wrapped hws none ws ws (argvOf_set_none ws hws)]

/-- A run on bytes does what a run on tokens says, and leaves no more than `n` bytes. -/
def Agrees (n : Nat) (r : Except ParseError (Cmd × List UInt8)) :
    Except ParseError (Cmd × List Token) → Prop
  | .ok (cmd, ts) => ∃ s, r = .ok (cmd, s) ∧ tokens s = ts ∧ s.length ≤ n
  | .error e => r = .error e

theorem Agrees.mono {m n : Nat} (h : m ≤ n) {r : Except ParseError (Cmd × List UInt8)}
    {spec : Except ParseError (Cmd × List Token)} (ha : Agrees m r spec) : Agrees n r spec := by
  cases spec with
  | error e => exact ha
  | ok p =>
    obtain ⟨s, hr, hs, hlen⟩ := ha
    exact ⟨s, hr, hs, Nat.le_trans hlen h⟩

/-- The two loops of `parseexec` together, from any place in a command. -/
theorem parse_items (n : Nat) :
    ∀ (s : List UInt8) (ws : List Word) (rs : List (RedirType × Word)) (fuel₁ fuel₂ : Nat),
      s.length ≤ n → n < fuel₁ → n < fuel₂ → ws.length < maxArgs →
      Agrees s.length
        (parseredirs fuel₁ (wrapped ws rs) s >>= fun p => parseargs fuel₂ p.1 ws.length p.2)
        (itemsOf ws rs (tokens s)) := by
  induction n with
  | zero =>
    -- the induction is on a bound for the text that is left; the two amounts of fuel stay above it
    intro s ws rs fuel₁ fuel₂ hs h₁ h₂ hws
    obtain ⟨fuel₁, rfl⟩ : ∃ m, fuel₁ = m + 1 := ⟨fuel₁ - 1, by omega⟩
    obtain ⟨fuel₂, rfl⟩ : ∃ m, fuel₂ = m + 1 := ⟨fuel₂ - 1, by omega⟩
    obtain rfl : s = [] := List.length_eq_zero_iff.mp (by omega)
    rw [parseredirs_done rfl]
    change Agrees _ (parseargs _ _ _ _) _
    rw [parseargs_nil rfl, endArgs_wrapped ws rs [] hws]
    exact ⟨[], rfl, rfl, Nat.le_refl 0⟩
  | succ n ih =>
    intro s ws rs fuel₁ fuel₂ hs h₁ h₂ hws
    obtain ⟨fuel₁, rfl⟩ : ∃ m, fuel₁ = m + 1 := ⟨fuel₁ - 1, by omega⟩
    obtain ⟨fuel₂, rfl⟩ : ∃ m, fuel₂ = m + 1 := ⟨fuel₂ - 1, by omega⟩
    have hskip := length_skipWhitespace s
    have htok := tokens_skipWhitespace s
    match ht : tokens s with
    | [] =>
      rw [parseredirs_done (by rw [ht]; rfl)]
      change Agrees _ (parseargs _ _ _ _) _
      rw [parseargs_nil (htok.trans ht), endArgs_wrapped ws rs [] hws]
      exact ⟨[], rfl, rfl, Nat.zero_le _⟩
    | .bar :: ts =>
      -- a bar ends the arguments and is left for `parsepipe`
      rw [parseredirs_done (by rw [ht]; rfl)]
      change Agrees _ (parseargs _ _ _ _) _
      have hskip' := length_skipWhitespace (skipWhitespace s)
      rw [parseargs_bar (htok.trans ht), endArgs_wrapped ws rs _ hws]
      exact ⟨_, rfl, (tokens_skipWhitespace _).trans (htok.trans ht), by omega⟩
    | .redir type :: .word file :: ts =>
      obtain ⟨s', hs', ht', hlen⟩ := parseredirs_redir ht fuel₁ (wrapped ws rs)
      rw [hs', ← wrapped_concat, itemsOf, ← ht']
      exact (ih s' ws _ fuel₁ (fuel₂ + 1) (by omega) (by omega) (by omega) hws).mono (by omega)
    | .redir type :: [] =>
      rw [parseredirs_missing ht (by simp)]
      rfl
    | .redir type :: .bar :: ts =>
      rw [parseredirs_missing ht (by simp)]
      rfl
    | .redir type :: .redir type' :: ts =>
      rw [parseredirs_missing ht (by simp)]
      rfl
    | .word w :: ts =>
      rw [parseredirs_done (by rw [ht]; rfl)]
      change Agrees _ (parseargs _ _ _ _) _
      have hset := setArg_wrapped hws (some w) ws (ws ++ [w]) (argvOf_set ws w hws) rs
      obtain ⟨s', hs', ht', hlen⟩ := parseargs_word (htok.trans ht) fuel₂ hset
      rw [hs', itemsOf]
      -- a word too many is reported when it is read
      by_cases hfull : maxArgs ≤ ws.length + 1
      · rw [if_pos hfull, if_pos hfull]
        rfl
      · have hws' : (ws ++ [w]).length < maxArgs := by simp; omega
        have hrest := ih s' (ws ++ [w]) rs fuel₂ fuel₂ (by omega) (by omega) (by omega) hws'
        rw [List.length_append, List.length_singleton, ht'] at hrest
        rw [if_neg hfull, if_neg hfull]
        exact hrest.mono (by omega)

/-! ## Lines -/

/-- The words and the redirections of a command, in their order. -/
structure Command where
  items : List Item
  /-- One pointer of `argv` is left for the null at its end. -/
  argsFit : (wordsOf items).length < maxArgs

namespace Command

def words (c : Command) : List Word := wordsOf c.items

def redirs (c : Command) : List (RedirType × Word) := redirsOf c.items

def tokens (c : Command) : List Token := c.items.flatMap Item.tokens

/-- The `execcmd` with the words of the command, inside its redirections: later ones are further
    out. -/
def tree (c : Command) : Cmd := wrapped c.words c.redirs

end Command

/-- A line: commands with `|` between them. -/
inductive Line where
  | command (c : Command)
  | pipe (c : Command) (rest : Line)

namespace Line

def tokens : Line → List Token
  | command c => c.tokens
  | pipe c rest => c.tokens ++ .bar :: rest.tokens

def tree : Line → Cmd
  | command c => c.tree
  | pipe c rest => .pipe c.tree rest.tree

end Line

/-- Where a command ends: at the end of the line or at a `|`. -/
def CommandEnd (ts : List Token) : Prop := ts = [] ∨ ∃ ts', ts = .bar :: ts'

theorem itemsOf_append (items : List Item) {ts : List Token} (hts : CommandEnd ts) :
    ∀ (ws : List Word) (rs : List (RedirType × Word)),
      ws.length + (wordsOf items).length < maxArgs →
      itemsOf ws rs (items.flatMap Item.tokens ++ ts) =
        .ok (wrapped (ws ++ wordsOf items) (rs ++ redirsOf items), ts) := by
  induction items with
  | nil =>
    intro ws rs _
    obtain rfl | ⟨ts', rfl⟩ := hts <;> simp [itemsOf, wordsOf, redirsOf]
  | cons item items ih =>
    intro ws rs hfit
    cases item with
    | word w =>
      simp only [wordsOf, List.length_cons] at hfit
      have hmore : ¬ maxArgs ≤ ws.length + 1 := by omega
      have hrest := ih (ws ++ [w]) rs (by simp; omega)
      simpa [Item.tokens, itemsOf, hmore, wordsOf, redirsOf] using hrest
    | redir type file =>
      simpa [Item.tokens, itemsOf, wordsOf, redirsOf] using ih ws (rs ++ [(type, file)]) hfit

theorem itemsOf_ok {ws : List Word} {rs : List (RedirType × Word)} {ts ts' : List Token}
    {cmd : Cmd} (hws : ws.length < maxArgs) (h : itemsOf ws rs ts = .ok (cmd, ts')) :
    ∃ items : List Item, ts = items.flatMap Item.tokens ++ ts' ∧ CommandEnd ts' ∧
      ws.length + (wordsOf items).length < maxArgs ∧
      cmd = wrapped (ws ++ wordsOf items) (rs ++ redirsOf items) := by
  fun_induction itemsOf ws rs ts with
  | case1 ws rs =>
    cases h
    exact ⟨[], rfl, .inl rfl, hws, by simp [wordsOf, redirsOf]⟩
  | case2 ws rs ts =>
    cases h
    exact ⟨[], rfl, .inr ⟨ts, rfl⟩, hws, by simp [wordsOf, redirsOf]⟩
  | case3 ws rs w ts hfull => cases h
  | case4 ws rs w ts hmore ih =>
    have hlen : (ws ++ [w]).length = ws.length + 1 := by simp
    obtain ⟨items, hts, hend, hfit, hcmd⟩ := ih (by omega) h
    refine ⟨.word w :: items, by simp [hts, Item.tokens], hend, ?_, ?_⟩
    · rw [wordsOf, List.length_cons]
      omega
    · simpa [wordsOf, redirsOf] using hcmd
  | case5 ws rs type file ts ih =>
    obtain ⟨items, hts, hend, hfit, hcmd⟩ := ih hws h
    refine ⟨.redir type file :: items, by simp [hts, Item.tokens], hend, hfit, ?_⟩
    simpa [wordsOf, redirsOf] using hcmd
  | case6 => cases h

theorem itemsOf_error {ws : List Word} {rs : List (RedirType × Word)} {ts : List Token}
    {e : ParseError} (h : itemsOf ws rs ts = .error e) :
    e = .missingFile ∨ e = .tooManyArgs := by
  fun_induction itemsOf ws rs ts with
  | case1 | case2 => cases h
  | case3 ws rs w ts hfull =>
    cases h
    exact .inr rfl
  | case4 ws rs w ts hmore ih => exact ih h
  | case5 ws rs type file ts ih => exact ih h
  | case6 =>
    cases h
    exact .inl rfl

/-- `parseexec` reads one command. -/
theorem parseexec_agrees {s : List UInt8} {fuel : Nat} (h : s.length < fuel) :
    Agrees s.length (parseexec fuel s) (itemsOf [] [] (tokens s)) := by
  have hitems := parse_items s.length s [] [] fuel fuel (Nat.le_refl _) h h (by decide)
  rw [← execcmd_eq] at hitems
  exact hitems

theorem parsepipe_succ (fuel : Nat) (s : List UInt8) :
    parsepipe (fuel + 1) s = parseexec (fuel + 1) s >>= fun p =>
      if startsWith Token.isBar (tokens p.2) then
        parsepipe fuel (gettoken (skipWhitespace p.2)).2 >>= fun q => .ok (.pipe p.1 q.1, q.2)
      else .ok (p.1, skipWhitespace p.2) := by
  rw [parsepipe]
  simp only [peek_bar]

theorem parsepipe_line (line : Line) :
    ∀ (fuel : Nat) (s : List UInt8), s.length < fuel → tokens s = line.tokens →
      ∃ s', parsepipe fuel s = .ok (line.tree, s') ∧ tokens s' = [] := by
  induction line with
  | command c =>
    -- the items of one command use up the text
    intro fuel s hlt hs
    obtain ⟨fuel, rfl⟩ : ∃ m, fuel = m + 1 := ⟨fuel - 1, by omega⟩
    have hagrees := parseexec_agrees hlt
    have hitems := itemsOf_append c.items (.inl rfl : CommandEnd []) [] [] (by simpa using c.argsFit)
    rw [List.append_nil] at hitems
    rw [hs, Line.tokens, Command.tokens, hitems] at hagrees
    obtain ⟨s', hr, hs', -⟩ := hagrees
    refine ⟨skipWhitespace s', ?_, (tokens_skipWhitespace s').trans hs'⟩
    rw [parsepipe_succ, hr]
    change (if startsWith Token.isBar (tokens s') then _ else _) = _
    rw [hs', if_neg (by decide)]
    rfl
  | pipe c rest ih =>
    -- the items of the command stop at the bar, and the rest of the line follows it
    intro fuel s hlt hs
    obtain ⟨fuel, rfl⟩ : ∃ m, fuel = m + 1 := ⟨fuel - 1, by omega⟩
    have hagrees := parseexec_agrees hlt
    have hitems := itemsOf_append c.items (.inr ⟨rest.tokens, rfl⟩) [] [] (by simpa using c.argsFit)
    rw [hs, Line.tokens, Command.tokens, hitems] at hagrees
    obtain ⟨s', hr, hs', hle⟩ := hagrees
    have hskip := length_skipWhitespace s'
    obtain ⟨s₁, h₁, ht₁, hlt₁⟩ := gettoken_cons ((tokens_skipWhitespace s').trans hs')
    obtain ⟨s₂, h₂, ht₂⟩ := ih fuel s₁ (by omega) ht₁
    refine ⟨s₂, ?_, ht₂⟩
    rw [parsepipe_succ, hr]
    change (if startsWith Token.isBar (tokens s') then
      parsepipe fuel (gettoken (skipWhitespace s')).2 >>= _ else _) = _
    rw [hs', if_pos (startsWith_bar _), h₁, h₂]
    rfl

/-- Whatever `parsepipe` returns is the tree of a line, and it has read all of it. -/
theorem parsepipe_ok (fuel : Nat) :
    ∀ (s s' : List UInt8) (cmd : Cmd), s.length < fuel → parsepipe fuel s = .ok (cmd, s') →
      ∃ line : Line, tokens s = line.tokens ∧ cmd = line.tree ∧ tokens s' = [] := by
  induction fuel with
  | zero =>
    intro s s' cmd hlt
    exact absurd hlt (Nat.not_lt_zero _)
  | succ fuel ih =>
    intro s s' cmd hlt h
    rw [parsepipe_succ] at h
    obtain ⟨⟨left, s₁⟩, hr, h⟩ := Except.bind_eq_ok.mp h
    have hagrees := parseexec_agrees hlt
    cases hitems : itemsOf [] [] (tokens s) with
    | error e =>
      rw [hitems] at hagrees
      cases hagrees.symm.trans hr
    | ok p =>
      rw [hitems] at hagrees
      obtain ⟨s₁', hr', hs₁, hle⟩ := hagrees
      cases hr'.symm.trans hr
      obtain ⟨items, hts, hend, hfit, hcmd⟩ := itemsOf_ok (by decide) hitems
      let c : Command := ⟨items, by simpa using hfit⟩
      have hskip := length_skipWhitespace s₁
      obtain hnil | ⟨ts', hbar⟩ := hend
      · -- the command was the last one
        rw [hs₁, hnil] at h
        cases h
        refine ⟨.command c, ?_, hcmd, (tokens_skipWhitespace s₁).trans (hs₁.trans hnil)⟩
        rw [hts, hnil, List.append_nil]
        rfl
      · rw [hs₁, hbar] at h
        obtain ⟨s₂, h₂, ht₂, hlt₂⟩ :=
          gettoken_cons ((tokens_skipWhitespace s₁).trans (hs₁.trans hbar))
        rw [h₂] at h
        obtain ⟨⟨right, s₃⟩, hright, hq⟩ := Except.bind_eq_ok.mp h
        cases hq
        obtain ⟨rest, hrest, hright', hs₃⟩ := ih s₂ s₃ right (by omega) hright
        refine ⟨.pipe c rest, ?_, ?_, hs₃⟩
        · rw [hts, hbar, ← ht₂, hrest]
          rfl
        · rw [hcmd, hright']
          rfl

theorem parsepipe_error (fuel : Nat) :
    ∀ (s : List UInt8) (e : ParseError), s.length < fuel → parsepipe fuel s = .error e →
      e = .missingFile ∨ e = .tooManyArgs := by
  induction fuel with
  | zero =>
    intro s e hlt
    exact absurd hlt (Nat.not_lt_zero _)
  | succ fuel ih =>
    intro s e hlt h
    rw [parsepipe_succ] at h
    have hagrees := parseexec_agrees hlt
    -- an error comes from the first command, or after a bar from the rest
    cases hitems : itemsOf [] [] (tokens s) with
    | error e' =>
      rw [hitems] at hagrees
      rw [show parseexec (fuel + 1) s = .error e' from hagrees] at h
      cases h
      exact itemsOf_error hitems
    | ok p =>
      obtain ⟨left, ts⟩ := p
      rw [hitems] at hagrees
      obtain ⟨s₁, hr, hs₁, hle⟩ := hagrees
      have hskip := length_skipWhitespace s₁
      rw [hr] at h
      change (if startsWith Token.isBar (tokens s₁) then
        parsepipe fuel (gettoken (skipWhitespace s₁)).2 >>= _ else _) = _ at h
      match ht : tokens s₁ with
      | .bar :: ts' =>
        obtain ⟨s₂, h₂, -, hlt₂⟩ := gettoken_cons ((tokens_skipWhitespace s₁).trans ht)
        rw [ht, if_pos (startsWith_bar _), h₂] at h
        cases hright : parsepipe fuel s₂ with
        | error e' =>
          rw [hright] at h
          cases h
          exact ih s₂ e (by omega) hright
        | ok q =>
          rw [hright] at h
          cases h
      | [] => rw [ht] at h; cases h
      | .word _ :: _ => rw [ht] at h; cases h
      | .redir _ :: _ => rw [ht] at h; cases h

theorem skipWhitespace_of_tokens {s : List UInt8} (h : tokens s = []) : skipWhitespace s = [] := by
  obtain ⟨hs, -⟩ | ⟨c, s', t, -, -, ht⟩ | ⟨c, s', -, -, ht⟩ := skipWhitespace_cases s
  · exact hs
  · rw [h] at ht
    cases ht
  · rw [h] at ht
    cases ht

theorem peek_of_tokens {s : List UInt8} (h : tokens s = []) : (peek s []).2 = [] := by
  rw [peek, skipWhitespace_of_tokens h]

theorem parsecmd_line {buf : List UInt8} {line : Line}
    (h : tokens (cstring buf) = line.tokens) : parsecmd buf = .ok line.tree := by
  obtain ⟨s', hs', ht'⟩ := parsepipe_line line _ _ (Nat.lt_succ_self _) h
  rw [parsecmd, parseline, hs']
  change (if (peek s' []).2 ≠ [] then _ else _) = _
  rw [peek_of_tokens ht', if_neg (by simp)]

theorem parsecmd_ok {buf : List UInt8} {cmd : Cmd} (h : parsecmd buf = .ok cmd) :
    ∃ line : Line, tokens (cstring buf) = line.tokens ∧ cmd = line.tree := by
  rw [parsecmd, parseline] at h
  obtain ⟨⟨cmd', s'⟩, hs', h⟩ := Except.bind_eq_ok.mp h
  obtain ⟨line, hline, hcmd, ht'⟩ := parsepipe_ok _ _ _ _ (Nat.lt_succ_self _) hs'
  change (if (peek s' []).2 ≠ [] then _ else _) = _ at h
  rw [peek_of_tokens ht', if_neg (by simp)] at h
  cases h
  exact ⟨line, hline, hcmd⟩

/-- `parsecmd` returns a tree exactly for the lines of the grammar, and it is the tree of the
    line; for every other line it ends the process for a missing file or too many arguments. -/
theorem parsecmd_iff (buf : List UInt8) :
    (∀ cmd, parsecmd buf = .ok cmd ↔
      ∃ line : Line, tokens (cstring buf) = line.tokens ∧ cmd = line.tree) ∧
    ∀ e, parsecmd buf = .error e → e = .missingFile ∨ e = .tooManyArgs := by
  constructor
  · intro cmd
    constructor
    · exact parsecmd_ok
    · intro h
      obtain ⟨line, hline, rfl⟩ := h
      exact parsecmd_line hline
  · intro e h
    cases hparse : parsepipe ((cstring buf).length + 1) (cstring buf) with
    | error e' =>
      rw [parsecmd, parseline, hparse] at h
      cases h
      exact parsepipe_error _ _ _ (Nat.lt_succ_self _) hparse
    | ok p =>
      obtain ⟨cmd, s'⟩ := p
      obtain ⟨line, hline, -⟩ := parsepipe_ok _ _ _ _ (Nat.lt_succ_self _) hparse
      rw [parsecmd_line hline] at h
      cases h

example : parsecmd (chars ['a', '>', 'b', ' ', '|', 'c', '\n']) =
    .ok (.pipe (wrapped [chars ['a']] [(.output, chars ['b'])]) (wrapped [chars ['c']] [])) := by
  decide

end Shell
