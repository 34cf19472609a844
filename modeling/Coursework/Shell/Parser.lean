import Mathlib.Data.List.Basic

/-!
# The parser of the shell

`parsecmd` of the simplified xv6 shell (`sh.c`). The cursor `*ps` with the end `es` is the list
of the bytes from `*ps` to `es`, and `*s` is 0 at the end of it. The loops have fuel, and
`parsecmd` gives them one unit for each byte of the line and one more.
-/

namespace Shell

/-- `MAXARGS`. -/
def maxArgs : Nat := 10

/-- The bytes of a C string, without the 0 at its end. -/
abbrev Word := List UInt8

/-- The two types of a `redircmd`: `<` and `>`. -/
inductive RedirType where
  | input
  | output
  deriving DecidableEq, Repr

/-- `struct cmd`. In `argv` `none` is the null pointer. -/
inductive Cmd where
  | exec (argv : Vector (Option Word) maxArgs)
  | redir (cmd : Cmd) (file : Word) (type : RedirType)
  | pipe (left right : Cmd)
  deriving DecidableEq, Repr

/-- `cmd->argv[i] = w` of the `execcmd` that is at the bottom of the redirections. The write is
    out of bounds from `MAXARGS` on. -/
def Cmd.setArg (i : Nat) (w : Option Word) : Cmd → Option Cmd
  | exec argv => if h : i < maxArgs then some (exec (argv.set i w)) else none
  | redir cmd file type => (cmd.setArg i w).map fun cmd => redir cmd file type
  | pipe _ _ => none

def execcmd : Cmd := .exec (Vector.replicate maxArgs none)

/-! ## Tokens -/

/-- What `gettoken` finds, apart from the end of the line: `|`, `<` or `>`, or `a` with the word
    from `*q` to `*eq`. -/
inductive Token where
  | bar
  | redir (type : RedirType)
  | word (w : Word)
  deriving DecidableEq, Repr

/-- The bytes of these characters. -/
def chars (cs : List Char) : List UInt8 := cs.map Char.toUInt8

def whitespace : List UInt8 := chars [' ', '\t', '\r', '\n', '\x0b']

def symbols : List UInt8 := chars ['<', '|', '>']

/-- `strchr(whitespace, c)`. -/
def isWhitespace (c : UInt8) : Bool := whitespace.contains c

/-- `strchr(symbols, c)`. -/
def isSymbol (c : UInt8) : Bool := symbols.contains c

def skipWhitespace (s : List UInt8) : List UInt8 := s.dropWhile isWhitespace

/-- A byte that goes on with a word. -/
def inWord (c : UInt8) : Bool := !isWhitespace c && !isSymbol c

def gettoken (s : List UInt8) : Option Token × List UInt8 :=
  match skipWhitespace s with
  | [] => (none, [])
  | c :: s =>
    if c = '|'.toUInt8 then (some .bar, skipWhitespace s)
    else if c = '<'.toUInt8 then (some (.redir .input), skipWhitespace s)
    else if c = '>'.toUInt8 then (some (.redir .output), skipWhitespace s)
    else (some (.word ((c :: s).takeWhile inWord)), skipWhitespace ((c :: s).dropWhile inWord))

def peek (s : List UInt8) (toks : List UInt8) : Bool × List UInt8 :=
  match skipWhitespace s with
  | [] => (false, [])
  | c :: s => (toks.contains c, c :: s)

/-! ## Commands -/

/-- How the parser ends the process: its three messages, a write outside `argv`, and the loop
    that has used up its fuel. -/
inductive ParseError where
  | missingFile
  | syntaxError
  | tooManyArgs
  | leftovers
  | outOfBounds
  | outOfFuel
  deriving DecidableEq, Repr

def parseredirs : Nat → Cmd → List UInt8 → Except ParseError (Cmd × List UInt8)
  | 0, _, _ => .error .outOfFuel
  | fuel + 1, cmd, s =>
    let (found, s) := peek s (chars ['<', '>'])
    if found then
      let (tok, s) := gettoken s
      match gettoken s with
      | (some (.word file), s) =>
        match tok with
        | some (.redir type) => parseredirs fuel (.redir cmd file type) s
        | _ => parseredirs fuel cmd s
      | _ => .error .missingFile
    else .ok (cmd, s)

/-- `cmd->argv[argc] = 0` and the return from `parseexec`. -/
def endArgs (ret : Cmd) (argc : Nat) (s : List UInt8) : Except ParseError (Cmd × List UInt8) :=
  match ret.setArg argc none with
  | some ret => .ok (ret, s)
  | none => .error .outOfBounds

/-- The loop of `parseexec`. -/
def parseargs : Nat → Cmd → Nat → List UInt8 → Except ParseError (Cmd × List UInt8)
  | 0, _, _, _ => .error .outOfFuel
  | fuel + 1, ret, argc, s =>
    let (found, s) := peek s (chars ['|'])
    if found then endArgs ret argc s
    else
      match gettoken s with
      | (none, s) => endArgs ret argc s
      | (some (.word arg), s) =>
        match ret.setArg argc (some arg) with
        | none => .error .outOfBounds
        | some ret =>
          if maxArgs ≤ argc + 1 then .error .tooManyArgs
          else do
            let (ret, s) ← parseredirs fuel ret s
            parseargs fuel ret (argc + 1) s
      | _ => .error .syntaxError

def parseexec (fuel : Nat) (s : List UInt8) : Except ParseError (Cmd × List UInt8) := do
  let (ret, s) ← parseredirs fuel execcmd s
  parseargs fuel ret 0 s

def parsepipe : Nat → List UInt8 → Except ParseError (Cmd × List UInt8)
  | 0, _ => .error .outOfFuel
  | fuel + 1, s => do
    let (cmd, s) ← parseexec (fuel + 1) s
    let (found, s) := peek s (chars ['|'])
    if found then
      let (_, s) := gettoken s
      let (right, s) ← parsepipe fuel s
      .ok (.pipe cmd right, s)
    else .ok (cmd, s)

def parseline (fuel : Nat) (s : List UInt8) : Except ParseError (Cmd × List UInt8) :=
  parsepipe fuel s

/-- The bytes of a buffer up to the first 0. -/
def cstring (buf : List UInt8) : List UInt8 := buf.takeWhile (· != 0)

def parsecmd (buf : List UInt8) : Except ParseError Cmd := do
  let s := cstring buf
  let (cmd, s) ← parseline (s.length + 1) s
  let (_, s) := peek s []
  if s ≠ [] then .error .leftovers else .ok cmd

end Shell
