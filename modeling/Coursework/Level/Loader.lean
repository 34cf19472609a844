import Coursework.CStd.Stdio

/-!
# The level loader

`load_level` of `level.c`, with `skip_characters` and `tokenizer` of `util.c`. The room array, which
the source has on the stack of `load_level`, is a list of the rooms as they are when the function
returns. Where the source reads bytes that were never written, or reads or writes outside of its
arrays, the behaviour is undefined and the model stops. The two loops have a bound on their rounds,
and a call gives `none` when a loop has not ended within it.
-/

namespace Level

open CStd

/-- `direction`, in the order of the `enum`. -/
inductive Direction where
  | north
  | south
  | east
  | west
  | up
  | down
  deriving DecidableEq

/-- The number of a direction in the `enum`. -/
def Direction.toNat : Direction → Nat
  | north => 0
  | south => 1
  | east => 2
  | west => 3
  | up => 4
  | down => 5

/-- `flip_direction` -/
def flipDirection : Direction → Direction
  | .north => .south
  | .south => .north
  | .east => .west
  | .west => .east
  | .up => .down
  | .down => .up

/-- The macro of the source is `original ^ 1`, on the numbers of the `enum`. -/
example (d : Direction) : (flipDirection d).toNat = d.toNat ^^^ 1 := by cases d <;> rfl

/-- The bytes of these characters. -/
def ascii (cs : List Char) : List UInt8 := cs.map Char.toUInt8

/-- `direction_names` -/
def directionName : Direction → List UInt8
  | .north => ascii ['n', 'o', 'r', 't', 'h']
  | .south => ascii ['s', 'o', 'u', 't', 'h']
  | .east => ascii ['e', 'a', 's', 't']
  | .west => ascii ['w', 'e', 's', 't']
  | .up => ascii ['u', 'p']
  | .down => ascii ['d', 'o', 'w', 'n']

/-- `exit_t`; a destination is an index of the room array. -/
structure Exit where
  dest : Option Nat
  locked : Bool
  deriving DecidableEq

/-- `struct room`, as far as the loader sets it from the file. -/
structure Room where
  roomId : Nat
  description : Option (List UInt8)
  exits : Direction → Exit

/-- How `load_level` ends without a value. -/
inductive Stop where
  | exits
  | asserts
  | undefined
  deriving DecidableEq

/-- A value that is only there when the behaviour is defined. -/
def defined {α : Type} : Option α → Except Stop α
  | some a => .ok a
  | none => .error .undefined

/-! ## `util.c` -/

/-- `skip_characters`, on what has not been read. At the end of the file `c` becomes the byte 255,
    and `ungetc` takes that byte for the end of the file and does not put it back. -/
def skipCharacters (skipList : List UInt8) : List UInt8 → File
  | [] => ⟨[], true⟩
  | c :: rest =>
    if c ∈ skipList then skipCharacters skipList rest
    else if c = 255 then ⟨rest, false⟩
    else ⟨c :: rest, false⟩

/-- `tokenizer`: the words that it stores in `argv`. -/
def tokenizer (string delims : List UInt8) : List (List UInt8) := tokens delims string

/-! ## `level.c` -/

def whitespace : List UInt8 := ascii [' ', '\t', '\n']

def canGo : List UInt8 := ascii ['c', 'a', 'n', '-', 'g', 'o']

def cantGo : List UInt8 := ascii ['c', 'a', 'n', 't', '-', 'g', 'o']

/-- The file, what has been written of `buf`, and the room array. -/
structure State where
  file : File
  buf : List UInt8
  rooms : List Room

/-- A room as it is before the file says anything about it. -/
def emptyRoom (i : Nat) : Room := ⟨i, none, fun _ => ⟨none, false⟩⟩

/-- `fgets(buf, 256, levelfile)` -/
def State.fgets (s : State) : State :=
  { s with file := (CStd.fgets 255 s.file s.buf).1, buf := (CStd.fgets 255 s.file s.buf).2 }

/-- The part before the loops. -/
def header (content : List UInt8) : Except Stop State := do
  let s := State.fgets ⟨skipCharacters whitespace content, [], []⟩
  let line ← defined (cstring s.buf)
  let numRooms ← defined (atoi line)
  let file := skipCharacters whitespace s.file.rest
  -- the length of an array must be positive
  if numRooms ≤ 0 then throw .undefined
  let file := skipCharacters whitespace file.rest
  return ⟨file, s.buf, (List.range numRooms.toNat).map emptyRoom⟩

/-- The body of the first loop: `p1` ends up one past the first character after the digits that is
    not white space, and the copy from there loses its last two characters. -/
def describe (rooms : List Room) (buf : List UInt8) : Except Stop (List Room) :=
  let rmNum := buf.takeWhile isdigit
  match (buf.drop rmNum.length).dropWhile isspace with
  | [] => throw .undefined
  | _ :: p1 => do
    let text ← defined (cstring p1)
    -- `rmNum` has place for nine digits; a text of one character is cut before its start
    if rmNum.length ≤ 9 ∧ number rmNum < rooms.length ∧ 2 ≤ text.length then
      return rooms.modify (number rmNum) fun room =>
        { room with description := some (text.take (text.length - 2)) }
    else throw .undefined

/-- The `switch` over the first letter of the second word. -/
def direction (word : List UInt8) : Except Stop Direction :=
  match word.head? with
  | none => throw .undefined
  | some c =>
    if c = 'n'.toUInt8 then return .north
    else if c = 's'.toUInt8 then return .south
    else if c = 'e'.toUInt8 then return .east
    else if c = 'w'.toUInt8 then return .west
    else if c = 'u'.toUInt8 then return .up
    else if c = 'd'.toUInt8 then return .down
    else throw .asserts

/-- `atoi(word)` where it is an index of the room array. -/
def roomIndex (rooms : List Room) (word : List UInt8) : Except Stop Nat := do
  let i ← defined (atoi word)
  if 0 ≤ i ∧ i < rooms.length then return i.toNat
  else throw .undefined

/-- `room.exits[dir].dest = dest` -/
def Room.setDest (room : Room) (dir : Direction) (dest : Nat) : Room :=
  { room with exits := fun d =>
      if d = dir then { room.exits d with dest := some dest } else room.exits d }

/-- `room.exits[dir].locked = true` -/
def Room.lock (room : Room) (dir : Direction) : Room :=
  { room with exits := fun d =>
      if d = dir then { room.exits d with locked := true } else room.exits d }

/-- The two exits of a connection. -/
def link (rooms : List Room) (dir : Direction) (a b : Nat) (locked : Bool) : List Room :=
  let rooms := rooms.modify a fun room => room.setDest dir b
  let rooms := rooms.modify b fun room => room.setDest (flipDirection dir) a
  if locked then rooms.modify a fun room => room.lock dir else rooms

/-- The body of the second loop. -/
def connect (rooms : List Room) (buf : List UInt8) : Except Stop (List Room) := do
  let line ← defined (cstring buf)
  let words := tokenizer line whitespace
  if 32 < words.length then throw .undefined
  let kind ← defined words[0]?
  if kind ≠ canGo ∧ kind ≠ cantGo then throw .asserts
  let dir ← direction (← defined words[1]?)
  let a ← roomIndex rooms (← defined words[2]?)
  let b ← roomIndex rooms (← defined words[3]?)
  return link rooms dir a b (kind ≠ canGo)

/-- The loop over the descriptions, which ends at an empty line only. -/
def describeLoop : Nat → State → Option (Except Stop State)
  | 0, _ => none
  | fuel + 1, s =>
    let s := s.fgets
    match s.buf.head? with
    | none => some (throw .undefined)
    | some c =>
      if c = newline then some (return s)
      else
        match describe s.rooms s.buf with
        | .error e => some (throw e)
        | .ok rooms => describeLoop fuel { s with rooms := rooms }

/-- The loop over the connections, which ends at an empty line or with the file. -/
def connectLoop : Nat → State → Option (Except Stop (List Room))
  | 0, _ => none
  | fuel + 1, s =>
    let s := s.fgets
    match s.buf.head? with
    | none => some (throw .undefined)
    | some c =>
      if c = newline ∨ s.file.eof = true then some (return s.rooms)
      else
        match connect s.rooms s.buf with
        | .error e => some (throw e)
        | .ok rooms => connectLoop fuel { s with rooms := rooms }

/-- `load_level`; without a content the file cannot be opened. -/
def loadLevel (fuel : Nat) (content : Option (List UInt8)) : Option (Except Stop (List Room)) :=
  match content with
  | none => some (throw .exits)
  | some content =>
    match header content with
    | .error e => some (throw e)
    | .ok s =>
      match describeLoop fuel s with
      | none => none
      | some (.error e) => some (throw e)
      | some (.ok s) =>
        connectLoop fuel { s with file := skipCharacters whitespace s.file.rest }

end Level
