import Coursework.Nachos.Threads

/-!
# Communicator

`speak` and `listen` of `nachos.threads.Communicator`, one program point for each
statement, as a program for the threads of `Threads.lean`. `TCB.maxThreads` bounds the
number of threads, so the counter of speakers does not overflow.
-/

namespace Nachos

namespace Communicator

/-- The three conditions of `mylock`. -/
inductive Cond where
  | listeners
  | speakers
  | pairs
  deriving DecidableEq

/-- A call by a thread. -/
inductive Call where
  | speak (word : Int)
  | listen
  deriving DecidableEq

/-- History: `listen` call `listener` read the word that `speak` call `speaker` had put
    into `myword`. -/
structure Take where
  listener : Nat
  speaker : Nat
  word : Int
  deriving DecidableEq

/-- The fields of a communicator. The others are history: the calls that were made, in
    order and named by their position; the call that assigned `myword` last; the words
    that were taken; and the calls that have returned. -/
structure Fields where
  spoken : Bool := false
  myword : Int := 0
  numberOfSpeakers : Int := 0
  calls : List Call := []
  speaker : Nat := 0
  takes : List Take := []
  spoke : List Nat := []
  heard : List (Nat × Int) := []
  deriving DecidableEq

/-- The statements of `speak`. -/
inductive SpeakLine where
  | acquire
  /-- `while (spoken == true)` -/
  | whileSpoken
  /-- `numberOfSpeakers++` -/
  | countSpeaker
  /-- `speakers.sleep()` -/
  | sleepSpeaker
  /-- `numberOfSpeakers--` -/
  | uncountSpeaker
  /-- `this.myword = word` -/
  | setWord
  /-- `this.spoken = true` -/
  | setSpoken
  /-- `this.listeners.wake()` -/
  | wakeListener
  /-- `this.pairs.sleep()` -/
  | sleepPair
  | release
  | ret
  deriving DecidableEq

/-- The statements of `listen`. -/
inductive ListenLine where
  | acquire
  /-- `while (spoken == false)` -/
  | whileSilent
  /-- `listeners.sleep()` -/
  | sleepListener
  /-- `if (numberOfSpeakers == 0)` -/
  | ifNoSpeakers
  /-- `this.spoken = false` -/
  | clearSpoken
  /-- `int returnword = this.myword` -/
  | readWord
  /-- `this.pairs.wake()` -/
  | wakePair
  /-- `if(numberOfSpeakers>0)` -/
  | ifSpeakers
  /-- `this.spoken=false`, in that branch -/
  | clearSpokenAgain
  /-- `speakers.wake()` -/
  | wakeSpeaker
  | release
  | ret
  deriving DecidableEq

/-- A thread is outside the communicator, or at a statement of a call with its local
    variable. -/
inductive Point where
  | outside
  | speak (call : Nat) (word : Int) (line : SpeakLine)
  | listen (call : Nat) (returnword : Int) (line : ListenLine)
  deriving DecidableEq

/-- A statement. -/
abbrev Stmt := Mesa.Instr Unit Cond Point Fields

/-- `speak(word)`. -/
def speak (f : Fields) (call : Nat) (word : Int) : SpeakLine → Stmt
  | .acquire => .acquire () (.speak call word .whileSpoken)
  | .whileSpoken =>
    .act f (.speak call word (if f.spoken then .countSpeaker else .setWord))
  | .countSpeaker =>
    .act { f with numberOfSpeakers := f.numberOfSpeakers + 1 } (.speak call word .sleepSpeaker)
  | .sleepSpeaker => .sleep .speakers (.speak call word .uncountSpeaker)
  | .uncountSpeaker =>
    .act { f with numberOfSpeakers := f.numberOfSpeakers - 1 } (.speak call word .whileSpoken)
  | .setWord => .act { f with myword := word, speaker := call } (.speak call word .setSpoken)
  | .setSpoken => .act { f with spoken := true } (.speak call word .wakeListener)
  | .wakeListener => .wake .listeners (.speak call word .sleepPair)
  | .sleepPair => .sleep .pairs (.speak call word .release)
  | .release => .release () (.speak call word .ret)
  | .ret => .act { f with spoke := call :: f.spoke } .outside

/-- `listen()`. -/
def listen (f : Fields) (call : Nat) (returnword : Int) : ListenLine → Stmt
  | .acquire => .acquire () (.listen call returnword .whileSilent)
  | .whileSilent =>
    .act f (.listen call returnword (if f.spoken then .ifNoSpeakers else .sleepListener))
  | .sleepListener => .sleep .listeners (.listen call returnword .whileSilent)
  | .ifNoSpeakers =>
    .act f (.listen call returnword
      (if f.numberOfSpeakers = 0 then .clearSpoken else .readWord))
  | .clearSpoken => .act { f with spoken := false } (.listen call returnword .readWord)
  | .readWord =>
    .act { f with takes := ⟨call, f.speaker, f.myword⟩ :: f.takes } (.listen call f.myword .wakePair)
  | .wakePair => .wake .pairs (.listen call returnword .ifSpeakers)
  | .ifSpeakers =>
    .act f (.listen call returnword
      (if f.numberOfSpeakers > 0 then .clearSpokenAgain else .release))
  | .clearSpokenAgain => .act { f with spoken := false } (.listen call returnword .wakeSpeaker)
  | .wakeSpeaker => .wake .speakers (.listen call returnword .release)
  | .release => .release () (.listen call returnword .ret)
  | .ret => .act { f with heard := (call, returnword) :: f.heard } .outside

/-- A thread outside makes the call that is its input. -/
def enter (f : Fields) : Call → Stmt
  | .speak word =>
    .act { f with calls := f.calls ++ [.speak word] } (.speak f.calls.length word .acquire)
  | .listen => .act { f with calls := f.calls ++ [.listen] } (.listen f.calls.length 0 .acquire)

/-- The program of every thread. -/
def program (T : Type) : Mesa.Program T Unit Cond Point Fields Call where
  lockOf _ := ()
  instr _ point f call :=
    match point with
    | .outside => enter f call
    | .speak i word line => speak f i word line
    | .listen i returnword line => listen f i returnword line

/-- A new communicator, and all threads outside. -/
def init (T : Type) : Threads T Unit Cond Point Fields where
  shared := {}
  status _ := .ready .outside

end Communicator

end Nachos
