import Coursework.Nachos.Conditions
import Coursework.Nachos.Machine

/-!
# The pool of physical pages

`loadSections` and `unloadSections` of `UserProcess`, statement by statement, with what `load`
does around them, for processes that `exec` and `exit` in any order. `UserKernel.pageLock` and
`UserKernel.processWait` are the lock and the condition of `Conditions.lean`: a thread is either
in one of their methods or at one of the statements here. Statements that only one thread can
see the effect of are taken together.
-/

namespace Nachos

open Conditions (Method)

namespace UserKernel

/-- Why a thread does not take a step. All but the first stop the machine. -/
inductive Stop where
  /-- The thread waits in a method of the lock or the condition, fails one of their
      assertions, or does not run. -/
  | blocked
  /-- A failed `Lib.assertTrue`. -/
  | assertion
  /-- A Java `NoSuchElementException`, of `LinkedList.removeFirst()`. -/
  | noSuchElement
  /-- A Java `NegativeArraySizeException`. -/
  | negativeArraySize
  /-- A Java `ArrayIndexOutOfBoundsException`. -/
  | indexOutOfBounds
  /-- A Java `NullPointerException`. -/
  | nullPointer
  deriving DecidableEq

/-- What `load` asks a `CoffSection`. The length of a section with no bytes in the file is only
    bounded by its 32 bits, and `Lib.divRoundUp` can overflow. -/
structure Section where
  firstVPN : Int
  length : Int
  readOnly : Bool
  deriving DecidableEq

/-- The arguments of `load`: the sections, if the file could be opened and is a COFF, and the
    strings in `args`, some of which may be null. -/
structure Executable where
  sections : Option (List Section)
  args : List (Option (List UInt8))
  deriving DecidableEq

/-- A page table: an array with null entries. -/
abbrev PageTable := List (Option TranslationEntry)

/-- How far a process has come. This is history. -/
inductive Stage where
  /-- It has no pages yet, or not all of them, or `load` has refused it. -/
  | new
  /-- `loadSections` has filled its page table. -/
  | allocated
  /-- `load` has returned true. -/
  | loaded
  /-- Its thread has been forked. -/
  | running
  /-- `unloadSections` has given back its pages. -/
  | exited
  deriving DecidableEq

/-- The fields of a `UserProcess`. -/
structure Process where
  coff : List Section := []
  numPages : Int := 0
  pageTable : PageTable := []
  stage : Stage := .new
  deriving DecidableEq

/-- What the processes share. A process is named by the number of processes made before it. -/
structure Pages where
  numPhysPages : Nat
  freePagesPool : List Int
  process : Nat → Process := fun _ => {}
  created : Nat := 0

/-- The thread of `UserKernel.run`, and the thread of each process. -/
inductive Thread where
  | main
  | process (p : Nat)
  deriving DecidableEq

/-- The statements of `load` and `loadSections`, and of `execute` after them. -/
inductive LoadLine where
  /-- `load`, up to the call of `loadSections` -/
  | readCoff
  /-- `if (numPages > Machine.processor().getNumPhysPages())` -/
  | testMemory
  /-- `UserKernel.pageLock.acquire()` -/
  | acquire
  /-- `while(numPages>UserKernel.freePagesPool.size())` -/
  | testPool
  /-- `UserKernel.processWait.sleep()` -/
  | sleep
  /-- `pageTable = new TranslationEntry[numPages]` -/
  | newTable
  /-- The loop that fills the page table, at its test. -/
  | takePage (i : Nat)
  /-- `UserKernel.pageLock.release()` -/
  | release
  /-- The loop over the sections, the arguments, and `return true`. -/
  | copySections
  /-- `new UThread(this).setName(name).fork()` -/
  | fork
  deriving DecidableEq

/-- The statements of `unloadSections`, called by `handleExit`. -/
inductive ExitLine where
  /-- `UserKernel.pageLock.acquire()` -/
  | acquire
  /-- The loop that gives back the pages, at its test. -/
  | freePage (i : Nat)
  /-- `UserKernel.processWait.wakeAll()` -/
  | wakeAll
  /-- `UserKernel.pageLock.release()` -/
  | release
  deriving DecidableEq

/-- Where a thread is. -/
inductive Point where
  /-- In user mode, or in `UserKernel.run` before `execute`. -/
  | user
  | load (executable : Executable) (child : Nat) (line : LoadLine)
  | exit (line : ExitLine)
  | finished
  deriving DecidableEq

/-- What a process does next that concerns its pages. -/
inductive Syscall where
  | exec (executable : Executable)
  /-- The `exit` system call, an unknown system call, or an exception. -/
  | exit
  deriving DecidableEq

/-- A statement: what it does to the processes, or the method it calls. -/
inductive Stmt where
  | act (pages : Pages) (next : Point)
  | call (method : Method) (next : Point)

namespace Pages

/-- Assign to fields of process `p`. -/
def modify (f : Pages) (p : Nat) (g : Process → Process) : Pages :=
  { f with process := Function.update f.process p (g (f.process p)) }

end Pages

/-- The loop of `load` over the sections: `numPages`, or none for a fragmented executable. -/
def sectionPages : List Section → Int → Option Int
  | [], numPages => some numPages
  | s :: rest, numPages =>
    if s.firstVPN ≠ numPages then none else sectionPages rest (wrap32 (numPages + s.length))

/-- The loop of `load` over the arguments: `argsSize`. -/
def argsSize : List (Option (List UInt8)) → Int → Except Stop Int
  | [], size => .ok size
  | none :: _, _ => .error .nullPointer
  | some arg :: rest, size => argsSize rest (wrap32 (size + (4 + arg.length + 1)))

/-- `load` up to the call of `loadSections`: the fields `coff` and `numPages`, or none where it
    returns false. -/
def load (executable : Executable) : Except Stop (Option (List Section × Int)) :=
  match executable.sections with
  | none => .ok none
  | some sections =>
    match sectionPages sections 0 with
    | none => .ok none
    | some numPages => do
      let size ← argsSize executable.args 0
      if (pageSize : Int) < size then return none
      else return some (sections, wrap32 (wrap32 (numPages + stackPages) + 1))

/-- `pageTable[vpn].readOnly = readOnly`. -/
def setReadOnly (readOnly : Bool) (pageTable : PageTable) (vpn : Int) : Except Stop PageTable :=
  if vpn < 0 then .error .indexOutOfBounds
  else
    match pageTable[vpn.toNat]? with
    | none => .error .indexOutOfBounds
    | some none => .error .nullPointer
    | some (some entry) => .ok (pageTable.set vpn.toNat (some { entry with readOnly := readOnly }))

/-- The loop of `loadSections` over the pages of one section. -/
def copySection (pageTable : PageTable) (s : Section) : Except Stop PageTable :=
  (List.range s.length.toNat).foldlM
    (fun (table : PageTable) (i : Nat) => setReadOnly s.readOnly table (wrap32 (s.firstVPN + i)))
    pageTable

/-- `execute` returns false: the `exec` system call returns `-1`, and `UserKernel.run` asserts
    that this does not happen. -/
def refuse (f : Pages) : Thread → Except Stop Stmt
  | .main => .error .assertion
  | .process _ => .ok (.act f .user)

/-- Where the thread goes on after `execute`. -/
def afterExecute : Thread → Point
  | .main => .finished
  | .process _ => .user

/-- `execute` of process `child`, by thread `t`. -/
def execute (f : Pages) (t : Thread) (executable : Executable) (child : Nat) :
    LoadLine → Except Stop Stmt
  | .readCoff => do
    match ← load executable with
    | none => refuse f t
    | some (coff, numPages) =>
      return .act (f.modify child fun c => { c with coff := coff, numPages := numPages })
        (.load executable child .testMemory)
  | .testMemory =>
    if (f.numPhysPages : Int) < (f.process child).numPages then refuse f t
    else .ok (.act f (.load executable child .acquire))
  | .acquire => .ok (.call .acquire (.load executable child .testPool))
  | .testPool =>
    .ok (.act f (.load executable child
      (if (f.freePagesPool.length : Int) < (f.process child).numPages then .sleep else .newTable)))
  | .sleep => .ok (.call .sleep (.load executable child .testPool))
  | .newTable =>
    if (f.process child).numPages < 0 then .error .negativeArraySize
    else
      .ok (.act
        (f.modify child fun c => { c with pageTable := List.replicate c.numPages.toNat none })
        (.load executable child (.takePage 0)))
  | .takePage i =>
    if (i : Int) < (f.process child).numPages then
      match f.freePagesPool with
      | [] => .error .noSuchElement
      | page :: rest =>
        if i < (f.process child).pageTable.length then
          .ok (.act
            { f.modify child fun c =>
                { c with pageTable := c.pageTable.set i (some { vpn := i, ppn := page, valid := true }) }
              with freePagesPool := rest }
            (.load executable child (.takePage (i + 1))))
        else .error .indexOutOfBounds
    else
      .ok (.act (f.modify child fun c => { c with stage := .allocated })
        (.load executable child .release))
  | .release => .ok (.call .release (.load executable child .copySections))
  | .copySections => do
    let pageTable ← (f.process child).coff.foldlM copySection (f.process child).pageTable
    return .act (f.modify child fun c => { c with pageTable := pageTable, stage := .loaded })
      (.load executable child .fork)
  | .fork => .ok (.act (f.modify child fun c => { c with stage := .running }) (afterExecute t))

/-- `unloadSections` of process `p`, in `handleExit`. -/
def unloadSections (f : Pages) (p : Nat) : ExitLine → Except Stop Stmt
  | .acquire => .ok (.call .acquire (.exit (.freePage 0)))
  | .freePage i =>
    if (i : Int) < (f.process p).numPages then
      match (f.process p).pageTable[i]? with
      | none => .error .indexOutOfBounds
      | some none => .error .nullPointer
      | some (some entry) =>
        .ok (.act
          { f.modify p fun c => { c with pageTable := c.pageTable.set i none } with
            freePagesPool := f.freePagesPool ++ [entry.ppn] }
          (.exit (.freePage (i + 1))))
    else .ok (.act (f.modify p fun c => { c with stage := .exited }) (.exit .wakeAll))
  | .wakeAll => .ok (.call .wakeAll (.exit .release))
  | .release => .ok (.call .release .finished)

/-- A thread calls `newUserProcess` and `execute`. -/
def newUserProcess (f : Pages) (executable : Executable) : Stmt :=
  .act { f with process := Function.update f.process f.created {}, created := f.created + 1 }
    (.load executable f.created .readCoff)

/-- The statement at a point. `UserKernel.run` executes one program; a process makes system
    calls once its thread has been forked. -/
def statement (f : Pages) (t : Thread) (syscall : Syscall) : Point → Except Stop Stmt
  | .user =>
    match t, syscall with
    | .main, .exec executable => .ok (newUserProcess f executable)
    | .main, .exit => .error .blocked
    | .process p, .exec executable =>
      if (f.process p).stage = .running then .ok (newUserProcess f executable)
      else .error .blocked
    | .process p, .exit =>
      if (f.process p).stage = .running then .ok (.act f (.exit .acquire)) else .error .blocked
  | .load executable child line => execute f t executable child line
  | .exit line =>
    match t with
    | .main => .error .blocked
    | .process p => unloadSections f p line
  | .finished => .error .blocked

end UserKernel

open UserKernel in
/-- The kernel: `monitor` is `pageLock` with `processWait`. -/
structure UserKernel where
  pages : Pages
  monitor : Conditions.Monitor Thread := {}
  point : Thread → Point := fun _ => .user

namespace UserKernel

/-- The thread does what is left of a method, or calls one. -/
def advance (k : UserKernel) (t prefer : Thread) (method : Method) (next : Point) :
    Except Stop UserKernel :=
  match k.monitor.step .condition ⟨t, method, prefer⟩ with
  | none => .error .blocked
  | some monitor => .ok { k with monitor := monitor, point := Function.update k.point t next }

/-- One step of a thread. -/
def step (k : UserKernel) (choice : Choice Thread Syscall) : Except Stop UserKernel :=
  let t := choice.thread
  if k.monitor.status t = .client then do
    match ← statement k.pages t choice.input (k.point t) with
    | .act pages next =>
      return { k with pages := pages, point := Function.update k.point t next }
    | .call method next => k.advance t choice.prefer method next
  -- in a method already: which one it would call makes no difference
  else k.advance t choice.prefer .acquire (k.point t)

/-- Any interleaving of the threads: a sequence of steps. -/
def run (k : UserKernel) (choices : List (Choice Thread Syscall)) : Except Stop UserKernel :=
  choices.foldlM step k

/-- `UserKernel.initialize`, with `initFreePages`. -/
def boot (numPhysPages : Nat) : UserKernel where
  pages := {
    numPhysPages := numPhysPages
    freePagesPool := (List.range numPhysPages).map fun n : Nat => (n : Int) }

end UserKernel

end Nachos
