import Coursework.Nachos.Threads
import Coursework.Nachos.UserMemory

/-!
# Processes

`exec`, `exit` and `join` of `UserProcess`, one program point for each statement that
touches what processes share, as a program for the threads of `Threads.lean`. A process is
named by the number of processes made before it, and has one thread. Statements that only
a process's own thread can see the effect of are taken together: reading the arguments of
`exec`, closing files, and the searches of its own `children`.
-/

namespace Nachos

open UserProcess (writeVirtualMemory bytesFromInt)

/-- How a process ends: the `exit` system call, or an unhandled exception. An unknown
    system call ends it like an exception. -/
inductive Ending where
  | exit (status : BitVec 32)
  | fault
  deriving DecidableEq

/-- The argument of `handleExit`. -/
def Ending.status : Ending → BitVec 32
  | .exit status => status
  | .fault => -1

/-- `freeUserProcessBucket`. `source` is history: the process that made it. -/
structure Bucket where
  status : BitVec 32
  pid : BitVec 32
  source : Nat
  deriving DecidableEq

/-- The fields of a `UserProcess`; `forked` is set once its thread has been forked. The
    others are history: the process whose `exec` made it, whether that `exec` has assigned
    its `parent` field, how it ended, and whether it looked at its `parent` field before it
    was assigned. -/
structure UserProc where
  parent : Option Nat := none
  children : List Nat := []
  freeChildren : List Bucket := []
  pageTable : List TranslationEntry := []
  forked : Bool := false
  creator : Option Nat := none
  registered : Bool := false
  ending : Option Ending := none
  early : Bool := false
  deriving DecidableEq

/-- What the processes share. `globalPid` is the static field `global_pid`. It and
    `numActiveProcesses` are `int`s in the source, with the same values while fewer than `2^31`
    processes have been created. -/
structure Processes where
  process : Nat → UserProc := fun _ => {}
  globalPid : Nat := 0
  numActiveProcesses : Int := 0
  numPhysPages : Nat
  freePagesPool : List Nat
  memory : Nat → UInt8 := fun _ => 0

/-- The `pid` of a process: `global_pid` is an `int`. -/
def pidOf (p : Nat) : BitVec 32 := BitVec.ofNat 32 p

namespace Processes

/-- Assign to fields of process `p`. -/
def modify (f : Processes) (p : Nat) (g : UserProc → UserProc) : Processes :=
  { f with process := Function.update f.process p (g (f.process p)) }

/-- The locks: `UserKernel.numProcessLock`, and the `freeLock` of each process. -/
inductive LockId where
  | numProcessLock
  | freeLock (p : Nat)
  deriving DecidableEq

/-- The `freeCondition` of each process. -/
structure FreeCondition where
  process : Nat
  deriving DecidableEq

/-- An executable that `load` accepts: for each page of its sections, is it read-only? -/
structure Image where
  readOnly : List Bool
  deriving DecidableEq

/-- `numPages` after `load`: the sections, the stack and the page of arguments. -/
def Image.numPages (image : Image) : Nat := image.readOnly.length + stackPages + 1

/-- What a user program does next. An `exec` of no image is one that `load` refuses. -/
inductive Syscall where
  | exec (image : Option Image)
  | exit (status : BitVec 32)
  | join (pid statusAddress : BitVec 32)
  | fault
  deriving DecidableEq

/-- The statements of `handleExec`. The first four are those of the constructor. -/
inductive ExecLine where
  | acquireCount
  /-- `UserKernel.numActiveProcesses++` -/
  | increment
  | releaseCount
  /-- `this.pid=global_pid++` -/
  | assignPid
  /-- `load`, in `child.execute` -/
  | load
  /-- `new UThread(this).setName(name).fork()` -/
  | fork
  /-- `child.parent=this` -/
  | setParent
  /-- `this.children.add(child)` -/
  | addChild
  /-- `return child.pid` -/
  | ret
  | failAcquire
  /-- `UserKernel.numActiveProcesses--`, if `execute` failed -/
  | failDecrement
  | failRelease
  deriving DecidableEq

/-- The statements of `handleExit`. -/
inductive ExitLine where
  /-- `unloadSections()`, and closing the files -/
  | unload
  /-- `children.get(j).parent=null` -/
  | orphan (j : Nat)
  /-- `if(parent!=null)` -/
  | testParent
  /-- `this.parent.freeLock.acquire()` -/
  | acquireParent
  /-- `this.parent.freeChildren.add(bucket)` -/
  | addBucket
  /-- `this.parent.freeCondition.wake()` -/
  | wakeParent
  /-- `this.parent.freeLock.release()` -/
  | releaseParent
  | acquireCount
  /-- `UserKernel.numActiveProcesses--` -/
  | decrement
  /-- `if(UserKernel.numActiveProcesses==0)` -/
  | testLast
  | releaseCount
  deriving DecidableEq

/-- The statements of `handleJoin`. -/
inductive JoinLine where
  /-- the search of `children` -/
  | findChild
  /-- `freeLock.acquire()` -/
  | acquire
  /-- `foundFreeChild=searchFreeChildren(pid)` -/
  | search
  /-- `if(foundFreeChild==-2)` -/
  | test
  /-- `freeCondition.sleep()` -/
  | sleep
  /-- `freeLock.release()` -/
  | release
  /-- `this.children.remove(child)` -/
  | remove
  /-- the result, and the status -/
  | report
  deriving DecidableEq

/-- Where a thread is: in user mode, with the result of the last system call, or at a
    statement with its local variables. -/
inductive Point where
  | user (result : Option (BitVec 32))
  | exec (image : Option Image) (child : Nat) (line : ExecLine)
  | exit (status : BitVec 32) (line : ExitLine)
  | join (pid statusAddress : BitVec 32) (child : Nat) (foundFreeChild : BitVec 32)
      (line : JoinLine)
  | finished
  deriving DecidableEq

/-- A statement. -/
abbrev Stmt := Mesa.Instr LockId FreeCondition Point Processes

/-- `UserProcess.searchFreeChildren`. -/
def searchFreeChildren (freeChildren : List Bucket) (pid : BitVec 32) : BitVec 32 :=
  match freeChildren.find? (·.pid == pid) with
  | some buck => buck.status
  | none => -2

/-- `UserProcess.loadSections`: the page table, with the first frames of the pool. -/
def loadSections (image : Image) (freePagesPool : List Nat) : List TranslationEntry :=
  (freePagesPool.take image.numPages).mapIdx fun (i page : Nat) =>
    { vpn := i, ppn := page, valid := true, readOnly := image.readOnly.getD i false }

/-- `handleExec`, by process `p`. `child` is the new process once it has a `pid`. -/
def handleExec (f : Processes) (p : Nat) (image : Option Image) (child : Nat) : ExecLine → Stmt
  | .acquireCount => .acquire .numProcessLock (.exec image child .increment)
  | .increment =>
    .act { f with numActiveProcesses := f.numActiveProcesses + 1 } (.exec image child .releaseCount)
  | .releaseCount => .release .numProcessLock (.exec image child .assignPid)
  | .assignPid =>
    .act { f with
      process := Function.update f.process f.globalPid { creator := some p }
      globalPid := f.globalPid + 1 } (.exec image f.globalPid .load)
  | .load =>
    match image with
    | none => .act f (.exec image child .failAcquire)
    | some im =>
      if f.numPhysPages < im.numPages then .act f (.exec image child .failAcquire)
      -- `UserKernel.processWait.sleep()`
      else if f.freePagesPool.length < im.numPages then .stuck
      else
        .act { f.modify child fun c => { c with pageTable := loadSections im f.freePagesPool } with
          freePagesPool := f.freePagesPool.drop im.numPages } (.exec image child .fork)
  | .fork => .act (f.modify child fun c => { c with forked := true }) (.exec image child .setParent)
  | .setParent =>
    .act (f.modify child fun c => { c with parent := some p, registered := true })
      (.exec image child .addChild)
  | .addChild =>
    .act (f.modify p fun c => { c with children := c.children ++ [child] }) (.exec image child .ret)
  | .ret => .act f (.user (some (pidOf child)))
  | .failAcquire => .acquire .numProcessLock (.exec image child .failDecrement)
  | .failDecrement =>
    .act { f with numActiveProcesses := f.numActiveProcesses - 1 } (.exec image child .failRelease)
  | .failRelease => .release .numProcessLock (.user (some (-1)))

/-- `handleExit(status)`, by process `p`. The field `parent` is read again in every
    statement; where it has become null, the thread dies in a `NullPointerException`. -/
def handleExit (f : Processes) (p : Nat) (status : BitVec 32) : ExitLine → Stmt
  | .unload =>
    .act { f.modify p fun c => { c with pageTable := [] } with
      freePagesPool := f.freePagesPool ++ (f.process p).pageTable.map (·.ppn.toNat) }
      (.exit status (.orphan 0))
  | .orphan j =>
    match (f.process p).children[j]? with
    | some child =>
      .act (f.modify child fun c => { c with parent := none }) (.exit status (.orphan (j + 1)))
    | none => .act f (.exit status .testParent)
  | .testParent =>
    .act (f.modify p fun c => { c with early := c.creator.isSome && !c.registered })
      (.exit status (if (f.process p).parent.isSome then .acquireParent else .acquireCount))
  | .acquireParent =>
    match (f.process p).parent with
    | some q => .acquire (.freeLock q) (.exit status .addBucket)
    | none => .stuck
  | .addBucket =>
    match (f.process p).parent with
    | some q =>
      .act (f.modify q fun c => { c with freeChildren := c.freeChildren ++ [⟨status, pidOf p, p⟩] })
        (.exit status .wakeParent)
    | none => .stuck
  | .wakeParent =>
    match (f.process p).parent with
    | some q => .wake ⟨q⟩ (.exit status .releaseParent)
    | none => .stuck
  | .releaseParent =>
    match (f.process p).parent with
    | some q => .release (.freeLock q) (.exit status .acquireCount)
    | none => .stuck
  | .acquireCount => .acquire .numProcessLock (.exit status .decrement)
  | .decrement =>
    .act { f with numActiveProcesses := f.numActiveProcesses - 1 } (.exit status .testLast)
  -- `Kernel.kernel.terminate()` stops the machine
  | .testLast => if f.numActiveProcesses = 0 then .stuck else .act f (.exit status .releaseCount)
  | .releaseCount => .release .numProcessLock .finished

/-- `handleJoin(pid, statusAddress)`, by process `p`. -/
def handleJoin (f : Processes) (p : Nat) (pid statusAddress : BitVec 32) (child : Nat)
    (foundFreeChild : BitVec 32) : JoinLine → Stmt
  | .findChild =>
    match (f.process p).children.find? (pidOf · == pid) with
    | none => .act f (.user (some (-1)))
    | some child => .act f (.join pid statusAddress child foundFreeChild .acquire)
  | .acquire => .acquire (.freeLock p) (.join pid statusAddress child foundFreeChild .search)
  | .search =>
    .act f (.join pid statusAddress child (searchFreeChildren (f.process p).freeChildren pid) .test)
  | .test =>
    .act f (.join pid statusAddress child foundFreeChild
      (if foundFreeChild = -2 then .sleep else .release))
  | .sleep => .sleep ⟨p⟩ (.join pid statusAddress child foundFreeChild .search)
  | .release => .release (.freeLock p) (.join pid statusAddress child foundFreeChild .remove)
  | .remove =>
    .act (f.modify p fun c => { c with children := c.children.erase child })
      (.join pid statusAddress child foundFreeChild .report)
  | .report =>
    if foundFreeChild = -1 then .act f (.user (some 0))
    else
      match writeVirtualMemory f.numPhysPages (f.process p).pageTable f.memory
        statusAddress.toInt (bytesFromInt foundFreeChild) 0 4 with
      | .ok (_, memory) => .act { f with memory := memory } (.user (some 1))
      | .error _ => .stuck

/-- A system call, or an exception. -/
def handleSyscall (f : Processes) (p : Nat) : Syscall → Stmt
  | .exec image => .act f (.exec image 0 .acquireCount)
  | .exit status =>
    .act (f.modify p fun c => { c with ending := some (.exit status) }) (.exit status .unload)
  | .join pid statusAddress => .act f (.join pid statusAddress 0 0 .findChild)
  | .fault =>
    .act (f.modify p fun c => { c with ending := some .fault })
      (.exit Ending.fault.status .unload)

/-- The program of every process. A thread that has not been forked does not run. -/
def program : Mesa.Program Nat LockId FreeCondition Point Processes Syscall where
  lockOf c := .freeLock c.process
  instr p point f syscall :=
    match point with
    | .user _ => if (f.process p).forked then handleSyscall f p syscall else .stuck
    | .exec image child line => handleExec f p image child line
    | .exit status line => handleExit f p status line
    | .join pid statusAddress child found line => handleJoin f p pid statusAddress child found line
    | .finished => .stuck

/-- The threads of the processes. -/
abbrev System := Threads Nat LockId FreeCondition Point Processes

/-- `UserKernel.run`: the root process has been loaded and forked. The memory of the
    processor is one Java array. -/
def boot (numPhysPages : Nat) (image : Image) : Option System :=
  if numPhysPages * pageSize < 2 ^ 31 ∧ image.numPages ≤ numPhysPages then
    some {
      shared := {
        process := Function.update (fun _ => {}) 0
          { pageTable := loadSections image (List.range numPhysPages), forked := true }
        globalPid := 1
        numActiveProcesses := 1
        numPhysPages := numPhysPages
        freePagesPool := (List.range numPhysPages).drop image.numPages }
      status := fun _ => .ready (.user none) }
  else none

end Processes

end Nachos
