import Coursework.Shell.Parser

/-!
# Running a pipeline

`main` for one line of input and `runcmd` (`sh.c`) as processes that take system calls one at a
time. A pipe is the number of bytes in it. What the commands compute is left out: a command
writes, reads its input to the end and exits, and a `Behaviour` says how much it writes and when.
`pipe`, `fork`, `dup2` and `execv` succeed.
-/

namespace Shell

/-- How many bytes a command writes. `prints` is the line that `runcmd` prints before `execv`,
    `emits k` is what the command writes when it has read `k` bytes, and `closes k` what it
    writes when its input has ended after `k` bytes. -/
structure Behaviour where
  prints : Nat
  emits : Nat → Nat
  closes : Nat → Nat

/-- What a run depends on: the capacity of a pipe, the commands, and how many bytes a process
    reads where its input is no pipe. -/
structure Env where
  capacity : Nat
  behaviour : Nat → Behaviour
  input : Nat → Nat

/-- The three calls that connect a process to the pipe. -/
inductive Setup where
  | dup2
  | closeRead
  | closeWrite
  deriving DecidableEq, Repr

/-- What a command does after it has written: read the next byte, or exit. -/
inductive Next where
  | read (k : Nat)
  | exit
  deriving DecidableEq, Repr

/-- Where a process is. -/
inductive Code where
  /-- `main`, before `fork1`. -/
  | main (cmd : Cmd)
  | mainWait
  | runcmd (cmd : Cmd)
  /-- The pipe case of `runcmd`, after `pipe`. -/
  | fork (left right : Cmd)
  | child (next : Setup) (left : Cmd)
  | wait (right : Cmd)
  | parent (next : Setup) (right : Cmd)
  /-- A command that has `n` bytes to write. -/
  | command (n : Nat) (next : Next)
  | exited
  /-- Exited, and the parent has waited for it. -/
  | reaped
  deriving DecidableEq, Repr

namespace Code

def isExited : Code → Bool
  | exited => true
  | _ => false

def isReaped : Code → Bool
  | reaped => true
  | _ => false

def isLive (code : Code) : Bool := !code.isExited && !code.isReaped

end Code

/-- A process. `stdin`, `stdout` and the two variables `pipefd[0]` and `pipefd[1]` hold the pipe
    that the descriptor is an end of; `none` is a file, a terminal, or a closed descriptor. -/
structure Proc where
  code : Code
  stdin : Option Nat
  stdout : Option Nat
  readEnd : Option Nat
  writeEnd : Option Nat
  input : Nat
  parent : Option Nat
  deriving DecidableEq, Repr

/-- The processes by pid, and the number of bytes in each pipe. -/
structure State where
  procs : List Proc
  pipes : List Nat
  deriving DecidableEq, Repr

namespace State

def setProc (s : State) (pid : Nat) (p : Proc) : State :=
  { s with procs := s.procs.set pid p }

def bytes (s : State) (k : Nat) : Nat := s.pipes.getD k 0

def setBytes (s : State) (k n : Nat) : State := { s with pipes := s.pipes.set k n }

/-- Some process holds the end of the pipe that reads. -/
def hasReader (s : State) (k : Nat) : Bool :=
  s.procs.any fun p => p.code.isLive && (p.stdin == some k || p.readEnd == some k)

/-- Some process holds the end of the pipe that writes. -/
def hasWriter (s : State) (k : Nat) : Bool :=
  s.procs.any fun p => p.code.isLive && (p.stdout == some k || p.writeEnd == some k)

/-- The first child that has exited is reaped. -/
def reapChild (pid : Nat) : List Proc → Option (List Proc)
  | [] => none
  | q :: procs =>
    if q.parent == some pid && q.code.isExited then some ({ q with code := .reaped } :: procs)
    else (reapChild pid procs).map (q :: ·)

/-- `wait`: it blocks while there are children but none of them has exited. -/
def wait (s : State) (pid : Nat) (p : Proc) : Option State :=
  match reapChild pid s.procs with
  | some procs => some ({ s with procs }.setProc pid p)
  | none =>
    if s.procs.any fun q => q.parent == some pid && !q.code.isReaped then none
    else some (s.setProc pid p)

/-- A child that starts with the descriptors of its parent. -/
def fork (s : State) (pid : Nat) (p : Proc) (code : Code) : State :=
  { s.setProc pid p with procs := s.procs.set pid p ++ [{ p with code, parent := some pid }] }

/-- A byte is written. A process that writes to a pipe nobody reads is killed. -/
def write (E : Env) (s : State) (pid : Nat) (p : Proc) (code : Code) : Option State :=
  match p.stdout with
  | none => some (s.setProc pid { p with code })
  | some k =>
    if s.hasReader k then
      if s.bytes k < E.capacity then
        some ((s.setBytes k (s.bytes k + 1)).setProc pid { p with code })
      else none
    else some (s.setProc pid { p with code := .exited })

/-- A byte is read, or the end of the input is found. -/
def read (s : State) (pid : Nat) (p : Proc) (code atEnd : Code) : Option State :=
  match p.stdin with
  | none =>
    if 0 < p.input then some (s.setProc pid { p with code, input := p.input - 1 })
    else some (s.setProc pid { p with code := atEnd })
  | some k =>
    if 0 < s.bytes k then some ((s.setBytes k (s.bytes k - 1)).setProc pid { p with code })
    else if s.hasWriter k then none
    else some (s.setProc pid { p with code := atEnd })

/-- `ecmd->argv[0] == 0`. -/
def noCommand (argv : Vector (Option Word) maxArgs) : Bool := argv[0].isNone

/-- The command that a process becomes. -/
def exec (E : Env) (pid : Nat) (argv : Vector (Option Word) maxArgs) : Code :=
  let b := E.behaviour pid
  if noCommand argv then .command b.prints .exit else .command (b.prints + b.emits 0) (.read 0)

/-- One system call of a process, unless it blocks. -/
def step (E : Env) (s : State) (pid : Nat) : Option State :=
  match s.procs[pid]? with
  | none => none
  | some p =>
    match p.code with
    | .main cmd => some (s.fork pid { p with code := .mainWait } (.runcmd cmd))
    | .mainWait => s.wait pid { p with code := .exited }
    | .runcmd (.exec argv) =>
      some (s.setProc pid { p with code := exec E pid argv, input := E.input pid })
    | .runcmd (.redir cmd _ .input) =>
      some (s.setProc pid { p with code := .runcmd cmd, stdin := none })
    | .runcmd (.redir cmd _ .output) =>
      some (s.setProc pid { p with code := .runcmd cmd, stdout := none })
    | .runcmd (.pipe left right) =>
      let k := s.pipes.length
      some ({ s with pipes := s.pipes ++ [0] }.setProc pid
        { p with code := .fork left right, readEnd := some k, writeEnd := some k })
    | .fork left right =>
      some (s.fork pid { p with code := .wait right } (.child .dup2 left))
    | .child .dup2 left =>
      some (s.setProc pid { p with code := .child .closeRead left, stdout := p.writeEnd })
    | .child .closeRead left =>
      some (s.setProc pid { p with code := .child .closeWrite left, readEnd := none })
    | .child .closeWrite left =>
      some (s.setProc pid { p with code := .runcmd left, writeEnd := none })
    | .wait right => s.wait pid { p with code := .parent .dup2 right }
    | .parent .dup2 right =>
      some (s.setProc pid { p with code := .parent .closeRead right, stdin := p.readEnd })
    | .parent .closeRead right =>
      some (s.setProc pid { p with code := .parent .closeWrite right, readEnd := none })
    | .parent .closeWrite right =>
      some (s.setProc pid { p with code := .runcmd right, writeEnd := none })
    | .command (n + 1) next => s.write E pid p (.command n next)
    | .command 0 (.read k) =>
      s.read pid p (.command ((E.behaviour pid).emits (k + 1)) (.read (k + 1)))
        (.command ((E.behaviour pid).closes k) .exit)
    | .command 0 .exit => some (s.setProc pid { p with code := .exited })
    | .exited => none
    | .reaped => none

/-- The shell has read a line and parsed it. -/
def start (cmd : Cmd) : State := ⟨[⟨.main cmd, none, none, none, none, 0, none⟩], []⟩

/-- The states that some order of the steps leads to. -/
def run (E : Env) (s : State) (order : List Nat) : Option State := order.foldlM (step E) s

/-- All processes have exited. -/
def AllExited (s : State) : Prop := ∀ p ∈ s.procs, p.code.isLive = false

/-- No process can take a step, and not all have exited. -/
def Stuck (E : Env) (s : State) : Prop := (∀ pid, s.step E pid = none) ∧ ¬ s.AllExited

end State

end Shell
