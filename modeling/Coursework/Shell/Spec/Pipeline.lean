import Coursework.Runs.Terminal
import Coursework.Shell.Pipeline
import Coursework.Shell.Spec.Grammar
import Mathlib.Algebra.GroupWithZero.Nat
import Mathlib.Data.Prod.Lex

/-!
# Which pipelines do not deadlock

The process that runs a pipeline waits for the command on the left before it connects itself to
the pipe, so nobody reads while that command writes. A pipeline comes to its end exactly when no
command but the last writes more than a pipe can hold.
-/

namespace Shell

/-- Redirections around an `execcmd`. -/
def Cmd.Simple : Cmd → Prop
  | exec _ => True
  | redir cmd _ _ => cmd.Simple
  | pipe _ _ => False

/-- The trees of the parser: pipes are nested to the right. -/
def Cmd.Pipeline : Cmd → Prop
  | pipe left right => left.Simple ∧ right.Pipeline
  | cmd => cmd.Simple

theorem Cmd.Simple.pipeline {cmd : Cmd} (h : cmd.Simple) : cmd.Pipeline := by
  cases cmd with
  | exec argv => exact h
  | redir cmd file type => exact h
  | pipe left right => exact h.elim

/-! ## How much the commands write -/

/-- What a command writes after it has read `k` bytes, when there are `n` more to read. -/
def Behaviour.drains (b : Behaviour) : Nat → Nat → Nat
  | k, 0 => b.closes k
  | k, n + 1 => b.emits (k + 1) + b.drains (k + 1) n

/-- All that a process writes from `exec` on, with `n` bytes to read. -/
def Env.output (E : Env) (pid n : Nat) (argv : Vector (Option Word) maxArgs) : Nat :=
  let b := E.behaviour pid
  if State.noCommand argv then b.prints else b.prints + b.emits 0 + b.drains 0 n

/-- The bytes that a command sends to its pipe. `source` is what waits in the pipe at its input,
    if there is one; `toPipe` says that its output is still the pipe. -/
def Env.sends (E : Env) (pid : Nat) : Option Nat → Bool → Cmd → Nat
  | source, toPipe, .exec argv =>
    if toPipe then E.output pid (source.getD (E.input pid)) argv else 0
  | _, toPipe, .redir cmd _ .input => E.sends pid none toPipe cmd
  | source, _, .redir cmd _ .output => E.sends pid source false cmd
  | _, _, .pipe _ _ => 0

/-- Every command but the last fits what it sends into a pipe. -/
def Env.Fits (E : Env) : Nat → Option Nat → Cmd → Prop
  | pid, source, .pipe left right =>
    E.sends pid source true left ≤ E.capacity ∧
      E.Fits (pid + 1) (some (E.sends pid source true left)) right
  | _, _, .exec _ => True
  | _, _, .redir _ _ _ => True

theorem Env.fits_of_simple (E : Env) {cmd : Cmd} (h : cmd.Simple) (pid : Nat)
    (source : Option Nat) : E.Fits pid source cmd := by
  cases cmd with
  | exec argv => exact trivial
  | redir cmd file type => exact trivial
  | pipe left right => exact h.elim

/-! ## The states of a run -/

/-- The bytes in the pipe that is a process's input. -/
def source (pipes : List Nat) (stdin : Option Nat) : Option Nat :=
  stdin.map fun k => pipes.getD k 0

/-- The input is the last pipe, if it is one. -/
def FromLast (pipes : List Nat) (stdin : Option Nat) : Prop :=
  ∀ k, stdin = some k → k + 1 = pipes.length

/-- What a command has still to write. -/
def Behaviour.left (b : Behaviour) (n available : Nat) : Next → Nat
  | .read k => n + b.drains k available
  | .exit => n

/-- The process that runs the pipeline while it has no child. -/
inductive Active (E : Env) (cmd₀ : Cmd) : List Nat → Nat → Proc → Prop
  | runcmd {pipes : List Nat} {stdin : Option Nat} {input : Nat} {cmd : Cmd}
      (hcmd : cmd.Pipeline) (hstdin : FromLast pipes stdin)
      (hfits : E.Fits 2 none cmd₀ ↔ E.Fits (pipes.length + 2) (source pipes stdin) cmd) :
      Active E cmd₀ pipes pipes.length ⟨.runcmd cmd, stdin, none, none, none, input, some 0⟩
  | fork {old : List Nat} {stdin : Option Nat} {input : Nat} {left right : Cmd}
      (hleft : left.Simple) (hright : right.Pipeline) (hstdin : FromLast old stdin)
      (hfits : E.Fits 2 none cmd₀ ↔
        E.Fits (old.length + 2) (source old stdin) (.pipe left right)) :
      Active E cmd₀ (old ++ [0]) old.length
        ⟨.fork left right, stdin, none, some old.length, some old.length, input, some 0⟩
  | parent {old : List Nat} {b : Nat} {next : Setup} {stdin : Option Nat} {input : Nat}
      {right : Cmd} (hright : right.Pipeline)
      (hstdin : next ≠ .dup2 → stdin = some old.length)
      (hfits : E.Fits 2 none cmd₀ ↔ E.Fits (old.length + 3) (some b) right) :
      Active E cmd₀ (old ++ [b]) (old.length + 1)
        ⟨.parent next right, stdin, none, if next = .closeWrite then none else some old.length,
          some old.length, input, some 0⟩
  | command {pipes : List Nat} {dead : Nat} {stdin : Option Nat} {input n : Nat} {next : Next}
      (hfits : E.Fits 2 none cmd₀) :
      Active E cmd₀ pipes dead ⟨.command n next, stdin, none, none, none, input, some 0⟩
  | exited {pipes : List Nat} {dead : Nat} {stdin : Option Nat} {input : Nat}
      (hfits : E.Fits 2 none cmd₀) :
      Active E cmd₀ pipes dead ⟨.exited, stdin, none, none, none, input, some 0⟩

/-- The command on the left of a `|`, with `b` bytes in its pipe, which will be `total`. -/
inductive Left (E : Env) (old : List Nat) (total : Nat) : Nat → Proc → Prop
  | child {next : Setup} {stdin : Option Nat} {input : Nat} {cmd : Cmd} (hcmd : cmd.Simple)
      (hstdin : FromLast old stdin)
      (htotal : total = E.sends (old.length + 2) (source old stdin) true cmd) :
      Left E old total 0
        ⟨.child next cmd, stdin, if next = .dup2 then none else some old.length,
          if next = .closeWrite then none else some old.length, some old.length, input, some 1⟩
  | runcmd {stdin : Option Nat} {input : Nat} {toPipe : Bool} {cmd : Cmd} (hcmd : cmd.Simple)
      (hstdin : FromLast old stdin)
      (htotal : total = E.sends (old.length + 2) (source old stdin) toPipe cmd) :
      Left E old total 0
        ⟨.runcmd cmd, stdin, if toPipe then some old.length else none, none, none, input, some 1⟩
  | command {b n : Nat} {next : Next} {stdin : Option Nat} {input : Nat} {toPipe : Bool}
      (hstdin : FromLast old stdin) (hb : b ≤ E.capacity)
      (htotal : total = b + if toPipe then (E.behaviour (old.length + 2)).left n
        ((source old stdin).getD input) next else 0) :
      Left E old total b
        ⟨.command n next, stdin, if toPipe then some old.length else none, none, none, input,
          some 1⟩
  | exited {stdin stdout : Option Nat} {input : Nat} (htotal : total ≤ E.capacity) :
      Left E old total total ⟨.exited, stdin, stdout, none, none, input, some 1⟩

/-- Commands that are done and waited for. -/
def Reaped (dead : List Proc) : Prop := ∀ q ∈ dead, q.code = .reaped ∧ q.parent = some 1

/-- The process of `main`. -/
def shellProc (code : Code) : Proc := ⟨code, none, none, none, none, 0, none⟩

/-- The states of a run. -/
inductive Stage (E : Env) (cmd₀ : Cmd) : State → Prop
  | start : Stage E cmd₀ (.start cmd₀)
  | active {p : Proc} {dead : List Proc} {pipes : List Nat} (hdead : Reaped dead)
      (hp : Active E cmd₀ pipes dead.length p) :
      Stage E cmd₀ ⟨shellProc .mainWait :: p :: dead, pipes⟩
  | left {c : Proc} {dead : List Proc} {old : List Nat} {b total : Nat} {stdin : Option Nat}
      {input : Nat} {right : Cmd} (hdead : Reaped dead) (hlength : dead.length = old.length)
      (hright : right.Pipeline) (hc : Left E old total b c)
      (hfits : E.Fits 2 none cmd₀ ↔
        total ≤ E.capacity ∧ E.Fits (old.length + 3) (some total) right) :
      Stage E cmd₀
        ⟨shellProc .mainWait ::
          ⟨.wait right, stdin, none, some old.length, some old.length, input, some 0⟩ ::
          (dead ++ [c]), old ++ [b]⟩
  | done {p : Proc} {dead : List Proc} {pipes : List Nat} (hp : p.code = .reaped)
      (hdead : Reaped dead) (hfits : E.Fits 2 none cmd₀) :
      Stage E cmd₀ ⟨shellProc .exited :: p :: dead, pipes⟩

/-! ## The measure -/

def Cmd.weight : Cmd → Nat
  | exec _ => 3
  | redir cmd _ _ => cmd.weight + 1
  | pipe left right => left.weight + right.weight + 12

def Setup.weight : Setup → Nat
  | dup2 => 3
  | closeRead => 2
  | closeWrite => 1

/-- Bounds the steps that lie before a process, reads and writes apart. -/
def Code.weight : Code → Nat
  | main cmd => cmd.weight + 2
  | mainWait => 1
  | runcmd cmd => cmd.weight
  | fork left right => left.weight + right.weight + 11
  | child next left => left.weight + next.weight
  | wait right => right.weight + 5
  | parent next right => right.weight + next.weight
  | command _ (.read _) => 2
  | command _ .exit => 1
  | exited => 0
  | reaped => 0

/-- The bytes that a command can still read. -/
def Proc.unread (pipes : List Nat) (p : Proc) : Nat :=
  match p.code with
  | .command _ (.read _) => (source pipes p.stdin).getD p.input
  | _ => 0

/-- The bytes that a command writes before it does anything else. -/
def Proc.unwritten (p : Proc) : Nat :=
  match p.code with
  | .command n _ => n
  | _ => 0

/-- Every step makes this smaller, the first part where it can. -/
def State.weight (s : State) : ℕ ×ₗ ℕ ×ₗ ℕ :=
  toLex ((s.procs.map fun p => p.code.weight).sum,
    toLex ((s.procs.map (Proc.unread s.pipes)).sum, (s.procs.map Proc.unwritten).sum))

theorem Code.weight_command (m n : Nat) (next : Next) :
    (command m next).weight = (command n next).weight := by
  cases next <;> rfl

/-- No process of these runs a command. -/
def Quiet (procs : List Proc) : Prop := ∀ q ∈ procs, ∀ n next, q.code ≠ .command n next

theorem Quiet.sum_eq_zero {procs : List Proc} (h : Quiet procs) (pipes : List Nat) :
    (procs.map (Proc.unread pipes)).sum = 0 ∧ (procs.map Proc.unwritten).sum = 0 := by
  induction procs with
  | nil => exact ⟨rfl, rfl⟩
  | cons q procs ih =>
    have hq := h q (List.mem_cons_self ..)
    have hread : q.unread pipes = 0 := by
      rw [Proc.unread]
      split
      · next n k hcode => exact absurd hcode (hq n (.read k))
      · rfl
    have hwrite : q.unwritten = 0 := by
      rw [Proc.unwritten]
      split
      · next n next hcode => exact absurd hcode (hq n next)
      · rfl
    have hrest := ih fun q' hq' => h q' (List.mem_cons_of_mem _ hq')
    simp [hread, hwrite, hrest]

theorem weight_lt_of_codes {procs procs' : List Proc} {pipes pipes' : List Nat}
    (h : (procs'.map fun p => p.code.weight).sum < (procs.map fun p => p.code.weight).sum) :
    (⟨procs', pipes'⟩ : State).weight < (⟨procs, pipes⟩ : State).weight :=
  Prod.Lex.toLex_lt_toLex.mpr (.inl h)

/-- A step to a code of less weight. -/
theorem weight_lt_of_code (pre : List Proc) {post : List Proc} {p p' : Proc}
    {pipes pipes' : List Nat} (h : p'.code.weight < p.code.weight) :
    (⟨pre ++ p' :: post, pipes'⟩ : State).weight < (⟨pre ++ p :: post, pipes⟩ : State).weight := by
  apply weight_lt_of_codes
  simpa using h

/-- A byte that is read or written. -/
theorem weight_lt_of_byte {pre post : List Proc} {p p' : Proc} {pipes pipes' : List Nat}
    (hpre : Quiet pre) (hpost : Quiet post) (hcode : p'.code.weight = p.code.weight)
    (h : p'.unread pipes' < p.unread pipes ∨
      p'.unread pipes' = p.unread pipes ∧ p'.unwritten < p.unwritten) :
    (⟨pre ++ p' :: post, pipes'⟩ : State).weight < (⟨pre ++ p :: post, pipes⟩ : State).weight := by
  apply Prod.Lex.toLex_lt_toLex.mpr
  right
  refine ⟨by simp [hcode], Prod.Lex.toLex_lt_toLex.mpr ?_⟩
  simpa [(hpre.sum_eq_zero _).1, (hpre.sum_eq_zero _).2, (hpost.sum_eq_zero _).1,
    (hpost.sum_eq_zero _).2] using h

/-! ## Reaped processes -/

theorem Reaped.quiet {dead : List Proc} (h : Reaped dead) : Quiet dead := by
  intro q hq n next hcode
  cases hcode.symm.trans (h q hq).1

theorem Reaped.any_eq_false {dead : List Proc} (h : Reaped dead) {f : Proc → Bool}
    (hf : ∀ q, q.code = .reaped → f q = false) : dead.any f = false := by
  rw [List.any_eq_false]
  intro q hq
  simp [hf q (h q hq).1]

theorem Reaped.reapChild_append {dead : List Proc} (h : Reaped dead) (pid : Nat)
    (procs : List Proc) :
    State.reapChild pid (dead ++ procs) = (State.reapChild pid procs).map (dead ++ ·) := by
  induction dead with
  | nil => simp
  | cons q dead ih =>
    have hq : q.code.isExited = false := by rw [(h q (List.mem_cons_self ..)).1]; rfl
    rw [List.cons_append, State.reapChild, hq, Bool.and_false, if_neg Bool.false_ne_true,
      ih fun q' hq' => h q' (List.mem_cons_of_mem _ hq'), Option.map_map]
    rfl

theorem Reaped.concat {dead : List Proc} (h : Reaped dead) {q : Proc} (hq : q.code = .reaped)
    (hparent : q.parent = some 1) : Reaped (dead ++ [q]) := by
  intro q' hq'
  obtain hq' | hq' := List.mem_append.mp hq'
  · exact h q' hq'
  · obtain rfl := List.mem_singleton.mp hq'
    exact ⟨hq, hparent⟩

theorem step_of_none {E : Env} {s : State} {pid : Nat} (h : s.procs[pid]? = none) :
    s.step E pid = none := by
  rw [State.step, h]

theorem step_of_reaped {E : Env} {s : State} {pid : Nat} {q : Proc} (h : s.procs[pid]? = some q)
    (hq : q.code = .reaped) : s.step E pid = none := by
  simp only [State.step, h, hq]

/-! ## A step of the process that runs the pipeline -/

theorem Stage.active_of {E : Env} {cmd₀ : Cmd} {p : Proc} {dead : List Proc} {pipes : List Nat}
    {n : Nat} (hdead : Reaped dead) (hn : dead.length = n) (hp : Active E cmd₀ pipes n p) :
    Stage E cmd₀ ⟨shellProc .mainWait :: p :: dead, pipes⟩ :=
  .active hdead (hn ▸ hp)

theorem getD_set_lt {pipes : List Nat} {k : Nat} (h : 0 < pipes.getD k 0) :
    (pipes.set k (pipes.getD k 0 - 1)).getD k 0 < pipes.getD k 0 := by
  have hk : k < pipes.length := by
    by_contra hk
    rw [List.getD_eq_getElem?_getD, List.getElem?_eq_none (Nat.le_of_not_lt hk)] at h
    exact Nat.lt_irrefl 0 h
  rw [List.getD_eq_getElem?_getD, List.getElem?_set_self hk, Option.getD_some]
  omega

theorem quiet_main : Quiet [shellProc .mainWait] := by
  intro q hq n next hcode
  obtain rfl := List.mem_singleton.mp hq
  cases hcode

/-- What a process that reads does. -/
theorem read_cases {s s' : State} {pid : Nat} {p : Proc} {code atEnd : Code}
    (h : s.read pid p code atEnd = some s') :
    (p.stdin = none ∧ 0 < p.input ∧
      s' = s.setProc pid { p with code, input := p.input - 1 }) ∨
    (∃ k, p.stdin = some k ∧ 0 < s.bytes k ∧
      s' = (s.setBytes k (s.bytes k - 1)).setProc pid { p with code }) ∨
    ((source s.pipes p.stdin).getD p.input = 0 ∧ s' = s.setProc pid { p with code := atEnd }) := by
  unfold State.read at h
  split at h
  · -- not from a pipe
    next hstdin =>
    split at h
    · next hinput =>
      cases h
      exact .inl ⟨hstdin, hinput, rfl⟩
    · next hinput =>
      cases h
      exact .inr (.inr ⟨by rw [hstdin]; exact Nat.eq_zero_of_not_pos hinput, rfl⟩)
  · -- from a pipe
    next k hstdin =>
    split at h
    · next hbytes =>
      cases h
      exact .inr (.inl ⟨k, hstdin, hbytes, rfl⟩)
    · next hbytes =>
      split at h
      · cases h
      · cases h
        exact .inr (.inr ⟨by rw [hstdin]; exact Nat.eq_zero_of_not_pos hbytes, rfl⟩)

theorem Active.step {E : Env} {cmd₀ : Cmd} {p : Proc} {dead : List Proc} {pipes : List Nat}
    {n : Nat} {s' : State} (hdead : Reaped dead) (hn : dead.length = n)
    (hp : Active E cmd₀ pipes n p)
    (hs : State.step E ⟨shellProc .mainWait :: p :: dead, pipes⟩ 1 = some s') :
    Stage E cmd₀ s' ∧
      s'.weight < (⟨shellProc .mainWait :: p :: dead, pipes⟩ : State).weight := by
  -- every step makes the code of one process lighter, or takes a byte that is left to read or write
  cases hp with
  | @runcmd _ stdin input cmd hcmd hstdin hfits =>
    cases cmd with
    | exec argv =>
      obtain rfl : _ = s' := Option.some.inj hs
      refine ⟨?_, weight_lt_of_code [_] ?_⟩
      · have hfits' := hfits.mpr trivial
        show Stage E cmd₀ ⟨shellProc .mainWait ::
          ⟨State.exec E 1 argv, stdin, none, none, none, E.input 1, some 0⟩ :: dead, pipes⟩
        rw [State.exec]
        split
        · exact .active hdead (.command hfits')
        · exact .active hdead (.command hfits')
      · show (State.exec E 1 argv).weight < 3
        rw [State.exec]
        split
        · exact (show 1 < 3 by decide)
        · exact (show 2 < 3 by decide)
    | redir cmd file type =>
      -- no pipe stands below a redirection, so there is none that has to hold what is written
      have hcmd' : cmd.Simple := hcmd
      have hfits' : E.Fits 2 none cmd₀ := hfits.mpr trivial
      cases type with
      | input =>
        obtain rfl : _ = s' := Option.some.inj hs
        refine ⟨.active_of hdead hn (.runcmd hcmd'.pipeline nofun ?_),
          weight_lt_of_code [_] (Nat.lt_succ_self _)⟩
        exact iff_of_true hfits' (E.fits_of_simple hcmd' _ _)
      | output =>
        obtain rfl : _ = s' := Option.some.inj hs
        refine ⟨.active_of hdead hn (.runcmd hcmd'.pipeline hstdin ?_),
          weight_lt_of_code [_] (Nat.lt_succ_self _)⟩
        exact iff_of_true hfits' (E.fits_of_simple hcmd' _ _)
    | pipe left right =>
      obtain rfl : _ = s' := Option.some.inj hs
      exact ⟨.active_of hdead hn (.fork hcmd.1 hcmd.2 hstdin hfits),
        weight_lt_of_code [_] (Nat.lt_succ_self _)⟩
  | @fork old stdin input left right hleft hright hstdin hfits =>
    -- the child takes the left side, and the parent keeps both ends of the pipe until it is over
    obtain rfl : _ = s' := Option.some.inj hs
    refine ⟨.left hdead hn hright (.child hleft hstdin rfl) hfits, ?_⟩
    apply weight_lt_of_codes
    change (List.map (fun p : Proc => p.code.weight)
      (shellProc .mainWait :: _ :: (dead ++ [_]))).sum < _
    simp [Code.weight, Setup.weight]
    omega
  | @parent old b next stdin input right hright hstdin hfits =>
    cases next with
    | dup2 =>
      obtain rfl : _ = s' := Option.some.inj hs
      exact ⟨.active_of hdead hn (.parent hright (fun _ => rfl) hfits),
        weight_lt_of_code [_] (Nat.lt_succ_self _)⟩
    | closeRead =>
      obtain rfl : _ = s' := Option.some.inj hs
      exact ⟨.active_of hdead hn
          (.parent hright (fun _ => hstdin nofun) hfits),
        weight_lt_of_code [_] (Nat.lt_succ_self _)⟩
    | closeWrite =>
      -- the last of the three calls of the parent, after which it runs the right side
      obtain rfl : _ = s' := Option.some.inj hs
      obtain rfl := hstdin nofun
      have hlength : dead.length = (old ++ [b]).length := by simpa using hn
      refine ⟨.active_of hdead hlength (.runcmd hright ?_ ?_),
        weight_lt_of_code [_] (Nat.lt_succ_self _)⟩
      · intro k hk
        cases hk
        simp
      · simpa [source] using hfits
  | @command _ _ stdin input n next hfits =>
    cases n with
    | succ n =>
      obtain rfl : _ = s' := Option.some.inj hs
      refine ⟨.active hdead (.command hfits), ?_⟩
      exact weight_lt_of_byte quiet_main hdead.quiet (Code.weight_command ..)
        (.inr ⟨by cases next <;> rfl, Nat.lt_succ_self n⟩)
    | zero =>
      cases next with
      | exit =>
        obtain rfl : _ = s' := Option.some.inj hs
        exact ⟨.active hdead (.exited hfits), weight_lt_of_code [_] (Nat.lt_succ_self _)⟩
      | read k =>
        obtain ⟨hstdin, hinput, rfl⟩ | ⟨j, hstdin, hbytes, rfl⟩ | ⟨-, rfl⟩ := read_cases hs
        · obtain rfl : stdin = none := hstdin
          refine ⟨.active hdead (.command hfits), ?_⟩
          exact weight_lt_of_byte quiet_main hdead.quiet rfl (.inl (Nat.sub_one_lt_of_lt hinput))
        · obtain rfl : stdin = some j := hstdin
          refine ⟨.active hdead (.command hfits), ?_⟩
          exact weight_lt_of_byte quiet_main hdead.quiet rfl (.inl (getD_set_lt hbytes))
        · exact ⟨.active hdead (.command hfits), weight_lt_of_code [_] (Nat.lt_succ_self _)⟩
  | exited hfits => cases hs

/-! ## A step of a command on the left -/

/-- The process that runs the pipeline while its child runs. -/
def waiting (k : Nat) (right : Cmd) (stdin : Option Nat) (input : Nat) : Proc :=
  ⟨.wait right, stdin, none, some k, some k, input, some 0⟩

section

variable {E : Env} {cmd₀ right : Cmd} {c : Proc} {dead : List Proc} {old : List Nat}
  {b total input₁ : Nat} {stdin₁ : Option Nat} {s' : State}

theorem setProc_left (hlength : dead.length = old.length) (w c' : Proc) (pipes : List Nat) :
    (⟨shellProc .mainWait :: w :: (dead ++ [c]), pipes⟩ : State).setProc (old.length + 2) c' =
      ⟨shellProc .mainWait :: w :: (dead ++ [c']), pipes⟩ := by
  rw [State.setProc, List.set_cons_succ, List.set_cons_succ, ← hlength]
  simp

theorem getElem?_left (hlength : dead.length = old.length) (w : Proc) :
    (shellProc .mainWait :: w :: (dead ++ [c]))[old.length + 2]? = some c := by
  rw [List.getElem?_cons_succ, List.getElem?_cons_succ, ← hlength]
  simp

theorem hasReader_left (k : Nat) (procs : List Proc) (pipes : List Nat) :
    (⟨shellProc .mainWait :: waiting k right stdin₁ input₁ :: procs, pipes⟩ : State).hasReader k =
      true := by
  simp [State.hasReader, waiting, Code.isLive, Code.isExited, Code.isReaped]

theorem bytes_last (procs : List Proc) (old : List Nat) (b : Nat) :
    (⟨procs, old ++ [b]⟩ : State).bytes old.length = b := by
  simp [State.bytes]

theorem setBytes_last (procs : List Proc) (old : List Nat) (b n : Nat) :
    (⟨procs, old ++ [b]⟩ : State).setBytes old.length n = ⟨procs, old ++ [n]⟩ := by
  simp [State.setBytes]

theorem left_succ (bh : Behaviour) (n available : Nat) (next : Next) :
    bh.left (n + 1) available next = bh.left n available next + 1 := by
  cases next with
  | read k =>
    rw [Behaviour.left, Behaviour.left]
    omega
  | exit => rfl

theorem source_append {stdin : Option Nat} (h : FromLast old stdin) (b : Nat) :
    source (old ++ [b]) stdin = source old stdin := by
  cases stdin with
  | none => rfl
  | some k =>
    have hk : k < old.length := Nat.lt_of_succ_le (Nat.le_of_eq (h k rfl))
    simp [source, List.getElem?_append_left hk]

theorem left_read (bh : Behaviour) (n k : Nat) :
    bh.left 0 (n + 1) (.read k) = bh.left (bh.emits (k + 1)) n (.read (k + 1)) := Nat.zero_add _

theorem left_end (bh : Behaviour) (n k : Nat) :
    bh.left 0 0 (.read k) = bh.left (bh.closes k) n .exit := Nat.zero_add _

/-- The last pipe is not the input of the command on the left. -/
theorem unread_last {m n : Nat} {next : Next}
    {stdin stdout stdout' readEnd writeEnd parent : Option Nat}
    {input b' : Nat} (h : FromLast old stdin) :
    Proc.unread (old ++ [b']) ⟨.command m next, stdin, stdout', readEnd, writeEnd, input, parent⟩ =
      Proc.unread (old ++ [b])
        ⟨.command n next, stdin, stdout, readEnd, writeEnd, input, parent⟩ := by
  cases next with
  | read k =>
    exact congrArg (Option.getD · input) ((source_append h b').trans (source_append h b).symm)
  | exit => rfl

theorem quiet_waiting (hdead : Reaped dead) {k : Nat} :
    Quiet (shellProc .mainWait :: waiting k right stdin₁ input₁ :: dead) := by
  intro q hq n next hcode
  obtain rfl | hq := List.mem_cons.mp hq
  · cases hcode
  · obtain rfl | hq := List.mem_cons.mp hq
    · cases hcode
    · exact hdead.quiet q hq n next hcode

theorem Left.step (hdead : Reaped dead) (hlength : dead.length = old.length)
    (hright : right.Pipeline) (hc : Left E old total b c)
    (hfits : E.Fits 2 none cmd₀ ↔
      total ≤ E.capacity ∧ E.Fits (old.length + 3) (some total) right)
    (hs : State.step E ⟨shellProc .mainWait :: waiting old.length right stdin₁ input₁ ::
      (dead ++ [c]), old ++ [b]⟩ (old.length + 2) = some s') :
    Stage E cmd₀ s' ∧
      s'.weight < (⟨shellProc .mainWait :: waiting old.length right stdin₁ input₁ ::
        (dead ++ [c]), old ++ [b]⟩ : State).weight := by
  have hquiet : Quiet (shellProc .mainWait :: waiting old.length right stdin₁ input₁ :: dead) :=
    quiet_waiting hdead
  rw [State.step, getElem?_left hlength] at hs
  cases hc with
  | @child next stdin input cmd hcmd hstdin htotal =>
    cases next with
    | dup2 =>
      obtain rfl := Option.some.inj hs
      rw [setProc_left hlength]
      exact ⟨.left hdead hlength hright (.child hcmd hstdin htotal) hfits,
        weight_lt_of_code (_ :: _ :: dead) (Nat.lt_succ_self _)⟩
    | closeRead =>
      obtain rfl := Option.some.inj hs
      rw [setProc_left hlength]
      exact ⟨.left hdead hlength hright (.child hcmd hstdin htotal) hfits,
        weight_lt_of_code (_ :: _ :: dead) (Nat.lt_succ_self _)⟩
    | closeWrite =>
      obtain rfl := Option.some.inj hs
      rw [setProc_left hlength]
      exact ⟨.left hdead hlength hright
        (@Left.runcmd E old total _ _ true _ hcmd hstdin htotal) hfits,
        weight_lt_of_code (_ :: _ :: dead) (Nat.lt_succ_self _)⟩
  | @runcmd stdin input toPipe cmd hcmd hstdin htotal =>
    cases cmd with
    | exec argv =>
      obtain rfl := Option.some.inj hs
      rw [setProc_left hlength]
      rw [Env.sends, Env.output] at htotal
      rw [State.exec]
      split
      · next hnull =>
        refine ⟨.left hdead hlength hright (.command hstdin (Nat.zero_le _) ?_) hfits,
          weight_lt_of_code (_ :: _ :: dead) (show 1 < 3 by decide)⟩
        rw [htotal, if_pos hnull, Nat.zero_add]
        rfl
      · next hargv =>
        refine ⟨.left hdead hlength hright (.command hstdin (Nat.zero_le _) ?_) hfits,
          weight_lt_of_code (_ :: _ :: dead) (show 2 < 3 by decide)⟩
        rw [htotal, if_neg hargv, Nat.zero_add]
        rfl
    | redir cmd file type =>
      cases type with
      | input =>
        obtain rfl := Option.some.inj hs
        rw [setProc_left hlength]
        exact ⟨.left hdead hlength hright
          (@Left.runcmd E old total _ _ _ cmd hcmd nofun htotal) hfits,
          weight_lt_of_code (_ :: _ :: dead) (Nat.lt_succ_self _)⟩
      | output =>
        obtain rfl := Option.some.inj hs
        rw [setProc_left hlength]
        exact ⟨.left hdead hlength hright
            (@Left.runcmd E old total _ _ false cmd hcmd hstdin htotal) hfits,
          weight_lt_of_code (_ :: _ :: dead) (Nat.lt_succ_self _)⟩
    | pipe left right => exact hcmd.elim
  | @command _ n next stdin input toPipe hstdin hb htotal =>
    cases n with
    | succ n =>
      cases toPipe with
      | false =>
        obtain rfl := Option.some.inj hs
        rw [setProc_left hlength]
        exact ⟨.left hdead hlength hright
            (@Left.command E old total b n next _ _ false hstdin hb htotal) hfits,
          weight_lt_of_byte hquiet nofun (Code.weight_command ..)
            (.inr ⟨by cases next <;> rfl, Nat.lt_succ_self n⟩)⟩
      | true =>
        change State.write E _ _ _ _ = some s' at hs
        simp only [State.write, if_true, hasReader_left, bytes_last] at hs
        split at hs
        · next hroom =>
          obtain rfl := Option.some.inj hs
          rw [setBytes_last, setProc_left hlength]
          have htotal' : total = b + 1 +
              (E.behaviour (old.length + 2)).left n ((source old stdin).getD input) next := by
            rw [htotal, if_pos rfl, left_succ]
            omega
          exact ⟨.left hdead hlength hright
              (@Left.command E old total (b + 1) n next _ _ true hstdin hroom htotal') hfits,
            weight_lt_of_byte hquiet nofun (Code.weight_command ..)
              (.inr ⟨unread_last hstdin, Nat.lt_succ_self n⟩)⟩
        · cases hs
    | zero =>
      cases next with
      | exit =>
        obtain rfl := Option.some.inj hs
        rw [setProc_left hlength]
        obtain rfl : total = b := by simpa [Behaviour.left] using htotal
        exact ⟨.left hdead hlength hright (.exited hb) hfits,
          weight_lt_of_code (_ :: _ :: dead) (Nat.lt_succ_self _)⟩
      | read k =>
        change State.read _ _ _ _ _ = some s' at hs
        obtain ⟨hnone, hinput, rfl⟩ | ⟨j, hsome, hbytes, rfl⟩ | ⟨hempty, rfl⟩ := read_cases hs
        · -- a byte of a file
          obtain rfl : stdin = none := hnone
          obtain ⟨m, rfl⟩ : ∃ m, input = m + 1 := ⟨input - 1, (Nat.succ_pred_eq_of_pos hinput).symm⟩
          rw [setProc_left hlength]
          refine ⟨.left hdead hlength hright
              (@Left.command E old total b _ (.read (k + 1)) none m toPipe hstdin hb ?_) hfits,
            weight_lt_of_byte hquiet nofun rfl (.inl (Nat.lt_succ_self m))⟩
          rw [htotal]
          cases toPipe with
          | true => exact congrArg (b + ·) (left_read ..)
          | false => rfl
        · -- a byte of the pipe before
          obtain rfl : stdin = some j := hsome
          have hj : j < old.length := Nat.lt_of_succ_le (Nat.le_of_eq (hstdin j rfl))
          have hget : (old ++ [b]).getD j 0 = old.getD j 0 := by
            simp [List.getElem?_append_left hj]
          rw [State.bytes, hget] at hbytes ⊢
          obtain ⟨m, hm⟩ : ∃ m, old.getD j 0 = m + 1 :=
            ⟨old.getD j 0 - 1, (Nat.succ_pred_eq_of_pos hbytes).symm⟩
          have hlen : (old.set j m).length = old.length := List.length_set
          have hm' : (old.set j m).getD j 0 = m := by simp [hj]
          rw [State.setBytes, setProc_left hlength, List.set_append_left _ _ hj, hm,
            Nat.add_sub_cancel]
          have htotal' : total = b + if toPipe then (E.behaviour ((old.set j m).length + 2)).left
              ((E.behaviour (old.length + 2)).emits (k + 1))
              ((source (old.set j m) (some j)).getD input) (.read (k + 1)) else 0 := by
            rw [htotal, hlen]
            cases toPipe with
            | true =>
              rw [source, source, Option.map_some, Option.map_some, hm, hm']
              exact congrArg (b + ·) (left_read ..)
            | false => rfl
          have hstage : Stage E cmd₀ ⟨shellProc .mainWait ::
              waiting (old.set j m).length right stdin₁ input₁ :: (dead ++ [_]),
              old.set j m ++ [b]⟩ :=
            .left hdead (hlength.trans hlen.symm) hright
              (.command (fun i hi => (hstdin i hi).trans hlen.symm) hb htotal') (by rwa [hlen])
          rw [hlen] at hstage
          refine ⟨hstage, weight_lt_of_byte hquiet nofun rfl (.inl ?_)⟩
          show (old.set j m ++ [b]).getD j 0 < (old ++ [b]).getD j 0
          have hget' : (old.set j m ++ [b]).getD j 0 = m := by
            simp [List.getElem?_append_left (hlen.symm ▸ hj), hj]
          rw [hget, hget', hm]
          exact Nat.lt_succ_self m
        · rw [source_append hstdin] at hempty
          rw [setProc_left hlength]
          refine ⟨.left hdead hlength hright
              (@Left.command E old total b _ .exit stdin input toPipe hstdin hb ?_) hfits,
            weight_lt_of_code (_ :: _ :: dead) (Nat.lt_succ_self _)⟩
          rw [htotal, hempty]
          cases toPipe with
          | true => exact congrArg (b + ·) (left_end _ 0 k)
          | false => rfl
  | exited htotal => cases hs

theorem Left.parent (hc : Left E old total b c) : c.parent = some 1 := by
  cases hc <;> rfl

theorem Left.isReaped (hc : Left E old total b c) : c.code.isReaped = false := by
  cases hc <;> rfl

theorem Left.exited_total (hc : Left E old total b c) (h : c.code.isExited = true) :
    total = b ∧ total ≤ E.capacity := by
  cases hc with
  | exited htotal => exact ⟨rfl, htotal⟩
  | child | runcmd | command => cases h

/-- The parent waits for its child, and then goes on. -/
theorem wait_eq (hdead : Reaped dead) (hparent : c.parent = some 1)
    (hreaped : c.code.isReaped = false) (k : Nat) (pipes : List Nat) :
    State.step E
        ⟨shellProc .mainWait :: waiting k right stdin₁ input₁ :: (dead ++ [c]), pipes⟩ 1 =
      if c.code.isExited then
        some ⟨shellProc .mainWait ::
          ⟨.parent .dup2 right, stdin₁, none, some k, some k, input₁, some 0⟩ ::
          (dead ++ [{ c with code := .reaped }]), pipes⟩
      else none := by
  have hreap : State.reapChild 1 (shellProc .mainWait ::
      waiting k right stdin₁ input₁ :: (dead ++ [c])) =
      if c.code.isExited then some (shellProc .mainWait ::
        waiting k right stdin₁ input₁ :: (dead ++ [{ c with code := .reaped }]))
      else none := by
    simp [State.reapChild, hdead.reapChild_append, shellProc, waiting, hparent]
  change State.wait _ _ _ = _
  rw [State.wait, hreap]
  cases hexit : c.code.isExited with
  | false =>
    -- the child is alive, and `wait` blocks
    have halive : (shellProc .mainWait :: waiting k right stdin₁ input₁ ::
        (dead ++ [c])).any (fun q => q.parent == some 1 && !q.code.isReaped) = true := by
      simp [hparent, hreaped]
    simp only [Bool.false_eq_true, if_false, halive, if_true]
  | true => rfl

theorem Left.wait (hdead : Reaped dead) (hlength : dead.length = old.length)
    (hright : right.Pipeline) (hc : Left E old total b c)
    (hfits : E.Fits 2 none cmd₀ ↔
      total ≤ E.capacity ∧ E.Fits (old.length + 3) (some total) right)
    (hs : State.step E ⟨shellProc .mainWait :: waiting old.length right stdin₁ input₁ ::
      (dead ++ [c]), old ++ [b]⟩ 1 = some s') :
    Stage E cmd₀ s' ∧
      s'.weight < (⟨shellProc .mainWait :: waiting old.length right stdin₁ input₁ ::
        (dead ++ [c]), old ++ [b]⟩ : State).weight := by
  rw [wait_eq hdead hc.parent hc.isReaped] at hs
  split at hs
  · -- the left side has exited, so all it wrote is in the pipe
    next hexit =>
    obtain rfl := Option.some.inj hs
    obtain ⟨htotal, hcap⟩ := hc.exited_total hexit
    have hlength' : (dead ++ [{ c with code := .reaped }]).length = old.length + 1 := by
      simp [hlength]
    have hdead' : Reaped (dead ++ [{ c with code := .reaped }]) := hdead.concat rfl hc.parent
    rw [← htotal]
    refine ⟨.active_of hdead' hlength' (@Active.parent E cmd₀ old total .dup2 stdin₁ input₁ right
      hright (fun h => absurd rfl h) ?_), ?_⟩
    · rw [hfits]
      exact and_iff_right hcap
    · apply weight_lt_of_codes
      simp [Code.weight, Setup.weight, waiting]
      omega
  · cases hs

/-! ## Runs -/

theorem Active.parent_eq {pipes : List Nat} {n : Nat} {p : Proc} (hp : Active E cmd₀ pipes n p) :
    p.parent = some 0 := by
  cases hp <;> rfl

theorem Active.isReaped {pipes : List Nat} {n : Nat} {p : Proc} (hp : Active E cmd₀ pipes n p) :
    p.code.isReaped = false := by
  cases hp <;> rfl

theorem Active.fits {pipes : List Nat} {n : Nat} {p : Proc} (hp : Active E cmd₀ pipes n p)
    (h : p.code.isExited = true) : E.Fits 2 none cmd₀ := by
  cases hp with
  | exited hfits => exact hfits
  | runcmd | fork | parent | command => cases h

/-- `main` waits for the process it has forked. -/
theorem mainWait_eq {p : Proc} {procs : List Proc} {pipes : List Nat} (hp : p.parent = some 0)
    (hreaped : p.code.isReaped = false) (hprocs : ∀ q ∈ procs, q.parent = some 1) :
    State.step E ⟨shellProc .mainWait :: p :: procs, pipes⟩ 0 =
      if p.code.isExited then
        some ⟨shellProc .exited :: { p with code := .reaped } :: procs, pipes⟩
      else none := by
  have hrest : State.reapChild 0 procs = none := by
    induction procs with
    | nil => rfl
    | cons q procs ih =>
      have hq := hprocs q (List.mem_cons_self ..)
      simp [State.reapChild, hq, ih fun q' hq' => hprocs q' (List.mem_cons_of_mem _ hq')]
  change State.wait _ _ _ = _
  cases hexit : p.code.isExited with
  | true =>
    simp [State.wait, State.reapChild, shellProc, hp, hexit, State.setProc]
  | false =>
    simp [State.wait, State.reapChild, shellProc, hp, hexit, hrest, hreaped]

theorem Reaped.parents {dead : List Proc} (h : Reaped dead) : ∀ q ∈ dead, q.parent = some 1 :=
  fun q hq => (h q hq).2

theorem Left.parents (hdead : Reaped dead) (hc : Left E old total b c) :
    ∀ q ∈ dead ++ [c], q.parent = some 1 := by
  intro q hq
  obtain hq | hq := List.mem_append.mp hq
  · exact (hdead q hq).2
  · obtain rfl := List.mem_singleton.mp hq
    exact hc.parent

/-- A pid of the commands that are done, or of no process. -/
theorem step_dead (hdead : Reaped dead) (m p : Proc) (pipes : List Nat) (n : Nat) :
    State.step E ⟨m :: p :: dead, pipes⟩ (n + 2) = none := by
  cases hget : dead[n]? with
  | none => exact step_of_none hget
  | some q => exact step_of_reaped hget (hdead q (List.mem_of_getElem? hget)).1

theorem step_beside (hdead : Reaped dead) {n : Nat} (hn : n ≠ dead.length) (m p : Proc)
    (pipes : List Nat) : State.step E ⟨m :: p :: (dead ++ [c]), pipes⟩ (n + 2) = none := by
  cases hget : (dead ++ [c])[n]? with
  | none => exact step_of_none hget
  | some q =>
    have hlt : n < (dead ++ [c]).length := (List.getElem?_eq_some_iff.mp hget).1
    rw [List.length_append, List.length_singleton] at hlt
    have hq : dead[n]? = some q := by
      rwa [List.getElem?_append_left (by omega)] at hget
    exact step_of_reaped hget (hdead q (List.mem_of_getElem? hq)).1

/-- Every step keeps the stages and makes the measure smaller. -/
theorem Stage.next (hcmd : cmd₀.Pipeline) (s : State) (pid : Nat) (s' : State)
    (h : Stage E cmd₀ s) (hs : s.step E pid = some s') :
    Stage E cmd₀ s' ∧ s'.weight < s.weight := by
  cases h with
  | start =>
    match pid with
    | 0 =>
      obtain rfl : _ = s' := Option.some.inj hs
      refine ⟨.active_of (List.forall_mem_nil _) rfl (.runcmd hcmd nofun Iff.rfl), ?_⟩
      apply weight_lt_of_codes
      change 1 + (cmd₀.weight + 0) < cmd₀.weight + 2 + 0
      omega
    | pid + 1 => cases hs
  | @active p dead pipes hdead hp =>
    -- process 0 is the shell, which moves when the command is over; process 1 runs the command; the
    -- others have exited
    match pid with
    | 0 =>
      rw [mainWait_eq hp.parent_eq hp.isReaped hdead.parents] at hs
      split at hs
      · next hexit =>
        obtain rfl := Option.some.inj hs
        refine ⟨.done rfl hdead (hp.fits hexit), ?_⟩
        apply weight_lt_of_codes
        simp [shellProc, Code.weight]
        omega
      · cases hs
    | 1 => exact hp.step hdead rfl hs
    | n + 2 => rw [step_dead hdead] at hs; cases hs
  | @left c dead old b total stdin input right hdead hlength hright hc hfits =>
    match pid with
    | 0 =>
      rw [mainWait_eq rfl rfl (hc.parents hdead), if_neg (by simp [Code.isExited])] at hs
      cases hs
    | 1 => exact hc.wait hdead hlength hright hfits hs
    | n + 2 =>
      -- the youngest process is the left side of the pipe, the others have exited
      by_cases hn : n = old.length
      · subst hn
        exact hc.step hdead hlength hright hfits hs
      · rw [step_beside hdead (hlength ▸ hn)] at hs
        cases hs
  | @done p dead pipes hp hdead hfits =>
    match pid with
    | 0 => cases hs
    | 1 => rw [@step_of_reaped E _ 1 p rfl hp] at hs; cases hs
    | n + 2 => rw [step_dead hdead] at hs; cases hs

/-- A process can go on when it has a byte to read or nobody can write to its input. -/
theorem read_goesOn (s : State) (pid : Nat) (p : Proc) (code atEnd : Code)
    (h : ∀ k, p.stdin = some k → s.hasWriter k = false) :
    ∃ s', s.read pid p code atEnd = some s' := by
  unfold State.read
  split
  · split <;> exact ⟨_, rfl⟩
  · next k hk =>
    rw [h k hk]
    split <;> exact ⟨_, rfl⟩

theorem Active.goesOn {pipes : List Nat} {n : Nat} {p : Proc} (hdead : Reaped dead)
    (hp : Active E cmd₀ pipes n p) (h : p.code.isExited = false) :
    ∃ s', State.step E ⟨shellProc .mainWait :: p :: dead, pipes⟩ 1 = some s' := by
  cases hp with
  | @runcmd _ stdin input cmd hcmd hstdin hfits =>
    cases cmd with
    | exec argv => exact ⟨_, rfl⟩
    | redir cmd file type => cases type <;> exact ⟨_, rfl⟩
    | pipe left right => exact ⟨_, rfl⟩
  | fork hleft hright hstdin hfits => exact ⟨_, rfl⟩
  | @parent old b next stdin input right hright hstdin hfits => cases next <;> exact ⟨_, rfl⟩
  | @command _ _ stdin input n next hfits =>
    match n, next with
    | n + 1, next => exact ⟨_, rfl⟩
    | 0, .exit => exact ⟨_, rfl⟩
    | 0, .read k =>
      apply read_goesOn
      intro k _
      have hwriters := hdead.any_eq_false
        (f := fun q => q.code.isLive && (q.stdout == some k || q.writeEnd == some k))
        (fun q hq => by rw [hq]; rfl)
      simpa [State.hasWriter, shellProc] using hwriters
  | exited hfits => cases h

/-- A command on the left that cannot go on has filled its pipe and has more to write. -/
theorem Left.stopped (hdead : Reaped dead) (hlength : dead.length = old.length)
    (hc : Left E old total b c) (h : c.code.isExited = false)
    (hs : State.step E ⟨shellProc .mainWait :: waiting old.length right stdin₁ input₁ ::
      (dead ++ [c]), old ++ [b]⟩ (old.length + 2) = none) : E.capacity < total := by
  rw [State.step, getElem?_left hlength] at hs
  cases hc with
  | @child next stdin input cmd hcmd hstdin htotal => cases next <;> cases hs
  | @runcmd stdin input toPipe cmd hcmd hstdin htotal =>
    cases cmd with
    | exec argv => cases hs
    | redir cmd file type => cases type <;> cases hs
    | pipe left right => exact hcmd.elim
  | @command _ n next stdin input toPipe hstdin hb htotal =>
    match n, next with
    | n + 1, next =>
      cases toPipe with
      | false => cases hs
      | true =>
        change State.write E _ _ _ _ = none at hs
        simp only [State.write, if_true, hasReader_left, bytes_last] at hs
        split at hs
        · cases hs
        · -- the pipe is full and the parent, its only reader, waits: what is written does not fit
          next hfull =>
          rw [if_pos rfl, left_succ] at htotal
          omega
    | 0, .exit => cases hs
    | 0, .read k =>
      -- a read waits only for a writer, and every writer of an older pipe has exited
      have hwriters : ∀ j, stdin = some j → State.hasWriter ⟨shellProc .mainWait ::
          waiting old.length right stdin₁ input₁ :: (dead ++ [⟨.command 0 (.read k), stdin,
            if toPipe then some old.length else none, none, none, input, some 1⟩]),
          old ++ [b]⟩ j = false := by
        intro j hj
        have hne : old.length ≠ j := by
          have := hstdin j hj
          omega
        have hdone := hdead.any_eq_false
          (f := fun q => q.code.isLive && (q.stdout == some j || q.writeEnd == some j))
          (fun q hq => by rw [hq]; rfl)
        cases toPipe <;> simpa [State.hasWriter, shellProc, waiting, hne] using hdone
      change State.read _ _ _ _ _ = none at hs
      exact absurd hs (Option.ne_none_iff_exists'.mpr (read_goesOn _ _ _ _ _ hwriters))
  | exited htotal => cases h

/-- Where a run stops: all processes have exited, or some pipe is too small. -/
theorem Stage.stopped {s : State} (h : Stage E cmd₀ s)
    (hs : ∀ pid, s.step E pid = none) : s.AllExited ↔ E.Fits 2 none cmd₀ := by
  cases h with
  | start => cases hs 0
  | @active p dead pipes hdead hp =>
    cases hexit : p.code.isExited with
    | true =>
      have hmain := hs 0
      rw [mainWait_eq hp.parent_eq hp.isReaped hdead.parents, if_pos hexit] at hmain
      cases hmain
    | false =>
      obtain ⟨s', hs'⟩ := hp.goesOn hdead hexit
      cases hs'.symm.trans (hs 1)
  | @left c dead old b total stdin input right hdead hlength hright hc hfits =>
    have hmain : ¬ State.AllExited ⟨shellProc .mainWait :: waiting old.length right stdin input ::
        (dead ++ [c]), old ++ [b]⟩ := by
      intro hall
      cases hall _ (List.mem_cons_self ..)
    apply iff_of_false hmain
    cases hexit : c.code.isExited with
    | true =>
      have hwait := hs 1
      rw [show (⟨.wait right, stdin, none, some old.length, some old.length, input, some 0⟩ : Proc) =
        waiting old.length right stdin input from rfl,
        wait_eq hdead hc.parent hc.isReaped, if_pos hexit] at hwait
      cases hwait
    | false =>
      -- the left side has not exited and cannot move: it writes into a full pipe
      have hfull := hc.stopped hdead hlength hexit (hs (old.length + 2))
      intro hfit
      exact Nat.not_le_of_lt hfull (hfits.mp hfit).1
  | @done p dead pipes hp hdead hfits =>
    refine iff_of_true ?_ hfits
    intro q hq
    obtain rfl | hq := List.mem_cons.mp hq
    · rfl
    · obtain rfl | hq := List.mem_cons.mp hq
      · rw [hp]
        rfl
      · rw [(hdead q hq).1]
        rfl

end

theorem Command.simple_tree (c : Command) : c.tree.Simple := by
  rw [Command.tree, wrapped]
  generalize hbase : Cmd.exec (argvOf c.words) = base
  have hsimple : base.Simple := hbase ▸ trivial
  clear hbase
  induction c.redirs generalizing base with
  | nil => exact hsimple
  | cons r rs ih => exact ih (.redir base r.2 r.1) hsimple

/-- The parser nests pipes to the right only. -/
theorem Line.pipeline_tree (line : Line) : line.tree.Pipeline := by
  induction line with
  | command c => exact c.simple_tree.pipeline
  | pipe c rest ih => exact ⟨c.simple_tree, ih⟩

/-- No order of the steps of a parsed line ends in a deadlock exactly when every command but the
    last sends no more to its pipe than the pipe can hold. -/
theorem run_notStuck_iff (E : Env) {buf : List UInt8} {cmd : Cmd} (h : parsecmd buf = .ok cmd) :
    (∀ order s, State.run E (.start cmd) order = some s → ¬ s.Stuck E) ↔ E.Fits 2 none cmd := by
  obtain ⟨line, -, rfl⟩ := parsecmd_ok h
  have hnext := Stage.next (E := E) line.pipeline_tree
  constructor
  · intro hsafe
    obtain ⟨order, s, hrun, hstop⟩ := Runs.exists_terminal State.weight hnext _ .start
    have hstage := Runs.invariant (fun s pid s' hs hs' => (hnext s pid s' hs hs').1) .start hrun
    have hexited : s.AllExited := by
      by_contra hlive
      exact hsafe order s hrun ⟨hstop, hlive⟩
    exact (hstage.stopped hstop).mp hexited
  · intro hfits order s hrun hstuck
    have hstage := Runs.invariant (fun s pid s' hs hs' => (hnext s pid s' hs hs').1) .start hrun
    exact hstuck.2 ((hstage.stopped hstuck.1).mpr hfits)

/-- A pipe holds one byte; every command prints `n` bytes. -/
def printing (n : Nat) : Env := ⟨1, fun _ => ⟨n, fun _ => 0, fun _ => 0⟩, fun _ => 0⟩

/-- `a | b`. -/
def twoCommands : Cmd := .pipe (wrapped [chars ['a']] []) (wrapped [chars ['b']] [])

theorem run_notStuck_iff_oneByte :
    parsecmd (chars ['a', '|', 'b']) = .ok twoCommands ∧
    ((∀ order s, State.run (printing 1) (.start twoCommands) order = some s →
      ¬ s.Stuck (printing 1)) ↔ (printing 1).Fits 2 none twoCommands) :=
  have hparse : parsecmd (chars ['a', '|', 'b']) = .ok twoCommands := by decide
  ⟨hparse, run_notStuck_iff (printing 1) hparse⟩

/-- The second byte does not fit into the pipe, and its reader waits for the writer to exit. -/
theorem run_stuck_twoBytes :
    parsecmd (chars ['a', '|', 'b']) = .ok twoCommands ∧
    ¬ ∀ order s, State.run (printing 2) (.start twoCommands) order = some s →
      ¬ s.Stuck (printing 2) := by
  refine ⟨by decide, ?_⟩
  intro hsafe
  apply hsafe [0, 1, 1, 2, 2, 2, 2, 2] _ rfl
  constructor
  · intro pid
    match pid with
    | 0 => rfl
    | 1 => rfl
    | 2 => rfl
    | pid + 3 => rfl
  · intro hall
    cases hall _ (List.mem_cons_self ..)

end Shell
