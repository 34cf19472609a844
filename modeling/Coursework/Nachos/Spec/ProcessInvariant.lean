import Coursework.Nachos.Processes
import Coursework.Nachos.Spec.ThreadsMesa

/-!
# The invariant of the processes

What every interleaving of `exec`, `exit` and `join` preserves. A process looks at its
`parent` field once before it notifies its parent; from there on it is on record that it
left a bucket, or why it did not. A process that is asleep in `join` has no bucket to find,
except one whose child is about to wake it.
-/

namespace Nachos

namespace Processes

open Mesa (Phase Step Steps Queued)
open UserProcess (writeVirtualMemory bytesFromInt)

/-- The processes as a monitor. -/
abbrev Monitor := Mesa.State Nat LockId FreeCondition Point Processes

/-! ## Statements -/

/-- The statements that neither wait nor wake. -/
inductive Act (f : Processes) (t : Nat) : Point → Processes → Point → Prop where
  | callExec {r : Option (BitVec 32)} (image : Option Image) (h : (f.process t).forked = true) :
      Act f t (.user r) f (.exec image 0 .acquireCount)
  | callExit {r : Option (BitVec 32)} (e : Ending) (h : (f.process t).forked = true) :
      Act f t (.user r) (f.modify t fun c => { c with ending := some e }) (.exit e.status .unload)
  | callJoin {r : Option (BitVec 32)} (pid addr : BitVec 32) (h : (f.process t).forked = true) :
      Act f t (.user r) f (.join pid addr 0 0 .findChild)
  | increment {im : Option Image} {c : Nat} :
      Act f t (.exec im c .increment) { f with numActiveProcesses := f.numActiveProcesses + 1 }
        (.exec im c .releaseCount)
  | assignPid {im : Option Image} {c : Nat} :
      Act f t (.exec im c .assignPid)
        { f with process := Function.update f.process f.globalPid { creator := some t }
                 globalPid := f.globalPid + 1 } (.exec im f.globalPid .load)
  | loadFail {im : Option Image} {c : Nat} :
      Act f t (.exec im c .load) f (.exec im c .failAcquire)
  | load {im : Image} {c : Nat} (hphys : im.numPages ≤ f.numPhysPages)
      (hpool : im.numPages ≤ f.freePagesPool.length) :
      Act f t (.exec (some im) c .load)
        { f.modify c fun u => { u with pageTable := loadSections im f.freePagesPool } with
          freePagesPool := f.freePagesPool.drop im.numPages } (.exec (some im) c .fork)
  | fork {im : Option Image} {c : Nat} :
      Act f t (.exec im c .fork) (f.modify c fun u => { u with forked := true })
        (.exec im c .setParent)
  | setParent {im : Option Image} {c : Nat} :
      Act f t (.exec im c .setParent)
        (f.modify c fun u => { u with parent := some t, registered := true }) (.exec im c .addChild)
  | addChild {im : Option Image} {c : Nat} :
      Act f t (.exec im c .addChild) (f.modify t fun u => { u with children := u.children ++ [c] })
        (.exec im c .ret)
  | retExec {im : Option Image} {c : Nat} :
      Act f t (.exec im c .ret) f (.user (some (pidOf c)))
  | failDecrement {im : Option Image} {c : Nat} :
      Act f t (.exec im c .failDecrement)
        { f with numActiveProcesses := f.numActiveProcesses - 1 } (.exec im c .failRelease)
  | unload {s : BitVec 32} :
      Act f t (.exit s .unload)
        { f.modify t fun u => { u with pageTable := [] } with
          freePagesPool := f.freePagesPool ++ (f.process t).pageTable.map (·.ppn.toNat) }
        (.exit s (.orphan 0))
  | orphan {s : BitVec 32} {j c : Nat} (h : (f.process t).children[j]? = some c) :
      Act f t (.exit s (.orphan j)) (f.modify c fun u => { u with parent := none })
        (.exit s (.orphan (j + 1)))
  | orphanEnd {s : BitVec 32} {j : Nat} :
      Act f t (.exit s (.orphan j)) f (.exit s .testParent)
  | hasParent {s : BitVec 32} (q : Nat) (h : (f.process t).parent = some q) :
      Act f t (.exit s .testParent)
        (f.modify t fun u => { u with early := u.creator.isSome && !u.registered })
        (.exit s .acquireParent)
  | noParent {s : BitVec 32} (h : (f.process t).parent = none) :
      Act f t (.exit s .testParent)
        (f.modify t fun u => { u with early := u.creator.isSome && !u.registered })
        (.exit s .acquireCount)
  | addBucket {s : BitVec 32} (q : Nat) (h : (f.process t).parent = some q) :
      Act f t (.exit s .addBucket)
        (f.modify q fun u => { u with freeChildren := u.freeChildren ++ [⟨s, pidOf t, t⟩] })
        (.exit s .wakeParent)
  | decrement {s : BitVec 32} :
      Act f t (.exit s .decrement) { f with numActiveProcesses := f.numActiveProcesses - 1 }
        (.exit s .testLast)
  | testLast {s : BitVec 32} : Act f t (.exit s .testLast) f (.exit s .releaseCount)
  | notFound {pid addr r : BitVec 32} {c : Nat} :
      Act f t (.join pid addr c r .findChild) f (.user (some (-1)))
  | found {pid addr r : BitVec 32} {c c' : Nat} (hmem : c' ∈ (f.process t).children)
      (hpid : pidOf c' = pid) :
      Act f t (.join pid addr c r .findChild) f (.join pid addr c' r .acquire)
  | search {pid addr r : BitVec 32} {c : Nat} :
      Act f t (.join pid addr c r .search) f
        (.join pid addr c (searchFreeChildren (f.process t).freeChildren pid) .test)
  | testMiss {pid addr r : BitVec 32} {c : Nat} (h : r = -2) :
      Act f t (.join pid addr c r .test) f (.join pid addr c r .sleep)
  | testHit {pid addr r : BitVec 32} {c : Nat} (h : r ≠ -2) :
      Act f t (.join pid addr c r .test) f (.join pid addr c r .release)
  | remove {pid addr r : BitVec 32} {c : Nat} :
      Act f t (.join pid addr c r .remove)
        (f.modify t fun u => { u with children := u.children.erase c }) (.join pid addr c r .report)
  | reportFault {pid addr r : BitVec 32} {c : Nat} (h : r = -1) :
      Act f t (.join pid addr c r .report) f (.user (some 0))
  | report {pid addr r : BitVec 32} {c : Nat} {bytesWritten : Nat} {memory : Nat → UInt8}
      (hstatus : r ≠ -1)
      (hwrite : writeVirtualMemory f.numPhysPages (f.process t).pageTable f.memory addr.toInt
        (bytesFromInt r) 0 4 = .ok (bytesWritten, memory)) :
      Act f t (.join pid addr c r .report) { f with memory := memory } (.user (some 1))

/-- The statements that acquire a lock. -/
inductive Acquires (f : Processes) (t : Nat) : Point → LockId → Point → Prop where
  | exec {im : Option Image} {c : Nat} :
      Acquires f t (.exec im c .acquireCount) .numProcessLock (.exec im c .increment)
  | execFail {im : Option Image} {c : Nat} :
      Acquires f t (.exec im c .failAcquire) .numProcessLock (.exec im c .failDecrement)
  | parent {s : BitVec 32} (q : Nat) (h : (f.process t).parent = some q) :
      Acquires f t (.exit s .acquireParent) (.freeLock q) (.exit s .addBucket)
  | exit {s : BitVec 32} :
      Acquires f t (.exit s .acquireCount) .numProcessLock (.exit s .decrement)
  | join {pid addr r : BitVec 32} {c : Nat} :
      Acquires f t (.join pid addr c r .acquire) (.freeLock t) (.join pid addr c r .search)

/-- The statements that release a lock. -/
inductive Releases (f : Processes) (t : Nat) : Point → LockId → Point → Prop where
  | exec {im : Option Image} {c : Nat} :
      Releases f t (.exec im c .releaseCount) .numProcessLock (.exec im c .assignPid)
  | execFail {im : Option Image} {c : Nat} :
      Releases f t (.exec im c .failRelease) .numProcessLock (.user (some (-1)))
  | parent {s : BitVec 32} (q : Nat) (h : (f.process t).parent = some q) :
      Releases f t (.exit s .releaseParent) (.freeLock q) (.exit s .acquireCount)
  | exit {s : BitVec 32} : Releases f t (.exit s .releaseCount) .numProcessLock .finished
  | join {pid addr r : BitVec 32} {c : Nat} :
      Releases f t (.join pid addr c r .release) (.freeLock t) (.join pid addr c r .remove)

/-- Only `join` sleeps, on the condition of its own process. -/
inductive Sleeps (t : Nat) : Point → FreeCondition → Point → Prop where
  | join {pid addr r : BitVec 32} {c : Nat} :
      Sleeps t (.join pid addr c r .sleep) ⟨t⟩ (.join pid addr c r .search)

/-- Only `exit` wakes, the parent that it finds in its field. -/
inductive Wakes (f : Processes) (t : Nat) : Point → FreeCondition → Point → Prop where
  | exit {s : BitVec 32} (q : Nat) (h : (f.process t).parent = some q) :
      Wakes f t (.exit s .wakeParent) ⟨q⟩ (.exit s .releaseParent)

/-- What a thread can execute at a point. -/
def Executes (f : Processes) (t : Nat) (pc : Point) : Stmt → Prop
  | .act f' pc' => Act f t pc f' pc'
  | .acquire l pc' => Acquires f t pc l pc'
  | .release l pc' => Releases f t pc l pc'
  | .sleep c pc' => Sleeps t pc c pc'
  | .wake c pc' => Wakes f t pc c pc'
  | .stuck => True

section Instr

variable {t : Nat} {f : Processes}

theorem executes_handleSyscall {r : Option (BitVec 32)} (hf : (f.process t).forked = true)
    (syscall : Syscall) : Executes f t (.user r) (handleSyscall f t syscall) := by
  cases syscall with
  | exec image => exact .callExec image hf
  | exit status => exact .callExit (.exit status) hf
  | join pid addr => exact .callJoin pid addr hf
  | fault => exact .callExit .fault hf

theorem executes_handleExec (im : Option Image) (c : Nat) (line : ExecLine) :
    Executes f t (.exec im c line) (handleExec f t im c line) := by
  cases line
  case load =>
    simp only [handleExec]
    split
    · exact .loadFail
    split
    · exact .loadFail
    split
    · trivial
    · exact .load (by omega) (by omega)
  all_goals constructor

theorem executes_handleExit (s : BitVec 32) (line : ExitLine) :
    Executes f t (.exit s line) (handleExit f t s line) := by
  cases line
  case orphan j =>
    simp only [handleExit]
    split
    · exact .orphan ‹_›
    · exact .orphanEnd
  case testParent =>
    simp only [handleExit]
    cases hp : (f.process t).parent with
    | none => exact .noParent hp
    | some q => exact .hasParent q hp
  case acquireParent | addBucket | wakeParent | releaseParent =>
    simp only [handleExit]
    split
    · constructor
      assumption
    · trivial
  case testLast =>
    simp only [handleExit]
    split
    · trivial
    · exact .testLast
  all_goals constructor

theorem executes_handleJoin (pid addr : BitVec 32) (c : Nat) (r : BitVec 32) (line : JoinLine) :
    Executes f t (.join pid addr c r line) (handleJoin f t pid addr c r line) := by
  cases line
  case findChild =>
    simp only [handleJoin]
    split
    · exact .notFound
    · rename_i c' hfind
      exact .found (List.mem_of_find?_eq_some hfind) (by simpa using List.find?_some hfind)
  case test =>
    simp only [handleJoin]
    split
    · exact .testMiss ‹_›
    · exact .testHit ‹_›
  case report =>
    simp only [handleJoin]
    split
    · exact .reportFault ‹_›
    split
    · exact .report ‹_› ‹_›
    · trivial
  all_goals constructor

theorem executes_instr (pc : Point) (syscall : Syscall) :
    Executes f t pc (program.instr t pc f syscall) := by
  cases pc with
  | user r =>
    simp only [program]
    split
    · exact executes_handleSyscall ‹_› syscall
    · trivial
  | exec im c line => exact executes_handleExec im c line
  | exit s line => exact executes_handleExit s line
  | join pid addr c r line => exact executes_handleJoin pid addr c r line
  | finished => trivial

end Instr

/-! ## The invariant -/

/-- Is the process exiting, or has it exited? -/
def Point.exiting : Point → Bool
  | .exit _ _ => true
  | .finished => true
  | _ => false

/-- Is this statement past the notification of the parent? -/
def ExitLine.notified : ExitLine → Bool
  | .unload | .orphan _ | .testParent | .acquireParent | .addBucket => false
  | .wakeParent | .releaseParent | .acquireCount | .decrement | .testLast | .releaseCount => true

/-- Is the process past notifying its parent? -/
def Point.notified : Point → Bool
  | .exit _ line => line.notified
  | .finished => true
  | _ => false

/-- What holds of the child in `handleExec`, by process `t`. -/
def ExecOk (f : Processes) (t c : Nat) : ExecLine → Prop
  | .load | .fork => (f.process c).creator = some t ∧ (f.process c).registered = false ∧
      (f.process c).forked = false
  | .setParent => (f.process c).creator = some t ∧ (f.process c).registered = false
  | .addChild => (f.process c).creator = some t ∧ (f.process c).registered = true ∧
      c ∉ (f.process t).children
  | _ => True

/-- What holds of process `t` in `handleExit`. -/
def ExitOk (f : Processes) (t : Nat) (s : BitVec 32) : ExitLine → Prop
  | .acquireParent | .addBucket => (∃ e, (f.process t).ending = some e ∧ e.status = s) ∧
      (f.process t).registered = true
  | _ => ∃ e, (f.process t).ending = some e ∧ e.status = s

/-- What holds of process `t` and the child that it joins in `handleJoin`. -/
def JoinOk (f : Processes) (t : Nat) (pid : BitVec 32) (c : Nat) (r : BitVec 32) : JoinLine → Prop
  | .acquire | .search => c ∈ (f.process t).children ∧ pidOf c = pid
  | .test => (c ∈ (f.process t).children ∧ pidOf c = pid) ∧
      r = searchFreeChildren (f.process t).freeChildren pid
  | .sleep => (c ∈ (f.process t).children ∧ pidOf c = pid) ∧
      searchFreeChildren (f.process t).freeChildren pid = -2
  | _ => True

/-- What holds of process `t` at a point. -/
def PointOk (f : Processes) (t : Nat) : Point → Prop
  | .user _ => True
  | .exec _ c line => ExecOk f t c line
  | .exit s line => ExitOk f t s line
  | .join pid _ c r line => JoinOk f t pid c r line
  | .finished => ∃ e, (f.process t).ending = some e

/-- A thread waits for a lock at one of these points. -/
inductive EntryOk (f : Processes) (t : Nat) : LockId → Point → Prop where
  | exec {im : Option Image} {c : Nat} : EntryOk f t .numProcessLock (.exec im c .increment)
  | execFail {im : Option Image} {c : Nat} : EntryOk f t .numProcessLock (.exec im c .failDecrement)
  | exit {s : BitVec 32} : EntryOk f t .numProcessLock (.exit s .decrement)
  | parent {s : BitVec 32} {q : Nat} (h : (f.process t).creator = some q) :
      EntryOk f t (.freeLock q) (.exit s .addBucket)
  | join {pid addr r : BitVec 32} {c : Nat} :
      EntryOk f t (.freeLock t) (.join pid addr c r .search)

/-- A thread sleeps in `join`. -/
inductive SleepOk (t : Nat) : FreeCondition → Point → Prop where
  | join {pid addr r : BitVec 32} {c : Nat} : SleepOk t ⟨t⟩ (.join pid addr c r .search)

/-- What holds of one thread. -/
def PhaseOk (f : Processes) (t : Nat) : Phase LockId FreeCondition Point → Prop
  | .run pc => PointOk f t pc
  | .entering l pc => PointOk f t pc ∧ EntryOk f t l pc
  | .asleep c pc => PointOk f t pc ∧ SleepOk t c pc
  | .woken c pc => PointOk f t pc ∧ SleepOk t c pc

/-- Is this statement executed under the `freeLock` of the process? -/
def JoinLine.locked : JoinLine → Bool
  | .search | .test | .sleep | .release => true
  | .findChild | .acquire | .remove | .report => false

/-- Does the thread have its own `freeLock` at this point? -/
def Point.ownLock : Point → Bool
  | .join _ _ _ _ line => line.locked
  | _ => false

/-- Is this statement executed under the `freeLock` of the parent? -/
def ExitLine.locked : ExitLine → Bool
  | .addBucket | .wakeParent | .releaseParent => true
  | .unload | .orphan _ | .testParent | .acquireParent | .acquireCount | .decrement | .testLast
  | .releaseCount => false

/-- Does the thread have the `freeLock` of its parent at this point? -/
def Point.parentLock : Point → Bool
  | .exit _ line => line.locked
  | _ => false

/-- Thread `t` executes statements under the `freeLock` of `q`. -/
def InLock (f : Processes) (t q : Nat) : Phase LockId FreeCondition Point → Prop
  | .run pc => (pc.ownLock = true ∧ q = t) ∨ (pc.parentLock = true ∧ (f.process t).creator = some q)
  | _ => False

/-- What is known of a bucket of process `q`. -/
structure BucketOk (st : Monitor) (q : Nat) (b : Bucket) : Prop where
  pid : b.pid = pidOf b.source
  creator : (st.shared.process b.source).creator = some q
  registered : (st.shared.process b.source).registered = true
  status : ∃ e, (st.shared.process b.source).ending = some e ∧ b.status = e.status
  notified : (st.thread b.source).next.notified = true

/-- Process `c` has left a bucket with its parent. -/
def Sent (st : Monitor) (c : Nat) : Prop :=
  ∃ q, (st.shared.process c).creator = some q ∧
    ∃ b ∈ (st.shared.process q).freeChildren, b.source = c

/-- Why a process may not have left a bucket: it looked at its `parent` field too early, it
    has no parent, or its parent is exiting. -/
def Excused (st : Monitor) (c : Nat) : Prop :=
  (st.shared.process c).early = true ∨ (st.shared.process c).creator = none ∨
    ∃ q, (st.shared.process c).creator = some q ∧ (st.thread q).next.exiting = true

/-- A search for `pid` in the buckets of `p` finds nothing, except what a child that is
    about to wake `p` has just added. -/
def Misses (st : Monitor) (p : Nat) (pid : BitVec 32) : Prop :=
  searchFreeChildren (st.shared.process p).freeChildren pid = -2 ∨
    ∃ l b s, (st.shared.process p).freeChildren = l ++ [b] ∧ searchFreeChildren l pid = -2 ∧
      st.thread b.source = .run (.exit s .wakeParent)

/-- What the fields of the processes say of each other. -/
structure Family (st : Monitor) : Prop where
  maker : ∀ c q, (st.shared.process c).creator = some q → q < st.shared.globalPid
  parent : ∀ c q, (st.shared.process c).parent = some q →
    (st.shared.process c).creator = some q ∧ (st.shared.process c).registered = true
  keeps : ∀ c q, (st.shared.process c).creator = some q → (st.shared.process c).registered = true →
    (st.thread q).next.exiting = false → (st.shared.process c).parent = some q
  children : ∀ q, ∀ c ∈ (st.shared.process q).children,
    (st.shared.process c).creator = some q ∧ (st.shared.process c).registered = true
  childrenNodup : ∀ q, (st.shared.process q).children.Nodup
  buckets : ∀ q, ∀ b ∈ (st.shared.process q).freeChildren, BucketOk st q b
  once : ∀ q, ((st.shared.process q).freeChildren.map Bucket.source).Nodup
  sent : ∀ c, (st.thread c).next.notified = true → Sent st c ∨ Excused st c
  silent : ∀ c, (st.shared.process c).early = true →
    (st.thread c).next.notified = true ∧ ¬ Sent st c

/-- The invariant of every interleaving. -/
structure Inv (st : Monitor) : Prop extends Family st where
  queued : Queued st
  ok : ∀ t, PhaseOk st.shared t (st.thread t)
  lock : ∀ q t, st.holder (.freeLock q) = some t ↔ InLock st.shared t q (st.thread t)
  fresh : ∀ c, st.shared.globalPid ≤ c →
    st.shared.process c = {} ∧ st.thread c = .run (.user none)
  running : ∀ t, st.thread t ≠ .run (.user none) → (st.shared.process t).forked = true
  waits : ∀ p pid addr c r, st.thread p = .asleep ⟨p⟩ (.join pid addr c r .search) →
    Misses st p pid

/-! ## What a statement changes -/

/-- What a statement of process `t` can do to the fields of process `c`. -/
structure Change (f : Processes) (t : Nat) (pc pc' : Point) (c : Nat) (u u' : UserProc) : Prop where
  creator : u'.creator = u.creator ∨ (c = f.globalPid ∧ u'.creator = some t)
  registered : u'.registered = u.registered ∨
    (u'.registered = true ∧ u'.parent = some t ∧ u.creator = some t)
  parent : u'.parent = u.parent ∨
    (u'.parent = some t ∧ u'.registered = true ∧ u.creator = some t) ∨
    (u'.parent = none ∧ c ∈ (f.process t).children ∧ pc'.exiting = true)
  children : u'.children = u.children ∨ (c = t ∧ ∃ d, u'.children = u.children.erase d) ∨
    (c = t ∧ ∃ im d, pc = .exec im d .addChild ∧ u'.children = u.children ++ [d] ∧
      d ∉ u.children ∧ (f.process d).creator = some t ∧ (f.process d).registered = true)
  freeChildren : u'.freeChildren = u.freeChildren ∨
    ∃ s, pc = .exit s .addBucket ∧ pc' = .exit s .wakeParent ∧ (f.process t).parent = some c ∧
      u'.freeChildren = u.freeChildren ++ [⟨s, pidOf t, t⟩]
  ending : u'.ending = u.ending ∨ (c = t ∧ pc.exiting = false)
  forked : u'.forked = u.forked ∨ (u'.forked = true ∧ u.creator = some t)
  pageTable : u'.pageTable = u.pageTable ∨ (c = t ∧ pc.exiting = true) ∨ u.forked = false
  early : u'.early = u.early ∨
    (c = t ∧ ∃ s, pc = .exit s .testParent ∧ (u'.early = true → u.registered = false))

section Change

variable {f f' : Processes} {t c : Nat} {pc pc' : Point}

theorem Change.refl (u : UserProc) : Change f t pc pc' c u u :=
  ⟨.inl rfl, .inl rfl, .inl rfl, .inl rfl, .inl rfl, .inl rfl, .inl rfl, .inl rfl, .inl rfl⟩

theorem process_modify (f : Processes) (p : Nat) (g : UserProc → UserProc) (c : Nat) :
    (f.modify p g).process c = if c = p then g (f.process c) else f.process c := by
  by_cases hc : c = p <;> simp [modify, hc]

/-- An assignment to fields of one process. -/
theorem Change.modify {p : Nat} {g : UserProc → UserProc}
    (h : Change f t pc pc' p (f.process p) (g (f.process p))) (c : Nat) :
    Change f t pc pc' c (f.process c) ((f.modify p g).process c) := by
  rw [process_modify]
  split
  · rename_i hc
    exact hc ▸ h
  · exact .refl _

/-- What each statement changes. -/
theorem Act.change (hnew : f.process f.globalPid = {}) (hok : PointOk f t pc)
    (ha : Act f t pc f' pc') (c : Nat) : Change f t pc pc' c (f.process c) (f'.process c) := by
  cases ha with
  | callExit e hf => exact .modify { Change.refl _ with ending := .inr ⟨rfl, rfl⟩ } c
  | @assignPid im d =>
    -- the one step that puts a process object in place of the empty one
    by_cases hc : c = f.globalPid
    · subst hc
      simp only [Function.update_self, hnew]
      have hrefl : Change f t (.exec im d .assignPid) (.exec im f.globalPid .load)
          f.globalPid {} {} := .refl {}
      exact { hrefl with creator := .inr ⟨rfl, rfl⟩ }
    · simp only [Function.update_of_ne hc]
      exact .refl _
  | @load im d _ _ =>
    exact Change.modify (g := fun u => { u with pageTable := loadSections im f.freePagesPool })
      { Change.refl (c := d) (f.process d) with pageTable := .inr (.inr hok.2.2) } c
  | @fork im d =>
    exact .modify { Change.refl (f.process d) with forked := .inr ⟨rfl, hok.1⟩ } c
  | @setParent im d =>
    exact .modify { Change.refl (f.process d) with
      registered := .inr ⟨rfl, rfl, hok.1⟩, parent := .inr (.inl ⟨rfl, rfl, hok.1⟩) } c
  | @addChild im d =>
    exact .modify { Change.refl _ with
      children := .inr (.inr ⟨rfl, im, d, rfl, rfl, hok.2.2, hok.1, hok.2.1⟩) } c
  | unload =>
    exact Change.modify (g := fun u => { u with pageTable := [] })
      { Change.refl (c := t) (f.process t) with pageTable := .inr (.inl ⟨rfl, rfl⟩) } c
  | orphan hj =>
    exact .modify { Change.refl _ with
      parent := .inr (.inr ⟨rfl, List.mem_of_getElem? hj, rfl⟩) } c
  | @hasParent s q hq =>
    exact .modify { Change.refl (f.process t) with early := .inr ⟨rfl, s, rfl, by simp⟩ } c
  | @noParent s hq =>
    exact .modify { Change.refl (f.process t) with early := .inr ⟨rfl, s, rfl, by simp⟩ } c
  | @addBucket s q hq =>
    exact .modify { Change.refl _ with freeChildren := .inr ⟨s, rfl, rfl, hq, rfl⟩ } c
  | @remove pid addr r d =>
    exact .modify { Change.refl _ with children := .inr (.inl ⟨rfl, d, rfl⟩) } c
  | _ => exact .refl _

theorem Act.pids (ha : Act f t pc f' pc') : f.globalPid ≤ f'.globalPid := by
  cases ha with
  | assignPid => exact Nat.le_succ _
  | _ => exact Nat.le_refl _

/-- A process that is exiting goes on exiting. -/
theorem Act.exiting (ha : Act f t pc f' pc') (h : pc.exiting = true) : pc'.exiting = true := by
  cases ha <;> simp [Point.exiting] at h ⊢

/-- A process passes the notification of its parent in two statements. -/
theorem Act.notified_cases (ha : Act f t pc f' pc') (h : pc'.notified = true) :
    pc.notified = true ∨ (∃ s, pc = .exit s .testParent ∧ (f.process t).parent = none) ∨
      ∃ s q, pc = .exit s .addBucket ∧ pc' = .exit s .wakeParent ∧ (f.process t).parent = some q := by
  cases ha with
  | noParent hp => exact .inr (.inl ⟨_, rfl, hp⟩)
  | addBucket q hq => exact .inr (.inr ⟨_, q, rfl, rfl, hq⟩)
  | decrement => exact .inl rfl
  | testLast => exact .inl rfl
  | _ => cases h

theorem Act.notified (ha : Act f t pc f' pc') (h : pc.notified = true) : pc'.notified = true := by
  cases ha <;> simp [Point.notified, ExitLine.notified] at h ⊢

end Change

end Processes

end Nachos
