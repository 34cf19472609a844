import Coursework.ForStd.Except
import Coursework.Nachos.Spec.ConditionRefinement
import Coursework.Nachos.UserKernel
import Mathlib.Algebra.BigOperators.Group.Finset.Basic
import Mathlib.Algebra.BigOperators.Group.Finset.Piecewise
import Mathlib.Algebra.Order.Group.Multiset

/-!
# Physical pages are conserved

Every page is in the pool or in one page table at every step of every run: a page only moves,
one at a time, while its thread has `pageLock`. A thread that has found enough pages in the
pool finds them there for its whole loop, since no other thread has the lock meanwhile.
-/

namespace Nachos

open ConditionVariable (Operation)

/-! ## Critical sections of a monitor -/

/-- What a method asks of the thread that calls it, like the operation that it is. -/
def Conditions.Method.Allows (method : Conditions.Method) (before after : Prop) : Prop :=
  match method with
  | .acquire | .sleep => True
  | .release => ¬ after
  | .wake | .wakeAll => after → before

namespace Conditions.Monitor

variable {T : Type} [DecidableEq T] {kind : Kind} {st st' : Monitor T} {t u v prefer : T}

/-- `KThread.ready()` is not called for a thread outside the methods. -/
theorem status_ready (h : st.ready u = some st') (hv : st.status v = .client) :
    st'.status v = .client := by
  have hne : v ≠ u := by
    rintro rfl
    simp [ready, hv] at h
  unfold ready at h
  split at h <;> cases h <;> simp [setStatus, hne, hv]

theorem status_acquire {b : Bool} (h : st.acquire t b = some st') (hne : v ≠ t)
    (hv : st.status v = .client) : st'.status v = .client := by
  unfold acquire at h
  split at h <;> split at h <;> cases h <;> simp [setStatus, hne, hv]

theorem status_release (h : st.release t prefer = some st') (hv : st.status v = .client) :
    st'.status v = .client := by
  unfold release at h
  split at h
  · split at h
    · obtain rfl := Option.some.inj h
      exact hv
    · exact status_ready h hv
  · cases h

theorem status_wake (h : st.wake kind t prefer = some st') (hv : st.status v = .client) :
    st'.status v = .client := by
  unfold wake at h
  split at h
  · split at h
    · obtain rfl := Option.some.inj h
      exact hv
    · split at h
      · unfold semaphoreV at h
        split at h
        · exact status_ready h hv
        · obtain rfl := Option.some.inj h
          exact hv
      · exact status_ready h hv
  · cases h

/-- A thread outside the methods stays there while others take steps. -/
theorem status_step {choice : Choice T Method} (h : st.step .condition choice = some st')
    (hne : v ≠ choice.thread) (hv : st.status v = .client) : st'.status v = .client := by
  unfold step at h
  split at h
  · unfold call at h
    split at h
    · exact status_acquire h hne hv
    · exact status_release h hv
    · exact status_release h (by simp [setStatus, hne, hv])
    · exact status_wake h hv
    · split at h
      · obtain rfl := Option.some.inj h
        simp [setStatus, hne, hv]
      · cases h
  · obtain rfl := Option.some.inj h
    unfold semaphoreP
    split <;> simp [setStatus, hne, hv]
  · exact status_acquire h hne hv
  · unfold wakeAllLoop at h
    split at h
    · obtain rfl := Option.some.inj h
      simp [setStatus, hne, hv]
    · exact status_wake h hv
  all_goals cases h

/-- The critical sections stay guarded if every thread enters and leaves its own with the
    lock. -/
theorem guarded_step {method : Method} {inside inside' : T → Prop} (h : Inv kind st)
    (hg : st.view.Guarded inside) (hstep : st.step kind ⟨t, method, prefer⟩ = some st')
    (hother : ∀ u, u ≠ t → inside' u → inside u)
    (hself : if st.status t = .client then method.Allows (inside t) (inside' t)
      else inside' t → inside t) : st'.view.Guarded inside' := by
  obtain ⟨-, hnone⟩ | ⟨st₁, hsome, hrefines⟩ := step_refines h ⟨t, method, prefer⟩
  · simp [hnone] at hstep
  obtain rfl := Option.some.inj (hsome.symm.trans hstep)
  have hview := hrefines.view
  by_cases hs : st.status t = .client
  · rw [if_pos hs] at hself
    -- the first operation is that of the method, and the rest are threads that enter
    obtain ⟨e, threads, hops, he, hallows⟩ : ∃ (e : Operation T) (threads : List T),
        st.operations ⟨t, method, prefer⟩ = e :: threads.map .enter ∧ e.thread = t ∧
          e.Allows (inside t) (inside' t) := by
      cases method with
      | acquire =>
        by_cases hl : st.lockHolder = none
        · exact ⟨.acquire t, [t], by simp [operations, hs, hl], rfl, trivial⟩
        · exact ⟨.acquire t, [], by simp [operations, hs, hl], rfl, trivial⟩
      | release =>
        exact ⟨.release t, (nextThread st.lockQueue prefer).toList,
          by simp only [operations, hs, handOver], rfl, hself⟩
      | sleep =>
        exact ⟨.sleep t, (nextThread st.lockQueue prefer).toList,
          by simp only [operations, hs, handOver], rfl, trivial⟩
      | wake => exact ⟨.wake t, [], by simp [operations, hs], rfl, hself⟩
      | wakeAll => exact ⟨.wakeAll t, [], by simp [operations, hs], rfl, hself⟩
    rw [hops, ConditionVariable.State.run_cons, Option.bind_eq_some_iff] at hview
    obtain ⟨s, hfirst, hrest⟩ := hview
    subst he
    exact (hg.step hfirst hother hallows).enters hrest
  · rw [if_neg hs] at hself
    obtain ⟨threads, hops⟩ : ∃ threads : List T,
        st.operations ⟨t, method, prefer⟩ = threads.map .enter := by
      cases hs' : st.status t with
      | client => exact absurd hs' hs
      | beforeAcquire =>
        by_cases hl : st.lockHolder = none
        · exact ⟨[t], by simp [operations, hs', hl]⟩
        · exact ⟨[], by simp [operations, hs', hl]⟩
      | beforeP | wakingAll | waitLock _ | waitSemaphore | waitThread =>
        exact ⟨[], by simp [operations, hs']⟩
    rw [hops] at hview
    have hg' : st.view.Guarded inside' := by
      intro u hu
      by_cases hut : u = t
      · subst hut
        exact hg u (hself hu)
      · exact hg u (hother u hut hu)
    exact hg'.enters hview

end Conditions.Monitor

namespace UserKernel

/-! ## Page tables -/

/-- The `ppn` fields of the entries of a page table. -/
def ppns (pageTable : PageTable) : List Int := pageTable.filterMap fun entry => entry.map (·.ppn)

/-- An entry is put where there was none. -/
theorem ppns_set_some {table : PageTable} {i : Nat} {e : TranslationEntry}
    (h : table[i]? = some none) : (ppns (table.set i (some e))).Perm (e.ppn :: ppns table) := by
  induction table generalizing i with
  | nil => simp at h
  | cons x table ih =>
    cases i with
    | zero =>
      obtain rfl : x = none := by simpa using h
      exact List.Perm.refl _
    | succ i =>
      have hperm := ih (i := i) (by simpa using h)
      cases x with
      | none => exact hperm
      | some a => exact (hperm.cons a.ppn).trans (List.Perm.swap _ _ _)

/-- An entry is taken out. -/
theorem ppns_set_none {table : PageTable} {i : Nat} {e : TranslationEntry}
    (h : table[i]? = some (some e)) : (ppns table).Perm (e.ppn :: ppns (table.set i none)) := by
  obtain ⟨hi, he⟩ := List.getElem?_eq_some_iff.mp h
  have hnone : (table.set i none)[i]? = some none := by simp [hi]
  have hback : (table.set i none).set i (some e) = table := by
    rw [List.set_set, ← he, List.set_getElem_self]
  have hperm := ppns_set_some (e := e) hnone
  rwa [hback] at hperm

theorem ppns_eq_nil {table : PageTable} (h : ∀ i < table.length, table[i]? = some none) :
    ppns table = [] := by
  simp only [ppns, List.filterMap_eq_nil_iff, Option.map_eq_none_iff]
  intro x hx
  obtain ⟨i, hi, rfl⟩ := List.mem_iff_getElem.mp hx
  exact Option.some.inj ((List.getElem?_eq_getElem hi).symm.trans (h i hi))

/-- The loop over the sections changes no frame. -/
theorem copySections_ppns {sections : List Section} {table table' : PageTable}
    (h : sections.foldlM copySection table = .ok table') :
    ppns table' = ppns table ∧ table'.length = table.length := by
  -- marking a page read-only keeps the page number of its entry
  have hset : ∀ {readOnly : Bool} {table table' : PageTable} {vpn : Int},
      setReadOnly readOnly table vpn = .ok table' →
        table'.map (Option.map TranslationEntry.ppn) =
          table.map (Option.map TranslationEntry.ppn) := by
    intro readOnly table table' vpn h
    unfold setReadOnly at h
    split at h
    · cases h
    split at h
    · cases h
    · cases h
    · rename_i entry hentry
      obtain rfl := Except.ok.inj h
      obtain ⟨hi, he⟩ := List.getElem?_eq_some_iff.mp hentry
      rw [List.map_set]
      simp only [Option.map_some]
      have hsame : (table.map (Option.map TranslationEntry.ppn))[vpn.toNat]? =
          some (some entry.ppn) := by simp [hentry]
      obtain ⟨hi', he'⟩ := List.getElem?_eq_some_iff.mp hsame
      rw [← he', List.set_getElem_self]
  -- the loop over the sections, and inside it the loop over the pages of one section
  have hmap : table'.map (Option.map TranslationEntry.ppn) =
      table.map (Option.map TranslationEntry.ppn) := by
    refine Except.foldlM_invariant
      (R := fun a b : PageTable => b.map (Option.map TranslationEntry.ppn) =
        a.map (Option.map TranslationEntry.ppn))
      (fun _ => rfl) (fun hab hbc => hbc.trans hab) (fun {a s b} hsection => ?_) h
    exact Except.foldlM_invariant
      (R := fun a b : PageTable => b.map (Option.map TranslationEntry.ppn) =
        a.map (Option.map TranslationEntry.ppn))
      (fun _ => rfl) (fun hab hbc => hbc.trans hab) hset hsection
  have hppns : ∀ t : PageTable, ppns t = (t.map (Option.map TranslationEntry.ppn)).filterMap id := by
    intro t
    simp [ppns, List.filterMap_map]
  refine ⟨by rw [hppns, hmap, ← hppns], ?_⟩
  simpa using congrArg List.length hmap

/-! ## All pages -/

/-- The pages of the pool and of all page tables. -/
def Pages.all (f : Pages) : Multiset Int :=
  f.freePagesPool + ∑ p ∈ Finset.range f.created, (ppns (f.process p).pageTable : Multiset Int)

/-- What is taken from the pool and what a page table gets. -/
theorem Pages.all_modify {f : Pages} {c : Nat} (hc : c < f.created) (g : Process → Process)
    (pool : List Int)
    (hpages : (pool : Multiset Int) + ppns (g (f.process c)).pageTable =
      f.freePagesPool + ppns (f.process c).pageTable) :
    { f.modify c g with freePagesPool := pool }.all = f.all := by
  have hmem : c ∈ Finset.range f.created := Finset.mem_range.mpr hc
  have hupdate : ∀ p, (ppns ((f.modify c g).process p).pageTable : Multiset Int) =
      Function.update (fun p => (ppns (f.process p).pageTable : Multiset Int)) c
        (ppns (g (f.process c)).pageTable) p := by
    intro p
    by_cases hp : p = c
    · subst hp
      simp [modify]
    · simp [modify, hp]
  simp only [all]
  show (pool : Multiset Int) + ∑ p ∈ Finset.range f.created,
    (ppns ((f.modify c g).process p).pageTable : Multiset Int) = _
  rw [Finset.sum_congr rfl fun p _ => hupdate p, Finset.sum_update_of_mem hmem,
    ← add_assoc, hpages, add_assoc, Finset.sdiff_singleton_eq_erase,
    Finset.add_sum_erase _ (fun p => (ppns (f.process p).pageTable : Multiset Int)) hmem]

theorem Pages.all_modify_of_eq {f : Pages} {c : Nat} (hc : c < f.created) (g : Process → Process)
    (hsame : ppns (g (f.process c)).pageTable = ppns (f.process c).pageTable) :
    (f.modify c g).all = f.all :=
  Pages.all_modify hc g f.freePagesPool (by rw [hsame])

/-- The lists of the first `n` processes, together. -/
theorem coe_flatMap_range (g : Nat → List Int) (n : Nat) :
    ((List.range n).flatMap g : Multiset Int) = ∑ p ∈ Finset.range n, (g p : Multiset Int) := by
  induction n with
  | zero => rfl
  | succ n ih => simp [List.range_succ, Finset.sum_range_succ, ← ih]

/-! ## What a statement does -/

/-- The statements that change the processes. -/
inductive Act (f : Pages) : Thread → Point → Pages → Point → Prop where
  | newUserProcess {t : Thread} {e : Executable} :
      Act f t .user
        { f with process := Function.update f.process f.created {}, created := f.created + 1 }
        (.load e f.created .readCoff)
  | startExit {p : Nat} (hstage : (f.process p).stage = .running) :
      Act f (.process p) .user f (.exit .acquire)
  | refuse {p : Nat} {e : Executable} {c : Nat} {line : LoadLine}
      (hline : line = .readCoff ∨ line = .testMemory) : Act f (.process p) (.load e c line) f .user
  | readCoff {t : Thread} {e : Executable} {c : Nat} {coff : List Section} {numPages : Int} :
      Act f t (.load e c .readCoff)
        (f.modify c fun x => { x with coff := coff, numPages := numPages })
        (.load e c .testMemory)
  | testMemory {t : Thread} {e : Executable} {c : Nat} :
      Act f t (.load e c .testMemory) f (.load e c .acquire)
  | tooFew {t : Thread} {e : Executable} {c : Nat} :
      Act f t (.load e c .testPool) f (.load e c .sleep)
  | enough {t : Thread} {e : Executable} {c : Nat}
      (hroom : (f.process c).numPages ≤ f.freePagesPool.length) :
      Act f t (.load e c .testPool) f (.load e c .newTable)
  | newTable {t : Thread} {e : Executable} {c : Nat} (hpos : 0 ≤ (f.process c).numPages) :
      Act f t (.load e c .newTable)
        (f.modify c fun x => { x with pageTable := List.replicate x.numPages.toNat none })
        (.load e c (.takePage 0))
  | takePage {t : Thread} {e : Executable} {c i : Nat} {page : Int} {rest : List Int}
      (hi : (i : Int) < (f.process c).numPages) (hpool : f.freePagesPool = page :: rest)
      (hlen : i < (f.process c).pageTable.length) :
      Act f t (.load e c (.takePage i))
        { f.modify c fun x =>
            { x with pageTable := x.pageTable.set i (some { vpn := i, ppn := page, valid := true }) }
          with freePagesPool := rest }
        (.load e c (.takePage (i + 1)))
  | filled {t : Thread} {e : Executable} {c i : Nat} (hi : (f.process c).numPages ≤ i) :
      Act f t (.load e c (.takePage i)) (f.modify c fun x => { x with stage := .allocated })
        (.load e c .release)
  | copySections {t : Thread} {e : Executable} {c : Nat} {table : PageTable}
      (htable : (f.process c).coff.foldlM copySection (f.process c).pageTable = .ok table) :
      Act f t (.load e c .copySections)
        (f.modify c fun x => { x with pageTable := table, stage := .loaded }) (.load e c .fork)
  | fork {t : Thread} {e : Executable} {c : Nat} :
      Act f t (.load e c .fork) (f.modify c fun x => { x with stage := .running })
        (afterExecute t)
  | freePage {p i : Nat} {entry : TranslationEntry}
      (hentry : (f.process p).pageTable[i]? = some (some entry)) :
      Act f (.process p) (.exit (.freePage i))
        { f.modify p fun x => { x with pageTable := x.pageTable.set i none } with
          freePagesPool := f.freePagesPool ++ [entry.ppn] }
        (.exit (.freePage (i + 1)))
  | freed {p i : Nat} (hi : (f.process p).numPages ≤ i) :
      Act f (.process p) (.exit (.freePage i)) (f.modify p fun x => { x with stage := .exited })
        (.exit .wakeAll)

/-- The statements that call a method. -/
inductive Calls : Point → Conditions.Method → Point → Prop where
  | loadAcquire {e : Executable} {c : Nat} :
      Calls (.load e c .acquire) .acquire (.load e c .testPool)
  | sleep {e : Executable} {c : Nat} : Calls (.load e c .sleep) .sleep (.load e c .testPool)
  | loadRelease {e : Executable} {c : Nat} :
      Calls (.load e c .release) .release (.load e c .copySections)
  | exitAcquire : Calls (.exit .acquire) .acquire (.exit (.freePage 0))
  | wakeAll : Calls (.exit .wakeAll) .wakeAll (.exit .release)
  | exitRelease : Calls (.exit .release) .release .finished

/-- What a statement is. -/
def Executes (f : Pages) (t : Thread) (pc : Point) : Stmt → Prop
  | .act f' next => Act f t pc f' next
  | .call method next => Calls pc method next

theorem executes_refuse {f : Pages} {t : Thread} {e : Executable} {c : Nat} {line : LoadLine}
    {stmt : Stmt} (hline : line = .readCoff ∨ line = .testMemory) (h : refuse f t = .ok stmt) :
    Executes f t (.load e c line) stmt := by
  cases t with
  | main => cases h
  | process p =>
    obtain rfl := Except.ok.inj h
    exact .refuse hline

theorem executes_execute {f : Pages} {t : Thread} {e : Executable} {c : Nat} {line : LoadLine}
    {stmt : Stmt} (h : execute f t e c line = .ok stmt) : Executes f t (.load e c line) stmt := by
  -- one case for each line of `load`: what it refuses becomes `refuse`, and what it throws is
  -- excluded by `h`
  cases line with
  | readCoff =>
    obtain ⟨r, -, h⟩ := Except.bind_eq_ok.mp h
    cases r with
    | none => exact executes_refuse (.inl rfl) h
    | some r =>
      obtain rfl := Except.ok.inj h
      exact .readCoff
  | testMemory =>
    simp only [execute] at h
    split at h
    · exact executes_refuse (.inr rfl) h
    · obtain rfl := Except.ok.inj h
      exact .testMemory
  | acquire =>
    obtain rfl := Except.ok.inj h
    exact .loadAcquire
  | testPool =>
    simp only [execute] at h
    obtain rfl := Except.ok.inj h
    split
    · exact .tooFew
    · exact .enough (by omega)
  | sleep =>
    obtain rfl := Except.ok.inj h
    exact .sleep
  | newTable =>
    simp only [execute] at h
    split at h
    · cases h
    · obtain rfl := Except.ok.inj h
      exact .newTable (by omega)
  | takePage i =>
    simp only [execute] at h
    split at h
    · split at h
      · cases h
      · -- the pool still has a page, and the table an entry that is empty
        rename_i page rest hpool
        split at h
        · obtain rfl := Except.ok.inj h
          exact .takePage ‹_› hpool ‹_›
        · cases h
    · obtain rfl := Except.ok.inj h
      exact .filled (by omega)
  | release =>
    obtain rfl := Except.ok.inj h
    exact .loadRelease
  | copySections =>
    obtain ⟨table, htable, h⟩ := Except.bind_eq_ok.mp h
    obtain rfl := Except.ok.inj h
    exact .copySections htable
  | fork =>
    obtain rfl := Except.ok.inj h
    exact .fork

theorem executes_unloadSections {f : Pages} {p : Nat} {line : ExitLine} {stmt : Stmt}
    (h : unloadSections f p line = .ok stmt) : Executes f (.process p) (.exit line) stmt := by
  cases line with
  | acquire =>
    obtain rfl := Except.ok.inj h
    exact .exitAcquire
  | freePage i =>
    simp only [unloadSections] at h
    split at h
    · split at h
      · cases h
      · cases h
      · obtain rfl := Except.ok.inj h
        exact .freePage ‹_›
    · obtain rfl := Except.ok.inj h
      exact .freed (by omega)
  | wakeAll =>
    obtain rfl := Except.ok.inj h
    exact .wakeAll
  | release =>
    obtain rfl := Except.ok.inj h
    exact .exitRelease

theorem executes_statement {f : Pages} {t : Thread} {syscall : Syscall} {pc : Point} {stmt : Stmt}
    (h : statement f t syscall pc = .ok stmt) : Executes f t pc stmt := by
  cases pc with
  | user =>
    cases t with
    | main =>
      cases syscall with
      | exec e =>
        obtain rfl := Except.ok.inj h
        exact .newUserProcess
      | exit => cases h
    | process p =>
      cases syscall with
      | exec e =>
        simp only [statement] at h
        split at h
        · obtain rfl := Except.ok.inj h
          exact .newUserProcess
        · cases h
      | exit =>
        simp only [statement] at h
        split at h
        · obtain rfl := Except.ok.inj h
          exact .startExit ‹_›
        · cases h
  | load e c line => exact executes_execute h
  | exit line =>
    cases t with
    | main => cases h
    | process p => exact executes_unloadSections h
  | finished => cases h

/-! ## The invariant -/

/-- Is the thread between `pageLock.acquire()` and `pageLock.release()`? -/
def Point.locked : Point → Bool
  | .load _ _ line =>
    match line with
    | .testPool | .sleep | .newTable | .takePage _ | .release => true
    | .readCoff | .testMemory | .acquire | .copySections | .fork => false
  | .exit line =>
    match line with
    | .acquire => false
    | .freePage _ | .wakeAll | .release => true
  | .user | .finished => false

/-- Does the thread rely on the size of the pool? -/
def Point.counts : Point → Bool
  | .load _ _ .newTable | .load _ _ (.takePage _) => true
  | _ => false

/-- The process that is loaded or unloaded. -/
def target (t : Thread) : Point → Option Nat
  | .load _ child _ => some child
  | .exit _ =>
    match t with
    | .main => none
    | .process p => some p
  | .user | .finished => none

/-- What holds of process `c` while it is loaded. -/
def LoadOk (c : Process) (freePagesPool : List Int) : LoadLine → Prop
  | .readCoff | .testMemory | .acquire | .testPool | .sleep =>
    c.stage = .new ∧ ppns c.pageTable = []
  | .newTable =>
    c.stage = .new ∧ ppns c.pageTable = [] ∧ c.numPages ≤ freePagesPool.length
  | .takePage i =>
    c.stage = .new ∧ c.numPages ≤ freePagesPool.length + i ∧ c.pageTable.length = c.numPages ∧
      ∀ j, i ≤ j → j < c.pageTable.length → c.pageTable[j]? = some none
  | .release | .copySections => c.stage = .allocated
  | .fork => c.stage = .loaded

/-- What holds of process `c` while it is unloaded. -/
def ExitOk (c : Process) : ExitLine → Prop
  | .acquire => c.stage = .running
  | .freePage i => c.stage = .running ∧ ∀ j < i, c.pageTable[j]? = some none
  | .wakeAll | .release => c.stage = .exited

def PointOk (f : Pages) (t : Thread) : Point → Prop
  | .load _ c line => c < f.created ∧ LoadOk (f.process c) f.freePagesPool line
  | .exit line => ∃ p, t = .process p ∧ p < f.created ∧ ExitOk (f.process p) line
  | .user | .finished => True

/-- Has the process all of its pages? -/
def Stage.hasPages : Stage → Bool
  | .allocated | .loaded | .running => true
  | .new | .exited => false

/-- What holds of process `p` at every stage. -/
structure StageOk (f : Pages) (point : Thread → Point) (p : Nat) : Prop where
  made : (f.process p).stage ≠ .new → p < f.created
  full : (f.process p).stage.hasPages = true →
    (f.process p).pageTable.length = (f.process p).numPages
  filling : (f.process p).stage = .new →
    ppns (f.process p).pageTable = [] ∨ ∃ t e i, point t = .load e p (.takePage i)
  empty : (f.process p).stage = .exited → ppns (f.process p).pageTable = []

/-- The part of the invariant that is about the pages. -/
structure PagesOk (f : Pages) (point : Thread → Point) : Prop where
  points : ∀ t, PointOk f t (point t)
  alone : ∀ {t u c}, target t (point t) = some c → target u (point u) = some c → t = u
  stages : ∀ p, StageOk f point p

/-- The invariant, for the pages `pages`. -/
structure Inv (pages : Multiset Int) (k : UserKernel) : Prop where
  monitor : Conditions.Monitor.Inv .condition k.monitor
  guarded : k.monitor.view.Guarded fun t => (k.point t).locked = true
  attends : ∀ t, (k.point t).counts = true → k.monitor.status t = .client
  all : k.pages.all = pages
  ok : PagesOk k.pages k.point

section Acts

variable {f f' : Pages} {t u : Thread} {pc next : Point} {point : Thread → Point}

@[simp] theorem process_modify_self (f : Pages) (c : Nat) (g : Process → Process) :
    (f.modify c g).process c = g (f.process c) := by
  simp [Pages.modify]

@[simp] theorem created_modify (f : Pages) (c : Nat) (g : Process → Process) :
    (f.modify c g).created = f.created := rfl

@[simp] theorem freePagesPool_modify (f : Pages) (c : Nat) (g : Process → Process) :
    (f.modify c g).freePagesPool = f.freePagesPool := rfl

/-- The process that a statement is about. -/
def touched (t : Thread) (pc next : Point) : Option Nat :=
  (target t pc).orElse fun _ => target t next

theorem touched_cases {c : Nat} (h : touched t pc next = some c) :
    target t pc = some c ∨ target t next = some c := by
  cases hpc : target t pc with
  | none => exact .inr (by simpa [touched, hpc] using h)
  | some c' => exact .inl (by simpa [touched, hpc] using h)

/-- A statement changes no other process. -/
theorem Act.process_eq (h : Act f t pc f' next) {q : Nat} (hq : touched t pc next ≠ some q) :
    f'.process q = f.process q := by
  have hne : ∀ {c}, touched t pc next = some c → q ≠ c := by
    rintro c hc rfl
    exact hq hc
  cases h with
  | startExit _ | refuse _ | testMemory | tooFew | enough _ => rfl
  | newUserProcess | readCoff | newTable _ | filled _ | copySections _ | fork | takePage _ _ _
  | freePage _ | freed _ => simp only [Pages.modify, Function.update_of_ne (hne rfl)]

/-- Only a thread with the lock changes the pool. -/
theorem Act.pool_eq (h : Act f t pc f' next) (hpc : pc.locked = false) :
    f'.freePagesPool = f.freePagesPool := by
  cases h with
  | takePage _ _ _ | freePage _ => simp [Point.locked] at hpc
  | _ => rfl

theorem Act.created_le (h : Act f t pc f' next) : f.created ≤ f'.created := by
  cases h with
  | newUserProcess => exact Nat.le_succ _
  | _ => exact Nat.le_refl _

/-- A thread goes on with its process, has done with it, or begins with another. -/
theorem Act.target_cases (h : Act f t pc f' next) :
    target t next = none ∨ target t next = target t pc ∨ target t next = some f.created ∨
      ∃ p, t = .process p ∧ target t next = some p ∧ (f.process p).stage = .running := by
  cases h with
  | newUserProcess => exact .inr (.inr (.inl rfl))
  | startExit hstage => exact .inr (.inr (.inr ⟨_, rfl, rfl, hstage⟩))
  | refuse _ => exact .inl rfl
  | fork => cases t <;> exact .inl rfl
  | _ => exact .inr (.inl rfl)

/-- The pages move between the pool and the page tables. -/
theorem Act.all_eq (h : Act f t pc f' next) (hok : PointOk f t pc) : f'.all = f.all := by
  cases h with
  | newUserProcess =>
    simp only [Pages.all, Finset.sum_range_succ, Function.update_self]
    -- a process object is created with an empty table, at a number nobody used
    have hsame : ∀ p ∈ Finset.range f.created,
        (ppns (Function.update f.process f.created {} p).pageTable : Multiset Int) =
          ppns (f.process p).pageTable := by
      intro p hp
      rw [Function.update_of_ne (Finset.mem_range.mp hp).ne]
    rw [Finset.sum_congr rfl hsame]
    simp [ppns]
  | startExit _ | refuse _ | testMemory | tooFew | enough _ => rfl
  | readCoff | filled _ | fork => exact Pages.all_modify_of_eq hok.1 _ rfl
  | @newTable t e c _ =>
    -- the table put in has no pages, and neither had the one it replaces
    have hnil : ppns (List.replicate (f.process c).numPages.toNat none) = [] :=
      ppns_eq_nil fun i hi => by rw [List.getElem?_replicate, if_pos (by simpa using hi)]
    exact Pages.all_modify_of_eq hok.1 _ (hnil.trans hok.2.2.1.symm)
  | @takePage t e c i page rest hi hpool hlen =>
    -- one page goes from the pool to the table
    refine Pages.all_modify hok.1 _ _ ?_
    obtain ⟨-, -, -, hnone⟩ := hok.2
    have hperm := ppns_set_some (e := { vpn := i, ppn := page, valid := true })
      (hnone i (Nat.le_refl _) hlen)
    rw [Multiset.coe_eq_coe.mpr hperm, hpool, ← Multiset.cons_coe, ← Multiset.cons_coe,
      Multiset.add_cons, Multiset.cons_add]
  | copySections htable =>
    exact Pages.all_modify_of_eq hok.1 _ (copySections_ppns htable).1
  | @freePage p i entry hentry =>
    -- one page goes from the table to the pool
    obtain ⟨q, hq, hlt, -⟩ := hok
    obtain rfl := Thread.process.inj hq
    refine Pages.all_modify hlt _ _ ?_
    rw [Multiset.coe_eq_coe.mpr (ppns_set_none hentry), ← Multiset.cons_coe, Multiset.add_cons,
      ← Multiset.coe_add, add_right_comm, add_comm, Multiset.coe_singleton, Multiset.singleton_add]
  | freed _ =>
    obtain ⟨q, hq, hlt, -⟩ := hok
    obtain rfl := Thread.process.inj hq
    exact Pages.all_modify_of_eq hlt _ rfl

/-- A statement establishes what the next one relies on. -/
theorem Act.pointOk (h : Act f t pc f' next) (hok : PointOk f t pc)
    (hstages : ∀ p, StageOk f point p) :
    PointOk f' t next := by
  cases h with
  | newUserProcess => exact ⟨Nat.lt_succ_self _, by simp [LoadOk, ppns]⟩
  | startExit hstage => exact ⟨_, rfl, (hstages _).made (by simp [hstage]), hstage⟩
  | refuse _ => trivial
  | readCoff => exact ⟨hok.1, by simpa [LoadOk] using hok.2⟩
  | testMemory | tooFew => exact hok
  | enough hroom => exact ⟨hok.1, hok.2.1, hok.2.2, hroom⟩
  | newTable hpos =>
    obtain ⟨hc, hnew, -, hroom⟩ := hok
    refine ⟨hc, ?_⟩
    simp only [process_modify_self, freePagesPool_modify]
    refine ⟨hnew, by simpa using hroom, ?_, fun j _ hj => ?_⟩
    · simpa using hpos
    · rw [List.getElem?_replicate, if_pos (by simpa using hj)]
  | @takePage _ e c i page rest hi hpool hlen =>
    obtain ⟨hc, hnew, hroom, hlength, hnone⟩ := hok
    refine ⟨hc, ?_⟩
    simp only [process_modify_self]
    refine ⟨hnew, ?_, by simpa using hlength, fun j hij hj => ?_⟩
    · -- one page less in the pool, and one page less to take
      simp only [hpool, List.length_cons] at hroom
      push_cast at hroom ⊢
      omega
    · rw [List.getElem?_set_ne (by omega)]
      exact hnone j (by omega) (by simpa using hj)
  | filled _ => exact ⟨hok.1, by simp [LoadOk]⟩
  | copySections _ => exact ⟨hok.1, by simp [LoadOk]⟩
  | fork => cases t <;> trivial
  | @freePage p i entry hentry =>
    obtain ⟨q, hq, hlt, hrunning, hnone⟩ := hok
    obtain rfl := Thread.process.inj hq
    refine ⟨p, rfl, hlt, ?_⟩
    simp only [process_modify_self]
    refine ⟨hrunning, fun j hj => ?_⟩
    obtain ⟨hi, -⟩ := List.getElem?_eq_some_iff.mp hentry
    by_cases hji : j = i
    · subst hji
      simp [hi]
    · rw [List.getElem?_set_ne (Ne.symm hji)]
      exact hnone j (by omega)
  | freed _ =>
    obtain ⟨q, hq, hlt, -⟩ := hok
    obtain rfl := Thread.process.inj hq
    exact ⟨_, rfl, hlt, by simp [ExitOk]⟩

/-- What another thread relies on stays: its process is not touched, and if it relies on the
    size of the pool, then neither is the pool. -/
theorem PointOk.other (hok : PointOk f u pc)
    (hprocess : ∀ c, target u pc = some c → f'.process c = f.process c)
    (hcreated : f.created ≤ f'.created)
    (hpool : pc.counts = true → f'.freePagesPool = f.freePagesPool) : PointOk f' u pc := by
  cases pc with
  | load e c line =>
    refine ⟨Nat.lt_of_lt_of_le hok.1 hcreated, ?_⟩
    rw [hprocess c rfl]
    cases line with
    | newTable | takePage _ =>
      rw [hpool rfl]
      exact hok.2
    | _ => exact hok.2
  | exit line =>
    obtain ⟨p, rfl, hlt, hexit⟩ := hok
    exact ⟨p, rfl, Nat.lt_of_lt_of_le hlt hcreated, by rw [hprocess p rfl]; exact hexit⟩
  | user | finished => trivial

/-- A process that is loaded is not running. -/
theorem PointOk.target_lt {c : Nat} (hok : PointOk f u pc) (htarget : target u pc = some c) :
    c < f.created ∧ ((f.process c).stage = .running → u = .process c) := by
  cases pc with
  | load e c' line =>
    obtain rfl := Option.some.inj htarget
    refine ⟨hok.1, fun hrunning => ?_⟩
    cases line <;> simp [PointOk, LoadOk, hrunning] at hok
  | exit line =>
    obtain ⟨p, rfl, hlt, -⟩ := hok
    obtain rfl := Option.some.inj htarget
    exact ⟨hlt, fun _ => rfl⟩
  | user | finished => cases htarget

/-- No two threads come to work on one process. -/
theorem Act.alone (h : Act f t pc f' next) (hok : PagesOk f point) (hpc : point t = pc) {c : Nat}
    (hc : target t next = some c) (hut : u ≠ t) : target u (point u) ≠ some c := by
  intro htarget
  obtain ⟨hlt, hrunning⟩ := (hok.points u).target_lt htarget
  obtain hnone | hsame | hnew | ⟨p, rfl, hp, hstage⟩ := h.target_cases
  · simp [hnone] at hc
  · rw [hsame, ← hpc] at hc
    exact hut (hok.alone htarget hc)
  · rw [hnew] at hc
    obtain rfl := Option.some.inj hc
    exact absurd hlt (Nat.lt_irrefl _)
  · rw [hp] at hc
    obtain rfl := Option.some.inj hc
    exact hut (hrunning hstage)

/-- The process that a statement is about has what its stage says. -/
theorem Act.stageOk_touched (h : Act f t pc f' next) (hok : PagesOk f point) (hpc : point t = pc)
    {p : Nat} (hp : touched t pc next = some p) :
    StageOk f' (Function.update point t next) p := by
  have hpoint := hok.points t
  have hstage := hok.stages p
  rw [hpc] at hpoint
  cases h with
  | newUserProcess =>
    obtain rfl := Option.some.inj hp
    constructor <;> simp [Stage.hasPages, ppns]
  | startExit hrunning =>
    obtain rfl := Option.some.inj hp
    exact ⟨hstage.made, hstage.full, by simp [hrunning], hstage.empty⟩
  | @refuse _ _ c _ hline =>
    obtain rfl := Option.some.inj hp
    have hnil : ppns (f.process c).pageTable = [] := by
      rcases hline with rfl | rfl
      · exact hpoint.2.2
      · exact hpoint.2.2
    exact ⟨hstage.made, hstage.full, fun _ => .inl hnil, hstage.empty⟩
  | testMemory | tooFew | enough _ =>
    obtain rfl := Option.some.inj hp
    exact ⟨hstage.made, hstage.full, fun _ => .inl hpoint.2.2, hstage.empty⟩
  | readCoff =>
    obtain rfl := Option.some.inj hp
    obtain ⟨hlt, hnew, hnil⟩ := hpoint
    constructor <;> simp [hnew, hnil, Stage.hasPages]
  | newTable _ =>
    obtain rfl := Option.some.inj hp
    obtain ⟨hlt, hnew, -⟩ := hpoint
    constructor
    · exact fun _ => hlt
    · simp [hnew, Stage.hasPages]
    · exact fun _ => .inr ⟨t, _, _, Function.update_self _ _ _⟩
    · simp [hnew]
  | takePage _ _ _ =>
    obtain rfl := Option.some.inj hp
    obtain ⟨hlt, hnew, -⟩ := hpoint
    constructor
    · exact fun _ => hlt
    · simp [hnew, Stage.hasPages]
    · exact fun _ => .inr ⟨t, _, _, Function.update_self _ _ _⟩
    · simp [hnew]
  | filled _ =>
    obtain rfl := Option.some.inj hp
    obtain ⟨hlt, -, -, hlength, -⟩ := hpoint
    constructor <;> simp [hlt, hlength]
  | copySections htable =>
    obtain rfl := Option.some.inj hp
    obtain ⟨hlt, hallocated⟩ := hpoint
    have hfull := hstage.full (by rw [hallocated]; rfl)
    constructor <;> simp [hlt, hfull, (copySections_ppns htable).2]
  | fork =>
    obtain rfl := Option.some.inj hp
    obtain ⟨hlt, hloaded⟩ := hpoint
    have hfull := hstage.full (by rw [hloaded]; rfl)
    constructor <;> simp [hlt, hfull]
  | freePage _ =>
    obtain rfl := Option.some.inj hp
    obtain ⟨q, hq, hlt, hrunning, -⟩ := hpoint
    obtain rfl := Thread.process.inj hq
    have hfull := hstage.full (by rw [hrunning]; rfl)
    constructor <;> simp [hlt, hrunning, hfull]
  | @freed c _ hi =>
    obtain rfl := Option.some.inj hp
    obtain ⟨q, hq, hlt, hrunning, hnone⟩ := hpoint
    obtain rfl := Thread.process.inj hq
    have hfull := hstage.full (by rw [hrunning]; rfl)
    -- the loop has gone over the whole table
    have hnil : ppns (f.process c).pageTable = [] := ppns_eq_nil fun j hj => hnone j (by omega)
    constructor <;> simp [hlt, hnil, Stage.hasPages]

theorem Act.stageOk (h : Act f t pc f' next) (hok : PagesOk f point) (hpc : point t = pc)
    (p : Nat) :
    StageOk f' (Function.update point t next) p := by
  by_cases hp : touched t pc next = some p
  · exact h.stageOk_touched hok hpc hp
  · have hstage := hok.stages p
    have hsame := h.process_eq hp
    refine ⟨fun hne => ?_, by rw [hsame]; exact hstage.full, fun hnew => ?_,
      by rw [hsame]; exact hstage.empty⟩
    · rw [hsame] at hne
      exact Nat.lt_of_lt_of_le (hstage.made hne) h.created_le
    · rw [hsame] at hnew ⊢
      obtain hnil | ⟨u, e, i, hu⟩ := hstage.filling hnew
      · exact .inl hnil
      · have hut : u ≠ t := by
          rintro rfl
          exact hp (by simp [touched, ← hpc, hu, target])
        exact .inr ⟨u, e, i, by rw [Function.update_of_ne hut, hu]⟩

/-- A statement keeps the pages in order, if no other thread relies on a pool that it changes. -/
theorem Act.pagesOk (h : Act f t pc f' next) (hok : PagesOk f point) (hpc : point t = pc)
    (hlock : pc.locked = true → ∀ u, (point u).counts = true → u = t) :
    PagesOk f' (Function.update point t next) where
  points u := by
    by_cases hut : u = t
    · subst hut
      rw [Function.update_self]
      exact h.pointOk (hpc ▸ hok.points u) hok.stages
    · rw [Function.update_of_ne hut]
      -- the point of another thread depends on the process it loads, and on the pool if it counts
      -- on it
      refine (hok.points u).other (fun c hc => h.process_eq fun htouched => ?_) h.created_le
        fun hcounts => h.pool_eq ?_
      · rcases touched_cases htouched with hold | hnew
        · rw [← hpc] at hold
          exact hut (hok.alone hc hold)
        · exact h.alone hok hpc hnew hut hc
      · rw [← Bool.not_eq_true]
        exact fun hlocked => hut (hlock hlocked u hcounts)
  alone {u v c} hu hv := by
    by_cases hut : u = t <;> by_cases hvt : v = t
    · rw [hut, hvt]
    · subst hut
      rw [Function.update_self] at hu
      rw [Function.update_of_ne hvt] at hv
      exact absurd hv (h.alone hok hpc hu hvt)
    · subst hvt
      rw [Function.update_self] at hv
      rw [Function.update_of_ne hut] at hu
      exact absurd hu (h.alone hok hpc hv hut)
    · rw [Function.update_of_ne hut] at hu
      rw [Function.update_of_ne hvt] at hv
      exact hok.alone hu hv
  stages := h.stageOk hok hpc

end Acts

section Steps

variable {k k' : UserKernel} {t u prefer : Thread} {f f' : Pages} {pc next : Point}
  {method : Conditions.Method} {pages : Multiset Int}

theorem Point.locked_of_counts (h : pc.counts = true) : pc.locked = true := by
  unfold Point.counts at h
  split at h
  · rfl
  · rfl
  · cases h

/-- Only the methods of the lock enter or leave a critical section. -/
theorem Act.locked (h : Act f t pc f' next) (hnext : next.locked = true) : pc.locked = true := by
  cases h with
  | newUserProcess | startExit _ | refuse _ | readCoff | testMemory | copySections _ =>
    cases hnext
  | fork => cases t <;> cases hnext
  | tooFew | enough _ | newTable _ | takePage _ _ _ | filled _ | freePage _ | freed _ => rfl

/-- A thread in its critical section has the lock. -/
theorem Inv.holder (h : Inv pages k) (hs : k.monitor.status t = .client)
    (hlocked : (k.point t).locked = true) : k.monitor.lockHolder = some t := by
  refine h.guarded t hlocked ?_
  show k.monitor.phase t = .outside
  rw [Conditions.Monitor.phase, hs, Conditions.Status.phase]

theorem act_inv (h : Inv pages k) (hs : k.monitor.status t = .client)
    (hact : Act k.pages t (k.point t) f' next) :
    Inv pages { k with pages := f', point := Function.update k.point t next } where
  monitor := h.monitor
  guarded := by
    intro u hu hout
    by_cases hut : u = t
    · subst hut
      simp only [Function.update_self] at hu
      exact h.guarded u (hact.locked hu) hout
    · simp only [Function.update_of_ne hut] at hu
      exact h.guarded u hu hout
  attends u hu := by
    by_cases hut : u = t
    · rw [hut]
      exact hs
    · simp only [Function.update_of_ne hut] at hu
      exact h.attends u hu
  all := (hact.all_eq (h.ok.points t)).trans h.all
  ok := by
    -- both threads would hold the lock, so they are one
    refine hact.pagesOk h.ok rfl fun hlocked u hu => ?_
    have hheld := h.holder hs hlocked
    have hheld' := h.holder (h.attends u hu) (Point.locked_of_counts hu)
    exact Option.some.inj (hheld'.symm.trans hheld)

/-! ## Methods of the lock and the condition -/

theorem Calls.allows (h : Calls pc method next) :
    method.Allows (pc.locked = true) (next.locked = true) := by
  cases h with
  | loadAcquire | sleep | exitAcquire => trivial
  | loadRelease | exitRelease => exact Bool.false_ne_true
  | wakeAll => exact fun _ => rfl

theorem Calls.not_counts (h : Calls pc method next) : pc.counts = false ∧ next.counts = false := by
  cases h <;> exact ⟨rfl, rfl⟩

theorem Calls.target_cases (h : Calls pc method next) :
    target t next = none ∨ target t next = target t pc := by
  cases h with
  | exitRelease => exact .inl rfl
  | _ => exact .inr rfl

theorem Calls.pointOk (h : Calls pc method next) (hok : PointOk f t pc) : PointOk f t next := by
  cases h with
  | loadAcquire | sleep | loadRelease | wakeAll => exact hok
  | exitAcquire =>
    obtain ⟨p, rfl, hlt, hrunning⟩ := hok
    exact ⟨p, rfl, hlt, hrunning, fun j hj => absurd hj (Nat.not_lt_zero j)⟩
  | exitRelease => trivial

theorem Calls.pagesOk {point : Thread → Point} (h : Calls (point t) method next)
    (hok : PagesOk f point) : PagesOk f (Function.update point t next) where
  points u := by
    by_cases hut : u = t
    · subst hut
      rw [Function.update_self]
      exact h.pointOk (hok.points u)
    · rw [Function.update_of_ne hut]
      exact hok.points u
  alone {u v c} hu hv := by
    have hold : ∀ {x}, target x (Function.update point t next x) = some c →
        target x (point x) = some c := by
      intro x hx
      by_cases hxt : x = t
      · subst hxt
        rw [Function.update_self] at hx
        rcases h.target_cases (t := x) with hnone | hsame
        · simp [hnone] at hx
        · rwa [← hsame]
      · rwa [Function.update_of_ne hxt] at hx
    exact hok.alone (hold hu) (hold hv)
  stages p := by
    refine { hok.stages p with filling := fun hnew => ?_ }
    obtain hnil | ⟨u, e, i, hu⟩ := (hok.stages p).filling hnew
    · exact .inl hnil
    · have hut : u ≠ t := by
        rintro rfl
        simpa [hu, Point.counts] using h.not_counts.1
      exact .inr ⟨u, e, i, by rw [Function.update_of_ne hut, hu]⟩

/-- A step of the lock or the condition. -/
theorem advance_inv (h : Inv pages k) (hadvance : k.advance t prefer method next = .ok k')
    (hnext : if k.monitor.status t = .client then Calls (k.point t) method next
      else next = k.point t) : Inv pages k' := by
  unfold advance at hadvance
  split at hadvance
  · cases hadvance
  rename_i monitor hstep
  obtain rfl := Except.ok.inj hadvance
  -- the monitor's own invariant is the one of its refinement
  have hmonitor : Conditions.Monitor.Inv .condition monitor := by
    obtain ⟨-, hnone⟩ | ⟨m, hsome, hrefines⟩ :=
      Conditions.Monitor.step_refines h.monitor ⟨t, method, prefer⟩
    · simp [hnone] at hstep
    · obtain rfl := Option.some.inj (hsome.symm.trans hstep)
      exact hrefines.inv
  refine ⟨hmonitor, ?_, fun u hu => ?_, h.all, ?_⟩
  · refine Conditions.Monitor.guarded_step h.monitor h.guarded hstep (fun u hut hu => ?_) ?_
    · simpa only [Function.update_of_ne hut] using hu
    · simp only [Function.update_self]
      split at hnext
      · rename_i hs
        rw [if_pos hs]
        exact hnext.allows
      · rename_i hs
        rw [if_neg hs, hnext]
        exact id
  · -- a thread that counts on the monitor is still in its call: the one that moves by its own
    -- step, the others because the step leaves their status
    by_cases hut : u = t
    · subst hut
      simp only [Function.update_self] at hu
      split at hnext
      · simp [hnext.not_counts.2] at hu
      · rename_i hs
        exact absurd (h.attends u (hnext ▸ hu)) hs
    · simp only [Function.update_of_ne hut] at hu
      exact Conditions.Monitor.status_step hstep hut (h.attends u hu)
  · split at hnext
    · exact hnext.pagesOk h.ok
    · rw [hnext, Function.update_eq_self]
      exact h.ok

/-! ## Runs -/

theorem step_inv {choice : Choice Thread Syscall} (h : Inv pages k)
    (hstep : k.step choice = .ok k') :
    Inv pages k' := by
  simp only [step] at hstep
  split at hstep
  · rename_i hs
    obtain ⟨stmt, hstmt, hstep⟩ := Except.bind_eq_ok.mp hstep
    have hexecutes := executes_statement hstmt
    cases stmt with
    | act f' next =>
      obtain rfl := Except.ok.inj hstep
      exact act_inv h hs hexecutes
    | call method next =>
      refine advance_inv h hstep ?_
      rw [if_pos hs]
      exact hexecutes
  · rename_i hs
    refine advance_inv h hstep ?_
    rw [if_neg hs]

/-- `load` raises no `NoSuchElementException`. -/
theorem load_ne_noSuchElement (e : Executable) : load e ≠ .error .noSuchElement := by
  have hargs : ∀ args size, argsSize args size ≠ .error .noSuchElement := by
    intro args
    induction args with
    | nil => exact nofun
    | cons arg args ih =>
      intro size
      cases arg with
      | none => exact nofun
      | some arg => exact ih _
  unfold load
  split
  · exact nofun
  split
  · exact nofun
  cases hsize : argsSize e.args 0 with
  | error error =>
    intro h
    obtain rfl := Except.error.inj h
    exact hargs _ _ hsize
  | ok size =>
    simp only [bind, Except.bind]
    split <;> exact nofun

theorem copySection_ne_noSuchElement (table : PageTable) (s : Section) :
    copySection table s ≠ .error .noSuchElement := by
  refine Except.foldlM_ne_error (fun table i => ?_) _ _
  unfold setReadOnly
  split
  · exact nofun
  · split <;> exact nofun

/-- A thread that takes a page has found enough of them in the pool. -/
theorem execute_ne_noSuchElement {e : Executable} {c : Nat} {line : LoadLine}
    (hok : PointOk f t (.load e c line)) : execute f t e c line ≠ .error .noSuchElement := by
  have hrefuse : refuse f t ≠ .error .noSuchElement := by cases t <;> exact nofun
  cases line with
  | readCoff =>
    cases hload : load e with
    | error error =>
      intro h
      simp only [execute, hload] at h
      obtain rfl := Except.error.inj h
      exact load_ne_noSuchElement e hload
    | ok r =>
      simp only [execute, hload]
      cases r with
      | none => exact hrefuse
      | some r => exact nofun
  | testMemory =>
    simp only [execute]
    split
    · exact hrefuse
    · exact nofun
  | newTable =>
    simp only [execute]
    split <;> exact nofun
  | takePage i =>
    -- the pool was checked under the lock, so it holds a page for each entry that is left
    obtain ⟨-, -, hroom, -⟩ := hok
    simp only [execute]
    split
    · split
      · rename_i hi hpool
        simp only [hpool, List.length_nil] at hroom
        omega
      · split <;> exact nofun
    · exact nofun
  | copySections =>
    cases hcopy : (f.process c).coff.foldlM copySection (f.process c).pageTable with
    | error error =>
      intro h
      simp only [execute, hcopy] at h
      obtain rfl := Except.error.inj h
      exact Except.foldlM_ne_error copySection_ne_noSuchElement _ _ hcopy
    | ok table =>
      simp only [execute, hcopy]
      exact nofun
  | acquire | testPool | sleep | release | fork => exact nofun

theorem statement_ne_noSuchElement {syscall : Syscall} (hok : PointOk f t pc) :
    statement f t syscall pc ≠ .error .noSuchElement := by
  cases pc with
  | user =>
    cases t with
    | main => cases syscall <;> exact nofun
    | process p =>
      cases syscall with
      | exec e | exit =>
        simp only [statement]
        split <;> exact nofun
  | load e c line => exact execute_ne_noSuchElement hok
  | exit line =>
    cases t with
    | main => exact nofun
    | process p =>
      cases line with
      | freePage i =>
        simp only [statement, unloadSections]
        split
        · split <;> exact nofun
        · exact nofun
      | acquire | wakeAll | release => exact nofun
  | finished => exact nofun

theorem step_ne_noSuchElement (h : Inv pages k) (choice : Choice Thread Syscall) :
    k.step choice ≠ .error .noSuchElement := by
  have hadvance : ∀ {t prefer method next},
      k.advance t prefer method next ≠ .error .noSuchElement := by
    intro t prefer method next
    unfold advance
    split <;> exact nofun
  simp only [step]
  split
  · cases hs : statement k.pages choice.thread choice.input (k.point choice.thread) with
    | error error =>
      intro hstep
      obtain rfl := Except.error.inj hstep
      exact statement_ne_noSuchElement (h.ok.points choice.thread) hs
    | ok stmt =>
      cases stmt with
      | act f' next => exact nofun
      | call method next => exact hadvance
  · exact hadvance

theorem run_inv (choices : List (Choice Thread Syscall)) (h : Inv pages k) :
    (∀ k', k.run choices = .ok k' → Inv pages k') ∧ k.run choices ≠ .error .noSuchElement := by
  induction choices generalizing k with
  | nil =>
    refine ⟨fun k' hrun => ?_, nofun⟩
    obtain rfl := Except.ok.inj hrun
    exact h
  | cons choice choices ih =>
    simp only [run, List.foldlM_cons]
    cases hstep : k.step choice with
    | error error =>
      refine ⟨nofun, fun hrun => ?_⟩
      obtain rfl := Except.error.inj hrun
      exact step_ne_noSuchElement h choice hstep
    | ok k₁ => exact ih (step_inv h hstep)

theorem boot_inv (n : Nat) :
    Inv (((List.range n).map fun i : Nat => (i : Int) : List Int) : Multiset Int) (boot n) := by
  refine ⟨Conditions.Monitor.init_inv, nofun, nofun, by simp [boot, Pages.all], ?_⟩
  exact ⟨fun _ => trivial, nofun, fun p => by constructor <;> simp [boot, Stage.hasPages, ppns]⟩

/-- The pool and the page tables of the processes at the stages `counted` hold the `n` pages,
    each once. -/
def Conserved (counted : Stage → Bool) (n : Nat) (k : UserKernel) : Prop :=
  (k.pages.freePagesPool ++ (List.range k.pages.created).flatMap fun p =>
    if counted (k.pages.process p).stage then ppns (k.pages.process p).pageTable else []).Perm
      ((List.range n).map fun i : Nat => (i : Int))

instance (counted : Stage → Bool) (n : Nat) (k : UserKernel) : Decidable (Conserved counted n k) :=
  inferInstanceAs (Decidable (List.Perm _ _))

/-- Only the thread that has the lock can be filling a page table. -/
theorem Inv.ppns_eq (h : Inv pages k) (hfree : k.monitor.lockHolder = none) (p : Nat) :
    (if (k.pages.process p).stage.hasPages then ppns (k.pages.process p).pageTable else []) =
      ppns (k.pages.process p).pageTable := by
  have hstage := h.ok.stages p
  cases hs : (k.pages.process p).stage with
  | allocated | loaded | running => rfl
  | exited => exact (hstage.empty hs).symm
  | new =>
    obtain hnil | ⟨t, e, i, ht⟩ := hstage.filling hs
    · exact hnil.symm
    · have hcounts : (k.point t).counts = true := by rw [ht]; rfl
      have hheld := h.holder (h.attends t hcounts) (Point.locked_of_counts hcounts)
      simp [hfree] at hheld

/-- Physical pages are conserved in every run: whenever `pageLock` is free, the pool and the
    page tables of the processes that have got their pages and not exited hold every page once.
    `removeFirst` is never called on an empty pool. -/
theorem run_pagesConserved (n : Nat) (choices : List (Choice Thread Syscall)) :
    (∀ k, (boot n).run choices = .ok k → k.monitor.lockHolder = none →
      Conserved Stage.hasPages n k) ∧
    (boot n).run choices ≠ .error .noSuchElement := by
  obtain ⟨hinv, herror⟩ := run_inv choices (boot_inv n)
  refine ⟨fun k hrun hfree => ?_, herror⟩
  have h := hinv k hrun
  rw [Conserved, ← Multiset.coe_eq_coe, ← Multiset.coe_add, coe_flatMap_range]
  rw [Finset.sum_congr rfl fun p _ => congrArg _ (h.ppns_eq hfree p)]
  exact h.all

end Steps

/-- A program with two empty sections: it needs nine pages. -/
def small : Executable := ⟨some [⟨0, 0, true⟩, ⟨0, 0, false⟩], []⟩

/-- A thread takes `n` steps. -/
def steps (t : Thread) (syscall : Syscall) (n : Nat) : List (Choice Thread Syscall) :=
  List.replicate n ⟨t, syscall, .main⟩

/-- With twenty pages, process 0 makes process 1, finds too few pages for a third process and
    sleeps until process 1 has exited. -/
def sleepAndExit : List (Choice Thread Syscall) :=
  steps .main (.exec small) 19 ++ steps (.process 0) (.exec small) 26 ++
    steps (.process 1) .exit 16 ++ steps (.process 0) (.exec small) 15

theorem run_pagesConserved_sleepAndExit :
    ∃ k, (boot 20).run sleepAndExit = .ok k ∧ k.monitor.lockHolder = none ∧
      k.pages.freePagesPool = [16, 17] ∧ Conserved Stage.hasPages 20 k := by
  obtain ⟨k, hrun, htest⟩ := Except.exists_of_map_eq_ok (r := (boot 20).run sleepAndExit)
    (fun k => k.monitor.lockHolder == none && k.pages.freePagesPool == [16, 17])
    (by decide +kernel)
  obtain ⟨hfree, hpool⟩ : k.monitor.lockHolder = none ∧ k.pages.freePagesPool = [16, 17] := by
    simpa using htest
  exact ⟨k, hrun, hfree, hpool, (run_pagesConserved 20 sleepAndExit).1 k hrun hfree⟩

/-- Has `load` of the process returned, and has the process not exited? -/
def Stage.finishedLoading : Stage → Bool
  | .loaded | .running => true
  | .new | .allocated | .exited => false

/-- `loadSections` releases the lock before it loads the sections, so the pages of a process
    that has not finished loading are missing from the pool while the lock is free. -/
theorem not_conserved_whileCopying :
    ¬ ∀ (n : Nat) (choices : List (Choice Thread Syscall)) (k : UserKernel),
      (boot n).run choices = .ok k → k.monitor.lockHolder = none →
        Conserved Stage.finishedLoading n k := by
  intro hall
  obtain ⟨k, hrun, htest⟩ := Except.exists_of_map_eq_ok
    (r := (boot 20).run (steps .main (.exec small) 17))
    (fun k => k.monitor.lockHolder == none && !decide (Conserved Stage.finishedLoading 20 k))
    (by decide +kernel)
  obtain ⟨hfree, hnot⟩ : k.monitor.lockHolder = none ∧ ¬ Conserved Stage.finishedLoading 20 k := by
    simpa using htest
  exact hnot (hall 20 _ k hrun hfree)

end UserKernel

end Nachos
