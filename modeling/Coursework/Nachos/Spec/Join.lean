import Coursework.Nachos.Spec.ExitNotification
import Coursework.Nachos.Spec.ProcessMemory

/-!
# What `join` reports

How a child ended, as its parent learns it from `join`. The status, "not found" and "killed
by an exception" share one `int`, so `-1` and `-2` are not reported like other statuses; and
the status is not written to the last bytes of the address space.
-/

namespace Nachos

namespace Processes

open Mesa (Phase Step Steps)

/-! ## While other threads run -/

/-- What a step of another thread leaves of process `p`. -/
structure Undisturbed (st st' : System) (p : Nat) : Prop where
  status : st'.status p = st.status p
  table : (st'.shared.process p).pageTable = (st.shared.process p).pageTable
  children : (st'.shared.process p).children = (st.shared.process p).children
  buckets : ∀ b ∈ (st.shared.process p).freeChildren, b ∈ (st'.shared.process p).freeChildren
  bytes : ∀ x, userByte st'.shared p x = userByte st.shared p x

section Other

variable {st st' : System} {choice : Choice Nat Syscall} {p : Nat} {pc : Point}

theorem step_undisturbed (h : Sound st) (hp : st.status p = .ready pc) (hpc : pc ≠ .user none)
    (hne : p ≠ choice.thread) (hstep : Threads.step program st choice = some st') :
    Undisturbed st st' p := by
  obtain ⟨hstatus, hshared⟩ := Threads.step_other h.locks hne hp hstep
  have hforked : (st.shared.process p).forked = true := by
    refine h.inv.running p ?_
    simpa [Threads.monitor, hp, Status.phase] using hpc
  rcases hshared with heq | ⟨q, next, hq, hinstr⟩
  · refine ⟨hstatus.trans hp.symm, ?_, ?_, ?_, ?_⟩
    all_goals simp [heq]
  · have ha : Executes st.shared choice.thread q (.act st'.shared next) :=
      hinstr ▸ executes_instr q choice.input
    have hrun : st.monitor.thread choice.thread = .run q := by
      simp [Threads.monitor, hq, Status.phase]
    have hch := Act.change (h.inv.fresh _ (Nat.le_refl _)).1 (h.inv.pointOk hrun) ha p
    have htable : (st'.shared.process p).pageTable = (st.shared.process p).pageTable := by
      rcases hch.pageTable with heq | ⟨heq, -⟩ | hnot
      · exact heq
      · exact absurd heq hne
      · exact absurd (hforked.symm.trans hnot) (by decide)
    refine ⟨hstatus.trans hp.symm, htable, hch.children_eq hne, fun b hb => ?_,
      Act.userByte_other h.frames ha hne htable⟩
    rcases hch.freeChildren with heq | ⟨s, -, -, -, heq⟩
    · exact heq ▸ hb
    · exact heq ▸ List.mem_append_left _ hb

end Other

/-! ## The statements of a `join` -/

/-- The statements that `join` still executes when it has `k` left. -/
inductive JoinAt (c : Nat) (addr s : BitVec 32) : Nat → Point → Prop where
  | search {r : BitVec 32} : JoinAt c addr s 5 (.join (pidOf c) addr c r .search)
  | test : JoinAt c addr s 4 (.join (pidOf c) addr c s .test)
  | release : JoinAt c addr s 3 (.join (pidOf c) addr c s .release)
  | remove : JoinAt c addr s 2 (.join (pidOf c) addr c s .remove)
  | report : JoinAt c addr s 1 (.join (pidOf c) addr c s .report)
  | ret : JoinAt c addr s 0 (.user (some (if s = -1 then 0 else 1)))

/-- Process `p` has `k` statements left of a `join` of `c`, whose bucket it has. `table` is
    its page table, and `bytes` is its memory when the `join` started. -/
structure Stage (p c : Nat) (addr s : BitVec 32) (table : List TranslationEntry)
    (bytes : Nat → Option UInt8) (k : Nat) (st : System) : Prop where
  sound : Sound st
  point : ∃ pc, st.status p = .ready pc ∧ JoinAt c addr s k pc
  bucket : ∃ b ∈ (st.shared.process p).freeChildren, b.source = c ∧ b.status = s
  pageTable : (st.shared.process p).pageTable = table
  before : 0 < k → ∀ x, userByte st.shared p x = bytes x
  after : k = 0 → s ≠ -1 → if addr.toNat < table.length * (pageSize - 1) then
    Holds st.shared p addr s else ∀ x, userByte st.shared p x = bytes x
  removed : k ≤ 1 → c ∉ (st.shared.process p).children

section Stage

variable {p c k : Nat} {addr s : BitVec 32} {table : List TranslationEntry}
  {bytes : Nat → Option UInt8} {st st' : System}

theorem JoinAt.ne_user {pc : Point} (h : JoinAt c addr s k pc) : pc ≠ .user none := by
  cases h <;> simp

/-- The steps of other threads leave the `join` where it is. -/
theorem Stage.other {choice : Choice Nat Syscall} (h : Stage p c addr s table bytes k st)
    (hne : p ≠ choice.thread) (hstep : Threads.step program st choice = some st') :
    Stage p c addr s table bytes k st' := by
  obtain ⟨pc, hpc, hat⟩ := h.point
  have hu := step_undisturbed h.sound hpc hat.ne_user hne hstep
  obtain ⟨b, hb, hsource⟩ := h.bucket
  refine ⟨h.sound.step hstep, ⟨pc, hu.status.trans hpc, hat⟩, ⟨b, hu.buckets b hb, hsource⟩,
    hu.table.trans h.pageTable, fun hk x => (hu.bytes x).trans (h.before hk x), fun hk hs => ?_,
    fun hk => hu.children ▸ h.removed hk⟩
  have hafter := h.after hk hs
  split at hafter
  · rw [if_pos ‹_›]
    exact fun i hi => (hu.bytes _).trans (hafter i hi)
  · rw [if_neg ‹_›]
    exact fun x => (hu.bytes x).trans (hafter x)

/-- The search finds the status of the child. -/
theorem Stage.search_eq (h : Stage p c addr s table bytes k st)
    (hpids : st.shared.globalPid ≤ 2 ^ 32) :
    searchFreeChildren (st.shared.process p).freeChildren (pidOf c) = s := by
  obtain ⟨b, hb, rfl, rfl⟩ := h.bucket
  have hok := h.sound.inv.buckets p b hb
  obtain ⟨e, he, hstatus⟩ := hok.status
  have hfilter := h.sound.inv.filter_of_sent hpids hok.creator he ⟨p, hok.creator, b, hb, rfl⟩
  exact (searchFreeChildren_of_filter hfilter).trans hstatus.symm

/-- A statement of the `join` itself that leaves the fields alone. -/
theorem Stage.keep {choice : Choice Nat Syscall} {pc' : Point}
    (h : Stage p c addr s table bytes (k + 1) st) (hk : 1 ≤ k)
    (hstep : Threads.step program st choice = some st') (hshared : st'.shared = st.shared)
    (hstatus : st'.status p = .ready pc') (hat : JoinAt c addr s k pc')
    (hremoved : k = 1 → c ∉ (st.shared.process p).children) :
    Stage p c addr s table bytes k st' where
  sound := h.sound.step hstep
  point := ⟨pc', hstatus, hat⟩
  bucket := by rw [hshared]; exact h.bucket
  pageTable := by rw [hshared]; exact h.pageTable
  before _ := by rw [hshared]; exact h.before (Nat.succ_pos k)
  after hk' := absurd hk' (by omega)
  removed hk' := by rw [hshared]; exact hremoved (by omega)

/-- The last statement writes the status, if it is not `-1`. -/
theorem Stage.report (h : Stage p c addr s table bytes 1 st)
    (hpc : st.status p = .ready (.join (pidOf c) addr c s .report)) (input : Syscall)
    (prefer : Nat) :
    ∃ st', Threads.step program st ⟨p, input, prefer⟩ = some st' ∧
      st'.shared.globalPid = st.shared.globalPid ∧ Stage p c addr s table bytes 0 st' := by
  obtain ⟨b, memory, hwrite, hcase⟩ := writeStatus_spec st.shared.memory addr s
    (h.sound.frames.mapped p) h.sound.frames.array (h.sound.frames.pages p)
  by_cases hs : s = -1
  · -- -1 stands for a child ended by an unhandled call: nothing is written, and the call returns 0
    have hinstr : program.instr p (.join (pidOf c) addr c s .report) st.shared input =
        .act st.shared (.user (some 0)) := by
      simp [program, handleJoin, hs]
    obtain ⟨st', hstep, hstatus, hshared⟩ := Threads.step_act prefer hpc hinstr
    refine ⟨st', hstep, by rw [hshared], h.sound.step hstep, ⟨_, hstatus, ?_⟩, hshared ▸ h.bucket,
      hshared ▸ h.pageTable, by omega, fun _ hne => absurd hs hne, fun _ => ?_⟩
    · have hret : JoinAt c addr s 0 _ := .ret
      rwa [if_pos hs] at hret
    · rw [hshared]
      exact h.removed (Nat.le_refl 1)
  · -- otherwise the status is written, if the address is in range, and the call returns 1
    have hinstr : program.instr p (.join (pidOf c) addr c s .report) st.shared input =
        .act { st.shared with memory := memory } (.user (some 1)) := by
      simp only [program, handleJoin, if_neg hs, hwrite]
    obtain ⟨st', hstep, hstatus, hshared⟩ := Threads.step_act prefer hpc hinstr
    have hproc : st'.shared.process = st.shared.process := by rw [hshared]
    refine ⟨st', hstep, by rw [hshared], h.sound.step hstep, ⟨_, hstatus, ?_⟩, hproc ▸ h.bucket,
      hproc ▸ h.pageTable, by omega, fun _ _ => ?_, fun _ => ?_⟩
    · have hret : JoinAt c addr s 0 _ := .ret
      rwa [if_neg hs] at hret
    · rw [h.pageTable] at hcase
      split at hcase
      · rw [if_pos ‹_›, hshared]
        exact holds_of_written (h.pageTable ▸ hcase.1) (h.pageTable ▸ hcase.2)
      · rw [if_neg ‹_›, hshared, hcase]
        exact h.before Nat.one_pos
    · rw [hproc]
      exact h.removed (Nat.le_refl 1)

/-- Every statement of the `join` can be executed, and is the next one. -/
theorem Stage.own (h : Stage p c addr s table bytes (k + 1) st) (hs : s ≠ -2)
    (hpids : st.shared.globalPid ≤ 2 ^ 32) (input : Syscall) (prefer : Nat) :
    ∃ st', Threads.step program st ⟨p, input, prefer⟩ = some st' ∧
      st'.shared.globalPid = st.shared.globalPid ∧ Stage p c addr s table bytes k st' := by
  obtain ⟨pc, hpc, hat⟩ := h.point
  have hrun : st.monitor.thread p = .run pc := by
    simp [Threads.monitor, hpc, Status.phase]
  cases hat with
  | search =>
    obtain ⟨st', hstep, hstatus, hshared⟩ := Threads.step_act (m := program) (i := input)
      prefer hpc rfl
    rw [h.search_eq hpids] at hstatus
    exact ⟨st', hstep, by rw [hshared], h.keep (by omega) hstep hshared hstatus .test (by omega)⟩
  | test =>
    obtain ⟨st', hstep, hstatus, hshared⟩ := Threads.step_act (m := program) (i := input)
      prefer hpc rfl
    rw [if_neg hs] at hstatus
    exact ⟨st', hstep, by rw [hshared], h.keep (by omega) hstep hshared hstatus .release (by omega)⟩
  | release =>
    -- the caller is between `acquire` and `release`, so the lock is its own
    have hheld : st.lockHolder (.freeLock p) = some p := by
      refine (h.sound.inv.lock p p).mpr ?_
      rw [hrun]
      exact .inl ⟨rfl, rfl⟩
    obtain ⟨st', hstep, hstatus, hshared⟩ := Threads.step_release (m := program) (i := input)
      h.sound.locks prefer hpc rfl hheld
    exact ⟨st', hstep, by rw [hshared], h.keep (by omega) hstep hshared hstatus .remove (by omega)⟩
  | remove =>
    obtain ⟨st', hstep, hstatus, hshared⟩ := Threads.step_act (m := program) (i := input)
      prefer hpc rfl
    have hproc : st'.shared.process p = { st.shared.process p with
        children := (st.shared.process p).children.erase c } := by
      simp [hshared, modify]
    -- the child occurs once in the list, so after one removal it is not there
    have hnodup : (st.shared.process p).children.Nodup := h.sound.inv.childrenNodup p
    refine ⟨st', hstep, by rw [hshared]; rfl, h.sound.step hstep, ⟨_, hstatus, .report⟩, ?_, ?_,
      fun _ x => ?_, by omega,
      fun _ => ?_⟩
    · rw [hproc]
      exact h.bucket
    · rw [hproc]
      exact h.pageTable
    · rw [← h.before (by omega) x, userByte, hproc, hshared]
      rfl
    · rw [hproc]
      exact hnodup.not_mem_erase
  | report => exact h.report hpc input prefer

/-- Steps never take a `pid` back. -/
theorem step_pids {choice : Choice Nat Syscall} (h : Sound st)
    (hstep : Threads.step program st choice = some st') :
    st.shared.globalPid ≤ st'.shared.globalPid := by
  have hmono : ∀ {a b : Monitor}, st.shared.globalPid ≤ a.shared.globalPid →
      Step program a b → st.shared.globalPid ≤ b.shared.globalPid := by
    intro a b ha hab
    cases hab with
    | @act t pc i shared next hpc hinstr =>
      have hex : Executes a.shared t pc (.act shared next) := hinstr ▸ executes_instr pc i
      exact Nat.le_trans ha (Act.pids hex)
    | _ => exact ha
  obtain ⟨hsteps, -⟩ := Threads.step_steps h.locks h.inv.queued hstep
  exact hsteps.invariant (Q := fun m => st.shared.globalPid ≤ m.shared.globalPid) hmono
    (Nat.le_refl _)

theorem run_pids {choices : List (Choice Nat Syscall)} (h : Sound st)
    (hrun : Threads.run program st choices = some st') :
    st.shared.globalPid ≤ st'.shared.globalPid := by
  induction choices generalizing st with
  | nil => exact Option.some.inj hrun ▸ Nat.le_refl _
  | cons choice choices ih =>
    simp only [Threads.run, List.foldlM_cons, Option.bind_eq_bind, Option.bind_eq_some_iff] at hrun
    obtain ⟨st₁, h₁, h₂⟩ := hrun
    exact Nat.le_trans (step_pids h h₁) (ih (h.step h₁) h₂)

/-- How many of the steps are steps of thread `p`. -/
def ownSteps (p : Nat) (choices : List (Choice Nat Syscall)) : Nat :=
  choices.countP (·.thread == p)

/-- Whatever other threads do meanwhile, `join` is as far as it has been executed. -/
theorem Stage.run {choices : List (Choice Nat Syscall)} (hs : s ≠ -2)
    (h : Stage p c addr s table bytes (ownSteps p choices + k) st)
    (hrun : Threads.run program st choices = some st') (hpids : st'.shared.globalPid ≤ 2 ^ 32) :
    Stage p c addr s table bytes k st' := by
  induction choices generalizing st with
  | nil =>
    obtain rfl := Option.some.inj hrun
    simpa [ownSteps] using h
  | cons choice choices ih =>
    have hle := run_pids h.sound hrun
    simp only [Threads.run, List.foldlM_cons, Option.bind_eq_bind, Option.bind_eq_some_iff] at hrun
    obtain ⟨st₁, h₁, h₂⟩ := hrun
    refine ih ?_ h₂
    by_cases hp : choice.thread = p
    · have hcount : ownSteps p (choice :: choices) + k = ownSteps p choices + k + 1 := by
        simp [ownSteps, hp]
        omega
      rw [hcount] at h
      obtain ⟨st₂, hstep, -, hstage⟩ := h.own hs (Nat.le_trans hle hpids) choice.input choice.prefer
      rw [← hp] at hstep
      obtain rfl := Option.some.inj (hstep.symm.trans h₁)
      exact hstage
    · have hcount : ownSteps p (choice :: choices) = ownSteps p choices := by
        simp [ownSteps, hp]
      rw [hcount] at h
      exact h.other (Ne.symm hp) h₁

/-- Process `p` can execute all of its `join` at once. -/
theorem Stage.exists_run (hs : s ≠ -2) (h : Stage p c addr s table bytes k st)
    (hpids : st.shared.globalPid ≤ 2 ^ 32) (input : Syscall) (prefer : Nat) :
    ∃ st', Threads.run program st (List.replicate k ⟨p, input, prefer⟩) = some st' ∧
      st'.shared.globalPid = st.shared.globalPid := by
  induction k generalizing st with
  | zero => exact ⟨st, rfl, rfl⟩
  | succ k ih =>
    obtain ⟨st₁, hstep, hsame, hstage⟩ := h.own hs hpids input prefer
    obtain ⟨st', hrun, hsame'⟩ := ih hstage (hsame ▸ hpids)
    refine ⟨st', ?_, hsame'.trans hsame⟩
    simp only [Threads.run, List.replicate_succ, List.foldlM_cons, hstep, Option.bind_eq_bind,
      Option.bind_some]
    exact hrun

/-- A `join` whose child has the status `-2` goes to sleep. -/
theorem Stage.hangs (h : Stage p c addr (-2) table bytes 5 st)
    (hpids : st.shared.globalPid ≤ 2 ^ 32) (input : Syscall) (prefer : Nat) :
    Threads.run program st (List.replicate 5 ⟨p, input, prefer⟩) = none := by
  obtain ⟨pc, hpc, hat⟩ := h.point
  cases hat with
  | search =>
    obtain ⟨st₁, hstep₁, hpc₁, -⟩ := Threads.step_act (m := program) (i := input)
      prefer hpc rfl
    rw [h.search_eq hpids] at hpc₁
    obtain ⟨st₂, hstep₂, hpc₂, -⟩ := Threads.step_act (m := program) (i := input)
      prefer hpc₁ rfl
    rw [if_pos rfl] at hpc₂
    have hsound := (h.sound.step hstep₁).step hstep₂
    have hnone := Threads.run_sleep (m := program) (i := input) hsound.locks hpc₂ rfl prefer 0
    simpa only [Threads.run, List.replicate_succ, List.foldlM_cons, hstep₁, hstep₂,
      Option.bind_eq_bind, Option.bind_some] using hnone

end Stage

/-! ## A second `join` -/

/-- Process `c` is no child of `p` any more, and is not about to become one. -/
structure Gone (st : Monitor) (p c : Nat) : Prop where
  children : c ∉ (st.shared.process p).children
  registered : (st.shared.process c).registered = true
  adding : ∀ im, st.thread p ≠ .run (.exec im c .addChild)

section Gone

variable {st st' : Monitor} {p c t : Nat} {pc pc' : Point} {f' : Processes}

theorem Gone.act (h : Inv st) (hg : Gone st p c) (hpc : st.thread t = .run pc)
    (ha : Act st.shared t pc f' pc') : Gone (acted st t f' pc') p c := by
  have hok := h.pointOk hpc
  have hch := ha.change (h.fresh _ (Nat.le_refl _)).1 hok
  refine ⟨?_, (hch c).registered_mono hg.registered, fun im hadd => ?_⟩
  · show c ∉ (f'.process p).children
    rcases (hch p).children with heq | ⟨-, d, heq⟩ | ⟨rfl, im, d, rfl, heq, -⟩
    · exact heq ▸ hg.children
    · exact heq ▸ fun hmem => hg.children (List.mem_of_mem_erase hmem)
    · rw [heq, List.mem_append, List.mem_singleton]
      rintro (hmem | rfl)
      · exact hg.children hmem
      · exact hg.adding im hpc
  · by_cases hpt : p = t
    · subst hpt
      simp only [Function.update_self, Phase.run.injEq] at hadd
      subst hadd
      cases ha with
      | setParent => exact absurd (hok.2.symm.trans hg.registered) (by decide)
    · simp only [Function.update_of_ne hpt] at hadd
      exact hg.adding im hadd

/-- A thread that goes elsewhere than to `addChild`. -/
theorem Gone.move (hg : Gone st p c) {phase : Phase LockId FreeCondition Point}
    {holder : LockId → Option Nat} {queue : FreeCondition → List Nat}
    {th : Nat → Phase LockId FreeCondition Point}
    (hth : ∀ im, th p = .run (.exec im c .addChild) → st.thread p = .run (.exec im c .addChild))
    (hphase : ∀ im d, phase ≠ .run (.exec im d .addChild)) :
    Gone { st with holder := holder, queue := queue, thread := Function.update th t phase } p c := by
  refine ⟨hg.children, hg.registered, fun im hadd => ?_⟩
  by_cases hpt : p = t
  · subst hpt
    simp only [Function.update_self] at hadd
    exact hphase im c hadd
  · simp only [Function.update_of_ne hpt] at hadd
    exact hg.adding im (hth im hadd)

theorem Gone.step (h : Inv st) (hg : Gone st p c) (hstep : Step program st st') :
    Gone st' p c := by
  cases hstep with
  | @act t pc i shared next hpc hinstr =>
    have hex : Executes st.shared t pc (.act shared next) := hinstr ▸ executes_instr pc i
    exact hg.act h hpc hex
  | acquire => exact hg.move (fun _ hadd => hadd) (by simp)
  | @enter t l next hpc hfree =>
    refine hg.move (fun _ hadd => hadd) ?_
    have hok : PhaseOk st.shared t (.entering l next) := hpc ▸ h.ok t
    cases hok.2 <;> simp
  | @release t pc i l next hpc hinstr hheld =>
    refine hg.move (fun _ hadd => hadd) ?_
    have hex : Executes st.shared t pc (.release l next) := hinstr ▸ executes_instr pc i
    cases hex <;> simp
  | sleep => exact hg.move (fun _ hadd => hadd) (by simp)
  | @wakeNone t pc i d next hpc hinstr hheld hqueue =>
    refine hg.move (fun _ hadd => hadd) ?_
    have hex : Executes st.shared t pc (.wake d next) := hinstr ▸ executes_instr pc i
    cases hex
    simp
  | @wakeSome t u pc i d next rest hpc hinstr hheld hqueue =>
    obtain ⟨n, hn⟩ := h.queued.head_asleep hqueue
    have hex : Executes st.shared t pc (.wake d next) := hinstr ▸ executes_instr pc i
    refine hg.move (fun im hadd => ?_) (by cases hex; simp)
    by_cases hpu : p = u
    · subst hpu
      simp [hn, Phase.wake] at hadd
    · simpa [hpu] using hadd
  | retry => exact hg.move (fun _ hadd => hadd) (by simp)

end Gone

/-- A `join` of a process that is gone fails. -/
theorem Gone.join_fails {st : System} {p c : Nat} (h : Sound st) (hg : Gone st.monitor p c)
    (hpids : st.shared.globalPid ≤ 2 ^ 32) {addr r : BitVec 32} {d : Nat}
    (hpc : st.status p = .ready (.join (pidOf c) addr d r .findChild)) (input : Syscall)
    (prefer : Nat) :
    ∃ st', Threads.step program st ⟨p, input, prefer⟩ = some st' ∧
      st'.status p = .ready (.user (some (-1))) := by
  have hc : c < st.shared.globalPid := by
    by_contra hge
    have hreg := hg.registered
    rw [(h.inv.fresh c (Nat.le_of_not_lt hge)).1] at hreg
    simp at hreg
  have hfind : (st.shared.process p).children.find? (pidOf · == pidOf c) = none := by
    rw [List.find?_eq_none]
    intro d hd heq
    have hd' := h.inv.creator_lt d p (h.inv.children p d hd).1
    have hdc : d = c :=
      pidOf_inj (Nat.lt_of_lt_of_le hd' hpids) (Nat.lt_of_lt_of_le hc hpids) (by simpa using heq)
    exact hg.children (hdc ▸ hd)
  have hinstr : program.instr p (.join (pidOf c) addr d r .findChild) st.shared input =
      .act st.shared (.user (some (-1))) := by
    simp only [program, handleJoin, hfind]
  obtain ⟨st', hstep, hstatus, -⟩ := Threads.step_act prefer hpc hinstr
  exact ⟨st', hstep, hstatus⟩

/-! ## The report -/

/-- The result of a `join` of a process that ended like this. -/
def joinResult : Ending → BitVec 32
  | .exit _ => 1
  | .fault => 0

/-- The status of a process that called `exit` is at `addr`, if that is writable. -/
def Stored (f : Processes) (p : Nat) (addr : BitVec 32) : Ending → Prop
  | .exit s => Writable f p addr → Holds f p addr s
  | .fault => True

/-- What `join` of `c` by `p` should do from its search on, which is five statements: it
    does not wait; whatever other threads do meanwhile, it returns the result and has stored
    the status; and a later `join` of the same `pid` fails. -/
structure Reports (st : System) (p c : Nat) (addr : BitVec 32) (e : Ending) : Prop where
  returns : ∀ input prefer, ∃ st',
    Threads.run program st (List.replicate 5 ⟨p, input, prefer⟩) = some st'
  result : ∀ choices st', Threads.run program st choices = some st' → ownSteps p choices = 5 →
    st'.shared.globalPid ≤ 2 ^ 32 →
    st'.status p = .ready (.user (some (joinResult e))) ∧ Stored st'.shared p addr e
  again : ∀ choices st', Threads.run program st choices = some st' → ownSteps p choices = 5 →
    ∀ choices' st'', Threads.run program st' choices' = some st'' →
    st''.shared.globalPid ≤ 2 ^ 32 → ∀ addr' d r,
    st''.status p = .ready (.join (pidOf c) addr' d r .findChild) → ∀ input prefer, ∃ st₃,
    Threads.step program st'' ⟨p, input, prefer⟩ = some st₃ ∧
      st₃.status p = .ready (.user (some (-1)))

/-- The endings that `join` reports: every exception, and every status but `-1` and `-2`
    that is not to be stored where `writeVirtualMemory` refuses a writable address. -/
def Reportable (f : Processes) (p : Nat) (addr : BitVec 32) : Ending → Prop
  | .exit s => s ≠ -1 ∧ s ≠ -2 ∧ (Writable f p addr →
      addr.toNat < (f.process p).pageTable.length * (pageSize - 1) ∨ Holds f p addr s)
  | .fault => True

section Report

variable {p c : Nat} {addr s : BitVec 32} {table : List TranslationEntry}
  {bytes : Nat → Option UInt8} {st st' : System} {choices : List (Choice Nat Syscall)}

theorem Stage.gone (h : Stage p c addr s table bytes 0 st) : Gone st.monitor p c := by
  obtain ⟨b, hb, rfl, -⟩ := h.bucket
  obtain ⟨pc, hpc, hat⟩ := h.point
  refine ⟨h.removed (Nat.zero_le 1), (h.sound.inv.buckets p b hb).registered, fun im hadd => ?_⟩
  cases hat
  simp [Threads.monitor, hpc, Status.phase] at hadd

theorem Gone.run (h : Sound st) (hg : Gone st.monitor p c)
    (hrun : Threads.run program st choices = some st') : Gone st'.monitor p c := by
  have hsteps := Threads.run_steps h.locks h.inv.queued hrun
  exact (hsteps.invariant (Q := fun m => Inv m ∧ Gone m p c)
    (fun hm hstep => ⟨step_inv hm.1 hstep, hm.2.step hm.1 hstep⟩) ⟨h.inv, hg⟩).2

/-- A page that may be written to is so as long as the page table is the same. -/
theorem writable_congr {f f' : Processes}
    (h : (f'.process p).pageTable = (f.process p).pageTable) :
    Writable f' p addr ↔ Writable f p addr := by
  simp only [Writable, h]

/-- What a `join` that has returned has stored. -/
theorem Stage.stored (h : Stage p c addr s table bytes 0 st) (hs : s ≠ -1)
    (hstart : addr.toNat < table.length * (pageSize - 1) ∨
      ∀ i, i < 4 → bytes (addr.toNat + i) = (UserProcess.bytesFromInt s)[i]?) :
    Holds st.shared p addr s := by
  have hafter := h.after rfl hs
  split at hafter
  · exact hafter
  · intro i hi
    rw [hafter]
    exact (hstart.resolve_left ‹_›) i hi

/-- Five statements of `p` finish the `join`. -/
theorem Stage.finish (hs : s ≠ -2) (h : Stage p c addr s table bytes 5 st)
    (hrun : Threads.run program st choices = some st') (hown : ownSteps p choices = 5)
    (hpids : st'.shared.globalPid ≤ 2 ^ 32) : Stage p c addr s table bytes 0 st' :=
  Stage.run hs (by rw [hown]; exact h) hrun hpids

/-- The `join` alone: where it gets, and that nothing else is needed. -/
theorem Stage.alone (hs : s ≠ -2) (h : Stage p c addr s table bytes 5 st)
    (hpids : st.shared.globalPid ≤ 2 ^ 32) :
    ∃ choices st', Threads.run program st choices = some st' ∧ ownSteps p choices = 5 ∧
      st'.shared.globalPid ≤ 2 ^ 32 ∧ Stage p c addr s table bytes 0 st' := by
  obtain ⟨st', hrun, hsame⟩ := h.exists_run hs hpids .fault p
  have hown : ownSteps p (List.replicate 5 ⟨p, .fault, p⟩) = 5 := by simp [ownSteps]
  exact ⟨_, st', hrun, hown, hsame ▸ hpids, h.finish hs hrun hown (hsame ▸ hpids)⟩

theorem Stage.status (h : Stage p c addr s table bytes 0 st) :
    st.status p = .ready (.user (some (if s = -1 then 0 else 1))) := by
  obtain ⟨pc, hpc, hat⟩ := h.point
  cases hat
  exact hpc

/-- An ending that `join` can report is reported. -/
theorem Stage.reports {e : Ending}
    (h : Stage p c addr e.status (st.shared.process p).pageTable (userByte st.shared p) 5 st)
    (hpids : st.shared.globalPid ≤ 2 ^ 32) (hr : Reportable st.shared p addr e) :
    Reports st p c addr e := by
  have hs : e.status ≠ -2 := by
    cases e with
    | exit s => exact hr.2.1
    | fault => decide
  refine ⟨fun input prefer => ?_, fun choices st' hrun hown hpids' => ?_,
    fun choices st' hrun hown choices' st'' hrun' hpids'' addr' d r hpc input prefer => ?_⟩
  · obtain ⟨st', hrun, -⟩ := h.exists_run hs hpids input prefer
    exact ⟨st', hrun⟩
  · have hend := h.finish hs hrun hown hpids'
    have hstatus := hend.status
    cases e with
    | fault => exact ⟨hstatus, trivial⟩
    | exit s =>
      have hne : (Ending.exit s).status ≠ -1 := hr.1
      rw [if_neg hne] at hstatus
      refine ⟨hstatus, fun hw => hend.stored hr.1 ?_⟩
      exact hr.2.2 ((writable_congr hend.pageTable).mp hw)
  · have hsound' := h.sound.run hrun
    have hend := h.finish hs hrun hown (Nat.le_trans (run_pids hsound' hrun') hpids'')
    exact (hend.gone.run hsound' hrun').join_fails (hsound'.run hrun') hpids'' hpc input prefer

/-- Only such an ending is. -/
theorem Stage.reportable {e : Ending}
    (h : Stage p c addr e.status (st.shared.process p).pageTable (userByte st.shared p) 5 st)
    (hpids : st.shared.globalPid ≤ 2 ^ 32) (hr : Reports st p c addr e) :
    Reportable st.shared p addr e := by
  cases e with
  | fault => trivial
  | exit s =>
    have hs : s ≠ -2 := by
      rintro rfl
      obtain ⟨st', hrun⟩ := hr.returns .fault p
      rw [h.hangs hpids] at hrun
      cases hrun
    obtain ⟨choices, st', hrun, hown, hpids', hend⟩ := h.alone hs hpids
    obtain ⟨hresult, hstored⟩ := hr.result choices st' hrun hown hpids'
    have hne : s ≠ -1 := by
      rintro rfl
      have hstatus := hend.status
      rw [hresult] at hstatus
      cases hstatus
    refine ⟨hne, hs, fun hw => ?_⟩
    by_contra hcon
    obtain ⟨hbound, hnot⟩ := not_or.mp hcon
    -- nothing has been written, so the bytes were there before
    have hafter := hend.after rfl hne
    rw [if_neg hbound] at hafter
    have hholds : Holds st'.shared p addr s := hstored ((writable_congr hend.pageTable).mpr hw)
    exact hnot fun i hi => (hafter _).symm.trans (hholds i hi)

/-- A `join` at its search, with the bucket of its child there. -/
theorem stage_of_search (h : Sound st) {r : BitVec 32}
    (hjoin : st.status p = .ready (.join (pidOf c) addr c r .search))
    (hbucket : ∃ b ∈ (st.shared.process p).freeChildren, b.source = c) {e : Ending}
    (he : (st.shared.process c).ending = some e) :
    Stage p c addr e.status (st.shared.process p).pageTable (userByte st.shared p) 5 st := by
  obtain ⟨b, hb, hsource⟩ := hbucket
  obtain ⟨e', he', hstatus⟩ := (h.inv.buckets p b hb).status
  rw [hsource] at he'
  obtain rfl := Option.some.inj (he'.symm.trans he)
  exact ⟨h, ⟨_, hjoin, .search⟩, ⟨b, hb, hsource, hstatus⟩, rfl, fun _ _ => rfl, by omega,
    by omega⟩

/-- `join` reports how a child ended if and only if the ending is one that it can report. -/
theorem run_reports {n : Nat} {image : Image} {st₀ : System} (hboot : boot n image = some st₀)
    (hrun : Threads.run program st₀ choices = some st) (hpids : st.shared.globalPid ≤ 2 ^ 32)
    {r : BitVec 32} (hjoin : st.status p = .ready (.join (pidOf c) addr c r .search))
    (hbucket : ∃ b ∈ (st.shared.process p).freeChildren, b.source = c) {e : Ending}
    (he : (st.shared.process c).ending = some e) :
    Reports st p c addr e ↔ Reportable st.shared p addr e := by
  have hstage := stage_of_search ((boot_sound hboot).run hrun) hjoin hbucket he
  exact ⟨hstage.reportable hpids, hstage.reports hpids⟩

end Report

/-- The root process makes a child, which exits, and joins it up to the search. -/
def exitAndJoin (s addr : BitVec 32) : List (Choice Nat Syscall) :=
  List.replicate 10 ⟨0, .exec (some ⟨[]⟩), 0⟩ ++ List.replicate 12 ⟨1, .exit s, 0⟩ ++
    List.replicate 3 ⟨0, .join 1 addr, 0⟩

/-- The state at the search of `exitAndJoin`. -/
structure AtSearch (s addr : BitVec 32) (st : System) : Prop where
  pids : st.shared.globalPid ≤ 2 ^ 32
  join : st.status 0 = .ready (.join (pidOf 1) addr 1 0 .search)
  bucket : (st.shared.process 0).freeChildren = [⟨s, pidOf 1, 1⟩]
  ending : (st.shared.process 1).ending = some (.exit s)

instance (s addr : BitVec 32) (st : System) : Decidable (AtSearch s addr st) :=
  decidable_of_iff (st.shared.globalPid ≤ 2 ^ 32 ∧
      st.status 0 = .ready (.join (pidOf 1) addr 1 0 .search) ∧
      (st.shared.process 0).freeChildren = [⟨s, pidOf 1, 1⟩] ∧
      (st.shared.process 1).ending = some (.exit s))
    ⟨fun ⟨h₁, h₂, h₃, h₄⟩ => ⟨h₁, h₂, h₃, h₄⟩, fun ⟨h₁, h₂, h₃, h₄⟩ => ⟨h₁, h₂, h₃, h₄⟩⟩

theorem run_reports_exitAndJoin :
    ∃ st₀ st, boot 18 ⟨[]⟩ = some st₀ ∧ Threads.run program st₀ (exitAndJoin 5 100) = some st ∧
      Reports st 0 1 100 (.exit 5) := by
  obtain ⟨st₀, st, hboot, hrun, hat⟩ := exists_run 18 ⟨[]⟩ (exitAndJoin 5 100)
    (fun st => AtSearch 5 100 st ∧
      (st.shared.process 0).pageTable.length = 9) (by decide +kernel)
  refine ⟨st₀, st, hboot, hrun,
    (run_reports hboot hrun hat.1.pids hat.1.join ?_ hat.1.ending).mpr ?_⟩
  · exact ⟨_, hat.1.bucket ▸ List.mem_singleton_self _, rfl⟩
  · refine ⟨by decide, by decide, fun _ => .inl ?_⟩
    rw [hat.2]
    decide

/-- A `join` at its search whose report would need an ending that `join` cannot report. -/
theorem not_reports {st₀ st : System} {n : Nat} {image : Image}
    {choices : List (Choice Nat Syscall)} (hboot : boot n image = some st₀)
    (hrun : Threads.run program st₀ choices = some st) {s addr : BitVec 32}
    (hat : AtSearch s addr st) (hnot : ¬ Reportable st.shared 0 addr (.exit s)) :
    ¬ Reports st 0 1 addr (.exit s) := by
  intro hr
  have hbucket : ∃ b ∈ (st.shared.process 0).freeChildren, b.source = 1 :=
    ⟨_, hat.bucket ▸ List.mem_singleton_self _, rfl⟩
  have hstage := stage_of_search ((boot_sound hboot).run hrun) hat.join hbucket hat.ending
  exact hnot (hstage.reportable hat.pids hr)

/-- A child that exits with `-1` or with `-2`, and one whose status is to be stored in the
    last bytes of the address space. -/
theorem not_reports_exitAndJoin :
    (∃ st₀ st, boot 18 ⟨[]⟩ = some st₀ ∧ Threads.run program st₀ (exitAndJoin (-1) 100) = some st ∧
      AtSearch (-1) 100 st ∧ ¬ Reports st 0 1 100 (.exit (-1))) ∧
    (∃ st₀ st, boot 18 ⟨[]⟩ = some st₀ ∧ Threads.run program st₀ (exitAndJoin (-2) 100) = some st ∧
      AtSearch (-2) 100 st ∧ ¬ Reports st 0 1 100 (.exit (-2))) ∧
    ∃ st₀ st, boot 18 ⟨[]⟩ = some st₀ ∧ Threads.run program st₀ (exitAndJoin 5 9208) = some st ∧
      AtSearch 5 9208 st ∧ ¬ Reports st 0 1 9208 (.exit 5) := by
  refine ⟨?_, ?_, ?_⟩
  · obtain ⟨st₀, st, hboot, hrun, hat⟩ := exists_run 18 ⟨[]⟩ (exitAndJoin (-1) 100)
      (AtSearch (-1) 100) (by decide +kernel)
    exact ⟨st₀, st, hboot, hrun, hat, not_reports hboot hrun hat fun hr => hr.1 rfl⟩
  · obtain ⟨st₀, st, hboot, hrun, hat⟩ := exists_run 18 ⟨[]⟩ (exitAndJoin (-2) 100)
      (AtSearch (-2) 100) (by decide +kernel)
    exact ⟨st₀, st, hboot, hrun, hat, not_reports hboot hrun hat fun hr => hr.2.1 rfl⟩
  · obtain ⟨st₀, st, hboot, hrun, hat, hlen, hwritable, hbyte⟩ := exists_run 18 ⟨[]⟩
      (exitAndJoin 5 9208) (fun st => AtSearch 5 9208 st ∧
        (st.shared.process 0).pageTable.length = 9 ∧
        (st.shared.process 0).pageTable[8]?.map TranslationEntry.readOnly = some false ∧
        userByte st.shared 0 9208 = some 0) (by decide +kernel)
    refine ⟨st₀, st, hboot, hrun, hat, not_reports hboot hrun hat fun hr => ?_⟩
    have hw : Writable st.shared 0 9208 := by
      intro i hi
      have hpage : ((9208 : BitVec 32).toNat + i) / pageSize = 8 := by
        simp only [pageSize]
        have : (9208 : BitVec 32).toNat = 9208 := by decide
        omega
      rw [hpage]
      exact Option.map_eq_some_iff.mp hwritable
    rcases hr.2.2 hw with hbound | hholds
    · rw [hlen] at hbound
      exact absurd hbound (by decide)
    · have hfirst := hholds 0 (by decide)
      rw [show (9208 : BitVec 32).toNat + 0 = 9208 by decide, hbyte] at hfirst
      exact absurd hfirst (by decide)

end Processes

end Nachos
