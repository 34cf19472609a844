import Coursework.Nachos.Spec.ExitNotification
import Mathlib.Data.Finset.Sum

/-!
# The number of live processes

`numActiveProcesses` is increased by the constructor of a process and decreased by
`handleExit`, or by the `exec` that could not load the process. The threads that do this are
different ones, so what is counted is said in terms of where every thread is: a process is
live from its constructor on, until it exits or its `exec` gives it up.
-/

namespace Nachos

namespace Processes

open Mesa (Phase Step Steps)

/-! ## Live processes -/

/-- What the point of a thread says about which processes are live. -/
inductive Role where
  | other
  /-- In the constructor of a process that is counted and has no `pid` yet. -/
  | constructing
  /-- In `execute` of a child that is not forked, or about to give it up. -/
  | making (child : Nat)
  /-- Past the `numActiveProcesses--` of `handleExit`. -/
  | exited
  deriving DecidableEq

def ExecLine.role (child : Nat) : ExecLine → Role
  | .releaseCount | .assignPid => .constructing
  | .load | .fork | .failAcquire | .failDecrement => .making child
  | .acquireCount | .increment | .setParent | .addChild | .ret | .failRelease => .other

def ExitLine.role : ExitLine → Role
  | .testLast | .releaseCount => .exited
  | .unload | .orphan _ | .testParent | .acquireParent | .addBucket | .wakeParent | .releaseParent
  | .acquireCount | .decrement => .other

def Point.role : Point → Role
  | .exec _ child line => line.role child
  | .exit _ line => line.role
  | .finished => .exited
  | .user _ => .other
  | .join _ _ _ _ _ => .other

/-- A process that has been forked is live until it exits. One that has not is live as long
    as the `exec` that made it is at work on it; otherwise that `exec` has failed. -/
def live (f : Processes) (role : Nat → Role) (p : Nat) : Bool :=
  if (f.process p).forked then role p != .exited
  else (f.process p).creator.any fun q => role q == .making p

/-- The live processes that have a `pid`. -/
def numbered (f : Processes) (role : Nat → Role) : Finset Nat :=
  (Finset.range f.globalPid).filter fun p => live f role p

/-- The processes whose `exec` has constructed one that has no `pid` yet. -/
def unnumbered (f : Processes) (role : Nat → Role) : Finset Nat :=
  (Finset.range f.globalPid).filter fun p => role p = .constructing

/-- The constructed processes that have neither exited nor been given up by an `exec`. One
    that has no `pid` yet is named by the process that makes it. -/
def liveProcesses (f : Processes) (role : Nat → Role) : Finset (Nat ⊕ Nat) :=
  (numbered f role).disjSum (unnumbered f role)

/-- The roles of the threads. -/
def roles (st : Monitor) (t : Nat) : Role := (st.thread t).next.role

/-- Thread `p` calls `Kernel.kernel.terminate()` next. -/
def Terminates (st : System) (p : Nat) : Prop :=
  ∃ status, st.status p = .ready (.exit status .testLast) ∧ st.shared.numActiveProcesses = 0

section Live

variable {f f' : Processes} {role role' : Nat → Role} {t p : Nat}

theorem live_congr (hforked : (f'.process p).forked = (f.process p).forked)
    (hcreator : (f'.process p).creator = (f.process p).creator)
    (hexited : role' p = .exited ↔ role p = .exited)
    (hmaking : ∀ q, role' q = .making p ↔ role q = .making p) :
    live f' role' p = live f role p := by
  simp only [live, hforked, hcreator, bne, beq_eq_decide, hexited, hmaking]

theorem live_of_forked (hforked : (f.process p).forked = true) :
    live f role p = true ↔ role p ≠ .exited := by
  simp [live, hforked]

theorem live_of_not_forked {q : Nat} (hforked : (f.process p).forked = false)
    (hcreator : (f.process p).creator = some q) :
    live f role p = true ↔ role q = .making p := by
  simp [live, hforked, hcreator]

theorem card_liveProcesses (f : Processes) (role : Nat → Role) :
    (liveProcesses f role).card = (numbered f role).card + (unnumbered f role).card :=
  Finset.card_disjSum _ _

end Live

/-! ## What a statement does to the count -/

/-- Nothing that concerns the count changes. -/
structure SameCount (f f' : Processes) : Prop where
  globalPid : f'.globalPid = f.globalPid
  numActiveProcesses : f'.numActiveProcesses = f.numActiveProcesses
  forked : ∀ p, (f'.process p).forked = (f.process p).forked
  creator : ∀ p, (f'.process p).creator = (f.process p).creator

/-- What a statement of thread `t` does to the count, with its role before and after. -/
inductive Counts (f : Processes) (t : Nat) : Role → Processes → Role → Prop where
  | same {r : Role} {f' : Processes} (h : SameCount f f') : Counts f t r f' r
  | increment :
      Counts f t .other { f with numActiveProcesses := f.numActiveProcesses + 1 } .constructing
  | assignPid :
      Counts f t .constructing
        { f with process := Function.update f.process f.globalPid { creator := some t }
                 globalPid := f.globalPid + 1 } (.making f.globalPid)
  | fork {c : Nat} :
      Counts f t (.making c) (f.modify c fun u => { u with forked := true }) .other
  | giveUp {c : Nat} :
      Counts f t (.making c) { f with numActiveProcesses := f.numActiveProcesses - 1 } .other
  | exit : Counts f t .other { f with numActiveProcesses := f.numActiveProcesses - 1 } .exited

section Act

variable {f f' : Processes} {t : Nat} {pc pc' : Point}

theorem SameCount.modify (f : Processes) (p : Nat) {g : UserProc → UserProc}
    (hforked : ∀ u, (g u).forked = u.forked) (hcreator : ∀ u, (g u).creator = u.creator) :
    SameCount f (f.modify p g) where
  globalPid := rfl
  numActiveProcesses := rfl
  forked c := by
    rw [process_modify]
    split
    · exact hforked _
    · rfl
  creator c := by
    rw [process_modify]
    split
    · exact hcreator _
    · rfl

theorem Act.counts (ha : Act f t pc f' pc') : Counts f t pc.role f' pc'.role := by
  cases ha with
  | increment => exact .increment
  | assignPid => exact .assignPid
  | fork => exact .fork
  | failDecrement => exact .giveUp
  | decrement => exact .exit
  | callExit e hf => exact .same (.modify f t (fun _ => rfl) (fun _ => rfl))
  | @load im c _ _ =>
    have h : SameCount f (f.modify c fun u =>
        { u with pageTable := loadSections im f.freePagesPool }) :=
      .modify f c (fun _ => rfl) (fun _ => rfl)
    exact .same ⟨rfl, rfl, h.forked, h.creator⟩
  | unload =>
    have h : SameCount f (f.modify t fun u => { u with pageTable := [] }) :=
      .modify f t (fun _ => rfl) (fun _ => rfl)
    exact .same ⟨rfl, rfl, h.forked, h.creator⟩
  | setParent | addChild | orphan _ | hasParent _ _ | noParent _ | addBucket _ _ | remove =>
    exact .same (.modify f _ (fun _ => rfl) (fun _ => rfl))
  | _ => exact .same ⟨rfl, rfl, fun _ => rfl, fun _ => rfl⟩

/-- The statements that wait or wake change no role, and are not the last test. -/
theorem Acquires.role {l : LockId} (ha : Acquires f t pc l pc') :
    pc'.role = pc.role ∧ ∀ s, pc ≠ .exit s .testLast := by
  cases ha <;> exact ⟨rfl, by simp⟩

theorem Releases.role {l : LockId} (hr : Releases f t pc l pc') :
    pc'.role = pc.role ∧ ∀ s, pc ≠ .exit s .testLast := by
  cases hr <;> exact ⟨rfl, by simp⟩

theorem Sleeps.role {c : FreeCondition} (hs : Sleeps t pc c pc') :
    pc'.role = pc.role ∧ ∀ s, pc ≠ .exit s .testLast := by
  cases hs
  exact ⟨rfl, by simp⟩

theorem Wakes.role {c : FreeCondition} (hw : Wakes f t pc c pc') :
    pc'.role = pc.role ∧ ∀ s, pc ≠ .exit s .testLast := by
  cases hw
  exact ⟨rfl, by simp⟩

end Act

/-! ## The count -/

/-- What relates the roles of the threads to the processes. -/
structure RolesOk (f : Processes) (role : Nat → Role) : Prop where
  making : ∀ t c, role t = .making c →
    (f.process c).creator = some t ∧ (f.process c).forked = false
  fresh : f.process f.globalPid = {}
  notForked : ∀ c, (f.process c).forked = false → role c = .other

section Card

variable {f f' : Processes} {role : Nat → Role} {t c : Nat} {r r' : Role}

/-- A process of another thread is made by another thread. -/
theorem RolesOk.maker_eq (h : RolesOk f role) {u : Nat} (ht : role t = .making c)
    (hu : role u = .making c) : u = t :=
  Option.some.inj ((h.making u c hu).1.symm.trans (h.making t c ht).1)

theorem making_update_iff (hr : role t = r) (hr' : ∀ p, r' = .making p ↔ r = .making p)
    (p q : Nat) :
    Function.update role t r' q = .making p ↔ role q = .making p := by
  by_cases hq : q = t
  · subst hq
    simp [hr, hr']
  · simp [hq]

theorem exited_update_iff (hr : role t = r) (hr' : r' = .exited ↔ r = .exited) (p : Nat) :
    Function.update role t r' p = .exited ↔ role p = .exited := by
  by_cases hp : p = t
  · subst hp
    simp [hr, hr']
  · simp [hp]

theorem unnumbered_update (hpid : f'.globalPid = f.globalPid) (hr : role t = r)
    (hr' : r' = .constructing ↔ r = .constructing) :
    unnumbered f' (Function.update role t r') = unnumbered f role := by
  unfold unnumbered
  rw [hpid]
  refine Finset.filter_congr fun p _ => ?_
  by_cases hp : p = t
  · subst hp
    simp [hr, hr']
  · simp [hp]

theorem numbered_congr (hpid : f'.globalPid = f.globalPid) {role' : Nat → Role}
    (h : ∀ p < f.globalPid, live f' role' p = live f role p) :
    numbered f' role' = numbered f role := by
  unfold numbered
  rw [hpid]
  refine Finset.filter_congr fun p hp => ?_
  rw [h p (Finset.mem_range.mp hp)]

/-- One process is no longer live. -/
theorem card_numbered_erase (hpid : f'.globalPid = f.globalPid) {role' : Nat → Role}
    (hc : c < f.globalPid) (hlive : live f role c = true) (hdead : live f' role' c = false)
    (h : ∀ p, p ≠ c → live f' role' p = live f role p) :
    (numbered f' role').card + 1 = (numbered f role).card := by
  have hmem : c ∈ numbered f role := by simp [numbered, hc, hlive]
  have heq : numbered f' role' = (numbered f role).erase c := by
    ext p
    by_cases hp : p = c
    · subst hp
      simp [numbered, hdead]
    · simp [numbered, hp, h p hp, hpid]
  rw [heq, Finset.card_erase_add_one hmem]

theorem card_construct (ht : t < f.globalPid) (hr : role t = .other)
    (hpid : f'.globalPid = f.globalPid) (hproc : f'.process = f.process) :
    (liveProcesses f' (Function.update role t .constructing)).card =
      (liveProcesses f role).card + 1 := by
  have hnum : numbered f' (Function.update role t .constructing) = numbered f role := by
    refine numbered_congr hpid fun p _ => live_congr (by rw [hproc]) (by rw [hproc]) ?_ fun q => ?_
    · exact exited_update_iff hr (by simp) p
    · exact making_update_iff hr (by simp) p q
  have hun : unnumbered f' (Function.update role t .constructing) = insert t (unnumbered f role) := by
    ext p
    by_cases hp : p = t
    · subst hp
      simp [unnumbered, hpid, ht]
    · simp [unnumbered, hpid, hp]
  have hnot : t ∉ unnumbered f role := by simp [unnumbered, hr]
  rw [card_liveProcesses, card_liveProcesses, hnum, hun, Finset.card_insert_of_notMem hnot]
  omega

theorem card_assignPid (h : RolesOk f role) (ht : t < f.globalPid) (hr : role t = .constructing) :
    (liveProcesses { f with process := Function.update f.process f.globalPid { creator := some t }
                            globalPid := f.globalPid + 1 }
      (Function.update role t (.making f.globalPid))).card = (liveProcesses f role).card := by
  have hg : role f.globalPid = .other := h.notForked _ (by rw [h.fresh])
  -- the process under construction moves from the processes without a number to those with one:
  -- one set gains an element and the other loses one
  have hnum : numbered { f with process := Function.update f.process f.globalPid { creator := some t }
                                globalPid := f.globalPid + 1 }
      (Function.update role t (.making f.globalPid)) = insert f.globalPid (numbered f role) := by
    ext p
    by_cases hp : p = f.globalPid
    · subst hp
      simp [numbered, live]
    · have hlt : p < f.globalPid + 1 ↔ p < f.globalPid := by omega
      have hlive : live { f with process := Function.update f.process f.globalPid { creator := some t }
                                 globalPid := f.globalPid + 1 }
          (Function.update role t (.making f.globalPid)) p = live f role p := by
        refine live_congr (by simp [hp]) (by simp [hp]) (exited_update_iff hr (by simp) p) fun q => ?_
        by_cases hq : q = t
        · subst hq
          simp [hr, Ne.symm hp]
        · simp [hq]
      simp [numbered, hp, hlt, hlive]
  have hun : unnumbered { f with process := Function.update f.process f.globalPid { creator := some t }
                                 globalPid := f.globalPid + 1 }
      (Function.update role t (.making f.globalPid)) = (unnumbered f role).erase t := by
    ext p
    by_cases hp : p = t
    · subst hp
      simp [unnumbered]
    · by_cases hpg : p = f.globalPid
      · subst hpg
        simp [unnumbered, hp, hg]
      · have hlt : p < f.globalPid + 1 ↔ p < f.globalPid := by omega
        simp [unnumbered, hp, hlt]
  have hnot : f.globalPid ∉ numbered f role := by simp [numbered]
  have hmem : t ∈ unnumbered f role := by simp [unnumbered, ht, hr]
  have herase := Finset.card_erase_add_one hmem
  rw [card_liveProcesses, card_liveProcesses, hnum, hun, Finset.card_insert_of_notMem hnot]
  omega

/-- The child that is forked was live, and stays so: its thread has not run. -/
theorem card_fork (h : RolesOk f role) (hforked : (f.process t).forked = true)
    (hr : role t = .making c) :
    (liveProcesses (f.modify c fun u => { u with forked := true })
      (Function.update role t .other)).card = (liveProcesses f role).card := by
  obtain ⟨hcreator, hnot⟩ := h.making t c hr
  have hct : c ≠ t := by
    rintro rfl
    simp [hforked] at hnot
  -- before the fork the new process lives because `t` makes it, afterwards because it is forked
  have hlive : ∀ p, live (f.modify c fun u => { u with forked := true })
      (Function.update role t .other) p = live f role p := by
    intro p
    by_cases hp : p = c
    · subst hp
      have hbefore : live f role p = true := (live_of_not_forked hnot hcreator).mpr hr
      have hafter : live (f.modify p fun u => { u with forked := true })
          (Function.update role t .other) p = true := by
        refine (live_of_forked (by simp [modify])).mpr ?_
        simp [hct, h.notForked p hnot]
      rw [hbefore, hafter]
    · refine live_congr ?_ ?_ (exited_update_iff hr (by simp) p) fun q => ?_
      · rw [process_modify, if_neg hp]
      · rw [process_modify, if_neg hp]
      · by_cases hq : q = t
        · subst hq
          simp [hr, Ne.symm hp]
        · simp [hq]
  have hnum : numbered (f.modify c fun u => { u with forked := true })
      (Function.update role t .other) = numbered f role := by
    refine numbered_congr ?_ fun p _ => hlive p
    rfl
  have hun : unnumbered (f.modify c fun u => { u with forked := true })
      (Function.update role t .other) = unnumbered f role := by
    refine unnumbered_update ?_ hr (by simp)
    rfl
  rw [card_liveProcesses, card_liveProcesses, hnum, hun]

theorem card_giveUp (h : RolesOk f role) (hc : c < f.globalPid) (hr : role t = .making c)
    (hpid : f'.globalPid = f.globalPid) (hproc : f'.process = f.process) :
    (liveProcesses f' (Function.update role t .other)).card + 1 = (liveProcesses f role).card := by
  obtain ⟨hcreator, hnot⟩ := h.making t c hr
  have hnum : (numbered f' (Function.update role t .other)).card + 1 = (numbered f role).card := by
    refine card_numbered_erase hpid hc ((live_of_not_forked hnot hcreator).mpr hr) ?_ fun p hp => ?_
    · simp [live, hproc, hnot, hcreator]
    · refine live_congr (by rw [hproc]) (by rw [hproc]) (exited_update_iff hr (by simp) p) fun q => ?_
      by_cases hq : q = t
      · subst hq
        simp [hr, Ne.symm hp]
      · simp [hq]
  rw [card_liveProcesses, card_liveProcesses, unnumbered_update hpid hr (by simp)]
  omega

theorem card_exit (ht : t < f.globalPid) (hforked : (f.process t).forked = true)
    (hr : role t = .other) (hpid : f'.globalPid = f.globalPid) (hproc : f'.process = f.process) :
    (liveProcesses f' (Function.update role t .exited)).card + 1 = (liveProcesses f role).card := by
  have hnum : (numbered f' (Function.update role t .exited)).card + 1 = (numbered f role).card := by
    refine card_numbered_erase hpid ht ((live_of_forked hforked).mpr ?_) ?_ fun p hp => ?_
    · simp [hr]
    · simp [live, hproc, hforked]
    · refine live_congr (by rw [hproc]) (by rw [hproc]) (by simp [hp]) fun q => ?_
      exact making_update_iff hr (by simp) p q
  rw [card_liveProcesses, card_liveProcesses, unnumbered_update hpid hr (by simp)]
  omega

/-- The count changes as the number of live processes does. -/
theorem Counts.card (h : RolesOk f role) (ht : t < f.globalPid)
    (hforked : (f.process t).forked = true) (hc : ∀ c, r = .making c → c < f.globalPid)
    (hr : role t = r) (hcounts : Counts f t r f' r') :
    ((liveProcesses f' (Function.update role t r')).card : Int) - f'.numActiveProcesses =
      (liveProcesses f role).card - f.numActiveProcesses := by
  -- each step changes the counter and the set of live processes by the same amount; in `assignPid`
  -- and `fork` neither changes
  cases hcounts with
  | same hs =>
    have hnum : numbered f' (Function.update role t r) = numbered f role := by
      refine numbered_congr hs.globalPid fun p _ =>
        live_congr (hs.forked p) (hs.creator p) ?_ fun q => ?_
      · exact exited_update_iff hr .rfl p
      · exact making_update_iff hr (fun _ => .rfl) p q
    rw [card_liveProcesses, card_liveProcesses, hnum, unnumbered_update hs.globalPid hr .rfl,
      hs.numActiveProcesses]
  | increment =>
    have hcard : (liveProcesses { f with numActiveProcesses := f.numActiveProcesses + 1 }
        (Function.update role t .constructing)).card = (liveProcesses f role).card + 1 :=
      card_construct ht hr rfl rfl
    dsimp only
    omega
  | assignPid => rw [card_assignPid h ht hr]
  | fork =>
    rw [card_fork h hforked hr]
    rfl
  | @giveUp c =>
    have hcard : (liveProcesses { f with numActiveProcesses := f.numActiveProcesses - 1 }
        (Function.update role t .other)).card + 1 = (liveProcesses f role).card :=
      card_giveUp h (hc c rfl) hr rfl rfl
    dsimp only
    omega
  | exit =>
    have hcard : (liveProcesses { f with numActiveProcesses := f.numActiveProcesses - 1 }
        (Function.update role t .exited)).card + 1 = (liveProcesses f role).card :=
      card_exit ht hforked hr rfl rfl
    dsimp only
    omega

end Card

/-! ## Runs -/

/-- The invariant of the count. When no process is live, some thread is about to stop the
    machine. -/
structure Counted (st : Monitor) : Prop where
  count : st.shared.numActiveProcesses = (liveProcesses st.shared (roles st)).card
  making : ∀ t c, roles st t = .making c →
    (st.shared.process c).creator = some t ∧ (st.shared.process c).forked = false
  last : liveProcesses st.shared (roles st) = ∅ → ∃ t s, st.thread t = .run (.exit s .testLast)

section Step

variable {st st' : Monitor} {t : Nat} {pc pc' : Point} {f' : Processes}
  {phase : Phase LockId FreeCondition Point}

theorem roles_update (thread : Nat → Phase LockId FreeCondition Point) :
    (fun u => (Function.update thread t phase u).next.role) =
      Function.update (fun u => (thread u).next.role) t phase.next.role := by
  funext u
  by_cases hu : u = t
  · subst hu
    simp
  · simp [hu]

theorem Inv.rolesOk (h : Inv st) (hc : Counted st) : RolesOk st.shared (roles st) where
  making := hc.making
  fresh := (h.fresh _ (Nat.le_refl _)).1
  notForked c hforked := by
    have huser : st.thread c = .run (.user none) := by
      by_contra hne
      simp [h.running c hne] at hforked
    rw [roles, huser]
    rfl

/-- A thread that makes a child is still at it when another thread acts. -/
theorem Counts.making {f : Processes} {role : Nat → Role} {r r' : Role} (h : RolesOk f role)
    (hr : role t = r) (hcounts : Counts f t r f' r') (u c : Nat)
    (hu : Function.update role t r' u = .making c) :
    (f'.process c).creator = some u ∧ (f'.process c).forked = false := by
  have hold : role u = .making c → (f.process c).creator = some u ∧ (f.process c).forked = false :=
    h.making u c
  cases hcounts with
  | same hs =>
    rw [hs.creator, hs.forked]
    exact hold ((making_update_iff hr (fun _ => .rfl) c u).mp hu)
  | increment => exact hold ((making_update_iff hr (by simp) c u).mp hu)
  | exit => exact hold ((making_update_iff hr (by simp) c u).mp hu)
  | giveUp =>
    by_cases hut : u = t
    · subst hut
      simp at hu
    · exact hold (by simpa [hut] using hu)
  | assignPid =>
    by_cases hut : u = t
    · -- the process it makes is the one that got the number just now
      subst hut
      simp only [Function.update_self, Role.making.injEq] at hu
      simp [← hu]
    · obtain ⟨hcreator, hforked⟩ := hold (by simpa [hut] using hu)
      -- the number handed out is new, so another maker cannot be making it
      have hne : c ≠ f.globalPid := by
        rintro rfl
        simp [h.fresh] at hcreator
      simp [hne, hcreator, hforked]
  | @fork d =>
    by_cases hut : u = t
    · subst hut
      simp at hu
    · have hmaking : role u = .making c := by simpa [hut] using hu
      -- a process has one maker, and the maker of `d` stops making
      have hne : c ≠ d := by
        rintro rfl
        exact hut (h.maker_eq hr hmaking)
      rw [process_modify, if_neg hne]
      exact hold hmaking

/-- The program stops the machine at the test if no process is left. -/
theorem instr_testLast {f : Processes} {s : BitVec 32} {syscall : Syscall}
    (h : program.instr t (.exit s .testLast) f syscall = .act f' pc') :
    f.numActiveProcesses ≠ 0 := by
  intro hzero
  simp [program, handleExit, hzero] at h

theorem act_counted (h : Inv st) (hc : Counted st) (hpc : st.thread t = .run pc) {syscall : Syscall}
    (hinstr : program.instr t pc st.shared syscall = .act f' pc') :
    Counted (acted st t f' pc') := by
  have ha : Act st.shared t pc f' pc' := by
    have hex : Executes st.shared t pc (.act f' pc') := hinstr ▸ executes_instr pc syscall
    exact hex
  have hr : roles st t = pc.role := by rw [roles, hpc, Phase.next]
  have hroles : roles (acted st t f' pc') = Function.update (roles st) t pc'.role :=
    roles_update st.thread
  have hok := h.rolesOk hc
  have ht := ha.lt_globalPid h hpc
  have hforked := ha.forked h hpc
  have hlt : ∀ c, pc.role = .making c → c < st.shared.globalPid := by
    intro c hmaking
    exact h.creator_lt c t (hc.making t c (hr.trans hmaking)).1
  have hcard := Counts.card hok ht hforked hlt hr ha.counts
  have hcount : f'.numActiveProcesses = (liveProcesses f' (roles (acted st t f' pc'))).card := by
    rw [hroles]
    have := hc.count
    omega
  refine ⟨hcount, ?_, fun hempty => ?_⟩
  · rw [hroles]
    exact ha.counts.making hok hr
  -- a thread that acts is live unless it exits, so this one has
  have hexited : pc'.role = .exited := by
    by_contra hne
    have hforked' : (f'.process t).forked = true := by
      rcases (ha.change hok.fresh (h.pointOk hpc) t).forked with heq | ⟨heq, -⟩
      · exact heq.trans hforked
      · exact heq
    have hmem : Sum.inl t ∈ liveProcesses f' (roles (acted st t f' pc')) := by
      refine Finset.inl_mem_disjSum.mpr (Finset.mem_filter.mpr ⟨?_, ?_⟩)
      · exact Finset.mem_range.mpr (Nat.lt_of_lt_of_le ht ha.pids)
      · refine (live_of_forked hforked').mpr ?_
        rwa [hroles, Function.update_self]
    rw [hempty] at hmem
    exact absurd hmem (by simp)
  cases ha with
  | @decrement s => exact ⟨t, s, by simp⟩
  | testLast =>
    rw [hempty] at hcount
    exact absurd hcount (instr_testLast hinstr)
  | _ => cases hexited

/-- A thread goes on to another phase, with the same role. -/
theorem Counted.setThread (hc : Counted st) {holder : LockId → Option Nat}
    {queue : FreeCondition → List Nat} (hrole : phase.next.role = (st.thread t).next.role)
    (hlast : ∀ s, st.thread t ≠ .run (.exit s .testLast)) :
    Counted { st with holder := holder, queue := queue
                      thread := Function.update st.thread t phase } := by
  have hroles : roles { st with holder := holder, queue := queue
                                thread := Function.update st.thread t phase } = roles st := by
    refine (roles_update st.thread).trans ?_
    rw [hrole]
    exact Function.update_eq_self t (roles st)
  refine ⟨?_, ?_, ?_⟩
  · rw [hroles]
    exact hc.count
  · rw [hroles]
    exact hc.making
  · rw [hroles]
    intro hempty
    obtain ⟨u, s, hu⟩ := hc.last hempty
    have hut : u ≠ t := by
      intro hut
      exact hlast s (hut ▸ hu)
    exact ⟨u, s, by simpa [hut] using hu⟩

theorem Counted.setRun (hc : Counted st) {holder : LockId → Option Nat}
    {queue : FreeCondition → List Nat} (hpc : st.thread t = .run pc)
    (hrole : phase.next.role = pc.role ∧ ∀ s, pc ≠ .exit s .testLast) :
    Counted { st with holder := holder, queue := queue
                      thread := Function.update st.thread t phase } := by
  refine hc.setThread ?_ fun s hs => ?_
  · rw [hpc]
    exact hrole.1
  · exact hrole.2 s (Phase.run.inj (hpc.symm.trans hs))

/-- Every step keeps the count. -/
theorem step_counted (h : Inv st) (hc : Counted st) (hstep : Step program st st') :
    Counted st' := by
  cases hstep with
  | @act t pc i shared next hpc hinstr => exact act_counted h hc hpc hinstr
  | @acquire t pc i l next hpc hinstr =>
    have hex : Executes st.shared t pc (.acquire l next) := hinstr ▸ executes_instr pc i
    exact hc.setRun hpc (Acquires.role hex)
  | enter hpc _ => exact hc.setThread (by rw [hpc]; rfl) (by simp [hpc])
  | @release t pc i l next hpc hinstr _ =>
    have hex : Executes st.shared t pc (.release l next) := hinstr ▸ executes_instr pc i
    exact hc.setRun hpc (Releases.role hex)
  | @sleep t pc i c next hpc hinstr _ =>
    have hex : Executes st.shared t pc (.sleep c next) := hinstr ▸ executes_instr pc i
    exact hc.setRun hpc (Sleeps.role hex)
  | @wakeNone t pc i c next hpc hinstr _ _ =>
    have hex : Executes st.shared t pc (.wake c next) := hinstr ▸ executes_instr pc i
    exact hc.setRun hpc (Wakes.role hex)
  | @wakeSome t u pc i c next rest hpc hinstr _ hqueue =>
    have hex : Executes st.shared t pc (.wake c next) := hinstr ▸ executes_instr pc i
    -- first the thread that is woken, then the one that wakes it
    obtain ⟨n, hu⟩ := h.queued.head_asleep hqueue
    have hwoken : Counted { st with thread := Function.update st.thread u (st.thread u).wake } :=
      hc.setThread (by rw [hu]; rfl) (by simp [hu])
    have hut : t ≠ u := by
      rintro rfl
      simp [hpc] at hu
    exact hwoken.setRun (by simpa [hut] using hpc) (Wakes.role hex)
  | retry hpc => exact hc.setThread (by rw [hpc]; rfl) (by simp [hpc])

end Step

theorem liveProcesses_root {f : Processes} (hpid : f.globalPid = 1)
    (hforked : (f.process 0).forked = true) : liveProcesses f (fun _ => .other) = {Sum.inl 0} := by
  have hnum : numbered f (fun _ => .other) = {0} := by
    ext p
    simp only [numbered, hpid, Finset.range_one, Finset.mem_filter, Finset.mem_singleton,
      and_iff_left_iff_imp]
    rintro rfl
    exact (live_of_forked hforked).mpr (by simp)
  have hun : unnumbered f (fun _ => .other) = ∅ := by simp [unnumbered]
  rw [liveProcesses, hnum, hun]
  rfl

/-- After boot the root process is the only one. -/
theorem boot_counted {n : Nat} {image : Image} {st : System} (h : boot n image = some st) :
    Counted st.monitor := by
  unfold boot at h
  split at h
  · obtain rfl := Option.some.inj h
    have hroot := liveProcesses_root (f := {
      process := Function.update (fun _ => {}) 0
        { pageTable := loadSections image (List.range n), forked := true }
      globalPid := 1
      numActiveProcesses := 1
      numPhysPages := n
      freePagesPool := (List.range n).drop image.numPages }) rfl (by simp)
    refine ⟨?_, ?_, fun hempty => ?_⟩
    · exact (congrArg (fun s => (s.card : Int)) hroot).symm
    · simp [roles, Threads.monitor, Status.phase, Phase.next, Point.role]
    · exact absurd (hroot.symm.trans hempty) (by simp)
  · simp at h

section Run

variable {n : Nat} {image : Image} {st st' : System} {choices : List (Choice Nat Syscall)}

theorem status_of_run {p : Nat} {pc : Point} (h : st.monitor.thread p = .run pc) :
    st.status p = .ready pc := by
  simp only [Threads.monitor] at h
  cases hs : st.status p with
  | ready pc' =>
    rw [hs] at h
    rw [Phase.run.inj h]
  | beforeP c next =>
    simp only [hs, Status.phase] at h
    split at h <;> cases h
  | waitLock l next | waitSemaphore c next | beforeAcquire c next => simp [hs, Status.phase] at h

theorem run_counted (hboot : boot n image = some st)
    (h : Threads.run program st choices = some st') :
    Counted st'.monitor := by
  have hboth : Inv st'.monitor ∧ Counted st'.monitor :=
    (boot_steps hboot h).invariant (Q := fun st => Inv st ∧ Counted st)
      (fun hq hstep => ⟨step_inv hq.1 hstep, step_counted hq.1 hq.2 hstep⟩)
      ⟨boot_inv hboot, boot_counted hboot⟩
  exact hboth.2

/-- `numActiveProcesses` is the number of live processes, also while `numProcessLock` is
    taken. A process that has exited calls `terminate` if and only if no process is live, and
    when no process is live there is one that does. -/
theorem run_processesCounted (hboot : boot n image = some st)
    (hrun : Threads.run program st choices = some st') :
    st'.shared.numActiveProcesses = (liveProcesses st'.shared (roles st'.monitor)).card ∧
    (∀ p status, st'.status p = .ready (.exit status .testLast) →
      (Terminates st' p ↔ liveProcesses st'.shared (roles st'.monitor) = ∅)) ∧
    (liveProcesses st'.shared (roles st'.monitor) = ∅ ↔ ∃ p, Terminates st' p) := by
  have h := run_counted hboot hrun
  have hcount : st'.shared.numActiveProcesses =
    (liveProcesses st'.shared (roles st'.monitor)).card := h.count
  have hempty : st'.shared.numActiveProcesses = 0 ↔
      liveProcesses st'.shared (roles st'.monitor) = ∅ := by
    rw [hcount, Int.natCast_eq_zero, Finset.card_eq_zero]
  refine ⟨hcount, fun p status hp => ?_, fun hnone => ?_, ?_⟩
  · constructor
    · rintro ⟨-, -, hzero⟩
      exact hempty.mp hzero
    · intro hnone
      exact ⟨status, hp, hempty.mpr hnone⟩
  · obtain ⟨p, s, hp⟩ := h.last hnone
    exact ⟨p, s, status_of_run hp, hempty.mpr hnone⟩
  · rintro ⟨p, -, -, hzero⟩
    exact hempty.mp hzero

end Run

/-- The root process makes a child that exits, and then exits itself, up to the last test. -/
def allExit : List (Choice Nat Syscall) := lateExit ++ List.replicate 7 ⟨0, .exit 0, 0⟩

theorem run_processesCounted_allExit :
    ∃ st st', boot 18 ⟨[]⟩ = some st ∧ Threads.run program st allExit = some st' ∧
      Terminates st' 0 ∧ liveProcesses st'.shared (roles st'.monitor) = ∅ := by
  obtain ⟨st, st', hboot, hrun, hstatus, hzero⟩ :=
    exists_run 18 ⟨[]⟩ allExit (fun st => st.status 0 = .ready (.exit 0 .testLast) ∧
      st.shared.numActiveProcesses = 0) (by decide +kernel)
  have hterm : Terminates st' 0 := ⟨0, hstatus, hzero⟩
  exact ⟨st, st', hboot, hrun, hterm, ((run_processesCounted hboot hrun).2.1 0 0 hstatus).mp hterm⟩

end Processes

end Nachos
