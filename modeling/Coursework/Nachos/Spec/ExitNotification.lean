import Coursework.Nachos.Spec.ProcessSteps
import Mathlib.Data.List.Nodup

/-!
# Exit notifications

Whether the bucket of a process that has exited reaches its parent. It does exactly if the
process looked at its `parent` field after `exec` had assigned it; and a `join` takes the
bucket for an answer unless the status is the value that `searchFreeChildren` returns for
none.
-/

namespace Nachos

namespace Processes

open Mesa (Phase)


/-- Process `p` is asleep in a `join` of `pid`, and no wake is on its way. -/
def Waits (st : System) (p : Nat) (pid : BitVec 32) : Prop :=
  ∃ addr c r, st.monitor.thread p = .asleep ⟨p⟩ (.join pid addr c r .search)

/-- Process `p` has been notified that process `c` has exited: it has one bucket with the
    `pid` of `c`, which has the status that `c` ended with; a `join` finds it, and is not
    asleep. -/
structure Notified (st : System) (p c : Nat) : Prop where
  bucket : ∃ e, (st.shared.process c).ending = some e ∧
    (st.shared.process p).freeChildren.filter (·.pid == pidOf c) = [⟨e.status, pidOf c, c⟩]
  found : searchFreeChildren (st.shared.process p).freeChildren (pidOf c) ≠ -2
  awake : ¬ Waits st p (pidOf c)

theorem pidOf_inj {c d : Nat} (hc : c < 2 ^ 32) (hd : d < 2 ^ 32) (h : pidOf c = pidOf d) :
    c = d := by
  have hnat : c % 2 ^ 32 = d % 2 ^ 32 := congrArg BitVec.toNat h
  rwa [Nat.mod_eq_of_lt hc, Nat.mod_eq_of_lt hd] at hnat

theorem searchFreeChildren_of_filter {l : List Bucket} {pid : BitVec 32} {b : Bucket}
    (h : l.filter (·.pid == pid) = [b]) : searchFreeChildren l pid = b.status := by
  have hfind := List.head?_filter (p := fun b : Bucket => b.pid == pid) (l := l)
  rw [h, List.head?_cons] at hfind
  simp [searchFreeChildren, ← hfind]

section Buckets

variable {st : Monitor} {p c : Nat} {e : Ending}

/-- While pids are distinct, a bucket with the `pid` of a process is from that process. -/
theorem Inv.source_of_pid (h : Inv st) (hpids : st.shared.globalPid ≤ 2 ^ 32)
    (hc : c < st.shared.globalPid) {b : Bucket} (hb : b ∈ (st.shared.process p).freeChildren)
    (hpid : b.pid = pidOf c) : b.source = c := by
  have hbucket := h.buckets p b hb
  have hsource := h.creator_lt _ _ hbucket.creator
  exact pidOf_inj (by omega) (by omega) (hbucket.pid.symm.trans hpid)

/-- The bucket that a process has left is the only one with its `pid`. -/
theorem Inv.filter_of_sent (h : Inv st) (hpids : st.shared.globalPid ≤ 2 ^ 32)
    (hcr : (st.shared.process c).creator = some p) (he : (st.shared.process c).ending = some e)
    (hs : Sent st c) :
    (st.shared.process p).freeChildren.filter (·.pid == pidOf c) = [⟨e.status, pidOf c, c⟩] := by
  obtain ⟨q, hq, b, hb, hsource⟩ := hs
  obtain rfl := Option.some.inj (hq.symm.trans hcr)
  have hbucket := h.buckets q b hb
  have hb_eq : b = ⟨e.status, pidOf c, c⟩ := by
    obtain ⟨e', he', hstatus⟩ := hbucket.status
    rw [hsource] at he'
    obtain rfl := Option.some.inj (he'.symm.trans he)
    have hpid := hbucket.pid
    rw [hsource] at hpid
    cases b
    simp_all
  have hnodup : (st.shared.process q).freeChildren.Nodup := List.Nodup.of_map _ (h.once q)
  have hperm : ((st.shared.process q).freeChildren.filter (·.pid == pidOf c)).Perm [b] := by
    rw [List.perm_ext_iff_of_nodup (hnodup.filter _) (by simp)]
    intro a
    simp only [List.mem_filter, beq_iff_eq, List.mem_singleton]
    constructor
    · rintro ⟨ha, hpid⟩
      have ha_source := h.source_of_pid hpids (h.creator_lt c q hq) ha hpid
      exact List.inj_on_of_nodup_map (h.once q) ha hb (ha_source.trans hsource.symm)
    · rintro rfl
      exact ⟨hb, by rw [hb_eq]⟩
  rw [List.perm_singleton.mp hperm, hb_eq]

/-- A process that sleeps in a `join` has no bucket that ends it, from a process that has
    woken it. -/
theorem Inv.not_asleep (h : Inv st) (hpids : st.shared.globalPid ≤ 2 ^ 32)
    (hcr : (st.shared.process c).creator = some p) (hthread : st.thread c = .run .finished)
    (hfilter : (st.shared.process p).freeChildren.filter (·.pid == pidOf c) =
      [⟨e.status, pidOf c, c⟩]) (hstatus : e.status ≠ -2) {addr r : BitVec 32} {d : Nat} :
    st.thread p ≠ .asleep ⟨p⟩ (.join (pidOf c) addr d r .search) := by
  intro hasleep
  rcases h.waits p _ addr d r hasleep with hnone | ⟨l, b, s, hl, hnone, hb⟩
  · rw [searchFreeChildren_of_filter hfilter] at hnone
    exact hstatus hnone
  · -- the last bucket is not the one of `c`, so the search of the others finds it
    have hpid : b.pid ≠ pidOf c := by
      intro hpid
      have hmem : b ∈ (st.shared.process p).freeChildren := by simp [hl]
      rw [h.source_of_pid hpids (h.creator_lt c p hcr) hmem hpid, hthread] at hb
      cases hb
    rw [hl, List.filter_append] at hfilter
    simp only [List.filter_cons, beq_eq_false_iff_ne.mpr hpid, Bool.false_eq_true, if_false,
      List.filter_nil, List.append_nil] at hfilter
    rw [searchFreeChildren_of_filter hfilter] at hnone
    exact hstatus hnone

end Buckets

section Run

variable {n : Nat} {image : Image} {st st' : System} {choices : List (Choice Nat Syscall)}

/-- A process that has exited has notified its parent, unless the parent is exiting too, if
    and only if it did not look at its `parent` field before `exec` had assigned it, and its
    status is not the one that means none. -/
theorem run_notified (hboot : boot n image = some st)
    (hrun : Threads.run program st choices = some st') (hpids : st'.shared.globalPid ≤ 2 ^ 32)
    {p c : Nat} (hcr : (st'.shared.process c).creator = some p)
    (hexited : st'.status c = .ready .finished)
    (hparent : (st'.monitor.thread p).next.exiting = false) :
    Notified st' p c ↔ (st'.shared.process c).early = false ∧
      (st'.shared.process c).ending ≠ some (.exit (-2)) := by
  have h := run_inv hboot hrun
  have hthread : st'.monitor.thread c = .run .finished := by
    simp [Threads.monitor, hexited, Status.phase]
  constructor
  · rintro ⟨⟨e, he, hfilter⟩, hfound, -⟩
    refine ⟨?_, fun hstatus => ?_⟩
    · -- a child that exited early leaves no bucket
      by_contra hearly
      refine (h.silent c (eq_true_of_ne_false hearly)).2 ⟨p, hcr, ⟨e.status, pidOf c, c⟩, ?_, rfl⟩
      exact List.mem_of_mem_filter (hfilter ▸ List.mem_singleton_self _)
    · -- a status of -2 is taken for a child that has not exited
      obtain rfl := Option.some.inj (he.symm.trans hstatus)
      exact hfound (searchFreeChildren_of_filter hfilter)
  · rintro ⟨hearly, hstatus⟩
    have hok : PhaseOk st'.shared c (.run .finished) := hthread ▸ h.ok c
    obtain ⟨e, he⟩ := hok
    -- the parent is not exiting itself, so the bucket went to its list
    have hsent : Sent st'.monitor c := by
      refine (h.sent c (by rw [hthread]; rfl)).resolve_right ?_
      rintro (hyes | hnone | ⟨q, hq, hexit⟩)
      · exact absurd (hyes.symm.trans hearly) (by decide)
      · exact absurd (hnone.symm.trans hcr) (by simp)
      · obtain rfl := Option.some.inj (hq.symm.trans hcr)
        simp [hparent] at hexit
    have hne : e.status ≠ -2 := by
      cases e with
      | exit s => exact fun hs => hstatus (he.trans (by rw [← hs]; rfl))
      | fault => decide
    have hfilter : (st'.shared.process p).freeChildren.filter (·.pid == pidOf c) =
        [⟨e.status, pidOf c, c⟩] := h.filter_of_sent hpids hcr he hsent
    refine ⟨⟨e, he, hfilter⟩, ?_, ?_⟩
    · rw [searchFreeChildren_of_filter hfilter]
      exact hne
    · rintro ⟨addr, d, r, hasleep⟩
      exact h.not_asleep hpids hcr hthread hfilter hne hasleep

/-- A run from boot whose last state passes a test. -/
theorem exists_run (n : Nat) (image : Image) (choices : List (Choice Nat Syscall))
    (test : System → Prop) [DecidablePred test]
    (h : ((boot n image).bind fun st => Threads.run program st choices).map
      (fun st => decide (test st)) = some true) :
    ∃ st st', boot n image = some st ∧ Threads.run program st choices = some st' ∧ test st' := by
  obtain ⟨st', hbind, htest⟩ := Option.map_eq_some_iff.mp h
  obtain ⟨st, hboot, hrun⟩ := Option.bind_eq_some_iff.mp hbind
  exact ⟨st, st', hboot, hrun, of_decide_eq_true htest⟩

end Run

/-- The root process makes a child and `exec` returns; then the child exits. -/
def lateExit : List (Choice Nat Syscall) :=
  List.replicate 10 ⟨0, .exec (some ⟨[]⟩), 0⟩ ++ List.replicate 12 ⟨1, .exit 5, 0⟩

/-- The child exits when it has been forked, before `exec` goes on. -/
def earlyExit : List (Choice Nat Syscall) :=
  List.replicate 7 ⟨0, .exec (some ⟨[]⟩), 0⟩ ++ List.replicate 8 ⟨1, .exit 5, 0⟩ ++
    List.replicate 3 ⟨0, .exec none, 0⟩

theorem run_notified_lateExit :
    ∃ st st', boot 18 ⟨[]⟩ = some st ∧ Threads.run program st lateExit = some st' ∧
      st'.status 0 = .ready (.user (some (pidOf 1))) ∧ Notified st' 0 1 := by
  obtain ⟨st, st', hboot, hrun, hpids, hcr, hparent, hexited, hearly, hending⟩ :=
    exists_run 18 ⟨[]⟩ lateExit (fun st => st.shared.globalPid ≤ 2 ^ 32 ∧
        (st.shared.process 1).creator = some 0 ∧ st.status 0 = .ready (.user (some (pidOf 1))) ∧
        st.status 1 = .ready .finished ∧ (st.shared.process 1).early = false ∧
        (st.shared.process 1).ending = some (.exit 5)) (by decide +kernel)
  refine ⟨st, st', hboot, hrun, hparent, (run_notified hboot hrun hpids hcr hexited ?_).mpr ?_⟩
  · simp [Threads.monitor, hparent, Status.phase, Phase.next, Point.exiting]
  · exact ⟨hearly, by rw [hending]; decide⟩

/-- The parent has the `pid` of a child that has exited, and no bucket. -/
theorem not_notified_earlyExit :
    ∃ st st', boot 18 ⟨[]⟩ = some st ∧ Threads.run program st earlyExit = some st' ∧
      (st'.shared.process 1).creator = some 0 ∧
      st'.status 0 = .ready (.user (some (pidOf 1))) ∧ st'.status 1 = .ready .finished ∧
      ¬ Notified st' 0 1 := by
  obtain ⟨st, st', hboot, hrun, hcr, hparent, hexited, hnone⟩ :=
    exists_run 18 ⟨[]⟩ earlyExit (fun st => (st.shared.process 1).creator = some 0 ∧
        st.status 0 = .ready (.user (some (pidOf 1))) ∧ st.status 1 = .ready .finished ∧
        (st.shared.process 0).freeChildren = []) (by decide +kernel)
  refine ⟨st, st', hboot, hrun, hcr, hparent, hexited, ?_⟩
  rintro ⟨⟨e, -, hfilter⟩, -, -⟩
  simp [hnone] at hfilter

end Processes

end Nachos
