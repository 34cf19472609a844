import Coursework.Zoobar.Transfer
import Mathlib.Algebra.BigOperators.Group.Finset.Piecewise

/-!
# Transfers and the sum of balances

A transfer takes its amount from the sender in one statement and gives it to the recipient in
another, each time writing a balance it has read in a statement before. The sum of all balances
survives exactly as far as these balances are still those in the table.
-/

namespace Zoobar

namespace Database

theorem total_updateByID {db : Database} (hids : (db.map Person.personID).Nodup) {id zoobars : Int}
    (hid : id ∈ db.map Person.personID) :
    (db.updateByID id zoobars).total = db.total - zoobarsOf (db.selectByID id) + zoobars := by
  obtain ⟨p, hp, rfl⟩ := List.mem_map.mp hid
  have hfind : (db.selectByID p.personID).isSome := by
    rw [selectByID, List.find?_isSome]
    exact ⟨p, hp, by simp⟩
  obtain ⟨q, hq⟩ := Option.isSome_iff_exists.mp hfind
  have hkey : q.personID = p.personID := by simpa using List.find?_some hq
  rw [hq]
  exact List.sum_updateKey hids q (List.mem_of_find?_eq_some hq) hkey

theorem total_updateByUsername {db : Database} (hnames : (db.map Person.username).Nodup)
    {name : String} {zoobars : Int} (hname : name ∈ db.map Person.username) :
    (db.updateByUsername name zoobars).total =
      db.total - zoobarsOf (db.selectByUsername name) + zoobars := by
  obtain ⟨p, hp, rfl⟩ := List.mem_map.mp hname
  have hfind : (db.selectByUsername p.username).isSome := by
    rw [selectByUsername, List.find?_isSome]
    exact ⟨p, hp, by simp⟩
  obtain ⟨q, hq⟩ := Option.isSome_iff_exists.mp hfind
  have hkey : q.username = p.username := by simpa using List.find?_some hq
  rw [hq]
  exact List.sum_updateKey hnames q (List.mem_of_find?_eq_some hq) hkey

/-- A balance that is not 0 is in the table. -/
theorem mem_ids_of_zoobarsOf {db : Database} {id : Int} (h : zoobarsOf (db.selectByID id) ≠ 0) :
    id ∈ db.map Person.personID := by
  cases hq : db.selectByID id with
  | none => exact absurd (by rw [hq]; rfl) h
  | some q =>
    have hkey : q.personID = id := by simpa using List.find?_some hq
    exact hkey ▸ List.mem_map_of_mem (List.mem_of_find?_eq_some hq)

theorem mem_names_of_recipientExists {db : Database} {name : String}
    (h : recipientExists (db.selectByUsername name) = true) : name ∈ db.map Person.username := by
  cases hq : db.selectByUsername name with
  | none => rw [hq] at h; cases h
  | some q =>
    have hkey : q.username = name := by simpa using List.find?_some hq
    exact hkey ▸ List.mem_map_of_mem (List.mem_of_find?_eq_some hq)

/-- No balance is negative. -/
def Nonneg (db : Database) : Prop := ∀ p ∈ db, 0 ≤ p.zoobars

theorem Nonneg.zoobarsOf_selectByUsername {db : Database} (h : db.Nonneg) (name : String) :
    0 ≤ zoobarsOf (db.selectByUsername name) := by
  cases hq : db.selectByUsername name with
  | none => exact Int.le_refl 0
  | some q => exact h q (List.mem_of_find?_eq_some hq)

/-- Writing a balance that is not negative. -/
theorem Nonneg.updateKey {κ : Type} [DecidableEq κ] {db : Database} (h : db.Nonneg)
    {key : Person → κ} {k : κ} {zoobars : Int} (hz : 0 ≤ zoobars) :
    Nonneg (db.updateKey key k fun p => { p with zoobars := zoobars }) := by
  intro p hp
  obtain ⟨q, hq, rfl⟩ := List.mem_updateKey.mp hp
  split
  · exact hz
  · exact h q hq

end Database

/-! ## One statement -/

/-- The rows that a request has found are there: rows are never deleted. -/
def PointOk (ids : List Int) (names : List String) (r : Request) : Point → Prop
  | .start => True
  | .senderRead senderBalance => senderBalance = -r.zoobars ∨ r.userID ∈ ids
  | .recipientRead senderBalance recipientExists =>
    (senderBalance = -r.zoobars ∨ r.userID ∈ ids) ∧
      (recipientExists = true → r.recipient ∈ names)
  | .senderUpdated => r.recipient ∈ names
  | .balanceRead _ => r.recipient ∈ names
  | .finished => True

/-- What a request has taken from its sender and not given to its recipient yet. -/
def inFlight (r : Request) : Point → Int
  | .senderUpdated => r.zoobars
  | .balanceRead _ => r.zoobars
  | _ => 0

/-- An update finds in the table the balance that its request has read. -/
def upToDate (db : Database) (r : Request) : Point → Bool
  | .recipientRead senderBalance recipientExists =>
    !accepts r senderBalance recipientExists ||
      zoobarsOf (db.selectByID r.userID) == senderBalance + r.zoobars
  | .balanceRead recipientBalance =>
    zoobarsOf (db.selectByUsername r.recipient) + r.zoobars == recipientBalance
  | _ => true

/-- The balance that a request is about to give its recipient is not negative. -/
def BalanceNonneg (r : Request) : Point → Prop
  | .senderUpdated => 0 < r.zoobars
  | .balanceRead recipientBalance => 0 ≤ recipientBalance
  | _ => True

section Statement

variable {db db' : Database} {r : Request} {p p' : Point}

theorem accepts_iff {senderBalance : Int} {recipientExists : Bool} :
    accepts r senderBalance recipientExists = true ↔
      0 < r.zoobars ∧ 0 ≤ senderBalance ∧ recipientExists = true := by
  simp [accepts, and_assoc]

/-- What a statement does: the table and the point after it. -/
inductive Executes (db : Database) (r : Request) : Point → Database → Point → Prop
  | start : Executes db r .start db (.senderRead (zoobarsOf (db.selectByID r.userID) - r.zoobars))
  | senderRead (senderBalance : Int) : Executes db r (.senderRead senderBalance) db
      (.recipientRead senderBalance (recipientExists (db.selectByUsername r.recipient)))
  | accepted {senderBalance : Int} {recipientExists : Bool}
      (h : accepts r senderBalance recipientExists = true) :
      Executes db r (.recipientRead senderBalance recipientExists)
        (db.updateByID r.userID senderBalance) .senderUpdated
  | refused (senderBalance : Int) (recipientExists : Bool) :
      Executes db r (.recipientRead senderBalance recipientExists) db .finished
  | senderUpdated : Executes db r .senderUpdated db
      (.balanceRead (zoobarsOf (db.selectByUsername r.recipient) + r.zoobars))
  | balanceRead (recipientBalance : Int) : Executes db r (.balanceRead recipientBalance)
      (db.updateByUsername r.recipient recipientBalance) .finished
  | finished : Executes db r .finished db .finished

theorem statement_executes (h : statement db r p = some (db', p')) : Executes db r p db' p' := by
  cases p with
  | recipientRead senderBalance recipientExists =>
    simp only [statement] at h
    split at h
    · rename_i haccepts
      obtain ⟨rfl, rfl⟩ := Prod.mk.inj (Option.some.inj h)
      exact .accepted haccepts
    · obtain ⟨rfl, rfl⟩ := Prod.mk.inj (Option.some.inj h)
      exact .refused senderBalance recipientExists
  | senderUpdated =>
    -- a sum that leaves the integers is no statement
    simp only [statement] at h
    split at h
    · cases h
    · obtain ⟨rfl, rfl⟩ := Prod.mk.inj (Option.some.inj h)
      exact .senderUpdated
  | start | senderRead senderBalance | balanceRead recipientBalance | finished =>
    obtain ⟨rfl, rfl⟩ := Prod.mk.inj (Option.some.inj h)
    constructor

/-- Statements keep the keys of the table, and find what they rely on. -/
theorem statement_pointOk (h : statement db r p = some (db', p'))
    (hp : PointOk (db.map Person.personID) (db.map Person.username) r p) :
    db'.map Person.personID = db.map Person.personID ∧
      db'.map Person.username = db.map Person.username ∧
      PointOk (db.map Person.personID) (db.map Person.username) r p' := by
  cases statement_executes h with
  | start =>
    refine ⟨rfl, rfl, ?_⟩
    by_cases hzero : zoobarsOf (db.selectByID r.userID) = 0
    · left
      omega
    · right
      exact Database.mem_ids_of_zoobarsOf hzero
  | senderRead senderBalance => exact ⟨rfl, rfl, hp, Database.mem_names_of_recipientExists⟩
  | accepted haccepts =>
    exact ⟨List.map_updateKey fun _ => rfl, List.map_updateKey fun _ => rfl,
      hp.2 (accepts_iff.mp haccepts).2.2⟩
  | refused senderBalance recipientExists => exact ⟨rfl, rfl, trivial⟩
  | senderUpdated => exact ⟨rfl, rfl, hp⟩
  | balanceRead recipientBalance =>
    exact ⟨List.map_updateKey fun _ => rfl, List.map_updateKey fun _ => rfl, trivial⟩
  | finished => exact ⟨rfl, rfl, trivial⟩

/-- Only the updates move money, and what one takes is in flight until the other gives it, if
    both find the balance their request has read. -/
theorem statement_total (hids : (db.map Person.personID).Nodup)
    (hnames : (db.map Person.username).Nodup) (h : statement db r p = some (db', p'))
    (hp : PointOk (db.map Person.personID) (db.map Person.username) r p)
    (hfresh : upToDate db r p = true) :
    db'.total + inFlight r p' = db.total + inFlight r p := by
  cases statement_executes h with
  | start | senderRead | refused | senderUpdated | finished => rfl
  | @accepted senderBalance _ haccepts =>
    obtain ⟨hpos, hbalance, -⟩ := accepts_iff.mp haccepts
    have hid : r.userID ∈ db.map Person.personID := hp.1.resolve_left (by omega)
    have hread : zoobarsOf (db.selectByID r.userID) = senderBalance + r.zoobars := by
      simpa [upToDate, haccepts] using hfresh
    rw [Database.total_updateByID hids hid]
    simp only [inFlight]
    omega
  | balanceRead recipientBalance =>
    have hread : zoobarsOf (db.selectByUsername r.recipient) + r.zoobars = recipientBalance := by
      simpa [upToDate] using hfresh
    rw [Database.total_updateByUsername hnames hp]
    simp only [inFlight]
    omega

/-- No statement writes a negative balance, even one that is out of date. -/
theorem statement_nonneg (h : statement db r p = some (db', p')) (hdb : db.Nonneg)
    (hp : BalanceNonneg r p) : db'.Nonneg ∧ BalanceNonneg r p' := by
  cases statement_executes h with
  | start | senderRead | refused | finished => exact ⟨hdb, trivial⟩
  | accepted haccepts =>
    obtain ⟨hpos, hbalance, -⟩ := accepts_iff.mp haccepts
    exact ⟨hdb.updateKey hbalance, hpos⟩
  | senderUpdated =>
    have hold := hdb.zoobarsOf_selectByUsername r.recipient
    have hpos : 0 < r.zoobars := hp
    refine ⟨hdb, ?_⟩
    show 0 ≤ zoobarsOf (db.selectByUsername r.recipient) + r.zoobars
    omega
  | balanceRead recipientBalance => exact ⟨hdb.updateKey hp, trivial⟩

end Statement

/-! ## Runs -/

section Run

variable {ι : Type} [DecidableEq ι] {requests : ι → Request}

/-- Every update of the run finds the balance that its request has read. -/
def allUpToDate (requests : ι → Request) : State ι → List ι → Bool
  | _, [] => true
  | s, i :: schedule => upToDate s.db (requests i) (s.point i) &&
      (step requests s i).all fun s' => allUpToDate requests s' schedule

/-- The request has not started, or it is finished. -/
def Point.idle : Point → Bool
  | .start => true
  | .finished => true
  | _ => false

theorem step_eq_some {s s' : State ι} {i : ι} (h : step requests s i = some s') :
    ∃ p', statement s.db (requests i) (s.point i) = some (s'.db, p') ∧
      s'.point = Function.update s.point i p' := by
  obtain ⟨⟨db', p'⟩, hst, rfl⟩ := Option.map_eq_some_iff.mp h
  exact ⟨p', hst, rfl⟩

/-- The table has the keys it had, and every request finds what it relies on. -/
structure Consistent (requests : ι → Request) (db : Database) (s : State ι) : Prop where
  ids : s.db.map Person.personID = db.map Person.personID
  names : s.db.map Person.username = db.map Person.username
  point : ∀ i, PointOk (db.map Person.personID) (db.map Person.username) (requests i) (s.point i)

theorem Consistent.step {db : Database} {s s' : State ι} {i : ι} (hc : Consistent requests db s)
    (h : step requests s i = some s') : Consistent requests db s' := by
  obtain ⟨p', hst, hpoint⟩ := step_eq_some h
  have hp := hc.point i
  rw [← hc.ids, ← hc.names] at hp
  obtain ⟨hids, hnames, hp'⟩ := statement_pointOk hst hp
  rw [hc.ids, hc.names] at hp'
  refine ⟨hids.trans hc.ids, hnames.trans hc.names, ?_⟩
  intro j
  rw [hpoint]
  by_cases hj : j = i
  · subst hj
    rw [Function.update_self]
    exact hp'
  · rw [Function.update_of_ne hj]
    exact hc.point j

/-- No balance is negative, nor one that is about to be written. -/
def AllNonneg (requests : ι → Request) (s : State ι) : Prop :=
  s.db.Nonneg ∧ ∀ i, BalanceNonneg (requests i) (s.point i)

theorem AllNonneg.step {s s' : State ι} {i : ι} (hn : AllNonneg requests s)
    (h : step requests s i = some s') : AllNonneg requests s' := by
  obtain ⟨p', hst, hpoint⟩ := step_eq_some h
  obtain ⟨hdb, hp'⟩ := statement_nonneg hst hn.1 (hn.2 i)
  refine ⟨hdb, ?_⟩
  intro j
  rw [hpoint]
  by_cases hj : j = i
  · subst hj
    rw [Function.update_self]
    exact hp'
  · rw [Function.update_of_ne hj]
    exact hn.2 j

theorem AllNonneg.run {schedule : List ι} :
    ∀ {s s' : State ι}, AllNonneg requests s → run requests s schedule = some s' →
    AllNonneg requests s' := by
  induction schedule with
  | nil =>
    intro s s' hn h
    obtain rfl := Option.some.inj h
    exact hn
  | cons i schedule ih =>
    intro s s' hn h
    rw [Zoobar.run, List.foldlM_cons] at h
    obtain ⟨s₁, h₁, h⟩ := Option.bind_eq_some_iff.mp h
    exact ih (hn.step h₁) h

variable [Fintype ι]

/-- The money in the table and in flight. -/
def money (requests : ι → Request) (s : State ι) : Int :=
  s.db.total + ∑ i, inFlight (requests i) (s.point i)

/-- A step that finds the balance it has read keeps the money. -/
theorem money_step {db : Database} (hids : (db.map Person.personID).Nodup)
    (hnames : (db.map Person.username).Nodup) {s s' : State ι} {i : ι}
    (hc : Consistent requests db s) (h : step requests s i = some s')
    (hfresh : upToDate s.db (requests i) (s.point i) = true) :
    money requests s' = money requests s := by
  obtain ⟨p', hst, hpoint⟩ := step_eq_some h
  have hp := hc.point i
  rw [← hc.ids, ← hc.names] at hp
  have htotal := statement_total (hc.ids ▸ hids) (hc.names ▸ hnames) hst hp hfresh
  have hothers : ∀ j, inFlight (requests j) (s'.point j) =
      Function.update (fun j => inFlight (requests j) (s.point j)) i (inFlight (requests i) p') j := by
    intro j
    rw [hpoint]
    by_cases hj : j = i
    · subst hj
      rw [Function.update_self, Function.update_self]
    · rw [Function.update_of_ne hj, Function.update_of_ne hj]
  have hold := Finset.add_sum_erase Finset.univ (fun j => inFlight (requests j) (s.point j))
    (Finset.mem_univ i)
  simp only [money]
  rw [Finset.sum_congr rfl fun j _ => hothers j, Finset.sum_update_of_mem (Finset.mem_univ i),
    Finset.sdiff_singleton_eq_erase]
  omega

theorem money_run {db : Database} (hids : (db.map Person.personID).Nodup)
    (hnames : (db.map Person.username).Nodup) {schedule : List ι} :
    ∀ {s s' : State ι}, Consistent requests db s → run requests s schedule = some s' →
    allUpToDate requests s schedule = true → money requests s' = money requests s := by
  induction schedule with
  | nil =>
    intro s s' _ h _
    obtain rfl := Option.some.inj h
    rfl
  | cons i schedule ih =>
    intro s s' hc h hfresh
    rw [Zoobar.run, List.foldlM_cons] at h
    obtain ⟨s₁, h₁, h⟩ := Option.bind_eq_some_iff.mp h
    rw [allUpToDate, h₁, Option.all_some, Bool.and_eq_true] at hfresh
    calc money requests s' = money requests s₁ := ih (hc.step h₁) h hfresh.2
      _ = money requests s := money_step hids hnames hc h₁ hfresh.1

theorem inFlight_of_idle {r : Request} {p : Point} (h : p.idle = true) : inFlight r p = 0 := by
  cases p <;> first | rfl | cases h

/-- In every run no balance gets negative; and if every update finds the balance that its
    request has read, the sum of all balances is what it was once all requests have finished. -/
theorem run_conserves {db : Database} (hids : (db.map Person.personID).Nodup)
    (hnames : (db.map Person.username).Nodup) {schedule : List ι} {s : State ι}
    (h : run requests (boot db) schedule = some s) :
    (db.Nonneg → s.db.Nonneg) ∧
    (allUpToDate requests (boot db) schedule = true → (∀ i, (s.point i).idle = true) →
      s.db.total = db.total) := by
  constructor
  · intro hdb
    have hboot : AllNonneg requests (boot db) := ⟨hdb, fun _ => trivial⟩
    exact (hboot.run h).1
  · intro hfresh hidle
    have hboot : Consistent requests db (boot db) := ⟨rfl, rfl, fun _ => trivial⟩
    have hmoney := money_run hids hnames hboot h hfresh
    have hdone : ∀ i, inFlight (requests i) (s.point i) = 0 := fun i => inFlight_of_idle (hidle i)
    have hstart : ∀ i, inFlight (requests i) ((boot db : State ι).point i) = 0 := fun _ => rfl
    simp only [money, hdone, hstart, Finset.sum_const_zero, Int.add_zero] at hmoney
    exact hmoney

end Run

/-- Two users with ten zoobars each. -/
def twoUsers : Database := [⟨1, "alice", 10⟩, ⟨2, "bob", 10⟩]

/-- Alice sends 5 zoobars to Bob and 3 to herself. -/
def aliceSends : Bool → Request
  | false => ⟨1, "bob", 5⟩
  | true => ⟨1, "alice", 3⟩

/-- One request after the other. -/
theorem run_conserves_serial :
    ∃ s, run aliceSends (boot twoUsers)
      [false, false, false, false, false, true, true, true, true, true] = some s ∧
      s.db.total = twoUsers.total := by
  obtain ⟨s, hs⟩ := Option.isSome_iff_exists.mp (show (run aliceSends (boot twoUsers)
    [false, false, false, false, false, true, true, true, true, true]).isSome from by decide +kernel)
  have hidle : ((run aliceSends (boot twoUsers)
      [false, false, false, false, false, true, true, true, true, true]).all fun s =>
      (s.point false).idle && (s.point true).idle) = true := by decide +kernel
  rw [hs, Option.all_some, Bool.and_eq_true] at hidle
  refine ⟨s, hs, (run_conserves (by decide) (by decide) hs).2 (by decide +kernel) ?_⟩
  intro i
  cases i with
  | false => exact hidle.1
  | true => exact hidle.2

/-- Both requests read the balance of the sender before one of them writes it. -/
theorem not_conserved_interleaved :
    ∃ s, run (fun _ : Bool => ⟨1, "bob", 5⟩) (boot twoUsers)
      [false, true, false, true, false, true, false, false, true, true] = some s ∧
      (∀ i, s.point i = .finished) ∧ s.db.total = 25 ∧ twoUsers.total = 20 := by
  obtain ⟨s, hs⟩ := Option.isSome_iff_exists.mp (show (run (fun _ : Bool => ⟨1, "bob", 5⟩)
    (boot twoUsers) [false, true, false, true, false, true, false, false, true, true]).isSome
    from by decide +kernel)
  have htest : ((run (fun _ : Bool => ⟨1, "bob", 5⟩) (boot twoUsers)
      [false, true, false, true, false, true, false, false, true, true]).all fun s =>
      decide (s.point false = .finished ∧ s.point true = .finished ∧ s.db.total = 25)) = true := by
    decide +kernel
  rw [hs, Option.all_some, decide_eq_true_iff] at htest
  refine ⟨s, hs, ?_, htest.2.2, by decide⟩
  intro i
  cases i with
  | false => exact htest.1
  | true => exact htest.2.1

end Zoobar
