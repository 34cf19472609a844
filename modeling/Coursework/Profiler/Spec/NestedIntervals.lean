import Coursework.Profiler.StopwatchStack
import Mathlib.Data.List.DropRight

/-!
# Nested intervals

A properly nested sequence of calls is a session: an interval, which has a session inside, and then
the rest. In a session that is not deeper than the stack every pop measures its own interval; in a
deeper one the push that is dropped leaves its pop with the start of an interval further out.

## Key results

- `run_session`: what a session returns and files if the stack is deep enough
- `run_wrong`: a wrong result if it is not
- `session_measures_iff`: the maximum depth decides
-/

namespace Profiler

open StopwatchStack

variable {τ : Type} [DecidableEq τ]

/-- `withValue` if the interval uses `PushWithValue` and `PopWithValue`. -/
inductive Session (τ : Type) where
  | done
  | interval (withValue : Bool) (tag : Option τ) (inner rest : Session τ)
  deriving DecidableEq

namespace Session

/-- How many calls. -/
def length : Session τ → Nat
  | done => 0
  | interval _ _ inner rest => inner.length + 2 + rest.length

def depth : Session τ → Nat
  | done => 0
  | interval _ _ inner rest => max (inner.depth + 1) rest.depth

/-- How many pushes come before the first pop. -/
def lead : Session τ → Nat
  | done => 0
  | interval _ _ inner _ => inner.lead + 1

def pushCall (withValue : Bool) (tag : Option τ) (value : TickValue) : Call τ :=
  if withValue then .pushWithValue tag value else .push tag value

def popCall (withValue : Bool) (tag : Option τ) (value : TickValue) : Call τ :=
  if withValue then .popWithValue tag value else .pop value

/-- The calls, where `clock i` is the time of the call number `i`, and the first has number `k`. -/
def calls (clock : Nat → TickValue) : Session τ → Nat → List (Call τ)
  | done, _ => []
  | interval withValue tag inner rest, k =>
    pushCall withValue tag (clock k) :: (inner.calls clock (k + 1) ++
      popCall withValue tag (clock (k + inner.length + 1)) ::
        rest.calls clock (k + inner.length + 2))

/-- The tags and lengths of the intervals, in the order of their ends. -/
def results (clock : Nat → TickValue) : Session τ → Nat → List (Option τ × TickValue)
  | done, _ => []
  | interval _ tag inner rest, k =>
    inner.results clock (k + 1) ++ (tag, clock (k + inner.length + 1) - clock k) ::
      rest.results clock (k + inner.length + 2)

/-- The readings of the clock are different. -/
def Distinct (session : Session τ) (clock : Nat → TickValue) : Prop :=
  ∀ i j, i < j → j < session.length → clock i ≠ clock j

end Session

/-- The results for one tag. -/
def own (tag : τ) (results : List (Option τ × TickValue)) : List TickValue :=
  (results.filter fun result => result.1 = some tag).map (·.2)

/-- No assertion fails, every pop returns the length of its interval, and afterwards the history of
    a tag has its most recent results. -/
def Measures (maxDepth historySize : Nat) (session : Session τ) (clock : Nat → TickValue) : Prop :=
  ∃ values s, (new maxDepth historySize).run (session.calls clock 0) = some (values, s) ∧
    values = (session.results clock 0).map (·.2) ∧
    ∀ tag, s.getTagHistory tag = (own tag (session.results clock 0)).rtake historySize

variable {s s' : StopwatchStack τ} {session : Session τ} {clock : Nat → TickValue} {tag : τ}
  {k n maxDepth historySize : Nat} {values : List TickValue}

/-! ## The history of a tag -/

theorem rtake_append_of_rtake (l l' : List TickValue) (n : Nat) :
    (l.rtake n ++ l').rtake n = (l ++ l').rtake n := by
  simp only [List.rtake, List.length_append, List.length_drop, List.drop_append, List.drop_drop]
  congr 1 <;> congr 1 <;> omega

theorem tagHistory_store (hsize : s.tagHistorySize ≠ 0) (result : TickValue) :
    (s.storeResultWithTag result tag).tagHistory = Function.update s.tagHistory tag
      (some ((if (s.getTagHistory tag).length ≥ s.tagHistorySize then (s.getTagHistory tag).tail
        else s.getTagHistory tag) ++ [result])) := by
  rw [storeResultWithTag, if_neg hsize]
  rfl

theorem getTagHistory_store_ne {tag' : τ} (hne : tag' ≠ tag) (result : TickValue) :
    (s.storeResultWithTag result tag).getTagHistory tag' = s.getTagHistory tag' := by
  by_cases hsize : s.tagHistorySize = 0
  · rw [storeResultWithTag, if_pos hsize]
  · rw [getTagHistory, tagHistory_store hsize, Function.update_of_ne hne]
    rfl

/-- The oldest result is dropped when there are too many. -/
theorem getTagHistory_store (hlen : (s.getTagHistory tag).length ≤ s.tagHistorySize)
    (result : TickValue) :
    (s.storeResultWithTag result tag).getTagHistory tag =
      (s.getTagHistory tag ++ [result]).rtake s.tagHistorySize := by
  by_cases hsize : s.tagHistorySize = 0
  · rw [storeResultWithTag, if_pos hsize]
    rw [hsize] at hlen ⊢
    rw [List.rtake_zero]
    exact List.eq_nil_of_length_eq_zero (Nat.le_zero.1 hlen)
  · rw [getTagHistory, tagHistory_store hsize, Function.update_self, Option.getD_some, List.rtake,
      List.length_append, List.length_singleton]
    split
    · -- the history is full
      have hdrop : (s.getTagHistory tag).length + 1 - s.tagHistorySize = 1 := by omega
      rw [hdrop, ← List.drop_one, List.drop_append_of_le_length (by omega)]
    · -- there is room
      have hdrop : (s.getTagHistory tag).length + 1 - s.tagHistorySize = 0 := by omega
      rw [hdrop, List.drop_zero]

/-- Storing all results, those with a null tag nowhere. -/
def file (s : StopwatchStack τ) (results : List (Option τ × TickValue)) : StopwatchStack τ :=
  results.foldl (fun s result => match result.1 with
    | none => s
    | some tag => s.storeResultWithTag result.2 tag) s

@[simp] theorem store_maxDepth (result : TickValue) :
    (s.storeResultWithTag result tag).maxDepth = s.maxDepth := by
  unfold storeResultWithTag
  split <;> rfl

@[simp] theorem store_stack (result : TickValue) :
    (s.storeResultWithTag result tag).stack = s.stack := by
  unfold storeResultWithTag
  split <;> rfl

@[simp] theorem store_tagHistorySize (result : TickValue) :
    (s.storeResultWithTag result tag).tagHistorySize = s.tagHistorySize := by
  unfold storeResultWithTag
  split <;> rfl

theorem store_withStack (stack : List (StopwatchEntry τ)) (result : TickValue) :
    { s with stack := stack }.storeResultWithTag result tag =
      { s.storeResultWithTag result tag with stack := stack } := by
  unfold storeResultWithTag
  split <;> rfl

variable {results : List (Option τ × TickValue)}

@[simp] theorem file_maxDepth : (file s results).maxDepth = s.maxDepth := by
  induction results generalizing s with
  | nil => rfl
  | cons result results ih =>
    obtain ⟨_ | tag, delta⟩ := result
    · exact ih
    · exact ih.trans (store_maxDepth _)

@[simp] theorem file_stack : (file s results).stack = s.stack := by
  induction results generalizing s with
  | nil => rfl
  | cons result results ih =>
    obtain ⟨_ | tag, delta⟩ := result
    · exact ih
    · exact ih.trans (store_stack _)

theorem file_withStack (stack : List (StopwatchEntry τ)) :
    file { s with stack := stack } results = { file s results with stack := stack } := by
  induction results generalizing s with
  | nil => rfl
  | cons result results ih =>
    obtain ⟨_ | tag, delta⟩ := result
    · exact ih
    · show file ({ s with stack := stack }.storeResultWithTag delta tag) results = _
      rw [store_withStack]
      exact ih

theorem file_append (results' : List (Option τ × TickValue)) :
    file s (results ++ results') = file (file s results) results' := List.foldl_append

/-- Filing results adds the own ones of every tag. -/
theorem getTagHistory_file (hlen : (s.getTagHistory tag).length ≤ s.tagHistorySize) :
    (file s results).getTagHistory tag =
      (s.getTagHistory tag ++ own tag results).rtake s.tagHistorySize := by
  induction results generalizing s with
  | nil =>
    rw [own, List.filter_nil, List.map_nil, List.append_nil, List.rtake,
      Nat.sub_eq_zero_of_le hlen, List.drop_zero]
    rfl
  | cons result results ih =>
    obtain ⟨_ | tag', delta⟩ := result
    · -- a null tag
      exact ih hlen
    · show (file (s.storeResultWithTag delta tag') results).getTagHistory tag = _
      -- a result counts for its own tag only
      by_cases htag : tag' = tag
      · subst htag
        have hstore := getTagHistory_store hlen delta
        have hown : own tag' ((some tag', delta) :: results) = delta :: own tag' results := by
          rw [own, List.filter_cons, if_pos (decide_eq_true rfl)]
          rfl
        rw [ih, hstore, store_tagHistorySize, rtake_append_of_rtake, List.append_assoc, hown]
        · rfl
        · rw [hstore, store_tagHistorySize, List.rtake, List.length_drop]
          omega
      · have hown : own tag ((some tag', delta) :: results) = own tag results := by
          rw [own, List.filter_cons_of_neg (by simpa using htag)]
          rfl
        have hstore := getTagHistory_store_ne (s := s) (Ne.symm htag) delta
        rw [ih (by rwa [hstore, store_tagHistorySize]), hstore, store_tagHistorySize, hown]

/-! ## A stack that is deep enough -/

theorem run_append (calls calls' : List (Call τ)) :
    s.run (calls ++ calls') = (s.run calls).bind fun (results, s) =>
      (s.run calls').map fun (rest, s) => (results ++ rest, s) := by
  induction calls generalizing s with
  | nil =>
    show _ = Option.map _ _
    simp only [List.nil_append, Prod.mk.eta, Option.map_id']
  | cons c calls ih =>
    simp only [List.cons_append, StopwatchStack.run, ih, Option.map_bind, Option.bind_assoc,
      Option.bind_map, Option.map_map, Function.comp_def, List.append_assoc]

theorem call_push (s : StopwatchStack τ) (withValue : Bool) (tag : Option τ) (value : TickValue) :
    s.call (Session.pushCall withValue tag value) = some ([], s.pushWithValue tag value) := by
  cases withValue <;> rfl

/-- A pop with its own entry on top. -/
theorem call_pop {stack : List (StopwatchEntry τ)} (withValue : Bool) (tag : Option τ)
    (start value : TickValue) :
    { s with stack := ⟨start, tag⟩ :: stack }.call (Session.popCall withValue tag value) =
      some ([value - start], file { s with stack := stack } [(tag, value - start)]) := by
  cases withValue
  · rfl
  · show Option.map _ (if tag = tag then _ else none) = _
    rw [if_pos rfl]
    rfl

/-- Every pop measures its own interval. -/
theorem run_session (hdepth : s.stack.length + session.depth ≤ s.maxDepth) :
    s.run (session.calls clock k) = some ((session.results clock k).map (·.2),
      file s (session.results clock k)) := by
  induction session generalizing s k with
  | done => rfl
  | interval withValue tag inner rest ihInner ihRest =>
    have hdepth' : s.stack.length + max (inner.depth + 1) rest.depth ≤ s.maxDepth := hdepth
    have hpush : s.pushWithValue tag (clock k) =
        { s with stack := ⟨clock k, tag⟩ :: s.stack } := by
      rw [pushWithValue, if_neg (by omega)]
    have hinner := ihInner (s := { s with stack := ⟨clock k, tag⟩ :: s.stack }) (k := k + 1) (by
      show s.stack.length + 1 + inner.depth ≤ s.maxDepth
      omega)
    rw [Session.calls, StopwatchStack.run, call_push, Option.bind_some, hpush]
    simp only [run_append, hinner, Option.bind_some, StopwatchStack.run]
    -- the pop finds the entry of its push
    rw [file_withStack, call_pop, Option.bind_some]
    have hback : { file s (inner.results clock (k + 1)) with stack := s.stack } =
        file s (inner.results clock (k + 1)) := by
      rw [← file_withStack]
    simp only [hback, ← file_append]
    rw [ihRest (by
      rw [file_stack, file_maxDepth]
      omega)]
    simp only [Option.map_some, Session.results, List.map_append, List.map_cons, ← file_append,
      List.append_assoc, List.nil_append, List.cons_append]

/-! ## A stack that is not -/

/-- What a pop returns. -/
def popped (s : StopwatchStack τ) (value : TickValue) : TickValue :=
  match s.stack with
  | [] => 0
  | entry :: _ => value - entry.startTime

theorem call_pop_some {withValue : Bool} {tag : Option τ} {value : TickValue}
    (h : s.call (Session.popCall withValue tag value) = some (values, s')) :
    values = [popped s value] := by
  obtain ⟨maxDepth, stack, historySize, history⟩ := s
  cases withValue with
  | false =>
    cases stack with
    | nil =>
      cases h
      rfl
    | cons entry stack =>
      cases h
      rfl
  | true =>
    obtain ⟨⟨result, next⟩, hpop, heq⟩ := Option.map_eq_some_iff.1 h
    cases heq
    cases stack with
    | nil =>
      cases hpop
      rfl
    | cons entry stack =>
      -- the assertion has held
      have hfinish := (Option.ite_none_right_eq_some.1 hpop).2
      cases hfinish
      rfl

/-- The parts of a run over an interval. -/
theorem run_interval {withValue : Bool} {tag : Option τ} {inner rest : Session τ}
    (h : s.run ((Session.interval withValue tag inner rest).calls clock k) = some (values, s')) :
    ∃ (innerValues restValues : List TickValue) (s₁ s₂ : StopwatchStack τ),
      (s.pushWithValue tag (clock k)).run (inner.calls clock (k + 1)) = some (innerValues, s₁) ∧
      s₂.run (rest.calls clock (k + inner.length + 2)) = some (restValues, s') ∧
      values = innerValues ++ popped s₁ (clock (k + inner.length + 1)) :: restValues := by
  rw [Session.calls, StopwatchStack.run, call_push, Option.bind_some] at h
  obtain ⟨⟨values', s''⟩, hrun, heq⟩ := Option.map_eq_some_iff.1 h
  cases heq
  rw [run_append] at hrun
  -- the calls inside, the pop, the rest
  obtain ⟨⟨innerValues, s₁⟩, hinner, hrun⟩ := Option.bind_eq_some_iff.1 hrun
  obtain ⟨⟨tailValues, s₃⟩, htail, heq⟩ := Option.map_eq_some_iff.1 hrun
  cases heq
  obtain ⟨⟨popValues, s₂⟩, hpop, hrun⟩ := Option.bind_eq_some_iff.1 htail
  obtain ⟨⟨restValues, s₄⟩, hrest, heq⟩ := Option.map_eq_some_iff.1 hrun
  cases heq
  refine ⟨innerValues, restValues, s₁, s₂, hinner, hrest, ?_⟩
  rw [call_pop_some hpop]
  rfl

theorem run_length (h : s.run (session.calls clock k) = some (values, s')) :
    values.length = (session.results clock k).length := by
  induction session generalizing s s' k values with
  | done =>
    cases h
    rfl
  | interval withValue tag inner rest ihInner ihRest =>
    obtain ⟨innerValues, restValues, s₁, s₂, hinner, hrest, rfl⟩ := run_interval h
    rw [Session.results, List.length_append, List.length_append, List.length_cons,
      List.length_cons, ihInner hinner, ihRest hrest]

omit [DecidableEq τ] in
theorem Session.lead_lt (hne : session ≠ .done) :
    0 < session.lead ∧ session.lead < session.length := by
  induction session with
  | done => exact absurd rfl hne
  | interval withValue tag inner rest ihInner ihRest =>
    show 0 < inner.lead + 1 ∧ inner.lead + 1 < inner.length + 2 + rest.length
    cases inner with
    | done =>
      show 0 < 0 + 1 ∧ 0 + 1 < 0 + 2 + rest.length
      omega
    | interval withValue' tag' inner' rest' =>
      have hinner := ihInner nofun
      omega

omit [DecidableEq τ] in
/-- The first result is the time from the last of the leading pushes to the first pop. -/
theorem head_results (hne : session ≠ .done) :
    ((session.results clock k).map (·.2)).head? =
      some (clock (k + session.lead) - clock (k + session.lead - 1)) := by
  induction session generalizing k with
  | done => exact absurd rfl hne
  | interval withValue tag inner rest ihInner ihRest =>
    cases inner with
    -- the pop follows its push
    | done => rfl
    | interval withValue' tag' inner' rest' =>
      -- the first pop is inside
      have hinner := ihInner (k := k + 1) nofun
      rw [Session.results, List.map_append, List.head?_append, hinner, Option.some_or]
      have hlead : k + 1 + (Session.interval withValue' tag' inner' rest').lead =
          k + (Session.interval withValue tag (.interval withValue' tag' inner' rest') rest).lead :=
        Nat.add_right_comm k 1 _
      rw [hlead]

/-- In a full stack all leading pushes are dropped, so the first pop finds the entry on top. -/
theorem head_values (hfull : s.maxDepth ≤ s.stack.length) (hne : session ≠ .done)
    (h : s.run (session.calls clock k) = some (values, s')) :
    values.head? = some (popped s (clock (k + session.lead))) := by
  induction session generalizing s' k values with
  | done => exact absurd rfl hne
  | interval withValue tag inner rest ihInner ihRest =>
    obtain ⟨innerValues, restValues, s₁, s₂, hinner, -, rfl⟩ := run_interval h
    -- this push is dropped as well
    rw [pushWithValue, if_pos hfull] at hinner
    cases inner with
    | done =>
      cases hinner
      rfl
    | interval withValue' tag' inner' rest' =>
      have hhead := ihInner nofun hinner
      rw [List.head?_append, hhead, Option.some_or]
      have hlead : k + 1 + (Session.interval withValue' tag' inner' rest').lead =
          k + (Session.interval withValue tag (.interval withValue' tag' inner' rest') rest).lead :=
        Nat.add_right_comm k 1 _
      rw [hlead]

omit [DecidableEq τ] in
theorem calls_split (withValue : Bool) (tag : Option τ) (inner rest : Session τ) :
    (Session.interval withValue tag inner rest).calls clock k =
      (Session.interval withValue tag inner .done).calls clock k ++
        rest.calls clock (k + inner.length + 2) := by
  simp only [Session.calls, List.cons_append, List.append_assoc, List.nil_append]

omit [DecidableEq τ] in
theorem results_split (withValue : Bool) (tag : Option τ) (inner rest : Session τ) :
    (Session.interval withValue tag inner rest).results clock k =
      (Session.interval withValue tag inner .done).results clock k ++
        rest.results clock (k + inner.length + 2) := by
  simp only [Session.results, List.cons_append, List.append_assoc, List.nil_append]

/-- In a session that is too deep some push is dropped, and if its time is that of no other call, a
    result is wrong. -/
theorem run_wrong (hn : n ≤ maxDepth) (hdeep : maxDepth < n + session.depth) :
    ∃ j, k ≤ j ∧ j < k + session.length ∧
      ∀ (clock : Nat → TickValue) (s s' : StopwatchStack τ) (values : List TickValue),
      s.maxDepth = maxDepth → s.stack.length = n →
      (∀ entry ∈ s.stack, ∃ i < k, entry.startTime = clock i) →
      (∀ i < k + session.length, i ≠ j → clock i ≠ clock j) →
      s.run (session.calls clock k) = some (values, s') →
      values ≠ (session.results clock k).map (·.2) := by
  induction session generalizing n k with
  | done => exact absurd hdeep (Nat.not_lt_of_le hn)
  | interval withValue tag inner rest ihInner ihRest =>
    have hdeep' : maxDepth < n + max (inner.depth + 1) rest.depth := hdeep
    have hlength : (Session.interval withValue tag inner rest).length =
      inner.length + 2 + rest.length := rfl
    by_cases hfull : n = maxDepth
    · -- this push is dropped, and so are those right after it
      have hne : Session.interval withValue tag inner rest ≠ .done := by
        intro h
        cases h
      obtain ⟨hpos, hlt⟩ := Session.lead_lt hne
      generalize hlead : (Session.interval withValue tag inner rest).lead = m at hpos hlt
      refine ⟨k + m - 1, by omega, by omega, ?_⟩
      intro clock s s' values hmax hlen hstack hclock hrun heq
      have hfull' : s.maxDepth ≤ s.stack.length := by omega
      have hhead := head_values hfull' hne hrun
      rw [heq, head_results hne, hlead, Option.some_inj, popped] at hhead
      split at hhead
      · have hsame : clock (k + m) = clock (k + m - 1) :=
          (BitVec.sub_eq_iff_eq_add.1 hhead).trans (BitVec.zero_add _)
        exact hclock (k + m) (by omega) (by omega) hsame
      · obtain ⟨i, hi, hstart⟩ := hstack _ (by rename_i h; rw [h]; exact List.mem_cons_self)
        rw [hstart] at hhead
        have hsame : clock i = clock (k + m - 1) := (BitVec.sub_right_inj _).1 hhead.symm
        exact hclock i (by omega) (by omega) hsame
    · by_cases hinner : maxDepth < n + 1 + inner.depth
      · -- something is dropped inside
        obtain ⟨j, hkj, hj, hwrong⟩ := ihInner (n := n + 1) (k := k + 1) (by omega) hinner
        refine ⟨j, by omega, by omega, ?_⟩
        intro clock s s' values hmax hlen hstack hclock hrun heq
        obtain ⟨innerValues, restValues, s₁, s₂, hrunInner, -, rfl⟩ := run_interval hrun
        rw [pushWithValue, if_neg (by omega)] at hrunInner
        have hstack' : ∀ entry ∈ (⟨clock k, tag⟩ : StopwatchEntry τ) :: s.stack,
            ∃ i < k + 1, entry.startTime = clock i := by
          intro entry hentry
          cases hentry with
          | head => exact ⟨k, Nat.lt_succ_self k, rfl⟩
          | tail _ hmem =>
            obtain ⟨i, hi, hstart⟩ := hstack entry hmem
            exact ⟨i, Nat.lt_succ_of_lt hi, hstart⟩
        apply hwrong clock { s with stack := ⟨clock k, tag⟩ :: s.stack } s₁ innerValues hmax
          (congrArg (· + 1) hlen) hstack' (fun i hi => hclock i (by omega)) hrunInner
        -- equal lists have equal beginnings of the same length
        rw [Session.results, List.map_append] at heq
        exact (List.append_inj heq (by rw [run_length hrunInner, List.length_map])).1
      · obtain ⟨j, hkj, hj, hwrong⟩ := ihRest (n := n) (k := k + inner.length + 2) hn (by omega)
        refine ⟨j, by omega, by omega, ?_⟩
        intro clock s s' values hmax hlen hstack hclock hrun heq
        have hshallow : s.stack.length + (Session.interval withValue tag inner .done).depth ≤
            s.maxDepth := by
          show s.stack.length + max (inner.depth + 1) 0 ≤ s.maxDepth
          omega
        have hfirst : s.run ((Session.interval withValue tag inner .done).calls clock k) = _ :=
          run_session hshallow
        rw [calls_split withValue tag inner rest, run_append, hfirst, Option.bind_some] at hrun
        obtain ⟨⟨restValues, s₁⟩, hrest, hsplit⟩ := Option.map_eq_some_iff.1 hrun
        cases hsplit
        apply hwrong clock _ s' restValues (file_maxDepth.trans hmax)
          ((congrArg List.length file_stack).trans hlen) _ (fun i hi => hclock i (by omega)) hrest
        · rw [results_split withValue tag inner rest, List.map_append] at heq
          exact List.append_cancel_left heq
        · intro entry hentry
          rw [file_stack] at hentry
          obtain ⟨i, hi, hstart⟩ := hstack entry hentry
          exact ⟨i, by omega, hstart⟩

/-! ## Which sessions are measured -/

theorem measures_of_depth (hdepth : session.depth ≤ maxDepth)
    (clock : Nat → TickValue) : Measures maxDepth historySize session clock := by
  refine ⟨_, _, run_session (by rwa [new, List.length_nil, Nat.zero_add]), rfl, ?_⟩
  intro tag
  exact getTagHistory_file (Nat.zero_le _)

theorem not_measures (hdeep : maxDepth < session.depth) :
    ∃ j < session.length, ∀ clock : Nat → TickValue,
      (∀ i < session.length, i ≠ j → clock i ≠ clock j) →
      ¬ Measures maxDepth historySize session clock := by
  obtain ⟨j, -, hj, hwrong⟩ := run_wrong (n := 0) (k := 0) (Nat.zero_le maxDepth)
    (by rwa [Nat.zero_add])
  refine ⟨j, by rwa [Nat.zero_add] at hj, ?_⟩
  intro clock hclock ⟨values, s, hrun, heq, _⟩
  apply hwrong clock _ s values rfl rfl _ (by rwa [Nat.zero_add]) hrun heq
  intro entry hentry
  cases hentry

/-- Whether a session is measured at all times depends on its depth only, and so it does for one
    whose times are all different. -/
theorem session_measures_iff (maxDepth historySize : Nat) (session : Session τ) :
    ((∀ clock, Measures maxDepth historySize session clock) ↔ session.depth ≤ maxDepth) ∧
    ∀ clock, session.Distinct clock →
      (Measures maxDepth historySize session clock ↔ session.depth ≤ maxDepth) := by
  apply And.intro
  · apply Iff.intro _ measures_of_depth
    intro hall
    apply Nat.le_of_not_lt
    intro hdeep
    obtain ⟨j, hj, hwrong⟩ := not_measures hdeep
    -- a clock that shows another time at that call only
    apply hwrong (fun i => if i = j then 1 else 0) _ (hall _)
    intro i _ hne
    rw [if_neg hne, if_pos rfl]
    decide
  · intro clock hdistinct
    apply Iff.intro _ fun hdepth => measures_of_depth hdepth clock
    intro hmeasures
    apply Nat.le_of_not_lt
    intro hdeep
    obtain ⟨j, hj, hwrong⟩ := not_measures hdeep
    apply hwrong clock _ hmeasures
    intro i hi hne
    cases Nat.lt_or_gt_of_ne hne with
    | inl hlt => exact hdistinct i j hlt hj
    | inr hlt => exact (hdistinct j i hlt hi).symm

/-- Two nested intervals with different tags, on a stack for one. -/
theorem not_measures_nested : ¬ Measures 1 1
    (.interval true (some true) (.interval true (some false) .done .done) .done)
    (BitVec.ofNat 64) := by
  intro ⟨values, s, hrun, _⟩
  cases hrun

end Profiler
