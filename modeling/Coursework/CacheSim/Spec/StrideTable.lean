import Coursework.CacheSim.Spec.PrefetchBursts

/-!
# What the rows of the reference prediction table record

A row is shared by all pcs that are equal modulo 128, and the three branches of a miss each write
another part of it. Together they record the last miss that mapped to the row, and its distance
to the one before when both came from the same pc: the branch that leaves the stride alone is
the one that found it equal.
-/

namespace CacheSim

open BitArray

/-- The row after a miss. -/
def RptRow.record (row : RptRow) (req : Request) : RptRow :=
  ⟨req.pc, req.addr, if row.pc = req.pc then req.addr - row.lastMem else 0⟩

namespace RptPrefetcher

/-- The request of a miss. -/
def Call.missed : Call → Option Request
  | .cpuRequest req => if req.hitL1 then none else some req
  | .completeRequest _ => none

/-- The misses that map to a row, the last one first. -/
def missesIn (row : Nat) (calls : List Call) : List Request :=
  ((calls.filterMap Call.missed).filter fun req => rptRowNum req.pc == row).reverse

/-- The row that a history of misses leaves, the last one first. -/
def rowOf : List Request → RptRow
  | [] => ⟨0, 0, 0⟩
  | [last] => ⟨last.pc, last.addr, 0⟩
  | last :: previous :: _ =>
    ⟨last.pc, last.addr, if last.pc = previous.pc then last.addr - previous.addr else 0⟩

/-! ## One call -/

/-- The three branches of a miss have one effect on its row. -/
theorem miss_record (p : RptPrefetcher) (req : Request) (row : Nat) :
    (p.miss req).rptTable row =
      if row = rptRowNum req.pc then (p.rptTable row).record req else p.rptTable row := by
  rw [miss_rptTable]
  by_cases hrow : row = rptRowNum req.pc
  · subst hrow
    rw [if_pos rfl, if_pos rfl, RptRow.record]
    congr 1
    by_cases hpc : (p.rptTable (rptRowNum req.pc)).pc = req.pc
    · have hstride : req.addr - (p.rptTable (rptRowNum req.pc)).lastMem = p.currStride req := rfl
      rw [if_pos hpc, hstride]
      split
      · -- the stride that is kept is the one of this miss
        rename_i hrepeats
        rw [repeatsStride, sameStride, Bool.and_eq_true, Bool.and_eq_true] at hrepeats
        exact (eq_of_beq hrepeats.2.1).symm
      · rw [if_pos (beq_iff_eq.mpr hpc)]
    · simp [repeatsStride, hpc]
  · rw [if_neg hrow, if_neg hrow]

theorem completeRequest_rptTable (p : RptPrefetcher) (cycle : BitVec 32) :
    (p.completeRequest cycle).rptTable = p.rptTable := by
  unfold completeRequest
  split <;> rfl

theorem call_rptTable (p : RptPrefetcher) (c : Call) (row : Nat) :
    (p.call c).rptTable row =
      match c.missed with
      | some req =>
        if row = rptRowNum req.pc then (p.rptTable row).record req else p.rptTable row
      | none => p.rptTable row := by
  cases c with
  | completeRequest cycle =>
    show (p.completeRequest cycle).rptTable row = p.rptTable row
    rw [completeRequest_rptTable]
  | cpuRequest req =>
    show (p.cpuRequest req).rptTable row = _
    rw [cpuRequest_rptTable]
    cases hhit : req.hitL1 with
    | true => simp [Call.missed, hhit]
    | false => simp [Call.missed, hhit, miss_record]

/-! ## Runs -/

/-- An empty row has pc 0, so that it counts as the row of another pc. -/
theorem rowOf_cons {req : Request} (hpc : req.pc ≠ 0) (ms : List Request) :
    rowOf (req :: ms) = (rowOf ms).record req := by
  match ms with
  | [] =>
    have hempty : 0#32 ≠ req.pc := fun h => hpc h.symm
    simp [rowOf, RptRow.record, hempty]
  | [previous] => simp [rowOf, RptRow.record, eq_comm]
  | previous :: _ :: _ => simp [rowOf, RptRow.record, eq_comm]

theorem missesIn_concat (row : Nat) (calls : List Call) (c : Call) :
    missesIn row (calls ++ [c]) =
      match c.missed with
      | some req => if row = rptRowNum req.pc then req :: missesIn row calls else missesIn row calls
      | none => missesIn row calls := by
  cases hmissed : c.missed with
  | none => simp [missesIn, hmissed]
  | some req =>
    by_cases hrow : row = rptRowNum req.pc
    · simp [missesIn, hmissed, hrow]
    · simp [missesIn, hmissed, hrow, Ne.symm hrow]

theorem new_rptTable (nextReq : Request) (reqLeft : Int) (row : Nat) :
    (new nextReq reqLeft).rptTable row = ⟨0, 0, 0⟩ := rfl

/-- After every run in which no request has pc 0, a row without a miss is zero, and every other
    row holds the pc and the address of the last miss that mapped to it, with the distance to the
    miss before if that one had the same pc, else 0. -/
theorem run_rptTable (nextReq : Request) (reqLeft : Int) (calls : List Call)
    (hpc : ∀ req, Call.cpuRequest req ∈ calls → req.pc ≠ 0) (row : Nat) :
    ((new nextReq reqLeft).run calls).rptTable row = rowOf (missesIn row calls) := by
  induction calls using List.reverseRec with
  | nil => exact new_rptTable nextReq reqLeft row
  | append_singleton calls c ih =>
    have hbefore := ih fun req hreq => hpc req (List.mem_append_left _ hreq)
    rw [run_concat, call_rptTable, missesIn_concat, hbefore]
    cases hmissed : c.missed with
    | none => rfl
    | some req =>
      -- only a CPU request misses, so the pc is one of those that are not 0
      have hreq : req.pc ≠ 0 := by
        apply hpc req
        cases c with
        | completeRequest cycle => simp [Call.missed] at hmissed
        | cpuRequest req' =>
          have heq : req' = req := by
            simp only [Call.missed] at hmissed
            split at hmissed
            · cases hmissed
            · exact Option.some.inj hmissed
          simp [heq]
      show (if row = rptRowNum req.pc then _ else _) =
        rowOf (if row = rptRowNum req.pc then _ else _)
      split
      · exact (rowOf_cons hreq _).symm
      · rfl

/-- Two misses of pc 4 and then one of pc 132, which shares row 4. -/
def sharedRow : List Call := [missAt 4 0x1000, missAt 4 0x1100, missAt 132 0x5000]

theorem run_rptTable_sharedRow :
    (∀ req, Call.cpuRequest req ∈ sharedRow → req.pc ≠ 0) ∧
      ((new Entry.zero.request 0).run sharedRow).rptTable 4 = ⟨132, 0x5000, 0⟩ := by
  have hpc : ∀ req, Call.cpuRequest req ∈ sharedRow → req.pc ≠ 0 := by
    intro req hreq
    simp only [sharedRow, missAt, List.mem_cons, Call.cpuRequest.injEq, List.not_mem_nil,
      or_false] at hreq
    rcases hreq with rfl | rfl | rfl <;> decide
  exact ⟨hpc, (run_rptTable _ 0 sharedRow hpc 4).trans (by decide)⟩

end RptPrefetcher

end CacheSim
