import Coursework.CacheSim.Prefetcher

/-!
# The confidence bits of the reference prediction table

`rpt_check` has one bit for each row, but the bit functions reduce an index by the number of
bytes, so 17 bits serve the 128 rows; and since `char` is signed, a bit in place 7 of its byte
reads as clear. What `checkBit` says of a row is therefore what the last miss did in any of the
rows that share its bit.
-/

namespace CacheSim

namespace BitArray

/-- The bit at a place. -/
def bit (bits : BitArray) (i : Nat) : Bool := (bits.getD (i / 8) 0).getLsbD (i % 8)

theorem selector_eq (addr : BitVec 32) (size : Nat) :
    selector addr size = BitVec.twoPow 8 (bitIndex addr size % 8) := by
  rw [selector, BitVec.twoPow]
  congr 1
  omega

/-- The sign bit of a `char` alone is negative, every other bit alone is positive. -/
theorem toInt_twoPow_pos :
    ∀ k < 8, decide (0 < (BitVec.twoPow 8 k).toInt) = decide (k ≠ 7) := by decide

theorem checkBit_eq (addr : BitVec 32) (bits : BitArray) (size : Nat) :
    checkBit addr bits size =
      (bits.bit (bitIndex addr size) && decide (bitIndex addr size % 8 ≠ 7)) := by
  rw [checkBit, selector_eq, BitVec.and_twoPow]
  change _ = ((bits.char addr size).getLsbD (bitIndex addr size % 8) && _)
  cases (bits.char addr size).getLsbD (bitIndex addr size % 8) with
  | true => simpa using toInt_twoPow_pos _ (Nat.mod_lt (bitIndex addr size) (by omega))
  | false => simp

@[simp] theorem length_markBit (addr : BitVec 32) (bits : BitArray) (size : Nat) :
    (markBit addr bits size).length = bits.length := List.length_set ..

@[simp] theorem length_unmarkBit (addr : BitVec 32) (bits : BitArray) (size : Nat) :
    (unmarkBit addr bits size).length = bits.length := List.length_set ..

/-- Two places in one byte are one place when they have the same bit. -/
theorem place_eq {i j : Nat} (h : i / 8 = j / 8) : i % 8 = j % 8 ↔ i = j := by omega

theorem bit_markBit {addr : BitVec 32} {bits : BitArray} {size : Nat}
    (h : bitIndex addr size / 8 < bits.length) (i : Nat) :
    (markBit addr bits size).bit i = (decide (i = bitIndex addr size) || bits.bit i) := by
  by_cases hi : i / 8 = bitIndex addr size / 8
  · have hget : (markBit addr bits size).getD (i / 8) 0 =
        bits.char addr size ||| selector addr size := by
      rw [markBit, hi, List.getD_eq_getElem?_getD, List.getElem?_set_self h, Option.getD_some]
    rw [bit, hget, selector_eq, BitVec.getLsbD_or, BitVec.getLsbD_twoPow, char, ← hi, Bool.or_comm,
      bit]
    congr 1
    have hlt : bitIndex addr size % 8 < 8 := Nat.mod_lt _ (by omega)
    simp only [hlt, decide_true, Bool.true_and, eq_comm, place_eq hi]
  · have hne : i ≠ bitIndex addr size := fun h => hi (by rw [h])
    simp [bit, markBit, List.getD_eq_getElem?_getD, List.getElem?_set_ne (Ne.symm hi), hne]

theorem bit_unmarkBit {addr : BitVec 32} {bits : BitArray} {size : Nat}
    (h : bitIndex addr size / 8 < bits.length) (i : Nat) :
    (unmarkBit addr bits size).bit i = (!decide (i = bitIndex addr size) && bits.bit i) := by
  by_cases hi : i / 8 = bitIndex addr size / 8
  · have hget : (unmarkBit addr bits size).getD (i / 8) 0 =
        bits.char addr size &&& ~~~ selector addr size := by
      rw [unmarkBit, hi, List.getD_eq_getElem?_getD, List.getElem?_set_self h, Option.getD_some]
    have hlt : i % 8 < 8 := Nat.mod_lt _ (by omega)
    have hlt' : bitIndex addr size % 8 < 8 := Nat.mod_lt _ (by omega)
    rw [bit, hget, selector_eq, BitVec.getLsbD_and, BitVec.getLsbD_not, BitVec.getLsbD_twoPow,
      char, ← hi, Bool.and_comm, bit]
    congr 1
    simp only [hlt, hlt', decide_true, Bool.true_and, eq_comm, place_eq hi]
  · have hne : i ≠ bitIndex addr size := fun h => hi (by rw [h])
    simp [bit, unmarkBit, List.getD_eq_getElem?_getD, List.getElem?_set_ne (Ne.symm hi), hne]

/-- Clearing bits in an array of zeros. -/
theorem foldl_unmarkBit_replicate (n size : Nat) (is : List Nat) :
    is.foldl (fun bits i => unmarkBit (BitVec.ofNat 32 i) bits size) (List.replicate n 0) =
      List.replicate n 0 := by
  induction is with
  | nil => rfl
  | cons i is ih =>
    have hchar : char (List.replicate n 0) (BitVec.ofNat 32 i) size = 0 := by
      simp [char, List.getElem?_replicate]
      split <;> rfl
    have hset : unmarkBit (BitVec.ofNat 32 i) (List.replicate n 0) size = List.replicate n 0 := by
      rw [unmarkBit, hchar]
      exact (congrArg _ BitVec.zero_and).trans List.set_replicate_self
    rw [List.foldl_cons, hset]
    exact ih

end BitArray

open BitArray

namespace RptPrefetcher

/-! ## The last misses -/

/-- The miss finds its pc in the row and repeats the stride of the row, which is worth using. -/
def repeatsStride (p : RptPrefetcher) (req : Request) : Bool :=
  (p.rptTable (rptRowNum req.pc)).pc == req.pc && p.sameStride req

/-- The row of a miss, and whether it repeats the stride there; nothing for the other calls. -/
def missOf (p : RptPrefetcher) : Call → Option (Nat × Bool)
  | .cpuRequest req => if req.hitL1 then none else some (rptRowNum req.pc, p.repeatsStride req)
  | .completeRequest _ => none

/-- The misses of a run, the last one first. -/
def misses (p : RptPrefetcher) : List Call → List (Nat × Bool)
  | [] => []
  | c :: calls => misses (p.call c) calls ++ (p.missOf c).toList

/-- The last miss in one of these rows repeated the stride. -/
def lastRepeats (rows : Nat → Bool) (ms : List (Nat × Bool)) : Bool :=
  match ms.find? fun m => rows m.1 with
  | some m => m.2
  | none => false

/-- The bit of a row in `rpt_check`, as the prefetcher reads it. -/
def confident (p : RptPrefetcher) (row : Nat) : Bool :=
  checkBit (BitVec.ofNat 32 row) p.rptCheck rptCheckSize

/-- The rows that share the bit of this one. -/
def sharesBit (row other : Nat) : Bool := other % rptCheckSize == row % rptCheckSize

/-- The row's bit is the sign of its `char`. -/
def onSignBit (row : Nat) : Bool := row % rptCheckSize % 8 == 7

theorem run_concat (p : RptPrefetcher) (calls : List Call) (c : Call) :
    p.run (calls ++ [c]) = (p.run calls).call c := by
  rw [run, List.foldl_append]
  rfl

theorem misses_concat (p : RptPrefetcher) (calls : List Call) (c : Call) :
    p.misses (calls ++ [c]) = ((p.run calls).missOf c).toList ++ p.misses calls := by
  induction calls generalizing p with
  | nil => simp [misses, run]
  | cons d calls ih =>
    rw [List.cons_append, misses, ih (p.call d), misses, List.append_assoc]
    rfl

@[simp] theorem lastRepeats_cons (rows : Nat → Bool) (m : Nat × Bool) (ms : List (Nat × Bool)) :
    lastRepeats rows (m :: ms) = if rows m.1 then m.2 else lastRepeats rows ms := by
  cases h : rows m.1 <;> simp [lastRepeats, h]

/-! ## What the bits say -/

theorem rptRowNum_lt (pc : BitVec 32) : rptRowNum pc < numRptEntries :=
  Nat.mod_lt _ (by decide)

theorem bitIndex_row {row : Nat} (h : row < numRptEntries) :
    bitIndex (BitVec.ofNat 32 row) rptCheckSize = row % rptCheckSize := by
  have hlt : row < 2 ^ 32 := Nat.lt_trans h (show 128 < 2 ^ 32 by decide)
  rw [bitIndex, BitVec.toNat_ofNat, Nat.mod_eq_of_lt hlt]

/-- The bits are what the last misses in the rows that share them did. -/
structure Tracks (p : RptPrefetcher) (ms : List (Nat × Bool)) : Prop where
  length : p.rptCheck.length = rptCheckSize
  bit : ∀ i, p.rptCheck.bit i = lastRepeats (fun row => row % rptCheckSize == i) ms

theorem miss_rptCheck (p : RptPrefetcher) (req : Request) :
    (p.miss req).rptCheck =
      if p.repeatsStride req then
        markBit (BitVec.ofNat 32 (rptRowNum req.pc)) p.rptCheck rptCheckSize
      else unmarkBit (BitVec.ofNat 32 (rptRowNum req.pc)) p.rptCheck rptCheckSize := by
  rw [repeatsStride]
  cases hpc : (p.rptTable (rptRowNum req.pc)).pc == req.pc with
  | false => simp [miss, hpc]
  | true => cases hsame : p.sameStride req <;> simp [miss, hpc, hsame]

/-- Only a miss changes the bits. -/
theorem cpuRequest_rptCheck (p : RptPrefetcher) (req : Request) :
    (p.cpuRequest req).rptCheck =
      if req.hitL1 then p.rptCheck else (p.miss req).rptCheck := by
  cases hhit : req.hitL1 with
  | false => simp [cpuRequest, hhit]
  | true =>
    cases htag : checkBit req.addr p.tags stateSize && !p.ready <;>
      simp [cpuRequest, hhit, htag, tagHit]

theorem completeRequest_rptCheck (p : RptPrefetcher) (cycle : BitVec 32) :
    (p.completeRequest cycle).rptCheck = p.rptCheck := by
  unfold completeRequest
  split <;> rfl

theorem new_rptCheck (nextReq : Request) (reqLeft : Int) :
    (new nextReq reqLeft).rptCheck = List.replicate rptCheckSize 0 := by
  rw [new]
  generalize numRptEntries = n
  exact foldl_unmarkBit_replicate _ _ _

theorem Tracks.new (nextReq : Request) (reqLeft : Int) : Tracks (new nextReq reqLeft) [] where
  length := by rw [new_rptCheck, List.length_replicate]
  bit i := by
    rw [new_rptCheck, BitArray.bit, List.getD_eq_getElem?_getD, List.getElem?_replicate]
    split <;> simp [lastRepeats]

theorem Tracks.miss {p : RptPrefetcher} {ms : List (Nat × Bool)} (h : Tracks p ms)
    (req : Request) :
    Tracks (p.miss req) ((rptRowNum req.pc, p.repeatsStride req) :: ms) := by
  have hindex := bitIndex_row (rptRowNum_lt req.pc)
  have hplace : bitIndex (BitVec.ofNat 32 (rptRowNum req.pc)) rptCheckSize / 8 <
      p.rptCheck.length := by
    have hlt := Nat.mod_lt (rptRowNum req.pc) (show 0 < rptCheckSize by decide)
    rw [hindex, h.length]
    omega
  constructor
  · rw [miss_rptCheck]
    split <;> simpa using h.length
  · intro i
    rw [miss_rptCheck, lastRepeats_cons, ← h.bit i]
    cases p.repeatsStride req with
    | true =>
      rw [if_pos rfl, bit_markBit hplace, hindex]
      by_cases hi : i = rptRowNum req.pc % rptCheckSize
      · simp [hi]
      · simp [hi, Ne.symm hi]
    | false =>
      rw [if_neg Bool.false_ne_true, bit_unmarkBit hplace, hindex]
      by_cases hi : i = rptRowNum req.pc % rptCheckSize
      · simp [hi]
      · simp [hi, Ne.symm hi]

theorem Tracks.congr {p q : RptPrefetcher} {ms : List (Nat × Bool)} (h : Tracks p ms)
    (hq : q.rptCheck = p.rptCheck) : Tracks q ms :=
  ⟨hq ▸ h.length, fun i => hq ▸ h.bit i⟩

theorem Tracks.call {p : RptPrefetcher} {ms : List (Nat × Bool)} (h : Tracks p ms) (c : Call) :
    Tracks (p.call c) ((p.missOf c).toList ++ ms) := by
  cases c with
  | completeRequest cycle => exact h.congr (completeRequest_rptCheck p cycle)
  | cpuRequest req =>
    cases hhit : req.hitL1 with
    | true =>
      have hsame : (p.cpuRequest req).rptCheck = p.rptCheck := by
        rw [cpuRequest_rptCheck, hhit, if_pos rfl]
      simpa [missOf, hhit] using h.congr (q := p.call (.cpuRequest req)) hsame
    | false =>
      have hmiss : (p.cpuRequest req).rptCheck = (p.miss req).rptCheck := by
        rw [cpuRequest_rptCheck, hhit, if_neg Bool.false_ne_true]
      simpa [missOf, hhit] using (h.miss req).congr (q := p.call (.cpuRequest req)) hmiss

theorem Tracks.run (nextReq : Request) (reqLeft : Int) (calls : List Call) :
    Tracks ((RptPrefetcher.new nextReq reqLeft).run calls)
      ((RptPrefetcher.new nextReq reqLeft).misses calls) := by
  induction calls using List.reverseRec with
  | nil => exact Tracks.new nextReq reqLeft
  | append_singleton calls c ih =>
    rw [run_concat, misses_concat]
    exact ih.call c

/-- A row reads as its bit, unless the bit is a sign. -/
theorem Tracks.confident {p : RptPrefetcher} {ms : List (Nat × Bool)} (h : Tracks p ms)
    {row : Nat} (hrow : row < numRptEntries) :
    p.confident row = (lastRepeats (sharesBit row) ms && !onSignBit row) := by
  rw [RptPrefetcher.confident, checkBit_eq, bitIndex_row hrow, h.bit, onSignBit]
  congr 1
  by_cases hsign : row % rptCheckSize % 8 = 7 <;> simp [hsign]

/-- No row that shares the bit of this one has the last word on it. -/
def Undisturbed (ms : List (Nat × Bool)) (row : Nat) : Prop :=
  if onSignBit row then lastRepeats (· == row) ms = false
  else lastRepeats (sharesBit row) ms = lastRepeats (· == row) ms

instance (ms : List (Nat × Bool)) (row : Nat) : Decidable (Undisturbed ms row) := by
  unfold Undisturbed
  infer_instance

/-- After every run the bit of a row reads as what the last miss in this row did exactly when
    the last miss in the rows that share the bit did the same, and a row on a sign bit reads as
    clear. A miss in another row changes it exactly when the row shares the bit, the bit is no
    sign, and the outcome is another one than that of the last miss on the bit. -/
theorem run_confident_iff (nextReq : Request) (reqLeft : Int) (calls : List Call) {row : Nat}
    (hrow : row < numRptEntries) :
    (((new nextReq reqLeft).run calls).confident row =
        lastRepeats (· == row) ((new nextReq reqLeft).misses calls) ↔
      Undisturbed ((new nextReq reqLeft).misses calls) row) ∧
    ∀ req : Request, req.hitL1 = false → rptRowNum req.pc ≠ row →
      ((((new nextReq reqLeft).run calls).cpuRequest req).confident row =
          ((new nextReq reqLeft).run calls).confident row ↔
        sharesBit row (rptRowNum req.pc) = false ∨ onSignBit row = true ∨
        ((new nextReq reqLeft).run calls).repeatsStride req =
          lastRepeats (sharesBit row) ((new nextReq reqLeft).misses calls)) := by
  have h := Tracks.run nextReq reqLeft calls
  constructor
  · rw [h.confident hrow, Undisturbed]
    cases onSignBit row with
    | true => simp
    | false => simp
  · intro req hmiss _
    have hnext := h.call (.cpuRequest req)
    have hconf := hnext.confident hrow
    simp only [missOf, hmiss, Bool.false_eq_true, if_false, Option.toList_some,
      List.singleton_append, lastRepeats_cons] at hconf
    change RptPrefetcher.confident (RptPrefetcher.cpuRequest _ req) row = _ at hconf
    rw [hconf, h.confident hrow]
    cases onSignBit row <;> cases sharesBit row (rptRowNum req.pc) <;> simp

/-- A miss of the load at `pc`. -/
def missAt (pc addr : BitVec 32) : Call := .cpuRequest ⟨addr, pc, true, true, 0, false, false⟩

/-- Three misses of one load, each 256 bytes after the one before. -/
def strided (pc : BitVec 32) : List Call := [missAt pc 0x1000, missAt pc 0x1100, missAt pc 0x1200]

/-- Row 17 has its bit with row 0; row 7 has a sign bit. -/
theorem run_confident_iff_strided :
    0 < numRptEntries ∧
    (((new Entry.zero.request 0).run (strided 17)).confident 0 =
        lastRepeats (· == 0) ((new Entry.zero.request 0).misses (strided 17)) ↔
      Undisturbed ((new Entry.zero.request 0).misses (strided 17)) 0) :=
  ⟨by decide, (run_confident_iff Entry.zero.request 0 (strided 17) (by decide)).1⟩

/-- The third miss of pc 17 makes row 0 read as strong, which had no miss; the third miss of
    pc 7 leaves its own row reading as weak. -/
theorem confident_shared :
    (((new Entry.zero.request 0).run (strided 17)).confident 0 = true ∧
      lastRepeats (· == 0) ((new Entry.zero.request 0).misses (strided 17)) = false) ∧
    (((new Entry.zero.request 0).run (strided 7)).confident 7 = false ∧
      lastRepeats (· == 7) ((new Entry.zero.request 0).misses (strided 7)) = true) := by
  decide +kernel

end RptPrefetcher

end CacheSim
