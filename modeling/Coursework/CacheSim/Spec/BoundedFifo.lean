import Coursework.CacheSim.Spec.MemQueue

/-!
# `memQueue` is a bounded FIFO

The abstract queue is the list of all requests that were ever appended, with the number of those
that were removed; `front`, `rear` and the wrap-around are gone. `memQueue` refines it, and what
holds of the abstract queue over all runs (order, no loss of a CPU request, one prefetch for each
block, the order of the ready times) holds of `memQueue`.

## Key results

- `Refines.add`, `Refines.remove`: the circular array does what the abstract queue does
- `Fifo.Merged.add`: of two entries for one block the older one is from the CPU
- `run_boundedFifo`: the law over all runs
-/

namespace CacheSim

/-- The entry is for the block with this tag and index. -/
def Entry.isFor (tag index : BitVec 32) (e : Entry) : Bool := e.tag == tag && e.index == index

/-- All requests that were appended, in this order and as they are now, and how many of them
    were removed. -/
structure Fifo where
  capacity : Nat
  latency : BitVec 32
  pipelined : Bool
  appended : List Entry
  removed : Nat

namespace Fifo

def new (capacity : Nat) (latency : BitVec 32) (pipelined : Bool) : Fifo :=
  ⟨capacity, latency, pipelined, [], 0⟩

/-- The appended and not yet removed requests. -/
def pending (f : Fifo) : List Entry := f.appended.drop f.removed

/-- The cycle at which a request that is added now will be ready, before it is cut to 32 bits. -/
def sumAt (f : Fifo) (cycle : BitVec 32) : Nat :=
  if f.pipelined then cycle.toNat + f.latency.toNat
  else
    match f.pending.getLast? with
    | none => cycle.toNat + f.latency.toNat
    | some last => f.latency.toNat + last.readyTime.toNat

def append (f : Fifo) (e : Entry) : Fifo := { f with appended := f.appended ++ [e] }

/-- A duplicate is replaced at its place, and keeps its ready time. -/
def replace (f : Fifo) (k : Nat) (req : Request) : Fifo :=
  { f with
    appended := f.appended.set (f.removed + k) { f.pending.getD k .zero with request := req } }

/-- The entry that a request gets at the rear. -/
def entryFor (f : Fifo) (source : Cache) (req : Request) (cycle : BitVec 32) : Entry :=
  ⟨req, BitVec.ofNat 32 (f.sumAt cycle), source.getTag req.addr, source.getIndex req.addr⟩

/-- The place of the last request for the block of the address. -/
def lastFor (f : Fifo) (source : Cache) (addr : BitVec 32) : Option Nat :=
  f.pending.findLastIdx? (Entry.isFor (source.getTag addr) (source.getIndex addr))

/-- The last request for the block decides between appending, replacing and ignoring. -/
def add (f : Fifo) (source : Cache) (req : Request) (cycle : BitVec 32) : Bool × Fifo :=
  if f.pending.length = f.capacity then (false, f)
  else
    match f.lastFor source req.addr with
    | none => (true, f.append (f.entryFor source req cycle))
    | some k =>
      if (f.pending.getD k .zero).request.fromCPU then
        (true, f.append (f.entryFor source req cycle))
      else if req.fromCPU then (true, f.replace k req)
      else (true, f)

def remove (f : Fifo) : Bool × Fifo :=
  if f.pending = [] then (false, f) else (true, { f with removed := f.removed + 1 })

end Fifo

/-! ## The circular array refines the abstract queue -/

namespace MemQueue

variable {q : MemQueue} {f : Fifo} {source : Cache}

/-- The cycle at which a request that is added now will be ready, before it is cut to 32 bits. -/
def sumAt (q : MemQueue) (cycle : BitVec 32) : Nat :=
  if q.pipelined || q.ring.size == 0 then cycle.toNat + q.latency.toNat
  else q.latency.toNat + (q.ring.slots (q.ring.retreat q.ring.rear)).readyTime.toNat

theorem readyAt_eq (q : MemQueue) (cycle : BitVec 32) :
    q.readyAt cycle = BitVec.ofNat 32 (q.sumAt cycle) := by
  unfold readyAt sumAt
  split <;> simp [BitVec.ofNat_add]

structure Refines (q : MemQueue) (f : Fifo) : Prop where
  wf : q.ring.WF
  capacity : q.ring.capacity = f.capacity
  latency : q.latency = f.latency
  pipelined : q.pipelined = f.pipelined
  contents : q.contents = f.pending
  removed : f.removed ≤ f.appended.length

theorem Refines.new {capacity : Nat} (hcapacity : 1 ≤ capacity) (latency : BitVec 32)
    (pipelined write : Bool) :
    Refines (new capacity latency pipelined write) (Fifo.new capacity latency pipelined) where
  wf := ⟨hcapacity, (Nat.zero_mod _).symm, Nat.zero_le _⟩
  capacity := rfl
  latency := rfl
  pipelined := rfl
  contents := rfl
  removed := Nat.le_refl 0

theorem Refines.size (h : Refines q f) : f.pending.length = q.ring.size := by
  rw [← h.contents, MemQueue.contents, RingBuffer.length_contents]

/-- The entry before `rear` is the last one. -/
theorem Refines.sumAt (h : Refines q f) (cycle : BitVec 32) : q.sumAt cycle = f.sumAt cycle := by
  rw [MemQueue.sumAt, Fifo.sumAt, h.pipelined, h.latency]
  cases f.pipelined with
  | true => rfl
  | false =>
    by_cases hempty : q.ring.size = 0
    · have hnil : f.pending = [] := List.length_eq_zero_iff.mp (h.size.trans hempty)
      simp [hempty, hnil]
    · have hle := h.wf.size_le
      have hlast := RingBuffer.getLast?_contents (r := q.ring) (by omega)
      have hrear : q.ring.retreat q.ring.rear = q.ring.place (q.ring.size - 1) := by
        have hretreat := RingBuffer.retreat_place h.wf (k := q.ring.size - 1) (by omega)
        rwa [Nat.sub_add_cancel (by omega), ← RingBuffer.rear_eq_place h.wf] at hretreat
      have hcontents : q.ring.contents = f.pending := h.contents
      rw [← hcontents, hlast]
      simp [hempty, hrear]

theorem Refines.append (h : Refines q f) (hroom : q.ring.size < q.ring.capacity) (e : Entry) :
    Refines { q with ring := q.ring.push e } (f.append e) where
  wf := h.wf.push hroom e
  capacity := h.capacity
  latency := h.latency
  pipelined := h.pipelined
  contents := by
    have hcontents : q.ring.contents = f.pending := h.contents
    show (q.ring.push e).contents = (f.appended ++ [e]).drop f.removed
    rw [RingBuffer.contents_push h.wf hroom, hcontents, List.drop_append_of_le_length h.removed]
    rfl
  removed := by
    show f.removed ≤ (f.appended ++ [e]).length
    rw [List.length_append]
    exact Nat.le_add_right_of_le h.removed

theorem Refines.replace (h : Refines q f) {k : Nat} (hk : k < q.ring.size) (req : Request) :
    Refines (q.overwrite (q.ring.place k) req) (f.replace k req) where
  wf := h.wf.set _ _
  capacity := h.capacity
  latency := h.latency
  pipelined := h.pipelined
  contents := by
    have hcontents : q.ring.contents = f.pending := h.contents
    have hdup : f.pending.getD k .zero = q.ring.slots (q.ring.place k) := by
      rw [List.getD_eq_getElem?_getD, ← hcontents, RingBuffer.getElem?_contents hk,
        Option.getD_some]
    show (q.ring.set (q.ring.place k) _).contents =
      (f.appended.set (f.removed + k) _).drop f.removed
    rw [RingBuffer.contents_set h.wf hk, hcontents, List.drop_set, if_neg (by omega),
      Nat.add_sub_cancel_left, hdup]
    rfl
  removed := by
    show f.removed ≤ (f.appended.set _ _).length
    rw [List.length_set]
    exact h.removed

theorem Refines.findDup (h : Refines q f) (hroom : q.ring.size < q.ring.capacity)
    (source : Cache) (addr : BitVec 32) :
    q.findDup (source.getTag addr) (source.getIndex addr) =
      (f.lastFor source addr).map q.ring.place := by
  rw [MemQueue.findDup, RingBuffer.findLast_eq h.wf hroom, Fifo.lastFor, ← h.contents]
  rfl

theorem Refines.add (h : Refines q f) (source : Cache) (req : Request) (cycle : BitVec 32) :
    (q.add source req cycle).1 = (f.add source req cycle).1 ∧
      Refines (q.add source req cycle).2 (f.add source req cycle).2 := by
  have hle := h.wf.size_le
  rw [MemQueue.add, Fifo.add, h.size, ← h.capacity]
  by_cases hfull : q.ring.size = q.ring.capacity
  · rw [if_pos hfull, if_pos hfull]
    exact ⟨rfl, h⟩
  · have hroom : q.ring.size < q.ring.capacity := by omega
    have happend : Refines
        (q.enqueue req (source.getTag req.addr) (source.getIndex req.addr) cycle)
        (f.append (f.entryFor source req cycle)) := by
      rw [enqueue, readyAt_eq, h.sumAt]
      exact h.append hroom _
    rw [if_neg hfull, if_neg hfull]
    simp only [h.findDup hroom]
    cases hdup : f.lastFor source req.addr with
    | none => exact ⟨rfl, happend⟩
    | some k =>
      obtain ⟨⟨e, he, -⟩, -⟩ := List.findLastIdx?_eq_some hdup
      have hk : k < q.ring.size := by
        rw [← h.size]
        exact (List.getElem?_eq_some_iff.mp he).1
      -- the duplicate in the array is the one in the list
      have hslot : q.ring.slots (q.ring.place k) = f.pending.getD k .zero := by
        have hget := RingBuffer.getElem?_contents hk
        have hcontents : q.ring.contents = f.pending := h.contents
        rw [List.getD_eq_getElem?_getD, ← hcontents, hget, Option.getD_some]
      simp only [Option.map_some, hslot]
      split
      · exact ⟨rfl, happend⟩
      · split
        · refine ⟨rfl, ?_⟩
          rw [← hslot]
          exact h.replace hk req
        · exact ⟨rfl, h⟩

theorem Refines.remove (h : Refines q f) :
    q.remove.1 = f.remove.1 ∧ Refines q.remove.2 f.remove.2 := by
  by_cases hempty : q.ring.size = 0
  · have hnil : f.pending = [] := List.length_eq_zero_iff.mp (h.size.trans hempty)
    rw [MemQueue.remove, Fifo.remove, if_pos hempty, if_pos hnil]
    exact ⟨rfl, h⟩
  · have hpos : 0 < q.ring.size := by omega
    have hne : f.pending ≠ [] := by
      intro hnil
      exact hempty (h.size.symm.trans (congrArg List.length hnil))
    have hcontents := contents_remove h.wf hpos
    rw [h.contents] at hcontents
    rw [MemQueue.remove, if_neg hempty] at hcontents ⊢
    rw [Fifo.remove, if_neg hne]
    have hlt : f.removed < f.appended.length := by
      have hsize := h.size
      rw [Fifo.pending, List.length_drop] at hsize
      omega
    refine ⟨rfl, h.wf.pop hpos, h.capacity, h.latency, h.pipelined, ?_, hlt⟩
    -- the front of the array is the head of the list
    have hdrop : f.appended.drop (f.removed + 1) = f.pending.tail := by
      rw [Fifo.pending, List.tail_drop]
    show MemQueue.contents _ = f.appended.drop (f.removed + 1)
    rw [hdrop, hcontents, List.tail_cons]

/-! ## Runs -/

/-- A call of a method that changes the queue. -/
inductive Call where
  | add (req : Request) (cycle : BitVec 32)
  | remove

def call (source : Cache) (q : MemQueue) : Call → MemQueue
  | .add req cycle => (q.add source req cycle).2
  | .remove => q.remove.2

def run (source : Cache) (q : MemQueue) (calls : List Call) : MemQueue :=
  calls.foldl (call source) q

/-- How many calls of `remove` return true. -/
def removals (source : Cache) (q : MemQueue) : List Call → Nat
  | [] => 0
  | .add req cycle :: calls => removals source (q.add source req cycle).2 calls
  | .remove :: calls => q.remove.1.toNat + removals source q.remove.2 calls

end MemQueue

namespace Fifo

def call (source : Cache) (f : Fifo) : MemQueue.Call → Fifo
  | .add req cycle => (f.add source req cycle).2
  | .remove => f.remove.2

def run (source : Cache) (f : Fifo) (calls : List MemQueue.Call) : Fifo :=
  calls.foldl (call source) f

/-! ## What `add` does -/

variable {f : Fifo} {source : Cache} {req : Request} {cycle : BitVec 32}

/-- Everything that `add` can do. -/
theorem add_cases (f : Fifo) (source : Cache) (req : Request) (cycle : BitVec 32) :
    (f.pending.length = f.capacity ∧ f.add source req cycle = (false, f)) ∨
    (f.pending.length ≠ f.capacity ∧
      (∀ k d, f.lastFor source req.addr = some k → f.pending[k]? = some d →
        d.request.fromCPU = true) ∧
      f.add source req cycle = (true, f.append (f.entryFor source req cycle))) ∨
    (f.pending.length ≠ f.capacity ∧ req.fromCPU = true ∧
      ∃ k d, f.lastFor source req.addr = some k ∧ f.pending[k]? = some d ∧
        d.request.fromCPU = false ∧ f.add source req cycle = (true, f.replace k req)) ∨
    (f.pending.length ≠ f.capacity ∧ req.fromCPU = false ∧
      f.add source req cycle = (true, f)) := by
  rw [add]
  by_cases hfull : f.pending.length = f.capacity
  · exact Or.inl ⟨hfull, if_pos hfull⟩
  · rw [if_neg hfull]
    right
    cases hlast : f.lastFor source req.addr with
    -- no entry is for the line of the request
    | none => exact Or.inl ⟨hfull, fun k d hk => by simp at hk, rfl⟩
    | some k =>
      obtain ⟨⟨d, hd, -⟩, -⟩ := List.findLastIdx?_eq_some hlast
      have hdup : f.pending.getD k .zero = d := by
        rw [List.getD_eq_getElem?_getD, hd, Option.getD_some]
      simp only [hdup]
      cases hcpu : d.request.fromCPU with
      | true =>
        -- there is one, which a CPU request does not give up
        refine Or.inl ⟨hfull, fun k' d' hk' hd' => ?_, rfl⟩
        obtain rfl := Option.some.inj hk'
        rw [hd, Option.some.injEq] at hd'
        rw [← hd', hcpu]
      | false =>
        right
        -- there is a prefetch, which only gives way to a CPU request
        cases req.fromCPU with
        | true => exact Or.inl ⟨hfull, rfl, k, d, rfl, hd, hcpu, rfl⟩
        | false => exact Or.inr ⟨hfull, rfl, rfl⟩

theorem pending_append (h : f.removed ≤ f.appended.length) (e : Entry) :
    (f.append e).pending = f.pending ++ [e] := List.drop_append_of_le_length h

theorem pending_replace (f : Fifo) (k : Nat) (req : Request) :
    (f.replace k req).pending =
      f.pending.set k { f.pending.getD k .zero with request := req } := by
  show (f.appended.set (f.removed + k) _).drop f.removed = _
  rw [List.drop_set, if_neg (by omega), Nat.add_sub_cancel_left]
  rfl

theorem pending_remove (f : Fifo) : f.remove.2.pending = f.pending.tail := by
  rw [remove]
  by_cases hnil : f.pending = []
  · rw [if_pos hnil]
    show f.pending = f.pending.tail
    rw [hnil]
    rfl
  · rw [if_neg hnil]
    exact List.tail_drop.symm

/-! ## Of two requests for one block the older one is from the CPU -/

structure Merged (source : Cache) (f : Fifo) : Prop where
  removed : f.removed ≤ f.appended.length
  keyed : ∀ e ∈ f.pending,
    e.tag = source.getTag e.request.addr ∧ e.index = source.getIndex e.request.addr
  older : ∀ (i j : Nat) (a b : Entry), i < j → f.pending[i]? = some a → f.pending[j]? = some b →
    b.isFor a.tag a.index = true → a.request.fromCPU = true

theorem isFor_iff {tag index : BitVec 32} {e : Entry} :
    e.isFor tag index = true ↔ e.tag = tag ∧ e.index = index := by
  rw [Entry.isFor, Bool.and_eq_true, beq_iff_eq, beq_iff_eq]

/-- If the last request for a block is from the CPU, all requests for it are. -/
theorem Merged.fromCPU (h : Merged source f)
    (hlast : ∀ k d, f.lastFor source req.addr = some k → f.pending[k]? = some d →
      d.request.fromCPU = true)
    {a : Entry} (ha : a ∈ f.pending) (htag : a.tag = source.getTag req.addr)
    (hindex : a.index = source.getIndex req.addr) : a.request.fromCPU = true := by
  obtain ⟨i, hi⟩ := List.getElem?_of_mem ha
  have hfor : a.isFor (source.getTag req.addr) (source.getIndex req.addr) = true :=
    isFor_iff.mpr ⟨htag, hindex⟩
  cases hk : f.lastFor source req.addr with
  | none => exact absurd hfor (by simp [List.findLastIdx?_eq_none hk a ha])
  | some k =>
    obtain ⟨⟨d, hd, hdfor⟩, hlater⟩ := List.findLastIdx?_eq_some hk
    have hdcpu := hlast k d hk hd
    by_cases hik : i < k
    · apply h.older i k a d hik hi hd
      rw [htag, hindex]
      exact hdfor
    · by_cases hki : k < i
      · exact absurd hfor (by simp [hlater i a hki hi])
      · obtain rfl : i = k := by omega
        rw [hi, Option.some.injEq] at hd
        rw [hd]
        exact hdcpu

theorem Merged.append (h : Merged source f)
    (hlast : ∀ k d, f.lastFor source req.addr = some k → f.pending[k]? = some d →
      d.request.fromCPU = true) :
    Merged source (f.append (f.entryFor source req cycle)) where
  removed := by
    show f.removed ≤ (f.appended ++ _).length
    rw [List.length_append]
    exact Nat.le_add_right_of_le h.removed
  keyed e he := by
    rw [pending_append h.removed, List.mem_append, List.mem_singleton] at he
    cases he with
    | inl hold => exact h.keyed e hold
    | inr hnew => rw [hnew]; exact ⟨rfl, rfl⟩
  older i j a b hij ha hb hfor := by
    rw [pending_append h.removed] at ha hb
    by_cases hj : j < f.pending.length
    · rw [List.getElem?_append_left hj] at hb
      rw [List.getElem?_append_left (by omega)] at ha
      exact h.older i j a b hij ha hb hfor
    · -- the younger one is the new request
      have hjlen := (List.getElem?_eq_some_iff.mp hb).1
      rw [List.length_append, List.length_singleton] at hjlen
      obtain rfl : j = f.pending.length := by omega
      rw [List.getElem?_concat_length, Option.some.injEq] at hb
      rw [List.getElem?_append_left hij] at ha
      rw [← hb] at hfor
      obtain ⟨htag, hindex⟩ := isFor_iff.mp hfor
      exact h.fromCPU hlast (List.mem_of_getElem? ha) htag.symm hindex.symm

theorem Merged.replace (h : Merged source f) (hcpu : req.fromCPU = true) {k : Nat} {d : Entry}
    (hk : f.lastFor source req.addr = some k) (hd : f.pending[k]? = some d) :
    Merged source (f.replace k req) := by
  have hdup : f.pending.getD k .zero = d := by
    rw [List.getD_eq_getElem?_getD, hd, Option.getD_some]
  have hpending : (f.replace k req).pending = f.pending.set k { d with request := req } := by
    rw [pending_replace, hdup]
  obtain ⟨⟨d', hd', hfor⟩, -⟩ := List.findLastIdx?_eq_some hk
  obtain rfl : d = d' := Option.some.inj (hd.symm.trans hd')
  obtain ⟨htag, hindex⟩ := isFor_iff.mp hfor
  have hklen := (List.getElem?_eq_some_iff.mp hd).1
  -- the block at every place stays the same
  have hplace : ∀ (i : Nat) (a : Entry), (f.pending.set k { d with request := req })[i]? = some a →
      a.request.fromCPU = true ∨
        ∃ a', f.pending[i]? = some a' ∧ a'.request = a.request ∧ a'.tag = a.tag ∧
          a'.index = a.index := by
    intro i a ha
    by_cases hik : k = i
    · subst hik
      rw [List.getElem?_set_self hklen, Option.some.injEq] at ha
      rw [← ha]
      exact Or.inl hcpu
    · rw [List.getElem?_set_ne hik] at ha
      exact Or.inr ⟨a, ha, rfl, rfl, rfl⟩
  constructor
  · show f.removed ≤ (f.appended.set _ _).length
    rw [List.length_set]
    exact h.removed
  · intro e he
    rw [hpending] at he
    cases List.mem_or_eq_of_mem_set he with
    | inl hold => exact h.keyed e hold
    | inr hnew => rw [hnew]; exact ⟨htag, hindex⟩
  · intro i j a b hij ha hb hb'
    rw [hpending] at ha hb
    cases hplace i a ha with
    | inl hnew => exact hnew
    | inr hold =>
      obtain ⟨a', ha', hreq, htag', hindex'⟩ := hold
      have hblock : ∃ b', f.pending[j]? = some b' ∧ b'.tag = b.tag ∧ b'.index = b.index := by
        by_cases hjk : k = j
        · subst hjk
          rw [List.getElem?_set_self hklen, Option.some.injEq] at hb
          exact ⟨d, hd, by rw [← hb], by rw [← hb]⟩
        · rw [List.getElem?_set_ne hjk] at hb
          exact ⟨b, hb, rfl, rfl⟩
      obtain ⟨b', hb'', htagb, hindexb⟩ := hblock
      rw [← hreq]
      apply h.older i j a' b' hij ha' hb''
      rw [isFor_iff] at hb' ⊢
      exact ⟨(htagb.trans hb'.1).trans htag'.symm, (hindexb.trans hb'.2).trans hindex'.symm⟩

theorem Merged.add (h : Merged source f) (req : Request) (cycle : BitVec 32) :
    Merged source (f.add source req cycle).2 := by
  obtain ⟨-, hadd⟩ | ⟨-, hlast, hadd⟩ | ⟨-, hcpu, k, d, hk, hd, -, hadd⟩ | ⟨-, -, hadd⟩ :=
    add_cases f source req cycle
  · rw [hadd]
    exact h
  · rw [hadd]
    exact h.append hlast
  · rw [hadd]
    exact h.replace hcpu hk hd
  · rw [hadd]
    exact h

theorem Merged.remove (h : Merged source f) : Merged source f.remove.2 := by
  constructor
  · rw [Fifo.remove]
    by_cases hnil : f.pending = []
    · rw [if_pos hnil]
      exact h.removed
    · rw [if_neg hnil]
      have hlen : f.removed < f.appended.length := by
        have hpos := List.length_pos_iff.mpr hnil
        rw [pending, List.length_drop] at hpos
        omega
      exact hlen
  · intro e he
    rw [pending_remove] at he
    exact h.keyed e (List.mem_of_mem_tail he)
  · intro i j a b hij ha hb hfor
    rw [pending_remove, List.getElem?_tail] at ha hb
    exact h.older (i + 1) (j + 1) a b (by omega) ha hb hfor

theorem Merged.run (h : Merged source f) (calls : List MemQueue.Call) :
    Merged source (f.run source calls) := by
  induction calls generalizing f with
  | nil => exact h
  | cons c calls ih =>
    cases c with
    | add req cycle => exact ih (h.add req cycle)
    | remove => exact ih h.remove

/-! ## A request of the CPU keeps its entry -/

theorem getElem?_append_keeps {n : Nat} {e : Entry} (h : f.appended[n]? = some e) (e' : Entry) :
    (f.append e').appended[n]? = some e := by
  show (f.appended ++ [e'])[n]? = some e
  rw [List.getElem?_append_left (List.getElem?_eq_some_iff.mp h).1, h]

/-- Only entries that are not from the CPU are replaced. -/
theorem add_keeps {n : Nat} {e : Entry} (h : f.appended[n]? = some e)
    (hcpu : e.request.fromCPU = true) (req : Request) (cycle : BitVec 32) :
    (f.add source req cycle).2.appended[n]? = some e := by
  obtain ⟨-, hadd⟩ | ⟨-, -, hadd⟩ | ⟨-, -, k, d, -, hd, hdup, hadd⟩ | ⟨-, -, hadd⟩ :=
    add_cases f source req cycle
  · rw [hadd]
    exact h
  · rw [hadd]
    exact getElem?_append_keeps h _
  · have hne : f.removed + k ≠ n := by
      intro hn
      rw [pending, List.getElem?_drop, hn, h, Option.some.injEq] at hd
      rw [← hd, hcpu] at hdup
      cases hdup
    rw [hadd]
    show (f.appended.set (f.removed + k) _)[n]? = some e
    rw [List.getElem?_set_ne hne, h]
  · rw [hadd]
    exact h

theorem remove_keeps (f : Fifo) : f.remove.2.appended = f.appended := by
  rw [remove]
  split <;> rfl

theorem run_keeps {n : Nat} {e : Entry} (h : f.appended[n]? = some e)
    (hcpu : e.request.fromCPU = true) (calls : List MemQueue.Call) :
    (f.run source calls).appended[n]? = some e := by
  induction calls generalizing f with
  | nil => exact h
  | cons c calls ih =>
    cases c with
    | add req cycle => exact ih (add_keeps h hcpu req cycle)
    | remove => exact ih ((congrArg (·[n]?) (remove_keeps f)).trans h)

/-- A request of the CPU that is accepted gets an entry, at the rear or in the place of a
    duplicate. -/
theorem add_accepts (hremoved : f.removed ≤ f.appended.length) (hcpu : req.fromCPU = true)
    (hadd : (f.add source req cycle).1 = true) :
    ∃ k < (f.add source req cycle).2.pending.length, ∃ e : Entry, e.request = req ∧
      (f.add source req cycle).2.pending[k]? = some e := by
  obtain ⟨-, heq⟩ | ⟨-, -, heq⟩ | ⟨-, -, k, d, -, hd, -, heq⟩ | ⟨-, hnot, -⟩ :=
    add_cases f source req cycle
  · rw [heq] at hadd
    cases hadd
  · rw [heq, pending_append hremoved]
    refine ⟨f.pending.length, ?_, f.entryFor source req cycle, rfl, ?_⟩
    · rw [List.length_append, List.length_singleton]
      exact Nat.lt_succ_self _
    · exact List.getElem?_concat_length
  · have hklen := (List.getElem?_eq_some_iff.mp hd).1
    rw [heq, pending_replace]
    refine ⟨k, ?_, _, rfl, List.getElem?_set_self hklen⟩
    rw [List.length_set]
    exact hklen
  · rw [hcpu] at hnot
    cases hnot

theorem run_capacity (f : Fifo) (source : Cache) (calls : List MemQueue.Call) :
    (f.run source calls).capacity = f.capacity := by
  induction calls generalizing f with
  | nil => rfl
  | cons c calls ih =>
    apply (ih (f.call source c)).trans
    cases c with
    | add req cycle =>
      obtain ⟨-, hadd⟩ | ⟨-, -, hadd⟩ | ⟨-, -, k, d, -, -, -, hadd⟩ | ⟨-, -, hadd⟩ :=
        add_cases f source req cycle <;>
        exact congrArg (fun r => r.2.capacity) hadd
    | remove =>
      show f.remove.2.capacity = _
      rw [remove]
      split <;> rfl

/-! ## Ready times -/

/-- Ready times never decrease; with a pipeline each is the cycle of an earlier `add` and the
    latency. -/
structure Timed (f : Fifo) (cycles : List (BitVec 32)) : Prop where
  sorted : (f.pending.map (·.readyTime)).Pairwise (· ≤ ·)
  cycle : f.pipelined = true → ∀ e ∈ f.pending,
    ∃ c ∈ cycles, e.readyTime.toNat = c.toNat + f.latency.toNat

variable {cycles : List (BitVec 32)}

theorem Timed.le_last (h : Timed f cycles) {last : Entry} (hlast : f.pending.getLast? = some last)
    {e : Entry} (he : e ∈ f.pending) : e.readyTime ≤ last.readyTime := by
  obtain ⟨older, hpending⟩ := List.getLast?_eq_some_iff.mp hlast
  have hsorted := h.sorted
  rw [hpending, List.map_append, List.pairwise_append] at hsorted
  rw [hpending, List.mem_append, List.mem_singleton] at he
  cases he with
  | inl hold =>
    exact hsorted.2.2 _ (List.mem_map_of_mem hold) _ (List.mem_map_of_mem List.mem_cons_self)
  | inr heq => rw [heq]; exact BitVec.le_refl _

/-- Nothing that is queued is ready after a request that is appended now. -/
theorem Timed.le_sumAt (h : Timed f cycles) (hcycles : ∀ c ∈ cycles, c ≤ cycle) {e : Entry}
    (he : e ∈ f.pending) : e.readyTime.toNat ≤ f.sumAt cycle := by
  rw [sumAt]
  cases hpipelined : f.pipelined with
  | true =>
    obtain ⟨c, hc, htime⟩ := h.cycle hpipelined e he
    have hle : c.toNat ≤ cycle.toNat := hcycles c hc
    rw [if_pos rfl, htime]
    omega
  | false =>
    rw [if_neg Bool.false_ne_true]
    cases hlast : f.pending.getLast? with
    | none => rw [List.getLast?_eq_none_iff.mp hlast] at he; cases he
    | some last =>
      have hle : e.readyTime.toNat ≤ last.readyTime.toNat := h.le_last hlast he
      show _ ≤ f.latency.toNat + last.readyTime.toNat
      omega

theorem Timed.append (h : Timed f cycles) (hremoved : f.removed ≤ f.appended.length)
    (hcycles : ∀ c ∈ cycles, c ≤ cycle) (hfit : f.sumAt cycle < 2 ^ 32) :
    Timed (f.append (f.entryFor source req cycle)) (cycles ++ [cycle]) := by
  have htime : (f.entryFor source req cycle).readyTime.toNat = f.sumAt cycle := by
    show (BitVec.ofNat 32 (f.sumAt cycle)).toNat = _
    rw [BitVec.toNat_ofNat, Nat.mod_eq_of_lt hfit]
  constructor
  · rw [pending_append hremoved, List.map_append, List.pairwise_append]
    refine ⟨h.sorted, List.pairwise_singleton _ _, fun a ha b hb => ?_⟩
    -- the new time is no earlier than any in the queue
    obtain ⟨e, he, rfl⟩ := List.mem_map.mp ha
    obtain rfl := List.mem_singleton.mp hb
    show e.readyTime.toNat ≤ _
    rw [htime]
    exact h.le_sumAt hcycles he
  · intro hpipelined e he
    rw [pending_append hremoved, List.mem_append, List.mem_singleton] at he
    cases he with
    | inl hold =>
      obtain ⟨c, hc, heq⟩ := h.cycle hpipelined e hold
      exact ⟨c, List.mem_append_left _ hc, heq⟩
    | inr hnew =>
      have hpipelined' : f.pipelined = true := hpipelined
      refine ⟨cycle, List.mem_append_right _ List.mem_cons_self, ?_⟩
      rw [hnew, htime, sumAt, hpipelined', if_pos rfl]
      rfl

theorem Timed.replace (h : Timed f cycles) {k : Nat} {d : Entry} (hd : f.pending[k]? = some d)
    (req : Request) : Timed (f.replace k req) (cycles ++ [cycle]) := by
  have hdup : f.pending.getD k .zero = d := by
    rw [List.getD_eq_getElem?_getD, hd, Option.getD_some]
  constructor
  · have htimes : (f.replace k req).pending.map (·.readyTime) = f.pending.map (·.readyTime) := by
      -- the new entry has the time of the old one
      rw [pending_replace, hdup, List.map_set]
      apply List.ext_getElem?
      intro i
      by_cases hik : k = i
      · subst hik
        have hklen := (List.getElem?_eq_some_iff.mp hd).1
        rw [List.getElem?_set_self (by rwa [List.length_map]), List.getElem?_map, hd]
        rfl
      · rw [List.getElem?_set_ne hik]
    rw [htimes]
    exact h.sorted
  · intro hpipelined e he
    rw [pending_replace, hdup] at he
    cases List.mem_or_eq_of_mem_set he with
    | inl hold =>
      obtain ⟨c, hc, heq⟩ := h.cycle hpipelined e hold
      exact ⟨c, List.mem_append_left _ hc, heq⟩
    | inr hnew =>
      obtain ⟨c, hc, heq⟩ := h.cycle hpipelined d (List.mem_of_getElem? hd)
      rw [hnew]
      exact ⟨c, List.mem_append_left _ hc, heq⟩

theorem Timed.add (h : Timed f cycles) (hremoved : f.removed ≤ f.appended.length)
    (hcycles : ∀ c ∈ cycles, c ≤ cycle)
    (hfit : f.pending.length < (f.add source req cycle).2.pending.length →
      f.sumAt cycle < 2 ^ 32) :
    Timed (f.add source req cycle).2 (cycles ++ [cycle]) := by
  have hsame : Timed f (cycles ++ [cycle]) := by
    refine ⟨h.sorted, fun hpipelined e he => ?_⟩
    obtain ⟨c, hc, heq⟩ := h.cycle hpipelined e he
    exact ⟨c, List.mem_append_left _ hc, heq⟩
  obtain ⟨-, hadd⟩ | ⟨-, -, hadd⟩ | ⟨-, -, k, d, -, hd, -, hadd⟩ | ⟨-, -, hadd⟩ :=
    add_cases f source req cycle
  · rw [hadd]
    exact hsame
  · rw [hadd] at hfit ⊢
    apply h.append hremoved hcycles
    apply hfit
    rw [pending_append hremoved, List.length_append, List.length_singleton]
    exact Nat.lt_succ_self _
  · rw [hadd]
    exact h.replace hd req
  · rw [hadd]
    exact hsame

theorem Timed.remove (h : Timed f cycles) : Timed f.remove.2 cycles := by
  constructor
  · rw [pending_remove, List.map_tail]
    exact h.sorted.tail
  · intro hpipelined e he
    have hfields : f.remove.2.pipelined = f.pipelined ∧ f.remove.2.latency = f.latency := by
      rw [Fifo.remove]
      split <;> exact ⟨rfl, rfl⟩
    rw [pending_remove] at he
    rw [hfields.2]
    exact h.cycle (hfields.1 ▸ hpipelined) e (List.mem_of_mem_tail he)

end Fifo

namespace MemQueue

variable {q : MemQueue} {f : Fifo} {source : Cache}

/-! ## All runs of `memQueue` -/

theorem Refines.call (h : Refines q f) (source : Cache) (c : Call) :
    Refines (q.call source c) (f.call source c) := by
  cases c with
  | add req cycle => exact (h.add source req cycle).2
  | remove => exact h.remove.2

theorem Refines.run (h : Refines q f) (source : Cache) (calls : List Call) :
    Refines (q.run source calls) (f.run source calls) ∧
      (f.run source calls).removed = f.removed + q.removals source calls := by
  induction calls generalizing q f with
  | nil => exact ⟨h, rfl⟩
  | cons c calls ih =>
    obtain ⟨hrest, hremoved⟩ := ih (h.call source c)
    refine ⟨hrest, hremoved.trans ?_⟩
    cases c with
    | add req cycle =>
      have hadd : (f.add source req cycle).2.removed = f.removed := by
        obtain ⟨-, hadd⟩ | ⟨-, -, hadd⟩ | ⟨-, -, k, d, -, -, -, hadd⟩ | ⟨-, -, hadd⟩ :=
          Fifo.add_cases f source req cycle <;> rw [hadd] <;> rfl
      show (f.add source req cycle).2.removed + _ = _
      rw [hadd]
      rfl
    | remove =>
      have hremove : f.remove.2.removed = f.removed + q.remove.1.toNat := by
        rw [h.remove.1, Fifo.remove]
        split <;> rfl
      show f.remove.2.removed + _ = f.removed + (q.remove.1.toNat + _)
      rw [hremove, Nat.add_assoc]
      rfl

theorem run_concat (source : Cache) (q : MemQueue) (calls : List Call) (c : Call) :
    q.run source (calls ++ [c]) = (q.run source calls).call source c := by
  rw [run, List.foldl_append]
  rfl

/-- A request of the CPU that is accepted gets a place, moves up by one with every request that
    is removed, and is the one at the front when its turn comes. -/
def KeepsCpuRequests (source : Cache) (q : MemQueue) : Prop :=
  ∀ req cycle, req.fromCPU = true → (q.add source req cycle).1 = true →
    ∃ k < (q.add source req cycle).2.getSize, ∀ later : List Call,
      let q' := (q.add source req cycle).2
      q'.removals source later ≤ k →
        ((q'.run source later).contents[k - q'.removals source later]?).map (·.request) =
            some req ∧
          (q'.removals source later = k → (q'.run source later).getFront = req)

theorem Refines.keepsCpuRequests (h : Refines q f) (source : Cache) :
    q.KeepsCpuRequests source := by
  intro req cycle hcpu hadd
  obtain ⟨hbool, hafter⟩ := h.add source req cycle
  obtain ⟨k, hk, e, he, hplace⟩ := Fifo.add_accepts h.removed hcpu (hbool ▸ hadd)
  refine ⟨k, by rw [getSize, ← hafter.size]; exact hk, fun later => ?_⟩
  intro q' hle
  have hsteps : Refines (q'.run source later) ((f.add source req cycle).2.run source later) ∧
      ((f.add source req cycle).2.run source later).removed =
        (f.add source req cycle).2.removed + q'.removals source later := hafter.run source later
  obtain ⟨hlater, hremoved⟩ := hsteps
  -- the entry keeps its index among all that were appended
  have hkept : ((f.add source req cycle).2.run source later).appended[
      (f.add source req cycle).2.removed + k]? = some e := by
    apply Fifo.run_keeps
    · rwa [Fifo.pending, List.getElem?_drop] at hplace
    · rw [he, hcpu]
  have hnow : (q'.run source later).contents[k - q'.removals source later]? = some e := by
    rw [hlater.contents, Fifo.pending, List.getElem?_drop, hremoved, ← hkept]
    congr 1
    omega
  refine ⟨by rw [hnow, Option.map_some, he], fun hturn => ?_⟩
  rw [hturn, Nat.sub_self] at hnow
  have hpos : 0 < (q'.run source later).ring.size := by
    have hlt := (List.getElem?_eq_some_iff.mp hnow).1
    rwa [MemQueue.contents, RingBuffer.length_contents] at hlt
  rw [contents_remove hlater.wf hpos, List.getElem?_cons_zero, Option.some.injEq] at hnow
  rw [getFront, hnow, he]

/-- Of the requests for one block, only the last one may be a request that is not from the
    CPU. -/
def PrefetchesLast (source : Cache) (q : MemQueue) : Prop :=
  ∀ (i j : Nat) (a b : Entry), q.contents[i]? = some a → q.contents[j]? = some b →
    source.getTag a.request.addr = source.getTag b.request.addr →
    source.getIndex a.request.addr = source.getIndex b.request.addr →
    a.request.fromCPU = false → j ≤ i

theorem Refines.prefetchesLast (h : Refines q f) (hmerged : Fifo.Merged source f) :
    q.PrefetchesLast source := by
  intro i j a b ha hb htag hindex hcpu
  rw [h.contents] at ha hb
  by_contra hij
  have hkeyed := hmerged.keyed a (List.mem_of_getElem? ha)
  have hkeyed' := hmerged.keyed b (List.mem_of_getElem? hb)
  have hfor : b.isFor a.tag a.index = true := by
    rw [Fifo.isFor_iff, hkeyed.1, hkeyed.2, hkeyed'.1, hkeyed'.2]
    exact ⟨htag.symm, hindex.symm⟩
  have hcpu' := hmerged.older i j a b (by omega) ha hb hfor
  rw [hcpu] at hcpu'
  cases hcpu'

/-- The cycles that `add` is called with. -/
def Call.cycle : Call → Option (BitVec 32)
  | .add _ cycle => some cycle
  | .remove => none

/-- The sums that give the ready times of a run are below 2^32. -/
def SumsFit (source : Cache) (q : MemQueue) (calls : List Call) : Prop :=
  ∀ pre req cycle, pre ++ [.add req cycle] <+: calls →
    (q.run source pre).getSize < ((q.run source pre).add source req cycle).2.getSize →
    (q.run source pre).sumAt cycle < 2 ^ 32

theorem Refines.timed (h : Refines q f) (hmerged : Fifo.Merged source f)
    (htimed : Fifo.Timed f []) {calls : List Call}
    (hcycles : (calls.filterMap Call.cycle).Pairwise (· ≤ ·)) (hfit : q.SumsFit source calls) :
    Fifo.Timed (f.run source calls) (calls.filterMap Call.cycle) := by
  induction calls using List.reverseRec with
  | nil => exact htimed
  | append_singleton calls c ih =>
    rw [List.filterMap_append, List.pairwise_append] at hcycles
    have hbefore := ih hcycles.1 fun pre req cycle hpre =>
      hfit pre req cycle (hpre.trans (List.prefix_append calls [c]))
    have hrun := (h.run source calls).1
    have hremoved := (hmerged.run calls).removed
    have hconcat : f.run source (calls ++ [c]) = (f.run source calls).call source c := by
      rw [Fifo.run, List.foldl_append]
      rfl
    rw [hconcat, List.filterMap_append]
    -- only `add` brings in a time
    cases c with
    | remove =>
      show Fifo.Timed _ (calls.filterMap Call.cycle ++ [])
      rw [List.append_nil]
      exact hbefore.remove
    | add req cycle =>
      apply hbefore.add hremoved
      · exact fun c' hc' => hcycles.2.2 c' hc' cycle List.mem_cons_self
      · intro hgrows
        rw [← hrun.sumAt]
        apply hfit calls req cycle (List.prefix_refl _)
        rwa [getSize, getSize, ← hrun.size, ← (hrun.add source req cycle).2.size]

/-- From an empty queue, over every sequence of calls: the entries from `front` on are the
    requests that were appended and not removed, in this order, where a duplicate that is
    replaced keeps its place and ready time; there are never more than the capacity, and `add`
    refuses exactly when there are as many; no accepted request of the CPU is lost; a block has
    at most one request that is not from the CPU, behind those that are; and ready times do not
    decrease if the cycles do not and the sums fit. -/
theorem run_boundedFifo {capacity : Nat} (hcapacity : 1 ≤ capacity) (source : Cache)
    (latency : BitVec 32) (pipelined write : Bool) (calls : List Call) :
    let q := (new capacity latency pipelined write).run source calls
    q.contents = ((Fifo.new capacity latency pipelined).run source calls).pending ∧
    q.getSize ≤ capacity ∧
    (∀ req cycle, (q.add source req cycle).1 = false ↔ q.getSize = capacity) ∧
    q.KeepsCpuRequests source ∧
    q.PrefetchesLast source ∧
    ((calls.filterMap Call.cycle).Pairwise (· ≤ ·) →
      (new capacity latency pipelined write).SumsFit source calls →
      (q.contents.map (·.readyTime)).Pairwise (· ≤ ·)) := by
  intro q
  have hnew := Refines.new hcapacity latency pipelined write
  obtain ⟨hrun, -⟩ := hnew.run source calls
  have hempty : Fifo.Merged source (Fifo.new capacity latency pipelined) :=
    ⟨Nat.le_refl 0, fun e he => absurd he List.not_mem_nil,
      fun i j a b _ ha => by simp [Fifo.new, Fifo.pending] at ha⟩
  have hcap : q.ring.capacity = capacity := hrun.capacity.trans (Fifo.run_capacity _ source calls)
  refine ⟨hrun.contents, ?_, ?_, hrun.keepsCpuRequests source,
    hrun.prefetchesLast (hempty.run calls), ?_⟩
  · have hle := hrun.wf.size_le
    rwa [hcap] at hle
  · intro req cycle
    rw [getSize]
    constructor
    · intro hrefused
      -- `add` is refused only when the queue is full
      rw [(add_eq_false hrun.wf hrefused).1, hcap]
    · intro hfull
      rw [add, if_pos (hfull.trans hcap.symm)]
  · intro hcycles hfit
    have htimed : Fifo.Timed (Fifo.new capacity latency pipelined) [] :=
      ⟨List.Pairwise.nil, fun _ e he => absurd he List.not_mem_nil⟩
    rw [hrun.contents]
    exact (hnew.timed hempty htimed hcycles hfit).sorted

/-- A prefetch of the block at 0x100, and a load of the CPU in this block two cycles later. -/
def mergeCalls : List Call :=
  [.add ⟨0x100, 0, true, false, 5, false, false⟩ 5, .add ⟨0x108, 4, true, true, 7, false, false⟩ 7]

/-- The load takes the place and the ready time of the prefetch. -/
theorem run_boundedFifo_merge :
    1 ≤ 2 ∧
      ((new 2 10 true false).run (Cache.new 4 1 32 false true false fun _ => 0)
        mergeCalls).contents.map (fun e => (e.request.addr, e.request.fromCPU, e.readyTime)) =
        [(0x108, true, 15)] := by
  have hcontents := (run_boundedFifo (show 1 ≤ 2 by decide)
    (Cache.new 4 1 32 false true false fun _ => 0) 10 true false mergeCalls).1
  refine ⟨by decide, ?_⟩
  rw [hcontents]
  decide +kernel

end MemQueue

end CacheSim
