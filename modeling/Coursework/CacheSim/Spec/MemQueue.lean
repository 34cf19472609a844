import Coursework.CacheSim.MemQueue

/-!
# The request that the CPU waits for, in one queue

A load of the CPU is what `main` completes when it leaves a queue. `Free` says that a queue
has none, `HoldsAt` that it has exactly one, and where. Adding a store or a prefetch changes
neither; merging only ever overwrites prefetches.

## Key results

- `add_cases`: everything that `add` can do
- `HoldsAt.add`, `Free.add`: other requests do not touch the load
- `HoldsAt.remove`, `HoldsAt.remove_front`: it moves up, and leaves from the front
-/

namespace CacheSim

/-- A load of the CPU. -/
def Request.isCpuLoad (r : Request) : Bool := r.fromCPU && r.load

namespace MemQueue

variable {q : MemQueue} {source : Cache} {req r : Request} {cycle : BitVec 32} {p : Nat}

/-- The entries, oldest first. -/
def contents (q : MemQueue) : List Entry := q.ring.contents

/-- `req` takes the place of the request at place `i`, which keeps its time. -/
def overwrite (q : MemQueue) (i : Nat) (req : Request) : MemQueue :=
  { q with ring := q.ring.set i { q.ring.slots i with request := req } }

/-- Everything that `add` can do. -/
theorem add_cases (hwf : q.ring.WF) (source : Cache) (req : Request) (cycle : BitVec 32) :
    (q.ring.size = q.ring.capacity ∧ q.add source req cycle = (false, q)) ∨
    (q.ring.size < q.ring.capacity ∧ ∃ e : Entry, e.request = req ∧
      q.add source req cycle = (true, { q with ring := q.ring.push e })) ∨
    (q.ring.size < q.ring.capacity ∧ req.fromCPU = true ∧ ∃ k < q.ring.size,
      (q.ring.slots (q.ring.place k)).request.fromCPU = false ∧
      q.add source req cycle = (true, q.overwrite (q.ring.place k) req)) ∨
    (q.ring.size < q.ring.capacity ∧ req.fromCPU = false ∧ q.add source req cycle = (true, q)) := by
  have hle := hwf.size_le
  simp only [add]
  split
  · rename_i hfull
    exact Or.inl ⟨hfull, rfl⟩
  · rename_i hnot
    have hroom : q.ring.size < q.ring.capacity := by omega
    right
    split
    · exact Or.inl ⟨hroom, _, rfl, rfl⟩
    · rename_i dupLoc hdup
      obtain ⟨k, hk, rfl, -⟩ := RingBuffer.findLast_some hwf hroom hdup
      split
      · exact Or.inl ⟨hroom, _, rfl, rfl⟩
      · rename_i hdupCpu
        rw [Bool.not_eq_true] at hdupCpu
        right
        split
        · rename_i hcpu
          exact Or.inl ⟨hroom, hcpu, k, hk, hdupCpu, rfl⟩
        · rename_i hcpu
          exact Or.inr ⟨hroom, by simpa using hcpu, rfl⟩

/-- `add` keeps the numbers of the buffer together, and adds at most one entry. -/
theorem add_size (hwf : q.ring.WF) (source : Cache) (req : Request) (cycle : BitVec 32) :
    (q.add source req cycle).2.ring.WF ∧
    (q.add source req cycle).2.ring.capacity = q.ring.capacity ∧
    q.ring.size ≤ (q.add source req cycle).2.ring.size ∧
    (q.add source req cycle).2.ring.size ≤ q.ring.size + 1 := by
  obtain ⟨-, hadd⟩ | ⟨hroom, e, -, hadd⟩ | ⟨-, -, k, -, -, hadd⟩ | ⟨-, -, hadd⟩ :=
    add_cases hwf source req cycle
  · rw [hadd]
    exact ⟨hwf, rfl, Nat.le_refl _, Nat.le_succ _⟩
  · rw [hadd]
    exact ⟨hwf.push hroom e, rfl, Nat.le_succ _, Nat.le_refl _⟩
  · rw [hadd]
    exact ⟨hwf.set _ _, rfl, Nat.le_refl _, Nat.le_succ _⟩
  · rw [hadd]
    exact ⟨hwf, rfl, Nat.le_refl _, Nat.le_succ _⟩

theorem add_eq_false (hwf : q.ring.WF) (h : (q.add source req cycle).1 = false) :
    q.ring.size = q.ring.capacity ∧ (q.add source req cycle).2 = q := by
  obtain ⟨hfull, hadd⟩ | ⟨-, e, -, hadd⟩ | ⟨-, -, k, -, -, hadd⟩ | ⟨-, -, hadd⟩ :=
    add_cases hwf source req cycle
  · rw [hadd]
    exact ⟨hfull, rfl⟩
  · rw [hadd] at h
    cases h
  · rw [hadd] at h
    cases h
  · rw [hadd] at h
    cases h

/-- `remove` keeps the numbers together. -/
theorem remove_size (hwf : q.ring.WF) (hpos : 0 < q.ring.size) :
    q.remove.2.ring.WF ∧ q.remove.2.ring.capacity = q.ring.capacity ∧
    q.remove.2.ring.size + 1 = q.ring.size := by
  rw [remove, if_neg (by omega)]
  refine ⟨hwf.pop hpos, rfl, ?_⟩
  show q.ring.size - 1 + 1 = q.ring.size
  omega

theorem contents_remove (hwf : q.ring.WF) (hpos : 0 < q.ring.size) :
    q.contents = q.ring.slots q.ring.front :: q.remove.2.contents := by
  rw [remove, if_neg (by omega)]
  exact RingBuffer.contents_pop hwf hpos

/-- What holds for all requests in the queue and for the new one holds for all requests
    after `add`. -/
theorem forall_add {Q : Request → Prop} (hwf : q.ring.WF) (source : Cache) (cycle : BitVec 32)
    (h : ∀ e ∈ q.contents, Q e.request) (hreq : Q req) :
    ∀ e ∈ (q.add source req cycle).2.contents, Q e.request := by
  obtain ⟨-, hadd⟩ | ⟨hroom, e, he, hadd⟩ | ⟨-, -, k, hk, -, hadd⟩ | ⟨-, -, hadd⟩ :=
    add_cases hwf source req cycle
  · rw [hadd]
    exact h
  · rw [hadd, contents, RingBuffer.contents_push hwf hroom]
    intro x hx
    rw [List.mem_append, List.mem_singleton] at hx
    cases hx with
    | inl hold => exact h x hold
    | inr hnew => rw [hnew, he]; exact hreq
  · rw [hadd, overwrite, contents, RingBuffer.contents_set hwf hk]
    intro x hx
    cases List.mem_or_eq_of_mem_set hx with
    | inl hold => exact h x hold
    | inr hnew => rw [hnew]; exact hreq
  · rw [hadd]
    exact h

theorem forall_remove {Q : Request → Prop} (hwf : q.ring.WF) (hpos : 0 < q.ring.size)
    (h : ∀ e ∈ q.contents, Q e.request) :
    Q q.getFront ∧ ∀ e ∈ q.remove.2.contents, Q e.request := by
  rw [contents_remove hwf hpos] at h
  exact ⟨h _ List.mem_cons_self, fun e he => h e (List.mem_cons_of_mem _ he)⟩

/-! ## The load of the CPU -/

/-- No load of the CPU is in the queue. -/
def Free (q : MemQueue) : Prop :=
  ∀ e ∈ q.contents, e.request.isCpuLoad = false

/-- The `p`-th oldest entry is the load `r` of the CPU, and no other entry is one. -/
structure HoldsAt (q : MemQueue) (p : Nat) (r : Request) : Prop where
  entry : ∃ e, q.contents[p]? = some e ∧ e.request = r
  load : r.isCpuLoad = true
  only : ∀ k e, q.contents[k]? = some e → e.request.isCpuLoad = true → k = p

theorem HoldsAt.lt (h : q.HoldsAt p r) : p < q.ring.size := by
  obtain ⟨e, he, -⟩ := h.entry
  have hlt := (List.getElem?_eq_some_iff.mp he).1
  rwa [contents, RingBuffer.length_contents] at hlt

/-- A store or a prefetch does not bring in a load of the CPU. -/
theorem Free.add (hwf : q.ring.WF) (h : q.Free) (hreq : req.isCpuLoad = false) :
    (q.add source req cycle).2.Free :=
  forall_add (Q := fun r => r.isCpuLoad = false) hwf source cycle h hreq

/-- A store or a prefetch leaves the load of the CPU where it is. -/
theorem HoldsAt.add (hwf : q.ring.WF) (h : q.HoldsAt p r) (hreq : req.isCpuLoad = false) :
    (q.add source req cycle).2.HoldsAt p r := by
  obtain ⟨-, hadd⟩ | ⟨hroom, e, he, hadd⟩ | ⟨-, -, k, hk, hdup, hadd⟩ | ⟨-, -, hadd⟩ :=
    add_cases hwf source req cycle
  · rw [hadd]
    exact h
  · have hcont : (q.add source req cycle).2.contents = q.contents ++ [e] := by
      rw [hadd]
      exact RingBuffer.contents_push hwf hroom e
    refine ⟨?_, h.load, ?_⟩
    · obtain ⟨x, hx, hxr⟩ := h.entry
      refine ⟨x, ?_, hxr⟩
      rw [hcont, List.getElem?_append_left (List.getElem?_eq_some_iff.mp hx).1, hx]
    · intro j x hx hload
      rw [hcont] at hx
      rw [List.getElem?_append] at hx
      split at hx
      · exact h.only j x hx hload
      · -- the new entry is not a load of the CPU
        have hxe : x = e := by
          rw [List.getElem?_singleton] at hx
          split at hx
          · exact (Option.some.inj hx).symm
          · cases hx
        rw [hxe, he, hreq] at hload
        cases hload
  · have hcont : (q.add source req cycle).2.contents =
        q.contents.set k { q.ring.slots (q.ring.place k) with request := req } := by
      rw [hadd]
      exact RingBuffer.contents_set hwf hk _
    -- what is overwritten is not from the CPU
    have hkp : k ≠ p := by
      intro hkp
      obtain ⟨x, hx, hxr⟩ := h.entry
      rw [← hkp, contents, RingBuffer.getElem?_contents hk] at hx
      have hload := h.load
      rw [← hxr, ← Option.some.inj hx, Request.isCpuLoad, hdup] at hload
      cases hload
    refine ⟨?_, h.load, ?_⟩
    · obtain ⟨x, hx, hxr⟩ := h.entry
      exact ⟨x, by rw [hcont, List.getElem?_set_ne hkp, hx], hxr⟩
    · intro j x hx hload
      rw [hcont] at hx
      by_cases hkj : k = j
      · have hmem := List.getElem?_eq_some_iff.mp hx
        obtain ⟨hlt, hval⟩ := hmem
        subst hkj
        rw [List.getElem_set_self] at hval
        rw [← hval] at hload
        exact absurd (hload.symm.trans hreq) (by simp)
      · rw [List.getElem?_set_ne hkj] at hx
        exact h.only j x hx hload
  · rw [hadd]
    exact h

/-- A load of the CPU that is added is in the queue. -/
theorem Free.add_cpuLoad (hwf : q.ring.WF) (h : q.Free) (hreq : req.isCpuLoad = true)
    (hadd : (q.add source req cycle).1 = true) :
    ∃ p, (q.add source req cycle).2.HoldsAt p req := by
  -- the load added is the only one of the processor, so no earlier entry can be mistaken for it
  have hnone : ∀ {k : Nat} {x : Entry}, q.contents[k]? = some x → x.request.isCpuLoad ≠ true := by
    intro k x hx hload
    exact absurd (hload.symm.trans (h x (List.mem_of_getElem? hx))) (by simp)
  obtain ⟨-, heq⟩ | ⟨hroom, e, he, heq⟩ | ⟨-, -, k, hk, -, heq⟩ | ⟨-, hcpu, -⟩ :=
    add_cases hwf source req cycle
  · rw [heq] at hadd
    cases hadd
  · -- the load gets an entry of its own, at the end of the queue
    have hcont : (q.add source req cycle).2.contents = q.contents ++ [e] := by
      rw [heq]
      exact RingBuffer.contents_push hwf hroom e
    refine ⟨q.contents.length, ⟨e, ?_, he⟩, hreq, ?_⟩
    · rw [hcont, List.getElem?_concat_length]
    · intro j x hx hload
      rw [hcont, List.getElem?_append] at hx
      split at hx
      · exact absurd hload (hnone hx)
      · rename_i hge
        have hlt := (List.getElem?_eq_some_iff.mp hx).1
        rw [List.length_singleton] at hlt
        omega
  · -- a prefetch of the same block is queued: its entry becomes the entry of the load
    have hcont : (q.add source req cycle).2.contents =
        q.contents.set k { q.ring.slots (q.ring.place k) with request := req } := by
      rw [heq]
      exact RingBuffer.contents_set hwf hk _
    have hklen : k < q.contents.length := by
      rw [contents, RingBuffer.length_contents]
      exact hk
    refine ⟨k, ⟨_, by rw [hcont, List.getElem?_set_self hklen], rfl⟩, hreq, ?_⟩
    intro j x hx hload
    rw [hcont] at hx
    by_contra hjk
    rw [List.getElem?_set_ne fun h => hjk h.symm] at hx
    exact hnone hx hload
  · -- a request is dropped in favour of a queued one only when it is not of the processor
    rw [Request.isCpuLoad, hcpu] at hreq
    cases hreq

theorem Free.remove (hwf : q.ring.WF) (h : q.Free) (hpos : 0 < q.ring.size) :
    q.getFront.isCpuLoad = false ∧ q.remove.2.Free :=
  forall_remove (Q := fun r => r.isCpuLoad = false) hwf hpos h

/-- The load of the CPU is at the front, and leaves. -/
theorem HoldsAt.remove_front (hwf : q.ring.WF) (h : q.HoldsAt 0 r) :
    q.getFront = r ∧ q.remove.2.Free := by
  have hcont := contents_remove hwf h.lt
  constructor
  · obtain ⟨e, he, her⟩ := h.entry
    rw [hcont, List.getElem?_cons_zero, Option.some.injEq] at he
    rw [getFront, he, her]
  · intro e he
    by_contra hload
    obtain ⟨k, hk⟩ := List.getElem?_of_mem he
    have := h.only (k + 1) e (by rw [hcont, List.getElem?_cons_succ, hk]) (by simpa using hload)
    omega

/-- The load of the CPU moves up; what leaves is something else. -/
theorem HoldsAt.remove (hwf : q.ring.WF) (h : q.HoldsAt (p + 1) r) :
    q.getFront.isCpuLoad = false ∧ q.remove.2.HoldsAt p r := by
  have hcont := contents_remove hwf (Nat.zero_lt_of_lt h.lt)
  refine ⟨?_, ?_, h.load, ?_⟩
  · by_contra hload
    have := h.only 0 _ (by rw [hcont, List.getElem?_cons_zero])
      (by simpa [getFront] using hload)
    omega
  · obtain ⟨e, he, her⟩ := h.entry
    rw [hcont, List.getElem?_cons_succ] at he
    exact ⟨e, he, her⟩
  · intro k e he hload
    have := h.only (k + 1) e (by rw [hcont, List.getElem?_cons_succ, he]) hload
    omega

/-- The load of the CPU is not at the front, so it moves up. -/
theorem HoldsAt.moveUp (hwf : q.ring.WF) (h : q.HoldsAt p r)
    (hfront : q.getFront.isCpuLoad = false) : ∃ p', q.remove.2.HoldsAt p' r ∧ p' + 1 = p := by
  cases p with
  | zero =>
    rw [(h.remove_front hwf).1, h.load] at hfront
    cases hfront
  | succ p => exact ⟨p, (h.remove hwf).2, rfl⟩

/-! ## The loads of the CPU as a list -/

/-- The loads of the CPU in the queue. -/
def cpuLoads (q : MemQueue) : List Request :=
  (q.contents.map (·.request)).filter (·.isCpuLoad)

theorem Free.cpuLoads (h : q.Free) : q.cpuLoads = [] := by
  rw [MemQueue.cpuLoads, List.filter_eq_nil_iff]
  intro r hr
  obtain ⟨e, he, rfl⟩ := List.mem_map.mp hr
  rw [h e he]
  simp

theorem HoldsAt.cpuLoads (h : q.HoldsAt p r) : q.cpuLoads = [r] := by
  obtain ⟨e, he, her⟩ := h.entry
  obtain ⟨hp, hget⟩ := List.getElem?_eq_some_iff.mp he
  have hnone : ∀ (l : List Entry), (∀ x ∈ l, x.request.isCpuLoad = false) →
      (l.map (·.request)).filter (·.isCpuLoad) = [] := by
    intro l hl
    rw [List.filter_eq_nil_iff]
    intro y hy
    obtain ⟨x, hx, rfl⟩ := List.mem_map.mp hy
    rw [hl x hx]
    simp
  -- the entries before and after the load are no loads of the CPU
  have hbefore : ∀ x ∈ q.contents.take p, x.request.isCpuLoad = false := by
    intro x hx
    obtain ⟨k, hk⟩ := List.getElem?_of_mem hx
    by_contra hload
    rw [List.getElem?_take] at hk
    split at hk
    · have := h.only k x hk (by simpa using hload)
      omega
    · cases hk
  have hafter : ∀ x ∈ q.contents.drop (p + 1), x.request.isCpuLoad = false := by
    intro x hx
    obtain ⟨k, hk⟩ := List.getElem?_of_mem hx
    by_contra hload
    rw [List.getElem?_drop] at hk
    have := h.only (p + 1 + k) x hk (by simpa using hload)
    omega
  have hload := h.load
  rw [← her] at hload ⊢
  rw [MemQueue.cpuLoads, ← List.take_append_drop p q.contents, List.drop_eq_getElem_cons hp, hget,
    List.map_append, List.filter_append, hnone _ hbefore, List.map_cons, List.filter_cons, hload,
    if_pos rfl, hnone _ hafter, List.nil_append]

end MemQueue

end CacheSim
