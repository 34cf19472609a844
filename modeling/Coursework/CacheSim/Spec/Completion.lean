import Coursework.CacheSim.Spec.Requests

/-!
# Every request is completed exactly once

One pass through the loop of `main` keeps the stage of the current request and never makes
its number larger. In the pass in which `curr_cycle` has its largest value the front of
every queue is ready, so the number becomes smaller; that pass comes round again and again,
and so the trace ends.

## Key results

- `Stage.cycle` / `Stage.cycle_lt`: one pass through the loop
- `run_completes`: what holds in every pass, and at the end
-/

namespace CacheSim

namespace Sim

variable {σ : Type} {s s' : Sim σ} {lines : List TraceLine} {n : Nat} (P : Prefetcher σ)

/-! ## The part that depends on the CPU -/

/-- What `issue` adds to `Keeps`: a CPU that is stalled found its queue full. -/
def Full (s : Sim σ) : Prop :=
  (s.cpu.state = .stalledL2 → s.queueL2.ring.size = 20) ∧
  (s.cpu.state = .stalledWB → s.writeBuffer.ring.size = 10)

/-- The prefetcher can only add a prefetch to the L2 queue. -/
theorem prefetch_cases (s : Sim σ) : ∃ pf nRequestsL2 queueL2,
    s.prefetch P = { s with pf := pf, nRequestsL2 := nRequestsL2, queueL2 := queueL2 } ∧
    (queueL2 = s.queueL2 ∨ ∃ req : Request, req.fromCPU = false ∧
      queueL2 = (s.queueL2.add s.dCache req s.currCycle).2) := by
  unfold prefetch
  cases P.hasRequest s.pf s.currCycle with
  | mk has pf =>
    cases has with
    | false => exact ⟨_, _, _, rfl, Or.inl rfl⟩
    | true =>
      dsimp only
      cases ha : s.queueL2.add s.dCache
        { (P.getRequest pf s.currCycle).1 with fromCPU := false, load := true } s.currCycle with
      | mk ok queueL2 =>
        cases ok with
        | true => exact ⟨_, _, _, rfl, Or.inr ⟨_, rfl, (congrArg Prod.snd ha).symm⟩⟩
        | false => exact ⟨_, _, _, rfl, Or.inl rfl⟩

theorem Stage.prefetch (hs : Sound lines s) (hst : Stage s n) (hstate : s.cpu.state ≠ .stalledL2) :
    Sound lines (s.prefetch P) ∧ (∃ n' ≤ n, Stage (s.prefetch P) n') ∧
    (s.prefetch P).cpu = s.cpu ∧ (s.prefetch P).writeBuffer = s.writeBuffer ∧
    (s.prefetch P).dCache = s.dCache ∧ (s.prefetch P).currCycle = s.currCycle := by
  -- the queue is as it was, or has one more request of the prefetcher, which is not the load the
  -- processor waits for
  obtain ⟨pf, nRequestsL2, queueL2, heq, hq⟩ := prefetch_cases P s
  have hqueue : queueL2.ring.WF ∧ queueL2.ring.capacity = 20 ∧
      (s.queueL2.Free → queueL2.Free) ∧
      (∀ p r, s.queueL2.HoldsAt p r → queueL2.HoldsAt p r) ∧
      (∀ e ∈ queueL2.contents, e.request.fromCPU = true → e.request.isCpuLoad = true) := by
    cases hq with
    | inl h =>
      rw [h]
      exact ⟨hs.ringL2, hs.capL2, id, fun _ _ => id, hs.loads⟩
    | inr h =>
      obtain ⟨req, hreq, h⟩ := h
      have hnot : req.isCpuLoad = false := by rw [Request.isCpuLoad, hreq, Bool.false_and]
      obtain ⟨hwf, hcap, -⟩ := MemQueue.add_size hs.ringL2 s.dCache req s.currCycle
      rw [h]
      refine ⟨hwf, hcap.trans hs.capL2, fun hf => hf.add hs.ringL2 hnot,
        fun _ _ hh => hh.add hs.ringL2 hnot, ?_⟩
      apply MemQueue.forall_add (Q := fun r => r.fromCPU = true → r.isCpuLoad = true) hs.ringL2
        s.dCache s.currCycle hs.loads
      intro hcpu
      rw [hreq] at hcpu
      cases hcpu
  obtain ⟨hwf, hcap, hfree, hhold, hloads⟩ := hqueue
  -- the queue may have grown, so the bound on a stall there would not carry over
  obtain ⟨n', hst', hle, -⟩ := hst.move (s.prefetch P) (a := 0) (b := 0) (c := 0)
    (by rw [heq]; exact CPU.SameRequest.refl s.cpu) (by rw [heq]) (fun r h => by rw [heq]; exact h)
    (fun h => by rw [heq]; exact hfree h) (fun h => by rw [heq]; exact h)
    (fun p r h => ⟨p, by rw [heq]; exact hhold p r h, by rw [heq]; exact Nat.le_refl _⟩)
    (fun p r h => ⟨p, by rw [heq]; exact h, Nat.le_refl p⟩)
    (fun h => absurd h hstate) (by rw [heq]; exact Nat.le_refl _)
  refine ⟨?_, ⟨n', hle, hst'⟩, by rw [heq], by rw [heq], by rw [heq], by rw [heq]⟩
  rw [heq]
  exact ⟨hs.follows, hwf, hcap, hs.ringMem, hs.capMem, hs.ringWB, hs.capWB, hloads, hs.stores⟩

/-- The CPU tries again to put its store into the write buffer. -/
theorem Stage.retryWB (hs : Sound lines s) (hst : Stage s n) (hstate : s.cpu.state = .stalledWB) :
    ∃ n', Keeps lines s s.retryWB n n' ∧ Full s.retryWB := by
  have hinv := hst.inv
  rw [hstate] at hinv
  obtain ⟨hdone, hload, hL2, hMem, hn⟩ := hinv
  cases hadd : s.writeBuffer.add s.dCache s.cpu.currReq s.currCycle with
  | mk ok writeBuffer =>
    cases ok with
    | false =>
      -- the buffer was full: the processor retries in the next cycle with the same bound
      have heq : s.retryWB = s := by rw [Sim.retryWB, CPU.getRequest, hadd]
      have hfull := (MemQueue.add_eq_false hs.ringWB (congrArg Prod.fst hadd)).1
      rw [heq]
      refine ⟨n, ⟨hs, hst, Nat.le_refl _, fun _ => rfl⟩, ?_, fun _ => hfull.trans hs.capWB⟩
      intro h
      rw [hstate] at h
      cases h
    | true =>
      -- the store is accepted, which completes the request
      have heq : s.retryWB = { s with
          writeBuffer := (s.writeBuffer.add s.dCache s.cpu.currReq s.currCycle).2
          cpu := s.cpu.completeRequest s.currCycle none } := by
        rw [Sim.retryWB, CPU.getRequest, hadd]
      obtain ⟨hwf, hcap, -⟩ := MemQueue.add_size hs.ringWB s.dCache s.cpu.currReq s.currCycle
      obtain ⟨n', hst', hlt⟩ := Stage.complete hst s.retryWB (by rw [hstate]; simp)
        (CPU.SameRequest.refl s.cpu) (by rw [heq]) (by rw [heq]; exact hL2)
        (by rw [heq]; exact hMem)
      have hidle : s.retryWB.cpu.state = .idle := by
        rw [heq]
        exact (CPU.completeRequest_remaining hdone s.currCycle none).1
      refine ⟨n', ⟨?_, hst', Nat.le_of_lt hlt, fun h => absurd h (by omega)⟩, ?_, ?_⟩
      · rw [heq]
        refine ⟨hs.follows.completeRequest hdone _ (fun r h => by cases h), hs.ringL2, hs.capL2,
          hs.ringMem, hs.capMem, hwf, hcap.trans hs.capWB, hs.loads, ?_⟩
        apply MemQueue.forall_add (Q := fun r => r.isCpuLoad = false) hs.ringWB s.dCache s.currCycle
          hs.stores
        rw [Request.isCpuLoad, hload, Bool.and_false]
      all_goals intro h; rw [hidle] at h; cases h

/-- A load of the CPU has got into the L2 queue. -/
theorem Stage.enterL2 (hs : Sound lines s) (hdone : s.cpu.done = false) (hMem : s.queueMem.Free)
    {p : Nat} (hhold : s.queueL2.HoldsAt p s.cpu.currReq) (hstate : s.cpu.state = .waiting) :
    ∃ n', Stage s n' ∧ n' < 400 * s.cpu.unread.length + 200 := by
  have hL2 := hs.ringL2.size_le
  have hMemSize := hs.ringMem.size_le
  have hWB := hs.ringWB.size_le
  have hlt := hhold.lt
  rw [hs.capL2] at hL2
  rw [hs.capMem] at hMemSize
  rw [hs.capWB] at hWB
  exact ⟨_, .waitL2 hstate hdone hhold rfl hMem, by omega⟩

/-- The CPU tries again to put its load into the L2 queue. -/
theorem Stage.retryL2 (hs : Sound lines s) (hst : Stage s n) (hstate : s.cpu.state = .stalledL2) :
    ∃ n', Keeps lines s s.retryL2 n n' ∧ Full s.retryL2 := by
  have hinv := hst.inv
  rw [hstate] at hinv
  obtain ⟨hdone, hload, hL2, hMem, hn⟩ := hinv
  have hcpuLoad : s.cpu.currReq.isCpuLoad = true := by
    rw [Request.isCpuLoad, hs.follows.fromCPU, hload, Bool.and_self]
  cases hadd : s.queueL2.add s.dCache s.cpu.currReq s.currCycle with
  | mk ok queueL2 =>
    cases ok with
    | false =>
      -- the queue was full: the processor retries in the next cycle with the same bound
      have heq : s.retryL2 = s := by rw [Sim.retryL2, CPU.getRequest, hadd]
      have hfull := (MemQueue.add_eq_false hs.ringL2 (congrArg Prod.fst hadd)).1
      rw [heq]
      refine ⟨n, ⟨hs, hst, Nat.le_refl _, fun _ => rfl⟩, fun _ => hfull.trans hs.capL2, ?_⟩
      intro h
      rw [hstate] at h
      cases h
    | true =>
      -- the load is accepted and the processor waits for it, behind what the queue already held
      have heq : s.retryL2 = { s with
          queueL2 := (s.queueL2.add s.dCache s.cpu.currReq s.currCycle).2
          cpu := s.cpu.setStatus .waiting } := by
        rw [Sim.retryL2, CPU.getRequest, hadd]
      obtain ⟨hwf, hcap, -⟩ := MemQueue.add_size hs.ringL2 s.dCache s.cpu.currReq s.currCycle
      obtain ⟨p, hp⟩ := hL2.add_cpuLoad hs.ringL2 hcpuLoad (congrArg Prod.fst hadd)
      have hs' : Sound lines s.retryL2 := by
        rw [heq]
        refine ⟨hs.follows.same (CPU.same_setStatus s.cpu _), hwf, hcap.trans hs.capL2,
          hs.ringMem, hs.capMem, hs.ringWB, hs.capWB, ?_, hs.stores⟩
        exact MemQueue.forall_add (Q := fun r => r.fromCPU = true → r.isCpuLoad = true)
          hs.ringL2 s.dCache s.currCycle hs.loads fun _ => hcpuLoad
      obtain ⟨n', hst', hlt⟩ := Stage.enterL2 hs' (by rw [heq]; exact hdone)
        (by rw [heq]; exact hMem) (by rw [heq]; exact hp) (by rw [heq]; rfl)
      have hlt' : n' < 400 * s.cpu.unread.length + 200 := by
        rw [heq] at hlt
        exact hlt
      refine ⟨n', ⟨hs', hst', by omega, fun h => absurd h (by omega)⟩, ?_, ?_⟩
      all_goals intro h; rw [heq] at h; cases h

/-- What happens to a request that is issued. -/
theorem issueReady_cases (s : Sim σ) : ∃ pf dCache nRequestsL2,
    (s.issueReady P = { s with
        cpu := s.issued.completeRequest s.currCycle none
        pf := pf
        dCache := dCache }) ∨
    (s.issued.currReq.load = true ∧
      (s.queueL2.add s.dCache s.issued.currReq s.currCycle).1 = true ∧
      s.issueReady P = { s with
        cpu := s.issued.setStatus .waiting
        queueL2 := (s.queueL2.add s.dCache s.issued.currReq s.currCycle).2
        pf := pf
        nRequestsL2 := nRequestsL2 }) ∨
    (s.issued.currReq.load = true ∧
      (s.queueL2.add s.dCache s.issued.currReq s.currCycle).1 = false ∧
      s.issueReady P = { s with
        cpu := s.issued.setStatus .stalledL2
        pf := pf
        nRequestsL2 := nRequestsL2 }) ∨
    (s.issued.currReq.load = false ∧
      s.issueReady P = { s with
        cpu := s.issued.completeRequest s.currCycle none
        writeBuffer := (s.writeBuffer.add s.dCache s.issued.currReq s.currCycle).2
        pf := pf
        nRequestsL2 := nRequestsL2 }) ∨
    (s.issued.currReq.load = false ∧
      (s.writeBuffer.add s.dCache s.issued.currReq s.currCycle).1 = false ∧
      s.issueReady P = { s with
        cpu := s.issued.setStatus .stalledWB
        pf := pf
        nRequestsL2 := nRequestsL2 }) := by
  rw [issueReady_eq]
  cases s.dCache.check s.cpu.currReq.addr s.cpu.currReq.load with
  | true => exact ⟨_, _, 0, Or.inl rfl⟩
  | false =>
    cases hload : s.issued.currReq.load with
    | true =>
      cases hadd : s.queueL2.add s.dCache s.issued.currReq s.currCycle with
      | mk ok queueL2 =>
        cases ok with
        | true => exact ⟨_, s.dCache, _, Or.inr (Or.inl ⟨rfl, rfl, rfl⟩)⟩
        | false => exact ⟨_, s.dCache, _, Or.inr (Or.inr (Or.inl ⟨rfl, rfl, rfl⟩))⟩
    | false =>
      cases hadd : s.writeBuffer.add s.dCache s.issued.currReq s.currCycle with
      | mk ok writeBuffer =>
        cases ok with
        | true => exact ⟨_, s.dCache, _, Or.inr (Or.inr (Or.inr (Or.inl ⟨rfl, rfl⟩)))⟩
        | false => exact ⟨_, s.dCache, _, Or.inr (Or.inr (Or.inr (Or.inr ⟨rfl, rfl, rfl⟩)))⟩

/-- The CPU has a request ready. -/
theorem Stage.issueReady (hs : Sound lines s) (hdone : s.cpu.done = false) (hL2 : s.queueL2.Free)
    (hMem : s.queueMem.Free) :
    ∃ n', Sound lines (s.issueReady P) ∧ Stage (s.issueReady P) n' ∧
      n' < 400 * (s.cpu.unread.length + 1) ∧ Full (s.issueReady P) := by
  have hsame : s.cpu.SameRequest s.issued := ⟨rfl, rfl, rfl, rfl, rfl, rfl, rfl⟩
  have hfollows := hs.follows.same hsame
  obtain ⟨hidle, hrem⟩ := CPU.completeRequest_remaining (show s.issued.done = false from hdone)
    s.currCycle none
  have hcompleted : (s.issued.completeRequest s.currCycle none).Follows lines :=
    hfollows.completeRequest hdone _ fun r h => by cases h
  have hremLt : 400 * (s.issued.completeRequest s.currCycle none).remaining <
      400 * (s.cpu.unread.length + 1) := by
    rw [hrem, hsame.unread]
    omega
  have hsizeL2 := hs.ringL2.size_le
  have hsizeMem := hs.ringMem.size_le
  have hsizeWB := hs.ringWB.size_le
  rw [hs.capL2] at hsizeL2
  rw [hs.capMem] at hsizeMem
  rw [hs.capWB] at hsizeWB
  obtain ⟨pf, dCache, nRequestsL2, heq | ⟨hload, hadd, heq⟩ | ⟨hload, hadd, heq⟩ | ⟨hload, heq⟩ |
    ⟨hload, hadd, heq⟩⟩ := issueReady_cases P s
  · -- a hit in the D-cache
    rw [heq]
    refine ⟨_, ⟨hcompleted, hs.ringL2, hs.capL2, hs.ringMem, hs.capMem, hs.ringWB, hs.capWB,
      hs.loads, hs.stores⟩, .idle hidle hL2 hMem, hremLt, ?_, ?_⟩
    all_goals intro h; exact absurd (hidle.symm.trans h) (by simp)
  · -- a load that goes to the L2 queue
    have hcpuLoad : s.issued.currReq.isCpuLoad = true := by
      rw [Request.isCpuLoad, hfollows.fromCPU, hload, Bool.and_self]
    obtain ⟨hwf, hcap, -⟩ := MemQueue.add_size hs.ringL2 s.dCache s.issued.currReq s.currCycle
    obtain ⟨p, hp⟩ := hL2.add_cpuLoad hs.ringL2 hcpuLoad hadd
    have hloads := MemQueue.forall_add (Q := fun r => r.fromCPU = true → r.isCpuLoad = true)
      hs.ringL2 s.dCache s.currCycle hs.loads fun _ => hcpuLoad
    have hs' : Sound lines (s.issueReady P) := by
      rw [heq]
      exact ⟨hfollows.same (CPU.same_setStatus s.issued .waiting), hwf, hcap.trans hs.capL2,
        hs.ringMem, hs.capMem, hs.ringWB, hs.capWB, hloads, hs.stores⟩
    obtain ⟨n', hst', hlt⟩ := Stage.enterL2 hs' (by rw [heq]; exact hdone)
      (by rw [heq]; exact hMem) (by rw [heq]; exact hp) (by rw [heq]; rfl)
    have hlt' : n' < 400 * s.cpu.unread.length + 200 := by
      rw [heq] at hlt
      exact hlt
    refine ⟨n', hs', hst', by omega, ?_, ?_⟩
    all_goals intro h; rw [heq] at h; cases h
  · -- the L2 queue is full
    have hfull := (MemQueue.add_eq_false hs.ringL2 hadd).1
    rw [heq]
    refine ⟨_, ⟨hfollows.same (CPU.same_setStatus s.issued .stalledL2), hs.ringL2, hs.capL2,
      hs.ringMem, hs.capMem, hs.ringWB, hs.capWB, hs.loads, hs.stores⟩,
      .stalledL2 rfl hdone hload hL2 hMem, ?_, fun _ => hfull.trans hs.capL2, ?_⟩
    · show 400 * s.cpu.unread.length + 200 + (2 * s.queueL2.ring.size +
        2 * s.writeBuffer.ring.size + s.queueMem.ring.size) < _
      omega
    · intro h
      cases h
  · -- a store that goes to the write buffer
    obtain ⟨hwf, hcap, -⟩ := MemQueue.add_size hs.ringWB s.dCache s.issued.currReq s.currCycle
    have hstore : s.issued.currReq.isCpuLoad = false := by
      rw [Request.isCpuLoad, hload, Bool.and_false]
    have hstores := MemQueue.forall_add (Q := fun r => r.isCpuLoad = false) hs.ringWB s.dCache
      s.currCycle hs.stores hstore
    rw [heq]
    refine ⟨_, ⟨hcompleted, hs.ringL2, hs.capL2, hs.ringMem, hs.capMem, hwf, hcap.trans hs.capWB,
      hs.loads, hstores⟩, .idle hidle hL2 hMem, hremLt, ?_, ?_⟩
    all_goals intro h; exact absurd (hidle.symm.trans h) (by simp)
  · -- the write buffer is full
    have hfull := (MemQueue.add_eq_false hs.ringWB hadd).1
    rw [heq]
    refine ⟨_, ⟨hfollows.same (CPU.same_setStatus s.issued .stalledWB), hs.ringL2, hs.capL2,
      hs.ringMem, hs.capMem, hs.ringWB, hs.capWB, hs.loads, hs.stores⟩,
      .stalledWB rfl hdone hload hL2 hMem, ?_, ?_, fun _ => hfull.trans hs.capWB⟩
    · show 400 * s.cpu.unread.length + 200 + s.writeBuffer.ring.size < _
      omega
    · intro h
      cases h

/-- Between the parts of the loop the CPU is never about to issue a request. -/
theorem Stage.not_ready (hst : Stage s n) : s.cpu.state ≠ .ready := by
  intro h
  have hinv := hst.inv
  rw [h] at hinv
  exact hinv

/-- The first part of the loop. The CPU gets to its request as soon as it is ready. -/
theorem Stage.issue (hs : Sound lines s) (hst : Stage s n) (hdone : s.cpu.done = false) :
    ∃ n', Keeps lines s (s.issue P) n n' ∧ Full (s.issue P) ∧
      (s.cpu.state = .idle → s.cpu.readyAt ≤ s.currCycle → n' < n) := by
  have hready := hst.not_ready
  by_cases hnow : s.cpu.state = .idle ∧ s.cpu.readyAt ≤ s.currCycle
  · -- the request is issued in this pass
    have hinv := hst.inv
    rw [hnow.1] at hinv
    obtain ⟨hL2, hMem, rfl⟩ := hinv
    have heq : s.issue P =
        Sim.issueReady P { s with cpu := { s.cpu with state := .ready } } := by
      simp only [Sim.issue, CPU.getStatus, if_pos hnow]
    have hrem : s.cpu.remaining = s.cpu.unread.length + 1 := by
      rw [CPU.remaining, hdone]
      rfl
    have hs' : Sound lines { s with cpu := { s.cpu with state := .ready } } :=
      ⟨hs.follows.same ⟨rfl, rfl, rfl, rfl, rfl, rfl, rfl⟩, hs.ringL2, hs.capL2, hs.ringMem,
        hs.capMem, hs.ringWB, hs.capWB, hs.loads, hs.stores⟩
    obtain ⟨n', hsound, hst', hlt, hfull⟩ := Stage.issueReady P hs' hdone hL2 hMem
    have hlt' : n' < 400 * s.cpu.remaining := by
      rw [hrem]
      exact hlt
    rw [heq]
    exact ⟨n', ⟨hsound, hst', Nat.le_of_lt hlt', fun h => absurd h (by omega)⟩, hfull,
      fun _ _ => hlt'⟩
  · have hstatus : s.cpu.getStatus s.currCycle = (s.cpu.state, s.cpu) := by
      rw [CPU.getStatus, if_neg hnow]
    have hnot : s.cpu.state = .idle → s.cpu.readyAt ≤ s.currCycle → ∀ n', n' < n := by
      intro h h'
      exact absurd ⟨h, h'⟩ hnow
    cases hstate : s.cpu.state with
    | ready => exact absurd hstate hready
    | idle =>
      have heq : s.issue P = s.prefetch P := by
        simp only [Sim.issue, hstatus, hstate]
      obtain ⟨hsound, ⟨n', hle, hst'⟩, hcpu, -⟩ :=
        hst.prefetch P hs (by rw [hstate]; simp)
      rw [heq]
      refine ⟨n', ⟨hsound, hst', hle, fun _ => by rw [hcpu]⟩, ⟨?_, ?_⟩,
        fun _ h => hnot hstate h n'⟩
      all_goals intro h; rw [hcpu, hstate] at h; cases h
    | waiting =>
      have heq : s.issue P = s.prefetch P := by
        simp only [Sim.issue, hstatus, hstate]
      obtain ⟨hsound, ⟨n', hle, hst'⟩, hcpu, -⟩ :=
        hst.prefetch P hs (by rw [hstate]; simp)
      rw [heq]
      refine ⟨n', ⟨hsound, hst', hle, fun _ => by rw [hcpu]⟩, ⟨?_, ?_⟩, ?_⟩
      all_goals intro h
      · rw [hcpu, hstate] at h; cases h
      · rw [hcpu, hstate] at h; cases h
      · cases h
    | stalledL2 =>
      have heq : s.issue P = s.retryL2 := by
        simp only [Sim.issue, hstatus, hstate]
      obtain ⟨n', hkeeps, hfull⟩ := hst.retryL2 hs hstate
      rw [heq]
      exact ⟨n', hkeeps, hfull, fun h => by cases h⟩
    | stalledWB =>
      have heq : s.issue P = (s.prefetch P).retryWB := by
        simp only [Sim.issue, hstatus, hstate]
      obtain ⟨hsound, ⟨n₁, hle₁, hst₁⟩, hcpu, -⟩ :=
        hst.prefetch P hs (by rw [hstate]; simp)
      obtain ⟨n', ⟨hsound', hst', hle, hsame⟩, hfull⟩ := hst₁.retryWB hsound (by rw [hcpu, hstate])
      rw [heq]
      refine ⟨n', ⟨hsound', hst', hle.trans hle₁, fun h => ?_⟩, hfull, fun h => by cases h⟩
      rw [hsame (by omega), hcpu]

/-! ## One pass through the loop -/

theorem issue_currCycle (s : Sim σ) : (s.issue P).currCycle = s.currCycle := by
  have hprefetch : ∀ t : Sim σ, (t.prefetch P).currCycle = t.currCycle := by
    intro t
    obtain ⟨_, _, _, heq, -⟩ := prefetch_cases P t
    rw [heq]
  have hretryWB : ∀ t : Sim σ, t.retryWB.currCycle = t.currCycle := by
    intro t
    rw [retryWB]
    split <;> rfl
  unfold issue
  dsimp only
  split
  · obtain ⟨_, _, _, heq | ⟨-, -, heq⟩ | ⟨-, -, heq⟩ | ⟨-, heq⟩ | ⟨-, -, heq⟩⟩ :=
      issueReady_cases P { s with cpu := (s.cpu.getStatus s.currCycle).2 }
    all_goals rw [heq]
  · rw [hprefetch]
  · rw [hprefetch]
  · rw [hretryWB, hprefetch]
  · rw [retryL2]
    split <;> rfl

theorem serviceL2_currCycle (s : Sim σ) : s.serviceL2.currCycle = s.currCycle := by
  obtain ⟨-, heq⟩ | ⟨-, ⟨-, _, heq⟩ | ⟨-, _, heq⟩ | ⟨-, heq⟩ | ⟨-, heq⟩⟩ := serviceL2_cases s
  all_goals rw [heq]

theorem serviceMem_currCycle (s : Sim σ) : s.serviceMem.currCycle = s.currCycle := by
  obtain ⟨-, heq⟩ | ⟨-, _, _, ⟨-, heq⟩ | ⟨-, heq⟩⟩ := serviceMem_cases s
  all_goals rw [heq]

theorem serviceWB_currCycle (s : Sim σ) : s.serviceWB.currCycle = s.currCycle := by
  obtain ⟨-, heq⟩ | ⟨-, ⟨_, heq⟩ | ⟨-, heq⟩ | ⟨-, heq⟩⟩ := serviceWB_cases s
  all_goals rw [heq]

/-- Only the CPU and the queues matter. -/
theorem Stage.congr (hst : Stage s n) (hcpu : s'.cpu = s.cpu) (hL2 : s'.queueL2 = s.queueL2)
    (hMem : s'.queueMem = s.queueMem) (hWB : s'.writeBuffer = s.writeBuffer) : Stage s' n := by
  cases hst with
  | idle h₁ h₂ h₃ =>
    rw [← hcpu] at h₁ ⊢
    exact .idle h₁ (hL2 ▸ h₂) (hMem ▸ h₃)
  | stalledL2 h₁ h₂ h₃ h₄ h₅ =>
    rw [← hcpu] at h₁ h₂ h₃ ⊢
    rw [← hL2] at h₄ ⊢
    rw [← hMem] at h₅ ⊢
    rw [← hWB]
    exact .stalledL2 h₁ h₂ h₃ h₄ h₅
  | stalledWB h₁ h₂ h₃ h₄ h₅ =>
    rw [← hcpu] at h₁ h₂ h₃ ⊢
    rw [← hWB]
    exact .stalledWB h₁ h₂ h₃ (hL2 ▸ h₄) (hMem ▸ h₅)
  | waitL2 h₁ h₂ h₃ h₄ h₅ =>
    rw [← hcpu] at h₁ h₂ h₄ ⊢
    rw [← hMem] at h₅ ⊢
    rw [← hWB]
    exact .waitL2 h₁ h₂ (hL2 ▸ h₃) h₄ h₅
  | waitMem h₁ h₂ h₃ h₄ h₅ =>
    rw [← hcpu] at h₁ h₂ h₅ ⊢
    exact .waitMem h₁ h₂ (hL2 ▸ h₃) (hMem ▸ h₄) h₅

/-- In the last cycle before `curr_cycle` goes round, the front of every queue is ready. -/
theorem frontReady_last {q : MemQueue} (h : 0 < q.ring.size) :
    q.frontReady (BitVec.allOnes 32) = true := by
  rw [MemQueue.frontReady, Bool.and_eq_true, decide_eq_true_eq, decide_eq_true_eq]
  refine ⟨h, ?_⟩
  rw [BitVec.le_def, BitVec.toNat_allOnes]
  have := (q.ring.slots q.ring.front).readyTime.isLt
  omega

theorem serviceL2_writeBuffer (s : Sim σ) : s.serviceL2.writeBuffer = s.writeBuffer := by
  obtain ⟨-, heq⟩ | ⟨-, ⟨-, _, heq⟩ | ⟨-, _, heq⟩ | ⟨-, heq⟩ | ⟨-, heq⟩⟩ := serviceL2_cases s
  all_goals rw [heq]

theorem serviceMem_writeBuffer (s : Sim σ) : s.serviceMem.writeBuffer = s.writeBuffer := by
  obtain ⟨-, heq⟩ | ⟨-, _, _, ⟨-, heq⟩ | ⟨-, heq⟩⟩ := serviceMem_cases s
  all_goals rw [heq]

/-- A CPU that waits has its request in one of the two queues. -/
theorem Stage.waiting_pos (hst : Stage s n) (hstate : s.cpu.state = .waiting) :
    0 < s.queueL2.ring.size ∨ 0 < s.queueMem.ring.size := by
  have hinv := hst.inv
  rw [hstate] at hinv
  obtain ⟨-, p, r, -, ⟨hL2, -⟩ | ⟨-, hMem⟩⟩ := hinv
  · exact Or.inl (Nat.zero_lt_of_lt hL2.lt)
  · exact Or.inr (Nat.zero_lt_of_lt hMem.lt)

/-- Service of the two queues of loads. In the last cycle a CPU that waits for one of them
    comes closer to its request, and the memory queue has room afterwards. -/
theorem Stage.serviceLoads (hs : Sound lines s) (hst : Stage s n)
    (hfull : s.cpu.state = .stalledL2 → s.queueL2.ring.size = 20) :
    ∃ n', Keeps lines s s.serviceL2.serviceMem n n' ∧
      (s.currCycle = BitVec.allOnes 32 →
        s.serviceL2.serviceMem.queueMem.ring.size < 10 ∧
        (s.cpu.state = .stalledL2 ∨ s.cpu.state = .waiting → n' < n)) := by
  obtain ⟨n₁, ⟨hs₁, hst₁, hle₁, hstate₁⟩, hL2⟩ := hst.serviceL2 hs
  obtain ⟨n₂, ⟨hs₂, hst₂, hle₂, hstate₂⟩, hMem⟩ := hst₁.serviceMem hs₁
  refine ⟨n₂, ⟨hs₂, hst₂, hle₂.trans hle₁, ?_⟩, ?_⟩
  · intro h
    exact (hstate₂ (by omega)).trans (hstate₁ (by omega))
  intro hlast
  have hc₁ : s.serviceL2.currCycle = BitVec.allOnes 32 := (serviceL2_currCycle s).trans hlast
  have hle := hs₁.ringMem.size_le
  rw [hs₁.capMem] at hle
  by_cases hpos : 0 < s.serviceL2.queueMem.ring.size
  · obtain ⟨hsize, hprog⟩ := hMem (by rw [hc₁]; exact frontReady_last hpos)
    refine ⟨by omega, ?_⟩
    intro hor
    by_contra hge
    have hsame := hstate₁ (by omega)
    have := hprog (by rw [hsame]; exact hor)
    omega
  · -- the memory queue is empty, so the L2 queue has moved on
    have hempty : s.serviceL2.serviceMem = s.serviceL2 := by
      obtain ⟨-, heq⟩ | ⟨hr, -⟩ := serviceMem_cases s.serviceL2
      · exact heq
      · exact absurd (frontReady_pos hr) hpos
    refine ⟨by rw [hempty]; omega, ?_⟩
    intro hor
    have hposL2 : 0 < s.queueL2.ring.size := by
      cases hor with
      | inl h => rw [hfull h]; omega
      | inr h =>
        cases hst.waiting_pos h with
        | inl h' => exact h'
        | inr h' =>
          by_contra hq
          have hno : s.serviceL2 = s := by
            obtain ⟨-, heq⟩ | ⟨hr, -⟩ := serviceL2_cases s
            · exact heq
            · exact absurd (frontReady_pos hr) hq
          rw [hno] at hpos
          exact hpos h'
    cases hL2 (by rw [hlast]; exact frontReady_last hposL2) hor with
    | inl hlt => omega
    | inr hpos' => exact absurd hpos' hpos

/-- Service of all queues. In the last cycle a CPU that is not idle comes closer to its
    request. -/
theorem Stage.services (hs : Sound lines s) (hst : Stage s n) (hfull : Full s) :
    ∃ n', Sound lines s.serviceL2.serviceMem.countMem.serviceWB ∧
      Stage s.serviceL2.serviceMem.countMem.serviceWB n' ∧ n' ≤ n ∧
      (s.currCycle = BitVec.allOnes 32 → s.cpu.state ≠ .idle → n' < n) := by
  obtain ⟨n₁, ⟨hs₁, hst₁, hle₁, hstate₁⟩, hlast₁⟩ := hst.serviceLoads hs hfull.1
  have hs₁' : Sound lines s.serviceL2.serviceMem.countMem :=
    ⟨hs₁.follows, hs₁.ringL2, hs₁.capL2, hs₁.ringMem, hs₁.capMem, hs₁.ringWB, hs₁.capWB,
      hs₁.loads, hs₁.stores⟩
  have hst₁' : Stage s.serviceL2.serviceMem.countMem n₁ := hst₁.congr rfl rfl rfl rfl
  obtain ⟨n₂, ⟨hs₂, hst₂, hle₂, -⟩, hWB⟩ := hst₁'.serviceWB hs₁'
  refine ⟨n₂, hs₂, hst₂, by omega, ?_⟩
  -- in the last cycle of the counter every queue has its front ready, so something moves
  intro hlast hidle
  obtain ⟨hroom, hprog⟩ := hlast₁ hlast
  by_contra hge
  have hsame : s.serviceL2.serviceMem.cpu.state = s.cpu.state := hstate₁ (by omega)
  cases hstate : s.cpu.state with
  | idle => exact hidle hstate
  | stalledL2 => have := hprog (Or.inl hstate); omega
  | waiting => have := hprog (Or.inr hstate); omega
  | ready => exact absurd hstate hst.not_ready
  | stalledWB =>
    have hpos : 0 < s.serviceL2.serviceMem.writeBuffer.ring.size := by
      rw [serviceMem_writeBuffer, serviceL2_writeBuffer, hfull.2 hstate]
      omega
    have hc : s.serviceL2.serviceMem.currCycle = BitVec.allOnes 32 := by
      rw [serviceMem_currCycle, serviceL2_currCycle, hlast]
    have hready : s.serviceL2.serviceMem.writeBuffer.frontReady
        s.serviceL2.serviceMem.currCycle = true := by
      rw [hc]
      exact frontReady_last hpos
    have := hWB hready hroom (hsame.trans hstate)
    omega

/-- `curr_cycle` itself does not matter. -/
theorem Stage.nextCycle (hs : Sound lines s) (hst : Stage s n) :
    Sound lines { s with currCycle := s.currCycle + 1 } ∧
    Stage { s with currCycle := s.currCycle + 1 } n :=
  ⟨⟨hs.follows, hs.ringL2, hs.capL2, hs.ringMem, hs.capMem, hs.ringWB, hs.capWB, hs.loads,
    hs.stores⟩, hst.congr rfl rfl rfl rfl⟩

/-- One pass through the loop; in the last cycle something moves on. -/
theorem Stage.cycle (hs : Sound lines s) (hst : Stage s n) (hdone : s.cpu.done = false) :
    ∃ n', Sound lines (s.cycle P) ∧ Stage (s.cycle P) n' ∧ n' ≤ n ∧
      (s.currCycle = BitVec.allOnes 32 → n' < n) := by
  obtain ⟨n₁, ⟨hs₁, hst₁, hle₁, hstate₁⟩, hfull, hidle⟩ := hst.issue P hs hdone
  obtain ⟨n₂, hs₂, hst₂, hle₂, hlast₂⟩ := hst₁.services hs₁ hfull
  obtain ⟨hs₃, hst₃⟩ := hst₂.nextCycle hs₂
  refine ⟨n₂, hs₃, hst₃, hle₂.trans hle₁, ?_⟩
  intro hlast
  by_contra hge
  have hsame := hstate₁ (by omega)
  have hnotIdle : s.cpu.state ≠ .idle := by
    intro h
    have hle : s.cpu.readyAt ≤ s.currCycle := by
      rw [hlast, BitVec.le_def, BitVec.toNat_allOnes]
      have := s.cpu.readyAt.isLt
      omega
    have := hidle h hle
    omega
  have := hlast₂ ((issue_currCycle P s).trans hlast) (by rw [hsame]; exact hnotIdle)
  omega

/-! ## Whole runs -/

theorem sound_new (lines : List TraceLine) (pf : σ) : Sound lines (Sim.new lines pf) := by
  have hwf : ∀ (capacity : Nat) (latency : BitVec 32) (pipelined write : Bool), 0 < capacity →
      (MemQueue.new capacity latency pipelined write).ring.WF := by
    intro capacity latency pipelined write hpos
    exact ⟨hpos, (Nat.zero_mod capacity).symm, Nat.zero_le _⟩
  refine ⟨CPU.follows_new lines, hwf _ _ _ _ (by decide), rfl, hwf _ _ _ _ (by decide), rfl,
    hwf _ _ _ _ (by decide), rfl, ?_, ?_⟩
  all_goals intro e he; cases he

theorem stage_new (lines : List TraceLine) (pf : σ) : ∃ n, Stage (Sim.new lines pf) n := by
  refine ⟨_, .idle ?_ ?_ ?_⟩
  · cases lines <;> rfl
  · intro e he
    cases he
  · intro e he
    cases he

theorem Stage.run (hs : Sound lines s) (hst : Stage s n) (k : Nat) :
    ∃ n', Sound lines (s.run P k) ∧ Stage (s.run P k) n' := by
  induction k generalizing s n with
  | zero => exact ⟨n, hs, hst⟩
  | succ k ih =>
    rw [Sim.run]
    split
    · exact ⟨n, hs, hst⟩
    · rename_i hdone
      obtain ⟨n', hs', hst', -⟩ := hst.cycle P hs (by simpa [CPU.isDone] using hdone)
      exact ih hs' hst'

theorem run_succ (hdone : s.cpu.done = false) (k : Nat) :
    s.run P (k + 1) = (s.cycle P).run P k := by
  rw [Sim.run, if_neg (by rw [CPU.isDone, hdone]; simp)]

/-- The trace ends: the number of the stage becomes smaller with every last cycle, and the
    next last cycle is at most `2 ^ 32` cycles away. -/
theorem Stage.terminates (hs : Sound lines s) (hst : Stage s n) :
    ∃ k, (s.run P k).cpu.done = true := by
  induction n using Nat.strong_induction_on generalizing s with
  | _ n ih =>
    -- `d` is the number of cycles to the last cycle
    have hcycles : ∀ (d : Nat) (t : Sim σ) (m : Nat), Sound lines t → Stage t m → m ≤ n →
        t.currCycle.toNat + d + 1 = 2 ^ 32 → ∃ k, (t.run P k).cpu.done = true := by
      intro d
      induction d with
      | zero =>
        intro t m ht hm hle hd
        cases hdone : t.cpu.done with
        | true => exact ⟨0, hdone⟩
        | false =>
          obtain ⟨m', ht', hm', -, hlt⟩ := hm.cycle P ht hdone
          have hlast : t.currCycle = BitVec.allOnes 32 := by
            apply BitVec.eq_of_toNat_eq
            rw [BitVec.toNat_allOnes]
            omega
          obtain ⟨k, hk⟩ := ih m' (by have := hlt hlast; omega) ht' hm'
          exact ⟨k + 1, by rw [run_succ P hdone]; exact hk⟩
      | succ d ihd =>
        intro t m ht hm hle hd
        cases hdone : t.cpu.done with
        | true => exact ⟨0, hdone⟩
        | false =>
          obtain ⟨m', ht', hm', hle', -⟩ := hm.cycle P ht hdone
          have hnext : (t.cycle P).currCycle = t.currCycle + 1 := by
            show ((t.issue P).serviceL2.serviceMem.countMem.serviceWB).currCycle + 1 = _
            rw [serviceWB_currCycle]
            show (t.issue P).serviceL2.serviceMem.currCycle + 1 = _
            rw [serviceMem_currCycle, serviceL2_currCycle, issue_currCycle]
          obtain ⟨k, hk⟩ := ihd (t.cycle P) m' ht' hm' (hle'.trans hle) (by
            rw [hnext, BitVec.toNat_add, Nat.mod_eq_of_lt]
            · show t.currCycle.toNat + 1 + d + 1 = _
              omega
            · show t.currCycle.toNat + 1 < _
              omega)
          exact ⟨k + 1, by rw [run_succ P hdone]; exact hk⟩
    have hlt := s.currCycle.isLt
    exact hcycles (2 ^ 32 - 1 - s.currCycle.toNat) s n hs hst (Nat.le_refl n) (by omega)

/-- What holds at the start of a pass through the loop. -/
structure Orderly (lines : List TraceLine) (s : Sim σ) : Prop where
  /-- The CPU waits exactly when one load of the CPU is in the two queues, and that is its
      current request. -/
  waiting : s.cpu.state = .waiting →
    ∃ r, s.queueL2.cpuLoads ++ s.queueMem.cpuLoads = [r] ∧ r.Same s.cpu.currReq
  notWaiting : s.cpu.state ≠ .waiting → s.queueL2.cpuLoads ++ s.queueMem.cpuLoads = []
  /-- The calls of `completeRequest` are for the first lines of the trace, in order. -/
  inOrder : ∀ (i : Nat) (c : Completion), s.cpu.completions[i]? = some c →
    ∃ line, lines[i]? = some line ∧ line.Matches c.request
  /-- The current request is the next line. -/
  current : s.cpu.done = false →
    ∃ line, lines[s.cpu.completions.length]? = some line ∧ line.Matches s.cpu.currReq
  /-- What completes a request on leaving a queue is that request, a load of the CPU. -/
  served : ∀ c ∈ s.cpu.completions, ∀ r, c.served = some r →
    r.isCpuLoad = true ∧ r.Same c.request

theorem Stage.orderly (hs : Sound lines s) (hst : Stage s n) : Orderly lines s := by
  have hfollows := hs.follows
  refine ⟨?_, ?_, hfollows.past, hfollows.current, hfollows.served⟩
  · intro hstate
    have hinv := hst.inv
    rw [hstate] at hinv
    obtain ⟨-, p, r, hsame, ⟨hL2, hMem⟩ | ⟨hL2, hMem⟩⟩ := hinv
    · exact ⟨r, by rw [hL2.cpuLoads, hMem.cpuLoads]; rfl, hsame⟩
    · exact ⟨r, by rw [hL2.cpuLoads, hMem.cpuLoads]; rfl, hsame⟩
  · intro hstate
    cases hst with
    | idle _ hL2 hMem => rw [hL2.cpuLoads, hMem.cpuLoads]; rfl
    | stalledL2 _ _ _ hL2 hMem => rw [hL2.cpuLoads, hMem.cpuLoads]; rfl
    | stalledWB _ _ _ hL2 hMem => rw [hL2.cpuLoads, hMem.cpuLoads]; rfl
    | waitL2 h => exact absurd h hstate
    | waitMem h => exact absurd h hstate

/-- For every trace and every prefetcher: every pass of the loop starts in order, and the loop
    ends, with one call of `completeRequest` for each line of the trace. -/
theorem run_completes (P : Prefetcher σ) (pf : σ) (lines : List TraceLine) :
    (∀ k, Orderly lines ((Sim.new lines pf).run P k)) ∧
    ∃ k, ((Sim.new lines pf).run P k).cpu.isDone = true ∧
      ((Sim.new lines pf).run P k).cpu.completions.length = lines.length := by
  obtain ⟨n, hst⟩ := stage_new lines pf
  have hs := sound_new lines pf
  constructor
  · intro k
    obtain ⟨n', hs', hst'⟩ := hst.run P hs k
    exact hst'.orderly hs'
  · obtain ⟨k, hk⟩ := hst.terminates P hs
    obtain ⟨n', hs', -⟩ := hst.run P hs k
    refine ⟨k, hk, ?_⟩
    have hcount := hs'.follows.count
    rw [CPU.remaining, hk] at hcount
    exact hcount

end Sim

end CacheSim
