import Coursework.CacheSim.Simulator
import Coursework.CacheSim.Spec.MemQueue

/-!
# The current request, from the CPU to its completion

`Follows` relates the CPU to its trace: the calls of `completeRequest` so far are for the
first lines of the trace, in order, and the current request is the next line. `Stage` says
where the current request is. Its number counts what still has to happen before the trace
is done; every part of the loop keeps the stage, and none makes the number larger.

## Key results

- `Follows.completeRequest`: a completion is for the next line
- `Stage.issue`, `Stage.serviceL2`, `Stage.serviceMem`, `Stage.serviceWB`: the four parts of
  the loop
-/

namespace CacheSim

/-- `r` is the request `c`, up to the flag that `loadHitL2` changes while `c` waits. -/
def Request.Same (r c : Request) : Prop := { r with hitL2 := c.hitL2 } = c

/-- The request of a line of the trace. -/
structure TraceLine.Matches (line : TraceLine) (r : Request) : Prop where
  addr : r.addr = line.addr
  pc : r.pc = line.pc
  load : r.load = (line.ld == 'l')

namespace CPU

variable {cpu cpu' : CPU} {lines : List TraceLine}

/-- The number of lines that are not completed. -/
def remaining (cpu : CPU) : Nat := if cpu.done then 0 else cpu.unread.length + 1

/-- The CPU has completed the first lines of the trace, and works on the next one. -/
structure Follows (lines : List TraceLine) (cpu : CPU) : Prop where
  fromCPU : cpu.currReq.fromCPU = true
  count : cpu.completions.length + cpu.remaining = lines.length
  unread : cpu.unread = lines.drop (cpu.completions.length + 1)
  current : cpu.done = false →
    ∃ line, lines[cpu.completions.length]? = some line ∧ line.Matches cpu.currReq
  past : ∀ (i : Nat) (c : Completion), cpu.completions[i]? = some c →
    ∃ line, lines[i]? = some line ∧ line.Matches c.request
  served : ∀ c ∈ cpu.completions, ∀ r, c.served = some r →
    r.isCpuLoad = true ∧ r.Same c.request

/-- What the parts of the loop that complete nothing leave alone. -/
structure SameRequest (cpu cpu' : CPU) : Prop where
  unread : cpu'.unread = cpu.unread
  done : cpu'.done = cpu.done
  completions : cpu'.completions = cpu.completions
  fromCPU : cpu'.currReq.fromCPU = cpu.currReq.fromCPU
  addr : cpu'.currReq.addr = cpu.currReq.addr
  pc : cpu'.currReq.pc = cpu.currReq.pc
  load : cpu'.currReq.load = cpu.currReq.load

theorem SameRequest.refl (cpu : CPU) : SameRequest cpu cpu :=
  ⟨rfl, rfl, rfl, rfl, rfl, rfl, rfl⟩

theorem SameRequest.remaining (h : SameRequest cpu cpu') : cpu'.remaining = cpu.remaining := by
  rw [CPU.remaining, CPU.remaining, h.done, h.unread]

theorem Follows.same (h : Follows lines cpu) (hs : SameRequest cpu cpu') : Follows lines cpu' where
  fromCPU := hs.fromCPU.trans h.fromCPU
  count := by rw [hs.completions, hs.remaining]; exact h.count
  unread := by rw [hs.unread, hs.completions]; exact h.unread
  current := by
    intro hd
    obtain ⟨line, hline, hm⟩ := h.current (hs.done.symm.trans hd)
    exact ⟨line, by rw [hs.completions]; exact hline,
      hs.addr.trans hm.addr, hs.pc.trans hm.pc, hs.load.trans hm.load⟩
  past := by rw [hs.completions]; exact h.past
  served := by rw [hs.completions]; exact h.served

theorem same_setStatus (cpu : CPU) (state : CpuState) : SameRequest cpu (cpu.setStatus state) :=
  ⟨rfl, rfl, rfl, rfl, rfl, rfl, rfl⟩

theorem same_loadHitL2 (cpu : CPU) (isHit : Bool) : SameRequest cpu (cpu.loadHitL2 isHit) :=
  ⟨rfl, rfl, rfl, rfl, rfl, rfl, rfl⟩

theorem same_storeHitL2 (cpu : CPU) (isHit : Bool) : SameRequest cpu (cpu.storeHitL2 isHit) := by
  rw [storeHitL2]
  split <;> exact ⟨rfl, rfl, rfl, rfl, rfl, rfl, rfl⟩

/-- Completing the current request leaves one line less. -/
theorem completeRequest_remaining (hd : cpu.done = false) (cycle : BitVec 32)
    (served : Option Request) :
    (cpu.completeRequest cycle served).state = .idle ∧
    (cpu.completeRequest cycle served).remaining = cpu.unread.length := by
  rw [completeRequest, readNextRequest]
  split
  · rename_i line rest hrest
    refine ⟨rfl, ?_⟩
    show (if cpu.done then 0 else rest.length + 1) = cpu.unread.length
    rw [hd, show cpu.unread = line :: rest from hrest]
    rfl
  · rename_i hnil
    refine ⟨rfl, ?_⟩
    rw [show cpu.unread = [] from hnil]
    rfl

/-- A completion is for the line after the last completed one. -/
theorem Follows.completeRequest (h : Follows lines cpu) (hd : cpu.done = false)
    (cycle : BitVec 32) {served : Option Request}
    (hserved : ∀ r, served = some r → r.isCpuLoad = true ∧ r.Same cpu.currReq) :
    Follows lines (cpu.completeRequest cycle served) := by
  obtain ⟨line, hline, hm⟩ := h.current hd
  have hrem : cpu.remaining = cpu.unread.length + 1 := by
    rw [remaining, hd]
    rfl
  have hcount := h.count
  have hcompl : (cpu.completeRequest cycle served).completions =
      cpu.completions ++ [⟨cpu.currReq, served⟩] := by
    rw [CPU.completeRequest, readNextRequest]
    split <;> rfl
  have hdrop : lines.drop (cpu.completions.length + 1) = cpu.unread := h.unread.symm
  refine ⟨?fromCPU, ?count, ?unread, ?current, ?past, ?leaving⟩
  case fromCPU =>
    rw [CPU.completeRequest, readNextRequest]
    split <;> exact h.fromCPU
  case count =>
    rw [(completeRequest_remaining hd cycle served).2, hcompl, List.length_append,
      List.length_singleton]
    omega
  case unread =>
    rw [hcompl, List.length_append, List.length_singleton, ← List.drop_drop, hdrop,
      CPU.completeRequest, readNextRequest]
    split
    · rename_i line' rest hrest
      rw [show cpu.unread = line' :: rest from hrest]
      rfl
    · rename_i hnil
      rw [show cpu.unread = [] from hnil]
      rfl
  case current =>
    rw [hcompl, List.length_append, List.length_singleton, CPU.completeRequest, readNextRequest]
    split
    · rename_i line' rest hrest
      intro _
      have hget : lines[cpu.completions.length + 1]? = some line' := by
        rw [← List.head?_drop, hdrop, show cpu.unread = line' :: rest from hrest]
        rfl
      exact ⟨line', hget, rfl, rfl, rfl⟩
    · intro hfalse
      cases hfalse
  case past =>
    intro i c hc
    rw [hcompl, List.getElem?_append] at hc
    split at hc
    · exact h.past i c hc
    · -- the completion that was just added
      rename_i hge
      have hlt := (List.getElem?_eq_some_iff.mp hc).1
      rw [List.length_singleton] at hlt
      have hi : i = cpu.completions.length := by omega
      rw [hi, Nat.sub_self, List.getElem?_cons_zero, Option.some.injEq] at hc
      rw [hi, ← hc]
      exact ⟨line, hline, hm⟩
  case leaving =>
    intro c hc r hr
    rw [hcompl, List.mem_append, List.mem_singleton] at hc
    cases hc with
    | inl hold => exact h.served c hold r hr
    | inr hnew =>
      rw [hnew] at hr ⊢
      exact hserved r hr

/-- The CPU before its first cycle. -/
theorem follows_new (lines : List TraceLine) : Follows lines (CPU.new lines) := by
  cases lines with
  | nil =>
    refine ⟨rfl, rfl, rfl, ?_, ?_, ?_⟩
    · intro h
      cases h
    · intro i c hc
      cases hc
    · intro c hc
      cases hc
  | cons line rest =>
    refine ⟨rfl, ?_, rfl, ?_, ?_, ?_⟩
    · show 0 + (rest.length + 1) = _
      rw [List.length_cons]
      omega
    · intro _
      exact ⟨line, rfl, rfl, rfl, rfl⟩
    · intro i c hc
      cases hc
    · intro c hc
      cases hc

end CPU

theorem Request.Same.hitL2 {r c : Request} (h : r.Same c) (isHit : Bool) :
    r.Same { c with hitL2 := isHit } := by
  rw [Request.Same] at h ⊢
  rw [← h]

namespace Sim

variable {σ : Type} {s s' : Sim σ} {lines : List TraceLine} {n : Nat}

/-- The CPU follows its trace, the queues are whole, the requests of the CPU in the L2 queue
    are loads and those in the write buffer are stores. -/
structure Sound (lines : List TraceLine) (s : Sim σ) : Prop where
  follows : s.cpu.Follows lines
  ringL2 : s.queueL2.ring.WF
  capL2 : s.queueL2.ring.capacity = 20
  ringMem : s.queueMem.ring.WF
  capMem : s.queueMem.ring.capacity = 10
  ringWB : s.writeBuffer.ring.WF
  capWB : s.writeBuffer.ring.capacity = 10
  loads : ∀ e ∈ s.queueL2.contents, e.request.fromCPU = true → e.request.isCpuLoad = true
  stores : ∀ e ∈ s.writeBuffer.contents, e.request.isCpuLoad = false

/-- Where the current request is. The number is larger the more is still to do: first by the
    lines that are left, then by how far the request has come, and then by what is in front
    of it. Whatever leaves the L2 queue or the write buffer may go to the memory queue, so it
    counts twice. -/
inductive Stage (s : Sim σ) : Nat → Prop
  | idle (hstate : s.cpu.state = .idle) (hL2 : s.queueL2.Free) (hMem : s.queueMem.Free) :
      Stage s (400 * s.cpu.remaining)
  | stalledL2 (hstate : s.cpu.state = .stalledL2) (hdone : s.cpu.done = false)
      (hload : s.cpu.currReq.load = true) (hL2 : s.queueL2.Free) (hMem : s.queueMem.Free) :
      Stage s (400 * s.cpu.unread.length + 200 + (2 * s.queueL2.ring.size +
        2 * s.writeBuffer.ring.size + s.queueMem.ring.size))
  | stalledWB (hstate : s.cpu.state = .stalledWB) (hdone : s.cpu.done = false)
      (hload : s.cpu.currReq.load = false) (hL2 : s.queueL2.Free) (hMem : s.queueMem.Free) :
      Stage s (400 * s.cpu.unread.length + 200 + s.writeBuffer.ring.size)
  | waitL2 {p : Nat} {r : Request} (hstate : s.cpu.state = .waiting) (hdone : s.cpu.done = false)
      (hL2 : s.queueL2.HoldsAt p r) (hsame : r.Same s.cpu.currReq) (hMem : s.queueMem.Free) :
      Stage s (400 * s.cpu.unread.length + 100 + (2 * p + 2 + 2 * s.writeBuffer.ring.size +
        s.queueMem.ring.size))
  | waitMem {p : Nat} {r : Request} (hstate : s.cpu.state = .waiting) (hdone : s.cpu.done = false)
      (hL2 : s.queueL2.Free) (hMem : s.queueMem.HoldsAt p r) (hsame : r.Same s.cpu.currReq) :
      Stage s (400 * s.cpu.unread.length + p + 1)

/-- What the stage says in each state of the CPU. -/
theorem Stage.inv (hst : Stage s n) :
    match s.cpu.state with
    | .idle => s.queueL2.Free ∧ s.queueMem.Free ∧ n = 400 * s.cpu.remaining
    | .ready => False
    | .stalledL2 => s.cpu.done = false ∧ s.cpu.currReq.load = true ∧ s.queueL2.Free ∧
      s.queueMem.Free ∧ n = 400 * s.cpu.unread.length + 200 + (2 * s.queueL2.ring.size +
        2 * s.writeBuffer.ring.size + s.queueMem.ring.size)
    | .stalledWB => s.cpu.done = false ∧ s.cpu.currReq.load = false ∧ s.queueL2.Free ∧
      s.queueMem.Free ∧ n = 400 * s.cpu.unread.length + 200 + s.writeBuffer.ring.size
    | .waiting => s.cpu.done = false ∧ ∃ p r, r.Same s.cpu.currReq ∧
      (s.queueL2.HoldsAt p r ∧ s.queueMem.Free ∨ s.queueL2.Free ∧ s.queueMem.HoldsAt p r) := by
  cases hst with
  | idle hstate hL2 hMem =>
    rw [hstate]
    exact ⟨hL2, hMem, rfl⟩
  | stalledL2 hstate hdone hload hL2 hMem =>
    rw [hstate]
    exact ⟨hdone, hload, hL2, hMem, rfl⟩
  | stalledWB hstate hdone hload hL2 hMem =>
    rw [hstate]
    exact ⟨hdone, hload, hL2, hMem, rfl⟩
  | waitL2 hstate hdone hL2 hsame hMem =>
    rw [hstate]
    exact ⟨hdone, _, _, hsame, Or.inl ⟨hL2, hMem⟩⟩
  | waitMem hstate hdone hL2 hMem hsame =>
    rw [hstate]
    exact ⟨hdone, _, _, hsame, Or.inr ⟨hL2, hMem⟩⟩

/-- A part of the loop that completes nothing: the current request stays, and everything in
    front of it stays or moves on. `a`, `b` and `c` are what moves on at least. -/
theorem Stage.move (hst : Stage s n) (s' : Sim σ) {a b c : Nat}
    (hcpu : s.cpu.SameRequest s'.cpu) (hstate : s'.cpu.state = s.cpu.state)
    (hsame : ∀ r : Request, r.Same s.cpu.currReq → r.Same s'.cpu.currReq)
    (hfreeL2 : s.queueL2.Free → s'.queueL2.Free) (hfreeMem : s.queueMem.Free → s'.queueMem.Free)
    (hholdL2 : ∀ p r, s.queueL2.HoldsAt p r → ∃ p', s'.queueL2.HoldsAt p' r ∧
      2 * p' + 2 * s'.writeBuffer.ring.size + s'.queueMem.ring.size + a ≤
        2 * p + 2 * s.writeBuffer.ring.size + s.queueMem.ring.size)
    (hholdMem : ∀ p r, s.queueMem.HoldsAt p r → ∃ p', s'.queueMem.HoldsAt p' r ∧ p' + b ≤ p)
    (hsum : s.cpu.state = .stalledL2 → 2 * s'.queueL2.ring.size + 2 * s'.writeBuffer.ring.size +
      s'.queueMem.ring.size + a ≤
        2 * s.queueL2.ring.size + 2 * s.writeBuffer.ring.size + s.queueMem.ring.size)
    (hwb : s'.writeBuffer.ring.size + c ≤ s.writeBuffer.ring.size) :
    ∃ n', Stage s' n' ∧ n' ≤ n ∧ (s.cpu.state = .stalledL2 → n' + a ≤ n) ∧
      (s.cpu.state = .waiting → n' + a ≤ n ∨ n' + b ≤ n ∧ 0 < s'.queueMem.ring.size) ∧
      (s.cpu.state = .stalledWB → n' + c ≤ n) := by
  have hdone' := hcpu.done
  have hload' := hcpu.load
  have hunread : s'.cpu.unread.length = s.cpu.unread.length := congrArg List.length hcpu.unread
  -- the bound is a weighted sum of positions and sizes, one for each state of the processor; in
  -- every state only the terms of that state have to go down
  cases hst with
  | idle hs hL2 hMem =>
    refine ⟨_, .idle (hstate.trans hs) (hfreeL2 hL2) (hfreeMem hMem), ?_, ?_, ?_, ?_⟩
    · rw [hcpu.remaining]
    all_goals intro h; rw [hs] at h; cases h
  | stalledL2 hs hd hl hL2 hMem =>
    have := hsum hs
    refine ⟨_, .stalledL2 (hstate.trans hs) (hdone'.trans hd) (hload'.trans hl) (hfreeL2 hL2)
      (hfreeMem hMem), ?_, ?_, ?_, ?_⟩
    · omega
    · intro _
      omega
    all_goals intro h; rw [hs] at h; cases h
  | stalledWB hs hd hl hL2 hMem =>
    refine ⟨_, .stalledWB (hstate.trans hs) (hdone'.trans hd) (hload'.trans hl) (hfreeL2 hL2)
      (hfreeMem hMem), ?_, ?_, ?_, ?_⟩
    · omega
    · intro h; rw [hs] at h; cases h
    · intro h; rw [hs] at h; cases h
    · intro _
      omega
  | waitL2 hs hd hL2 hcur hMem =>
    obtain ⟨p', hhold, hle⟩ := hholdL2 _ _ hL2
    refine ⟨_, .waitL2 (hstate.trans hs) (hdone'.trans hd) hhold (hsame _ hcur)
      (hfreeMem hMem), ?_, ?_, ?_, ?_⟩
    · omega
    · intro h; rw [hs] at h; cases h
    · intro _
      left
      omega
    · intro h; rw [hs] at h; cases h
  | waitMem hs hd hL2 hMem hcur =>
    obtain ⟨p', hhold, hle⟩ := hholdMem _ _ hMem
    refine ⟨_, .waitMem (hstate.trans hs) (hdone'.trans hd) (hfreeL2 hL2) hhold
      (hsame _ hcur), ?_, ?_, ?_, ?_⟩
    · omega
    · intro h; rw [hs] at h; cases h
    · intro _
      exact Or.inr ⟨by omega, Nat.zero_lt_of_lt hhold.lt⟩
    · intro h; rw [hs] at h; cases h

/-- A part of the loop completes the current request, and no load of the CPU is left. -/
theorem Stage.complete (hst : Stage s n) (s' : Sim σ) (hstate : s.cpu.state ≠ .idle)
    {cpu : CPU} (hcpu : s.cpu.SameRequest cpu) {served : Option Request}
    (hs' : s'.cpu = cpu.completeRequest s.currCycle served)
    (hL2 : s'.queueL2.Free) (hMem : s'.queueMem.Free) :
    ∃ n', Stage s' n' ∧ n' < n := by
  have hlt : s.cpu.done = false ∧ 400 * s.cpu.unread.length < n := by
    cases hst with
    | idle hs => exact absurd hs hstate
    | stalledL2 _ hd => exact ⟨hd, by omega⟩
    | stalledWB _ hd => exact ⟨hd, by omega⟩
    | waitL2 _ hd => exact ⟨hd, by omega⟩
    | waitMem _ hd => exact ⟨hd, by omega⟩
  have hdone : cpu.done = false := hcpu.done.trans hlt.1
  obtain ⟨hidle, hrem⟩ := CPU.completeRequest_remaining hdone s.currCycle served
  have hrem' : s'.cpu.remaining = s.cpu.unread.length := by
    rw [hs', hrem, hcpu.unread]
  refine ⟨_, .idle (by rw [hs']; exact hidle) hL2 hMem, ?_⟩
  rw [hrem']
  exact hlt.2

/-- What the service of the L2 queue does. -/
theorem serviceL2_cases (s : Sim σ) :
    (s.queueL2.frontReady s.currCycle = false ∧ s.serviceL2 = s) ∨
    (s.queueL2.frontReady s.currCycle = true ∧
      ((s.queueL2.getFront.fromCPU = true ∧ ∃ dCache, s.serviceL2 = { s with
          cpu := (s.cpu.loadHitL2 true).completeRequest s.currCycle (some s.queueL2.getFront)
          dCache := dCache
          queueL2 := s.queueL2.remove.2 }) ∨
       (s.queueL2.getFront.fromCPU = false ∧ ∃ dCache, s.serviceL2 = { s with
          cpu := s.cpu.loadHitL2 true
          dCache := dCache
          queueL2 := s.queueL2.remove.2 }) ∨
       ((s.queueMem.add s.l2Cache s.queueL2.getFront s.currCycle).1 = true ∧ s.serviceL2 = { s with
          cpu := s.cpu.loadHitL2 false
          queueMem := (s.queueMem.add s.l2Cache s.queueL2.getFront s.currCycle).2
          queueL2 := s.queueL2.remove.2 }) ∨
       ((s.queueMem.add s.l2Cache s.queueL2.getFront s.currCycle).1 = false ∧
        s.serviceL2 = { s with cpu := s.cpu.loadHitL2 false }))) := by
  unfold serviceL2
  cases hr : s.queueL2.frontReady s.currCycle with
  | false => exact Or.inl ⟨rfl, rfl⟩
  | true =>
    refine Or.inr ⟨rfl, ?_⟩
    simp only [if_true]
    cases s.l2Cache.check s.queueL2.getFront.addr s.queueL2.getFront.load with
    | true =>
      -- a hit in L2 completes the request if it is one of the processor
      cases hc : s.queueL2.getFront.fromCPU with
      | true => exact Or.inl ⟨rfl, _, rfl⟩
      | false => exact Or.inr (Or.inl ⟨rfl, _, rfl⟩)
    | false =>
      simp only [Bool.false_eq_true, if_false]
      -- a miss goes on to memory, if the queue there has room
      cases ha : s.queueMem.add s.l2Cache s.queueL2.getFront s.currCycle with
      | mk ok queueMem =>
        cases ok with
        | true => exact Or.inr (Or.inr (Or.inl ⟨rfl, rfl⟩))
        | false => exact Or.inr (Or.inr (Or.inr ⟨rfl, rfl⟩))

/-- What a part of the loop leaves: the stage, with a number that is not larger, and that is
    smaller when the CPU has got to another state. -/
def Keeps (lines : List TraceLine) (s s' : Sim σ) (n n' : Nat) : Prop :=
  Sound lines s' ∧ Stage s' n' ∧ n' ≤ n ∧ (n' = n → s'.cpu.state = s.cpu.state)

theorem frontReady_pos {q : MemQueue} {cycle : BitVec 32} (h : q.frontReady cycle = true) :
    0 < q.ring.size := by
  simp only [MemQueue.frontReady, Bool.and_eq_true, decide_eq_true_eq] at h
  exact h.1

/-- A prefetch leaves the L2 queue; the memory queue takes it or not. -/
theorem Stage.popL2 (hs : Sound lines s) (hst : Stage s n) (s' : Sim σ)
    (hpos : 0 < s.queueL2.ring.size) (hfront : s.queueL2.getFront.isCpuLoad = false)
    (isHit : Bool) (hcpu : s'.cpu = s.cpu.loadHitL2 isHit)
    (hL2 : s'.queueL2 = s.queueL2.remove.2) (hWB : s'.writeBuffer = s.writeBuffer)
    (hMem : s'.queueMem = s.queueMem ∨
      s'.queueMem = (s.queueMem.add s.l2Cache s.queueL2.getFront s.currCycle).2) :
    ∃ n', Keeps lines s s' n n' ∧ (s.cpu.state = .stalledL2 ∨ s.cpu.state = .waiting →
      n' < n ∨ 0 < s'.queueMem.ring.size) := by
  obtain ⟨hrem, hremCap, hremSize⟩ := MemQueue.remove_size hs.ringL2 hpos
  have hadd := MemQueue.add_size hs.ringMem s.l2Cache s.queueL2.getFront s.currCycle
  -- the request that leaves may go on to memory; either way memory holds what it held
  have hmemOk : s'.queueMem.ring.WF ∧ s'.queueMem.ring.capacity = 10 ∧
      s'.queueMem.ring.size ≤ s.queueMem.ring.size + 1 ∧
      (s.queueMem.Free → s'.queueMem.Free) ∧
      (∀ p r, s.queueMem.HoldsAt p r → s'.queueMem.HoldsAt p r) := by
    cases hMem with
    | inl h =>
      rw [h]
      exact ⟨hs.ringMem, hs.capMem, Nat.le_succ _, id, fun _ _ => id⟩
    | inr h =>
      rw [h]
      exact ⟨hadd.1, hadd.2.1.trans hs.capMem, hadd.2.2.2, fun hf => hf.add hs.ringMem hfront,
        fun _ _ hh => hh.add hs.ringMem hfront⟩
  obtain ⟨hringMem, hcapMem, hsizeMem, hfreeMem, hholdMem⟩ := hmemOk
  have hsame : s.cpu.SameRequest s'.cpu := by rw [hcpu]; exact CPU.same_loadHitL2 s.cpu isHit
  -- the load waited for is behind the front and moves up one place, which pays for the growth of
  -- memory
  obtain ⟨n', hst', hle, hstall, hwait, -⟩ := hst.move s' (a := 1) (b := 0) (c := 0) hsame
    (by rw [hcpu]; rfl) (fun r h => by rw [hcpu]; exact h.hitL2 isHit)
    (fun h => by rw [hL2]; exact (h.remove hs.ringL2 hpos).2) hfreeMem
    (fun p r h => by
      obtain ⟨p', hhold, hp'⟩ := h.moveUp hs.ringL2 hfront
      refine ⟨p', by rw [hL2]; exact hhold, ?_⟩
      rw [hWB]
      omega)
    (fun p r h => ⟨p, hholdMem p r h, Nat.le_refl p⟩)
    (fun _ => by rw [hL2, hWB]; omega) (by rw [hWB]; exact Nat.le_refl _)
  refine ⟨n', ⟨⟨hs.follows.same hsame, ?_, ?_, hringMem, hcapMem, ?_, ?_, ?_, ?_⟩, hst', hle, ?_⟩,
    ?_⟩
  · rw [hL2]; exact hrem
  · rw [hL2]; exact hremCap.trans hs.capL2
  · rw [hWB]; exact hs.ringWB
  · rw [hWB]; exact hs.capWB
  · rw [hL2]
    exact (MemQueue.forall_remove (Q := fun r => r.fromCPU = true → r.isCpuLoad = true)
      hs.ringL2 hpos hs.loads).2
  · rw [hWB]; exact hs.stores
  · intro _
    rw [hcpu]
    rfl
  · intro hor
    cases hor with
    | inl h => exact Or.inl (hstall h)
    | inr h =>
      cases hwait h with
      | inl hlt => exact Or.inl hlt
      | inr hpos' => exact Or.inr hpos'.2

/-- A load of the CPU at the front of the L2 queue is the current request. -/
theorem Stage.front_cpuLoad (hs : Sound lines s) (hst : Stage s n)
    (hpos : 0 < s.queueL2.ring.size) (hfront : s.queueL2.getFront.isCpuLoad = true) :
    s.cpu.state = .waiting ∧ s.cpu.done = false ∧ s.queueL2.HoldsAt 0 s.queueL2.getFront ∧
    s.queueL2.getFront.Same s.cpu.currReq ∧ s.queueMem.Free ∧
    400 * s.cpu.unread.length + 100 < n := by
  have hnot : ¬ s.queueL2.Free := fun hfree =>
    absurd ((hfree.remove hs.ringL2 hpos).1.symm.trans hfront) (by simp)
  cases hst with
  | idle _ hL2 => exact absurd hL2 hnot
  | stalledL2 _ _ _ hL2 => exact absurd hL2 hnot
  | stalledWB _ _ _ hL2 => exact absurd hL2 hnot
  | waitMem _ _ hL2 => exact absurd hL2 hnot
  | @waitL2 p r hstate hdone hL2 hcur hMem =>
    have hp : p = 0 := by
      refine (hL2.only 0 (s.queueL2.ring.slots s.queueL2.ring.front) ?_ hfront).symm
      rw [MemQueue.contents_remove hs.ringL2 hpos, List.getElem?_cons_zero]
    subst hp
    obtain ⟨rfl, -⟩ := hL2.remove_front hs.ringL2
    exact ⟨hstate, hdone, hL2, hcur, hMem, by omega⟩

/-- Service of the L2 queue. When the CPU waits for a queue and the front is ready, either
    something moves on or the memory queue is not empty. -/
theorem Stage.serviceL2 (hs : Sound lines s) (hst : Stage s n) :
    ∃ n', Keeps lines s s.serviceL2 n n' ∧
      (s.queueL2.frontReady s.currCycle = true → s.cpu.state = .stalledL2 ∨ s.cpu.state = .waiting →
        n' < n ∨ 0 < s.serviceL2.queueMem.ring.size) := by
  have hcpu := fun b => CPU.same_loadHitL2 s.cpu b
  obtain ⟨hnot, heq⟩ | ⟨hready, hcases⟩ := serviceL2_cases s
  · -- the front is not ready
    rw [heq]
    refine ⟨n, ⟨hs, hst, Nat.le_refl n, fun _ => rfl⟩, ?_⟩
    intro h
    rw [hnot] at h
    cases h
  have hpos := frontReady_pos hready
  obtain ⟨hrem, hremCap, -⟩ := MemQueue.remove_size hs.ringL2 hpos
  have hloads := MemQueue.forall_remove (Q := fun r => r.fromCPU = true → r.isCpuLoad = true)
    hs.ringL2 hpos hs.loads
  obtain ⟨hcpuReq, dCache, heq⟩ | ⟨hother, dCache, heq⟩ | ⟨hadd, heq⟩ | ⟨hadd, heq⟩ := hcases
  · -- the current request hits in L2
    have hfront := hloads.1 hcpuReq
    obtain ⟨hstate, hdone, hhold, hcur, hMem, hlt⟩ := hst.front_cpuLoad hs hpos hfront
    have hfree := (hhold.remove_front hs.ringL2).2
    obtain ⟨n', hst', hlt'⟩ := Stage.complete hst s.serviceL2 (by rw [hstate]; simp)
      (hcpu true) (by rw [heq]) (by rw [heq]; exact hfree) (by rw [heq]; exact hMem)
    refine ⟨n', ⟨?_, hst', Nat.le_of_lt hlt', fun h => absurd h (by omega)⟩, fun _ _ => Or.inl hlt'⟩
    rw [heq]
    refine ⟨?_, hrem, hremCap.trans hs.capL2, hs.ringMem, hs.capMem, hs.ringWB, hs.capWB,
      hloads.2, hs.stores⟩
    apply (hs.follows.same (hcpu true)).completeRequest hdone
    intro r hr
    rw [← Option.some.inj hr]
    exact ⟨hfront, hcur.hitL2 true⟩
  · -- a prefetch hits in L2
    have hfront : s.queueL2.getFront.isCpuLoad = false := by
      rw [Request.isCpuLoad, hother, Bool.false_and]
    obtain ⟨n', hkeeps, hprog⟩ := hst.popL2 hs s.serviceL2 hpos hfront true
      (by rw [heq]) (by rw [heq]) (by rw [heq]) (Or.inl (by rw [heq]))
    exact ⟨n', hkeeps, fun _ => hprog⟩
  · cases hfront : s.queueL2.getFront.isCpuLoad with
    | false =>
      -- a prefetch goes on to memory
      obtain ⟨n', hkeeps, hprog⟩ := hst.popL2 hs s.serviceL2 hpos hfront false
        (by rw [heq]) (by rw [heq]) (by rw [heq]) (Or.inr (by rw [heq]))
      exact ⟨n', hkeeps, fun _ => hprog⟩
    | true =>
      -- the current request goes on to memory
      obtain ⟨hstate, hdone, hhold, hcur, hMem, hlt⟩ := hst.front_cpuLoad hs hpos hfront
      have hfree := (hhold.remove_front hs.ringL2).2
      obtain ⟨p, hp⟩ := hMem.add_cpuLoad hs.ringMem hfront hadd
      obtain ⟨hwfMem, hcapMem, -, -⟩ :=
        MemQueue.add_size hs.ringMem s.l2Cache s.queueL2.getFront s.currCycle
      have hp10 : p < 10 := by
        have hsize := hwfMem.size_le
        have hplt := hp.lt
        rw [hcapMem, hs.capMem] at hsize
        omega
      rw [heq]
      have hlt' : 400 * s.cpu.unread.length + p + 1 < n := by omega
      refine ⟨400 * s.cpu.unread.length + p + 1, ⟨?_, ?_, Nat.le_of_lt hlt', fun _ => rfl⟩,
        fun _ _ => Or.inl hlt'⟩
      · exact ⟨hs.follows.same (hcpu false), hrem, hremCap.trans hs.capL2, hwfMem,
          hcapMem.trans hs.capMem, hs.ringWB, hs.capWB, hloads.2, hs.stores⟩
      · exact .waitMem hstate hdone hfree hp (hcur.hitL2 false)
  · -- the memory queue is full
    have hfull := (MemQueue.add_eq_false hs.ringMem hadd).1
    have hcap := hs.capMem
    obtain ⟨n', hst', hle, -⟩ := hst.move s.serviceL2 (a := 0) (b := 0) (c := 0)
      (by rw [heq]; exact hcpu false) (by rw [heq]; rfl)
      (fun r h => by rw [heq]; exact h.hitL2 false) (fun h => by rw [heq]; exact h)
      (fun h => by rw [heq]; exact h)
      (fun p r h => ⟨p, by rw [heq]; exact h, by rw [heq]; exact Nat.le_refl _⟩)
      (fun p r h => ⟨p, by rw [heq]; exact h, Nat.le_refl p⟩)
      (fun _ => by rw [heq]; exact Nat.le_refl _) (by rw [heq]; exact Nat.le_refl _)
    refine ⟨n', ⟨?_, hst', hle, fun _ => by rw [heq]; rfl⟩, fun _ _ => Or.inr ?_⟩
    · rw [heq]
      exact ⟨hs.follows.same (hcpu false), hs.ringL2, hs.capL2, hs.ringMem, hs.capMem, hs.ringWB,
        hs.capWB, hs.loads, hs.stores⟩
    · rw [heq]
      show 0 < s.queueMem.ring.size
      omega

/-- What the service of the memory queue does. -/
theorem serviceMem_cases (s : Sim σ) :
    (s.queueMem.frontReady s.currCycle = false ∧ s.serviceMem = s) ∨
    (s.queueMem.frontReady s.currCycle = true ∧ ∃ l2Cache dCache,
      ((s.queueMem.getFront.isCpuLoad = true ∧ s.serviceMem = { s with
          cpu := s.cpu.completeRequest s.currCycle (some s.queueMem.getFront)
          l2Cache := l2Cache
          dCache := dCache
          queueMem := s.queueMem.remove.2 }) ∨
       (s.queueMem.getFront.isCpuLoad = false ∧ s.serviceMem = { s with
          l2Cache := l2Cache
          dCache := dCache
          queueMem := s.queueMem.remove.2 }))) := by
  unfold serviceMem
  cases hr : s.queueMem.frontReady s.currCycle with
  | false => exact Or.inl ⟨rfl, rfl⟩
  | true =>
    refine Or.inr ⟨rfl, ?_⟩
    simp only [if_true, Request.isCpuLoad]
    -- only a load of the processor is waited for
    cases hl : s.queueMem.getFront.load with
    | false =>
      rw [Bool.and_false]
      exact ⟨_, _, Or.inr ⟨rfl, rfl⟩⟩
    | true =>
      cases hc : s.queueMem.getFront.fromCPU with
      | false => exact ⟨_, _, Or.inr ⟨rfl, rfl⟩⟩
      | true => exact ⟨_, _, Or.inl ⟨rfl, rfl⟩⟩

/-- A load of the CPU at the front of the memory queue is the current request. -/
theorem Stage.frontMem_cpuLoad (hs : Sound lines s) (hst : Stage s n)
    (hpos : 0 < s.queueMem.ring.size) (hfront : s.queueMem.getFront.isCpuLoad = true) :
    s.cpu.state = .waiting ∧ s.cpu.done = false ∧ s.queueL2.Free ∧
    s.queueMem.HoldsAt 0 s.queueMem.getFront ∧ s.queueMem.getFront.Same s.cpu.currReq := by
  have hnot : ¬ s.queueMem.Free := fun hfree =>
    absurd ((hfree.remove hs.ringMem hpos).1.symm.trans hfront) (by simp)
  cases hst with
  | idle _ _ hMem => exact absurd hMem hnot
  | stalledL2 _ _ _ _ hMem => exact absurd hMem hnot
  | stalledWB _ _ _ _ hMem => exact absurd hMem hnot
  | waitL2 _ _ _ _ hMem => exact absurd hMem hnot
  | @waitMem p r hstate hdone hL2 hMem hcur =>
    have hp : p = 0 := by
      refine (hMem.only 0 (s.queueMem.ring.slots s.queueMem.ring.front) ?_ hfront).symm
      rw [MemQueue.contents_remove hs.ringMem hpos, List.getElem?_cons_zero]
    subst hp
    obtain ⟨rfl, -⟩ := hMem.remove_front hs.ringMem
    exact ⟨hstate, hdone, hL2, hMem, hcur⟩

/-- Service of the memory queue. What is at the front always leaves when it is ready. -/
theorem Stage.serviceMem (hs : Sound lines s) (hst : Stage s n) :
    ∃ n', Keeps lines s s.serviceMem n n' ∧
      (s.queueMem.frontReady s.currCycle = true →
        s.serviceMem.queueMem.ring.size + 1 = s.queueMem.ring.size ∧
        (s.cpu.state = .stalledL2 ∨ s.cpu.state = .waiting → n' < n)) := by
  obtain ⟨hnot, heq⟩ | ⟨hready, l2Cache, dCache, hcases⟩ := serviceMem_cases s
  · rw [heq]
    refine ⟨n, ⟨hs, hst, Nat.le_refl n, fun _ => rfl⟩, ?_⟩
    intro h
    rw [hnot] at h
    cases h
  have hpos := frontReady_pos hready
  obtain ⟨hrem, hremCap, hremSize⟩ := MemQueue.remove_size hs.ringMem hpos
  obtain ⟨hfront, heq⟩ | ⟨hfront, heq⟩ := hcases
  · -- a load of the CPU is at the front, so it is the current request
    obtain ⟨hstate, hdone, hL2, hMem, hcur⟩ := hst.frontMem_cpuLoad hs hpos hfront
    have hfree := (hMem.remove_front hs.ringMem).2
    obtain ⟨n', hst', hlt⟩ := Stage.complete hst s.serviceMem (by rw [hstate]; simp)
      (CPU.SameRequest.refl s.cpu) (by rw [heq]) (by rw [heq]; exact hL2) (by rw [heq]; exact hfree)
    refine ⟨n', ⟨?_, hst', Nat.le_of_lt hlt, fun h => absurd h (by omega)⟩,
      fun _ => ⟨by rw [heq]; exact hremSize, fun _ => hlt⟩⟩
    rw [heq]
    refine ⟨?_, hs.ringL2, hs.capL2, hrem, hremCap.trans hs.capMem, hs.ringWB, hs.capWB,
      hs.loads, hs.stores⟩
    apply hs.follows.completeRequest hdone
    intro r hr
    rw [← Option.some.inj hr]
    exact ⟨hfront, hcur⟩
  · -- a store or a prefetch leaves
    obtain ⟨n', hst', hle, hstall, hwait, -⟩ := hst.move s.serviceMem
      (a := 1) (b := 1) (c := 0) (by rw [heq]; exact CPU.SameRequest.refl s.cpu) (by rw [heq])
      (fun r h => by rw [heq]; exact h) (fun h => by rw [heq]; exact h)
      (fun h => by rw [heq]; exact (h.remove hs.ringMem hpos).2)
      (fun p r h => ⟨p, by rw [heq]; exact h, by rw [heq]; simp only; omega⟩)
      (fun p r h => by
        obtain ⟨p', hhold, hp'⟩ := h.moveUp hs.ringMem hfront
        exact ⟨p', by rw [heq]; exact hhold, by omega⟩)
      (fun _ => by rw [heq]; simp only; omega) (by rw [heq]; exact Nat.le_refl _)
    refine ⟨n', ⟨?_, hst', hle, fun _ => by rw [heq]⟩, fun _ => ⟨by rw [heq]; exact hremSize, ?_⟩⟩
    · rw [heq]
      exact ⟨hs.follows, hs.ringL2, hs.capL2, hrem, hremCap.trans hs.capMem, hs.ringWB, hs.capWB,
        hs.loads, hs.stores⟩
    · intro hor
      cases hor with
      | inl h => exact hstall h
      | inr h =>
        cases hwait h with
        | inl hlt => exact hlt
        | inr hlt => exact hlt.1

/-- What the service of the write buffer does. -/
theorem serviceWB_cases (s : Sim σ) :
    (s.writeBuffer.frontReady s.currCycle = false ∧ s.serviceWB = s) ∨
    (s.writeBuffer.frontReady s.currCycle = true ∧
      ((∃ l2Cache, s.serviceWB = { s with
          cpu := s.cpu.storeHitL2 true
          l2Cache := l2Cache
          writeBuffer := s.writeBuffer.remove.2 }) ∨
       ((s.queueMem.add s.l2Cache s.writeBuffer.getFront s.currCycle).1 = true ∧
        s.serviceWB = { s with
          cpu := s.cpu.storeHitL2 false
          queueMem := (s.queueMem.add s.l2Cache s.writeBuffer.getFront s.currCycle).2
          writeBuffer := s.writeBuffer.remove.2 }) ∨
       ((s.queueMem.add s.l2Cache s.writeBuffer.getFront s.currCycle).1 = false ∧
        s.serviceWB = { s with cpu := s.cpu.storeHitL2 false }))) := by
  unfold serviceWB
  cases hr : s.writeBuffer.frontReady s.currCycle with
  | false => exact Or.inl ⟨rfl, rfl⟩
  | true =>
    refine Or.inr ⟨rfl, ?_⟩
    simp only [if_true]
    cases s.l2Cache.check s.writeBuffer.getFront.addr s.writeBuffer.getFront.load with
    | true => exact Or.inl ⟨_, rfl⟩
    | false =>
      simp only [Bool.false_eq_true, if_false]
      -- a store that misses goes on to memory, if the queue there has room
      cases ha : s.queueMem.add s.l2Cache s.writeBuffer.getFront s.currCycle with
      | mk ok queueMem =>
        cases ok with
        | true => exact Or.inr (Or.inl ⟨rfl, rfl⟩)
        | false => exact Or.inr (Or.inr ⟨rfl, rfl⟩)

theorem storeHitL2_currReq (cpu : CPU) (isHit : Bool) :
    (cpu.storeHitL2 isHit).currReq = cpu.currReq ∧ (cpu.storeHitL2 isHit).state = cpu.state := by
  rw [CPU.storeHitL2]
  split <;> exact ⟨rfl, rfl⟩

/-- Service of the write buffer. When the front is ready and the memory queue has room, the
    front leaves. -/
theorem Stage.serviceWB (hs : Sound lines s) (hst : Stage s n) :
    ∃ n', Keeps lines s s.serviceWB n n' ∧
      (s.writeBuffer.frontReady s.currCycle = true → s.queueMem.ring.size < 10 →
        s.cpu.state = .stalledWB → n' < n) := by
  have hcpu := fun b => CPU.same_storeHitL2 s.cpu b
  have hsame : ∀ (b : Bool) (r : Request), r.Same s.cpu.currReq →
      r.Same (s.cpu.storeHitL2 b).currReq := by
    intro b r h
    rw [(storeHitL2_currReq s.cpu b).1]
    exact h
  have hstate := fun b => (storeHitL2_currReq s.cpu b).2
  obtain ⟨hnot, heq⟩ | ⟨hready, hcases⟩ := serviceWB_cases s
  · rw [heq]
    refine ⟨n, ⟨hs, hst, Nat.le_refl n, fun _ => rfl⟩, ?_⟩
    intro h
    rw [hnot] at h
    cases h
  have hpos := frontReady_pos hready
  obtain ⟨hrem, hremCap, hremSize⟩ := MemQueue.remove_size hs.ringWB hpos
  obtain ⟨hfront, hstores⟩ := MemQueue.forall_remove (Q := fun r => r.isCpuLoad = false)
    hs.ringWB hpos hs.stores
  obtain ⟨l2Cache, heq⟩ | ⟨hadd, heq⟩ | ⟨hadd, heq⟩ := hcases
  · -- the store hits in L2
    obtain ⟨n', hst', hle, -, -, hwb⟩ := hst.move s.serviceWB (a := 0) (b := 0) (c := 1)
      (by rw [heq]; exact hcpu true) (by rw [heq]; exact hstate true)
      (fun r h => by rw [heq]; exact hsame true r h) (fun h => by rw [heq]; exact h)
      (fun h => by rw [heq]; exact h)
      (fun p r h => ⟨p, by rw [heq]; exact h, by rw [heq]; simp only; omega⟩)
      (fun p r h => ⟨p, by rw [heq]; exact h, Nat.le_refl p⟩)
      (fun _ => by rw [heq]; simp only; omega) (by rw [heq]; simp only; omega)
    refine ⟨n', ⟨?_, hst', hle, fun _ => by rw [heq]; exact hstate true⟩, fun _ _ h => hwb h⟩
    rw [heq]
    exact ⟨hs.follows.same (hcpu true), hs.ringL2, hs.capL2, hs.ringMem, hs.capMem, hrem,
      hremCap.trans hs.capWB, hs.loads, hstores⟩
  · -- the store goes on to memory
    obtain ⟨hwfMem, hcapMem, -, hsizeMem⟩ :=
      MemQueue.add_size hs.ringMem s.l2Cache s.writeBuffer.getFront s.currCycle
    obtain ⟨n', hst', hle, -, -, hwb⟩ := hst.move s.serviceWB (a := 0) (b := 0) (c := 1)
      (by rw [heq]; exact hcpu false) (by rw [heq]; exact hstate false)
      (fun r h => by rw [heq]; exact hsame false r h) (fun h => by rw [heq]; exact h)
      (fun h => by rw [heq]; exact h.add hs.ringMem hfront)
      (fun p r h => ⟨p, by rw [heq]; exact h, by rw [heq]; simp only; omega⟩)
      (fun p r h => ⟨p, by rw [heq]; exact h.add hs.ringMem hfront, Nat.le_refl p⟩)
      (fun _ => by rw [heq]; simp only; omega) (by rw [heq]; simp only; omega)
    refine ⟨n', ⟨?_, hst', hle, fun _ => by rw [heq]; exact hstate false⟩, fun _ _ h => hwb h⟩
    rw [heq]
    exact ⟨hs.follows.same (hcpu false), hs.ringL2, hs.capL2, hwfMem, hcapMem.trans hs.capMem, hrem,
      hremCap.trans hs.capWB, hs.loads, hstores⟩
  · -- the memory queue is full
    have hfull := (MemQueue.add_eq_false hs.ringMem hadd).1
    have hcap := hs.capMem
    obtain ⟨n', hst', hle, -⟩ := hst.move s.serviceWB (a := 0) (b := 0) (c := 0)
      (by rw [heq]; exact hcpu false) (by rw [heq]; exact hstate false)
      (fun r h => by rw [heq]; exact hsame false r h) (fun h => by rw [heq]; exact h)
      (fun h => by rw [heq]; exact h)
      (fun p r h => ⟨p, by rw [heq]; exact h, by rw [heq]; exact Nat.le_refl _⟩)
      (fun p r h => ⟨p, by rw [heq]; exact h, Nat.le_refl p⟩)
      (fun _ => by rw [heq]; exact Nat.le_refl _) (by rw [heq]; exact Nat.le_refl _)
    refine ⟨n', ⟨?_, hst', hle, fun _ => by rw [heq]; exact hstate false⟩, ?_⟩
    · rw [heq]
      exact ⟨hs.follows.same (hcpu false), hs.ringL2, hs.capL2, hs.ringMem, hs.capMem, hs.ringWB,
        hs.capWB, hs.loads, hs.stores⟩
    · intro _ hroom
      omega

end Sim

end CacheSim
