import Coursework.Nachos.Spec.PageContents
import Coursework.Nachos.Spec.SilentFaults
import Coursework.Nachos.Spec.TransparentFaults
import Coursework.Nachos.Spec.UnalignedAccess
import Coursework.Nachos.UserProgram

/-!
# A user program does not notice demand paging

The processor, the fault path of the kernel and the bytes of the pages put together: a program
that runs over `VMProcess`, whose pages come from its executable, are evicted, saved and read
back, and which is interrupted by other processes, computes what it computes on a flat memory
that holds its executable.
-/

namespace Nachos

open EStateM (Ensures Simulates ReadOnly)
open Processor

/-- Is this the event of an access? -/
def Event.isAccess : Event → Bool
  | .read .. | .wrote .. => true
  | _ => false

theorem firstZeroed_access {e : Event} (he : e.isAccess = true) (trace : List Event) (p v : Nat) :
    firstZeroed (e :: trace) p v = firstZeroed trace p v := by
  simp only [firstZeroed]
  cases e <;> first | (cases he; done) | (cases firstZeroed trace p v <;> rfl)

/-- An access does not disturb the kernel. -/
theorem Undisturbed.access {m m' : View} {e : Event} (h : Undisturbed m) (he : e.isAccess = true)
    (htrace : m'.trace = e :: m.trace) (hnum : m'.numSwapPages = m.numSwapPages) :
    Undisturbed m' := by
  constructor
  · rw [htrace]
    intro e' he'
    rcases List.mem_cons.mp he' with rfl | he'
    · cases e' <;> first | (cases he; done) | exact ⟨rfl, rfl⟩
    · exact h.noLoss e' he'
  · rw [htrace]
    intro e' he'
    rcases List.mem_cons.mp he' with rfl | he'
    · cases e' <;> first | (cases he; done) | rfl
    · have hold := h.stableZero e' he'
      cases e' with
      | zeroed p v frame => simpa only [Event.zeroStable, firstZeroed_access he] using hold
      | _ => rfl
  · rw [hnum]
    exact h.swap

/-- The writes of a history. -/
def writes (trace : List Event) : List (Nat × Nat × List UInt8) :=
  trace.filterMap fun
    | .wrote p va bytes => some (p, va, bytes)
    | _ => none

theorem lastWrite_writes (trace : List Event) (p a : Nat) :
    lastWrite ((writes trace).map fun w => .wrote w.1 w.2.1 w.2.2) p a = lastWrite trace p a := by
  induction trace with
  | nil => rfl
  | cons e trace ih =>
    cases e
    case wrote => simp only [writes, List.filterMap_cons, List.map_cons, lastWrite, ← ih]
    all_goals exact ih

/-- What was written last only depends on the writes. -/
theorem lastWrite_congr {trace trace' : List Event} (h : writes trace' = writes trace) (p a : Nat) :
    lastWrite trace' p a = lastWrite trace p a := by
  rw [← lastWrite_writes trace', h, lastWrite_writes]

namespace Kernel

/-! ## Accesses of an instruction -/

/-- The state of a kernel that `p` runs under. -/
structure Runs (p : Nat) (k : Kernel) : Prop where
  booted : ∃ n ioBlocks, 0 < n ∧ Chain (.quiet, (initKernel n ioBlocks).view) (.quiet, k.view)
  unpinned : k.Unpinned
  current : k.current = some p

/-- An alignment test with `&` is one with `%`. -/
theorem misaligned_iff {v : BitVec 32} {n : Nat} (hn : AccessSize n) :
    v.toInt % n ≠ 0 ↔ Misaligned v n := by
  rw [← not_iff_not, not_misaligned_iff hn, not_not]
  have hlt := v.isLt
  have htoInt := BitVec.toInt_eq_toNat_cond v
  rcases hn with rfl | rfl | rfl <;> split at htoInt <;> omega

/-- What a translation that fails has found: a misaligned address, or a page without an entry
    that lets it through. -/
theorem translate_error {k : Kernel} {v : BitVec 32} {n : Nat} (hn : AccessSize n)
    {writing : Bool} {e : MipsException} (h : k.translate v.toInt n writing = .error e) :
    e = .addressError ∧ Misaligned v n ∨ Fault.ofPage (e.fault v) := by
  unfold translate at h
  split at h
  · rename_i ha
    cases h
    exact Or.inl ⟨rfl, (misaligned_iff hn).mp ha⟩
  right
  split at h
  · cases h
    rfl
  dsimp only at h
  split at h
  · cases h
    rfl
  · split at h
    · cases h
      rfl
    · cases h

/-- A load that completes. -/
theorem busRead_ok {k k' : Kernel} {v value : BitVec 32} {n : Nat}
    (h : busRead v n k = .ok value k') :
    AccessSize n ∧ ∃ p paddr k₁, k.current = some p ∧
      k.translate v.toInt n false = .ok (paddr, k₁) ∧
      value = Processor.bytesToInt k₁.memory paddr n ∧
      k' = k₁.emit (.read p v.toNat ((List.range n).map fun i => k₁.memory (paddr + i))) := by
  simp only [busRead] at h
  split at h
  · exact nomatch h
  rename_i hn
  rw [EStateM.get_bind] at h
  cases hcur : k.current with
  | none =>
    simp only [hcur] at h
    exact nomatch h
  | some p =>
  simp only [hcur] at h
  cases htr : k.translate v.toInt n false with
  | error x =>
    simp only [htr] at h
    exact nomatch h
  | ok r =>
  obtain ⟨paddr, k₁⟩ := r
  simp only [htr, EStateM.set_bind, EStateM.pure_apply, EStateM.Result.ok.injEq] at h
  exact ⟨not_not.mp hn, p, paddr, k₁, rfl, rfl, h.1.symm, h.2.symm⟩

/-- A load that completes is a user load of the run. -/
theorem readMem_of_busRead {k k' : Kernel} {v value : BitVec 32} {n : Nat}
    (h : busRead v n k = .ok value k') {p : Nat} (hcur : k.current = some p) :
    k.readMem p v.toInt n = .ok k' := by
  obtain ⟨-, q, paddr, k₁, hq, htr, -, rfl⟩ := busRead_ok h
  obtain rfl : p = q := Option.some.inj (hcur.symm.trans hq)
  simp only [readMem, htr, bind, Except.bind, toUnsigned_toInt]

/-- A load of an access size that fails, fails in its translation. -/
theorem busRead_error {k k' : Kernel} {v : BitVec 32} {n : Nat} {e : Fault}
    (h : busRead v n k = .error e k') {p : Nat} (hcur : k.current = some p) :
    k' = k ∧ (AccessSize n → ∃ x, k.translate v.toInt n false = .error x ∧ e = x.fault v) := by
  simp only [busRead] at h
  split at h
  · rename_i hn
    simp only [EStateM.throw_apply, EStateM.Result.error.injEq] at h
    exact ⟨h.2.symm, fun hn' => absurd hn' hn⟩
  simp only [EStateM.get_bind, hcur] at h
  cases htr : k.translate v.toInt n false with
  | error x =>
    simp only [htr, EStateM.throw_apply, EStateM.Result.error.injEq] at h
    exact ⟨h.2.symm, fun _ => ⟨x, rfl, h.1.symm⟩⟩
  | ok r =>
    simp only [htr, EStateM.set_bind] at h
    exact nomatch h

/-- A store that completes is a user store of the run. -/
theorem busWrite_ok {k k' : Kernel} {v value : BitVec 32} {n : Nat}
    (h : busWrite v n value k = .ok () k') :
    AccessSize n ∧ ∃ p, k.current = some p ∧
      k.writeMem p v.toInt ((List.range n).map (byteFromInt value)) = .ok k' := by
  simp only [busWrite] at h
  split at h
  · exact nomatch h
  rename_i hn
  rw [EStateM.get_bind] at h
  cases hcur : k.current with
  | none =>
    simp only [hcur] at h
    exact nomatch h
  | some p =>
  simp only [hcur] at h
  cases hw : k.writeMem p v.toInt ((List.range n).map (byteFromInt value)) with
  | error x =>
    simp only [hw] at h
    exact nomatch h
  | ok k₁ =>
    simp only [hw, EStateM.set_apply, EStateM.Result.ok.injEq, true_and] at h
    exact ⟨not_not.mp hn, p, rfl, h ▸ hw⟩

/-- A store of an access size that fails, fails in its translation. -/
theorem busWrite_error {k k' : Kernel} {v value : BitVec 32} {n : Nat} {e : Fault}
    (h : busWrite v n value k = .error e k') {p : Nat} (hcur : k.current = some p) :
    k' = k ∧ (AccessSize n → ∃ x, k.translate v.toInt n true = .error x ∧ e = x.fault v) := by
  simp only [busWrite] at h
  split at h
  · rename_i hn
    simp only [EStateM.throw_apply, EStateM.Result.error.injEq] at h
    exact ⟨h.2.symm, fun hn' => absurd hn' hn⟩
  simp only [EStateM.get_bind, hcur] at h
  cases hw : k.writeMem p v.toInt ((List.range n).map (byteFromInt value)) with
  | error x =>
    simp only [hw, EStateM.throw_apply, EStateM.Result.error.injEq] at h
    refine ⟨h.2.symm, fun _ => ⟨x, ?_, h.1.symm⟩⟩
    unfold writeMem at hw
    rw [List.length_map, List.length_range] at hw
    cases htr : k.translate v.toInt n true with
    | error y =>
      simp only [htr, bind, Except.bind, Except.error.injEq] at hw
      rw [hw]
    | ok r =>
      rw [htr] at hw
      cases hw
  | ok k₁ =>
    simp only [hw] at h
    exact nomatch h

/-! ## The simulator's memory -/

/-- A memory of the simulator with the frames and the TLB of a kernel state. -/
structure Wired (k : Kernel) (m : Memory) : Prop where
  current : k.current ≠ none
  numPhysPages : m.numPhysPages = k.numPhysPages
  translations : m.translations = .tlb k.tlb
  mainMemory : m.mainMemory = k.memory

/-- `translate` of the kernel model is `Processor.translate` with a TLB. -/
theorem Wired.translate {k : Kernel} {m : Memory} (h : Wired k m) {v : BitVec 32} {n : Nat}
    (hn : AccessSize n) (writing : Bool) :
    (∃ paddr k' m', k.translate v.toInt n writing = .ok (paddr, k') ∧
      Memory.translate v n writing m = .ok paddr m' ∧ Wired k' m') ∨
    ∃ x, k.translate v.toInt n writing = .error x ∧
      Memory.translate v n writing m = .error (x.fault v) m := by
  have hlookup : m.translations.lookup (v.toNat / pageSize) =
      (k.lookup (v.toNat / pageSize)).map fun i => (i, k.tlb i) := by
    rw [h.translations]
    rfl
  simp only [Memory.translate, EStateM.get_bind, pageFromAddress_toInt, offsetFromAddress_toInt,
    Kernel.translate, hlookup]
  by_cases hmis : v &&& BitVec.ofNat 32 (n - 1) ≠ 0
  · right
    refine ⟨.addressError, ?_, ?_⟩
    · rw [if_pos ((misaligned_iff hn).mpr hmis)]
    · rw [if_pos hmis]
      rfl
  rw [if_neg (mt (misaligned_iff hn).mp hmis), if_neg hmis]
  cases hi : k.lookup (v.toNat / pageSize) with
  | none =>
    right
    refine ⟨.tlbMiss, rfl, ?_⟩
    simp only [Option.map_none, h.translations]
    rfl
  | some i =>
    simp only [Option.map_some, h.numPhysPages]
    split
    · exact Or.inr ⟨.readOnly, rfl, rfl⟩
    split
    · exact Or.inr ⟨.busError, rfl, rfl⟩
    · refine Or.inl ⟨_, _, _, rfl, rfl, h.current, rfl, ?_, h.mainMemory⟩
      simp only [h.translations]
      rfl

/-- A load of the kernel model is `Processor.readMem`. -/
theorem busRead_wired {n : Nat} (hn : AccessSize n) (v : BitVec 32) :
    Simulates (fun _ => False) Wired Wired (busRead v n) (Memory.readMem v n)
      fun a b k m => a = b ∧ Wired k m := by
  apply Simulates.of_results
  intro k m h
  obtain ⟨p, hcur⟩ := Option.ne_none_iff_exists'.mp h.current
  have hnot : ¬ ¬ (n = 1 ∨ n = 2 ∨ n = 4) := not_not.mpr hn
  simp only [busRead, Memory.readMem, hnot, if_false, EStateM.get_bind, hcur]
  rcases h.translate (v := v) hn false with ⟨paddr, k₁, m₁, hk, hm, hwired⟩ | ⟨x, hk, hm⟩
  · left
    have hbound := Memory.translate_in_bounds hn hm
    rw [EStateM.bind_of_ok hm, EStateM.get_bind, if_neg (by omega)]
    simp only [hk]
    exact ⟨_, _, _, _, rfl, rfl, by rw [hwired.mainMemory], hwired.current, hwired.numPhysPages,
      hwired.translations, hwired.mainMemory⟩
  · right
    rw [EStateM.bind_of_error hm]
    simp only [hk]
    exact ⟨_, _, _, rfl, rfl, h⟩

/-- A store of the kernel model is `Processor.writeMem`. -/
theorem busWrite_wired {n : Nat} (hn : AccessSize n) (v value : BitVec 32) :
    Simulates (fun _ => False) Wired Wired (busWrite v n value) (Memory.writeMem v n value)
      fun _ _ k m => Wired k m := by
  apply Simulates.of_results
  intro k m h
  obtain ⟨p, hcur⟩ := Option.ne_none_iff_exists'.mp h.current
  have hnot : ¬ ¬ (n = 1 ∨ n = 2 ∨ n = 4) := not_not.mpr hn
  simp only [busWrite, Memory.writeMem, hnot, if_false, EStateM.get_bind, hcur, Kernel.writeMem,
    List.length_map, List.length_range]
  rcases h.translate (v := v) hn true with ⟨paddr, k₁, m₁, hk, hm, hwired⟩ | ⟨x, hk, hm⟩
  · left
    have hbound := Memory.translate_in_bounds hn hm
    rw [EStateM.bind_of_ok hm, EStateM.get_bind, if_neg (by omega)]
    simp only [hk, bind, Except.bind]
    refine ⟨(), (), _, _, rfl, rfl, hwired.current, hwired.numPhysPages, hwired.translations, ?_⟩
    rw [hwired.mainMemory]
    funext a
    simp only [blit, emit]
    split
    · rename_i hin
      simp [show a - paddr < n by omega]
    · rfl
  · right
    rw [EStateM.bind_of_error hm]
    simp only [hk, bind, Except.bind]
    exact ⟨_, _, _, rfl, rfl, h⟩

/-! ## Accesses as changes of the kernel state -/

/-- `k'` is `k` after an access of the running process, which the history records as `e`. -/
structure Accessed (k k' : Kernel) (e : Event) : Prop where
  trace : k'.trace = e :: k.trace
  process : k'.process = k.process
  numSwapPages : k'.numSwapPages = k.numSwapPages
  chain : Chain (.quiet, k.view) (.quiet, k'.view)
  unpinned : k'.Unpinned
  current : k'.current = k.current

theorem Runs.of_chain {p : Nat} {k k' : Kernel} (h : Runs p k)
    (hc : Chain (.quiet, k.view) (.quiet, k'.view)) (hu : k'.Unpinned)
    (hcur : k'.current = some p) : Runs p k' := by
  obtain ⟨n, ioBlocks, hn, hboot⟩ := h.booted
  exact ⟨⟨n, ioBlocks, hn, hboot.trans hc⟩, hu, hcur⟩

theorem Runs.accessed {p : Nat} {k k' : Kernel} {e : Event} (h : Runs p k)
    (ha : Accessed k k' e) : Runs p k' :=
  h.of_chain ha.chain ha.unpinned (ha.current.trans h.current)

/-- A load through the TLB is an access, and the bytes come from the frame of the page. -/
theorem Runs.busRead {p : Nat} {k k' : Kernel} {v value : BitVec 32} {n : Nat} (h : Runs p k)
    (hread : busRead v n k = .ok value k') :
    AccessSize n ∧ ¬ Misaligned v n ∧ (∃ bytes, Accessed k k' (.read p v.toNat bytes)) ∧
      ∃ i f : Nat, (k.tlb i).valid = true ∧ (k.tlb i).vpn = v.toNat / pageSize ∧
        (k.tlb i).ppn = f ∧
        value = Processor.bytesToInt k.memory (frameAddr f (v.toNat % pageSize)) n := by
  have hmem := readMem_of_busRead hread h.current
  obtain ⟨hn, q, paddr, k₁, hq, htr, hvalue, rfl⟩ := busRead_ok hread
  obtain rfl : p = q := Option.some.inj (h.current.symm.trans hq)
  obtain ⟨hc, hu⟩ := readMem_chain h.current hn h.unpinned hmem
  obtain ⟨ha, i, f, hv, hvpn, hp, -, rfl, rfl⟩ := translate_spec htr
  rw [pageFromAddress_toInt] at hvpn
  rw [offsetFromAddress_toInt] at hvalue
  exact ⟨hn, fun hmis => (misaligned_iff hn).mpr hmis ha, ⟨_, rfl, rfl, rfl, hc, hu, rfl⟩,
    i, f, hv, hvpn, hp, hvalue⟩

/-- A store through the TLB is an access. -/
theorem Runs.busWrite {p : Nat} {k k' : Kernel} {v value : BitVec 32} {n : Nat} (h : Runs p k)
    (hwrite : busWrite v n value k = .ok () k') :
    AccessSize n ∧ ¬ Misaligned v n ∧
      Accessed k k' (.wrote p v.toNat ((List.range n).map (byteFromInt value))) := by
  obtain ⟨hn, q, hq, hmem⟩ := busWrite_ok hwrite
  obtain rfl : p = q := Option.some.inj (h.current.symm.trans hq)
  have hlen : ((List.range n).map (byteFromInt value)).length = n := by simp
  obtain ⟨hc, hu⟩ := writeMem_chain h.current (hlen.symm ▸ hn) h.unpinned hmem
  unfold writeMem at hmem
  cases htr : k.translate v.toInt ((List.range n).map (byteFromInt value)).length true with
  | error x =>
    simp only [htr, bind, Except.bind] at hmem
    cases hmem
  | ok r =>
    obtain ⟨paddr, k₁⟩ := r
    simp only [htr, bind, Except.bind, Except.ok.injEq, toUnsigned_toInt] at hmem
    subst hmem
    obtain ⟨ha, i, f, -, -, -, -, -, rfl⟩ := translate_spec htr
    rw [hlen] at ha
    exact ⟨hn, fun hmis => (misaligned_iff hn).mpr hmis ha, rfl, rfl, rfl, hc, hu, rfl⟩

/-! ## A flat memory behind the pages -/

/-- The flat memory that process `p` works on: what it wrote last, over what its pages were
    made from. -/
structure Backs (F : Nat → Nat → UInt8) (p : Nat) (k : Kernel) (g : FlatMemory) : Prop where
  runs : Runs p k
  undisturbed : Undisturbed k.view
  initial : ∀ v j b, j < pageSize → k.view.initialByte p v j = some b → F v j = b
  bytes : ∀ a : BitVec 32, g.bytes a =
    (lastWrite k.trace p a.toNat).getD (F (a.toNat / pageSize) (a.toNat % pageSize))

namespace Backs

variable {F : Nat → Nat → UInt8} {p : Nat} {k k' : Kernel} {g g' : FlatMemory}

/-- The bytes that a TLB entry leads to are those of the flat memory. -/
theorem byte (h : Backs F p k g) {i f : Nat} (hv : (k.tlb i).valid = true)
    (hp : (k.tlb i).ppn = f) {a : BitVec 32} (ha : a.toNat / pageSize = (k.tlb i).vpn) :
    k.memory (frameAddr f (a.toNat % pageSize)) = g.bytes a := by
  obtain ⟨n, ioBlocks, hn, hboot⟩ := h.runs.booted
  obtain ⟨hwf, hsound⟩ := chain_sound hn hboot
  have hs := hsound h.undisturbed
  have hj : a.toNat % pageSize < pageSize := Nat.mod_lt _ (by decide)
  -- the TLB agrees with the page table, so the page is in that frame
  obtain ⟨hval, hppn⟩ := hs.coherent i p hv h.runs.current
  obtain ⟨-, q, -, hq, hpage, -⟩ := hwf.tlb i hv
  obtain rfl : p = q := Option.some.inj (h.runs.current.symm.trans hq)
  have hin : InFrame k.view p (k.tlb i).vpn f :=
    ⟨(hwf.current p h.runs.current).resolve_right (by simp), hpage, hval, hppn.trans hp⟩
  have hcontent := hs.holds.memory p _ f _ hin hj
  rw [View.content, ← ha, Nat.div_add_mod'] at hcontent
  rw [h.bytes a]
  show k.view.memory _ = (lastWrite k.view.trace p a.toNat).getD _
  cases hlast : lastWrite k.view.trace p a.toNat with
  | some b =>
    rw [hlast, Option.some_or] at hcontent
    exact (Option.some.inj hcontent).symm
  | none =>
    rw [hlast, Option.none_or] at hcontent
    exact (h.initial _ _ _ hj hcontent).symm

/-- The flat memory after an access. -/
theorem accessed {e : Event} (h : Backs F p k g) (ha : Accessed k k' e) (he : e.isAccess = true)
    (hbytes : ∀ a : BitVec 32, g'.bytes a =
      (lastWrite (e :: k.trace) p a.toNat).getD (F (a.toNat / pageSize) (a.toNat % pageSize))) :
    Backs F p k' g' := by
  refine ⟨h.runs.accessed ha, h.undisturbed.access he ha.trace ha.numSwapPages, ?_, ?_⟩
  · intro v j b hj hb
    apply h.initial v j b hj
    have hcoff : k'.view.numCoffPages p = k.view.numCoffPages p := by simp only [view, ha.process]
    have hmap : k'.view.coffMap p = k.view.coffMap p := by simp only [view, ha.process]
    have htrace : k'.view.trace = e :: k.view.trace := ha.trace
    simpa only [View.initialByte, hcoff, hmap, htrace, firstZeroed_access he] using hb
  · intro a
    rw [ha.trace]
    exact hbytes a

/-- A load reads what the flat memory holds. -/
theorem window (h : Backs F p k g) {v value : BitVec 32} {n : Nat}
    (hread : busRead v n k = .ok value k') : value = Processor.bytesToInt (g.window v) 0 n := by
  obtain ⟨hn, hmis, -, i, f, hv, hvpn, hp, rfl⟩ := h.runs.busRead hread
  apply bytesToInt_congr hn
  intro j hj
  obtain ⟨hadd, hpage, hoff, -⟩ := aligned_add hn hmis hj
  have hbyte := h.byte hv hp (a := v + BitVec.ofNat 32 j) (by rw [hadd, hpage, hvpn])
  rw [hadd, hoff] at hbyte
  rw [Nat.zero_add, FlatMemory.window, ← hbyte, frameAddr, frameAddr, Nat.add_assoc]

/-- A store writes what it writes to the flat memory. -/
theorem lastWrite_store (h : Backs F p k g) {v : BitVec 32} {n : Nat} (hn : AccessSize n)
    (hmis : ¬ Misaligned v n) (bytes : Nat → UInt8) (a : BitVec 32) :
    (g.store v n bytes).bytes a = (lastWrite (.wrote p v.toNat ((List.range n).map bytes) ::
      k.trace) p a.toNat).getD (F (a.toNat / pageSize) (a.toNat % pageSize)) := by
  have hpos : 0 < n := by rcases hn with rfl | rfl | rfl <;> decide
  have hfit := (aligned_add hn hmis hpos).2.2.2
  have hin : (a - v).toNat < n ↔ v.toNat ≤ a.toNat ∧ a.toNat < v.toNat + n := by
    have := a.isLt
    have := v.isLt
    rw [BitVec.toNat_sub]
    simp only [pageSize] at hfit
    omega
  simp only [FlatMemory.store, lastWrite, List.length_map, List.length_range, true_and, hin]
  split
  · rename_i hrange
    have hsub : (a - v).toNat = a.toNat - v.toNat := by
      have := a.isLt
      rw [BitVec.toNat_sub]
      omega
    simp [hsub, show a.toNat - v.toNat < n by omega]
  · exact h.bytes a

end Backs

/-- The kernel's memory behaves as the flat memory behind it, where it does not fault. -/
theorem backs_busSimulates (F : Nat → Nat → UInt8) (p : Nat) :
    BusSimulates Fault.ofPage (Backs F p) where
  read v n hn := by
    intro k g h
    constructor
    · intro value k' hread
      obtain ⟨-, hmis, ⟨bytes, ha⟩, -⟩ := h.runs.busRead hread
      refine ⟨_, g, FlatMemory.readMem_aligned hn hmis g, h.window hread, ?_⟩
      exact h.accessed ha rfl h.bytes
    · -- only an address error is one of the flat memory too
      intro e k' hread
      obtain ⟨rfl, herror⟩ := busRead_error hread h.runs.current
      obtain ⟨x, htr, rfl⟩ := herror hn
      rcases translate_error hn htr with ⟨rfl, hmis⟩ | hpage
      · exact Or.inr ⟨g, FlatMemory.readMem_misaligned hn hmis g, h⟩
      · exact Or.inl ⟨hpage, h⟩
  write v n value hn := by
    intro k g h
    constructor
    · intro _ k' hwrite
      obtain ⟨-, hmis, ha⟩ := h.runs.busWrite hwrite
      exact ⟨(), _, FlatMemory.writeMem_aligned hn hmis value g,
        h.accessed ha rfl (h.lastWrite_store hn hmis _)⟩
    · intro e k' hwrite
      obtain ⟨rfl, herror⟩ := busWrite_error hwrite h.runs.current
      obtain ⟨x, htr, rfl⟩ := herror hn
      rcases translate_error hn htr with ⟨rfl, hmis⟩ | hpage
      · exact Or.inr ⟨g, FlatMemory.writeMem_misaligned hn hmis value g, h⟩
      · exact Or.inl ⟨hpage, h⟩
  readOnly := FlatMemory.readMem_readOnly

/-! ## Runs of a program -/

/-- A run of the program of process `p` in which `n` instructions complete. In between it
    misses in the TLB and the instruction is run again, and it is interrupted; what runs
    meanwhile writes nothing to its memory. -/
inductive ProgramRun (p : Nat) : Nat → Machine Kernel → Machine Kernel → Prop where
  | start (s : Machine Kernel) : ProgramRun p 0 s s
  | completes {n : Nat} {s s₁ s' : Machine Kernel} (hbefore : ProgramRun p n s s₁)
      (hrun : Instruction.run s₁ = .ok () s') : ProgramRun p (n + 1) s s'
  | missed {n : Nat} {s s₁ s' : Machine Kernel} {random : Fin tlbSize}
      (hbefore : ProgramRun p n s s₁) (hmiss : serviceTLBMiss p random s₁ = some s') :
      ProgramRun p n s s'
  | interrupted {n : Nat} {s s₁ s' : Machine Kernel} {ops : List Op}
      (hbefore : ProgramRun p n s s₁) (hservice : serviceInterrupt ops s₁ = some s')
      (hback : s'.memory.current = some p)
      (hlast : ∀ a, lastWrite s'.memory.trace p a = lastWrite s₁.memory.trace p a) :
      ProgramRun p n s s'

/-- What happens next in a run of a program. -/
inductive Turn where
  | completes
  | missed (random : Fin tlbSize)
  | interrupted (ops : List Op)

/-- A turn of the program of process `p`, if this can happen next. -/
def Turn.take (p : Nat) (s : Machine Kernel) : Turn → Option (Machine Kernel)
  | .completes =>
    match Instruction.run s with
    | .ok () s' => some s'
    | .error _ _ => none
  | .missed random => serviceTLBMiss p random s
  | .interrupted ops => (serviceInterrupt ops s).filter fun s' =>
      s'.memory.current = some p ∧ writes s'.memory.trace = writes s.memory.trace

/-- How many instructions complete? -/
def completed : List Turn → Nat
  | [] => 0
  | .completes :: turns => completed turns + 1
  | _ :: turns => completed turns

theorem ProgramRun.turns {p n : Nat} {s s₁ s' : Machine Kernel} (h : ProgramRun p n s s₁)
    {turns : List Turn} (hturns : turns.foldlM (Turn.take p) s₁ = some s') :
    ProgramRun p (n + completed turns) s s' := by
  induction turns generalizing n s₁ with
  | nil =>
    cases hturns
    exact h
  | cons turn turns ih =>
    rw [List.foldlM_cons, Option.bind_eq_bind, Option.bind_eq_some_iff] at hturns
    obtain ⟨s₂, hturn, hturns⟩ := hturns
    -- each kind of turn is a constructor of `ProgramRun`
    cases turn with
    | completes =>
      simp only [Turn.take] at hturn
      split at hturn
      · rename_i hrun
        cases hturn
        rw [completed, ← Nat.add_assoc, Nat.add_right_comm]
        exact ih (h.completes hrun) hturns
      · cases hturn
    | missed random => exact ih (h.missed hturn) hturns
    | interrupted ops =>
      obtain ⟨hservice, hkept⟩ := Option.filter_eq_some_iff.mp hturn
      simp only [decide_eq_true_eq] at hkept
      exact ih (h.interrupted hservice hkept.1 (lastWrite_congr hkept.2 p)) hturns

/-- What accesses keep: the process runs on, and the kernel state comes from the one before. -/
theorem runs_busKeeps (p : Nat) (k₀ : Kernel) :
    BusKeeps (fun k => Runs p k ∧ Chain (.quiet, k₀.view) (.quiet, k.view))
      fun _ k => Runs p k ∧ Chain (.quiet, k₀.view) (.quiet, k.view) where
  read v n := by
    rintro k ⟨hr, hc⟩
    constructor
    · intro value k' h
      obtain ⟨-, -, ⟨bytes, ha⟩, -⟩ := hr.busRead h
      exact ⟨hr.accessed ha, hc.trans ha.chain⟩
    · intro e k' h
      obtain ⟨rfl, -⟩ := busRead_error h hr.current
      exact ⟨hr, hc⟩
  write v n value := by
    rintro k ⟨hr, hc⟩
    constructor
    · intro _ k' h
      obtain ⟨-, -, ha⟩ := hr.busWrite h
      exact ⟨hr.accessed ha, hc.trans ha.chain⟩
    · intro e k' h
      obtain ⟨rfl, -⟩ := busWrite_error h hr.current
      exact ⟨hr, hc⟩
  cpu _ _ _ h := h

/-- What is left of a TLB miss when it has been serviced. -/
theorem serviceTLBMiss_spec {p : Nat} {random : Fin tlbSize} {s s' : Machine Kernel}
    (h : serviceTLBMiss p random s = some s') :
    ∃ badVAddr s₁ vaddr, Instruction.run s = .error (.mips .tlbMiss badVAddr) s₁ ∧
      handle .tlbMiss badVAddr s₁.cpu = .ok () s'.cpu ∧
      s₁.memory.handleTLBMiss p vaddr random = .ok s'.memory := by
  unfold serviceTLBMiss at h
  split at h
  · rename_i badVAddr s₁ hrun
    split at h
    · rename_i c hhandle
      dsimp only at h
      split at h
      · rename_i k hk
        cases h
        exact ⟨badVAddr, s₁, _, hrun, hhandle, hk⟩
      · cases h
    · cases h
  · cases h

theorem serviceInterrupt_spec {ops : List Op} {s s' : Machine Kernel}
    (h : serviceInterrupt ops s = some s') :
    finishLoad s.cpu = .ok () s'.cpu ∧ s.memory.run ops = .ok s'.memory := by
  unfold serviceInterrupt at h
  split at h
  · rename_i c hflush
    split at h
    · rename_i k hk
      cases h
      exact ⟨hflush, hk⟩
    · cases h
  · cases h

namespace Runs

variable {p : Nat} {s s' : Machine Kernel}

theorem run_ok (h : Runs p s.memory) (hrun : Instruction.run s = .ok () s') :
    Runs p s'.memory ∧ Chain (.quiet, s.memory.view) (.quiet, s'.memory.view) :=
  (Instruction.run_keeps (runs_busKeeps p s.memory) s ⟨h, Chain.refl⟩).1 _ _ hrun

theorem run_error (h : Runs p s.memory) {e : Fault} (hrun : Instruction.run s = .error e s') :
    Runs p s'.memory ∧ Chain (.quiet, s.memory.view) (.quiet, s'.memory.view) :=
  (Instruction.run_keeps (runs_busKeeps p s.memory) s ⟨h, Chain.refl⟩).2 _ _ hrun

theorem wf {k : Kernel} (h : Runs p k) : WF .quiet k.view := by
  obtain ⟨n, ioBlocks, hn, hboot⟩ := h.booted
  exact (chain_sound hn hboot).1

/-- The running process has a number. -/
theorem lt {k : Kernel} (h : Runs p k) : p < k.view.numProcesses :=
  h.wf.lt_of_live ((h.wf.current p h.current).resolve_right (by simp))

theorem handleTLBMiss {k k' : Kernel} (h : Runs p k) {vaddr : Int} {random : Fin tlbSize}
    (hmiss : k.handleTLBMiss p vaddr random = .ok k') :
    Runs p k' ∧ Chain (.quiet, k.view) (.quiet, k'.view) := by
  rcases handleTLBMiss_chain h.wf h.unpinned h.current vaddr random with ⟨herr, -⟩ | ⟨k₁, h₁, hc, hu⟩
  · rw [herr] at hmiss
    cases hmiss
  · obtain rfl : k₁ = k' := Except.ok.inj (h₁.symm.trans hmiss)
    exact ⟨h.of_chain hc hu ((silent_handleTLBMiss hmiss).current.trans h.current), hc⟩

theorem run {k k' : Kernel} (h : Runs p k) {ops : List Op} (hrun : k.run ops = .ok k')
    (hback : k'.current = some p) : Runs p k' ∧ Chain (.quiet, k.view) (.quiet, k'.view) := by
  obtain ⟨hc, hu⟩ := run_chain h.wf h.unpinned hrun
  exact ⟨h.of_chain hc hu hback, hc⟩

end Runs

/-- A run of a program is a chain of changes of the kernel state. -/
theorem ProgramRun.chain {p n : Nat} {s s' : Machine Kernel} (h : ProgramRun p n s s')
    (hr : Runs p s.memory) :
    Runs p s'.memory ∧ Chain (.quiet, s.memory.view) (.quiet, s'.memory.view) := by
  induction h with
  | start s => exact ⟨hr, Chain.refl⟩
  | completes _ hrun ih =>
    obtain ⟨hr₁, hc₁⟩ := ih hr
    obtain ⟨hr', hc⟩ := hr₁.run_ok hrun
    exact ⟨hr', hc₁.trans hc⟩
  | missed _ hmiss ih =>
    obtain ⟨hr₁, hc₁⟩ := ih hr
    obtain ⟨_, s₂, _, hrun, -, hk⟩ := serviceTLBMiss_spec hmiss
    obtain ⟨hr₂, hc₂⟩ := hr₁.run_error hrun
    obtain ⟨hr', hc⟩ := hr₂.handleTLBMiss hk
    exact ⟨hr', hc₁.trans (hc₂.trans hc)⟩
  | interrupted _ hservice hback _ ih =>
    obtain ⟨hr₁, hc₁⟩ := ih hr
    obtain ⟨hr', hc⟩ := hr₁.run (serviceInterrupt_spec hservice).2 hback
    exact ⟨hr', hc₁.trans hc⟩

/-- What pages were made from, they were made from. -/
theorem chain_initialByte {p : Nat} {s s' : Phase × View} (h : Chain s s')
    (hp : p < s.2.numProcesses) : p < s'.2.numProcesses ∧
      s'.2.numCoffPages p = s.2.numCoffPages p ∧ s'.2.coffMap p = s.2.coffMap p ∧
      ∀ v j b, s.2.initialByte p v j = some b → s'.2.initialByte p v j = some b := by
  induction h with
  | refl => exact ⟨hp, rfl, rfl, fun _ _ _ h => h⟩
  | tail _ hm ih =>
    obtain ⟨hp₁, hcoff, hmap, hbyte⟩ := ih
    obtain ⟨hnum, hconfig⟩ := hm.config
    obtain ⟨hcoff', hmap'⟩ := hconfig p hp₁
    exact ⟨Nat.lt_of_lt_of_le hp₁ hnum, hcoff'.trans hcoff, hmap'.trans hmap,
      fun v j b hb => hm.initialByte hp₁ (hbyte v j b hb)⟩

/-- The pages so far were made from `F`, and the kernel has not disturbed them. -/
structure Fits (F : Nat → Nat → UInt8) (p : Nat) (k : Kernel) : Prop where
  undisturbed : Undisturbed k.view
  initial : ∀ v j b, j < pageSize → k.view.initialByte p v j = some b → F v j = b

theorem Fits.before {F : Nat → Nat → UInt8} {p : Nat} {k k' : Kernel} (h : Fits F p k')
    (hr : Runs p k) (hc : Chain (.quiet, k.view) (.quiet, k'.view)) : Fits F p k := by
  refine ⟨h.undisturbed.of_chain hc, fun v j b hj hb => h.initial v j b hj ?_⟩
  exact (chain_initialByte hc hr.lt).2.2.2 v j b hb

/-- What the kernel does while the program waits does not show in the flat memory. -/
theorem Backs.later {F : Nat → Nat → UInt8} {p : Nat} {k k' : Kernel} {g : FlatMemory}
    (h : Backs F p k g) (hr : Runs p k') (hfit : Fits F p k')
    (hlast : ∀ a, lastWrite k'.trace p a = lastWrite k.trace p a) : Backs F p k' g :=
  ⟨hr, hfit.undisturbed, hfit.initial, fun a => by rw [hlast]; exact h.bytes a⟩

/-- A run of a program over demand paging is one over a memory whose pages come and go. -/
theorem ProgramRun.userRun {F : Nat → Nat → UInt8} {p n : Nat} {s s' : Machine Kernel}
    (h : ProgramRun p n s s') (hr : Runs p s.memory) (hfit : Fits F p s'.memory) :
    UserRun (Backs F p) n s s' := by
  induction h with
  | start s => exact .start s
  | completes hbefore hrun ih =>
    obtain ⟨hr₁, -⟩ := hbefore.chain hr
    exact .completes (ih hr (hfit.before hr₁ (hr₁.run_ok hrun).2)) hrun
  | missed hbefore hmiss ih =>
    obtain ⟨hr₁, -⟩ := hbefore.chain hr
    obtain ⟨_, s₂, _, hrun, hhandle, hk⟩ := serviceTLBMiss_spec hmiss
    obtain ⟨hr₂, hc₂⟩ := hr₁.run_error hrun
    obtain ⟨hr', hc⟩ := hr₂.handleTLBMiss hk
    apply UserRun.serviced (ih hr (hfit.before hr₁ (hc₂.trans hc))) hrun rfl hhandle
    exact ⟨SameUser.refl _, fun f hf =>
      hf.later hr' hfit fun a => (silent_handleTLBMiss hk).lastWrite p a⟩
  | interrupted hbefore hservice hback hlast ih =>
    obtain ⟨hr₁, -⟩ := hbefore.chain hr
    obtain ⟨hflush, hk⟩ := serviceInterrupt_spec hservice
    obtain ⟨hr', hc⟩ := hr₁.run hk hback
    apply UserRun.interrupted (ih hr (hfit.before hr₁ hc)) hflush
    exact ⟨SameUser.refl _, fun f hf => hf.later hr' hfit hlast⟩

/-! ## The program on a flat memory -/

/-- A flat memory that holds, at each address, what process `p` wrote there last, or what the
    page is made from: a byte of the executable, or zero. Only the last byte of a page that
    has not been made is open. -/
structure Image (p : Nat) (k : Kernel) (f : FlatMemory) : Prop where
  content : ∀ (a : BitVec 32) b,
    k.view.content p (a.toNat / pageSize) (a.toNat % pageSize) = some b → f.bytes a = b
  zero : ∀ a : BitVec 32, k.view.content p (a.toNat / pageSize) (a.toNat % pageSize) = none →
    a.toNat % pageSize + 1 < pageSize → f.bytes a = 0

theorem Backs.image {F : Nat → Nat → UInt8} {p : Nat} {k : Kernel} {g : FlatMemory}
    (h : Backs F p k g)
    (hzero : ∀ v j, k.view.initialByte p v j = none → j + 1 < pageSize → F v j = 0) :
    Image p k g := by
  have hj (a : BitVec 32) : a.toNat % pageSize < pageSize := Nat.mod_lt _ (by decide)
  have hlast (a : BitVec 32) : lastWrite k.view.trace p
      (a.toNat / pageSize * pageSize + a.toNat % pageSize) = lastWrite k.trace p a.toNat := by
    rw [Nat.div_add_mod']
    rfl
  constructor
  · intro a b hb
    rw [View.content, hlast] at hb
    rw [h.bytes a]
    cases hw : lastWrite k.trace p a.toNat with
    | some b' =>
      rw [hw, Option.some_or] at hb
      exact Option.some.inj hb
    | none =>
      rw [hw, Option.none_or] at hb
      exact h.initial _ _ _ (hj a) hb
  · intro a hnone hlt
    rw [View.content, hlast, Option.or_eq_none_iff] at hnone
    rw [h.bytes a, hnone.1]
    exact hzero _ _ hnone.2 hlt

/-- The last state of a run determines what the pages are made from. -/
def madeFrom (k : Kernel) (p v j : Nat) : UInt8 := (k.view.initialByte p v j).getD 0

theorem fits_madeFrom {p : Nat} {k : Kernel} (h : Undisturbed k.view) :
    Fits (k.madeFrom p) p k := by
  refine ⟨h, fun v j b _ hb => ?_⟩
  rw [madeFrom, hb]
  rfl

/-- A page that was not made yet is made of zeros, up to its last byte. -/
theorem madeFrom_zero {p : Nat} {k k' : Kernel} (hr : Runs p k)
    (hc : Chain (.quiet, k.view) (.quiet, k'.view)) (hu : Undisturbed k'.view) {v j : Nat}
    (hnone : k.view.initialByte p v j = none) (hj : j + 1 < pageSize) : k'.madeFrom p v j = 0 := by
  obtain ⟨n, ioBlocks, hn, hboot⟩ := hr.booted
  have hpristine := ((chain_sound hn (hboot.trans hc)).2 hu).pristine
  obtain ⟨-, hcoff, hmap, -⟩ := chain_initialByte hc hr.lt
  dsimp only at hcoff hmap
  simp only [View.initialByte] at hnone
  simp only [madeFrom, View.initialByte, hcoff, hmap]
  split
  · rename_i hv
    rw [if_pos hv] at hnone
    rw [hnone]
    rfl
  · cases hz : firstZeroed k'.view.trace p v with
    | none => rfl
    | some frame => exact hpristine.zeros p v frame (firstZeroed_mem hz) j (by omega)

/-- A user program cannot tell demand paging from a flat memory. Whatever process `p` runs, with
    TLB misses, page faults, evictions and interrupts in between: there is an image of its
    pages, fixed before the first instruction, on which the plain interpreter comes to the same
    registers after as many instructions, and its memory is an image of the pages again; and an
    exception that is not about a page comes at the same instruction of both. This is about
    programs that do not use a register in the instruction after the load into it, and about
    runs in which the kernel evicts no page that the TLB maps and loses no dirty bit, `zero`
    finds the same last byte when it fills a page again, and the swap file has at most `2^21`
    slots. -/
theorem programRun_flat {n₀ : Nat} (hn₀ : 0 < n₀) {ioBlocks : Bool} {ops : List Op} {k : Kernel}
    (hboot : (initKernel n₀ ioBlocks).run ops = .ok k) {p : Nat} (hcur : k.current = some p)
    {c : Cpu} (hwf : c.WF) {n : Nat} {s' : Machine Kernel} (hrun : ProgramRun p n ⟨c, k⟩ s')
    (hu : Undisturbed s'.memory.view) :
    ∃ f, Image p k f ∧
      ((∀ j ≤ n, ∀ t, Instruction.runs j ⟨c, f⟩ = .ok () t → ¬ Hazard t) →
        ∃ t, Instruction.runs n ⟨c, f⟩ = .ok () t ∧ SameUpToLoad s'.cpu t.cpu ∧
          Image p s'.memory t.memory ∧
          ∀ cause badVAddr s'', cause.ofPage = false →
            Instruction.run s' = .error (.mips cause badVAddr) s'' →
            ∃ t', Instruction.run t = .error (.mips cause badVAddr) t') := by
  obtain ⟨hc₀, hunpinned⟩ := run_chain (wf_initKernel hn₀ ioBlocks) (fun _ => rfl) hboot
  have hr : Runs p k := ⟨⟨n₀, ioBlocks, hn₀, hc₀⟩, hunpinned, hcur⟩
  obtain ⟨hr', hc⟩ := hrun.chain hr
  have hfit := fits_madeFrom (p := p) hu
  have hfit₀ := hfit.before hr hc
  -- what the pages are made from is known at the end of the run
  set F := s'.memory.madeFrom p with hF
  let f : FlatMemory :=
    ⟨fun a => (lastWrite k.trace p a.toNat).getD (F (a.toNat / pageSize) (a.toNat % pageSize))⟩
  have hback : Backs F p k f := ⟨hr, hfit₀.undisturbed, hfit₀.initial, fun _ => rfl⟩
  refine ⟨f, hback.image fun v j hnone hj => madeFrom_zero hr hc hu hnone hj, fun hfree => ?_⟩
  obtain ⟨t, ht, hcpu, hmem, htrap⟩ :=
    userRun_flat (backs_busSimulates F p) hwf hback (hrun.userRun hr hfit) hfree
  exact ⟨t, ht, hcpu, hmem.image fun v j hnone hj => madeFrom_zero hr' Chain.refl hu hnone hj,
    htrap⟩

/-! ## A program whose stack is evicted -/

/-- The code of a program that pushes its stack pointer (`sw sp, -4(sp)`) and loads it from the
    stack into `v0` (`lw v0, -4(sp)`). -/
def pushAndLoad : CoffSection where
  file a := match a with
    | 128 => 0xFC | 129 => 0xFF | 130 => 0xBD | 131 => 0xAF
    | 132 => 0xFC | 133 => 0xFF | 134 => 0xA2 | 135 => 0x8F
    | _ => 0
  contentOffset := 128
  size := 8
  firstVPN := 0
  initialized := true
  readOnly := true

/-- The registers it starts with; the stack is above its page of code. -/
def stackPointer : Cpu :=
  (Cpu.initial.setReg regNextPC 4).setReg 29 (BitVec.ofNat 32 (9 * pageSize))

def push : Instruction := Instruction.decode stackPointer.registers 0xAFBDFFFC

def pushed : Cpu := push.commit stackPointer

theorem stackPointer_wf : stackPointer.WF := ⟨by decide +kernel, by decide +kernel, rfl⟩

theorem pushed_wf : pushed.WF :=
  Instruction.commit_wf (Instruction.decode_decoded _ _) stackPointer_wf

section

variable {f : FlatMemory}
  (hf : ∀ i < 12, f.bytes (BitVec.ofNat 32 i) = pushAndLoad.file (128 + i))
include hf

theorem fetch_pushAndLoad {c : Cpu} (pc : Nat) (hpc : c.registers regPC = BitVec.ofNat 32 pc)
    (haligned : ¬ Misaligned (BitVec.ofNat 32 pc) 4) (hlt : pc + 4 ≤ 12) :
    Instruction.fetch ⟨c, f⟩ =
      .ok (Processor.bytesToInt pushAndLoad.file (128 + pc) 4) ⟨c, f⟩ := by
  apply fetch_of_window
  · rwa [hpc]
  · apply bytesToInt_congr (Or.inr (Or.inr rfl))
    intro i hi
    show f.bytes (c.registers regPC + BitVec.ofNat 32 (0 + i)) = _
    rw [hpc, Nat.zero_add, ← BitVec.ofNat_add, hf _ (by omega), Nat.add_assoc]

theorem run_push : Instruction.run ⟨stackPointer, f⟩ =
    .ok () ⟨pushed, f.store push.addr push.size (byteFromInt (int push.src2))⟩ := by
  have hfetch : Instruction.fetch ⟨stackPointer, f⟩ = .ok 0xAFBDFFFC ⟨stackPointer, f⟩ :=
    fetch_pushAndLoad hf 0 rfl (by decide) (by decide)
  have hexec : push.execute ⟨stackPointer, f⟩ = .ok push _ :=
    Instruction.execute_store (by decide +kernel) (by decide +kernel) (by decide +kernel)
  have hover : push.info.test .overflow = false := by decide +kernel
  exact Instruction.run_of_execute hfetch hexec ⟨rfl, rfl, rfl, rfl, rfl⟩ stackPointer_wf hover

/-- What is pushed is above the code. -/
theorem code_pushed : ∀ i < 12,
    (f.store push.addr push.size (byteFromInt (int push.src2))).bytes (BitVec.ofNat 32 i) =
      pushAndLoad.file (128 + i) := by
  intro i hi
  have hfar : ¬ (BitVec.ofNat 32 i - push.addr).toNat < push.size := by
    revert i
    decide +kernel
  simp only [FlatMemory.store, hfar, if_false]
  exact hf i hi

theorem run_load : ∃ t, Instruction.run ⟨pushed, f⟩ = .ok () t ∧ t.memory = f ∧
    t.cpu.loadTarget = 2 ∧ t.cpu.registers regPC = 8 := by
  set i := Instruction.decode pushed.registers 0x8FA2FFFC
  have hfetch : Instruction.fetch ⟨pushed, f⟩ = .ok 0x8FA2FFFC ⟨pushed, f⟩ :=
    fetch_pushAndLoad hf 4 (by decide +kernel) (by decide) (by decide)
  obtain ⟨value, hexec⟩ := Instruction.execute_load (i := i) (s := ⟨pushed, f⟩)
    (by decide +kernel) (by decide +kernel) (by decide +kernel)
  have hover : i.info.test .overflow = false := by decide +kernel
  refine ⟨_, Instruction.run_of_execute hfetch hexec ⟨rfl, rfl, rfl, rfl, rfl⟩ pushed_wf hover,
    rfl, ?_, ?_⟩
  · rfl
  · rfl

/-- No instruction uses the register that is loaded before it. -/
theorem not_hazard_pushAndLoad {j : Nat} (hj : j ≤ 2) {t : Machine FlatMemory}
    (ht : Instruction.runs j ⟨stackPointer, f⟩ = .ok () t) : ¬ Hazard t := by
  have hone : Instruction.runs 1 ⟨stackPointer, f⟩ = _ :=
    (EStateM.bind_of_ok (EStateM.pure_apply _ _)).trans (run_push hf)
  -- the code is still there when the stack pointer has been stored
  have hcode := code_pushed hf
  obtain ⟨t₂, hload, hmem, htarget, hpc⟩ := run_load hcode
  have htwo : Instruction.runs 2 ⟨stackPointer, f⟩ = .ok () t₂ :=
    (EStateM.bind_of_ok hone).trans hload
  rintro ⟨htarget', value, t', hfetch, hreads⟩
  rcases (show j = 0 ∨ j = 1 ∨ j = 2 by omega) with rfl | rfl | rfl
  · rw [Instruction.runs, EStateM.pure_apply, EStateM.Result.ok.injEq] at ht
    exact htarget' (ht.2 ▸ rfl)
  · rw [hone, EStateM.Result.ok.injEq] at ht
    exact htarget' (ht.2 ▸ rfl)
  · -- the next instruction is a word of zeros
    rw [htwo, EStateM.Result.ok.injEq] at ht
    obtain ⟨-, rfl⟩ := ht
    have hnop := fetch_pushAndLoad (hmem ▸ hcode) (c := t₂.cpu) 8 hpc (by decide) (by decide)
    rw [hfetch, EStateM.Result.ok.injEq] at hnop
    rw [hnop.1, htarget] at hreads
    exact absurd hreads (by unfold Reads; decide +kernel)

end

/-- The program and another process are started, and the program runs. -/
def pushAndLoadStarted : List Op :=
  [.load [pushAndLoad, ⟨fun _ => 0, 136, 0, 1, true, false⟩], .load emptySections,
    .contextSwitch (some 0)]

/-- A run of the program: the other process reads two of its pages while this one is
    interrupted. -/
def evictedBetween : List Turn :=
  let miss := .missed ⟨0, by decide⟩
  [miss, miss, .completes, .interrupted [.contextSwitch (some 1), .kernelRead 1 0 [0] 0 1,
    .kernelRead 1 pageSize [0] 0 1, .contextSwitch (some 0)], miss, miss, miss, .completes]

/-- Two frames: a program pushes its stack pointer, loses both of its pages to another process
    while it is interrupted, faults them in again, one of them from the swap file, and loads what
    it pushed. -/
theorem programRun_flat_push : ∃ k s' f t,
    (initKernel 2 true).run pushAndLoadStarted = .ok k ∧ ProgramRun 0 2 ⟨stackPointer, k⟩ s' ∧
    s'.memory.numSwapPages = 1 ∧ s'.cpu.loaded 2 = BitVec.ofNat 32 (9 * pageSize) ∧ Image 0 k f ∧
    Instruction.runs 2 ⟨stackPointer, f⟩ = .ok () t ∧ SameUpToLoad s'.cpu t.cpu ∧
    Image 0 s'.memory t.memory := by
  obtain ⟨k, hk, htest⟩ := Except.exists_of_map_eq_ok
    (r := (initKernel 2 true).run pushAndLoadStarted)
    (fun k => (evictedBetween.foldlM (Turn.take 0) ⟨stackPointer, k⟩).any
      (fun s' : Machine Kernel => (s'.memory.view.trace.all fun e =>
          !e.evictsMapped && !e.losesDirty && e.zeroStable s'.memory.view.trace) &&
        decide (s'.memory.view.numSwapPages ≤ maxSwapPages) &&
        decide (s'.memory.numSwapPages = 1 ∧ s'.cpu.loaded 2 = BitVec.ofNat 32 (9 * pageSize))) &&
      decide (k.current = some 0) &&
      (List.range 12).all fun i => k.view.content 0 0 i == some (pushAndLoad.file (128 + i)))
    (by decide +kernel)
  simp only [Bool.and_eq_true, decide_eq_true_eq, List.all_eq_true, List.mem_range,
    beq_iff_eq] at htest
  obtain ⟨⟨hany, hcur⟩, hcode⟩ := htest
  obtain ⟨s', hturns, htest⟩ := (Option.any_eq_true _ _).mp hany
  -- the defects of the kernel do not show in this run
  simp only [Bool.and_eq_true, decide_eq_true_eq, List.all_eq_true, Bool.not_eq_true'] at htest
  obtain ⟨⟨hev, hnum⟩, hswap, hpopped⟩ := htest
  have hprogram : ProgramRun 0 2 ⟨stackPointer, k⟩ s' := (ProgramRun.start _).turns hturns
  obtain ⟨f, himage, hflat⟩ := programRun_flat (by decide) hk hcur stackPointer_wf hprogram
    ⟨fun e he => (hev e he).1, fun e he => (hev e he).2, hnum⟩
  -- the image holds the code, from which the interpreter reads its instructions
  have hf : ∀ i < 12, f.bytes (BitVec.ofNat 32 i) = pushAndLoad.file (128 + i) := by
    intro i hi
    have hlt : i < 2 ^ 32 := by omega
    apply himage.content
    rw [BitVec.toNat_ofNat, Nat.mod_eq_of_lt hlt]
    rw [show i / pageSize = 0 by simp only [pageSize]; omega,
      show i % pageSize = i by simp only [pageSize]; omega]
    exact hcode i hi
  obtain ⟨t, ht, hcpu, hmem, -⟩ := hflat fun j hj t ht => not_hazard_pushAndLoad hf hj ht
  exact ⟨k, s', f, t, hk, hprogram, hswap, hpopped, himage, ht, hcpu, hmem⟩

end Kernel

end Nachos
