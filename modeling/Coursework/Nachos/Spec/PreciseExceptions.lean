import Coursework.Nachos.Spec.AddressTranslation
import Mathlib.Logic.Relation

/-!
# Exceptions of an instruction are precise

The registers and the memory an instruction leaves, whether it completes or not. The
interpreter indexes its arrays with register numbers it has decoded; no instruction word and
no state of the translations makes it leave their bounds or fail an assertion, and register 0
stays zero. When an instruction ends with a `MipsException`, everything a program can see is
as it was before the instruction, but for `Lo` and `Hi` after a failed division.
-/

namespace Nachos

namespace Processor

open EStateM (Ensures)

/-! ## What the actions on registers do -/

namespace Cpu

/-- A load in progress has a register to go to, and register 0 is zero. -/
structure WF (c : Cpu) : Prop where
  target_nonneg : 0 ≤ c.loadTarget
  target_lt : c.loadTarget < 32
  zero : c.registers 0 = 0

/-- Overwrite a register. -/
def setReg (c : Cpu) (i : Nat) (value : BitVec 32) : Cpu :=
  { c with registers := Function.update c.registers i value }

/-- The registers once the load in progress has completed. -/
def loaded (c : Cpu) : Nat → BitVec 32 :=
  if c.loadTarget = 0 then c.registers
  else Function.update c.registers c.loadTarget.toNat
    (c.registers c.loadTarget.toNat &&& ~~~ c.loadMask ||| c.loadValue &&& c.loadMask)

/-- Complete the load in progress. -/
def finish (c : Cpu) : Cpu := ⟨c.loaded, 0, 0, 0⟩

@[simp] theorem setReg_registers (c : Cpu) (i : Nat) (value : BitVec 32) :
    (c.setReg i value).registers = Function.update c.registers i value := rfl
@[simp] theorem setReg_loadTarget (c : Cpu) (i : Nat) (value : BitVec 32) :
    (c.setReg i value).loadTarget = c.loadTarget := rfl
@[simp] theorem setReg_loadValue (c : Cpu) (i : Nat) (value : BitVec 32) :
    (c.setReg i value).loadValue = c.loadValue := rfl
@[simp] theorem setReg_loadMask (c : Cpu) (i : Nat) (value : BitVec 32) :
    (c.setReg i value).loadMask = c.loadMask := rfl
@[simp] theorem finish_registers (c : Cpu) : c.finish.registers = c.loaded := rfl
@[simp] theorem finish_loadTarget (c : Cpu) : c.finish.loadTarget = 0 := rfl

/-- A load only reaches its target. -/
theorem loaded_of_ne {c : Cpu} (hwf : c.WF) {r : Nat} (h : (r : Int) ≠ c.loadTarget) :
    c.loaded r = c.registers r := by
  have := hwf.target_nonneg
  simp only [loaded]
  split
  · rfl
  · apply Function.update_of_ne
    omega

theorem loaded_of_zero {c : Cpu} (h : c.loadTarget = 0) : c.loaded = c.registers := by
  simp [loaded, h]

namespace WF

variable {c : Cpu}

theorem loaded_zero (h : c.WF) : c.loaded 0 = 0 := by
  by_cases hz : c.loadTarget = 0
  · rw [loaded_of_zero hz, h.zero]
  · rw [loaded_of_ne h (by omega), h.zero]

/-- Completing the load in progress and starting another. -/
theorem load (h : c.WF) {target : Int} (ht : 0 ≤ target ∧ target < 32) (value mask : BitVec 32) :
    WF ⟨c.loaded, target, value, mask⟩ :=
  ⟨ht.1, ht.2, h.loaded_zero⟩

theorem finish (h : c.WF) : c.finish.WF := h.load (by decide) 0 0

theorem setReg (h : c.WF) {i : Nat} (hi : i ≠ 0) (value : BitVec 32) : (c.setReg i value).WF := by
  constructor
  · exact h.target_nonneg
  · exact h.target_lt
  · rw [setReg_registers, Function.update_of_ne hi.symm, h.zero]

end WF

end Cpu

theorem setRegister_eq {i : Int} (hi : 0 ≤ i ∧ i < numUserRegisters) (value : BitVec 32)
    (c : Cpu) : setRegister i value c = .ok () (c.setReg i.toNat value) := by
  rw [setRegister, if_pos hi]
  rfl

theorem getRegister_eq {i : Int} (hi : 0 ≤ i ∧ i < numUserRegisters) (c : Cpu) :
    getRegister i c = .ok (c.registers i.toNat) c := by
  rw [getRegister, if_pos hi]
  rfl

theorem completeLoad_eq {c : Cpu} (hwf : c.WF) :
    completeLoad c = .ok () { c with registers := c.loaded } := by
  have hnonneg := hwf.target_nonneg
  have hlt := hwf.target_lt
  rw [completeLoad, EStateM.get_bind, Cpu.loaded]
  by_cases hz : c.loadTarget = 0
  · rw [if_pos hz, if_pos hz]
    rfl
  · have hbound : 0 ≤ c.loadTarget ∧ c.loadTarget < (numUserRegisters : Nat) := by
      simp only [numUserRegisters]
      omega
    rw [if_neg hz, if_neg hz, EStateM.bind_of_ok (getRegister_eq hbound c)]
    exact setRegister_eq hbound _ c

theorem delayedLoad_eq {c : Cpu} (hwf : c.WF) (target : Int) (value mask : BitVec 32) :
    delayedLoad target value mask c = .ok () ⟨c.loaded, target, value, mask⟩ := by
  rw [delayedLoad, EStateM.bind_of_ok (completeLoad_eq hwf)]
  rfl

theorem finishLoad_eq {c : Cpu} (hwf : c.WF) : finishLoad c = .ok () c.finish :=
  delayedLoad_eq hwf 0 0 0

namespace Instruction

/-! ## Decoded instructions -/

/-- What `decode` guarantees to `execute` and `writeBack`. -/
structure Decoded (i : Instruction) : Prop where
  consistent : i.info.Consistent
  size : i.info.operation = .load ∨ i.info.operation = .store → AccessSize i.size
  dstReg : i.info.test .dst = true ∨ i.info.test .delayedload = true →
    0 ≤ i.dstReg ∧ i.dstReg < 32

theorem decode_decoded (registers : Nat → BitVec 32) (value : BitVec 32) :
    (decode registers value).Decoded := by
  have hcon := Mips.info_consistent (fields value).op (fields value).rt (fields value).func
  have hrt := (fields value).rt.isLt
  have hrd := (fields value).rd.isLt
  constructor
  · exact hcon
  · intro hop
    simp only [decode] at hop ⊢
    rcases hcon.sized hop with h | h | h
    · simp [h, AccessSize]
    · rw [h]
      split <;> simp [AccessSize]
    · rw [h]
      split
      · simp [AccessSize]
      · split <;> simp [AccessSize]
  · intro hflag
    simp only [decode] at hflag ⊢
    split
    · decide
    · rename_i hra
      have hformat : (Mips.info (fields value).op (fields value).rt (fields value).func).format =
          .ifmt ∨ (Mips.info (fields value).op (fields value).rt (fields value).func).format =
          .rfmt := by
        rcases hflag with h | h
        · exact (hcon.destination h).resolve_left hra
        · exact Or.inl (hcon.delayed h).1
      rcases hformat with h | h <;> rw [h] <;> simp only <;> omega

/-- `execute` only assigns to `dst`, `mask` and `branch`. -/
structure SameTarget (i i' : Instruction) : Prop where
  info : i'.info = i.info
  size : i'.size = i.size
  nextPC : i'.nextPC = i.nextPC
  dstReg : i'.dstReg = i.dstReg
  jtarget : i'.jtarget = i.jtarget

theorem Decoded.sameTarget {i i' : Instruction} (h : i.Decoded) (hs : i.SameTarget i') :
    i'.Decoded := by
  constructor
  · rw [hs.info]
    exact h.consistent
  · rw [hs.info, hs.size]
    exact h.size
  · rw [hs.info, hs.dstReg]
    exact h.dstReg

/-- The registers and the load once `advanceLoad` is done. -/
def loadState (i : Instruction) (c : Cpu) : Cpu :=
  if i.info.test .delayedload then ⟨c.loaded, i.dstReg, int i.dst, i.mask⟩ else c.finish

/-- The registers once `writeDst` is done. -/
def dstState (i : Instruction) (c : Cpu) : Cpu :=
  if i.info.test .dst && i.dstReg ≠ 0 then
    c.setReg i.dstReg.toNat (if i.info.test .link then i.nextPC else int i.dst)
  else c

/-- The registers once the program counters have advanced. -/
def pcState (i : Instruction) (c : Cpu) : Cpu :=
  (c.setReg regPC (c.registers regNextPC)).setReg regNextPC
    (if i.info.test .branch && i.branch then i.jtarget else i.nextPC)

/-- The registers after `writeBack`. -/
def commit (i : Instruction) (c : Cpu) : Cpu := i.pcState (i.dstState (i.loadState c))

/-- Registers a program can name, after an instruction that writes none. -/
theorem commit_registers {i : Instruction} (hdst : i.info.test .dst = false) (c : Cpu) {r : Nat} (hr : r < regPC) :
    (i.commit c).registers r = c.loaded r := by
  have hpc : r ≠ regPC := by omega
  have hnext : r ≠ regNextPC := by
    simp only [regPC, regNextPC] at *
    omega
  simp only [commit, pcState, dstState, hdst, Bool.false_and, Bool.false_eq_true, if_false,
    Cpu.setReg_registers, Function.update_of_ne hpc, Function.update_of_ne hnext, loadState]
  split <;> rfl

theorem advanceLoad_eq (i : Instruction) {c : Cpu} (hwf : c.WF) :
    advanceLoad i c = .ok () (i.loadState c) := by
  simp only [advanceLoad, loadState]
  split
  · exact delayedLoad_eq hwf _ _ _
  · exact finishLoad_eq hwf

theorem writeDst_eq {i : Instruction} (hi : i.Decoded) (c : Cpu) :
    writeDst i c = .ok () (i.dstState c) := by
  simp only [writeDst, dstState]
  split
  · rename_i hdst
    simp only [Bool.and_eq_true] at hdst
    have hreg := hi.dstReg (Or.inl hdst.1)
    refine setRegister_eq ⟨hreg.1, ?_⟩ _ _
    simp only [numUserRegisters]
    omega
  · rfl

/-- `writeBack` of a decoded instruction either throws at its start or commits. -/
theorem writeBack_eq {i : Instruction} (hi : i.Decoded) {c : Cpu} (hwf : c.WF) :
    writeBack i c = if i.overflows then .error (.mips .overflow none) c
      else .ok () (i.commit c) := by
  rw [writeBack, checkOverflow]
  split
  · rfl
  · show (advanceLoad i >>= _) c = _
    rw [EStateM.bind_of_ok (advanceLoad_eq i hwf), EStateM.bind_of_ok (writeDst_eq hi _)]
    rfl

theorem commit_wf {i : Instruction} (hi : i.Decoded) {c : Cpu} (hwf : c.WF) : (i.commit c).WF := by
  have hload : (i.loadState c).WF := by
    simp only [loadState]
    split
    · rename_i hdelayed
      exact hwf.load (hi.dstReg (Or.inr hdelayed)) _ _
    · exact hwf.finish
  have hdst : (i.dstState (i.loadState c)).WF := by
    simp only [dstState]
    split
    · rename_i hwrite
      simp only [Bool.and_eq_true, decide_eq_true_eq] at hwrite
      have := hi.dstReg (Or.inl hwrite.1)
      exact hload.setReg (by omega) _
    · exact hload
  exact (hdst.setReg (by decide) _).setReg (by decide) _

end Instruction

/-! ## Actions on a part of the machine -/

section

variable {M : Type} {α : Type} {s s' : Machine M} {a : α} {e : Fault}

theorem onCpu_ok {x : EStateM Fault Cpu α} :
    onCpu x s = .ok a s' ↔ x s.cpu = .ok a s'.cpu ∧ s'.memory = s.memory := by
  obtain ⟨c, m⟩ := s
  obtain ⟨c', m'⟩ := s'
  simp only [onCpu]
  cases x c with
  | ok =>
    simp
    tauto
  | error => simp

theorem onCpu_error {x : EStateM Fault Cpu α} :
    onCpu x s = .error e s' ↔ x s.cpu = .error e s'.cpu ∧ s'.memory = s.memory := by
  obtain ⟨c, m⟩ := s
  obtain ⟨c', m'⟩ := s'
  simp only [onCpu]
  cases x c with
  | ok => simp
  | error =>
    simp
    tauto

theorem onMemory_ok {x : EStateM Fault M α} :
    onMemory x s = .ok a s' ↔ x s.memory = .ok a s'.memory ∧ s'.cpu = s.cpu := by
  obtain ⟨c, m⟩ := s
  obtain ⟨c', m'⟩ := s'
  simp only [onMemory]
  cases x m with
  | ok =>
    simp
    tauto
  | error => simp

theorem onMemory_error {x : EStateM Fault M α} :
    onMemory x s = .error e s' ↔ x s.memory = .error e s'.memory ∧ s'.cpu = s.cpu := by
  obtain ⟨c, m⟩ := s
  obtain ⟨c', m'⟩ := s'
  simp only [onMemory]
  cases x m with
  | ok => simp
  | error =>
    simp
    tauto

end

/-! ## What an instruction that does not complete leaves -/

/-- Nothing has happened that a program could see: registers, load in progress and bytes are
    the same, and every page is still where it was. -/
structure Untouched (s₀ s : Machine Memory) : Prop where
  cpu : s.cpu = s₀.cpu
  mapping : s₀.memory.SameMapping s.memory
  bytes : s.memory.mainMemory = s₀.memory.mainMemory

theorem Untouched.refl (s : Machine Memory) : Untouched s s :=
  ⟨rfl, Memory.SameMapping.refl _, rfl⟩

/-- The exceptions that report an address. -/
def Cause.ofAccess : Cause → Bool
  | .addressError => true
  | cause => cause.ofPage

/-- The address at which an instruction reads or writes memory. -/
def Instruction.access (i : Instruction) : Option (BitVec 32) :=
  match i.info.operation with
  | .load | .store => some i.addr
  -- the operations on partial words read the word that the address is in
  | .lwl | .lwr | .swl | .swr => some (i.addr &&& ~~~ 3)
  | _ => none

/-- The address of the access in progress: the PC while the instruction is not decoded. -/
def accessed (s₀ : Machine Memory) : Option Instruction → Option (BitVec 32)
  | none => some (s₀.cpu.registers regPC)
  | some i => i.access

/-- A signed division by something other than 0. -/
def Instruction.Divides (i : Instruction) : Prop := i.info.operation = .div ∧ i.src2 ≠ 0

/-- `Lo` and `Hi` as the division writes them. -/
def Instruction.divided (i : Instruction) (c : Cpu) : Cpu :=
  (c.setReg regLo (int (i.src1.sdiv i.src2))).setReg regHi (int (i.src1.srem i.src2))

/-- An exception is precise: the memory is untouched, and so are the registers, but that a
    division, whose result is found to overflow, has written `Lo` and `Hi`. An address is
    reported by the exceptions of an access, and it is the one that was accessed. -/
structure Precise (s₀ s : Machine Memory) (decoded : Option Instruction) (cause : Cause)
    (badVAddr : Option (BitVec 32)) : Prop where
  mapping : s₀.memory.SameMapping s.memory
  bytes : s.memory.mainMemory = s₀.memory.mainMemory
  cpu : (s.cpu = s₀.cpu ∧ ∀ i ∈ decoded, ¬ i.Divides) ∨
    ∃ i ∈ decoded, i.Divides ∧ cause = .overflow ∧ s.cpu = i.divided s₀.cpu
  isSome : badVAddr.isSome = cause.ofAccess
  address : ∀ v ∈ badVAddr, accessed s₀ decoded = some v

/-- An exception without an address. -/
theorem Untouched.precise_none {s₀ s : Machine Memory} (h : Untouched s₀ s) {i : Instruction}
    (hdiv : ¬ i.Divides) {cause : Cause} (hcause : cause.ofAccess = false) :
    Precise s₀ s (some i) cause none :=
  ⟨h.mapping, h.bytes, Or.inl ⟨h.cpu, by simpa using hdiv⟩, hcause.symm, by simp⟩

/-- A division accesses no memory. -/
theorem not_divides_of_accessed {s₀ : Machine Memory} {decoded : Option Instruction} {v : BitVec 32}
    (hv : accessed s₀ decoded = some v) : ∀ i ∈ decoded, ¬ i.Divides := by
  rintro i hi ⟨hop, -⟩
  obtain rfl : decoded = some i := hi
  simp [accessed, Instruction.access, hop] at hv

/-- An exception of the access in progress. -/
theorem Untouched.precise_some {s₀ s : Machine Memory} (h : Untouched s₀ s)
    {decoded : Option Instruction} {v : BitVec 32} (hv : accessed s₀ decoded = some v)
    {cause : Cause} (hcause : cause.ofAccess = true) :
    Precise s₀ s decoded cause (some v) := by
  refine ⟨h.mapping, h.bytes, Or.inl ⟨h.cpu, not_divides_of_accessed hv⟩, hcause.symm,
    fun w hw => ?_⟩
  rw [hv, Option.mem_some.mp hw]

/-- The ways an instruction may fail. -/
def Fails (s₀ : Machine Memory) (decoded : Option Instruction) (e : Fault) (s : Machine Memory) :
    Prop :=
  ∃ cause badVAddr, e = .mips cause badVAddr ∧ Precise s₀ s decoded cause badVAddr

/-- What `translate` throws reports the address it was given. -/
theorem ofAccess_of_translate {m m' : Memory} {v : BitVec 32} {n : Nat} {writing : Bool}
    {e : Fault} (h : Memory.translate v n writing m = .error e m') :
    m' = m ∧ ∃ cause, e = .mips cause (some v) ∧ cause.ofAccess = true := by
  obtain ⟨hmem, cause, he, hcause⟩ := Memory.translate_error h
  refine ⟨hmem, cause, he, ?_⟩
  rcases hcause with ⟨rfl, -⟩ | ⟨hpage, -⟩
  · rfl
  · cases cause <;> first | rfl | exact nomatch hpage

/-- A load on the way does not show. -/
theorem readMem_ensures (s₀ : Machine Memory) {decoded : Option Instruction} {n : Nat}
    (hn : AccessSize n) {v : BitVec 32} (hv : accessed s₀ decoded = some v) :
    Ensures (Untouched s₀) (onMemory (Bus.readMem v n)) (fun _ => Untouched s₀)
      (Fails s₀ decoded) := by
  intro s h
  constructor
  · intro value s' hread
    obtain ⟨hread, hcpu⟩ := onMemory_ok.mp hread
    obtain ⟨-, p, htr, -⟩ := Memory.readMem_ok hread
    obtain ⟨-, hsame, hbytes, -⟩ := Memory.translate_ok htr
    exact ⟨hcpu.trans h.cpu, h.mapping.trans hsame, hbytes.trans h.bytes⟩
  · intro e s' hread
    obtain ⟨hread, hcpu⟩ := onMemory_error.mp hread
    obtain ⟨hmem, cause, rfl, hcause⟩ := ofAccess_of_translate (Memory.readMem_error hn hread)
    have hun : Untouched s₀ s' := ⟨hcpu.trans h.cpu, hmem ▸ h.mapping, hmem ▸ h.bytes⟩
    exact ⟨cause, some v, rfl, hun.precise_some hv hcause⟩

/-- A store that completes keeps the mapping, one that fails does not show. -/
theorem writeMem_ensures (s₀ : Machine Memory) {decoded : Option Instruction} {n : Nat}
    (hn : AccessSize n) {v : BitVec 32} (hv : accessed s₀ decoded = some v) (value : BitVec 32) :
    Ensures (Untouched s₀) (onMemory (Bus.writeMem v n value))
      (fun _ s => s.cpu = s₀.cpu ∧ s₀.memory.SameMapping s.memory) (Fails s₀ decoded) := by
  intro s h
  constructor
  · intro _ s' hwrite
    obtain ⟨hwrite, hcpu⟩ := onMemory_ok.mp hwrite
    obtain ⟨-, p, m₁, htr, hm⟩ := Memory.writeMem_ok hwrite
    obtain ⟨-, hsame, -⟩ := Memory.translate_ok htr
    have hsame' := h.mapping.trans hsame
    refine ⟨hcpu.trans h.cpu, ?_⟩
    rw [hm]
    exact ⟨hsame'.numPhysPages, hsame'.mapping, hsame'.missing⟩
  · intro e s' hwrite
    obtain ⟨hwrite, hcpu⟩ := onMemory_error.mp hwrite
    obtain ⟨hmem, cause, rfl, hcause⟩ := ofAccess_of_translate (Memory.writeMem_error hn hwrite)
    have hun : Untouched s₀ s' := ⟨hcpu.trans h.cpu, hmem ▸ h.mapping, hmem ▸ h.bytes⟩
    exact ⟨cause, some v, rfl, hun.precise_some hv hcause⟩

namespace Instruction

/-- What `execute` leaves to `writeBack`: an instruction that may still overflow has changed
    nothing. -/
structure Executed (s₀ : Machine Memory) (i i' : Instruction) (s : Machine Memory) : Prop where
  target : i.SameTarget i'
  wf : s.cpu.WF
  mapping : s₀.memory.SameMapping s.memory
  untouched : i.info.test .overflow = true → Untouched s₀ s

/-- The operations that only compute. -/
theorem Executed.alu {s₀ s : Machine Memory} (hwf : s₀.cpu.WF) (h : Untouched s₀ s)
    {i i' : Instruction} (ht : i.SameTarget i') : Executed s₀ i i' s :=
  ⟨ht, h.cpu ▸ hwf, h.mapping, fun _ => h⟩

/-- The operations that write `Lo` or `Hi`. -/
theorem setRegister_ensures {s₀ : Machine Memory} {decoded : Option Instruction} {r : Nat}
    (hr : r = regLo ∨ r = regHi) (value : BitVec 32) :
    Ensures (fun s => s.cpu.WF ∧ s₀.memory.SameMapping s.memory)
      (onCpu (setRegister r value)) (fun _ s => s.cpu.WF ∧ s₀.memory.SameMapping s.memory)
      (Fails s₀ decoded) := by
  have hbound : 0 ≤ (r : Int) ∧ (r : Int) < numUserRegisters := by
    rcases hr with rfl | rfl <;> decide
  have hne : r ≠ 0 := by rcases hr with rfl | rfl <;> decide
  intro s h
  constructor
  · intro _ s' hset
    obtain ⟨hset, hmem⟩ := onCpu_ok.mp hset
    rw [setRegister_eq hbound, EStateM.Result.ok.injEq] at hset
    rw [← hset.2, hmem]
    exact ⟨h.1.setReg hne value, h.2⟩
  · intro e s' hset
    rw [onCpu_error, setRegister_eq hbound] at hset
    exact nomatch hset.1

theorem Executed.of_not_overflow {s₀ s : Machine Memory} {i i' : Instruction}
    (ht : i.SameTarget i') (hover : i.info.test .overflow = false)
    (h : s.cpu.WF ∧ s₀.memory.SameMapping s.memory) : Executed s₀ i i' s :=
  ⟨ht, h.1, h.2, fun h => absurd h (by simp [hover])⟩

/-- The case `DIV`, run by itself. -/
theorem divide_eq (src1 src2 : BitVec 64) (c : Cpu) :
    divide src1 src2 c =
      if src2 = 0 then .error (.mips .overflow none) c
      else
        let lo := int (src1.sdiv src2)
        let hi := int (src1.srem src2)
        let c := (c.setReg regLo lo).setReg regHi hi
        if long lo * src2 + long hi ≠ src1 then .error (.mips .overflow none) c else .ok () c := by
  rw [divide]
  split
  · rfl
  · have hlo : 0 ≤ (regLo : Int) ∧ (regLo : Int) < numUserRegisters := by decide
    have hhi : 0 ≤ (regHi : Int) ∧ (regHi : Int) < numUserRegisters := by decide
    rw [EStateM.bind_of_ok (setRegister_eq hlo _ c), EStateM.bind_of_ok (setRegister_eq hhi _ _),
      EStateM.bind_of_ok (getRegister_eq hlo _), EStateM.bind_of_ok (getRegister_eq hhi _)]
    have hread (lo hi : BitVec 32) :
        ((c.setReg regLo lo).setReg regHi hi).registers regLo = lo ∧
          ((c.setReg regLo lo).setReg regHi hi).registers regHi = hi := by
      simp [regLo, regHi]
    simp only [Int.toNat_natCast, hread]
    split <;> rfl

/-- A division that fails has changed nothing, or `Lo` and `Hi`. -/
theorem divide_ensures {s₀ : Machine Memory} (hwf : s₀.cpu.WF) {i : Instruction}
    (hop : i.info.operation = .div) : Ensures (Untouched s₀) (onCpu (divide i.src1 i.src2))
      (fun _ s => s.cpu.WF ∧ s₀.memory.SameMapping s.memory) (Fails s₀ (some i)) := by
  intro s h
  constructor
  · intro _ s' hdiv
    obtain ⟨hdiv, hmem⟩ := onCpu_ok.mp hdiv
    rw [divide_eq] at hdiv
    split at hdiv
    · cases hdiv
    · simp only at hdiv
      split at hdiv
      · cases hdiv
      · rw [EStateM.Result.ok.injEq] at hdiv
        rw [← hdiv.2, hmem, h.cpu]
        exact ⟨(hwf.setReg (by decide) _).setReg (by decide) _, h.mapping⟩
  · intro e s' hdiv
    obtain ⟨hdiv, hmem⟩ := onCpu_error.mp hdiv
    rw [divide_eq] at hdiv
    split at hdiv
    · -- a division by zero
      simp only [EStateM.Result.error.injEq] at hdiv
      obtain ⟨rfl, hcpu⟩ := hdiv
      have hun : Untouched s₀ s' := ⟨hcpu.symm.trans h.cpu, hmem ▸ h.mapping, hmem ▸ h.bytes⟩
      exact ⟨.overflow, none, rfl, hun.precise_none (fun hi => hi.2 ‹_›) rfl⟩
    · rename_i hsrc
      simp only at hdiv
      split at hdiv
      · -- the check comes after both registers have been written
        simp only [EStateM.Result.error.injEq] at hdiv
        obtain ⟨rfl, hcpu⟩ := hdiv
        refine ⟨.overflow, none, rfl, hmem ▸ h.mapping, hmem ▸ h.bytes, Or.inr ?_, rfl, by simp⟩
        exact ⟨i, rfl, ⟨hop, hsrc⟩, rfl, by rw [← hcpu, h.cpu, divided]⟩
      · cases hdiv

/-- The operations that read `Lo` or `Hi`. -/
theorem getRegister_ensures (s₀ : Machine Memory) {decoded : Option Instruction} {r : Nat}
    (hr : r = regLo ∨ r = regHi) :
    Ensures (Untouched s₀) (onCpu (getRegister r)) (fun _ => Untouched s₀) (Fails s₀ decoded) := by
  have hbound : 0 ≤ (r : Int) ∧ (r : Int) < numUserRegisters := by
    rcases hr with rfl | rfl <;> decide
  intro s h
  constructor
  · intro value s' hget
    obtain ⟨hget, hmem⟩ := onCpu_ok.mp hget
    rw [getRegister_eq hbound, EStateM.Result.ok.injEq] at hget
    exact ⟨hget.2.symm.trans h.cpu, hmem ▸ h.mapping, hmem ▸ h.bytes⟩
  · intro e s' hget
    rw [onCpu_error, getRegister_eq hbound] at hget
    cases hget.1

/-- `execute` keeps what `writeBack` needs; when it fails the exception is precise. -/
theorem execute_ensures {s₀ : Machine Memory} (hwf : s₀.cpu.WF) {i : Instruction}
    (hi : i.Decoded) :
    Ensures (Untouched s₀) (execute i) (fun i' => Executed s₀ i i') (Fails s₀ (some i)) := by
  have halu {i' : Instruction} (ht : i.SameTarget i') :
      Ensures (Untouched s₀) (pure i' : Exec Memory Instruction) (fun i' => Executed s₀ i i')
        (Fails s₀ (some i)) := Ensures.pure fun s h => Executed.alu hwf h ht
  have htrap {cause : Cause} (hdiv : i.info.operation ≠ .div) (hc : cause.ofAccess = false) :
      Ensures (Untouched s₀) (throw (.mips cause none) : Exec Memory Instruction)
        (fun i' => Executed s₀ i i') (Fails s₀ (some i)) :=
    Ensures.throw fun s h => ⟨cause, none, rfl, h.precise_none (fun hi => hdiv hi.1) hc⟩
  have hstart {x : Exec Memory Instruction}
      (h : Ensures (fun s => s.cpu.WF ∧ s₀.memory.SameMapping s.memory) x
        (fun i' => Executed s₀ i i') (Fails s₀ (some i))) :
      Ensures (Untouched s₀) x (fun i' => Executed s₀ i i') (Fails s₀ (some i)) :=
    h.mono (fun s h => ⟨h.cpu ▸ hwf, h.mapping⟩) (fun _ _ h => h) (fun _ _ h => h)
  have hsame : i.SameTarget i := ⟨rfl, rfl, rfl, rfl, rfl⟩
  -- only an addition or a subtraction is checked for overflow
  have hover (hadd : i.info.operation ≠ .add) (hsub : i.info.operation ≠ .sub) :
      i.info.test .overflow = false := by
    cases hflag : i.info.test .overflow with
    | false => rfl
    | true => exact absurd (hi.consistent.checked hflag) (by simp [hadd, hsub])
  have hword : AccessSize 4 := Or.inr (Or.inr rfl)
  simp only [execute]
  cases hop : i.info.operation with
  | add | sub | sll | sra | srl | slt | and | or | nor | xor | lui | beq | bne | bgez | bgtz
  | blez | bltz | jump => exact halu ⟨rfl, rfl, rfl, rfl, rfl⟩
  | invalid | unimpl | syscall => exact htrap (by simp [hop]) rfl
  | mult =>
    have hno := hover (by simp [hop]) (by simp [hop])
    apply hstart
    apply Ensures.bind (setRegister_ensures (Or.inl rfl) _)
    intro _
    apply Ensures.bind (setRegister_ensures (Or.inr rfl) _)
    exact fun _ => Ensures.pure fun s h =>
      Executed.of_not_overflow ⟨rfl, rfl, rfl, rfl, rfl⟩ hno h
  | div =>
    have hno := hover (by simp [hop]) (by simp [hop])
    apply Ensures.bind (divide_ensures hwf hop)
    exact fun _ => Ensures.pure fun s h => Executed.of_not_overflow hsame hno h
  | mflo | mfhi =>
    exact Ensures.bind (getRegister_ensures s₀ (by simp)) fun _ => halu ⟨rfl, rfl, rfl, rfl, rfl⟩
  | mtlo | mthi =>
    have hno := hover (by simp [hop]) (by simp [hop])
    apply hstart
    apply Ensures.bind (setRegister_ensures (by simp) _)
    exact fun _ => Ensures.pure fun s h => Executed.of_not_overflow hsame hno h
  | load =>
    have haddr : accessed s₀ (some i) = some i.addr := by simp [accessed, access, hop]
    apply Ensures.bind (readMem_ensures s₀ (hi.size (Or.inl hop)) haddr)
    intro value
    split <;> exact halu ⟨rfl, rfl, rfl, rfl, rfl⟩
  | lwl | lwr =>
    have haddr : accessed s₀ (some i) = some (i.addr &&& ~~~ 3) := by simp [accessed, access, hop]
    exact Ensures.bind (readMem_ensures s₀ hword haddr) fun _ => halu ⟨rfl, rfl, rfl, rfl, rfl⟩
  | store =>
    have hno := hover (by simp [hop]) (by simp [hop])
    have haddr : accessed s₀ (some i) = some i.addr := by simp [accessed, access, hop]
    apply Ensures.bind (writeMem_ensures s₀ (hi.size (Or.inr hop)) haddr _)
    exact fun _ => Ensures.pure fun s h =>
      Executed.of_not_overflow hsame hno ⟨h.1 ▸ hwf, h.2⟩
  | swl | swr =>
    have hno := hover (by simp [hop]) (by simp [hop])
    have haddr : accessed s₀ (some i) = some (i.addr &&& ~~~ 3) := by simp [accessed, access, hop]
    apply Ensures.bind (readMem_ensures s₀ hword haddr)
    intro value
    apply Ensures.bind (writeMem_ensures s₀ hword haddr _)
    exact fun _ => Ensures.pure fun s h =>
      Executed.of_not_overflow ⟨rfl, rfl, rfl, rfl, rfl⟩ hno ⟨h.1 ▸ hwf, h.2⟩

/-- `writeBack` commits, or throws at its start and changes nothing. -/
theorem writeBack_ensures {s₀ : Machine Memory} {i i' : Instruction} (hi : i.Decoded) :
    Ensures (Executed s₀ i i') (onCpu (writeBack i'))
      (fun _ s => s.cpu.WF ∧ s₀.memory.SameMapping s.memory) (Fails s₀ (some i)) := by
  intro s₁ h₁
  -- `execute` may change the fields of the instruction, but not the register it writes
  have hi' := hi.sameTarget h₁.target
  constructor
  · intro _ s₂ hback
    obtain ⟨hback, hmem⟩ := onCpu_ok.mp hback
    rw [writeBack_eq hi' h₁.wf] at hback
    split at hback
    · cases hback
    · rw [EStateM.Result.ok.injEq] at hback
      rw [← hback.2, hmem]
      exact ⟨commit_wf hi' h₁.wf, h₁.mapping⟩
  · intro e s₂ hback
    obtain ⟨hback, hmem⟩ := onCpu_error.mp hback
    rw [writeBack_eq hi' h₁.wf] at hback
    split at hback
    · rename_i hover
      simp only [EStateM.Result.error.injEq] at hback
      obtain ⟨rfl, hcpu⟩ := hback
      simp only [overflows, Bool.and_eq_true] at hover
      -- an instruction with the flag only computes, so that nothing has changed before the check
      have hun := h₁.untouched (h₁.target.info ▸ hover.1)
      have hun₂ : Untouched s₀ s₂ :=
        ⟨hcpu.symm.trans hun.cpu, hmem ▸ hun.mapping, hmem ▸ hun.bytes⟩
      have hnot : ¬ i.Divides := fun hdiv => by
        rcases hi.consistent.checked (h₁.target.info ▸ hover.1) with h | h <;>
          simp [hdiv.1] at h
      exact ⟨.overflow, none, rfl, hun₂.precise_none hnot rfl⟩
    · cases hback

/-- What has been fetched when an instruction ends: the instruction it is decoded to, or nothing
    if the fetch ends with an exception. -/
def Fetched (s : Machine Memory) : Option Instruction → Prop
  | none => ∃ e s', (fetch : Exec Memory (BitVec 32)) s = .error e s'
  | some i => ∃ value s', fetch s = .ok value s' ∧ i = decode s.cpu.registers value

/-- One instruction: it completes in a state of the same kind, or its exception is precise. -/
theorem run_ensures {s₀ : Machine Memory} (hwf : s₀.cpu.WF) :
    Ensures (· = s₀) run (fun _ s => s.cpu.WF ∧ s₀.memory.SameMapping s.memory)
      (fun e s => ∃ decoded, Fetched s₀ decoded ∧ Fails s₀ decoded e s) := by
  rintro s rfl
  have hpc : accessed s none = some (s.cpu.registers regPC) := rfl
  have hfetch := readMem_ensures s (Or.inr (Or.inr rfl)) hpc s (Untouched.refl s)
  cases hresult : (fetch : Exec Memory (BitVec 32)) s with
  | error e s' =>
    rw [run, EStateM.bind_of_error hresult]
    refine ⟨fun _ _ h => (nomatch h), fun e' s'' h => ?_⟩
    obtain ⟨rfl, rfl⟩ := (EStateM.Result.error.injEq ..).mp h
    exact ⟨none, ⟨_, _, hresult⟩, hfetch.2 _ _ hresult⟩
  | ok value s' =>
    have hun := hfetch.1 _ _ hresult
    have hi := decode_decoded s.cpu.registers value
    rw [run, EStateM.bind_of_ok hresult, EStateM.get_bind, hun.cpu]
    have hrest : Ensures (Untouched s) (execute (decode s.cpu.registers value) >>= fun i =>
        onCpu (writeBack i)) (fun _ s' => s'.cpu.WF ∧ s.memory.SameMapping s'.memory)
        (Fails s (some (decode s.cpu.registers value))) :=
      Ensures.bind (execute_ensures hwf hi) fun i' => writeBack_ensures hi
    refine ⟨(hrest s' hun).1, fun e s'' h => ?_⟩
    exact ⟨some (decode s.cpu.registers value), ⟨value, s', hresult, rfl⟩, (hrest s' hun).2 e s'' h⟩

end Instruction

/-! ## Whole runs -/

/-- What the kernel may do to the machine while it runs: it writes registers through
    `writeRegister`, which refuses register 0, and it changes physical memory and the
    translations as it likes. -/
structure KernelStep (s s' : Machine Memory) : Prop where
  zero : s'.cpu.registers 0 = s.cpu.registers 0
  target : s'.cpu.loadTarget = s.cpu.loadTarget

/-- One turn of the loop of `Processor.run`. An exception goes through `handle` to the
    kernel; an interrupt, which may come after any instruction, flushes the pipe first. -/
inductive Cycle : Machine Memory → Machine Memory → Prop where
  | completes {s s' : Machine Memory} (hrun : Instruction.run s = .ok () s') : Cycle s s'
  | excepts {s s₁ s' : Machine Memory} {cause : Cause} {badVAddr : Option (BitVec 32)} {c : Cpu}
      (hrun : Instruction.run s = .error (.mips cause badVAddr) s₁)
      (hhandle : handle cause badVAddr s₁.cpu = .ok () c)
      (hkernel : KernelStep { s₁ with cpu := c } s') : Cycle s s'
  | interrupted {s s' : Machine Memory} {c : Cpu} (hflush : finishLoad s.cpu = .ok () c)
      (hkernel : KernelStep { s with cpu := c } s') : Cycle s s'

/-- The registers that the constructor leaves. -/
def Cpu.initial : Cpu := ⟨fun _ => 0, 0, 0, 0⟩

theorem Cpu.wf_initial : Cpu.initial.WF := ⟨by decide, by decide, rfl⟩

/-- The registers `handle` leaves. -/
def Cpu.reported (c : Cpu) (cause : Cause) : Option (BitVec 32) → Cpu
  | none => (c.setReg regCause cause.code).finish
  | some vaddr => ((c.setReg regCause cause.code).setReg regBadVAddr vaddr).finish

/-- The entry to the kernel itself never fails. -/
theorem handle_eq {c : Cpu} (hwf : c.WF) (cause : Cause) (badVAddr : Option (BitVec 32)) :
    handle cause badVAddr c = .ok () (c.reported cause badVAddr) := by
  have hset := hwf.setReg (show regCause ≠ 0 by decide) cause.code
  rw [handle, EStateM.bind_of_ok (setRegister_eq (by decide) _ c), Cpu.reported.eq_def]
  cases badVAddr with
  | none => exact finishLoad_eq hset
  | some vaddr =>
    show (setRegister regBadVAddr vaddr >>= _) _ = _
    rw [EStateM.bind_of_ok (setRegister_eq (by decide) _ _)]
    exact finishLoad_eq (hset.setReg (show regBadVAddr ≠ 0 by decide) vaddr)

theorem Cpu.WF.reported {c : Cpu} (hwf : c.WF) (cause : Cause) (badVAddr : Option (BitVec 32)) :
    (c.reported cause badVAddr).WF := by
  have hset := hwf.setReg (show regCause ≠ 0 by decide) cause.code
  cases badVAddr with
  | none => exact hset.finish
  | some vaddr => exact (hset.setReg (show regBadVAddr ≠ 0 by decide) vaddr).finish

theorem KernelStep.wf {s s' : Machine Memory} (h : KernelStep s s') (hwf : s.cpu.WF) :
    s'.cpu.WF :=
  ⟨h.target ▸ hwf.target_nonneg, h.target ▸ hwf.target_lt, h.zero.trans hwf.zero⟩

/-- An exception leaves registers of the same kind. -/
theorem Precise.wf {s₀ s : Machine Memory} {decoded : Option Instruction} {cause : Cause}
    {badVAddr : Option (BitVec 32)} (h : Precise s₀ s decoded cause badVAddr) (hwf : s₀.cpu.WF) :
    s.cpu.WF := by
  rcases h.cpu with ⟨hcpu, -⟩ | ⟨i, -, -, -, hcpu⟩
  · rw [hcpu]
    exact hwf
  · rw [hcpu]
    exact (hwf.setReg (by decide) _).setReg (by decide) _

theorem Cycle.wf {s s' : Machine Memory} (h : Cycle s s') (hwf : s.cpu.WF) : s'.cpu.WF := by
  cases h with
  | completes hrun => exact ((Instruction.run_ensures hwf s rfl).1 _ _ hrun).1
  | excepts hrun hhandle hkernel =>
    -- the exception leaves the registers in order, so that `handle` is the write of two of them
    obtain ⟨decoded, -, cause, b, he, hprecise⟩ :=
      (Instruction.run_ensures hwf s rfl).2 _ _ hrun
    have hwf₁ := hprecise.wf hwf
    rw [handle_eq hwf₁, EStateM.Result.ok.injEq] at hhandle
    exact hkernel.wf (hhandle.2 ▸ hwf₁.reported _ _)
  | interrupted hflush hkernel =>
    rw [finishLoad_eq hwf, EStateM.Result.ok.injEq] at hflush
    exact hkernel.wf (hflush.2 ▸ hwf.finish)

theorem wf_of_reachable {s s' : Machine Memory} (h : Relation.ReflTransGen Cycle s s')
    (hwf : s.cpu.WF) : s'.cpu.WF := by
  induction h with
  | refl => exact hwf
  | tail _ hstep ih => exact hstep.wf ih

/-- Whatever the program and the kernel do, register 0 stays zero, and no instruction word
    makes the interpreter leave the bounds of an array or fail an assertion: it completes, or
    it ends with an exception that reaches the kernel. -/
theorem reachable_safe {m : Memory} {s : Machine Memory}
    (h : Relation.ReflTransGen Cycle ⟨Cpu.initial, m⟩ s) :
    s.cpu.registers 0 = 0 ∧
      ((∃ s', Instruction.run s = .ok () s') ∨
        ∃ cause badVAddr s₁ c, Instruction.run s = .error (.mips cause badVAddr) s₁ ∧
          handle cause badVAddr s₁.cpu = .ok () c) := by
  have hwf := wf_of_reachable h Cpu.wf_initial
  refine ⟨hwf.zero, ?_⟩
  obtain ⟨-, herror⟩ := Instruction.run_ensures hwf s rfl
  cases hrun : Instruction.run s with
  | ok _ s' => exact Or.inl ⟨s', rfl⟩
  | error e s₁ =>
    obtain ⟨decoded, -, cause, badVAddr, rfl, hprecise⟩ := herror e s₁ hrun
    exact Or.inr ⟨cause, badVAddr, s₁, _, rfl, handle_eq (hprecise.wf hwf) _ _⟩

/-- A processor without memory and without a page table. -/
def bare : Machine Memory := ⟨Cpu.initial, 0, .pageTable none, fun _ => 0, by decide⟩

theorem run_bare : Instruction.run bare = .error (.mips .pageFault (some 0)) bare := rfl

/-- After the page fault of the first fetch the kernel gives the program a page full of one
    instruction, and two registers. -/
def filled (value a b : BitVec 32) : Machine Memory :=
  ⟨((Cpu.initial.reported .pageFault (some 0)).setReg 1 a).setReg 2 b,
    1, .pageTable (some [some { valid := true }]), fun p => byteFromInt value (p % 4), by decide⟩

theorem cycle_filled (value a b : BitVec 32) : Cycle bare (filled value a b) :=
  .excepts run_bare rfl ⟨rfl, rfl⟩

/-- The program adds 3 to 2. -/
theorem reachable_safe_added : ∃ s, Instruction.run (filled 0x00221821 2 3) = .ok () s ∧
    s.cpu.registers 3 = 5 ∧ s.cpu.registers 0 = 0 ∧
      ((∃ s', Instruction.run s = .ok () s') ∨
        ∃ cause badVAddr s₁ c, Instruction.run s = .error (.mips cause badVAddr) s₁ ∧
          handle cause badVAddr s₁.cpu = .ok () c) :=
  ⟨_, rfl, rfl, reachable_safe (m := bare.memory)
    ((Relation.ReflTransGen.single (cycle_filled 0x00221821 2 3)).tail (.completes rfl))⟩

end Processor

end Nachos
