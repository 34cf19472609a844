import Coursework.Nachos.Spec.PreciseExceptions

/-!
# Page faults and interrupts do not show

The processor with translations, together with a kernel that gives back what it took, runs a
user program as a processor with flat memory does, instruction for instruction: page faults,
TLB misses and interrupts leave no trace. The one thing a program can see of them is that an
exception completes a delayed load early, so the theorem is about programs that do not use a
register in the instruction after the load into it. On the flat side there is then one run
only, whatever the kernel's schedule is.
-/

namespace Nachos

namespace Processor

open EStateM (Ensures Simulates ReadOnly)

/-! ## Registers a program can see -/

/-- Two processors that differ in the registers `Cause` and `BadVAddr` at most. -/
structure SameUser (c d : Cpu) : Prop where
  registers : ∀ r < regCause, c.registers r = d.registers r
  loadTarget : c.loadTarget = d.loadTarget
  loadValue : c.loadValue = d.loadValue
  loadMask : c.loadMask = d.loadMask

namespace SameUser

variable {c d e : Cpu}

theorem refl (c : Cpu) : SameUser c c := ⟨fun _ _ => rfl, rfl, rfl, rfl⟩

theorem symm (h : SameUser c d) : SameUser d c :=
  ⟨fun r hr => (h.registers r hr).symm, h.loadTarget.symm, h.loadValue.symm, h.loadMask.symm⟩

theorem trans (h : SameUser c d) (h' : SameUser d e) : SameUser c e :=
  ⟨fun r hr => (h.registers r hr).trans (h'.registers r hr), h.loadTarget.trans h'.loadTarget,
    h.loadValue.trans h'.loadValue, h.loadMask.trans h'.loadMask⟩

theorem wf (h : SameUser c d) (hc : c.WF) : d.WF :=
  ⟨h.loadTarget ▸ hc.target_nonneg, h.loadTarget ▸ hc.target_lt,
    (h.registers 0 (by decide)).symm.trans hc.zero⟩

theorem setReg (h : SameUser c d) (i : Nat) (value : BitVec 32) :
    SameUser (c.setReg i value) (d.setReg i value) := by
  refine ⟨fun r hr => ?_, h.loadTarget, h.loadValue, h.loadMask⟩
  simp only [Cpu.setReg_registers, Function.update_apply]
  split
  · rfl
  · exact h.registers r hr

/-- A write to a register that no program can see. -/
theorem setReg_hidden (c : Cpu) {i : Nat} (hi : regCause ≤ i) (value : BitVec 32) :
    SameUser (c.setReg i value) c := by
  refine ⟨fun r hr => ?_, rfl, rfl, rfl⟩
  exact Function.update_of_ne (by omega) _ _

theorem loaded (h : SameUser c d) (hc : c.WF) : ∀ r < regCause, c.loaded r = d.loaded r := by
  intro r hr
  have := hc.target_nonneg
  have hlt := hc.target_lt
  simp only [Cpu.loaded, ← h.loadTarget, ← h.loadValue, ← h.loadMask]
  split
  · exact h.registers r hr
  · rw [h.registers c.loadTarget.toNat (by simp only [regCause]; omega)]
    simp only [Function.update_apply]
    split
    · rfl
    · exact h.registers r hr

theorem finish (h : SameUser c d) (hc : c.WF) : SameUser c.finish d.finish :=
  ⟨h.loaded hc, rfl, rfl, rfl⟩

end SameUser

/-! ## The operands of an instruction -/

/-- The operations that use `src1`. -/
def usesSrc1 : Mips.Operation → Bool
  | .add | .sub | .mult | .div | .sll | .sra | .srl | .slt | .and | .or | .nor | .xor
  | .beq | .bne | .bgez | .bgtz | .blez | .bltz | .mtlo | .mthi => true
  | _ => false

/-- The operations that use `src2`. -/
def usesSrc2 : Mips.Operation → Bool
  | .add | .sub | .mult | .div | .sll | .sra | .srl | .slt | .and | .or | .nor | .xor
  | .beq | .bne | .store | .swl | .swr => true
  | _ => false

/-- The operations that use `addr`. -/
def usesAddr : Mips.Operation → Bool
  | .load | .lwl | .lwr | .store | .swl | .swr => true
  | _ => false

namespace Instruction

/-- Two decoded instructions that agree on what `execute` and `writeBack` use of them. -/
structure Agree (i j : Instruction) : Prop where
  info : j.info = i.info
  size : j.size = i.size
  imm : j.imm = i.imm
  nextPC : j.nextPC = i.nextPC
  dstReg : j.dstReg = i.dstReg
  dst : j.dst = i.dst
  mask : j.mask = i.mask
  branch : j.branch = i.branch
  src1 : usesSrc1 i.info.operation = true → j.src1 = i.src1
  src2 : usesSrc2 i.info.operation = true → j.src2 = i.src2
  addr : usesAddr i.info.operation = true → j.addr = i.addr
  jtarget : i.info.test .branch = true → j.jtarget = i.jtarget

theorem Agree.refl (i : Instruction) : Agree i i :=
  ⟨rfl, rfl, rfl, rfl, rfl, rfl, rfl, rfl, fun _ => rfl, fun _ => rfl, fun _ => rfl, fun _ => rfl⟩

/-- Two executed instructions that agree on what `writeBack` uses of them. -/
structure Ready (i j : Instruction) : Prop where
  info : j.info = i.info
  nextPC : j.nextPC = i.nextPC
  dstReg : j.dstReg = i.dstReg
  dst : j.dst = i.dst
  mask : j.mask = i.mask
  branch : j.branch = i.branch
  jtarget : i.info.test .branch = true → j.jtarget = i.jtarget

/-- `writeBack` of two instructions that agree is the same. -/
theorem Ready.writeBack {i j : Instruction} (h : Ready i j) : j.writeBack = i.writeBack := by
  simp only [Instruction.writeBack, checkOverflow, overflows, advanceLoad, writeDst, h.info,
    h.nextPC, h.dstReg, h.dst, h.mask, h.branch]
  cases hbranch : i.info.test .branch with
  | false => simp
  | true =>
    rw [h.jtarget hbranch]
    rfl

end Instruction

/-! ## Instructions on machines that correspond -/

section

variable {M N : Type}

/-- Machines whose registers and memories correspond. -/
def Both (C : Cpu → Cpu → Prop) (S : M → N → Prop) (s : Machine M) (t : Machine N) : Prop :=
  C s.cpu t.cpu ∧ S s.memory t.memory

/-- What registers must have in common for `execute` to do the same on both. -/
structure CpuSimulates (C : Cpu → Cpu → Prop) : Prop where
  get : ∀ c d, C c d → ∀ r, r = regLo ∨ r = regHi → c.registers r = d.registers r
  set : ∀ c d, C c d → ∀ r, r = regLo ∨ r = regHi → ∀ value, C (c.setReg r value) (d.setReg r value)

/-- What the accesses of two memories must have in common. -/
structure BusSimulates [Bus M] [Bus N] (skip : Fault → Prop) (S : M → N → Prop) : Prop where
  read : ∀ v n, AccessSize n → Simulates skip S S (Bus.readMem v n : EStateM Fault M _)
    (Bus.readMem v n : EStateM Fault N _) fun a b m f => a = b ∧ S m f
  write : ∀ v n value, AccessSize n → Simulates skip S S
    (Bus.writeMem v n value : EStateM Fault M _) (Bus.writeMem v n value : EStateM Fault N _)
    fun _ _ m f => S m f
  readOnly : ∀ v n, ReadOnly (Bus.readMem v n : EStateM Fault N (BitVec 32))

variable {skip : Fault → Prop} {C : Cpu → Cpu → Prop} {S : M → N → Prop}

theorem onMemory_simulates {α : Type} {x : EStateM Fault M α} {y : EStateM Fault N α}
    {Q : α → α → Prop} (h : Simulates skip S S x y fun a b m f => Q a b ∧ S m f) :
    Simulates skip (Both C S) (Both C S) (onMemory x) (onMemory y)
      fun a b s t => Q a b ∧ Both C S s t := by
  intro s t hst
  obtain ⟨hok, herror⟩ := h _ _ hst.2
  constructor
  · intro a s' hx
    obtain ⟨hx, hcpu⟩ := onMemory_ok.mp hx
    obtain ⟨b, f, hy, hQ, hS⟩ := hok a _ hx
    exact ⟨b, ⟨t.cpu, f⟩, onMemory_ok.mpr ⟨hy, rfl⟩, hQ, hcpu ▸ hst.1, hS⟩
  · intro e s' hx
    obtain ⟨hx, hcpu⟩ := onMemory_error.mp hx
    rcases herror e _ hx with ⟨hskip, hS⟩ | ⟨f, hy, hS⟩
    · exact Or.inl ⟨hskip, hcpu ▸ hst.1, hS⟩
    · exact Or.inr ⟨⟨t.cpu, f⟩, onMemory_error.mpr ⟨hy, rfl⟩, hcpu ▸ hst.1, hS⟩

theorem onMemory_readOnly {α : Type} {y : EStateM Fault N α} (h : ReadOnly y) :
    ReadOnly (onMemory y : Exec N α) := by
  intro s a s' hy
  obtain ⟨hy, hcpu⟩ := onMemory_ok.mp hy
  have hmem := h _ _ _ hy
  cases s
  cases s'
  simp_all

theorem onCpu_simulates {C' : Cpu → Cpu → Prop} {α : Type} {x y : EStateM Fault Cpu α}
    {Q : α → α → Prop} (h : Simulates (fun _ => False) C C x y fun a b c d => Q a b ∧ C' c d) :
    Simulates (fun _ => False) (Both C S) (Both C S) (onCpu x : Exec M α) (onCpu y : Exec N α)
      fun a b s t => Q a b ∧ Both C' S s t := by
  intro s t hst
  obtain ⟨hok, herror⟩ := h _ _ hst.1
  constructor
  · intro a s' hx
    obtain ⟨hx, hmem⟩ := onCpu_ok.mp hx
    obtain ⟨b, d, hy, hQ, hC⟩ := hok a _ hx
    exact ⟨b, ⟨d, t.memory⟩, onCpu_ok.mpr ⟨hy, rfl⟩, hQ, hC, hmem ▸ hst.2⟩
  · intro e s' hx
    obtain ⟨hx, hmem⟩ := onCpu_error.mp hx
    rcases herror e _ hx with ⟨hskip, -⟩ | ⟨d, hy, hC⟩
    · exact hskip.elim
    · exact Or.inr ⟨⟨d, t.memory⟩, onCpu_error.mpr ⟨hy, rfl⟩, hC, hmem ▸ hst.2⟩

theorem setRegister_simulates (hcpu : CpuSimulates C) {r : Nat} (hr : r = regLo ∨ r = regHi)
    (value : BitVec 32) :
    Simulates (fun _ => False) (Both C S) (Both C S) (onCpu (setRegister r value) : Exec M Unit)
      (onCpu (setRegister r value) : Exec N Unit) fun a b s t => a = b ∧ Both C S s t := by
  apply onCpu_simulates
  apply Simulates.of_results
  have hbound : 0 ≤ (r : Int) ∧ (r : Int) < numUserRegisters := by
    rcases hr with rfl | rfl <;> decide
  intro c d h
  exact Or.inl ⟨(), (), _, _, setRegister_eq hbound value c, setRegister_eq hbound value d, rfl,
    hcpu.set c d h r hr value⟩

theorem getRegister_simulates (hcpu : CpuSimulates C) {r : Nat} (hr : r = regLo ∨ r = regHi) :
    Simulates (fun _ => False) (Both C S) (Both C S) (onCpu (getRegister r) : Exec M (BitVec 32))
      (onCpu (getRegister r) : Exec N (BitVec 32)) fun a b s t => a = b ∧ Both C S s t := by
  apply onCpu_simulates
  apply Simulates.of_results
  have hbound : 0 ≤ (r : Int) ∧ (r : Int) < numUserRegisters := by
    rcases hr with rfl | rfl <;> decide
  intro c d h
  exact Or.inl ⟨_, _, _, _, getRegister_eq hbound c, getRegister_eq hbound d,
    hcpu.get c d h r hr, h⟩

section

variable {α β γ : Type} {sk : Fault → Prop} {R : Machine M → Machine N → Prop}
  {Q : β → γ → Machine M → Machine N → Prop}

/-- After a first action that gives the same result, the rest has nothing to skip. -/
theorem both_bind {x : Exec M α} {y : Exec N α} {f : α → Exec M β} {g : α → Exec N γ}
    (hx : Simulates sk (Both C S) R x y fun a b s t => a = b ∧ Both C S s t)
    (hf : ∀ a, Simulates (fun _ => False) (Both C S) (Both C S) (f a) (g a) Q) :
    Simulates sk (Both C S) R (x >>= f) (y >>= g) Q := by
  apply Simulates.bind hx
  rintro a b s t ⟨rfl, h⟩
  exact hf a s t h

/-- After a load, the rest may still skip. -/
theorem both_read [Bus M] [Bus N] (hbus : BusSimulates skip S) {n : Nat} (hn : AccessSize n)
    (v : BitVec 32) {f : BitVec 32 → Exec M β} {g : BitVec 32 → Exec N γ}
    (hf : ∀ a, Simulates skip (Both C S) (Both C S) (f a) (g a) Q) :
    Simulates skip (Both C S) (Both C S) (onMemory (Bus.readMem v n) >>= f)
      (onMemory (Bus.readMem v n) >>= g) Q := by
  apply Simulates.bind_readOnly (onMemory_simulates (hbus.read v n hn))
    (onMemory_readOnly (hbus.readOnly v n))
  rintro a b s t ⟨rfl, h⟩
  exact hf a s t h

end

namespace Instruction

theorem divide_simulates (hcpu : CpuSimulates C) (src1 src2 : BitVec 64) :
    Simulates (fun _ => False) (Both C S) (Both C S) (onCpu (divide src1 src2) : Exec M Unit)
      (onCpu (divide src1 src2) : Exec N Unit) fun a b s t => a = b ∧ Both C S s t := by
  apply onCpu_simulates
  apply Simulates.of_results
  intro c d h
  have hset (lo hi : BitVec 32) : C ((c.setReg regLo lo).setReg regHi hi)
      ((d.setReg regLo lo).setReg regHi hi) :=
    hcpu.set _ _ (hcpu.set c d h regLo (Or.inl rfl) lo) regHi (Or.inr rfl) hi
  rw [divide_eq, divide_eq]
  dsimp only
  split
  · exact Or.inr ⟨_, c, d, rfl, rfl, h⟩
  · split
    · exact Or.inr ⟨_, _, _, rfl, rfl, hset _ _⟩
    · exact Or.inl ⟨(), (), _, _, rfl, rfl, rfl, hset _ _⟩

variable [Bus M] [Bus N]

/-- `execute` does the same for instructions that agree, on machines that correspond. -/
theorem execute_simulates (hcpu : CpuSimulates C) (hbus : BusSimulates skip S)
    {i j : Instruction} (hi : i.Decoded) (hij : Agree i j) :
    Simulates skip (Both C S) (Both C S) (execute i : Exec M Instruction)
      (execute j : Exec N Instruction)
      fun i' j' s t => (Ready i' j' ∧ i.SameTarget i') ∧ Both C S s t := by
  obtain ⟨_, _, _, addr, _, _, jtarget, src1, src2, _, _, _⟩ := i
  obtain ⟨info, size, imm, addr', nextPC, dstReg, jtarget', src1', src2', dst, mask, branch⟩ := j
  obtain ⟨hinfo, hsize, himm, hnextPC, hdstReg, hdst, hmask, hbranch, h1, h2, h3, h4⟩ := hij
  dsimp only at *
  subst hinfo hsize himm hnextPC hdstReg hdst hmask hbranch
  -- what is left of the two instructions are the operands that may differ
  have hdone {sk : Fault → Prop} {a a' : BitVec 32} {s₁ s₁' s₂ s₂' d : BitVec 64}
      {m : BitVec 32} {b : Bool} :
      Simulates sk (Both C S) (Both C S)
        (pure ⟨info, size, imm, a, nextPC, dstReg, jtarget, s₁, s₂, d, m, b⟩ : Exec M Instruction)
        (pure ⟨info, size, imm, a', nextPC, dstReg, jtarget', s₁', s₂', d, m, b⟩ :
          Exec N Instruction)
        fun i' j' s t => (Ready i' j' ∧ SameTarget
          ⟨info, size, imm, addr, nextPC, dstReg, jtarget, src1, src2, dst, mask, branch⟩ i') ∧
          Both C S s t :=
    Simulates.pure fun s t h => ⟨⟨⟨rfl, rfl, rfl, rfl, rfl, rfl, h4⟩, rfl, rfl, rfl, rfl, rfl⟩, h⟩
  have hwrite {n : Nat} (hn : AccessSize n) (v value : BitVec 32) :
      Simulates skip (Both C S) (Both C S) (onMemory (Bus.writeMem v n value) : Exec M Unit)
        (onMemory (Bus.writeMem v n value) : Exec N Unit)
        fun a b s t => a = b ∧ Both C S s t :=
    onMemory_simulates ((hbus.write v n value hn).mono (fun _ _ h => h)
      fun _ _ _ _ h => ⟨rfl, h⟩)
  have hword : AccessSize 4 := Or.inr (Or.inr rfl)
  simp only [execute]
  cases hop : info.operation with
  | add | sub | sll | sra | srl | slt | and | or | nor | xor | beq | bne =>
    rw [hop] at h1 h2
    obtain rfl := h1 rfl
    obtain rfl := h2 rfl
    exact hdone
  | lui | jump => exact hdone
  | bgez | bgtz | blez | bltz =>
    rw [hop] at h1
    obtain rfl := h1 rfl
    exact hdone
  | invalid | unimpl | syscall => exact Simulates.throw fun s t h => h
  | mult =>
    rw [hop] at h1 h2
    obtain rfl := h1 rfl
    obtain rfl := h2 rfl
    exact both_bind (Simulates.weaken (setRegister_simulates hcpu (Or.inl rfl) _)) fun _ =>
      both_bind (setRegister_simulates hcpu (Or.inr rfl) _) fun _ => hdone
  | div =>
    rw [hop] at h1 h2
    obtain rfl := h1 rfl
    obtain rfl := h2 rfl
    exact both_bind (Simulates.weaken (divide_simulates hcpu _ _)) fun _ => hdone
  | mflo =>
    exact both_bind (Simulates.weaken (getRegister_simulates hcpu (Or.inl rfl))) fun _ => hdone
  | mfhi =>
    exact both_bind (Simulates.weaken (getRegister_simulates hcpu (Or.inr rfl))) fun _ => hdone
  | mtlo =>
    rw [hop] at h1
    obtain rfl := h1 rfl
    exact both_bind (Simulates.weaken (setRegister_simulates hcpu (Or.inl rfl) _)) fun _ => hdone
  | mthi =>
    rw [hop] at h1
    obtain rfl := h1 rfl
    exact both_bind (Simulates.weaken (setRegister_simulates hcpu (Or.inr rfl) _)) fun _ => hdone
  | load =>
    rw [hop] at h3
    obtain rfl := h3 rfl
    apply both_read hbus (hi.size (Or.inl hop))
    intro value
    split <;> exact hdone
  | lwl | lwr =>
    rw [hop] at h3
    obtain rfl := h3 rfl
    exact both_read hbus hword _ fun _ => hdone
  | store =>
    rw [hop] at h2 h3
    obtain rfl := h2 rfl
    obtain rfl := h3 rfl
    exact both_bind (hwrite (hi.size (Or.inr hop)) _ _) fun _ => hdone
  | swl | swr =>
    rw [hop] at h2 h3
    obtain rfl := h2 rfl
    obtain rfl := h3 rfl
    exact both_read hbus hword _ fun _ => both_bind (hwrite hword _ _) fun _ => hdone

/-- One instruction does the same on machines that correspond, if `decode` gives instructions
    that agree and `writeBack` makes of them what is to hold afterwards. -/
theorem run_simulates {D : Cpu → Cpu → Prop} {R : Machine M → Machine N → Prop}
    (hcpu : CpuSimulates C) (hbus : BusSimulates skip S)
    (hback : ∀ (i : Instruction) c d, i.Decoded → C c d →
      c.WF ∧ d.WF ∧ D (i.commit c) (i.commit d))
    (hstart : ∀ s t, R s t → Both C S s t ∧ s.cpu.registers regPC = t.cpu.registers regPC ∧
      ∀ value t', fetch t = .ok value t' →
        Agree (decode s.cpu.registers value) (decode t.cpu.registers value)) :
    Simulates skip (Both C S) R (run : Exec M Unit) (run : Exec N Unit)
      fun _ _ s t => Both D S s t := by
  have hfetch_readOnly : ReadOnly (fetch : Exec N (BitVec 32)) := by
    intro s
    exact onMemory_readOnly (hbus.readOnly _ _) s
  have hfetch : Simulates skip (Both C S) R (fetch : Exec M (BitVec 32))
      (fetch : Exec N (BitVec 32)) fun a b s t => a = b ∧
        Agree (decode s.cpu.registers a) (decode t.cpu.registers b) ∧ Both C S s t := by
    intro s t h
    obtain ⟨hst, hpc, hagree⟩ := hstart s t h
    have := onMemory_simulates (C := C) (hbus.read (s.cpu.registers regPC) 4 (Or.inr (Or.inr rfl)))
      s t hst
    constructor
    · intro value s' hs
      obtain ⟨b, t', ht, rfl, hst'⟩ := this.1 value s' hs
      have ht' : fetch t = .ok value t' := by
        rw [fetch, EStateM.get_bind, ← hpc]
        exact ht
      refine ⟨value, t', ht', rfl, ?_, hst'⟩
      have hcpu_s : s'.cpu = s.cpu := (onMemory_ok.mp hs).2
      have hcpu_t : t'.cpu = t.cpu := (onMemory_ok.mp ht).2
      rw [hcpu_s, hcpu_t]
      exact hagree value t' ht'
    · intro e s' hs
      rw [fetch, EStateM.get_bind, ← hpc]
      exact this.2 e s' hs
  apply Simulates.bind_readOnly hfetch hfetch_readOnly
  rintro value _ s t ⟨rfl, hagree, h⟩
  rw [EStateM.get_bind, EStateM.get_bind]
  have hi := decode_decoded s.cpu.registers value
  -- `execute` may skip a fault of the first machine, `writeBack` has none to skip
  refine Simulates.bind (execute_simulates hcpu hbus hi hagree) ?_ s t h
  intro i' j' s' t' h'
  obtain ⟨⟨hready, htarget⟩, hst'⟩ := h'
  have hi' := hi.sameTarget htarget
  rw [hready.writeBack]
  have hwrite : Simulates (fun _ => False) (Both C S) (Both C S)
      (onCpu (writeBack i') : Exec M Unit) (onCpu (writeBack i') : Exec N Unit)
      fun _ _ s t => True ∧ Both D S s t := by
    apply onCpu_simulates
    apply Simulates.of_results
    intro c d hcd
    obtain ⟨hc, hd, hcommit⟩ := hback i' c d hi' hcd
    rw [writeBack_eq hi' hc, writeBack_eq hi' hd]
    split
    · exact Or.inr ⟨_, c, d, rfl, rfl, hcd⟩
    · exact Or.inl ⟨(), (), _, _, rfl, rfl, trivial, hcommit⟩
  exact (hwrite.mono (fun _ _ h => h) fun _ _ _ _ h => h.2) s' t' hst'

end Instruction

end

/-! ## Where page faults come from -/

/-- An action on the registers has nothing to do with pages. -/
def NoPage {α : Type} (x : EStateM Fault Cpu α) : Prop :=
  Ensures (fun _ => True) x (fun _ _ => True) fun e _ => ¬ e.ofPage

namespace NoPage

variable {α β : Type}

theorem pure (a : α) : NoPage (pure a : EStateM Fault Cpu α) := Ensures.pure fun _ _ => trivial

theorem throw {e : Fault} (he : ¬ e.ofPage) : NoPage (throw e : EStateM Fault Cpu α) :=
  Ensures.throw fun _ _ => he

theorem bind {x : EStateM Fault Cpu α} {f : α → EStateM Fault Cpu β} (hx : NoPage x)
    (hf : ∀ a, NoPage (f a)) : NoPage (x >>= f) :=
  Ensures.bind hx hf

theorem get : NoPage (get : EStateM Fault Cpu Cpu) :=
  fun _ _ => ⟨fun _ _ _ => trivial, fun _ _ h => nomatch h⟩

theorem modify (f : Cpu → Cpu) : NoPage (modify f : EStateM Fault Cpu Unit) :=
  fun _ _ => ⟨fun _ _ _ => trivial, fun _ _ h => nomatch h⟩

theorem setRegister (i : Int) (value : BitVec 32) : NoPage (setRegister i value) := by
  unfold Processor.setRegister
  split
  · exact modify _
  · exact throw id

theorem getRegister (i : Int) : NoPage (getRegister i) := by
  unfold Processor.getRegister
  split
  · exact bind get fun _ => pure _
  · exact throw id

theorem delayedLoad (target : Int) (value mask : BitVec 32) :
    NoPage (delayedLoad target value mask) := by
  have hload : NoPage completeLoad := by
    refine bind get fun c => ?_
    split
    · exact pure _
    · exact bind (getRegister _) fun _ => setRegister _ _
  exact bind hload fun _ => modify _

theorem divide (src1 src2 : BitVec 64) : NoPage (Instruction.divide src1 src2) := by
  unfold Instruction.divide
  split
  · exact throw Bool.false_ne_true
  · refine bind (setRegister _ _) fun _ => bind (setRegister _ _) fun _ =>
      bind (getRegister _) fun _ => bind (getRegister _) fun _ => ?_
    split
    · exact throw Bool.false_ne_true
    · exact pure _

theorem writeBack (i : Instruction) : NoPage i.writeBack := by
  unfold Instruction.writeBack Instruction.checkOverflow Instruction.advanceLoad
    Instruction.writeDst
  refine bind ?_ fun _ => bind ?_ fun _ => bind ?_ fun _ => modify _
  · split
    · exact throw Bool.false_ne_true
    · exact pure _
  · split
    · exact delayedLoad _ _ _
    · exact delayedLoad _ _ _
  · dsimp only
    split
    · exact setRegister _ _
    · exact pure _

end NoPage

section

variable {M : Type} {I : M → Prop} {E : Fault → M → Prop}

theorem onCpu_ensures {α : Type} {x : EStateM Fault Cpu α} (hx : NoPage x)
    (hE : ∀ e m, ¬ e.ofPage → I m → E e m) :
    Ensures (fun s : Machine M => I s.memory) (onCpu x) (fun _ s => I s.memory)
      fun e s => E e s.memory := by
  intro s hI
  constructor
  · intro a s' h
    rw [(onCpu_ok.mp h).2]
    exact hI
  · intro e s' h
    obtain ⟨h, hmem⟩ := onCpu_error.mp h
    rw [hmem]
    exact hE e _ ((hx s.cpu trivial).2 e _ h) hI

theorem onMemory_ensures {α : Type} {x : EStateM Fault M α} (hx : Ensures I x (fun _ => I) E) :
    Ensures (fun s : Machine M => I s.memory) (onMemory x) (fun _ s => I s.memory)
      fun e s => E e s.memory := by
  intro s hI
  obtain ⟨hok, herror⟩ := hx s.memory hI
  exact ⟨fun a s' h => hok a _ (onMemory_ok.mp h).1, fun e s' h => herror e _ (onMemory_error.mp h).1⟩

variable [Bus M]

/-- What the accesses of a memory keep. -/
structure BusKeeps (I : M → Prop) (E : Fault → M → Prop) : Prop where
  read : ∀ v n, Ensures I (Bus.readMem v n) (fun _ => I) E
  write : ∀ v n value, Ensures I (Bus.writeMem v n value) (fun _ => I) E
  cpu : ∀ e m, ¬ e.ofPage → I m → E e m

namespace Instruction

/-- What the accesses of a memory keep, an instruction keeps, and a page fault is that of an
    access. -/
theorem execute_keeps (h : BusKeeps I E) (i : Instruction) :
    Ensures (fun s : Machine M => I s.memory) (execute i) (fun _ s => I s.memory)
      fun e s => E e s.memory := by
  have hdone (j : Instruction) : Ensures (fun s : Machine M => I s.memory) (pure j : Exec M _)
      (fun _ s => I s.memory) fun e s => E e s.memory := Ensures.pure fun _ hs => hs
  have hset (r : Nat) (value : BitVec 32) :=
    onCpu_ensures (M := M) (NoPage.setRegister r value) h.cpu
  have hread (v : BitVec 32) (n : Nat) := onMemory_ensures (h.read v n)
  have hwrite (v : BitVec 32) (n : Nat) (value : BitVec 32) :=
    onMemory_ensures (h.write v n value)
  simp only [execute]
  cases i.info.operation with
  | mult => exact Ensures.bind (hset _ _) fun _ => Ensures.bind (hset _ _) fun _ => hdone _
  | div => exact Ensures.bind (onCpu_ensures (NoPage.divide _ _) h.cpu) fun _ => hdone _
  | mflo | mfhi =>
    exact Ensures.bind (onCpu_ensures (NoPage.getRegister _) h.cpu) fun _ => hdone _
  | mtlo | mthi => exact Ensures.bind (hset _ _) fun _ => hdone _
  | syscall | unimpl | invalid =>
    exact Ensures.throw fun s hs => h.cpu _ _ Bool.false_ne_true hs
  | load =>
    refine Ensures.bind (hread _ _) fun value => ?_
    split <;> exact hdone _
  | lwl | lwr => exact Ensures.bind (hread _ _) fun _ => hdone _
  | store => exact Ensures.bind (hwrite _ _ _) fun _ => hdone _
  | swl | swr =>
    exact Ensures.bind (hread _ _) fun _ => Ensures.bind (hwrite _ _ _) fun _ => hdone _
  | _ => exact hdone _

theorem run_keeps (h : BusKeeps I E) :
    Ensures (fun s : Machine M => I s.memory) run (fun _ s => I s.memory)
      fun e s => E e s.memory := by
  have hfetch : Ensures (fun s : Machine M => I s.memory) (fetch : Exec M (BitVec 32))
      (fun _ s => I s.memory) fun e s => E e s.memory :=
    fun s => onMemory_ensures (h.read (s.cpu.registers regPC) 4) s
  refine Ensures.bind hfetch fun value s hs => ?_
  rw [EStateM.get_bind]
  exact Ensures.bind (execute_keeps h _)
    (fun i => onCpu_ensures (NoPage.writeBack i) h.cpu) s hs

end Instruction

end

/-- Flat memory has no page faults. -/
theorem flat_busKeeps : BusKeeps (M := FlatMemory) (fun _ => True) fun e _ => ¬ e.ofPage := by
  refine ⟨fun v n => ?_, fun v n value => ?_, fun _ _ he _ => he⟩
  · show Ensures _ (FlatMemory.readMem v n) _ _
    unfold FlatMemory.readMem
    split
    · exact Ensures.throw fun _ _ => id
    split
    · exact Ensures.throw fun _ _ => Bool.false_ne_true
    · exact fun f _ => ⟨fun _ _ _ => trivial, fun _ _ h => nomatch h⟩
  · show Ensures _ (FlatMemory.writeMem v n value) _ _
    unfold FlatMemory.writeMem
    split
    · exact Ensures.throw fun _ _ => id
    split
    · exact Ensures.throw fun _ _ => Bool.false_ne_true
    · exact fun f _ => ⟨fun _ _ _ => trivial, fun _ _ h => nomatch h⟩

/-! ## Memory with translations against flat memory -/

/-- Memory with translations behaves as the flat memory it shows, where it does not fault. -/
theorem shows_busSimulates : BusSimulates Fault.ofPage Shows where
  read v _ hn := readMem_simulates hn v
  write v _ value hn := writeMem_simulates hn v value
  readOnly := FlatMemory.readMem_readOnly

/-- Registers that look the same to a program. -/
def Alike (c d : Cpu) : Prop := c.WF ∧ SameUser c d

theorem alike_cpuSimulates : CpuSimulates Alike where
  get c d h r hr := h.2.registers r (by rcases hr with rfl | rfl <;> decide)
  set c d h r hr value := by
    have hne : r ≠ 0 := by rcases hr with rfl | rfl <;> decide
    exact ⟨h.1.setReg hne value, h.2.setReg r value⟩

namespace Instruction

/-- `decode` reads registers that a program can see. -/
theorem decode_congr {c d : Cpu} (h : SameUser c d) (value : BitVec 32) :
    decode c.registers value = decode d.registers value := by
  have hrs := (fields value).rs.isLt
  have hrt := (fields value).rt.isLt
  have h1 := h.registers (fields value).rs.toNat (by simp only [regCause]; omega)
  have h2 := h.registers (fields value).rt.toNat (by simp only [regCause]; omega)
  have h3 := h.registers regNextPC (by decide)
  simp only [decode, h1, h2, h3]

theorem commit_congr {c d : Cpu} (h : Alike c d) (i : Instruction) :
    SameUser (i.commit c) (i.commit d) := by
  have hload : SameUser (i.loadState c) (i.loadState d) := by
    simp only [loadState]
    split
    · exact ⟨h.2.loaded h.1, rfl, rfl, rfl⟩
    · exact h.2.finish h.1
  have hdst : SameUser (i.dstState (i.loadState c)) (i.dstState (i.loadState d)) := by
    simp only [dstState]
    split
    · exact hload.setReg _ _
    · exact hload
  simp only [commit, pcState, hdst.registers regNextPC (by decide)]
  exact (hdst.setReg _ _).setReg _ _

/-- An instruction on a memory that shows a flat one is an instruction on the flat memory, or it
    hands a page over to the kernel. -/
theorem run_shows {K : Type} [Bus K] {S : K → FlatMemory → Prop}
    (hbus : BusSimulates Fault.ofPage S) :
    EStateM.Simulates Fault.ofPage (Both Alike S) (Both Alike S)
      (run : Exec K Unit) (run : Exec FlatMemory Unit) fun _ _ s t => Both Alike S s t := by
  apply run_simulates alike_cpuSimulates hbus
  · exact fun i c d hi h => ⟨h.1, h.2.wf h.1, commit_wf hi h.1, commit_congr h i⟩
  · intro s t h
    refine ⟨h, h.1.2.registers regPC (by decide), fun value _ _ => ?_⟩
    rw [decode_congr h.1.2]
    exact Agree.refl _

end Instruction

/-! ## Loads that complete early -/

/-- Does an instruction of this kind use the register `rs` names? -/
def readsRs (info : Mips) : Bool :=
  usesAddr info.operation || usesSrc1 info.operation && !info.test .src1sh ||
    info.test .branch && info.format == .rfmt

/-- Does an instruction of this kind use the register `rt` names? -/
def readsRt (info : Mips) : Bool := usesSrc2 info.operation && !info.test .src2imm

/-- Does an instruction word use this register? -/
def Reads (value : BitVec 32) (r : Int) : Prop :=
  let f := Instruction.fields value
  let info := Mips.info f.op f.rt f.func
  (readsRs info = true ∧ (f.rs.toNat : Int) = r) ∨ (readsRt info = true ∧ (f.rt.toNat : Int) = r)

/-- The next instruction uses the register of the load in progress. -/
def Hazard (t : Machine FlatMemory) : Prop :=
  t.cpu.loadTarget ≠ 0 ∧
    ∃ value t', Instruction.fetch t = .ok value t' ∧ Reads value t.cpu.loadTarget

/-- Registers whose load in progress is completed on the left. -/
def Flushed (c d : Cpu) : Prop := d.WF ∧ c = d.finish

theorem Cpu.loaded_of_hidden {c : Cpu} (hwf : c.WF) {r : Nat} (hr : 32 ≤ r) :
    c.loaded r = c.registers r := by
  have := hwf.target_lt
  exact Cpu.loaded_of_ne hwf (by omega)

/-- Completing a load commutes with a write to a register it does not reach. -/
theorem Cpu.finish_setReg {c : Cpu} (hwf : c.WF) {r : Nat} (hr : 32 ≤ r) (value : BitVec 32) :
    (c.setReg r value).finish = c.finish.setReg r value := by
  have hnonneg := hwf.target_nonneg
  have hlt := hwf.target_lt
  have hne : c.loadTarget.toNat ≠ r := by omega
  simp only [finish, setReg, loaded]
  by_cases hz : c.loadTarget = 0
  · simp only [hz, if_true]
  · simp only [hz, if_false]
    rw [Function.update_of_ne hne, Function.update_comm hne]

theorem flushed_cpuSimulates : CpuSimulates Flushed where
  get c d h r hr := by
    obtain ⟨hwf, rfl⟩ := h
    exact Cpu.loaded_of_hidden hwf (by rcases hr with rfl | rfl <;> decide)
  set c d h r hr value := by
    obtain ⟨hwf, rfl⟩ := h
    have hr' : 32 ≤ r := by rcases hr with rfl | rfl <;> decide
    exact ⟨hwf.setReg (by omega) value, (Cpu.finish_setReg hwf hr' value).symm⟩

theorem eq_busSimulates : BusSimulates (fun _ => False) (Eq (α := FlatMemory)) where
  read v n _ := by
    rintro m _ rfl
    exact ⟨fun a m' h => ⟨a, m', h, rfl, rfl⟩, fun e m' h => Or.inr ⟨m', h, rfl⟩⟩
  write v n value _ := by
    rintro m _ rfl
    exact ⟨fun a m' h => ⟨a, m', h, rfl⟩, fun e m' h => Or.inr ⟨m', h, rfl⟩⟩
  readOnly := FlatMemory.readMem_readOnly

namespace Instruction

/-- What is decoded before a load completes and after, for a word that does not use its
    register. -/
theorem decode_flushed {c : Cpu} (hwf : c.WF) {value : BitVec 32}
    (h : c.loadTarget ≠ 0 → ¬ Reads value c.loadTarget) :
    Agree (decode c.loaded value) (decode c.registers value) := by
  by_cases hz : c.loadTarget = 0
  · rw [Cpu.loaded_of_zero hz]
    exact Agree.refl _
  have hreads := h hz
  simp only [Reads, not_or, not_and] at hreads
  obtain ⟨hrs, hrt⟩ := hreads
  have hnext : c.loaded regNextPC = c.registers regNextPC :=
    Cpu.loaded_of_hidden hwf (by decide)
  have hrs' (hr : readsRs (Mips.info (fields value).op (fields value).rt (fields value).func) = true) :
      c.loaded (fields value).rs.toNat = c.registers (fields value).rs.toNat :=
    Cpu.loaded_of_ne hwf (hrs hr)
  have hrt' (hr : readsRt (Mips.info (fields value).op (fields value).rt (fields value).func) = true) :
      c.loaded (fields value).rt.toNat = c.registers (fields value).rt.toNat :=
    Cpu.loaded_of_ne hwf (hrt hr)
  constructor
  case nextPC => simp only [decode, hnext]
  case info => rfl
  case size => rfl
  case imm => rfl
  case dstReg => rfl
  case dst => rfl
  case mask => rfl
  case branch => rfl
  -- an operand that the operation uses is not in the register that the load is for
  case src1 =>
    intro hop
    simp only [decode] at hop ⊢
    cases hsh : (Mips.info (fields value).op (fields value).rt (fields value).func).test .src1sh with
    | true => simp only [if_true]
    | false => rw [hrs' (by simp [readsRs, hop, hsh])]
  case src2 =>
    intro hop
    simp only [decode] at hop ⊢
    cases himm : (Mips.info (fields value).op (fields value).rt (fields value).func).test
        .src2imm with
    | true => simp only [if_true]
    | false => rw [hrt' (by simp [readsRt, hop, himm])]
  case addr =>
    intro hop
    simp only [decode] at hop ⊢
    rw [hrs' (by simp [readsRs, hop])]
  case jtarget =>
    -- a jump through a register reads it, the other ones compute from the next PC
    intro hbranch
    simp only [decode] at hbranch ⊢
    cases hformat : (Mips.info (fields value).op (fields value).rt (fields value).func).format with
    | rfmt =>
      dsimp only
      rw [hrs' (by simp [readsRs, hbranch, hformat])]
    | ifmt | jfmt =>
      dsimp only
      rw [hnext]
    | none => rfl

/-- Whether a load has completed before or completes in the next instruction, the state after
    that instruction is the same, if it does not use the register. -/
theorem run_flushed : EStateM.Simulates (fun _ => False) (Both Flushed Eq)
    (fun s t => t.cpu.WF ∧ s = ⟨t.cpu.finish, t.memory⟩ ∧ ¬ Hazard t)
    (run : Exec FlatMemory Unit) (run : Exec FlatMemory Unit)
    fun _ _ s t => s = t := by
  have hrun := run_simulates (M := FlatMemory) (N := FlatMemory) (D := Eq)
    (R := fun s t => t.cpu.WF ∧ s = ⟨t.cpu.finish, t.memory⟩ ∧ ¬ Hazard t)
    flushed_cpuSimulates eq_busSimulates ?_ ?_
  · refine hrun.mono (fun _ _ h => h) fun _ _ s t h => ?_
    cases s
    cases t
    simp only [Both] at h
    rw [h.1, h.2]
  · rintro i _ d hi ⟨hwf, rfl⟩
    exact ⟨hwf.finish, hwf, rfl⟩
  · rintro _ t ⟨hwf, rfl, hno⟩
    refine ⟨⟨⟨hwf, rfl⟩, rfl⟩, Cpu.loaded_of_hidden hwf (by decide), fun value t' hfetch => ?_⟩
    apply decode_flushed hwf
    intro hz hreads
    exact hno ⟨hz, value, t', hfetch, hreads⟩

end Instruction

/-! ## Whole runs -/

/-- `n` instructions, one after the other. -/
def Instruction.runs {M : Type} [Bus M] : Nat → Exec M Unit
  | 0 => pure ()
  | n + 1 => do
    Instruction.runs n
    Instruction.run

section

variable {K : Type} [Bus K]

/-- What a kernel does behind the back of a program: when it returns, the registers are as it
    found them, up to `Cause` and `BadVAddr`, and the memory shows what it showed. It may have
    moved pages, changed the translations and run other processes. -/
structure Invisible (S : K → FlatMemory → Prop) (s s' : Machine K) : Prop where
  cpu : SameUser s.cpu s'.cpu
  memory : ∀ f, S s.memory f → S s'.memory f

/-- A run of a user program in which `n` instructions complete. In between the kernel services
    page faults, whose instruction is then run again, and interrupts. -/
inductive UserRun (S : K → FlatMemory → Prop) : Nat → Machine K → Machine K → Prop where
  | start (s : Machine K) : UserRun S 0 s s
  | completes {n : Nat} {s s₁ s' : Machine K} (hbefore : UserRun S n s s₁)
      (hrun : Instruction.run s₁ = .ok () s') : UserRun S (n + 1) s s'
  | serviced {n : Nat} {s s₁ s₂ s' : Machine K} {cause : Cause}
      {badVAddr : Option (BitVec 32)} {c : Cpu} (hbefore : UserRun S n s s₁)
      (hrun : Instruction.run s₁ = .error (.mips cause badVAddr) s₂)
      (hpage : cause.ofPage = true) (hhandle : handle cause badVAddr s₂.cpu = .ok () c)
      (hkernel : Invisible S ⟨c, s₂.memory⟩ s') : UserRun S n s s'
  | interrupted {n : Nat} {s s₁ s' : Machine K} {c : Cpu} (hbefore : UserRun S n s s₁)
      (hflush : finishLoad s₁.cpu = .ok () c) (hkernel : Invisible S ⟨c, s₁.memory⟩ s') :
      UserRun S n s s'

/-- What the kernel finds in the registers is what the flat run has there, or will have once
    the load in progress is complete. -/
def SameUpToLoad (c d : Cpu) : Prop := SameUser c d ∨ SameUser c d.finish

theorem SameUpToLoad.finish {c d : Cpu} (h : SameUpToLoad c d) (hc : c.WF) :
    SameUser c.finish d.finish := by
  rcases h with h | h
  · exact h.finish hc
  · -- completing a load twice is completing it once
    exact h.finish hc

theorem SameUser.reported {c : Cpu} (hc : c.WF) (cause : Cause) (badVAddr : Option (BitVec 32)) :
    SameUser (c.reported cause badVAddr) c.finish := by
  have hcause := SameUser.setReg_hidden c (Nat.le_refl regCause) cause.code
  have hwf := hc.setReg (show regCause ≠ 0 by decide) cause.code
  cases badVAddr with
  | none => exact hcause.finish hwf
  | some vaddr =>
    have haddr := (SameUser.setReg_hidden (c.setReg regCause cause.code)
      (show regCause ≤ regBadVAddr by decide) vaddr).trans hcause
    exact haddr.finish (hwf.setReg (by decide) vaddr)

variable {S : K → FlatMemory → Prop}

/-- The state of a user run, against the state of the flat run. -/
structure Tracks (S : K → FlatMemory → Prop) (s : Machine K) (t : Machine FlatMemory) :
    Prop where
  wf : s.cpu.WF
  cpu : SameUpToLoad s.cpu t.cpu
  memory : S s.memory t.memory

omit [Bus K] in
theorem Tracks.wf_flat {s : Machine K} {t : Machine FlatMemory} (h : Tracks S s t)
    (ht : t.cpu.WF) : Both Alike S s t ∨
      Both Alike S s ⟨t.cpu.finish, t.memory⟩ ∧ t.cpu.WF :=
  h.cpu.imp (fun hsame => ⟨⟨h.wf, hsame⟩, h.memory⟩)
    fun hsame => ⟨⟨⟨h.wf, hsame⟩, h.memory⟩, ht⟩

/-- An instruction that completes, completes on the flat memory. -/
theorem Tracks.completes (hbus : BusSimulates Fault.ofPage S) {s s' : Machine K}
    {t : Machine FlatMemory} (h : Tracks S s t)
    (ht : t.cpu.WF) (hno : ¬ Hazard t) (hrun : Instruction.run s = .ok () s') :
    ∃ t', Instruction.run t = .ok () t' ∧ t'.cpu.WF ∧ Tracks S s' t' := by
  rcases h.wf_flat ht with hboth | ⟨hboth, -⟩
  · obtain ⟨_, t', ht', hafter⟩ := (Instruction.run_shows hbus s t hboth).1 _ _ hrun
    exact ⟨t', ht', hafter.1.2.wf hafter.1.1, hafter.1.1, Or.inl hafter.1.2, hafter.2⟩
  · -- the load has completed early: the flat machine completes it in this instruction
    obtain ⟨_, u', hu', hafter⟩ := (Instruction.run_shows hbus s _ hboth).1 _ _ hrun
    obtain ⟨_, t', ht', rfl⟩ := (Instruction.run_flushed _ t ⟨ht, rfl, hno⟩).1 _ _ hu'
    exact ⟨u', ht', hafter.1.2.wf hafter.1.1, hafter.1.1, Or.inl hafter.1.2, hafter.2⟩

/-- An exception that is not about a page is one of the flat machine. -/
theorem Tracks.traps (hbus : BusSimulates Fault.ofPage S) {s s' : Machine K}
    {t : Machine FlatMemory} (h : Tracks S s t)
    (ht : t.cpu.WF) (hno : ¬ Hazard t) {cause : Cause} {badVAddr : Option (BitVec 32)}
    (hcause : cause.ofPage = false)
    (hrun : Instruction.run s = .error (.mips cause badVAddr) s') :
    ∃ t', Instruction.run t = .error (.mips cause badVAddr) t' := by
  have hskip : ¬ Fault.ofPage (.mips cause badVAddr) := by
    show ¬ cause.ofPage = true
    rw [hcause]
    exact Bool.false_ne_true
  rcases h.wf_flat ht with hboth | ⟨hboth, -⟩
  · obtain ⟨t', ht', -⟩ :=
      ((Instruction.run_shows hbus s t hboth).2 _ _ hrun).resolve_left fun h => hskip h.1
    exact ⟨t', ht'⟩
  · obtain ⟨u', hu', -⟩ :=
      ((Instruction.run_shows hbus s _ hboth).2 _ _ hrun).resolve_left fun h => hskip h.1
    obtain ⟨t', ht', -⟩ :=
      ((Instruction.run_flushed _ t ⟨ht, rfl, hno⟩).2 _ _ hu').resolve_left fun h => h.1
    exact ⟨t', ht'⟩

/-- An instruction that asks the kernel for a page has done nothing yet. -/
theorem Tracks.faults (hbus : BusSimulates Fault.ofPage S) {s s' : Machine K}
    {t : Machine FlatMemory} (h : Tracks S s t) {cause : Cause} {badVAddr : Option (BitVec 32)}
    (hpage : cause.ofPage = true)
    (hrun : Instruction.run s = .error (.mips cause badVAddr) s') : Tracks S s' t := by
  -- the flat machine has no such exception
  have hflat {u u' : Machine FlatMemory} : Instruction.run u ≠ .error (.mips cause badVAddr) u' :=
    fun hu => (Instruction.run_keeps flat_busKeeps u trivial).2 _ _ hu hpage
  rcases h.cpu with hsame | hsame
  · rcases (Instruction.run_shows hbus s t ⟨⟨h.wf, hsame⟩, h.memory⟩).2 _ _ hrun with
      ⟨-, hafter⟩ | ⟨t', ht', -⟩
    · exact ⟨hafter.1.1, Or.inl hafter.1.2, hafter.2⟩
    · exact absurd ht' hflat
  · rcases (Instruction.run_shows hbus s ⟨t.cpu.finish, t.memory⟩
      ⟨⟨h.wf, hsame⟩, h.memory⟩).2 _ _ hrun with ⟨-, hafter⟩ | ⟨t', ht', -⟩
    · exact ⟨hafter.1.1, Or.inr hafter.1.2, hafter.2⟩
    · exact absurd ht' hflat

omit [Bus K] in
/-- A kernel that gives the registers back as it found them after a flush. -/
theorem Tracks.kernel {s s' : Machine K} {t : Machine FlatMemory} {c : Cpu}
    {m : K} (h : Tracks S s t) (hc : SameUser c s.cpu.finish) (hm : S m t.memory)
    (hkernel : Invisible S ⟨c, m⟩ s') : Tracks S s' t := by
  have hfinish : SameUser s'.cpu t.cpu.finish :=
    (hkernel.cpu.symm.trans hc).trans (h.cpu.finish h.wf)
  have hwf : s'.cpu.WF := hkernel.cpu.wf (hc.symm.wf h.wf.finish)
  exact ⟨hwf, Or.inr hfinish, hkernel.memory _ hm⟩

/-- One change of a user run is no instruction or one instruction of the flat run. -/
theorem UserRun.tracks (hbus : BusSimulates Fault.ofPage S) {n : Nat} {s s' : Machine K}
    (h : UserRun S n s s') (hwf : s.cpu.WF) {f : FlatMemory} (hshow : S s.memory f)
    (hfree : ∀ k < n, ∀ t, Instruction.runs k ⟨s.cpu, f⟩ = .ok () t → ¬ Hazard t) :
    ∃ t, Instruction.runs n ⟨s.cpu, f⟩ = .ok () t ∧ t.cpu.WF ∧ Tracks S s' t := by
  induction h with
  | start s => exact ⟨⟨s.cpu, f⟩, rfl, hwf, hwf, Or.inl (SameUser.refl _), hshow⟩
  | completes _ hrun ih =>
    obtain ⟨t, ht, hwf_t, htracks⟩ := ih hwf hshow fun k hk => hfree k (by omega)
    obtain ⟨t', ht', hwf', htracks'⟩ :=
      htracks.completes hbus hwf_t (hfree _ (by omega) t ht) hrun
    exact ⟨t', (EStateM.bind_of_ok ht).trans ht', hwf', htracks'⟩
  | serviced _ hrun hpage hhandle hkernel ih =>
    -- the instruction has done nothing, and the load before it has completed early
    obtain ⟨t, ht, hwf_t, htracks⟩ := ih hwf hshow hfree
    refine ⟨t, ht, hwf_t, ?_⟩
    have htracks' := htracks.faults hbus hpage hrun
    rw [handle_eq htracks'.wf, EStateM.Result.ok.injEq] at hhandle
    rw [← hhandle.2] at hkernel
    exact htracks'.kernel (SameUser.reported htracks'.wf _ _) htracks'.memory hkernel
  | interrupted _ hflush hkernel ih =>
    obtain ⟨t, ht, hwf_t, htracks⟩ := ih hwf hshow hfree
    refine ⟨t, ht, hwf_t, ?_⟩
    rw [finishLoad_eq htracks.wf, EStateM.Result.ok.injEq] at hflush
    rw [← hflush.2] at hkernel
    exact htracks.kernel (SameUser.refl _) htracks.memory hkernel

/-- A program that keeps clear of load delays cannot tell a memory whose pages come and go, with
    page faults and interrupts, from the flat memory it shows: after `n` instructions the
    registers and the memory are those of the flat run of `n` instructions, up to a load that
    has completed early, and an exception that is not about a page comes at the same
    instruction of both. -/
theorem userRun_flat (hbus : BusSimulates Fault.ofPage S) {n : Nat} {s s' : Machine K}
    {f : FlatMemory} (hwf : s.cpu.WF) (hshow : S s.memory f) (h : UserRun S n s s')
    (hfree : ∀ k ≤ n, ∀ t, Instruction.runs k ⟨s.cpu, f⟩ = .ok () t → ¬ Hazard t) :
    ∃ t, Instruction.runs n ⟨s.cpu, f⟩ = .ok () t ∧ SameUpToLoad s'.cpu t.cpu ∧
      S s'.memory t.memory ∧
      ∀ cause badVAddr s'', cause.ofPage = false →
        Instruction.run s' = .error (.mips cause badVAddr) s'' →
        ∃ t', Instruction.run t = .error (.mips cause badVAddr) t' := by
  obtain ⟨t, ht, hwf_t, htracks⟩ := h.tracks hbus hwf hshow fun k hk => hfree k (Nat.le_of_lt hk)
  exact ⟨t, ht, htracks.cpu, htracks.memory, fun cause badVAddr s'' hcause hrun =>
    htracks.traps hbus hwf_t (hfree n (Nat.le_refl n) t ht) hcause hrun⟩

end

end Processor

end Nachos
