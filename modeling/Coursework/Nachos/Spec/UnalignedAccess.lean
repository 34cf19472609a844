import Coursework.ForStd.BitVec
import Coursework.Nachos.Spec.Arithmetic

/-!
# Unaligned words

The pairs `lwl`/`lwr` and `swl`/`swr` move a word to and from an address of any alignment: a
load of the word at `a` is an `lwl` at `a + 3` and an `lwr` at `a`, with the same register.
Each of the two handles the bytes of one aligned word and merges them into a register, or
into memory. The loads are delayed, and the second one starts before the first has reached
the register.
-/

namespace Nachos

namespace Processor

/-! ## Bytes of words -/

theorem byteFromInt_eq (value : BitVec 32) {i : Nat} (hi : i < 4) :
    byteFromInt value i = UInt8.ofBitVec (value.byte i) := by
  have h : (value.sshiftRight (8 * i)).setWidth 8 = value.byte i := by
    ext j hj
    have hlt : 8 * i + j < 32 := by omega
    simp [BitVec.getLsbD_sshiftRight, hlt]
    omega
  rw [byteFromInt, h]

/-- The bytes of a word that is read. -/
theorem byte_bytesToInt (array : Nat → UInt8) (offset : Nat) {i : Nat} (hi : i < 4) :
    (bytesToInt array offset 4).byte i = (array (offset + i)).toBitVec := by
  ext j hj
  simp only [bytesToInt, BitVec.getElem_byte]
  rcases (show i = 0 ∨ i = 1 ∨ i = 2 ∨ i = 3 by omega) with rfl | rfl | rfl | rfl <;>
    simp <;> grind

/-- Words with the same bytes. -/
theorem word_ext {x y : BitVec 32} (h : ∀ i < 4, x.byte i = y.byte i) : x = y :=
  BitVec.eq_of_byte_eq (n := 4) rfl h

/-! ## The word an address is in -/

/-- The address of the aligned word that holds a byte. -/
def wordBase (a : BitVec 32) : BitVec 32 := a &&& ~~~ 3

/-- The place of a byte in its word. -/
def wordOffset (a : BitVec 32) : Nat := (a &&& 3).toNat

theorem wordOffset_eq (a : BitVec 32) : wordOffset a = a.toNat % 4 := by
  rw [wordOffset, BitVec.toNat_and]
  exact Nat.and_two_pow_sub_one_eq_mod a.toNat 2

theorem wordBase_add (a : BitVec 32) : wordBase a + BitVec.ofNat 32 (wordOffset a) = a := by
  rw [wordOffset, BitVec.ofNat_toNat, BitVec.setWidth_eq]
  exact BitVec.and_not_add_and a 3

/-- The bytes from an address on, counted from the start of its word. -/
theorem wordBase_add_ofNat (a : BitVec 32) (i : Nat) :
    wordBase a + BitVec.ofNat 32 (i + wordOffset a) = a + BitVec.ofNat 32 i := by
  conv_rhs => rw [← wordBase_add a]
  rw [BitVec.add_assoc, ← BitVec.ofNat_add, Nat.add_comm]

theorem wordBase_aligned (a : BitVec 32) : ¬ Misaligned (wordBase a) 4 := by
  rw [Misaligned, not_not, wordBase, BitVec.and_assoc]
  have hmask : (~~~ 3 : BitVec 32) &&& BitVec.ofNat 32 (4 - 1) = 0#32 := by decide
  rw [hmask, BitVec.and_zero]
  rfl

theorem toNat_wordBase (a : BitVec 32) : (wordBase a).toNat = a.toNat - a.toNat % 4 := by
  have h := wordBase_add a
  have hoff := wordOffset_eq a
  rw [hoff] at h
  bv_omega

/-- The last byte of an unaligned word is at the end of the word before, or in the next one. -/
theorem wordOffset_add_three (a : BitVec 32) :
    wordOffset (a + 3) = (wordOffset a + 3) % 4 := by
  rw [wordOffset_eq, wordOffset_eq]
  bv_omega

/-- How many bytes further than `a` the word of `a + 3` starts. -/
theorem wordBase_add_three (a : BitVec 32) :
    wordBase (a + 3) = wordBase a + BitVec.ofNat 32 (if wordOffset a = 0 then 0 else 4) := by
  apply BitVec.eq_of_toNat_eq
  rw [toNat_wordBase, BitVec.toNat_add, BitVec.toNat_add, toNat_wordBase, wordOffset_eq]
  have := a.isLt
  have := BitVec.toNat_add a 3
  split
  · simp
    omega
  · simp
    omega

/-! ## The four instructions -/

/-- The aligned word that holds a byte. -/
def FlatMemory.wordAt (f : FlatMemory) (a : BitVec 32) : BitVec 32 :=
  bytesToInt (f.window (wordBase a)) 0 4

theorem FlatMemory.byte_wordAt (f : FlatMemory) (a : BitVec 32) {i : Nat} (hi : i < 4) :
    (f.wordAt a).byte i = (f.bytes (wordBase a + BitVec.ofNat 32 i)).toBitVec := by
  rw [wordAt, byte_bytesToInt _ _ hi, Nat.zero_add, window]

theorem read_wordBase (s : Machine FlatMemory) (a : BitVec 32) :
    (onMemory (Bus.readMem (a &&& ~~~ 3) 4) : Exec FlatMemory (BitVec 32)) s =
      .ok (s.memory.wordAt a) s := by
  exact onMemory_ok.mpr
    ⟨FlatMemory.readMem_aligned (Or.inr (Or.inr rfl)) (wordBase_aligned a) _, rfl⟩

theorem write_wordBase (s : Machine FlatMemory) (a value : BitVec 32) :
    (onMemory (Bus.writeMem (a &&& ~~~ 3) 4 value) : Exec FlatMemory Unit) s =
      .ok () { s with memory := s.memory.store (wordBase a) 4 (byteFromInt value) } := by
  exact onMemory_ok.mpr
    ⟨FlatMemory.writeMem_aligned (Or.inr (Or.inr rfl)) (wordBase_aligned a) value _, rfl⟩

namespace Instruction

variable {i : Instruction} {s : Machine FlatMemory}

theorem execute_lwl (hop : i.info.operation = .lwl) :
    ∃ i', i.SameTarget i' ∧ i'.mask = BitVec.allOnes 32 <<< (8 * (3 - wordOffset i.addr)) ∧
      i'.dst = long (s.memory.wordAt i.addr <<< (8 * (3 - wordOffset i.addr))) ∧
      execute i s = .ok i' s := by
  simp only [execute, hop]
  rw [EStateM.bind_of_ok (read_wordBase s i.addr), Nat.mul_comm 8]
  refine ⟨_, ?_, ?_, ?_, rfl⟩
  · exact ⟨rfl, rfl, rfl, rfl, rfl⟩
  · rfl
  · rfl

theorem execute_lwr (hop : i.info.operation = .lwr) :
    ∃ i', i.SameTarget i' ∧ i'.mask = BitVec.allOnes 32 >>> (8 * wordOffset i.addr) ∧
      i'.dst = long (s.memory.wordAt i.addr >>> (8 * wordOffset i.addr)) ∧
      execute i s = .ok i' s := by
  simp only [execute, hop]
  rw [EStateM.bind_of_ok (read_wordBase s i.addr), Nat.mul_comm 8]
  refine ⟨_, ?_, ?_, ?_, rfl⟩
  · exact ⟨rfl, rfl, rfl, rfl, rfl⟩
  · rfl
  · rfl

/-- The word `swl` stores. The source shifts a `long`, whose upper half the mask clears. -/
theorem int_overlayDown (v y : BitVec 32) (q : Nat) :
    int (long v >>> (q * 8) &&& long ((-1 : BitVec 32) >>> (q * 8)) |||
      long (y &&& ~~~ ((-1 : BitVec 32) >>> (q * 8)))) =
      v.overlayDown y q := by
  rw [show (-1 : BitVec 32) = BitVec.allOnes 32 from rfl, BitVec.overlayDown, Nat.mul_comm q 8]
  generalize 8 * q = k
  ext i hi
  simp only [int, long, BitVec.getElem_setWidth, BitVec.getLsbD_or, BitVec.getLsbD_and,
    BitVec.getLsbD_signExtend, BitVec.getLsbD_ushiftRight, BitVec.getElem_or, BitVec.getElem_and,
    BitVec.getElem_ushiftRight, hi]
  by_cases hk : k + i < 32
  · simp [hk, hi]
    grind
  · simp [hk, hi]
    grind

/-- The word `swr` stores. -/
theorem int_overlayUp (v y : BitVec 32) (q : Nat) :
    int (long v <<< (q * 8) &&& long ((-1 : BitVec 32) <<< (q * 8)) |||
      long (y &&& ~~~ ((-1 : BitVec 32) <<< (q * 8)))) =
      v.overlayUp y q := by
  rw [show (-1 : BitVec 32) = BitVec.allOnes 32 from rfl, BitVec.overlayUp, Nat.mul_comm q 8]
  generalize 8 * q = k
  ext i hi
  simp only [int, long, BitVec.getElem_setWidth, BitVec.getLsbD_or, BitVec.getLsbD_and,
    BitVec.getLsbD_signExtend, BitVec.getLsbD_shiftLeft, BitVec.getElem_or, BitVec.getElem_and,
    BitVec.getElem_shiftLeft, hi]
  by_cases hk : i < k
  · simp [hk, hi]
    grind
  · simp [hk, hi]
    grind

theorem execute_swl (hop : i.info.operation = .swl) {v : BitVec 32} (hv : i.src2 = long v) :
    ∃ i', i.SameTarget i' ∧ execute i s = .ok i' { s with
      memory := s.memory.store (wordBase i.addr) 4
        (byteFromInt (v.overlayDown (s.memory.wordAt i.addr) (3 - wordOffset i.addr))) } := by
  simp only [execute, hop, hv]
  rw [EStateM.bind_of_ok (read_wordBase s i.addr), int_overlayDown,
    EStateM.bind_of_ok (write_wordBase s i.addr _)]
  refine ⟨_, ?_, rfl⟩
  exact ⟨rfl, rfl, rfl, rfl, rfl⟩

theorem execute_swr (hop : i.info.operation = .swr) {v : BitVec 32} (hv : i.src2 = long v) :
    ∃ i', i.SameTarget i' ∧ execute i s = .ok i' { s with
      memory := s.memory.store (wordBase i.addr) 4
        (byteFromInt (v.overlayUp (s.memory.wordAt i.addr) (wordOffset i.addr))) } := by
  simp only [execute, hop, hv]
  rw [EStateM.bind_of_ok (read_wordBase s i.addr), int_overlayUp,
    EStateM.bind_of_ok (write_wordBase s i.addr _)]
  refine ⟨_, ?_, rfl⟩
  exact ⟨rfl, rfl, rfl, rfl, rfl⟩

/-- A store of the whole of what an aligned address names. -/
theorem execute_store (hop : i.info.operation = .store) (hn : AccessSize i.size)
    (haligned : ¬ Misaligned i.addr i.size) : i.execute s =
      .ok i { s with memory := s.memory.store i.addr i.size (byteFromInt (int i.src2)) } := by
  have hwrite : (onMemory (Bus.writeMem i.addr i.size (int i.src2)) : Exec FlatMemory Unit) s =
      .ok () { s with memory := s.memory.store i.addr i.size (byteFromInt (int i.src2)) } :=
    onMemory_ok.mpr ⟨FlatMemory.writeMem_aligned hn haligned _ _, rfl⟩
  simp only [execute, hop]
  rw [EStateM.bind_of_ok hwrite]
  rfl

/-- A load of the whole of what an aligned address names. -/
theorem execute_load (hop : i.info.operation = .load) (hn : AccessSize i.size)
    (haligned : ¬ Misaligned i.addr i.size) :
    ∃ value, i.execute s = .ok { i with dst := value } s := by
  have hread : (onMemory (Bus.readMem i.addr i.size) : Exec FlatMemory (BitVec 32)) s =
      .ok _ s :=
    onMemory_ok.mpr ⟨FlatMemory.readMem_aligned hn haligned s.memory, rfl⟩
  simp only [execute, hop]
  rw [EStateM.bind_of_ok hread]
  split
  · exact ⟨_, rfl⟩
  · exact ⟨_, rfl⟩

/-- An instruction that is fetched and executed is run, if it cannot overflow. -/
theorem run_of_execute {s' : Machine FlatMemory} {value : BitVec 32} {i' : Instruction}
    (hfetch : fetch s = .ok value s) (hexec : execute (decode s.cpu.registers value) s = .ok i' s')
    (htarget : (decode s.cpu.registers value).SameTarget i') (hwf : s'.cpu.WF)
    (hover : (decode s.cpu.registers value).info.test .overflow = false) :
    run s = .ok () ⟨i'.commit s'.cpu, s'.memory⟩ := by
  have hno : i'.overflows = false := by
    rw [overflows, htarget.info, hover, Bool.false_and]
  rw [run, EStateM.bind_of_ok hfetch, EStateM.get_bind, EStateM.bind_of_ok hexec, onCpu,
    writeBack_eq ((decode_decoded _ _).sameTarget htarget) hwf, hno]
  rfl

/-- An instruction that is no load leaves none in progress. -/
theorem commit_loadTarget (hload : i.info.test .delayedload = false)
    (hdst : i.info.test .dst = false) (c : Cpu) : (i.commit c).loadTarget = 0 := by
  simp [commit, pcState, dstState, loadState, hdst, hload, Cpu.finish]

/-- The register an instruction loads, once the load is complete. -/
theorem commit_loaded (hload : i.info.test .delayedload = true) (hdst : i.info.test .dst = false)
    {t : Nat} (ht : i.dstReg = t) (hpos : 0 < t) (hlt : t < 32) (c : Cpu) :
    (i.commit c).loaded t = c.loaded t &&& ~~~ i.mask ||| int i.dst &&& i.mask := by
  have hreg := commit_registers (i := i) hdst c (r := t) (by simp only [regPC]; omega)
  have hcommit : (i.commit c).loadTarget = t ∧ (i.commit c).loadValue = int i.dst ∧
      (i.commit c).loadMask = i.mask := by
    simp [commit, pcState, dstState, loadState, hdst, hload, ht]
  obtain ⟨htarget, hvalue, hmask⟩ := hcommit
  rw [Cpu.loaded, htarget, hvalue, hmask, if_neg (by omega), Int.toNat_natCast,
    Function.update_self, hreg]

end Instruction

/-! ## Pairs of instructions -/

open Instruction (fields fetch run decode)

/-- What `decode` makes of a load or a store. -/
theorem decode_access {r : Nat → BitVec 32} {value : BitVec 32} {info : Mips}
    (hinfo : Mips.info (fields value).op (fields value).rt (fields value).func = info)
    (hformat : info.format = .ifmt) (hflags : info.flags = [.delayedload] ∨ info.flags = []) :
    (decode r value).info = info ∧
      (decode r value).addr = r (fields value).rs.toNat + (fields value).imm ∧
      (decode r value).dstReg = (fields value).rt.toNat ∧
      (decode r value).src2 = long (r (fields value).rt.toNat) := by
  simp only [decode, hinfo, hformat]
  rcases hflags with h | h <;> simp [Mips.test, h]

/-- The two parts of an unaligned load give the register the word at `a`. -/
theorem overlay_wordAt (f : FlatMemory) (a old : BitVec 32) :
    (f.wordAt a).overlayDown ((f.wordAt (a + 3)).overlayUp old (3 - wordOffset (a + 3)))
      (wordOffset a) = bytesToInt (f.window a) 0 4 := by
  have hlt : wordOffset a < 4 := by
    rw [wordOffset_eq]
    exact Nat.mod_lt _ (by decide)
  have hthree := wordOffset_add_three a
  have hnext := wordBase_add_three a
  apply word_ext
  intro i hi
  rw [BitVec.byte_overlayDown (n := 4) _ _ rfl hi, byte_bytesToInt _ _ hi, Nat.zero_add,
    FlatMemory.window]
  split
  · -- the byte is in the word of `a`
    rename_i hin
    rw [FlatMemory.byte_wordAt _ _ hin, wordBase_add_ofNat]
  · -- the byte is in the next word
    rename_i hout
    have hne : wordOffset a ≠ 0 := by omega
    rw [if_neg hne] at hnext
    have hq : 3 - wordOffset (a + 3) = 4 - wordOffset a := by omega
    have hplace : 4 + (i - (4 - wordOffset a)) = i + wordOffset a := by omega
    rw [BitVec.byte_overlayUp (n := 4) _ _ rfl hi, hq, if_pos (by omega),
      FlatMemory.byte_wordAt _ _ (by omega), hnext, BitVec.add_assoc, ← BitVec.ofNat_add, hplace,
      wordBase_add_ofNat]

section

variable {s s' : Machine FlatMemory} {w : BitVec 32} {info : Mips} {i : Instruction}
  {memory : FlatMemory}

/-- What an instruction that writes no register leaves, once it is fetched and executed. -/
theorem run_partial (hwf : s.cpu.WF) (hfetch : fetch s = .ok w s) (hrun : run s = .ok () s')
    (hinfo : Mips.info (fields w).op (fields w).rt (fields w).func = info)
    (hformat : info.format = .ifmt) (hflags : info.flags = [.delayedload] ∨ info.flags = [])
    (hexec : Instruction.execute (decode s.cpu.registers w) s = .ok i ⟨s.cpu, memory⟩)
    (htarget : (decode s.cpu.registers w).SameTarget i) :
    s' = ⟨i.commit s.cpu, memory⟩ ∧ i.info = info ∧ i.dstReg = (fields w).rt.toNat ∧ s'.cpu.WF ∧
      ∀ r < regPC, s'.cpu.registers r = s.cpu.loaded r := by
  obtain ⟨hi, -, hdst, -⟩ := decode_access (r := s.cpu.registers) hinfo hformat hflags
  have hno (flag : Mips.Flag) (h : flag ≠ .delayedload) : info.test flag = false := by
    rw [Mips.test]
    rcases hflags with hflags | hflags <;> simp [hflags, h]
  have hrun' := Instruction.run_of_execute hfetch hexec htarget hwf
    (by rw [hi]; exact hno _ (by decide))
  rw [hrun, EStateM.Result.ok.injEq] at hrun'
  obtain ⟨-, rfl⟩ := hrun'
  have hi' : i.info = info := htarget.info.trans hi
  refine ⟨rfl, hi', htarget.dstReg.trans hdst, ?_, ?_⟩
  · exact Instruction.commit_wf
      ((Instruction.decode_decoded s.cpu.registers w).sameTarget htarget) hwf
  · intro r hr
    exact Instruction.commit_registers (by rw [hi']; exact hno _ (by decide)) s.cpu hr

/-- A load of a part of a register. -/
theorem run_partial_load {mask dst : BitVec 32} (hwf : s.cpu.WF) (hfetch : fetch s = .ok w s)
    (hrun : run s = .ok () s')
    (hinfo : Mips.info (fields w).op (fields w).rt (fields w).func = info)
    (hformat : info.format = .ifmt) (hflags : info.flags = [.delayedload])
    (hexec : ∃ i, (decode s.cpu.registers w).SameTarget i ∧ i.mask = mask ∧ i.dst = long dst ∧
      Instruction.execute (decode s.cpu.registers w) s = .ok i s)
    (hpos : 0 < (fields w).rt.toNat) :
    s'.cpu.WF ∧ s'.memory = s.memory ∧ (∀ r < regPC, s'.cpu.registers r = s.cpu.loaded r) ∧
      s'.cpu.loadTarget = (fields w).rt.toNat ∧
      s'.cpu.loaded (fields w).rt.toNat =
        s.cpu.loaded (fields w).rt.toNat &&& ~~~ mask ||| dst &&& mask := by
  obtain ⟨i, htarget, rfl, hdst, hexec⟩ := hexec
  obtain ⟨rfl, hi, hreg, hwf', hregs⟩ := run_partial hwf hfetch hrun hinfo hformat (Or.inl hflags)
    hexec htarget
  have hload : i.info.test .delayedload = true := by
    rw [hi, Mips.test, hflags]
    rfl
  have hno : i.info.test .dst = false := by
    rw [hi, Mips.test, hflags]
    rfl
  refine ⟨hwf', rfl, hregs, ?_, ?_⟩
  · simp [Instruction.commit, Instruction.pcState, Instruction.dstState, Instruction.loadState,
      hno, hload, hreg]
  · rw [Instruction.commit_loaded hload hno hreg hpos (fields w).rt.isLt, hdst, int_long]

end

/-- `lwl` at `a + 3` and `lwr` at `a` load the word at `a`, whatever its alignment is, and
    change no other register of the program. -/
theorem unaligned_load {s s₁ s₂ : Machine FlatMemory} {w₁ w₂ : BitVec 32} (hwf : s.cpu.WF)
    (hf₁ : fetch s = .ok w₁ s) (hr₁ : run s = .ok () s₁)
    (hf₂ : fetch s₁ = .ok w₂ s₁) (hr₂ : run s₁ = .ok () s₂)
    (hlwl : (fields w₁).op = 34) (hlwr : (fields w₂).op = 38)
    (hrs : (fields w₁).rs = (fields w₂).rs) (hrt : (fields w₁).rt = (fields w₂).rt)
    (himm : (fields w₁).imm = (fields w₂).imm + 3) (hpos : 0 < (fields w₂).rt.toNat)
    (hpending : s.cpu.loadTarget ≠ (fields w₂).rs.toNat) :
    s₂.memory = s.memory ∧
      (∀ r < regPC, r ≠ (fields w₂).rt.toNat → s₂.cpu.registers r = s.cpu.loaded r) ∧
      s₂.cpu.loaded (fields w₂).rt.toNat =
        bytesToInt (s.memory.window (s.cpu.registers (fields w₂).rs.toNat + (fields w₂).imm)) 0 4 := by
  have hrs_lt := (fields w₂).rs.isLt
  generalize ha : s.cpu.registers (fields w₂).rs.toNat + (fields w₂).imm = a
  -- the first instruction
  have hinfo₁ : Mips.info (fields w₁).op (fields w₁).rt (fields w₁).func =
      ⟨.lwl, .ifmt, [.delayedload]⟩ := by rw [hlwl]; rfl
  obtain ⟨hi₁, haddr₁, -⟩ :=
    decode_access (r := s.cpu.registers) hinfo₁ rfl (Or.inl rfl)
  rw [hrs, himm, ← BitVec.add_assoc, ha] at haddr₁
  obtain ⟨hwf₁, hmem₁, hreg₁, htarget₁, hload₁⟩ := run_partial_load hwf hf₁ hr₁ hinfo₁ rfl rfl
    (Instruction.execute_lwl (by rw [hi₁])) (hrt ▸ hpos)
  rw [hrt] at htarget₁
  rw [hrt, haddr₁] at hload₁
  -- the second instruction finds the same base register, and memory as it was
  have hinfo₂ : Mips.info (fields w₂).op (fields w₂).rt (fields w₂).func =
      ⟨.lwr, .ifmt, [.delayedload]⟩ := by rw [hlwr]; rfl
  obtain ⟨hi₂, haddr₂, -⟩ :=
    decode_access (r := s₁.cpu.registers) hinfo₂ rfl (Or.inl rfl)
  rw [hreg₁ _ (by simp only [regPC]; omega), Cpu.loaded_of_ne hwf (Ne.symm hpending), ha] at haddr₂
  obtain ⟨-, hmem₂, hreg₂, -, hload₂⟩ := run_partial_load hwf₁ hf₂ hr₂ hinfo₂ rfl rfl
    (Instruction.execute_lwr (by rw [hi₂])) hpos
  rw [haddr₂, hmem₁] at hload₂
  refine ⟨hmem₂.trans hmem₁, ?_, ?_⟩
  · intro r hr hne
    rw [hreg₂ r hr, Cpu.loaded_of_ne hwf₁ (by rw [htarget₁]; omega), hreg₁ r hr]
  · rw [hload₂, hload₁, ← overlay_wordAt s.memory a (s.cpu.loaded (fields w₂).rt.toNat),
      BitVec.overlayDown, BitVec.overlayUp, BitVec.or_comm]
    congr 2
    exact BitVec.or_comm _ _

/-- Two instructions at address 0, before memory in which each byte is its address. Register 1
    holds 9, and register 2 a word to store. -/
def pair (w₁ w₂ : BitVec 32) : Machine FlatMemory :=
  ⟨((Cpu.initial.setReg 1 9).setReg 2 0x44332211).setReg regNextPC 4, ⟨fun a : BitVec 32 =>
    if a.toNat < 4 then byteFromInt w₁ a.toNat
    else if a.toNat < 8 then byteFromInt w₂ (a.toNat - 4)
    else UInt8.ofNat a.toNat⟩⟩

theorem pair_wf (w₁ w₂ : BitVec 32) : (pair w₁ w₂).cpu.WF :=
  ⟨Int.le_refl 0, show (0 : Int) < 32 by decide, rfl⟩

/-- The machine after an instruction, if it completes. -/
def after (s : Machine FlatMemory) : Option (Machine FlatMemory) :=
  match run s with
  | .ok () s' => some s'
  | .error _ _ => none

theorem run_of_after {s : Machine FlatMemory} (h : (after s).isSome = true) :
    run s = .ok () ((after s).get h) := by
  have hget := Option.some_get h
  generalize (after s).get h = s' at hget
  simp only [after] at hget
  split at hget
  · rename_i hrun
    rw [hrun, Option.some.inj hget]
  · exact nomatch hget

/-- `lwl r2, 3(r1)` and `lwr r2, 0(r1)`, for the word at 9. -/
theorem unaligned_load_nine : ∃ s₁ s₂ : Machine FlatMemory,
    run (pair 0x88220003 0x98220000) = .ok () s₁ ∧ run s₁ = .ok () s₂ ∧
      s₂.cpu.loaded 2 = 0x0C0B0A09 := by
  have hr₁ := run_of_after (s := pair 0x88220003 0x98220000) (by decide +kernel)
  have hr₂ := run_of_after (s := (after (pair 0x88220003 0x98220000)).get (by decide +kernel))
    (by decide +kernel)
  have h := unaligned_load (pair_wf 0x88220003 0x98220000)
    (show fetch _ = .ok 0x88220003 _ from
      fetch_of_window (by decide +kernel) (by decide +kernel)) hr₁
    (show fetch _ = .ok 0x98220000 _ from
      fetch_of_window (by decide +kernel) (by decide +kernel)) hr₂
    (by decide) (by decide) (by decide) (by decide) (by decide) (by decide) (by decide)
  refine ⟨_, _, hr₁, hr₂, h.2.2.trans ?_⟩
  decide +kernel

/-! ### Stores -/

theorem add_toNat_sub (base c : BitVec 32) : base + BitVec.ofNat 32 (c - base).toNat = c := by
  rw [BitVec.ofNat_toNat, BitVec.setWidth_eq, BitVec.add_comm, BitVec.sub_add_cancel]

/-- A distance from an address further up. -/
theorem toNat_sub_add (base c : BitVec 32) {k : Nat} (hk : k < 2 ^ 32) :
    (c - (base + BitVec.ofNat 32 k)).toNat =
      if k ≤ (c - base).toNat then (c - base).toNat - k else (c - base).toNat + 2 ^ 32 - k := by
  have hsplit : c - (base + BitVec.ofNat 32 k) = c - base - BitVec.ofNat 32 k := by
    apply BitVec.eq_of_toNat_eq
    simp only [BitVec.toNat_sub, BitVec.toNat_add]
    omega
  rw [hsplit]
  generalize c - base = e
  have := e.isLt
  rw [BitVec.toNat_sub, BitVec.toNat_ofNat, Nat.mod_eq_of_lt hk]
  split <;> omega

/-- Storing a word that differs from the one in memory in some bytes stores these bytes. -/
theorem FlatMemory.store_word (f : FlatMemory) (a : BitVec 32) {x : BitVec 32} {p : Nat → Prop}
    [DecidablePred p] {b : Nat → UInt8}
    (hx : ∀ i < 4, x.byte i = if p i then (b i).toBitVec else (f.wordAt a).byte i) :
    f.store (wordBase a) 4 (byteFromInt x) =
      ⟨fun c => if (c - wordBase a).toNat < 4 ∧ p (c - wordBase a).toNat
        then b (c - wordBase a).toNat else f.bytes c⟩ := by
  simp only [store]
  congr 1
  funext c
  have hc := add_toNat_sub (wordBase a) c
  generalize (c - wordBase a).toNat = d at hc
  subst hc
  by_cases hd : d < 4
  · rw [if_pos hd, byteFromInt_eq x hd, hx d hd]
    by_cases hp : p d
    · rw [if_pos hp, if_pos ⟨hd, hp⟩]
    · rw [if_neg hp, if_neg (fun h => hp h.2), byte_wordAt f a hd]
  · rw [if_neg hd, if_neg (fun h => hd h.1)]

/-- Byte `e` of the two words, after the parts from byte `k` of the first one on. -/
theorem two_parts {α : Type} {k e : Nat} (hk : k < 4) (he : e < 2 ^ 32) (v : Nat → α) (old : α) :
    (if e < 4 ∧ k ≤ e then v (e - k)
      else
        let d := if (if k = 0 then 0 else 4) ≤ e then e - (if k = 0 then 0 else 4)
          else e + 2 ^ 32 - (if k = 0 then 0 else 4)
        if d < 4 ∧ d + (3 - (k + 3) % 4) < 4 then v (d + (3 - (k + 3) % 4)) else old) =
      let d := if k ≤ e then e - k else e + 2 ^ 32 - k
      if d < 4 then v d else old := by
  have hplace (h : 4 ≤ e) (h' : k ≠ 0) : e - 4 + (3 - (k + 3) % 4) = e - k := by omega
  by_cases hk0 : k = 0
  · subst hk0
    simp
    grind
  · grind

/-- The two parts of an unaligned store write the word at `a`. -/
theorem store_overlays (f : FlatMemory) (a v : BitVec 32) {f₁ : FlatMemory}
    (h₁ : f₁ = f.store (wordBase (a + 3)) 4
      (byteFromInt (v.overlayDown (f.wordAt (a + 3)) (3 - wordOffset (a + 3))))) :
    f₁.store (wordBase a) 4 (byteFromInt (v.overlayUp (f₁.wordAt a) (wordOffset a))) =
      f.store a 4 (byteFromInt v) := by
  have hlt : wordOffset a < 4 := by
    rw [wordOffset_eq]
    exact Nat.mod_lt _ (by decide)
  have hthree := wordOffset_add_three a
  have hnext := wordBase_add_three a
  have hbase := wordBase_add a
  rw [FlatMemory.store_word (p := fun i => wordOffset a ≤ i)
    (b := fun i => UInt8.ofBitVec (v.byte (i - wordOffset a)))]
  · rw [h₁, FlatMemory.store_word (p := fun i => i + (3 - wordOffset (a + 3)) < 4)
      (b := fun i => UInt8.ofBitVec (v.byte (i + (3 - wordOffset (a + 3)))))]
    · simp only [FlatMemory.store, hnext, hthree]
      congr 1
      funext c
      generalize wordBase a = base at hbase
      generalize wordOffset a = k at hbase hlt
      subst hbase
      -- both words, and the stored one, by their distance from the first
      have hfar := toNat_sub_add base c (k := k) (by omega)
      have hsecond := toNat_sub_add base c (k := if k = 0 then 0 else 4) (by split <;> omega)
      have he := (c - base).isLt
      rw [hfar, hsecond]
      generalize (c - base).toNat = e at he
      have hparts := two_parts hlt he (fun i => UInt8.ofBitVec (v.byte i)) (f.bytes c)
      dsimp only at hparts
      rw [hparts]
      generalize (if k ≤ e then e - k else e + 2 ^ 32 - k) = d
      by_cases hd : d < 4
      · rw [if_pos hd, if_pos hd, byteFromInt_eq v hd]
      · rw [if_neg hd, if_neg hd]
    · intro i hi
      rw [BitVec.byte_overlayDown (n := 4) _ _ rfl hi]
  · intro i hi
    rw [BitVec.byte_overlayUp (n := 4) _ _ rfl hi]

/-- `swl` at `a + 3` and `swr` at `a` store the word at `a`, whatever its alignment is, and
    change nothing else. -/
theorem unaligned_store {s s₁ s₂ : Machine FlatMemory} {w₁ w₂ : BitVec 32} (hwf : s.cpu.WF)
    (hf₁ : fetch s = .ok w₁ s) (hr₁ : run s = .ok () s₁)
    (hf₂ : fetch s₁ = .ok w₂ s₁) (hr₂ : run s₁ = .ok () s₂)
    (hswl : (fields w₁).op = 42) (hswr : (fields w₂).op = 46)
    (hrs : (fields w₁).rs = (fields w₂).rs) (hrt : (fields w₁).rt = (fields w₂).rt)
    (himm : (fields w₁).imm = (fields w₂).imm + 3)
    (hpending : s.cpu.loadTarget ≠ (fields w₂).rs.toNat)
    (hpending' : s.cpu.loadTarget ≠ (fields w₂).rt.toNat) :
    s₂.memory = s.memory.store (s.cpu.registers (fields w₂).rs.toNat + (fields w₂).imm) 4
        (byteFromInt (s.cpu.registers (fields w₂).rt.toNat)) ∧
      ∀ r < regPC, s₂.cpu.registers r = s.cpu.loaded r := by
  have hrs_lt := (fields w₂).rs.isLt
  have hrt_lt := (fields w₂).rt.isLt
  generalize ha : s.cpu.registers (fields w₂).rs.toNat + (fields w₂).imm = a
  generalize hv : s.cpu.registers (fields w₂).rt.toNat = v
  -- the first instruction
  have hinfo₁ : Mips.info (fields w₁).op (fields w₁).rt (fields w₁).func = ⟨.swl, .ifmt, []⟩ := by
    rw [hswl]
    rfl
  obtain ⟨hi₁, haddr₁, -, hsrc₁⟩ :=
    decode_access (r := s.cpu.registers) hinfo₁ rfl (Or.inr rfl)
  rw [hrs, himm, ← BitVec.add_assoc, ha] at haddr₁
  rw [hrt, hv] at hsrc₁
  obtain ⟨i₁, ht₁, hexec₁⟩ := Instruction.execute_swl (s := s) (by rw [hi₁]) hsrc₁
  rw [haddr₁] at hexec₁
  obtain ⟨hs₁, -, -, hwf₁, hreg₁⟩ := run_partial hwf hf₁ hr₁ hinfo₁ rfl (Or.inr rfl) hexec₁ ht₁
  have hload₁ : s₁.cpu.loadTarget = 0 := by
    rw [hs₁]
    exact Instruction.commit_loadTarget (by rw [ht₁.info, hi₁]; rfl) (by rw [ht₁.info, hi₁]; rfl)
      s.cpu
  -- the second instruction finds the same base register and value
  have hinfo₂ : Mips.info (fields w₂).op (fields w₂).rt (fields w₂).func = ⟨.swr, .ifmt, []⟩ := by
    rw [hswr]
    rfl
  obtain ⟨hi₂, haddr₂, -, hsrc₂⟩ :=
    decode_access (r := s₁.cpu.registers) hinfo₂ rfl (Or.inr rfl)
  rw [hreg₁ _ (by simp only [regPC]; omega), Cpu.loaded_of_ne hwf (Ne.symm hpending), ha] at haddr₂
  rw [hreg₁ _ (by simp only [regPC]; omega), Cpu.loaded_of_ne hwf (Ne.symm hpending'), hv] at hsrc₂
  obtain ⟨i₂, ht₂, hexec₂⟩ := Instruction.execute_swr (s := s₁) (by rw [hi₂]) hsrc₂
  rw [haddr₂] at hexec₂
  obtain ⟨hs₂, -, -, -, hreg₂⟩ := run_partial hwf₁ hf₂ hr₂ hinfo₂ rfl (Or.inr rfl) hexec₂ ht₂
  have hmem₁ : s₁.memory = s.memory.store (wordBase (a + 3)) 4 (byteFromInt
      (v.overlayDown (s.memory.wordAt (a + 3)) (3 - wordOffset (a + 3)))) := by
    rw [hs₁]
  constructor
  · rw [hs₂, ← store_overlays s.memory a v hmem₁]
  · intro r hr
    rw [hreg₂ r hr, Cpu.loaded, if_pos hload₁, hreg₁ r hr]

/-- `swl r2, 3(r1)` and `swr r2, 0(r1)`, for the word at 9. -/
theorem unaligned_store_nine : ∃ s₁ s₂ : Machine FlatMemory,
    run (pair 0xA8220003 0xB8220000) = .ok () s₁ ∧ run s₁ = .ok () s₂ ∧
      s₂.memory = (pair 0xA8220003 0xB8220000).memory.store 9 4 (byteFromInt 0x44332211) := by
  have hr₁ := run_of_after (s := pair 0xA8220003 0xB8220000) (by decide +kernel)
  have hr₂ := run_of_after (s := (after (pair 0xA8220003 0xB8220000)).get (by decide +kernel))
    (by decide +kernel)
  have h := unaligned_store (pair_wf 0xA8220003 0xB8220000)
    (show fetch _ = .ok 0xA8220003 _ from
      fetch_of_window (by decide +kernel) (by decide +kernel)) hr₁
    (show fetch _ = .ok 0xB8220000 _ from
      fetch_of_window (by decide +kernel) (by decide +kernel)) hr₂
    (by decide) (by decide) (by decide) (by decide) (by decide) (by decide) (by decide)
  exact ⟨_, _, hr₁, hr₂, h.1⟩

end Processor

end Nachos
