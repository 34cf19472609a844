import Mathlib.Data.Nat.Bitwise
import Coursework.Nachos.Spec.PreciseExceptions

/-!
# When arithmetic traps

Exactly when the checked instructions complete, on every machine. Divisions check their
result in the registers `Lo` and `Hi`, which keep a sign, so `divu` also traps where the
quotient or the remainder has bit 31 set. The check of `add`, `addi` and `sub` compares the
constants 31 and 32 with the result, not its bits 31 and 32, and has nothing to do with the
carry out of the word.
-/

namespace Nachos

namespace Processor

open Instruction (fields fetch run decode divide execute)

/-! ## Quotients and remainders -/

theorem toInt_long (a : BitVec 32) : (long a).toInt = a.toInt :=
  BitVec.toInt_signExtend_of_le (by decide)

/-- The low half of a `long`, as a number with a sign. -/
theorem toInt_int (x : BitVec 64) : (int x).toInt = x.toInt.bmod (2 ^ 32) := by
  rw [int, BitVec.toInt_setWidth, BitVec.toInt_eq_toNat_bmod x, Int.bmod_bmod_of_dvd (by decide)]

@[simp] theorem int_long (x : BitVec 32) : int (long x) = x := by
  rw [← BitVec.toInt_inj, toInt_int, toInt_long, BitVec.toInt_bmod_cancel]

/-- The check of a division, on integers: the two parts of the result have lost multiples of
    `2 ^ 32`, and these must not show. -/
theorem divide_check (src1 src2 : BitVec 64) (h : src1 ≠ BitVec.intMin 64 ∨ src2 ≠ -1) :
    long (int (src1.sdiv src2)) * src2 + long (int (src1.srem src2)) = src1 ↔
      (2 ^ 64 : Int) ∣ ((src1.toInt.tdiv src2.toInt).bmod (2 ^ 32) - src1.toInt.tdiv src2.toInt) *
        src2.toInt + ((src1.toInt.tmod src2.toInt).bmod (2 ^ 32) - src1.toInt.tmod src2.toInt) := by
  have hquot := BitVec.toInt_sdiv_of_ne_or_ne src1 src2 h
  have hdiv := Int.mul_tdiv_add_tmod src1.toInt src2.toInt
  have hrange := BitVec.toInt_bmod_cancel src1
  rw [← BitVec.toInt_inj, BitVec.toInt_add, BitVec.toInt_mul, toInt_long, toInt_int, toInt_long,
    toInt_int, hquot, BitVec.toInt_srem, Int.bmod_add_bmod]
  generalize src1.toInt.tdiv src2.toInt = q at *
  generalize src1.toInt.tmod src2.toInt = r at *
  have hsplit : q.bmod (2 ^ 32) * src2.toInt + r.bmod (2 ^ 32) - src1.toInt =
      (q.bmod (2 ^ 32) - q) * src2.toInt + (r.bmod (2 ^ 32) - r) := by
    rw [Int.sub_mul, ← hdiv, Int.mul_comm src2.toInt q]
    omega
  rw [← hsplit]
  show _ ↔ ((2 ^ 64 : Nat) : Int) ∣ _
  rw [Int.dvd_iff_bmod_eq_zero, ← Int.bmod_eq_bmod_iff_bmod_sub_eq_zero, hrange]

/-- `div`: an overflow is a divisor 0, or a quotient that does not fit. -/
theorem divide_signed (a b : BitVec 32) (c : Cpu) :
    divide (long a) (long b) c =
      if b = 0 then .error (.mips .overflow none) c
      else
        let c' := (c.setReg regLo (a.sdiv b)).setReg regHi (a.srem b)
        if a = BitVec.intMin 32 ∧ b = -1 then .error (.mips .overflow none) c' else .ok () c' := by
  have hzero : long b = 0 ↔ b = 0 := by
    rw [← BitVec.toInt_inj, ← BitVec.toInt_inj, toInt_long]
    rfl
  have hquot : int ((long a).sdiv (long b)) = a.sdiv b := by
    rw [← BitVec.toInt_inj, toInt_int, BitVec.toInt_sdiv, BitVec.toInt_sdiv, toInt_long,
      toInt_long, Int.bmod_bmod_of_dvd (by decide)]
  have hrem : int ((long a).srem (long b)) = a.srem b := by
    rw [← BitVec.toInt_inj, toInt_int, BitVec.toInt_srem, toInt_long, toInt_long,
      ← BitVec.toInt_srem, BitVec.toInt_bmod_cancel]
  rw [Instruction.divide_eq]
  simp only [hzero]
  by_cases hb : b = 0
  · rw [if_pos hb, if_pos hb]
  · rw [if_neg hb, if_neg hb]
    by_cases hmin : a = BitVec.intMin 32 ∧ b = -1
    · -- the quotient is `2 ^ 31`, which comes back as `-2 ^ 31`
      obtain ⟨rfl, rfl⟩ := hmin
      rw [hquot, hrem, if_pos (by decide), if_pos ⟨rfl, rfl⟩]
    · -- no part of the result is lost
      have hfit := BitVec.toInt_sdiv_of_ne_or_ne a b (by tauto)
      have hcheck : long (int ((long a).sdiv (long b))) * long b +
          long (int ((long a).srem (long b))) = long a := by
        rw [divide_check, toInt_long, toInt_long, ← hfit, ← BitVec.toInt_srem,
          BitVec.toInt_bmod_cancel, BitVec.toInt_bmod_cancel]
        · simp
        · left
          intro h
          have hlow := BitVec.le_toInt a
          have := congrArg BitVec.toInt h
          rw [toInt_long] at this
          rw [this] at hlow
          exact absurd hlow (by decide)
      rw [if_neg (not_not.mpr hcheck), if_neg hmin, hquot, hrem]

/-- An operand without its sign. -/
theorem long_and_mask (a : BitVec 32) : long a &&& 0xFFFFFFFF = a.setWidth 64 := by
  have hmask := BitVec.and_setWidth_allOnes 32 32 (long a)
  rw [show (long a).setWidth 32 = a from int_long a] at hmask
  exact hmask.trans (BitVec.setWidth_eq_append (by decide)).symm

/-- The parts of a result that lose their top bit are caught by the check: the product of the
    quotient with the divisor, and the remainder, are too small to make up for it. -/
theorem lost_signs {a b : BitVec 32} (hb : b ≠ 0) :
    (2 ^ 64 : Int) ∣ ((a / b).toInt - (a / b).toNat) * b.toNat +
        ((a % b).toInt - (a % b).toNat) ↔
      (a / b).toNat < 2 ^ 31 ∧ (a % b).toNat < 2 ^ 31 := by
  have hpos : 0 < b.toNat := by
    have := mt (fun h => BitVec.eq_of_toNat_eq (y := 0) h) hb
    have hz : (0 : BitVec 32).toNat = 0 := rfl
    omega
  have hlt := b.isLt
  have ha := a.isLt
  have hle := Nat.div_mul_le_self a.toNat b.toNat
  have hmod := Nat.mod_lt a.toNat hpos
  rw [BitVec.toInt_eq_toNat_cond (a / b), BitVec.toInt_eq_toNat_cond (a % b),
    BitVec.toNat_udiv, BitVec.toNat_umod]
  generalize a.toNat / b.toNat = q at *
  generalize a.toNat % b.toNat = r at *
  -- read with a sign, a number with bit 31 set is less by `2 ^ 32`
  have hkeep (x : Nat) (h : 2 * x < 2 ^ 32) :
      (if 2 * x < 2 ^ 32 then (x : Int) else x - (2 ^ 32 : Nat)) - x = 0 := by
    rw [if_pos h, Int.sub_self]
  have hlose (x : Nat) (h : ¬ 2 * x < 2 ^ 32) :
      (if 2 * x < 2 ^ 32 then (x : Int) else x - (2 ^ 32 : Nat)) - x = -2 ^ 32 := by
    rw [if_neg h]
    omega
  by_cases hq : 2 * q < 2 ^ 32 <;> by_cases hr : 2 * r < 2 ^ 32
  · rw [hkeep q hq, hkeep r hr, Int.zero_mul]
    omega
  · rw [hkeep q hq, hlose r hr, Int.zero_mul]
    omega
  · rw [hlose q hq, hkeep r hr]
    omega
  · -- both are large, so the divisor is, and then the quotient is not
    have := Nat.mul_le_mul (show 2 ^ 31 ≤ q by omega) (show 2 ^ 31 ≤ b.toNat by omega)
    omega

/-- `divu`: an overflow is also a quotient or a remainder with bit 31 set. -/
theorem divide_unsigned (a b : BitVec 32) (c : Cpu) :
    divide (a.setWidth 64) (b.setWidth 64) c =
      if b = 0 then .error (.mips .overflow none) c
      else
        let c' := (c.setReg regLo (a / b)).setReg regHi (a % b)
        if (a / b).toNat < 2 ^ 31 ∧ (a % b).toNat < 2 ^ 31 then .ok () c'
        else .error (.mips .overflow none) c' := by
  have hnat (x : BitVec 32) : (x.setWidth 64).toInt = x.toNat := by
    rw [BitVec.toInt_setWidth]
    apply Int.bmod_eq_of_le <;> omega
  have hzero : b.setWidth 64 = 0 ↔ b = 0 := by
    rw [← BitVec.toInt_inj, ← BitVec.toNat_inj, hnat]
    exact Int.natCast_inj (n := 0)
  have hne : a.setWidth 64 ≠ BitVec.intMin 64 := by
    intro h
    have := congrArg BitVec.toInt h
    rw [hnat] at this
    exact absurd (this ▸ Int.natCast_nonneg a.toNat) (by decide)
  have hdiv : (a.setWidth 64).toInt.tdiv (b.setWidth 64).toInt = (a / b).toNat := by
    rw [hnat, hnat, BitVec.toNat_udiv]
    rfl
  have hmod : (a.setWidth 64).toInt.tmod (b.setWidth 64).toInt = (a % b).toNat := by
    rw [hnat, hnat, BitVec.toNat_umod]
    rfl
  have hquot : int ((a.setWidth 64).sdiv (b.setWidth 64)) = a / b := by
    rw [← BitVec.toInt_inj, toInt_int, BitVec.toInt_sdiv, Int.bmod_bmod_of_dvd (by decide), hdiv,
      BitVec.toInt_eq_toNat_bmod]
  have hrem : int ((a.setWidth 64).srem (b.setWidth 64)) = a % b := by
    rw [← BitVec.toInt_inj, toInt_int, BitVec.toInt_srem, hmod, BitVec.toInt_eq_toNat_bmod]
  rw [Instruction.divide_eq]
  simp only [hzero]
  by_cases hb : b = 0
  · rw [if_pos hb, if_pos hb]
  · rw [if_neg hb, if_neg hb]
    have hcheck := divide_check (a.setWidth 64) (b.setWidth 64) (Or.inl hne)
    rw [hdiv, hmod, hnat, ← BitVec.toInt_eq_toNat_bmod, ← BitVec.toInt_eq_toNat_bmod,
      lost_signs hb] at hcheck
    rw [hquot, hrem] at *
    by_cases hfit : (a / b).toNat < 2 ^ 31 ∧ (a % b).toNat < 2 ^ 31
    · rw [if_neg (not_not.mpr (hcheck.mpr hfit)), if_pos hfit]
    · rw [if_pos (mt hcheck.mp hfit), if_neg hfit]

/-! ## The instructions -/

theorem fetch_of_window {s : Machine FlatMemory} {w : BitVec 32}
    (hpc : ¬ Misaligned (s.cpu.registers regPC) 4)
    (hw : bytesToInt (s.memory.window (s.cpu.registers regPC)) 0 4 = w) : fetch s = .ok w s := by
  rw [fetch, EStateM.get_bind]
  exact onMemory_ok.mpr
    ⟨hw ▸ FlatMemory.readMem_aligned (Or.inr (Or.inr rfl)) hpc s.memory, rfl⟩

/-- A machine with an instruction at address 0 and its two operands in registers. -/
def operands (w a b : BitVec 32) : Machine FlatMemory :=
  ⟨(Cpu.initial.setReg 1 a).setReg 2 b, ⟨fun c => byteFromInt w c.toNat⟩⟩

theorem operands_wf (w a b : BitVec 32) : (operands w a b).cpu.WF :=
  ⟨Int.le_refl 0, show (0 : Int) < 32 by decide, rfl⟩

/-- The registers `Lo` and `Hi` do not change when a load completes. -/
theorem loaded_lo_hi {c : Cpu} (hwf : c.WF) (lo hi : BitVec 32) :
    ((c.setReg regLo lo).setReg regHi hi).WF ∧
      ((c.setReg regLo lo).setReg regHi hi).loaded regLo = lo ∧
      ((c.setReg regLo lo).setReg regHi hi).loaded regHi = hi := by
  have hwf' := (hwf.setReg (i := regLo) (by decide) lo).setReg (i := regHi) (by decide) hi
  have hlt := hwf'.target_lt
  have hlo : (regLo : Int) = 32 := rfl
  have hhi : (regHi : Int) = 33 := rfl
  refine ⟨hwf', ?_, ?_⟩
  · rw [Cpu.loaded_of_ne hwf' (by omega)]
    simp [regLo, regHi]
  · rw [Cpu.loaded_of_ne hwf' (by omega)]
    simp

section

variable {M : Type} [Bus M] {s s₁ : Machine M} {w : BitVec 32}

/-- The register an instruction names in its field `rs`. -/
def Machine.rs (s : Machine M) (w : BitVec 32) : BitVec 32 := s.cpu.registers (fields w).rs.toNat

/-- The register an instruction names in its field `rt`. -/
def Machine.rt (s : Machine M) (w : BitVec 32) : BitVec 32 := s.cpu.registers (fields w).rt.toNat

/-- Fetching only touches memory. -/
theorem fetch_cpu (hfetch : fetch s = .ok w s₁) : s₁.cpu = s.cpu := by
  rw [fetch, EStateM.get_bind] at hfetch
  exact (onMemory_ok.mp hfetch).2

/-- What is left of an instruction once it is fetched. -/
theorem run_of_fetch (hfetch : fetch s = .ok w s₁) :
    run s = (execute (decode s.cpu.registers w) >>= fun i => onCpu i.writeBack) s₁ := by
  rw [run, EStateM.bind_of_ok hfetch, EStateM.get_bind, fetch_cpu hfetch]

/-- A division that is fetched completes if `divide` does, with the same `Lo` and `Hi`. -/
theorem run_divide (hfetch : fetch s = .ok w s₁)
    (hop : (decode s.cpu.registers w).info.operation = .div)
    (hdst : (decode s.cpu.registers w).info.test .dst = false)
    (hover : (decode s.cpu.registers w).info.test .overflow = false)
    {a b : BitVec 64} (h1 : (decode s.cpu.registers w).src1 = a)
    (h2 : (decode s.cpu.registers w).src2 = b) :
    (∀ e c, divide a b s.cpu = .error e c → run s = .error e ⟨c, s₁.memory⟩) ∧
      ∀ c, divide a b s.cpu = .ok () c → c.WF →
        ∃ s', run s = .ok () s' ∧ s'.cpu.registers regLo = c.loaded regLo ∧
          s'.cpu.registers regHi = c.loaded regHi := by
  rw [run_of_fetch hfetch]
  have hdecoded := Instruction.decode_decoded s.cpu.registers w
  generalize decode s.cpu.registers w = i at *
  have hexec : execute (M := M) i = onCpu (divide a b) >>= fun _ => pure i := by
    simp only [execute, hop, h1, h2]
  rw [hexec, ← fetch_cpu hfetch]
  constructor
  · intro e c hdiv
    have h : (onCpu (divide a b) : Exec M Unit) s₁ = .error e ⟨c, s₁.memory⟩ :=
      onCpu_error.mpr ⟨hdiv, rfl⟩
    exact EStateM.bind_of_error (EStateM.bind_of_error h)
  · intro c hdiv hc
    have h : (onCpu (divide a b) : Exec M Unit) s₁ = .ok () ⟨c, s₁.memory⟩ :=
      onCpu_ok.mpr ⟨hdiv, rfl⟩
    have hwrite : i.writeBack c = .ok () (i.commit c) := by
      rw [Instruction.writeBack_eq hdecoded hc, Instruction.overflows, hover, Bool.false_and]
      rfl
    refine ⟨⟨i.commit c, s₁.memory⟩, ?_, ?_, ?_⟩
    · have hi := (EStateM.bind_of_ok (f := fun _ => (pure i : Exec M Instruction)) h).trans
        (EStateM.pure_apply i _)
      exact (EStateM.bind_of_ok hi).trans (onCpu_ok.mpr ⟨hwrite, rfl⟩)
    · exact Instruction.commit_registers hdst c (by decide)
    · exact Instruction.commit_registers hdst c (by decide)

/-- `div` completes unless the divisor is 0 or the quotient is `2 ^ 31`, and then leaves the
    quotient rounded to 0 and the remainder in `Lo` and `Hi`. -/
theorem run_div (hwf : s.cpu.WF) (hfetch : fetch s = .ok w s₁) (hop : (fields w).op = 0)
    (hfunc : (fields w).func = 26) :
    ((∃ s', run s = .ok () s') ↔
      s.rt w ≠ 0 ∧ ¬ (s.rs w = BitVec.intMin 32 ∧ s.rt w = -1)) ∧
      ∀ s', run s = .ok () s' → s'.cpu.registers regLo = (s.rs w).sdiv (s.rt w) ∧
        s'.cpu.registers regHi = (s.rs w).srem (s.rt w) := by
  have hinfo : Mips.info (fields w).op (fields w).rt (fields w).func = ⟨.div, .rfmt, []⟩ := by
    rw [hop, hfunc]
    rfl
  obtain ⟨herror, hok⟩ := run_divide hfetch (a := long (s.rs w)) (b := long (s.rt w))
    (by rw [decode, hinfo]) (by rw [decode, hinfo]; rfl) (by rw [decode, hinfo]; rfl)
    (by rw [decode, hinfo]; rfl) (by rw [decode, hinfo]; rfl)
  rw [divide_signed] at herror hok
  obtain ⟨hwf', hlo, hhi⟩ := loaded_lo_hi hwf ((s.rs w).sdiv (s.rt w)) ((s.rs w).srem (s.rt w))
  by_cases hzero : s.rt w = 0
  · rw [if_pos hzero] at herror
    simp [herror _ _ rfl, hzero]
  · rw [if_neg hzero] at herror hok
    dsimp only at herror hok
    by_cases hmin : s.rs w = BitVec.intMin 32 ∧ s.rt w = -1
    · rw [if_pos hmin] at herror
      simp [herror _ _ rfl, hmin]
    · rw [if_neg hmin] at hok
      obtain ⟨s', hrun, hlo', hhi'⟩ := hok _ rfl hwf'
      refine ⟨⟨fun _ => ⟨hzero, hmin⟩, fun _ => ⟨s', hrun⟩⟩, ?_⟩
      intro s'' h
      rw [hrun, EStateM.Result.ok.injEq] at h
      rw [← h.2, hlo', hhi', hlo, hhi]
      exact ⟨rfl, rfl⟩

/-- `div r1, r2` for -7 and 2. -/
theorem run_div_seven : ∃ s', run (operands 0x0022001A (-7) 2) = .ok () s' ∧
    s'.cpu.registers regLo = -3 ∧ s'.cpu.registers regHi = -1 := by
  have h := run_div (w := 0x0022001A) (operands_wf 0x0022001A (-7) 2)
    (fetch_of_window (by decide +kernel) (by decide +kernel)) (by decide) (by decide)
  obtain ⟨s', hrun⟩ := h.1.mpr (by decide +kernel)
  exact ⟨s', hrun, h.2 s' hrun⟩

/-- `divu` also traps where the quotient or the remainder has bit 31 set. -/
theorem run_divu (hwf : s.cpu.WF) (hfetch : fetch s = .ok w s₁) (hop : (fields w).op = 0)
    (hfunc : (fields w).func = 27) :
    ((∃ s', run s = .ok () s') ↔
      s.rt w ≠ 0 ∧ (s.rs w / s.rt w).toNat < 2 ^ 31 ∧ (s.rs w % s.rt w).toNat < 2 ^ 31) ∧
      ∀ s', run s = .ok () s' → s'.cpu.registers regLo = s.rs w / s.rt w ∧
        s'.cpu.registers regHi = s.rs w % s.rt w := by
  have hinfo : Mips.info (fields w).op (fields w).rt (fields w).func =
      ⟨.div, .rfmt, [.unsigned]⟩ := by
    rw [hop, hfunc]
    rfl
  obtain ⟨herror, hok⟩ := run_divide hfetch (a := (s.rs w).setWidth 64)
    (b := (s.rt w).setWidth 64) (by rw [decode, hinfo]) (by rw [decode, hinfo]; rfl)
    (by rw [decode, hinfo]; rfl) (by rw [decode, hinfo]; exact long_and_mask _)
    (by rw [decode, hinfo]; exact long_and_mask _)
  rw [divide_unsigned] at herror hok
  obtain ⟨hwf', hlo, hhi⟩ := loaded_lo_hi hwf (s.rs w / s.rt w) (s.rs w % s.rt w)
  by_cases hzero : s.rt w = 0
  · rw [if_pos hzero] at herror
    simp [herror _ _ rfl, hzero]
  · rw [if_neg hzero] at herror hok
    dsimp only at herror hok
    by_cases hfit : (s.rs w / s.rt w).toNat < 2 ^ 31 ∧ (s.rs w % s.rt w).toNat < 2 ^ 31
    · rw [if_pos hfit] at hok
      obtain ⟨s', hrun, hlo', hhi'⟩ := hok _ rfl hwf'
      refine ⟨⟨fun _ => ⟨hzero, hfit⟩, fun _ => ⟨s', hrun⟩⟩, ?_⟩
      intro s'' h
      rw [hrun, EStateM.Result.ok.injEq] at h
      rw [← h.2, hlo', hhi', hlo, hhi]
      exact ⟨rfl, rfl⟩
    · rw [if_neg hfit] at herror
      rw [herror _ _ rfl]
      constructor
      · constructor
        · rintro ⟨_, h⟩
          cases h
        · rintro ⟨_, h⟩
          exact absurd h hfit
      · intro s' h
        cases h

/-- `divu r1, r2` does not divide `2 ^ 31` by 1. -/
theorem run_divu_large : ¬ ∃ s', run (operands 0x0022001B 0x80000000 1) = .ok () s' := by
  have h := run_divu (w := 0x0022001B) (operands_wf 0x0022001B 0x80000000 1)
    (fetch_of_window (by decide +kernel) (by decide +kernel)) (by decide) (by decide)
  exact mt h.1.mp (by decide +kernel)

/-! ## Sums and differences -/

/-- The result of an instruction with the flag `overflow`. -/
def Machine.checkedResult (s : Machine M) (w : BitVec 32) : BitVec 32 :=
  let i := decode s.cpu.registers w
  if i.info.operation = .sub then int i.src1 - int i.src2 else int i.src1 + int i.src2

omit [Bus M] in
/-- The check compares whether the low five bits are 0 with whether bit 5 is. -/
theorem overflows_eq {i : Instruction} (h : i.info.test .overflow = true) {x : BitVec 32}
    (hx : int i.dst = x) :
    i.overflows = true ↔ 0 < x.toNat % 64 ∧ x.toNat % 64 ≤ 32 := by
  have hlow : x.toNat % 64 = i.dst.toNat % 64 := by
    rw [← hx, int, BitVec.toNat_setWidth]
    omega
  have h31 : Lib.test i.dst 31 = decide (i.dst.toNat % 32 ≠ 0) := by
    have hand : 31 &&& i.dst.toNat = i.dst.toNat % 32 :=
      (Nat.and_comm _ _).trans (Nat.and_two_pow_sub_one_eq_mod i.dst.toNat 5)
    rw [Lib.test, Bool.eq_iff_iff, bne_iff_ne, decide_eq_true_iff, ne_eq, ne_eq,
      ← BitVec.toNat_inj, BitVec.toNat_and]
    exact not_congr (hand ▸ Iff.rfl)
  have h32 : Lib.test i.dst 32 = decide (32 ≤ i.dst.toNat % 64) := by
    have hand := Nat.and_two_pow i.dst.toNat 5
    rw [Nat.testBit_eq_decide_div_mod_eq, Nat.and_comm] at hand
    rw [Lib.test, Bool.eq_iff_iff, bne_iff_ne, decide_eq_true_iff, ne_eq, ← BitVec.toNat_inj,
      BitVec.toNat_and]
    show ¬ 2 ^ 5 &&& i.dst.toNat = 0 ↔ _
    rw [hand]
    cases hbit : decide (i.dst.toNat / 2 ^ 5 % 2 = 1)
    · rw [decide_eq_false_iff_not] at hbit
      simp
      omega
    · rw [decide_eq_true_iff] at hbit
      simp
      omega
  rw [Instruction.overflows, h, h31, h32, hlow, Bool.true_and, bne_iff_ne]
  by_cases h0 : i.dst.toNat % 32 = 0 <;> by_cases h1 : 32 ≤ i.dst.toNat % 64 <;> simp [h0, h1] <;>
    omega

/-- `add`, `addi` and `sub` trap exactly where the result is 1 to 32 modulo 64, which are not the
    signed overflows. -/
theorem run_checked (hwf : s.cpu.WF) (hfetch : fetch s = .ok w s₁)
    (hcheck : (decode s.cpu.registers w).info.test .overflow = true) :
    (∃ s', run s = .ok () s') ↔
      (s.checkedResult w).toNat % 64 = 0 ∨ 32 < (s.checkedResult w).toNat % 64 := by
  have hdecoded := Instruction.decode_decoded s.cpu.registers w
  rw [run_of_fetch hfetch, Machine.checkedResult]
  generalize decode s.cpu.registers w = i at *
  have hexec : ∃ i', i.SameTarget i' ∧ int i'.dst = (if i.info.operation = .sub
      then int i.src1 - int i.src2 else int i.src1 + int i.src2) ∧
      execute (M := M) i = pure i' := by
    rcases hdecoded.consistent.checked hcheck with hop | hop
    · refine ⟨{ i with dst := i.src1 + i.src2 }, ⟨rfl, rfl, rfl, rfl, rfl⟩, ?_, ?_⟩
      · rw [hop]
        exact BitVec.setWidth_add _ _ (by decide)
      · simp only [execute, hop]
    · refine ⟨{ i with dst := i.src1 - i.src2 }, ⟨rfl, rfl, rfl, rfl, rfl⟩, ?_, ?_⟩
      · rw [hop, if_pos rfl, BitVec.sub_eq_add_neg, BitVec.sub_eq_add_neg]
        exact (BitVec.setWidth_add _ _ (by decide)).trans
          (by rw [BitVec.setWidth_neg_of_le (by decide)]; rfl)
      · simp only [execute, hop]
  obtain ⟨i', htarget, hdst, hexec⟩ := hexec
  have hover := overflows_eq (by rw [htarget.info]; exact hcheck) hdst
  have hwrite := Instruction.writeBack_eq (hdecoded.sameTarget htarget) hwf
  rw [hexec, EStateM.bind_of_ok (EStateM.pure_apply _ _), onCpu, fetch_cpu hfetch, hwrite]
  by_cases h : i'.overflows = true
  · simp only [h, if_true]
    have := hover.mp h
    constructor
    · rintro ⟨_, hs⟩
      cases hs
    · omega
  · rw [if_neg h]
    have := mt hover.mpr h
    exact ⟨fun _ => by omega, fun _ => ⟨_, rfl⟩⟩

/-- `add r3, r1, r2` traps for 2 and 3, and not for the largest number and 1. -/
theorem run_checked_small : (¬ ∃ s', run (operands 0x00221820 2 3) = .ok () s') ∧
    ∃ s', run (operands 0x00221820 0x7FFFFFFF 1) = .ok () s' := by
  have hsmall := run_checked (w := 0x00221820) (operands_wf 0x00221820 2 3)
    (fetch_of_window (by decide +kernel) (by decide +kernel)) (by decide +kernel)
  have hlarge := run_checked (w := 0x00221820) (operands_wf 0x00221820 0x7FFFFFFF 1)
    (fetch_of_window (by decide +kernel) (by decide +kernel)) (by decide +kernel)
  exact ⟨mt hsmall.mp (by decide +kernel), hlarge.mpr (by decide +kernel)⟩

end

end Processor

end Nachos
