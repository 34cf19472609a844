import Coursework.Nachos.Processor

/-!
# Address translation shows a flat memory

What `Processor.translate` returns and what it leaves alone, and from it what a load and a
store see. `FlatMemory` is the memory a user program believes in: every address has a byte,
and the only exception is the one for alignment. A memory with translations *shows* a flat
memory when the pages it maps hold the bytes of the flat one and no two of them share a
frame. Loads and stores then agree with the flat memory, up to the exceptions that hand a
page over to the kernel.
-/

namespace Nachos

namespace Processor

/-! ## Addresses -/

@[simp] theorem toUnsigned_toInt (v : BitVec 32) : toUnsigned v.toInt = v.toNat := by
  have := v.isLt
  simp only [toUnsigned, BitVec.toInt_eq_toNat_cond]
  split <;> omega

@[simp] theorem pageFromAddress_toInt (v : BitVec 32) :
    pageFromAddress v.toInt = v.toNat / pageSize := by
  simp [pageFromAddress]

@[simp] theorem offsetFromAddress_toInt (v : BitVec 32) :
    offsetFromAddress v.toInt = v.toNat % pageSize := by
  simp [offsetFromAddress]

/-- The sizes of memory accesses. -/
def AccessSize (n : Nat) : Prop := n = 1 ∨ n = 2 ∨ n = 4

instance (n : Nat) : Decidable (AccessSize n) := by unfold AccessSize; infer_instance

/-- The alignment test of `translate`. -/
def Misaligned (v : BitVec 32) (n : Nat) : Prop := v &&& BitVec.ofNat 32 (n - 1) ≠ 0

instance (v : BitVec 32) (n : Nat) : Decidable (Misaligned v n) := by
  unfold Misaligned; infer_instance

theorem not_misaligned_iff {v : BitVec 32} {n : Nat} (hn : AccessSize n) :
    ¬ Misaligned v n ↔ v.toNat % n = 0 := by
  have hmask (k : Nat) : v.toNat &&& (2 ^ k - 1) = v.toNat % 2 ^ k :=
    Nat.and_two_pow_sub_one_eq_mod _ _
  rw [Misaligned, not_not, ← BitVec.toNat_inj]
  rcases hn with rfl | rfl | rfl
  · simp [Nat.mod_one]
  · have := hmask 1
    simp_all
  · have := hmask 2
    simp_all

/-- The bytes of an aligned access follow one another in one page. -/
theorem aligned_add {v : BitVec 32} {n i : Nat} (hn : AccessSize n) (hv : ¬ Misaligned v n)
    (hi : i < n) : (v + BitVec.ofNat 32 i).toNat = v.toNat + i ∧
      (v.toNat + i) / pageSize = v.toNat / pageSize ∧
      (v.toNat + i) % pageSize = v.toNat % pageSize + i ∧ v.toNat % pageSize + n ≤ pageSize := by
  have hlt := v.isLt
  rw [not_misaligned_iff hn] at hv
  simp only [BitVec.toNat_add, BitVec.toNat_ofNat, pageSize]
  rcases hn with rfl | rfl | rfl <;> omega

/-! ## Translation -/

/-- The frame and the protection of a page, as far as an access depends on them. -/
def Translations.mapping (t : Translations) (vpn : Nat) : Option (Int × Bool) :=
  (t.lookup vpn).map fun entry => (entry.2.ppn, entry.2.readOnly)

/-- The frame a page is mapped to. -/
def Memory.frame (m : Memory) (vpn : Nat) : Option Nat :=
  (m.translations.mapping vpn).bind fun entry =>
    if 0 ≤ entry.1 ∧ entry.1 < m.numPhysPages then some entry.1.toNat else none

/-- Two memories that translate alike: they differ in bytes, and in used and dirty bits. -/
structure Memory.SameMapping (m m' : Memory) : Prop where
  numPhysPages : m'.numPhysPages = m.numPhysPages
  mapping : m'.translations.mapping = m.translations.mapping
  missing : m'.translations.missing = m.translations.missing

namespace Memory.SameMapping

theorem refl (m : Memory) : m.SameMapping m := ⟨rfl, rfl, rfl⟩

theorem trans {m₁ m₂ m₃ : Memory} (h : m₁.SameMapping m₂) (h' : m₂.SameMapping m₃) :
    m₁.SameMapping m₃ :=
  ⟨h'.numPhysPages.trans h.numPhysPages, h'.mapping.trans h.mapping, h'.missing.trans h.missing⟩

theorem frame {m m' : Memory} (h : m.SameMapping m') : m'.frame = m.frame := by
  funext vpn
  simp only [Memory.frame, h.mapping, h.numPhysPages]

end Memory.SameMapping

/-- Writing an entry back with other used and dirty bits changes no mapping. -/
theorem Translations.mapping_set {t : Translations} {vpn i : Nat} {entry : TranslationEntry}
    (h : t.lookup vpn = some (i, entry)) (used dirty : Bool) :
    (t.set i { entry with used, dirty }).mapping = t.mapping := by
  funext w
  cases t with
  | pageTable table =>
    cases table with
    | none => exact nomatch h
    | some table =>
      simp only [lookup] at h
      split at h
      · rename_i e he
        split at h
        · rename_i hvalid
          simp only [Option.some.injEq, Prod.mk.injEq] at h
          obtain ⟨rfl, rfl⟩ := h
          have hlt : vpn < table.length := (List.getElem?_eq_some_iff.mp he).1
          simp only [mapping, lookup, Translations.set, Option.map_some, List.getElem?_set]
          by_cases hw : vpn = w
          · subst hw
            simp [List.getElem?_eq_some_iff.mp he |>.2, hlt, hvalid]
          · simp [hw]
        · exact nomatch h
      · exact nomatch h
  | tlb entries =>
    simp only [lookup, Option.map_eq_some_iff, Prod.mk.injEq] at h
    obtain ⟨j, hj, rfl, rfl⟩ := h
    -- the search looks at fields that do not change
    have hsearch : (fun k => ((Function.update entries j { entries j with used, dirty }) k).valid &&
        ((Function.update entries j { entries j with used, dirty }) k).vpn == w) =
        fun k => (entries k).valid && (entries k).vpn == w := by
      funext k
      by_cases hk : k = j <;> simp [hk]
    simp only [mapping, lookup, Translations.set, hsearch, Option.map_map]
    congr 1
    funext k
    by_cases hk : k = j <;> simp [Function.update_apply, hk]

theorem Translations.missing_set (t : Translations) (i : Nat) (entry : TranslationEntry) :
    (t.set i entry).missing = t.missing := by
  cases t <;> rfl

/-- The exceptions by which a translation asks the kernel for a page or reports its loss. -/
def Cause.ofPage : Cause → Bool
  | .pageFault | .tlbMiss | .readOnly | .busError => true
  | _ => false

namespace Memory

/-- A translation that succeeds: the address is aligned and its page is mapped to a frame that
    exists, writable if it is to be written, and only used and dirty bits change. -/
theorem translate_ok {m m' : Memory} {v : BitVec 32} {n p : Nat} {writing : Bool}
    (h : translate v n writing m = .ok p m') :
    ¬ Misaligned v n ∧ m.SameMapping m' ∧ m'.mainMemory = m.mainMemory ∧
      (writing = true → ∃ ppn, m.translations.mapping (v.toNat / pageSize) = some (ppn, false)) ∧
      ∃ f, m.frame (v.toNat / pageSize) = some f ∧ f < m.numPhysPages ∧
        p = frameAddr f (v.toNat % pageSize) := by
  simp only [translate, EStateM.get_bind, pageFromAddress_toInt, offsetFromAddress_toInt] at h
  split at h
  · exact nomatch h
  rename_i haligned
  cases hlookup : m.translations.lookup (v.toNat / pageSize) with
  | none =>
    simp only [hlookup] at h
    exact nomatch h
  | some found =>
  obtain ⟨i, entry⟩ := found
  simp only [hlookup] at h
  split at h
  · exact nomatch h
  rename_i hwrite
  split at h
  · exact nomatch h
  rename_i hppn
  simp only [EStateM.set_bind, EStateM.pure_apply, EStateM.Result.ok.injEq] at h
  obtain ⟨rfl, rfl⟩ := h
  have hmapping : m.translations.mapping (v.toNat / pageSize) = some (entry.ppn, entry.readOnly) := by
    simp [Translations.mapping, hlookup]
  push Not at hppn
  refine ⟨haligned, ⟨rfl, Translations.mapping_set hlookup _ _, Translations.missing_set _ _ _⟩,
    rfl, ?_, entry.ppn.toNat, ?_, by omega, rfl⟩
  · rintro rfl
    have hro : entry.readOnly = false := by simpa using hwrite
    exact ⟨entry.ppn, by rw [hmapping, hro]⟩
  · simp [frame, hmapping, hppn]

/-- A translation that fails leaves the memory alone and reports the address. -/
theorem translate_error {m m' : Memory} {v : BitVec 32} {n : Nat} {writing : Bool} {e : Fault}
    (h : translate v n writing m = .error e m') :
    m' = m ∧ ∃ cause, e = .mips cause (some v) ∧
      (cause = .addressError ∧ Misaligned v n ∨ cause.ofPage = true ∧ ¬ Misaligned v n) := by
  simp only [translate, EStateM.get_bind] at h
  split at h
  · rename_i haligned
    simp only [EStateM.throw_apply, EStateM.Result.error.injEq] at h
    exact ⟨h.2.symm, _, h.1.symm, Or.inl ⟨rfl, haligned⟩⟩
  rename_i haligned
  cases hlookup : m.translations.lookup (v.toNat / pageSize) with
  | none =>
    simp only [pageFromAddress_toInt, hlookup, EStateM.throw_apply,
      EStateM.Result.error.injEq] at h
    refine ⟨h.2.symm, _, h.1.symm, Or.inr ⟨?_, haligned⟩⟩
    cases m.translations <;> rfl
  | some found =>
  simp only [pageFromAddress_toInt, hlookup] at h
  split at h
  · simp only [EStateM.throw_apply, EStateM.Result.error.injEq] at h
    exact ⟨h.2.symm, _, h.1.symm, Or.inr ⟨rfl, haligned⟩⟩
  split at h
  · simp only [EStateM.throw_apply, EStateM.Result.error.injEq] at h
    exact ⟨h.2.symm, _, h.1.symm, Or.inr ⟨rfl, haligned⟩⟩
  · exact nomatch h

/-- A load of an access size that completes. -/
theorem readMem_ok {m m' : Memory} {v : BitVec 32} {n : Nat} {value : BitVec 32}
    (h : readMem v n m = .ok value m') :
    AccessSize n ∧ ∃ p, translate v n false m = .ok p m' ∧ value = bytesToInt m'.mainMemory p n := by
  simp only [readMem] at h
  split at h
  · exact nomatch h
  rename_i hn
  obtain ⟨p, m₁, htr, h⟩ := EStateM.bind_eq_ok.mp h
  rw [EStateM.get_bind] at h
  split at h
  · exact nomatch h
  · simp only [EStateM.pure_apply, EStateM.Result.ok.injEq] at h
    obtain ⟨rfl, rfl⟩ := h
    exact ⟨not_not.mp hn, p, htr, rfl⟩

/-- A translated access stays inside physical memory. -/
theorem translate_in_bounds {m m' : Memory} {v : BitVec 32} {n p : Nat} {writing : Bool}
    (hn : AccessSize n) (h : translate v n writing m = .ok p m') :
    p + n ≤ m'.numPhysPages * pageSize := by
  obtain ⟨haligned, hsame, -, -, f, -, hf, rfl⟩ := translate_ok h
  have hpage := (aligned_add hn haligned (i := 0) (by rcases hn with rfl | rfl | rfl <;> decide)).2.2.2
  rw [hsame.numPhysPages]
  have : (f + 1) * pageSize ≤ m.numPhysPages * pageSize := Nat.mul_le_mul_right _ hf
  simp only [frameAddr, pageSize] at *
  omega

/-- A load fails only in its translation. -/
theorem readMem_error {m m' : Memory} {v : BitVec 32} {n : Nat} {e : Fault} (hn : AccessSize n)
    (h : readMem v n m = .error e m') : translate v n false m = .error e m' := by
  simp only [readMem] at h
  split at h
  · rename_i hn'
    exact absurd hn hn'
  rcases EStateM.bind_eq_error.mp h with h | ⟨p, m₁, htr, h⟩
  · exact h
  · rw [EStateM.get_bind] at h
    split at h
    · rename_i hbound
      have := translate_in_bounds hn htr
      omega
    · exact nomatch h

/-- A store of an access size that completes. -/
theorem writeMem_ok {m m' : Memory} {v : BitVec 32} {n : Nat} {value : BitVec 32}
    (h : writeMem v n value m = .ok () m') :
    AccessSize n ∧ ∃ p m₁, translate v n true m = .ok p m₁ ∧
      m' = { m₁ with mainMemory := blit m₁.mainMemory p n (byteFromInt value) } := by
  simp only [writeMem] at h
  split at h
  · exact nomatch h
  rename_i hn
  obtain ⟨p, m₁, htr, h⟩ := EStateM.bind_eq_ok.mp h
  rw [EStateM.get_bind] at h
  split at h
  · exact nomatch h
  · simp only [EStateM.set_apply, EStateM.Result.ok.injEq, true_and] at h
    exact ⟨not_not.mp hn, p, m₁, htr, h.symm⟩

/-- A store fails only in its translation. -/
theorem writeMem_error {m m' : Memory} {v : BitVec 32} {n : Nat} {value : BitVec 32} {e : Fault}
    (hn : AccessSize n) (h : writeMem v n value m = .error e m') :
    translate v n true m = .error e m' := by
  simp only [writeMem] at h
  split at h
  · rename_i hn'
    exact absurd hn hn'
  rcases EStateM.bind_eq_error.mp h with h | ⟨p, m₁, htr, h⟩
  · exact h
  · rw [EStateM.get_bind] at h
    split at h
    · rename_i hbound
      have := translate_in_bounds hn htr
      omega
    · exact nomatch h

end Memory

/-! ## Flat memory -/

/-- The memory of a user program: a byte for every address. -/
structure FlatMemory where
  bytes : BitVec 32 → UInt8

namespace FlatMemory

/-- The bytes from an address on. -/
def window (f : FlatMemory) (v : BitVec 32) (i : Nat) : UInt8 := f.bytes (v + BitVec.ofNat 32 i)

/-- Replace `n` bytes from an address on. -/
def store (f : FlatMemory) (v : BitVec 32) (n : Nat) (bytes : Nat → UInt8) : FlatMemory :=
  ⟨fun a => if (a - v).toNat < n then bytes (a - v).toNat else f.bytes a⟩

/-- A load from flat memory. -/
def readMem (v : BitVec 32) (n : Nat) : EStateM Fault FlatMemory (BitVec 32) := do
  if ¬ AccessSize n then throw (.java .assertion)
  else if Misaligned v n then throw (.mips .addressError (some v))
  else return bytesToInt ((← get).window v) 0 n

/-- A store to flat memory. -/
def writeMem (v : BitVec 32) (n : Nat) (value : BitVec 32) : EStateM Fault FlatMemory Unit := do
  if ¬ AccessSize n then throw (.java .assertion)
  else if Misaligned v n then throw (.mips .addressError (some v))
  else modify fun f => f.store v n (byteFromInt value)

theorem readMem_aligned {v : BitVec 32} {n : Nat} (hn : AccessSize n) (hv : ¬ Misaligned v n)
    (f : FlatMemory) : readMem v n f = .ok (bytesToInt (f.window v) 0 n) f := by
  rw [readMem, if_neg (not_not.mpr hn), if_neg hv]
  rfl

theorem readMem_misaligned {v : BitVec 32} {n : Nat} (hn : AccessSize n) (hv : Misaligned v n)
    (f : FlatMemory) : readMem v n f = .error (.mips .addressError (some v)) f := by
  rw [readMem, if_neg (not_not.mpr hn), if_pos hv]
  rfl

theorem writeMem_aligned {v : BitVec 32} {n : Nat} (hn : AccessSize n) (hv : ¬ Misaligned v n)
    (value : BitVec 32) (f : FlatMemory) :
    writeMem v n value f = .ok () (f.store v n (byteFromInt value)) := by
  rw [writeMem, if_neg (not_not.mpr hn), if_neg hv]
  rfl

theorem writeMem_misaligned {v : BitVec 32} {n : Nat} (hn : AccessSize n) (hv : Misaligned v n)
    (value : BitVec 32) (f : FlatMemory) :
    writeMem v n value f = .error (.mips .addressError (some v)) f := by
  rw [writeMem, if_neg (not_not.mpr hn), if_pos hv]
  rfl

theorem readMem_readOnly (v : BitVec 32) (n : Nat) : EStateM.ReadOnly (readMem v n) := by
  intro f value f' h
  simp only [readMem] at h
  split at h
  · exact nomatch h
  split at h
  · exact nomatch h
  · rw [EStateM.get_bind, EStateM.pure_apply, EStateM.Result.ok.injEq] at h
    exact h.2.symm

end FlatMemory

instance : Bus FlatMemory := ⟨FlatMemory.readMem, FlatMemory.writeMem⟩

/-- The mapped pages hold the bytes of a flat memory, each in a frame of its own. -/
structure Shows (m : Memory) (f : FlatMemory) : Prop where
  bytes : ∀ (v : BitVec 32) (g : Nat), m.frame (v.toNat / pageSize) = some g →
    m.mainMemory (frameAddr g (v.toNat % pageSize)) = f.bytes v
  injective : ∀ v w g, m.frame v = some g → m.frame w = some g → v = w

namespace Shows

variable {m m' : Memory} {f : FlatMemory}

/-- A change of used and dirty bits does not show. -/
theorem sameMapping (h : Shows m f) (hsame : m.SameMapping m')
    (hbytes : m'.mainMemory = m.mainMemory) : Shows m' f := by
  constructor
  · intro v g hg
    rw [hbytes]
    exact h.bytes v g (hsame.frame ▸ hg)
  · intro v w g hv hw
    exact h.injective v w g (hsame.frame ▸ hv) (hsame.frame ▸ hw)

/-- The bytes an access is translated to are those of the flat memory. -/
theorem window (h : Shows m f) {v : BitVec 32} {n g i : Nat} (hn : AccessSize n)
    (hv : ¬ Misaligned v n) (hg : m.frame (v.toNat / pageSize) = some g) (hi : i < n) :
    m.mainMemory (frameAddr g (v.toNat % pageSize) + i) = f.window v i := by
  obtain ⟨hadd, hpage, hoff, -⟩ := aligned_add hn hv hi
  have hbyte := h.bytes (v + BitVec.ofNat 32 i) g (by rw [hadd, hpage]; exact hg)
  rw [hadd, hoff] at hbyte
  rw [FlatMemory.window, ← hbyte, frameAddr, frameAddr, Nat.add_assoc]

/-- A store to a mapped page is a store to the flat memory. -/
theorem store (h : Shows m f) {v : BitVec 32} {n g : Nat} (hn : AccessSize n)
    (hv : ¬ Misaligned v n) (hg : m.frame (v.toNat / pageSize) = some g) (bytes : Nat → UInt8)
    (hsame : m.SameMapping m')
    (hbytes : m'.mainMemory = blit m.mainMemory (frameAddr g (v.toNat % pageSize)) n bytes) :
    Shows m' (f.store v n bytes) := by
  have hpos : 0 < n := by rcases hn with rfl | rfl | rfl <;> decide
  have hfit := (aligned_add hn hv hpos).2.2.2
  constructor
  · intro a k hk
    rw [hsame.frame] at hk
    rw [hbytes]
    simp only [FlatMemory.store]
    by_cases hin : (a - v).toNat < n
    · -- inside: the address is in the page of `v`, so in its frame
      obtain ⟨hadd, hpage, hoff, -⟩ := aligned_add hn hv hin
      have ha : a = v + BitVec.ofNat 32 (a - v).toNat := by
        rw [BitVec.ofNat_toNat, BitVec.setWidth_eq, BitVec.add_comm, BitVec.sub_add_cancel]
      generalize (a - v).toNat = i at ha hin hadd hpage hoff
      subst ha
      rw [hadd, hpage, hg, Option.some.injEq] at hk
      subst hk
      rw [hadd, hoff, if_pos hin]
      have : frameAddr g (v.toNat % pageSize + i) = frameAddr g (v.toNat % pageSize) + i := by
        simp only [frameAddr]
        omega
      rw [this, blit_inside hin]
    · rw [if_neg hin, ← h.bytes a k hk]
      apply blit_outside
      by_cases hkg : k = g
      · -- same frame, so same page: the offsets differ as the addresses do
        subst hkg
        have hpage := h.injective _ _ _ hk hg
        rw [BitVec.toNat_sub] at hin
        have := a.isLt
        have := v.isLt
        simp only [frameAddr, pageSize] at *
        omega
      · -- another frame
        rcases Nat.lt_or_gt_of_ne hkg with hlt | hlt
        · have : (k + 1) * pageSize ≤ g * pageSize := Nat.mul_le_mul_right _ hlt
          have := Nat.mod_lt a.toNat (show 0 < pageSize by decide)
          simp only [frameAddr, pageSize] at *
          omega
        · have : (g + 1) * pageSize ≤ k * pageSize := Nat.mul_le_mul_right _ hlt
          simp only [frameAddr, pageSize] at *
          omega
  · intro x y k hx hy
    exact h.injective x y k (hsame.frame ▸ hx) (hsame.frame ▸ hy)

end Shows

/-- `bytesToInt` reads the bytes of its range only. -/
theorem bytesToInt_congr {a b : Nat → UInt8} {p q n : Nat} (hn : AccessSize n)
    (h : ∀ i < n, a (p + i) = b (q + i)) : bytesToInt a p n = bytesToInt b q n := by
  have h0 : 0 < n → a p = b q := h 0
  rcases hn with rfl | rfl | rfl
  · simp only [bytesToInt, h0 (by decide)]
  · simp only [bytesToInt, h0 (by decide), h 1 (by decide)]
  · simp only [bytesToInt, h0 (by decide), h 1 (by decide), h 2 (by decide), h 3 (by decide)]

/-- The exceptions that only a memory with translations has. -/
def Fault.ofPage : Fault → Prop
  | .mips cause _ => cause.ofPage = true
  | .java _ => False

/-- A load sees the flat memory, if the kernel does not have to step in. -/
theorem readMem_simulates {n : Nat} (hn : AccessSize n) (v : BitVec 32) :
    EStateM.Simulates Fault.ofPage Shows Shows (Memory.readMem v n) (FlatMemory.readMem v n)
      (fun a b m f => a = b ∧ Shows m f) := by
  intro m f hshow
  constructor
  · intro value m' h
    obtain ⟨-, p, htr, rfl⟩ := Memory.readMem_ok h
    obtain ⟨haligned, hsame, hbytes, -, g, hg, -, rfl⟩ := Memory.translate_ok htr
    have hshow' := hshow.sameMapping hsame hbytes
    refine ⟨_, f, FlatMemory.readMem_aligned hn haligned f, ?_, hshow'⟩
    · apply bytesToInt_congr hn
      intro i hi
      rw [Nat.zero_add]
      exact hshow'.window hn haligned (hsame.frame ▸ hg) hi
  · intro e m' h
    obtain ⟨rfl, cause, rfl, ⟨rfl, hmis⟩ | ⟨hpage, -⟩⟩ :=
      Memory.translate_error (Memory.readMem_error hn h)
    · exact Or.inr ⟨f, FlatMemory.readMem_misaligned hn hmis f, hshow⟩
    · exact Or.inl ⟨hpage, hshow⟩

/-- A store changes the flat memory as it changes the mapped frame. -/
theorem writeMem_simulates {n : Nat} (hn : AccessSize n) (v value : BitVec 32) :
    EStateM.Simulates Fault.ofPage Shows Shows (Memory.writeMem v n value)
      (FlatMemory.writeMem v n value) (fun _ _ m f => Shows m f) := by
  intro m f hshow
  constructor
  · intro _ m' h
    obtain ⟨-, p, m₁, htr, rfl⟩ := Memory.writeMem_ok h
    obtain ⟨haligned, hsame, hbytes, -, g, hg, -, rfl⟩ := Memory.translate_ok htr
    refine ⟨(), _, FlatMemory.writeMem_aligned hn haligned value f, ?_⟩
    · exact hshow.store hn haligned hg _ ⟨hsame.1, hsame.2, hsame.3⟩ (by rw [hbytes])
  · intro e m' h
    obtain ⟨rfl, cause, rfl, ⟨rfl, hmis⟩ | ⟨hpage, -⟩⟩ :=
      Memory.translate_error (Memory.writeMem_error hn h)
    · exact Or.inr ⟨f, FlatMemory.writeMem_misaligned hn hmis value f, hshow⟩
    · exact Or.inl ⟨hpage, hshow⟩

end Processor

end Nachos
