import Coursework.Heap.Tiling
import Coursework.Tmalloc.Arena

/-!
# The chunks of the arena as segments

A list of segments is laid in the memory when every segment has a header with its right link and
its free bit, and the header after it has the link back. A segment has two words of its own, so a
store is seen by the segments beside it only.

## Key results

- `Laid.edit`: a part of the arena is replaced
- `Laid.split`, `Laid.consolidateLeft`, `Laid.consolidateRight`: what the steps of `tmalloc` and
  `tfree` make of the segments
-/

namespace Tmalloc

open Heap

variable {A : Arena} {m m' : Memory} {a low high : Nat} {s : Segment Nat}
  {segs pre mid mid' post : List (Segment Nat)}

/-! ## Words at addresses given as numbers -/

/-- The address `a` as a pointer. -/
abbrev ptr (a : Nat) : BitVec 32 := BitVec.ofNat 32 a

theorem ptr_toNat (ha : a < 2 ^ 32) : (ptr a).toNat = a := by
  rw [BitVec.toNat_ofNat, Nat.mod_eq_of_lt ha]

theorem ptr_add (a b : Nat) : ptr a + BitVec.ofNat 32 b = ptr (a + b) :=
  (BitVec.ofNat_add a b).symm

theorem ptr_aligned (ha : a < 2 ^ 32) (h4 : a % 4 = 0) : Memory.Aligned (ptr a) := by
  rw [Memory.Aligned, ptr_toNat ha, h4]

theorem ptr_ne {b : Nat} (ha : a < 2 ^ 32) (hb : b < 2 ^ 32) (hne : a ≠ b) : ptr a ≠ ptr b := by
  intro h
  have := congrArg BitVec.toNat h
  rw [ptr_toNat ha, ptr_toNat hb] at this
  exact hne this

theorem ptr_ne_null (hpos : 0 < a) (ha : a < 2 ^ 32) : ptr a ≠ null :=
  ptr_ne ha (by decide) (Nat.ne_of_gt hpos)

/-- The free bit on top of an even address. -/
theorem ptr_or_one (h2 : a % 2 = 0) (free : Bool) :
    ptr (a + free.toNat) ||| 1 = ptr (a + 1) := by
  apply BitVec.eq_of_getLsbD_eq
  intro i hi
  simp only [BitVec.getLsbD_or, BitVec.getLsbD_ofNat, hi, decide_true, Bool.true_and]
  cases i with
  | zero => simp [Nat.testBit_zero]; omega
  | succ i =>
    have : (a + free.toNat) / 2 = (a + 1) / 2 := by
      have := Bool.toNat_le free
      omega
    simp [Nat.testBit_succ, this]

theorem ptr_and_not_one (h2 : a % 2 = 0) (free : Bool) :
    ptr (a + free.toNat) &&& ~~~1 = ptr a := by
  apply BitVec.eq_of_getLsbD_eq
  intro i hi
  simp only [BitVec.getLsbD_and, BitVec.getLsbD_not, BitVec.getLsbD_ofNat, hi, decide_true,
    Bool.true_and]
  cases i with
  | zero => simp [Nat.testBit_zero]; omega
  | succ i =>
    have : (a + free.toNat) / 2 = a / 2 := by
      have := Bool.toNat_le free
      omega
    simp [Nat.testBit_succ, this]

theorem ptr_and_one (h2 : a % 2 = 0) (free : Bool) :
    (ptr (a + free.toNat) &&& 1 != 0) = free := by
  have h : ptr (a + free.toNat) &&& 1 = BitVec.ofNat 32 free.toNat := by
    apply BitVec.eq_of_getLsbD_eq
    intro i hi
    simp only [BitVec.getLsbD_and, BitVec.getLsbD_ofNat, hi, decide_true, Bool.true_and]
    cases i with
    | zero => cases free <;> simp [Nat.testBit_zero] <;> omega
    | succ i => cases free <;> simp [Nat.testBit_succ]
  rw [h]
  cases free <;> rfl

/-- The memories have the same words outside of `low` to `high`. -/
def Agree (m m' : Memory) (low high : Nat) : Prop :=
  ∀ x, x % 4 = 0 → x < 2 ^ 32 → x < low ∨ high ≤ x → m'.load (ptr x) = m.load (ptr x)

theorem Agree.refl (m : Memory) (low high : Nat) : Agree m m low high := fun _ _ _ _ => rfl

theorem Agree.store (h : Agree m m' low high) (h4 : a % 4 = 0) (hlow : low ≤ a)
    (hhigh : a < high) (hfit : high ≤ 2 ^ 32) (v : BitVec 32) :
    Agree m (m'.store (ptr a) v) low high := by
  intro x hx hlt hout
  rw [Memory.load_store_ne (ptr_aligned (by omega) h4) (ptr_aligned hlt hx)
    (ptr_ne (by omega) hlt (by omega))]
  exact h x hx hlt hout

theorem load_store_ptr_ne {b : Nat} (ha : a % 4 = 0) (hb : b % 4 = 0) (hfa : a < 2 ^ 32)
    (hfb : b < 2 ^ 32) (hne : a ≠ b) (m : Memory) (v : BitVec 32) :
    (m.store (ptr a) v).load (ptr b) = m.load (ptr b) :=
  Memory.load_store_ne (ptr_aligned hfa ha) (ptr_aligned hfb hb) (ptr_ne hfa hfb hne) m v

/-! ## Segments in the memory -/

/-- The links of the segments of an area that starts at `a`: to the right with the free bit, and
    from the next header back. -/
def Linked (m : Memory) : Nat → List (Segment Nat) → Prop
  | _, [] => True
  | a, s :: segs =>
    m.load (ptr (a + 4)) = ptr (a + s.size + s.owner.isNone.toNat) ∧
    m.load (ptr (a + s.size)) = ptr a ∧ Linked m (a + s.size) segs

theorem linked_append {l₁ l₂ : List (Segment Nat)} :
    Linked m a (l₁ ++ l₂) ↔ Linked m a l₁ ∧ Linked m (a + total l₁) l₂ := by
  induction l₁ generalizing a with
  | nil => simp [Linked]
  | cons s l₁ ih => simp [Linked, ih, and_assoc, Nat.add_assoc]

/-- The sizes of chunks: positive multiples of the size of a header. -/
def Sized (segs : List (Segment Nat)) : Prop := ∀ s ∈ segs, 0 < s.size ∧ 8 ∣ s.size

theorem Sized.total_mod (h : Sized segs) : total segs % 8 = 0 := by
  induction segs with
  | nil => rfl
  | cons s segs ih =>
    have hs := h s List.mem_cons_self
    have hrest := ih fun u hu => h u (List.mem_cons_of_mem _ hu)
    rw [total_cons]
    omega

theorem Sized.length_le (h : Sized segs) : 8 * segs.length ≤ total segs := by
  induction segs with
  | nil => exact Nat.zero_le _
  | cons s segs ih =>
    have hs := h s List.mem_cons_self
    have hrest := ih fun u hu => h u (List.mem_cons_of_mem _ hu)
    rw [List.length_cons, total_cons]
    omega

/-- The segments use words from their first right link to their last left link. -/
theorem Linked.congr (h : Linked m a segs) (hsized : Sized segs) (h4 : a % 4 = 0)
    (hfit : a + total segs + 4 ≤ 2 ^ 32)
    (hagree : ∀ x, x % 4 = 0 → a + 4 ≤ x → x < a + total segs + 4 →
      m'.load (ptr x) = m.load (ptr x)) : Linked m' a segs := by
  induction segs generalizing a with
  | nil => trivial
  | cons s segs ih =>
    obtain ⟨hright, hleft, hrest⟩ := h
    have hs := hsized s List.mem_cons_self
    rw [total_cons] at hfit hagree
    refine ⟨?_, ?_, ?_⟩
    · rw [hagree (a + 4) (by omega) (by omega) (by omega), hright]
    · rw [hagree (a + s.size) (by omega) (by omega) (by omega), hleft]
    · apply ih hrest (fun u hu => hsized u (List.mem_cons_of_mem _ hu)) (by omega) (by omega)
      intro x hx hlow hhigh
      exact hagree x hx (by omega) (by omega)

/-- The segments are the chunks of the arena, from `bot` to `top`. -/
structure Laid (A : Arena) (m : Memory) (segs : List (Segment Nat)) : Prop where
  sized : Sized segs
  length : total segs = 65528
  linked : Linked m A.base.toNat segs
  botLeft : m.load (ptr A.base.toNat) = null
  topRight : m.load (ptr (A.base.toNat + 65532)) = null

/-- A part of the arena is replaced by segments of the same length. -/
theorem Laid.edit (h : Laid A m (pre ++ (mid ++ post))) (ha : a = A.base.toNat + total pre)
    (hsized : Sized mid') (htotal : total mid' = total mid) (hlinked : Linked m' a mid')
    (hagree : Agree m m' (a + 4) (a + total mid + 4)) : Laid A m' (pre ++ (mid' ++ post)) := by
  subst ha
  have hpos := A.pos
  have h4 := A.aligned
  have hfits := A.fits
  obtain ⟨hall, hlength, hold, hbot, htop⟩ := h
  have hpre : Sized pre := fun u hu => hall u (List.mem_append_left _ hu)
  have hmid : Sized mid :=
    fun u hu => hall u (List.mem_append_right _ (List.mem_append_left _ hu))
  have hpost : Sized post :=
    fun u hu => hall u (List.mem_append_right _ (List.mem_append_right _ hu))
  have h8pre := hpre.total_mod
  have h8mid := hmid.total_mod
  rw [linked_append, linked_append] at hold
  rw [total_append, total_append] at hlength
  constructor
  · intro u hu
    rw [List.mem_append, List.mem_append] at hu
    obtain h | h | h := hu
    · exact hpre u h
    · exact hsized u h
    · exact hpost u h
  · rw [total_append, total_append, htotal, hlength]
  · rw [linked_append, linked_append, htotal]
    refine ⟨?_, hlinked, ?_⟩
    · -- the words of `pre` end where the edit begins
      apply hold.1.congr hpre h4 (by omega)
      intro x hx _ hhigh
      exact hagree x hx (by omega) (.inl (by omega))
    · -- the words of `post` begin where the edit ends
      apply hold.2.2.congr hpost (by omega) (by omega)
      intro x hx hlow hhigh
      exact hagree x hx (by omega) (.inr (by omega))
  · rw [hagree A.base.toNat h4 (by omega) (.inl (by omega)), hbot]
  · rw [hagree (A.base.toNat + 65532) (by omega) (by omega) (.inr (by omega)), htop]

/-! ## Reading and writing a header -/

section Header

variable {b : Nat} {f : Bool}

theorem setLeft_ptr (m : Memory) (a : Nat) (v : BitVec 32) :
    setLeft m (ptr a) v = m.store (ptr a) v := rfl

theorem setRight_ptr (m : Memory) (a : Nat) (v : BitVec 32) :
    setRight m (ptr a) v = m.store (ptr (a + 4)) v := by
  rw [setRight, ← ptr_add]
  rfl

theorem leftLink_ptr (m : Memory) (a : Nat) : leftLink m (ptr a) = m.load (ptr a) := rfl

theorem rightLink_ptr (m : Memory) (a : Nat) : rightLink m (ptr a) = m.load (ptr (a + 4)) := by
  rw [rightLink, ← ptr_add]
  rfl

theorem right_ptr (h : m.load (ptr (a + 4)) = ptr (b + f.toNat)) (h2 : b % 2 = 0) :
    right m (ptr a) = ptr b := by
  rw [right, rightLink_ptr, h, BitVec.and_comm, ptr_and_not_one h2]

theorem getFreebit_ptr (h : m.load (ptr (a + 4)) = ptr (b + f.toNat)) (h2 : b % 2 = 0) :
    getFreebit m (ptr a) = f := by
  rw [getFreebit, rightLink_ptr, h, ptr_and_one h2]

theorem chunkSize_ptr {size : Nat} (h : m.load (ptr (a + 4)) = ptr (a + size + f.toNat))
    (h2 : (a + size) % 2 = 0) : chunkSize m (ptr a) = BitVec.ofNat 32 size := by
  rw [chunkSize, right_ptr h h2, ← ptr_add]
  bv_omega

theorem clrFreebit_ptr (h : m.load (ptr (a + 4)) = ptr (b + f.toNat)) (h2 : b % 2 = 0) :
    clrFreebit m (ptr a) = m.store (ptr (a + 4)) (ptr b) := by
  rw [clrFreebit, rightLink_ptr, h, ptr_and_not_one h2, setRight_ptr]

theorem setFreebit_ptr (h : m.load (ptr (a + 4)) = ptr (b + f.toNat)) (h2 : b % 2 = 0) :
    setFreebit m (ptr a) = m.store (ptr (a + 4)) (ptr (b + 1)) := by
  rw [setFreebit, rightLink_ptr, h, ptr_or_one h2, setRight_ptr]

end Header

/-! ## The steps of the allocator -/

/-- Where a part of the arena is, and its links. -/
theorem Laid.part (h : Laid A m (pre ++ (mid ++ post))) (ha : a = A.base.toNat + total pre) :
    a % 4 = 0 ∧ 0 < a ∧ a + total mid ≤ A.base.toNat + 65528 ∧ Sized mid ∧ Linked m a mid := by
  subst ha
  have hpos := A.pos
  have h4 := A.aligned
  obtain ⟨hall, hlength, hlinked, -, -⟩ := h
  have hpre : Sized pre := fun u hu => hall u (List.mem_append_left _ hu)
  have hmid : Sized mid :=
    fun u hu => hall u (List.mem_append_right _ (List.mem_append_left _ hu))
  have h8 := hpre.total_mod
  rw [linked_append, linked_append] at hlinked
  rw [total_append, total_append] at hlength
  exact ⟨by omega, by omega, by omega, hmid, hlinked.2.1⟩

/-- The stores of a `split` that leaves a remainder, and of the busy bit after it. The new chunk at
    `q` may have no bytes at all, and is then the right neighbour at `b`. -/
theorem split_eq {size k q b : Nat} (hright : m.load (ptr (a + 4)) = ptr (a + size + true.toNat))
    (h4 : a % 4 = 0) (hsize : 8 ∣ size) (hk : 8 ∣ k) (hlt : k < size)
    (hfit : a + size + 8 ≤ 2 ^ 32) (hq : q = a + (size - k)) (hb : b = a + size) :
    (split m (ptr a) (BitVec.ofNat 32 k)).2 = ptr q ∧
    clrFreebit (split m (ptr a) (BitVec.ofNat 32 k)).1 (split m (ptr a) (BitVec.ofNat 32 k)).2 =
      ((((((m.store (ptr (a + 4)) (ptr b)).store (ptr q) (ptr a)).store (ptr (q + 4))
        (ptr b)).store (ptr (a + 4)) (ptr q)).store (ptr b) (ptr q)).store (ptr (a + 4))
        (ptr (q + 1))).store (ptr (q + 4)) (ptr b) := by
  have hchunk : chunkSize m (ptr a) = BitVec.ofNat 32 size :=
    chunkSize_ptr (f := true) hright (by omega)
  rw [← hb] at hright
  have hclr : clrFreebit m (ptr a) = m.store (ptr (a + 4)) (ptr b) :=
    clrFreebit_ptr (f := true) hright (by omega)
  have hchunk₁ : chunkSize (m.store (ptr (a + 4)) (ptr b)) (ptr a) = BitVec.ofNat 32 size := by
    apply chunkSize_ptr (f := false) _ (by omega)
    rw [Memory.load_store_self, hb]
    rfl
  have hptr : ptr a + BitVec.ofNat 32 size - BitVec.ofNat 32 k = ptr q := by
    rw [hq]
    bv_omega
  have hsplit : split m (ptr a) (BitVec.ofNat 32 k) =
      ((((((m.store (ptr (a + 4)) (ptr b)).store (ptr q) (ptr a)).store (ptr (q + 4))
        (ptr b)).store (ptr (a + 4)) (ptr q)).store (ptr b) (ptr q)).store (ptr (a + 4))
        (ptr (q + 1)), ptr q) := by
    have hcond : BitVec.ofNat 32 k < chunkSize m (ptr a) := by
      rw [hchunk]
      bv_omega
    rw [split, if_pos hcond]
    simp only [hclr, hchunk₁, hptr, rightLink_ptr, Memory.load_store_self, setLeft_ptr,
      setRight_ptr]
    rw [setFreebit_ptr (f := false) _ (show q % 2 = 0 by omega)]
    simp (disch := omega) only [Memory.load_store_self, load_store_ptr_ne]
    rfl
  rw [hsplit]
  refine ⟨rfl, ?_⟩
  rw [clrFreebit_ptr (b := b) (f := false) _ (by omega)]
  simp (disch := omega) only [Memory.load_store_self, load_store_ptr_ne]
  rfl

/-- The upper part of a free chunk is cut off and is busy. -/
theorem Laid.split (size : Nat) (h : Laid A m (pre ++ ([s] ++ post)))
    (ha : a = A.base.toNat + total pre) (hfree : s.owner = none) (hpos : 0 < size)
    (hunit : 8 ∣ size) (hfits : size ≤ s.size) (t : Nat) :
    (split m (ptr a) (BitVec.ofNat 32 size)).2 = ptr (a + (s.size - size)) ∧
    Laid A (clrFreebit (split m (ptr a) (BitVec.ofNat 32 size)).1
        (split m (ptr a) (BitVec.ofNat 32 size)).2)
      (pre ++ (s.grant size t ++ post)) := by
  have hend := A.fits
  obtain ⟨h4, hpos_a, hin, hsized, hright, hleft, -⟩ := h.part ha
  have hs := hsized s (List.mem_singleton_self s)
  simp only [total_cons, total_nil, Nat.add_zero] at hin
  rw [hfree] at hright
  by_cases hlt : size < s.size
  · obtain ⟨q, hq⟩ : ∃ q, q = a + (s.size - size) := ⟨_, rfl⟩
    obtain ⟨b, hb⟩ : ∃ b, b = a + s.size := ⟨_, rfl⟩
    obtain ⟨hptr, hstores⟩ := split_eq hright h4 hs.2 hunit hlt (by omega) hq hb
    rw [hstores]
    refine ⟨by rw [hptr, hq], ?_⟩
    rw [← hb] at hleft
    apply h.edit ha fun u hu => grant_sizes hs hpos hunit hu
    · rw [total_grant, total_cons, total_nil, Nat.add_zero]
    · rw [Segment.grant, if_pos hlt]
      have hqb : q + size = b := by omega
      refine ⟨?_, ?_, ?_, ?_, trivial⟩
      · simp (disch := omega) only [Memory.load_store_self, load_store_ptr_ne]
        rw [← hq]
        rfl
      · rw [← hq]
        simp (disch := omega) only [Memory.load_store_self, load_store_ptr_ne]
      · simp only [← hq]
        simp only [Memory.load_store_self, hqb]
        rfl
      · simp only [← hq, hqb]
        simp (disch := omega) only [Memory.load_store_self, load_store_ptr_ne]
    · simp only [total_cons, total_nil, Nat.add_zero, ← hb]
      iterate 7 apply Agree.store _ (by omega) (by omega) (by omega) (by omega)
      exact Agree.refl _ _ _
  · -- the chunk has the size that is needed, and is given as it is
    obtain rfl : size = s.size := by omega
    have hsplit : Tmalloc.split m (ptr a) (BitVec.ofNat 32 s.size) = (m, ptr a) := by
      have hsize : chunkSize m (ptr a) = BitVec.ofNat 32 s.size :=
        chunkSize_ptr (f := true) hright (by omega)
      rw [Tmalloc.split, hsize, if_neg (by bv_omega)]
    rw [hsplit, Nat.sub_self, Nat.add_zero,
      clrFreebit_ptr (b := a + s.size) (f := true) hright (by omega)]
    refine ⟨rfl, ?_⟩
    apply h.edit ha fun u hu => grant_sizes hs hpos hunit hu
    · rw [total_grant, total_cons, total_nil, Nat.add_zero]
    · rw [Segment.grant, if_neg hlt]
      refine ⟨Memory.load_store_self _ _ _, ?_, trivial⟩
      show (m.store (ptr (a + 4)) _).load (ptr (a + s.size)) = ptr a
      rw [load_store_ptr_ne (by omega) (by omega) (by omega) (by omega) (by omega), hleft]
    · simp only [total_cons, total_nil, Nat.add_zero]
      exact (Agree.refl _ _ _).store (by omega) (by omega) (by omega) (by omega) _

/-- A busy chunk whose left neighbour is free is joined with it. -/
theorem Laid.consolidateLeft (h : Laid A m (pre ++ ([s] ++ post)))
    (ha : a = A.base.toNat + total pre) (hbusy : s.owner.isSome) :
    ∃ s', (consolidateLeft m (ptr a)).2 = ptr (A.base.toNat + total (dropLastFree pre)) ∧
      s'.size = lastFree pre + s.size ∧
      Laid A (consolidateLeft m (ptr a)).1 (dropLastFree pre ++ ([s'] ++ post)) := by
  have hend := A.fits
  obtain ⟨pre', size, rfl, hdrop, hlast⟩ | ⟨hdrop, hlast, hright⟩ := dropLastFree_cases pre
  · -- the neighbour is the last segment of `pre`
    rw [hdrop, hlast]
    have hmid : Laid A m (pre' ++ ([⟨size, none⟩, s] ++ post)) := by simpa using h
    obtain ⟨p, hp⟩ : ∃ p, p = A.base.toNat + total pre' := ⟨_, rfl⟩
    obtain rfl : a = p + size := by
      rw [ha, hp, total_append, total_cons, total_nil, Nat.add_zero, Nat.add_assoc]
    obtain ⟨h4, hpos, hin, hsized, hfree, hback, hlink, hnext, -⟩ := hmid.part hp
    have hsize := hsized ⟨size, none⟩ List.mem_cons_self
    have hs := hsized s (List.mem_cons_of_mem _ (List.mem_singleton_self s))
    change 0 < size ∧ 8 ∣ size at hsize
    simp only [total_cons, total_nil, Nat.add_zero] at hin
    obtain ⟨b, hb⟩ : ∃ b, b = p + size + s.size := ⟨_, rfl⟩
    change m.load (ptr (p + 4)) = ptr (p + size + true.toNat) at hfree
    change m.load (ptr (p + size)) = ptr p at hback
    change m.load (ptr (p + size + 4)) = ptr (p + size + s.size + s.owner.isNone.toNat) at hlink
    rw [← hb, Option.isNone_eq_false_iff.2 hbusy] at hlink
    change m.load (ptr (p + size + 4)) = ptr b at hlink
    have hgoes : leftLink m (ptr (p + size)) ≠ null ∧
        getFreebit m (leftLink m (ptr (p + size))) = true := by
      rw [leftLink_ptr, hback]
      exact ⟨ptr_ne_null hpos (by omega), getFreebit_ptr hfree (by omega)⟩
    have heq : Tmalloc.consolidateLeft m (ptr (p + size)) =
        ((((m.store (ptr (p + 4)) (ptr (p + size))).store (ptr (p + 4)) (ptr b)).store (ptr b)
          (ptr p)).store (ptr (p + 4)) (ptr (b + 1)), ptr p) := by
      rw [Tmalloc.consolidateLeft, if_pos hgoes]
      simp only [leftLink_ptr, hback, clrFreebit_ptr hfree (show (p + size) % 2 = 0 by omega),
        rightLink_ptr, setRight_ptr]
      simp (disch := omega) only [load_store_ptr_ne, hlink, setLeft_ptr]
      rw [setFreebit_ptr (f := false) _ (show b % 2 = 0 by omega)]
      simp (disch := omega) only [Memory.load_store_self, load_store_ptr_ne]
      rfl
    refine ⟨⟨size + s.size, none⟩, ?_, rfl, ?_⟩
    · rw [heq, hp]
    · rw [heq]
      apply hmid.edit hp
      · intro u hu
        rw [List.mem_singleton.1 hu]
        exact ⟨Nat.add_pos_left hsize.1 _, Nat.dvd_add hsize.2 hs.2⟩
      · simp
      · refine ⟨?_, ?_, trivial⟩
        · show _ = ptr (p + (size + s.size) + 1)
          rw [Memory.load_store_self, hb, Nat.add_assoc p]
        · show Memory.load _ (ptr (p + (size + s.size))) = ptr p
          rw [← Nat.add_assoc p, ← hb]
          simp (disch := omega) only [Memory.load_store_self, load_store_ptr_ne]
      · simp only [total_cons, total_nil, Nat.add_zero, ← Nat.add_assoc p, ← hb]
        iterate 4 apply Agree.store _ (by omega) (by omega) (by omega) (by omega)
        exact Agree.refl _ _ _
  · -- the header on the left is busy, or there is none
    rw [hdrop, hlast, Nat.zero_add]
    have hstays : ¬ (leftLink m (ptr a) ≠ null ∧ getFreebit m (leftLink m (ptr a)) = true) := by
      cases List.eq_nil_or_concat pre with
      | inl hnil =>
        subst hnil
        rw [total_nil, Nat.add_zero] at ha
        rw [leftLink_ptr, ha, h.botLeft]
        exact fun hne => hne.1 rfl
      | inr hconcat =>
        obtain ⟨pre', u, rfl⟩ := hconcat
        rw [List.concat_eq_append] at h ha hright
        have hmid : Laid A m (pre' ++ ([u, s] ++ post)) := by simpa using h
        obtain ⟨h4, hpos, hin, hsized, hu, hback, -⟩ := hmid.part rfl
        have husize := hsized u List.mem_cons_self
        rw [total_append, total_cons, total_nil, Nat.add_zero, ← Nat.add_assoc] at ha
        have howner : u.owner.isSome := hright u (by simp)
        rw [Option.isNone_eq_false_iff.2 howner] at hu
        rw [leftLink_ptr, ha, hback, getFreebit_ptr hu (by omega)]
        exact fun hne => Bool.false_ne_true hne.2
    have heq : Tmalloc.consolidateLeft m (ptr a) = (m, ptr a) := by
      rw [Tmalloc.consolidateLeft, if_neg hstays]
    rw [heq, ha]
    exact ⟨s, rfl, rfl, h⟩

/-- Clearing the free bit of a busy chunk changes nothing. -/
theorem Laid.clrFreebit (h : Laid A m (pre ++ ([s] ++ post))) (ha : a = A.base.toNat + total pre)
    (hbusy : s.owner.isSome) : Laid A (clrFreebit m (ptr a)) (pre ++ ([s] ++ post)) := by
  have hend := A.fits
  obtain ⟨h4, -, hin, hsized, hright, hleft, -⟩ := h.part ha
  have hs := hsized s (List.mem_singleton_self s)
  simp only [total_cons, total_nil, Nat.add_zero] at hin
  rw [clrFreebit_ptr hright (by omega)]
  apply h.edit ha hsized rfl
  · refine ⟨?_, ?_, trivial⟩
    · rw [Memory.load_store_self, Option.isNone_eq_false_iff.2 hbusy]
      rfl
    · rw [load_store_ptr_ne (by omega) (by omega) (by omega) (by omega) (by omega), hleft]
  · simp only [total_cons, total_nil, Nat.add_zero]
    exact (Agree.refl _ _ _).store (by omega) (by omega) (by omega) (by omega) _

/-- A chunk whose right neighbour is free is joined with it, and is free. -/
theorem Laid.consolidateRight (h : Laid A m (pre ++ ([s] ++ post)))
    (ha : a = A.base.toNat + total pre) :
    Laid A (setFreebit (consolidateRight m (ptr a)) (ptr a))
      (pre ++ ([⟨s.size + headFree post, none⟩] ++ dropHeadFree post)) := by
  have hend := A.fits
  obtain ⟨post', size, rfl, hdrop, hhead⟩ | ⟨hdrop, hhead, hleft⟩ := dropHeadFree_cases post
  · -- the neighbour is the first segment of `post`
    rw [hdrop, hhead]
    have hmid : Laid A m (pre ++ ([s, ⟨size, none⟩] ++ post')) := by simpa using h
    obtain ⟨h4, hpos, hin, hsized, hlink, hback, hfree, hnext, -⟩ := hmid.part ha
    have hs := hsized s List.mem_cons_self
    have hsize := hsized ⟨size, none⟩ (List.mem_cons_of_mem _ (List.mem_singleton_self _))
    change 0 < size ∧ 8 ∣ size at hsize
    simp only [total_cons, total_nil, Nat.add_zero] at hin
    obtain ⟨c, hc⟩ : ∃ c, c = a + s.size := ⟨_, rfl⟩
    obtain ⟨b, hb⟩ : ∃ b, b = c + size := ⟨_, rfl⟩
    rw [← hc] at hlink hback hfree
    change m.load (ptr (c + 4)) = ptr (c + size + true.toNat) at hfree
    rw [← hb] at hfree
    have hq : right m (ptr a) = ptr c := right_ptr hlink (by omega)
    have hgoes : right m (ptr a) ≠ null ∧ getFreebit m (right m (ptr a)) = true := by
      rw [hq]
      exact ⟨ptr_ne_null (by omega) (by omega), getFreebit_ptr hfree (by omega)⟩
    have heq : setFreebit (Tmalloc.consolidateRight m (ptr a)) (ptr a) =
        ((((m.store (ptr (c + 4)) (ptr b)).store (ptr (a + 4)) (ptr b)).store (ptr b)
          (ptr a)).store (ptr (c + 4)) (ptr (b + 1))).store (ptr (a + 4)) (ptr (b + 1)) := by
      rw [Tmalloc.consolidateRight, if_pos hgoes]
      simp only [hq, clrFreebit_ptr hfree (show b % 2 = 0 by omega), rightLink_ptr, setRight_ptr,
        Memory.load_store_self]
      simp (disch := omega) only [load_store_ptr_ne, Memory.load_store_self, setLeft_ptr]
      have hset : ∀ {m : Memory} {x : Nat}, m.load (ptr (x + 4)) = ptr b →
          setFreebit m (ptr x) = m.store (ptr (x + 4)) (ptr (b + 1)) := by
        intro m x h
        exact setFreebit_ptr (f := false) h (by omega)
      rw [hset (x := c), hset]
      · simp (disch := omega) only [Memory.load_store_self, load_store_ptr_ne]
      · simp (disch := omega) only [Memory.load_store_self, load_store_ptr_ne]
    rw [heq]
    apply hmid.edit ha
    · intro u hu
      rw [List.mem_singleton.1 hu]
      exact ⟨Nat.add_pos_left hs.1 _, Nat.dvd_add hs.2 hsize.2⟩
    · simp
    · refine ⟨?_, ?_, trivial⟩
      · show _ = ptr (a + (s.size + size) + 1)
        rw [Memory.load_store_self, hb, hc, Nat.add_assoc a]
      · show Memory.load _ (ptr (a + (s.size + size))) = ptr a
        rw [← Nat.add_assoc a, ← hc, ← hb]
        simp (disch := omega) only [Memory.load_store_self, load_store_ptr_ne]
    · simp only [total_cons, total_nil, Nat.add_zero, ← Nat.add_assoc a, ← hc, ← hb]
      iterate 5 apply Agree.store _ (by omega) (by omega) (by omega) (by omega)
      exact Agree.refl _ _ _
  · -- the header on the right is busy, or is the top
    rw [hdrop, hhead, Nat.add_zero]
    obtain ⟨h4, -, hin, hsized, hlink, hback, -⟩ := h.part ha
    have hs := hsized s (List.mem_singleton_self s)
    simp only [total_cons, total_nil, Nat.add_zero] at hin
    have hq : right m (ptr a) = ptr (a + s.size) := right_ptr hlink (by omega)
    have hstays : ¬ (right m (ptr a) ≠ null ∧ getFreebit m (right m (ptr a)) = true) := by
      rw [hq]
      cases post with
      | nil =>
        have hlength := h.length
        have htop : m.load (ptr (a + s.size + 4)) = ptr (0 + false.toNat) := by
          rw [show a + s.size + 4 = A.base.toNat + 65532 by simp at hlength; omega]
          exact h.topRight
        rw [getFreebit_ptr htop rfl]
        exact fun hne => Bool.false_ne_true hne.2
      | cons v post =>
        have hmid : Laid A m (pre ++ ([s, v] ++ post)) := by simpa using h
        obtain ⟨-, -, -, hsized', -, -, hv, -⟩ := hmid.part ha
        have hvsize := hsized' v (List.mem_cons_of_mem _ (List.mem_singleton_self _))
        rw [Option.isNone_eq_false_iff.2 (hleft v rfl)] at hv
        rw [getFreebit_ptr hv (by omega)]
        exact fun hne => Bool.false_ne_true hne.2
    rw [Tmalloc.consolidateRight, if_neg hstays, setFreebit_ptr hlink (by omega)]
    apply h.edit ha
    · intro u hu
      rw [List.mem_singleton.1 hu]
      exact hs
    · rfl
    · refine ⟨Memory.load_store_self _ _ _, ?_, trivial⟩
      show (m.store (ptr (a + 4)) _).load (ptr (a + s.size)) = ptr a
      rw [load_store_ptr_ne (by omega) (by omega) (by omega) (by omega) (by omega), hback]
    · simp only [total_cons, total_nil, Nat.add_zero]
      exact (Agree.refl _ _ _).store (by omega) (by omega) (by omega) (by omega) _

/-- A chunk between `pre` and `post` is made free and joined with the free chunks beside it. -/
theorem Laid.free {st : State} (h : Laid A st.mem (pre ++ ([s] ++ post)))
    (ha : a = A.base.toNat + total pre) (hbusy : s.owner.isSome) :
    Laid A (tfree st (ptr (a + 8))).mem (release pre s post) := by
  have hend := A.fits
  obtain ⟨h4, hpos, hin, hsized, -⟩ := h.part ha
  have hs := hsized s (List.mem_singleton_self s)
  simp only [total_cons, total_nil, Nat.add_zero] at hin
  have hchunk : toChunk (ptr (a + 8)) = ptr a := by
    rw [toChunk, chunkBytes]
    bv_omega
  obtain ⟨s', hp, hsize, hleft⟩ := (h.clrFreebit ha hbusy).consolidateLeft ha hbusy
  have hright := hleft.consolidateRight rfl
  rw [tfree, if_neg (ptr_ne_null (by omega) (by omega))]
  simp only [hchunk, hp]
  rw [hsize] at hright
  exact hright

/-! ## The walk -/

theorem chunk_of_size (size : BitVec 32)
    (h : m.load (ptr (a + 4)) = ptr (a + s.size + s.owner.isNone.toNat))
    (h4 : (a + s.size) % 2 = 0) (hfit : s.size < 2 ^ 32) :
    (getFreebit m (ptr a) && decide (size ≤ chunkSize m (ptr a))) = true ↔
      s.owner = none ∧ size.toNat ≤ s.size := by
  rw [getFreebit_ptr h h4, chunkSize_ptr h h4, Bool.and_eq_true, decide_eq_true_eq,
    BitVec.le_def, BitVec.toNat_ofNat, Nat.mod_eq_of_lt hfit, Option.isNone_iff_eq_none]

/-- The walk from the chunk at `a` ends, at the first free chunk that is large enough or after
    the top. -/
theorem findChunk_segments (size : BitVec 32) {fuel : Nat} (hsized : Sized segs)
    (hlinked : Linked m a segs) (h4 : a % 4 = 0) (hpos : 0 < a) (hfit : a + total segs < 2 ^ 32)
    (htop : m.load (ptr (a + total segs + 4)) = null) (hfuel : segs.length + 2 ≤ fuel) :
    (findChunk m size fuel (ptr a) = some null ∧
      ∀ s ∈ segs, s.owner = none → s.size < size.toNat) ∨
    ∃ pre s post, segs = pre ++ ([s] ++ post) ∧ s.owner = none ∧ size.toNat ≤ s.size ∧
      (∀ u ∈ pre, u.owner = none → u.size < size.toNat) ∧
      findChunk m size fuel (ptr a) = some (ptr (a + total pre)) := by
  induction segs generalizing a fuel with
  | nil =>
    -- past the last segment stands the chunk at the top, whose right pointer is null; it takes two
    -- rounds to see that
    obtain ⟨fuel, rfl⟩ : ∃ n, fuel = n + 2 := ⟨fuel - 2, by simp at hfuel; omega⟩
    simp only [total_nil, Nat.add_zero] at hfit htop
    have htop' : m.load (ptr (a + 4)) = ptr (0 + false.toNat) := htop
    rw [findChunk, if_neg (ptr_ne_null hpos hfit), getFreebit_ptr htop' rfl,
      right_ptr htop' rfl]
    exact .inl ⟨rfl, fun _ h => by cases h⟩
  | cons s segs ih =>
    obtain ⟨fuel, rfl⟩ : ∃ n, fuel = n + 1 := ⟨fuel - 1, by simp at hfuel; omega⟩
    obtain ⟨hright, -, hrest⟩ := hlinked
    have hs := hsized s List.mem_cons_self
    rw [total_cons] at hfit htop
    rw [List.length_cons] at hfuel
    -- the test at a chunk says that its segment is free and large enough
    have hfound := chunk_of_size size hright (by omega) (by omega)
    rw [findChunk, if_neg (ptr_ne_null hpos (by omega))]
    by_cases hgood : s.owner = none ∧ size.toNat ≤ s.size
    · rw [if_pos (hfound.2 hgood)]
      exact .inr ⟨[], s, segs, rfl, hgood.1, hgood.2, fun u hu => absurd hu List.not_mem_nil, rfl⟩
    · have hsmall : s.owner = none → s.size < size.toNat :=
        fun hfree => Nat.lt_of_not_le fun hle => hgood ⟨hfree, hle⟩
      rw [if_neg (fun h => hgood (hfound.1 h)), right_ptr hright (by omega)]
      obtain ⟨hnull, hnone⟩ | ⟨pre, u, post, rfl, howner, hsize, hpre, hptr⟩ := ih
        (fun u hu => hsized u (List.mem_cons_of_mem _ hu)) hrest (by omega) (by omega) (by omega)
        (by rw [Nat.add_assoc a]; exact htop) (show segs.length + 2 ≤ fuel by omega)
      · refine .inl ⟨hnull, ?_⟩
        intro u hu hfree
        rw [List.mem_cons] at hu
        cases hu with
        | inl h => rw [h] at hfree ⊢; exact hsmall hfree
        | inr h => exact hnone u h hfree
      · refine .inr ⟨s :: pre, u, post, rfl, howner, hsize, ?_, ?_⟩
        · intro v hv hfree
          rw [List.mem_cons] at hv
          cases hv with
          | inl h => rw [h] at hfree ⊢; exact hsmall hfree
          | inr h => exact hpre v h hfree
        · rw [hptr, total_cons, Nat.add_assoc a]

end Tmalloc
