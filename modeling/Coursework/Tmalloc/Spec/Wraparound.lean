import Coursework.Tmalloc.Spec.HeapInvariant

/-!
# Requests near 2^32

`tmalloc` rounds a request up and adds the header, `tcalloc` multiplies, and neither looks whether
the result fits in 32 bits. A request of 2^32 - 15 bytes or more is taken for one of 8 bytes, the
header alone, or of no bytes at all, and then the chunk that is returned is the right neighbour of
the one it was to be cut from.

## Key results

- `sizeFor_wrapped`: what is left of a size that wraps
- `Represents.tmalloc_chunk`: every request gets NULL or a chunk of the rounded size
- `requests_fit_iff`: when a block has the bytes that were asked for
-/

namespace Tmalloc

open Heap

/-- The bytes of the chunk of a pointer after its header. -/
def payload (m : Memory) (vp : BitVec 32) : Nat := (chunkSize m (toChunk vp)).toNat - 8

/-- A pointer that `tmalloc` returns has the bytes that were asked for. -/
def TmallocFits (A : Arena) (fuel : Nat) (st : State) (nbytes : BitVec 32) : Prop :=
  ∀ st' vp, tmalloc A fuel st nbytes = some (st', vp) → vp ≠ null →
    nbytes.toNat ≤ payload st'.mem vp

/-- A pointer that `tcalloc` returns has the bytes of all elements. -/
def TcallocFits (A : Arena) (fuel : Nat) (st : State) (nelem elsize : BitVec 32) : Prop :=
  ∀ st' vp, tcalloc A fuel st nelem elsize = some (st', vp) → vp ≠ null →
    nelem.toNat * elsize.toNat ≤ payload st'.mem vp

/-- A call of `memcpy`, and the state that it is made in. -/
structure Copy where
  st : State
  dst : BitVec 32
  src : BitVec 32
  bytes : BitVec 32

/-- What `trealloc` copies, if it gets as far. -/
def reallocCopy (A : Arena) (fuel : Nat) (s : State) (vp newbytes : BitVec 32) : Option Copy :=
  if vp = null ∨ newbytes = 0 then none
  else
    match tmalloc A fuel s newbytes with
    | none => none
    | some (s, newp) =>
      if newp = null then none
      else
        let bytes := chunkSize s.mem (toChunk vp) - chunkBytes
        some ⟨s, newp, vp, if newbytes < bytes then newbytes else bytes⟩

/-- `trealloc` copies no more than its new chunk holds. -/
def TreallocFits (A : Arena) (fuel : Nat) (st : State) (vp newbytes : BitVec 32) : Prop :=
  ∀ c, reallocCopy A fuel st vp newbytes = some c → c.bytes.toNat ≤ payload c.st.mem c.dst

theorem trealloc_copy {A : Arena} {fuel : Nat} {s : State} {vp newbytes : BitVec 32} {c : Copy}
    (h : reallocCopy A fuel s vp newbytes = some c) :
    trealloc A fuel s vp newbytes =
      some (tfree { c.st with mem := c.st.mem.copy c.dst c.src c.bytes } c.src, c.dst) := by
  unfold reallocCopy at h
  split at h
  · cases h
  · next hgoes =>
    rw [not_or] at hgoes
    rw [trealloc, if_neg hgoes.1, if_pos hgoes.2]
    cases htmalloc : tmalloc A fuel s newbytes with
    | none => simp [htmalloc] at h
    | some r =>
      obtain ⟨s', newp⟩ := r
      simp only [htmalloc] at h ⊢
      by_cases hnull : newp = null
      · rw [if_pos hnull] at h
        cases h
      · rw [if_neg hnull] at h ⊢
        rw [← Option.some.inj h]

variable {A : Arena} {st : State} {m : Memory} {live : List Block} {a : Nat} {s : Segment Nat}
  {segs pre post : List (Segment Nat)} {nbytes : BitVec 32}

/-! ## Sizes -/

theorem sizeFor_dvd (nbytes : BitVec 32) : 8 ∣ (sizeFor nbytes).toNat := by
  rw [sizeFor, BitVec.toNat_mul, show chunkBytes.toNat = 8 from rfl]
  omega

/-- A size that wraps leaves the header or nothing. -/
theorem sizeFor_wrapped (h : 2 ^ 32 ≤ nbytes.toNat + 15) :
    (sizeFor nbytes).toNat = if nbytes.toNat + 7 < 2 ^ 32 then 0 else 8 := by
  have hlt := nbytes.isLt
  have hround : (nbytes + chunkBytes - 1).toNat = (nbytes.toNat + 7) % 2 ^ 32 := by
    rw [chunkBytes]
    bv_omega
  rw [sizeFor, BitVec.toNat_mul, BitVec.toNat_add, BitVec.toNat_udiv, hround]
  show 8 * (((nbytes.toNat + 7) % 2 ^ 32 / 8 + 1) % 2 ^ 32) % 2 ^ 32 = _
  split <;> omega

/-! ## The chunk of a request -/

/-- The words after a chunk of `k` bytes has been cut off and made busy, where `k` may be 0. -/
theorem Laid.split_words {k : Nat} (h : Laid A m (pre ++ s :: post))
    (ha : a = A.base.toNat + total pre) (hfree : s.owner = none) (hk : 8 ∣ k)
    (hle : k ≤ s.size) :
    (Tmalloc.split m (ptr a) (BitVec.ofNat 32 k)).2 = ptr (a + (s.size - k)) ∧
    (Tmalloc.clrFreebit (Tmalloc.split m (ptr a) (BitVec.ofNat 32 k)).1
      (Tmalloc.split m (ptr a) (BitVec.ofNat 32 k)).2).load (ptr (a + (s.size - k) + 4)) =
        ptr (a + s.size) ∧
    ∀ x, x % 4 = 0 → x < 2 ^ 32 → x ≠ a + 4 → x ≠ a + (s.size - k) → x ≠ a + (s.size - k) + 4 →
      x ≠ a + s.size →
      (Tmalloc.clrFreebit (Tmalloc.split m (ptr a) (BitVec.ofNat 32 k)).1
        (Tmalloc.split m (ptr a) (BitVec.ofNat 32 k)).2).load (ptr x) = m.load (ptr x) := by
  have hend := A.fits
  have hmid : Laid A m (pre ++ ([s] ++ post)) := h
  obtain ⟨h4, hpos, hin, hsized, hright, -, -⟩ := hmid.part ha
  have hs := hsized s (List.mem_singleton_self s)
  simp only [total_cons, total_nil, Nat.add_zero] at hin
  rw [hfree] at hright
  by_cases hlt : k < s.size
  · obtain ⟨q, hq⟩ : ∃ q, q = a + (s.size - k) := ⟨_, rfl⟩
    obtain ⟨b, hb⟩ : ∃ b, b = a + s.size := ⟨_, rfl⟩
    obtain ⟨hptr, hstores⟩ := split_eq hright h4 hs.2 hk hlt (by omega) hq hb
    rw [hstores, hptr, ← hq, ← hb]
    refine ⟨rfl, Memory.load_store_self _ _ _, ?_⟩
    intro x hx hfit hxa hxq hxq4 hxb
    simp (disch := omega) only [load_store_ptr_ne]
  · -- the whole chunk is taken
    obtain rfl : k = s.size := by omega
    have hsize : chunkSize m (ptr a) = BitVec.ofNat 32 s.size :=
      chunkSize_ptr (f := true) hright (by omega)
    have hsplit : Tmalloc.split m (ptr a) (BitVec.ofNat 32 s.size) = (m, ptr a) := by
      rw [Tmalloc.split, hsize, if_neg (by bv_omega)]
    rw [hsplit, Nat.sub_self, Nat.add_zero,
      clrFreebit_ptr (b := a + s.size) (f := true) hright (by omega)]
    refine ⟨rfl, Memory.load_store_self _ _ _, ?_⟩
    intro x hx hfit hxa _ _ _
    rw [load_store_ptr_ne (by omega) hx (by omega) hfit (by omega)]

/-- A chunk of this size is refused: no free segment has room for it, or it is empty and would lie
    so that the bytes after its header start at 0. -/
def Refused (base : Nat) (segs : List (Segment Nat)) (size : Nat) : Prop :=
  (∀ s ∈ segs, s.owner = none → s.size < size) ∨
    size = 0 ∧ firstFreeEnd base segs = some (2 ^ 32 - 8)

/-- A new chunk of `k` bytes at `q`: it is the end of the first free segment that is large enough,
    and the other busy chunks keep their sizes. -/
structure NewChunk (A : Arena) (segs : List (Segment Nat)) (m : Memory) (k q : Nat) : Prop where
  aligned : q % 4 = 0
  pos : 0 < q
  fits : q + 8 < 2 ^ 32
  room : q + k + 8 ≤ 2 ^ 32
  size : (chunkSize m (ptr q)).toNat = k
  empty : k = 0 → firstFreeEnd A.base.toNat segs = some q
  keeps : ∀ pre s post, segs = pre ++ s :: post → s.owner.isSome →
    (A.base.toNat + total pre ≠ q → (chunkSize m (ptr (A.base.toNat + total pre))).toNat = s.size) ∧
    (k ≠ 0 → A.base.toNat + total pre ≠ q)

theorem Laid.newChunk {k q : Nat} (h : Laid A m (pre ++ s :: post)) (hfree : s.owner = none)
    (hk : 8 ∣ k) (hle : k ≤ s.size) (hq : q = A.base.toNat + total pre + (s.size - k))
    (hempty : k = 0 → firstFreeEnd A.base.toNat (pre ++ s :: post) = some q)
    (htop : q + 8 < 2 ^ 32) :
    NewChunk A (pre ++ s :: post)
      (Tmalloc.clrFreebit (Tmalloc.split m (ptr (A.base.toNat + total pre)) (BitVec.ofNat 32 k)).1
        (Tmalloc.split m (ptr (A.base.toNat + total pre)) (BitVec.ofNat 32 k)).2) k q := by
  have hend := A.fits
  have hheader := h.header pre s post rfl
  have hin := hheader.fits
  have hspos := hheader.size
  have haligned := hheader.aligned
  have hpos := hheader.pos
  obtain ⟨-, hword, hkeeps⟩ := h.split_words rfl hfree hk hle
  rw [← hq] at hword hkeeps
  refine ⟨by omega, by omega, htop, by omega, ?_, hempty, ?_⟩
  · -- the right link of the new chunk is where the old one ended
    rw [show A.base.toNat + total pre + s.size = q + k by omega] at hword
    rw [chunkSize_ptr (f := false) hword (by omega), BitVec.toNat_ofNat,
      Nat.mod_eq_of_lt (by omega)]
  · intro pre' s' post' hsegs hbusy
    have hmid : Laid A m (pre' ++ ([s'] ++ post')) := hsegs ▸ h
    obtain ⟨h4', -, hin', hsized', hlink, -⟩ := hmid.part rfl
    have hs' := hsized' s' (List.mem_singleton_self s')
    simp only [total_cons, total_nil, Nat.add_zero] at hin'
    have hmod : total pre % 8 = 0 :=
      Sized.total_mod fun u hu => h.sized u (List.mem_append_left _ hu)
    have hmod' : total pre' % 8 = 0 :=
      Sized.total_mod fun u hu => hmid.sized u (List.mem_append_left _ hu)
    have hapart := segments_apart hsegs hfree hbusy
    refine ⟨?_, by omega⟩
    intro hne
    have hsame := hkeeps (A.base.toNat + total pre' + 4) (by omega) (by omega) (by omega)
      (by omega) (by omega) (by omega)
    rw [hlink] at hsame
    rw [chunkSize_ptr hsame (by omega), BitVec.toNat_ofNat, Nat.mod_eq_of_lt (by omega)]

/-- Every request gets NULL or a chunk of the rounded size. -/
theorem Represents.tmalloc_chunk (h : Represents A (Tmalloc.ready A st) live segs) {fuel : Nat}
    (hfuel : 8193 ≤ fuel) (nbytes : BitVec 32) :
    (Refused A.base.toNat segs (sizeFor nbytes).toNat ∧
      ∃ st', Tmalloc.tmalloc A fuel st nbytes = some (st', null)) ∨
    (¬ Refused A.base.toNat segs (sizeFor nbytes).toNat ∧
      ∃ st' q, Tmalloc.tmalloc A fuel st nbytes = some (st', ptr (q + 8)) ∧
        NewChunk A segs st'.mem (sizeFor nbytes).toNat q) := by
  have hend := A.fits
  obtain ⟨k, hk⟩ : ∃ k, k = (sizeFor nbytes).toNat := ⟨_, rfl⟩
  have hdvd : 8 ∣ k := hk ▸ sizeFor_dvd nbytes
  have hsize : sizeFor nbytes = BitVec.ofNat 32 k := by
    rw [hk, BitVec.ofNat_toNat, BitVec.setWidth_eq]
  obtain ⟨hnull, hnone⟩ | ⟨pre, s, post, rfl, howner, hfits, hfirst, hfound⟩ :=
    h.tmalloc_found hfuel nbytes
  · exact .inl ⟨.inl hnone, _, hnull⟩
  · rw [← hk] at hfits hfirst ⊢
    have hin := (h.laid.header pre s post rfl).fits
    obtain ⟨q, hq⟩ : ∃ q, q = A.base.toNat + total pre + (s.size - k) := ⟨_, rfl⟩
    have hptr := (h.laid.split_words rfl howner hdvd hfits).1
    have hvp : fromChunk (ptr q) = ptr (q + 8) := by
      rw [fromChunk, chunkBytes, ← ptr_add q 8]
      rfl
    rw [← hq, ← hsize] at hptr
    have hempty : k = 0 → firstFreeEnd A.base.toNat (pre ++ s :: post) = some q := by
      intro hzero
      have hbusy : ∀ u ∈ pre, u.owner ≠ none := by
        intro u hu hfree
        have := hfirst u hu hfree
        omega
      rw [firstFreeEnd_append hbusy howner, hq, hzero, Nat.sub_zero]
    rw [hptr, hvp] at hfound
    by_cases htop : q + 8 = 2 ^ 32
    · -- an empty chunk at the last address: the pointer to its bytes is NULL
      left
      rw [htop] at hfound
      refine ⟨.inr ⟨by omega, ?_⟩, _, hfound⟩
      rw [hempty (by omega), ← htop, Nat.add_sub_cancel]
    · right
      refine ⟨?_, _, q, hfound, ?_⟩
      · intro hrefused
        cases hrefused with
        | inl hsmall =>
          have := hsmall s (by simp) howner
          omega
        | inr hlast =>
          have := Option.some.inj ((hempty hlast.1).symm.trans hlast.2)
          omega
      · have hnew := h.laid.newChunk howner hdvd hfits hq hempty (by omega)
        rw [← hsize, hptr] at hnew
        exact hnew

/-! ## When the bytes are there -/

/-- The rounded size has room for the bytes of a product exactly when adding to it does not wrap. -/
theorem product_le_sizeFor {N : Nat} (hN : nbytes.toNat = N % 2 ^ 32) :
    N ≤ (sizeFor nbytes).toNat - 8 ↔ N + 15 < 2 ^ 32 := by
  have hlt := (sizeFor nbytes).isLt
  constructor
  · intro hle
    by_contra hwraps
    have hsame : nbytes.toNat = N := by omega
    have hsize := sizeFor_wrapped (show 2 ^ 32 ≤ nbytes.toNat + 15 by omega)
    split at hsize <;> omega
  · intro hfits
    have hsame : nbytes.toNat = N := by omega
    have hsize := sizeFor_toNat (show nbytes.toNat + 15 < 2 ^ 32 by omega)
    omega

theorem NewChunk.payload {k q : Nat} (h : NewChunk A segs m k q) :
    payload m (ptr (q + 8)) = k - 8 := by
  rw [Tmalloc.payload, toChunk_ptr, h.size]

theorem NewChunk.ne_null {k q : Nat} (h : NewChunk A segs m k q) : ptr (q + 8) ≠ null :=
  ptr_ne_null (Nat.succ_pos _) h.fits

theorem tmallocFits_iff (h : Represents A (ready A st) live segs) {fuel : Nat}
    (hfuel : 8193 ≤ fuel) (nbytes : BitVec 32) :
    TmallocFits A fuel st nbytes ↔
      nbytes.toNat + 15 < 2 ^ 32 ∨ Refused A.base.toNat segs (sizeFor nbytes).toNat := by
  have hsize := product_le_sizeFor (Nat.mod_eq_of_lt nbytes.isLt).symm
  obtain ⟨hrefused, st', htmalloc⟩ | ⟨hroom, st', q, htmalloc, hnew⟩ := h.tmalloc_chunk hfuel nbytes
  · refine ⟨fun _ => .inr hrefused, ?_⟩
    intro _ st'' vp heq hne
    rw [htmalloc] at heq
    cases heq
    exact absurd rfl hne
  · constructor
    · intro hfits
      have hle := hfits st' _ htmalloc hnew.ne_null
      rw [hnew.payload] at hle
      exact .inl (hsize.1 hle)
    · intro hcond st'' vp heq _
      rw [htmalloc] at heq
      cases heq
      rw [hnew.payload]
      exact hsize.2 (hcond.resolve_right hroom)

/-- `memset` from behind a header leaves the header, unless it goes round all addresses. -/
theorem payload_fill {q : Nat} {n : BitVec 32} (h4 : q % 4 = 0) (hfit : q + 8 < 2 ^ 32)
    (hn : n.toNat + 8 ≤ 2 ^ 32) (byte : BitVec 8) :
    payload (m.fill (ptr (q + 8)) byte n) (ptr (q + 8)) = payload m (ptr (q + 8)) := by
  have hload : (m.fill (ptr (q + 8)) byte n).load (ptr (q + 4)) = m.load (ptr (q + 4)) := by
    apply Memory.load_congr (ptr_aligned (by omega) (by omega))
    intro x hlow hhigh
    have hout : ¬ x - ptr (q + 8) < n := by bv_omega
    exact if_neg hout
  rw [payload, payload, toChunk_ptr, chunkSize, chunkSize, right, right, rightLink_ptr,
    rightLink_ptr, hload]

theorem payload_lt (m : Memory) (vp : BitVec 32) : payload m vp + 8 < 2 ^ 32 := by
  have := (chunkSize m (toChunk vp)).isLt
  rw [payload]
  omega

theorem tcallocFits_iff (h : Represents A (ready A st) live segs) {fuel : Nat}
    (hfuel : 8193 ≤ fuel) (nelem elsize : BitVec 32) :
    TcallocFits A fuel st nelem elsize ↔ nelem.toNat * elsize.toNat + 15 < 2 ^ 32 ∨
      Refused A.base.toNat segs (sizeFor (nelem * elsize)).toNat := by
  have hproduct : (nelem * elsize).toNat = nelem.toNat * elsize.toNat % 2 ^ 32 :=
    BitVec.toNat_mul nelem elsize
  have hsize := product_le_sizeFor hproduct
  obtain ⟨hrefused, st', htmalloc⟩ | ⟨hroom, st', q, htmalloc, hnew⟩ :=
    h.tmalloc_chunk hfuel (nelem * elsize)
  · refine ⟨fun _ => .inr hrefused, ?_⟩
    intro _ st'' vp heq hne
    simp only [tcalloc, htmalloc, if_true] at heq
    cases heq
    exact absurd rfl hne
  · have htcalloc : tcalloc A fuel st nelem elsize =
        some ({ st' with mem := st'.mem.fill (ptr (q + 8)) 0 (nelem * elsize) }, ptr (q + 8)) := by
      simp only [tcalloc, htmalloc, if_neg hnew.ne_null]
    have hpayload : nelem.toNat * elsize.toNat ≤
        payload (st'.mem.fill (ptr (q + 8)) 0 (nelem * elsize)) (ptr (q + 8)) ↔
          nelem.toNat * elsize.toNat + 15 < 2 ^ 32 := by
      by_cases hn : (nelem * elsize).toNat + 8 ≤ 2 ^ 32
      · rw [payload_fill hnew.aligned hnew.fits hn, hnew.payload, hsize]
      · -- no chunk has that many bytes, whatever `memset` does to its header
        have hlt := payload_lt (st'.mem.fill (ptr (q + 8)) 0 (nelem * elsize)) (ptr (q + 8))
        have hmod := Nat.mod_le (nelem.toNat * elsize.toNat) (2 ^ 32)
        omega
    constructor
    · intro hfits
      have hle := hfits _ _ htcalloc hnew.ne_null
      left
      exact hpayload.1 hle
    · intro hcond st'' vp heq _
      rw [htcalloc] at heq
      cases heq
      exact hpayload.2 (hcond.resolve_right hroom)

/-- What `trealloc` copies when it has a new chunk. -/
theorem reallocCopy_new {fuel : Nat} {st' : State} {vp newp newbytes : BitVec 32}
    (hvp : vp ≠ null) (hpos : newbytes ≠ 0)
    (htmalloc : tmalloc A fuel st newbytes = some (st', newp)) (hnew : newp ≠ null) :
    ∃ c, reallocCopy A fuel st vp newbytes = some c ∧ c.st = st' ∧ c.dst = newp ∧
      c.bytes.toNat = min newbytes.toNat (chunkSize st'.mem (toChunk vp) - 8).toNat := by
  have hgoes : ¬ (vp = null ∨ newbytes = 0) := not_or.2 ⟨hvp, hpos⟩
  have hcopy : reallocCopy A fuel st vp newbytes = some ⟨st', newp, vp,
      if newbytes < chunkSize st'.mem (toChunk vp) - 8 then newbytes
      else chunkSize st'.mem (toChunk vp) - 8⟩ := by
    simp only [reallocCopy, if_neg hgoes, htmalloc, if_neg hnew]
    rfl
  refine ⟨_, hcopy, rfl, rfl, ?_⟩
  split
  · next hlt => exact (Nat.min_eq_left (Nat.le_of_lt (BitVec.lt_def.1 hlt))).symm
  · next hge => exact (Nat.min_eq_right (BitVec.le_def.1 (BitVec.not_lt.1 hge))).symm

/-- An old chunk has nothing to copy after the new chunk has been made when it is a header alone,
    unless an empty new chunk has taken its place. -/
theorem NewChunk.nothing_left {k q : Nat} (h : NewChunk A segs m k q)
    (hsegs : segs = pre ++ s :: post) (hbusy : s.owner.isSome) (hpos : 8 ≤ s.size)
    (hfit : s.size < 2 ^ 32) :
    (chunkSize m (ptr (A.base.toNat + total pre)) - 8).toNat = 0 ↔
      s.size = 8 ∧ (k ≠ 0 ∨ firstFreeEnd A.base.toNat segs ≠ some (A.base.toNat + total pre)) := by
  obtain ⟨hsame, hapart⟩ := h.keeps pre s post hsegs hbusy
  by_cases heq : A.base.toNat + total pre = q
  · -- the new chunk has been put where the old one starts, over its header
    have hk : k = 0 := Decidable.byContradiction fun hne => hapart hne heq
    have hsize : (chunkSize m (ptr q)).toNat = 0 := h.size.trans hk
    rw [heq, h.empty hk]
    constructor
    · intro hnothing
      have hround : (chunkSize m (ptr q) - 8).toNat = 2 ^ 32 - 8 := by bv_omega
      omega
    · intro hcond
      cases hcond.2 with
      | inl hne => exact absurd hk hne
      | inr hother => exact absurd rfl hother
  · -- the header of the old chunk is as it was
    have hsub : (chunkSize m (ptr (A.base.toNat + total pre)) - 8).toNat = s.size - 8 := by
      have hold := hsame heq
      bv_omega
    rw [hsub]
    constructor
    · intro hnothing
      refine ⟨by omega, ?_⟩
      by_cases hk : k = 0
      · right
        rw [h.empty hk]
        exact fun h => heq (Option.some.inj h).symm
      · exact .inl hk
    · intro hcond
      omega

/-- A request that wraps gets no payload, so nothing may be copied. The old chunk must have nothing
    after its header, and an empty chunk must not be put where it starts. -/
theorem treallocFits_iff (h : Represents A (ready A st) live segs) {fuel : Nat}
    (hfuel : 8193 ≤ fuel) {vp : BitVec 32} (hvp : vp = null ∨ ∃ b ∈ live, b.vp = vp)
    (newbytes : BitVec 32) :
    TreallocFits A fuel st vp newbytes ↔
      vp = null ∨ newbytes = 0 ∨ newbytes.toNat + 15 < 2 ^ 32 ∨
      Refused A.base.toNat segs (sizeFor newbytes).toNat ∨
      (chunkSize (ready A st).mem (toChunk vp)).toNat = 8 ∧
        (sizeFor newbytes ≠ 0 ∨
          firstFreeEnd A.base.toNat segs ≠ some (toChunk vp).toNat) := by
  by_cases hstops : vp = null ∨ newbytes = 0
  · -- nothing is copied
    have hnone : reallocCopy A fuel st vp newbytes = none := if_pos hstops
    constructor
    · intro _
      exact hstops.imp_right .inl
    · intro _ c hc
      rw [hnone] at hc
      cases hc
  · obtain ⟨hnull, hzero⟩ := not_or.1 hstops
    rw [or_iff_right hnull, or_iff_right hzero]
    obtain ⟨hrefused, st', htmalloc⟩ | ⟨hroom, st', q, htmalloc, hnew⟩ :=
      h.tmalloc_chunk hfuel newbytes
    · have hnone : reallocCopy A fuel st vp newbytes = none := by
        simp only [reallocCopy, if_neg hstops, htmalloc, if_true]
      constructor
      · intro _
        exact .inr (.inl hrefused)
      · intro _ c hc
        rw [hnone] at hc
        cases hc
    · rw [or_iff_right hroom]
      obtain ⟨c, hcopy, hst, hdst, hbytes⟩ := reallocCopy_new hnull hzero htmalloc hnew.ne_null
      have hfits : TreallocFits A fuel st vp newbytes ↔
          min newbytes.toNat (chunkSize st'.mem (toChunk vp) - 8).toNat ≤
            (sizeFor newbytes).toNat - 8 := by
        rw [← hbytes, ← hnew.payload, ← hst, ← hdst]
        constructor
        · intro hall
          exact hall c hcopy
        · intro hle c' hc'
          exact Option.some.inj (hcopy.symm.trans hc') ▸ hle
      have hsize := product_le_sizeFor (Nat.mod_eq_of_lt newbytes.isLt).symm
      by_cases hwraps : newbytes.toNat + 15 < 2 ^ 32
      · refine ⟨fun _ => .inl hwraps, fun _ => ?_⟩
        rw [hfits]
        exact Nat.le_trans (Nat.min_le_left _ _) (hsize.2 hwraps)
      · rw [or_iff_right hwraps, hfits]
        obtain ⟨b, hb, rfl⟩ := hvp.resolve_left hnull
        obtain ⟨pre, s, post, hsegs, howner, hat⟩ := h.segment hb
        have hheader := (hsegs ▸ h.laid).header pre s post rfl
        have hin := hheader.fits
        have hend := A.fits
        have hspos := hheader.size
        have hnothing := hnew.nothing_left hsegs (by rw [howner]; rfl) (by omega) (by omega)
        have hsizes := sizeFor_wrapped (Nat.le_of_not_lt hwraps)
        have hbpos : newbytes.toNat ≠ 0 := fun heq => hzero (BitVec.eq_of_toNat_eq heq)
        have hk : sizeFor newbytes ≠ 0 ↔ (sizeFor newbytes).toNat ≠ 0 :=
          not_congr ⟨fun h => congrArg BitVec.toNat h, fun h => BitVec.eq_of_toNat_eq h⟩
        rw [hat, toChunk_ptr, hheader.chunkSize, ptr_toNat (by omega), hk, ← hnothing]
        -- the new chunk has at most its header
        have hpayload : (sizeFor newbytes).toNat - 8 = 0 := by split at hsizes <;> omega
        rw [hpayload]
        omega

/-- On a heap in order, a request gets the bytes it asks for exactly when it can be padded and given
    a header without going past 32 bits, or gets NULL. A `trealloc` copies no more than its new
    chunk holds also when its old chunk is a header alone and an empty new chunk does not take its
    place. -/
theorem requests_fit_iff (h : Represents A (ready A st) live segs) {fuel : Nat}
    (hfuel : 8193 ≤ fuel) :
    (∀ nbytes, TmallocFits A fuel st nbytes ↔
      nbytes.toNat + 15 < 2 ^ 32 ∨ Refused A.base.toNat segs (sizeFor nbytes).toNat) ∧
    (∀ nelem elsize, TcallocFits A fuel st nelem elsize ↔
      nelem.toNat * elsize.toNat + 15 < 2 ^ 32 ∨
        Refused A.base.toNat segs (sizeFor (nelem * elsize)).toNat) ∧
    ∀ vp newbytes, (vp = null ∨ ∃ b ∈ live, b.vp = vp) → (TreallocFits A fuel st vp newbytes ↔
      vp = null ∨ newbytes = 0 ∨ newbytes.toNat + 15 < 2 ^ 32 ∨
      Refused A.base.toNat segs (sizeFor newbytes).toNat ∨
      (chunkSize (ready A st).mem (toChunk vp)).toNat = 8 ∧
        (sizeFor newbytes ≠ 0 ∨ firstFreeEnd A.base.toNat segs ≠ some (toChunk vp).toNat)) := by
  refine ⟨tmallocFits_iff h hfuel, tcallocFits_iff h hfuel, ?_⟩
  intro vp newbytes hvp
  exact treallocFits_iff h hfuel hvp newbytes

/-- The heap after a request for 24 bytes. -/
theorem run_oneBlock : ∃ s segs, run page 8193 (start fun _ => 0) [.tmalloc 24] = some s ∧
    Represents page (ready page s.st) [⟨69600, 24⟩] segs := by
  have hvalid : ValidRun page 8193 (start fun _ => 0) [.tmalloc 24] :=
    ⟨show (24 : BitVec 32).toNat + 15 < 2 ^ 32 by decide, fun _ _ => trivial⟩
  obtain ⟨s, hrun, hgood, -⟩ := Good.run (Nat.le_refl 8193) (good_start page fun _ => 0) hvalid
  have hlive : (run page 8193 (start fun _ => 0) [.tmalloc 24]).map Session.live =
      some [⟨69600, 24⟩] := by decide +kernel
  rw [hrun] at hlive
  obtain ⟨⟨segs, hrep⟩, -⟩ := hgood
  exact ⟨s, segs, hrun, Option.some.inj hlive ▸ hrep⟩

/-- On a heap with one live block: the requests, and what is asked for that block. -/
theorem requests_fit_iff_page : ∃ s segs,
    run page 8193 (start fun _ => 0) [.tmalloc 24] = some s ∧
    Represents page (ready page s.st) [⟨69600, 24⟩] segs ∧
    (∀ nbytes, TmallocFits page 8193 s.st nbytes ↔
      nbytes.toNat + 15 < 2 ^ 32 ∨ Refused page.base.toNat segs (sizeFor nbytes).toNat) ∧
    (∀ nelem elsize, TcallocFits page 8193 s.st nelem elsize ↔
      nelem.toNat * elsize.toNat + 15 < 2 ^ 32 ∨
        Refused page.base.toNat segs (sizeFor (nelem * elsize)).toNat) ∧
    ∀ newbytes, TreallocFits page 8193 s.st 69600 newbytes ↔
      (69600 : BitVec 32) = null ∨ newbytes = 0 ∨ newbytes.toNat + 15 < 2 ^ 32 ∨
      Refused page.base.toNat segs (sizeFor newbytes).toNat ∨
      (chunkSize (ready page s.st).mem (toChunk 69600)).toNat = 8 ∧
        (sizeFor newbytes ≠ 0 ∨
          firstFreeEnd page.base.toNat segs ≠ some (toChunk 69600).toNat) := by
  obtain ⟨s, segs, hrun, hrep⟩ := run_oneBlock
  have hiff := requests_fit_iff hrep (Nat.le_refl 8193)
  exact ⟨s, segs, hrun, hrep, hiff.1, hiff.2.1, fun newbytes =>
    hiff.2.2 69600 newbytes (.inr ⟨_, List.mem_cons_self, rfl⟩)⟩

/-- The fresh heap gives a pointer for 2^32 - 7 bytes, and there are no bytes after its header; and
    one for 2^31 + 1 elements of two bytes. -/
theorem not_fits_page : ¬ TmallocFits page 8193 (start fun _ => 0).st 0xFFFFFFF9 ∧
    ¬ TcallocFits page 8193 (start fun _ => 0).st 0x80000001 2 := by
  have hrep : Represents page (ready page (start fun _ => 0).st) [] [⟨65528, none⟩] :=
    represents_init page _
  have hroom : ∀ k, 0 < k ∧ k ≤ 65528 → ¬ Refused page.base.toNat [⟨65528, none⟩] k := by
    intro k hk hrefused
    cases hrefused with
    | inl hsmall =>
      have : 65528 < k := hsmall _ List.mem_cons_self rfl
      omega
    | inr hempty => omega
  rw [tmallocFits_iff hrep (Nat.le_refl 8193), tcallocFits_iff hrep (Nat.le_refl 8193)]
  constructor
  · exact not_or.2 ⟨by decide, hroom _ (by decide)⟩
  · exact not_or.2 ⟨by decide, hroom _ (by decide)⟩

end Tmalloc
