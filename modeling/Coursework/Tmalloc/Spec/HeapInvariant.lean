import Coursework.Tmalloc.Spec.Layout

/-!
# The heap invariant of `tmalloc`

Callers allocate, free, reallocate and write inside of their blocks, in any order. After every
call the chunks tile the arena, and the busy ones are the blocks that have been handed out.

## Key results

- `Good.step`: every valid call returns and keeps the invariant
- `run_heapOk`: the invariant after every run, and when `tmalloc` returns NULL
-/

namespace Tmalloc

open Heap

/-! ## Callers -/

/-- A block that has been handed out, with the bytes that were asked for. -/
structure Block where
  vp : BitVec 32
  nbytes : Nat
  deriving DecidableEq

/-- The allocator and the blocks that its callers have. -/
structure Session where
  st : State
  live : List Block

inductive Call where
  | tmalloc (nbytes : BitVec 32)
  | tfree (vp : BitVec 32)
  | trealloc (vp newbytes : BitVec 32)
  | tcalloc (nelem elsize : BitVec 32)
  /-- A caller writes a byte. -/
  | write (addr : BitVec 32) (byte : BitVec 8)
  deriving DecidableEq

/-- A returned pointer is a new block unless it is NULL. -/
def handOut (live : List Block) (vp : BitVec 32) (nbytes : Nat) : List Block :=
  if vp = null then live else ⟨vp, nbytes⟩ :: live

def handBack (live : List Block) (vp : BitVec 32) : List Block :=
  live.filter fun b => b.vp ≠ vp

/-- A call, and what the callers have after it; `none` if the call does not return. A `trealloc`
    that fails leaves the old block to its owner. -/
def step (A : Arena) (fuel : Nat) (s : Session) : Call → Option Session
  | .tmalloc nbytes =>
    match tmalloc A fuel s.st nbytes with
    | none => none
    | some (st, vp) => some ⟨st, handOut s.live vp nbytes.toNat⟩
  | .tfree vp => some ⟨tfree s.st vp, handBack s.live vp⟩
  | .trealloc vp newbytes =>
    match trealloc A fuel s.st vp newbytes with
    | none => none
    | some (st, newp) =>
      some ⟨st, handOut (if newbytes ≠ 0 ∧ newp = null then s.live else handBack s.live vp)
        newp newbytes.toNat⟩
  | .tcalloc nelem elsize =>
    match tcalloc A fuel s.st nelem elsize with
    | none => none
    | some (st, vp) => some ⟨st, handOut s.live vp (nelem.toNat * elsize.toNat)⟩
  | .write addr byte => some ⟨{ s.st with mem := s.st.mem.setByte addr byte }, s.live⟩

/-- The chunk of a block reaches to here. -/
def Block.finish (m : Memory) (b : Block) : Nat :=
  (toChunk b.vp).toNat + (chunkSize m (toChunk b.vp)).toNat

/-- What callers may do: requests are no larger than the arena, only their own blocks are freed or
    reallocated, and they write inside of their own blocks. -/
def Legal (s : Session) : Call → Prop
  | .tmalloc nbytes => nbytes.toNat ≤ 65536
  | .tfree vp => vp = null ∨ ∃ b ∈ s.live, b.vp = vp
  | .trealloc vp newbytes => newbytes.toNat ≤ 65536 ∧ (vp = null ∨ ∃ b ∈ s.live, b.vp = vp)
  | .tcalloc nelem elsize => nelem.toNat * elsize.toNat ≤ 65536
  | .write addr _ => ∃ b ∈ s.live, b.vp.toNat ≤ addr.toNat ∧ addr.toNat < b.finish s.st.mem

/-- The weakest condition on the requests: rounding up does not wrap. -/
def Valid (s : Session) : Call → Prop
  | .tmalloc nbytes => nbytes.toNat + 15 < 2 ^ 32
  | .tfree vp => vp = null ∨ ∃ b ∈ s.live, b.vp = vp
  | .trealloc vp newbytes =>
    newbytes.toNat + 15 < 2 ^ 32 ∧ (vp = null ∨ ∃ b ∈ s.live, b.vp = vp)
  | .tcalloc nelem elsize => nelem.toNat * elsize.toNat + 15 < 2 ^ 32
  | .write addr _ => ∃ b ∈ s.live, b.vp.toNat ≤ addr.toNat ∧ addr.toNat < b.finish s.st.mem

theorem Legal.valid {s : Session} {c : Call} (h : Legal s c) : Valid s c := by
  cases c with
  | tmalloc nbytes =>
    have hle : nbytes.toNat ≤ 65536 := h
    show nbytes.toNat + 15 < 2 ^ 32
    omega
  | tfree vp => exact h
  | trealloc vp newbytes =>
    have hle : newbytes.toNat ≤ 65536 := h.1
    exact ⟨by omega, h.2⟩
  | tcalloc nelem elsize =>
    have hle : nelem.toNat * elsize.toNat ≤ 65536 := h
    show nelem.toNat * elsize.toNat + 15 < 2 ^ 32
    omega
  | write addr byte => exact h

instance (s : Session) (c : Call) : Decidable (Legal s c) := by
  cases c <;> unfold Legal <;> infer_instance

def run (A : Arena) (fuel : Nat) : Session → List Call → Option Session
  | s, [] => some s
  | s, c :: calls =>
    match step A fuel s c with
    | none => none
    | some s' => run A fuel s' calls

/-- Every call of the run is legal when it is made. -/
def LegalRun (A : Arena) (fuel : Nat) : Session → List Call → Prop
  | _, [] => True
  | s, c :: calls => Legal s c ∧ ∀ s', step A fuel s c = some s' → LegalRun A fuel s' calls

/-- Every call of the run is valid when it is made. -/
def ValidRun (A : Arena) (fuel : Nat) : Session → List Call → Prop
  | _, [] => True
  | s, c :: calls => Valid s c ∧ ∀ s', step A fuel s c = some s' → ValidRun A fuel s' calls

theorem LegalRun.valid {A : Arena} {fuel : Nat} {s : Session} {calls : List Call}
    (h : LegalRun A fuel s calls) : ValidRun A fuel s calls := by
  induction calls generalizing s with
  | nil => trivial
  | cons c calls ih => exact ⟨h.1.valid, fun s' hs' => ih (h.2 s' hs')⟩

instance decidableLegalRun (A : Arena) (fuel : Nat) :
    (s : Session) → (calls : List Call) → Decidable (LegalRun A fuel s calls)
  | _, [] => isTrue trivial
  | s, c :: calls =>
    have : DecidablePred fun s' => LegalRun A fuel s' calls :=
      fun s' => decidableLegalRun A fuel s' calls
    match hstep : step A fuel s c with
    | none => decidable_of_iff (Legal s c) (by simp [LegalRun, hstep])
    | some s' => decidable_of_iff (Legal s c ∧ LegalRun A fuel s' calls)
        (by simp [LegalRun, hstep])

/-- Before the first call: the static pointers are NULL. -/
def start (mem : Memory) : Session := ⟨⟨mem, null, null⟩, []⟩

/-! ## The invariant -/

/-- The heap is in order: `chunks` are the chunks from `bot` to `top`. -/
structure HeapOk (A : Arena) (st : State) (live : List Block) (chunks : List (BitVec 32)) :
    Prop where
  bot : chunks.head? = some st.bot ∧ st.bot = A.base
  top : chunks.getLast? = some st.top ∧ st.top = A.base + chunkBytes * (arenaChunks - 1)
  /-- A chunk ends where the next one starts; its size is a positive multiple of 8. -/
  tiles : chunks.IsChain fun c d => 0 < (chunkSize st.mem c).toNat ∧
    8 ∣ (chunkSize st.mem c).toNat ∧ c.toNat + (chunkSize st.mem c).toNat = d.toNat
  links : chunks.IsChain fun c d => right st.mem c = d ∧ leftLink st.mem d = c
  ends : leftLink st.mem st.bot = null ∧ right st.mem st.top = null
  coalesced : chunks.IsChain fun c d =>
    ¬ (getFreebit st.mem c = true ∧ getFreebit st.mem d = true)
  /-- The busy chunks are the blocks that have been handed out. -/
  busy : ∀ c, (c ∈ chunks ∧ c ≠ st.top ∧ getFreebit st.mem c = false) ↔
    ∃ b ∈ live, toChunk b.vp = c
  /-- A block has at least the bytes that were asked for. -/
  offers : ∀ b ∈ live, b.vp.toNat + b.nbytes ≤ b.finish st.mem
  apart : live.Pairwise fun b c => b.finish st.mem ≤ (toChunk c.vp).toNat ∨
    c.finish st.mem ≤ (toChunk b.vp).toNat

/-- A block of an area, as callers have it. -/
def blockAt (b : Nat × Nat) : Block := ⟨ptr (b.1 + 8), b.2⟩

/-- The state has its chunks laid as these segments, and its busy segments are the live blocks. -/
structure Represents (A : Arena) (st : State) (live : List Block) (segs : List (Segment Nat)) :
    Prop where
  bot : st.bot = A.base
  top : st.top = A.base + chunkBytes * (arenaChunks - 1)
  laid : Laid A st.mem segs
  coalesced : Coalesced segs
  offers : ∀ s ∈ segs, ∀ n ∈ s.owner, n + 8 ≤ s.size
  live : live.Perm ((blocks A.base.toNat segs).map blockAt)

variable {A : Arena} {st : State} {m : Memory} {live : List Block} {a : Nat} {s : Segment Nat}
  {segs pre post : List (Segment Nat)}

/-! ## What the code reads in a laid arena -/

/-- The header of a segment. -/
structure Header (A : Arena) (m : Memory) (a : Nat) (s : Segment Nat) : Prop where
  pos : 0 < a
  aligned : a % 4 = 0
  size : 0 < s.size ∧ 8 ∣ s.size
  fits : a + s.size ≤ A.base.toNat + 65528
  right : right m (ptr a) = ptr (a + s.size)
  freebit : getFreebit m (ptr a) = s.owner.isNone
  chunkSize : (chunkSize m (ptr a)).toNat = s.size
  back : leftLink m (ptr (a + s.size)) = ptr a

theorem Laid.header (pre : List (Segment Nat)) (s : Segment Nat) (post : List (Segment Nat))
    (h : Laid A m (pre ++ s :: post)) (ha : a = A.base.toNat + total pre) : Header A m a s := by
  have hend := A.fits
  have hmid : Laid A m (pre ++ ([s] ++ post)) := h
  obtain ⟨h4, hpos, hin, hsized, hright, hleft, -⟩ := hmid.part ha
  have hs := hsized s (List.mem_singleton_self s)
  simp only [total_cons, total_nil, Nat.add_zero] at hin
  refine ⟨hpos, h4, hs, hin, right_ptr hright (by omega), getFreebit_ptr hright (by omega), ?_,
    hleft⟩
  rw [chunkSize_ptr hright (by omega), BitVec.toNat_ofNat, Nat.mod_eq_of_lt (by omega)]

theorem Laid.top_freebit (h : Laid A m segs) :
    getFreebit m (ptr (A.base.toNat + 65528)) = false := by
  have htop : m.load (ptr (A.base.toNat + 65528 + 4)) = ptr (0 + false.toNat) := h.topRight
  exact getFreebit_ptr htop rfl

theorem Laid.top_right (h : Laid A m segs) : right m (ptr (A.base.toNat + 65528)) = null := by
  have htop : m.load (ptr (A.base.toNat + 65528 + 4)) = ptr (0 + false.toNat) := h.topRight
  exact right_ptr htop rfl

theorem toChunk_ptr (a : Nat) : toChunk (ptr (a + 8)) = ptr a := by
  rw [toChunk, chunkBytes]
  bv_omega

theorem base_eq (A : Arena) : A.base = ptr A.base.toNat := by
  rw [ptr, BitVec.ofNat_toNat, BitVec.setWidth_eq]

theorem top_eq (A : Arena) : A.base + chunkBytes * (arenaChunks - 1) =
    ptr (A.base.toNat + 65528) := by
  rw [← ptr_add, ← base_eq]
  rfl

/-! ## The invariant from the segments -/

/-- A live block is a busy segment. -/
theorem Represents.segment (h : Represents A st live segs) {b : Block} (hb : b ∈ live) :
    ∃ pre s post, segs = pre ++ s :: post ∧ s.owner = some b.nbytes ∧
      b.vp = ptr (A.base.toNat + total pre + 8) := by
  have hmem := h.live.mem_iff.1 hb
  rw [List.mem_map] at hmem
  obtain ⟨c, hc, rfl⟩ := hmem
  obtain ⟨pre, s, post, hsegs, howner, haddr⟩ := exists_segment hc
  exact ⟨pre, s, post, hsegs, howner, by rw [blockAt, haddr]⟩

/-- A busy segment is a live block. -/
theorem Represents.mem_live (h : Represents A st live (pre ++ s :: post)) {n : Nat}
    (howner : s.owner = some n) : ⟨ptr (A.base.toNat + total pre + 8), n⟩ ∈ live := by
  rw [h.live.mem_iff, List.mem_map]
  refine ⟨(A.base.toNat + total pre, n), ?_, rfl⟩
  rw [blocks_append, blocks, howner]
  simp

theorem Represents.finish (h : Represents A st live segs) {b : Block} (hb : b ∈ live) :
    ∃ a, b.vp = ptr (a + 8) ∧ 0 < a ∧ b.vp.toNat = a + 8 ∧
      a + b.nbytes + 8 ≤ b.finish st.mem ∧ b.finish st.mem ≤ A.base.toNat + 65528 ∧
      toChunk b.vp = ptr a ∧ (toChunk b.vp).toNat = a := by
  have hend := A.fits
  obtain ⟨pre, s, post, rfl, howner, hvp⟩ := h.segment hb
  have hheader := h.laid.header pre s post rfl
  have hoffers := h.offers s (by simp) b.nbytes howner
  have hfits := hheader.fits
  refine ⟨_, hvp, hheader.pos, ?_⟩
  rw [Block.finish, hvp, toChunk_ptr, hheader.chunkSize, ptr_toNat (by omega),
    ptr_toNat (by omega)]
  exact ⟨rfl, by omega, hfits, rfl, rfl⟩

theorem Represents.apart (h : Represents A st live segs) :
    live.Pairwise fun b c => b.finish st.mem ≤ (toChunk c.vp).toNat ∨
      c.finish st.mem ≤ (toChunk b.vp).toNat := by
  have hend := A.fits
  rw [h.live.pairwise_iff fun h => Or.symm h, List.pairwise_map]
  have hpairs : (blocks A.base.toNat segs).Pairwise
      fun b c => b.1 + (chunkSize st.mem (ptr b.1)).toNat ≤ c.1 := by
    apply blocks_apart fun x => (chunkSize st.mem (ptr x)).toNat
    intro pre s post hsegs _
    have hlaid := h.laid
    rw [hsegs] at hlaid
    exact (hlaid.header pre s post rfl).chunkSize
  apply hpairs.imp_of_mem
  intro b c hb hc hle
  have hbound : ∀ {x : Nat × Nat}, x ∈ blocks A.base.toNat segs → x.1 < 2 ^ 32 := by
    intro x hx
    have := blocks_bounds hx
    have := h.laid.length
    omega
  left
  rw [Block.finish, blockAt, blockAt, toChunk_ptr, toChunk_ptr, ptr_toNat (hbound hb),
    ptr_toNat (hbound hc)]
  exact hle

theorem Represents.heapOk (h : Represents A st live segs) :
    HeapOk A st live ((bounds A.base.toNat segs).map ptr) := by
  have hend := A.fits
  have hlaid := h.laid
  have hlength := hlaid.length
  have hheader : ∀ pre s post, segs = pre ++ s :: post →
      Header A st.mem (A.base.toNat + total pre) s := by
    intro pre s post hsegs
    rw [hsegs] at hlaid
    exact hlaid.header pre s post rfl
  constructor
  · rw [List.head?_map, head?_bounds, h.bot, Option.map_some, ← base_eq]
    exact ⟨rfl, rfl⟩
  · rw [List.getLast?_map, getLast?_bounds, hlength, h.top, top_eq]
    exact ⟨rfl, rfl⟩
  · rw [List.isChain_map]
    apply chain_bounds
    intro pre s post hsegs
    have hs := hheader pre s post hsegs
    have hfits := hs.fits
    rw [hs.chunkSize, ptr_toNat (by omega), ptr_toNat (by omega)]
    exact ⟨hs.size.1, hs.size.2, rfl⟩
  · rw [List.isChain_map]
    apply chain_bounds
    intro pre s post hsegs
    exact ⟨(hheader pre s post hsegs).right, (hheader pre s post hsegs).back⟩
  · rw [h.bot, h.top, top_eq]
    exact ⟨(congrArg (leftLink st.mem) (base_eq A)).trans hlaid.botLeft, hlaid.top_right⟩
  · rw [List.isChain_map]
    apply chain_bounds
    intro pre s post hsegs hfree
    obtain ⟨hs, hnext⟩ := hfree
    rw [(hheader pre s post hsegs).freebit, Option.isNone_iff_eq_none] at hs
    cases post with
    | nil =>
      -- the next chunk is the top
      have hlast : A.base.toNat + total pre + s.size = A.base.toNat + 65528 := by
        rw [hsegs, total_append, total_cons, total_nil] at hlength
        omega
      rw [hlast, hlaid.top_freebit] at hnext
      cases hnext
    | cons v post =>
      have hv := hheader (pre ++ [s]) v post (by rw [hsegs]; simp)
      rw [total_append, total_cons, total_nil, Nat.add_zero, ← Nat.add_assoc] at hv
      rw [hv.freebit, Option.isNone_iff_eq_none] at hnext
      have hcoalesced := h.coalesced
      rw [hsegs] at hcoalesced
      have hbusy := (coalesced_middle.1 hcoalesced).2.2.2 v rfl
      rw [hs, hnext] at hbusy
      simp at hbusy
  · intro c
    constructor
    · intro hc
      obtain ⟨hmem, htop, hbusy⟩ := hc
      rw [List.mem_map] at hmem
      obtain ⟨x, hx, rfl⟩ := hmem
      obtain hx | ⟨pre, s, post, hsegs, hx⟩ := mem_bounds.1 hx
      · rw [hx, hlength, h.top, top_eq] at htop
        exact absurd rfl htop
      · rw [hx, (hheader pre s post hsegs).freebit, Option.isNone_eq_false_iff] at hbusy
        obtain ⟨n, howner⟩ := Option.isSome_iff_exists.1 hbusy
        rw [hsegs] at h
        exact ⟨_, h.mem_live howner, by rw [hx, toChunk_ptr]⟩
    · intro hc
      obtain ⟨b, hb, rfl⟩ := hc
      obtain ⟨pre, s, post, hsegs, howner, hvp⟩ := h.segment hb
      have hs := hheader pre s post hsegs
      have hfits := hs.fits
      have hpos := hs.size.1
      rw [hvp, toChunk_ptr, h.top, top_eq, hs.freebit, howner]
      refine ⟨List.mem_map_of_mem (mem_bounds.2 (.inr ⟨pre, s, post, hsegs, rfl⟩)), ?_, rfl⟩
      exact ptr_ne (by omega) (by omega) (by omega)
  · intro b hb
    obtain ⟨a, -, -, hvp, hoffers, -⟩ := h.finish hb
    omega
  · exact h.apart

/-! ## The functions on a represented heap -/

/-- `init` makes one free chunk of the whole arena. -/
theorem represents_init (A : Arena) (st : State) :
    Represents A (init A st) [] [⟨65528, none⟩] := by
  have hpos := A.pos
  have h4 := A.aligned
  have hend := A.fits
  obtain ⟨b, hb⟩ : ∃ b, b = A.base.toNat := ⟨_, rfl⟩
  have hbase : A.base = ptr b := by rw [hb, ← base_eq]
  have htop : A.base + chunkBytes * (arenaChunks - 1) = ptr (b + 65528) := by rw [top_eq, hb]
  rw [← hb] at hpos h4 hend
  -- the six stores of `init` as numbers; the last two write the flag bits over words stored before
  have hmem : (init A st).mem = (((((st.mem.store (ptr b) null).store (ptr (b + 4))
      (ptr (b + 65528))).store (ptr (b + 65528)) (ptr b)).store (ptr (b + 65528 + 4)) null).store
      (ptr (b + 4)) (ptr (b + 65528 + 1))).store (ptr (b + 65528 + 4)) (ptr 0) := by
    simp only [init, htop]
    simp only [hbase, setLeft_ptr, setRight_ptr]
    rw [setFreebit_ptr (b := b + 65528) (f := false) _ (by omega),
      clrFreebit_ptr (b := 0) (f := false) _ rfl]
    · simp (disch := omega) only [Memory.load_store_self, load_store_ptr_ne]
      rfl
    · simp (disch := omega) only [Memory.load_store_self, load_store_ptr_ne]
      rfl
  have hlaid : Laid A (init A st).mem [⟨65528, none⟩] := by
    rw [hmem]
    constructor
    · intro s hs
      rw [List.mem_singleton.1 hs]
      decide
    · rfl
    · rw [← hb]
      refine ⟨?_, ?_, trivial⟩
      · simp (disch := omega) only [Memory.load_store_self, load_store_ptr_ne]
        rfl
      · simp (disch := omega) only [Memory.load_store_self, load_store_ptr_ne]
    · rw [← hb]
      simp (disch := omega) only [Memory.load_store_self, load_store_ptr_ne]
    · rw [← hb]
      exact Memory.load_store_self _ _ _
  refine ⟨rfl, rfl, hlaid, List.isChain_singleton _, ?_, List.Perm.nil⟩
  intro s hs n howner
  rw [List.mem_singleton.1 hs] at howner
  cases howner

theorem Represents.ready (h : Represents A st live segs) : ready A st = st := by
  have hne : ¬ st.bot = null := by
    intro hnull
    have := congrArg BitVec.toNat (h.bot.symm.trans hnull)
    exact Nat.ne_of_gt A.pos this
  rw [Tmalloc.ready, if_neg hne]

/-- A request that does not wrap when the header is added and it is rounded up. -/
theorem sizeFor_toNat {nbytes : BitVec 32} (h : nbytes.toNat + 15 < 2 ^ 32) :
    (sizeFor nbytes).toNat = 8 * ((nbytes.toNat + 7) / 8 + 1) := by
  have hdiv : ((nbytes + chunkBytes - 1) / chunkBytes).toNat = (nbytes.toNat + 7) / 8 := by
    rw [BitVec.toNat_udiv, chunkBytes]
    congr 1
    bv_omega
  rw [sizeFor, BitVec.toNat_mul, BitVec.toNat_add, hdiv]
  show 8 * (((nbytes.toNat + 7) / 8 + 1) % 2 ^ 32) % 2 ^ 32 = _
  omega

/-- `tmalloc` takes the first free chunk that has the rounded size, whatever that is. -/
theorem Represents.tmalloc_found (h : Represents A (Tmalloc.ready A st) live segs) {fuel : Nat}
    (hfuel : 8193 ≤ fuel) (nbytes : BitVec 32) :
    (tmalloc A fuel st nbytes = some (Tmalloc.ready A st, null) ∧
      ∀ s ∈ segs, s.owner = none → s.size < (sizeFor nbytes).toNat) ∨
    ∃ pre s post, segs = pre ++ s :: post ∧ s.owner = none ∧ (sizeFor nbytes).toNat ≤ s.size ∧
      (∀ u ∈ pre, u.owner = none → u.size < (sizeFor nbytes).toNat) ∧
      tmalloc A fuel st nbytes =
        some ({ Tmalloc.ready A st with
          mem := clrFreebit (Tmalloc.split (Tmalloc.ready A st).mem (ptr (A.base.toNat + total pre))
            (sizeFor nbytes)).1 (Tmalloc.split (Tmalloc.ready A st).mem
              (ptr (A.base.toNat + total pre)) (sizeFor nbytes)).2 },
          fromChunk (Tmalloc.split (Tmalloc.ready A st).mem (ptr (A.base.toNat + total pre))
            (sizeFor nbytes)).2) := by
  have hpos := A.pos
  have hend := A.fits
  have hlaid := h.laid
  have hlength := hlaid.length
  have hcount := hlaid.sized.length_le
  have hwalk := findChunk_segments (sizeFor nbytes) hlaid.sized hlaid.linked A.aligned hpos
    (by omega) (by rw [hlength]; exact hlaid.topRight)
    (show segs.length + 2 ≤ fuel by omega)
  rw [show ptr A.base.toNat = (Tmalloc.ready A st).bot by rw [h.bot, ← base_eq]] at hwalk
  obtain ⟨hnull, hnone⟩ | ⟨pre, s, post, rfl, howner, hfits, hfirst, hfound⟩ := hwalk
  · exact .inl ⟨by simp only [Tmalloc.tmalloc, hnull, if_true], hnone⟩
  · refine .inr ⟨pre, s, post, rfl, howner, hfits, hfirst, ?_⟩
    have hheader := hlaid.header pre s post rfl
    have hin := hheader.fits
    have hne : ¬ ptr (A.base.toNat + total pre) = null := ptr_ne_null hheader.pos (by omega)
    simp only [Tmalloc.tmalloc, hfound, if_neg hne]

/-- `tmalloc` returns NULL when no free chunk has room for the header and the bytes, and a new block
    otherwise. -/
theorem Represents.tmalloc (h : Represents A (Tmalloc.ready A st) live segs) {fuel : Nat}
    (hfuel : 8193 ≤ fuel) {nbytes : BitVec 32} (hn : nbytes.toNat + 15 < 2 ^ 32) :
    (tmalloc A fuel st nbytes = some (Tmalloc.ready A st, null) ∧
      ∀ s ∈ segs, s.owner = none → s.size < nbytes.toNat + 8) ∨
    ∃ st' vp segs', tmalloc A fuel st nbytes = some (st', vp) ∧ vp ≠ null ∧
      Represents A st' (⟨vp, nbytes.toNat⟩ :: live) segs' ∧
      ∃ s ∈ segs, s.owner = none ∧ nbytes.toNat + 8 ≤ s.size := by
  have hpos := A.pos
  have hend := A.fits
  have hsize := sizeFor_toNat hn
  obtain ⟨hnull, hnone⟩ | ⟨pre, s, post, rfl, howner, hfits, -, hfound⟩ :=
    h.tmalloc_found hfuel nbytes
  · left
    refine ⟨hnull, ?_⟩
    intro s hs hfree
    have hmod := (h.laid.sized s hs).2
    have := hnone s hs hfree
    omega
  · right
    obtain ⟨hbot, htop, hlaid, hcoalesced, hoffers, hlive⟩ := h
    have hlength := hlaid.length
    have hheader := hlaid.header pre s post rfl
    have hin := hheader.fits
    have hspos := hheader.size
    have hptr : sizeFor nbytes = BitVec.ofNat 32 (8 * ((nbytes.toNat + 7) / 8 + 1)) := by
      apply BitVec.eq_of_toNat_eq
      rw [hsize, BitVec.toNat_ofNat, Nat.mod_eq_of_lt (by omega)]
    obtain ⟨hq, hsplit⟩ := hlaid.split (8 * ((nbytes.toNat + 7) / 8 + 1)) rfl howner
      (by omega) (Nat.dvd_mul_right 8 _) (by omega) nbytes.toNat
    rw [← hptr] at hq hsplit
    have hfrom : fromChunk (Tmalloc.split (Tmalloc.ready A st).mem
        (ptr (A.base.toNat + total pre)) (sizeFor nbytes)).2 =
        ptr (A.base.toNat + total pre + (s.size - 8 * ((nbytes.toNat + 7) / 8 + 1)) + 8) := by
      rw [hq, fromChunk, chunkBytes, ← ptr_add _ 8]
      rfl
    have htmalloc := hfound.trans (by rw [hfrom])
    refine ⟨_, _, _, htmalloc, ptr_ne_null (by omega) (by omega),
      ⟨hbot, htop, hsplit, ?_, ?_, ?_⟩, s, by simp, howner, by omega⟩
    · have htiled : Tiled 8 65528 (pre ++ s :: post) := ⟨hlaid.sized, hlength, hcoalesced⟩
      exact (htiled.grant howner (by omega) (Nat.dvd_mul_right 8 _) _).coalesced
    · intro u hu n hun
      rw [List.mem_append, List.mem_append] at hu
      obtain hu | hu | hu := hu
      · exact hoffers u (List.mem_append_left _ hu) n hun
      · unfold Segment.grant at hu
        split at hu
        · rw [List.mem_pair] at hu
          cases hu with
          | inl h => rw [h] at hun; cases hun
          | inr h =>
            rw [h] at hun ⊢
            obtain rfl := Option.some.inj hun
            show nbytes.toNat + 8 ≤ 8 * _
            omega
        · rw [List.mem_singleton.1 hu] at hun ⊢
          obtain rfl := Option.some.inj hun
          show nbytes.toNat + 8 ≤ s.size
          omega
      · exact hoffers u (List.mem_append_right _ (List.mem_cons_of_mem _ hu)) n hun
    · -- the new block comes between the blocks on its left and on its right
      rw [blocks_append, blocks_append, blocks_grant (by omega), total_grant, List.map_append,
        List.singleton_append, List.map_cons]
      refine List.Perm.trans (List.Perm.cons _ ?_) List.perm_middle.symm
      rw [← List.map_append]
      refine hlive.trans (List.Perm.of_eq ?_)
      rw [blocks_append, blocks, howner]
      rfl

/-- The other blocks after one has been handed back. -/
theorem filter_blocks (hsized : Sized (pre ++ s :: post)) {n : Nat} (howner : s.owner = some n)
    (hfit : a + total (pre ++ s :: post) + 8 ≤ 2 ^ 32) :
    ((blocks a (pre ++ s :: post)).map blockAt).filter
        (fun b => decide (b.vp ≠ ptr (a + total pre + 8))) =
      (blocks a pre ++ blocks (a + total pre + s.size) post).map blockAt := by
  have hs := hsized s (by simp)
  rw [total_append, total_cons] at hfit
  -- a block at another address has another pointer, as no address wraps
  have hkeep : ∀ bs : List (Nat × Nat), (∀ b ∈ bs, b.1 ≠ a + total pre ∧ b.1 + 8 < 2 ^ 32) →
      (bs.map blockAt).filter (fun b => decide (b.vp ≠ ptr (a + total pre + 8))) =
        bs.map blockAt := by
    intro bs hbs
    apply List.filter_eq_self.2
    intro c hc
    rw [List.mem_map] at hc
    obtain ⟨b, hb, rfl⟩ := hc
    obtain ⟨hne, hlt⟩ := hbs b hb
    exact decide_eq_true (ptr_ne hlt (by omega) (by omega))
  -- the blocks before end below the one freed
  have hpre := hkeep (blocks a pre) <| by
    intro b hb
    have := blocks_lt (fun u hu => (hsized u (List.mem_append_left _ hu)).1) hb
    omega
  -- the blocks after begin above it
  have hpost := hkeep (blocks (a + total pre + s.size) post) <| by
    intro b hb
    have hlow := blocks_bounds hb
    have hhigh := blocks_lt
      (fun u hu => (hsized u (List.mem_append_right _ (List.mem_cons_of_mem _ hu))).1) hb
    omega
  rw [blocks_append, blocks, howner, List.map_append, List.map_append, List.filter_append,
    List.filter_append, List.map_append, hpre, hpost]
  simp [blockAt]

/-- `tfree` hands a block back and joins its segment with the free ones beside it. -/
theorem Represents.release (h : Represents A st live (pre ++ s :: post)) {b : Block}
    (howner : s.owner = some b.nbytes) (hvp : b.vp = ptr (A.base.toNat + total pre + 8)) :
    Represents A (tfree st b.vp) (handBack live b.vp) (release pre s post) := by
  have hend := A.fits
  obtain ⟨hbot, htop, hlaid, hcoalesced, hoffers, hlive⟩ := h
  have hlength := hlaid.length
  have hs := hlaid.sized s (by simp)
  have hbusy : s.owner.isSome := by rw [howner]; rfl
  have htiled : Tiled 8 65528 (pre ++ s :: post) := ⟨hlaid.sized, hlength, hcoalesced⟩
  have hfree : (Tmalloc.tfree st b.vp).bot = st.bot ∧ (Tmalloc.tfree st b.vp).top = st.top := by
    unfold Tmalloc.tfree
    split <;> exact ⟨rfl, rfl⟩
  refine ⟨hfree.1.trans hbot, hfree.2.trans htop, ?_, htiled.release.coalesced, ?_, ?_⟩
  · rw [hvp]
    exact (show Laid A st.mem (pre ++ ([s] ++ post)) from hlaid).free rfl hbusy
  · intro u hu n hun
    rw [Heap.release, List.mem_append, List.mem_cons] at hu
    obtain hu | hu | hu := hu
    · -- only the free segment at the end of `pre` is gone
      have hmem : u ∈ pre := by
        obtain ⟨pre', size, rfl, hdrop, -⟩ | ⟨hdrop, -⟩ := dropLastFree_cases pre
        · rw [hdrop] at hu
          exact List.mem_append_left _ hu
        · rwa [hdrop] at hu
      exact hoffers u (List.mem_append_left _ hmem) n hun
    · rw [hu] at hun
      cases hun
    · -- only the free segment at the head of `post` is gone
      have hmem : u ∈ post := by
        obtain ⟨post', size, rfl, hdrop, -⟩ | ⟨hdrop, -⟩ := dropHeadFree_cases post
        · rw [hdrop] at hu
          exact List.mem_cons_of_mem _ hu
        · rwa [hdrop] at hu
      exact hoffers u (List.mem_append_right _ (List.mem_cons_of_mem _ hmem)) n hun
  · rw [handBack, hvp, blocks_release]
    refine (hlive.filter _).trans (List.Perm.of_eq ?_)
    exact filter_blocks hlaid.sized howner (by omega)

theorem Represents.tfree (h : Represents A st live segs) {b : Block} (hb : b ∈ live) :
    ∃ segs', Represents A (tfree st b.vp) (handBack live b.vp) segs' := by
  obtain ⟨pre, s, post, rfl, howner, hvp⟩ := h.segment hb
  exact ⟨_, h.release howner hvp⟩

/-- Writing inside of a chunk, after its header, changes no header. -/
theorem Laid.payload {m' : Memory} (h : Laid A m (pre ++ s :: post))
    (hsame : ∀ x : BitVec 32, x.toNat < A.base.toNat + total pre + 8 ∨
      A.base.toNat + total pre + s.size ≤ x.toNat → m' x = m x) :
    Laid A m' (pre ++ s :: post) := by
  have hend := A.fits
  have hmid : Laid A m (pre ++ ([s] ++ post)) := h
  obtain ⟨h4, -, hin, hsized, hright, hleft, -⟩ := hmid.part rfl
  have hs := hsized s (List.mem_singleton_self s)
  simp only [total_cons, total_nil, Nat.add_zero] at hin
  have hload : ∀ x, x % 4 = 0 → x < 2 ^ 32 → x + 4 ≤ A.base.toNat + total pre + 8 ∨
      A.base.toNat + total pre + s.size ≤ x → m'.load (ptr x) = m.load (ptr x) := by
    intro x hx hlt hout
    apply Memory.load_congr (ptr_aligned hlt hx)
    rw [ptr_toNat hlt]
    intro y hlow hhigh
    exact hsame y (by omega)
  apply hmid.edit rfl hsized (show total [s] = total [s] from rfl)
  · refine ⟨?_, ?_, trivial⟩
    · rw [hload _ (by omega) (by omega) (.inl (by omega)), hright]
    · rw [hload _ (by omega) (by omega) (.inr (by omega)), hleft]
  · intro x hx hlt hout
    simp only [total_cons, total_nil, Nat.add_zero] at hout
    exact hload x hx hlt (by omega)

/-- Writing inside of a live block keeps the heap. -/
theorem Represents.write {m' : Memory} (h : Represents A st live segs) {b : Block} (hb : b ∈ live)
    (hsame : ∀ x : BitVec 32, x.toNat < b.vp.toNat ∨ b.finish st.mem ≤ x.toNat →
      m' x = st.mem x) : Represents A { st with mem := m' } live segs := by
  have hend := A.fits
  obtain ⟨pre, s, post, rfl, howner, hvp⟩ := h.segment hb
  have hheader := h.laid.header pre s post rfl
  have hin := hheader.fits
  have hfinish : b.finish st.mem = A.base.toNat + total pre + s.size := by
    rw [Block.finish, hvp, toChunk_ptr, hheader.chunkSize, ptr_toNat (by omega)]
  have hsize := h.offers s (by simp) _ howner
  have hstart : b.vp.toNat = A.base.toNat + total pre + 8 := by
    rw [hvp, ptr_toNat (by omega)]
  refine ⟨h.bot, h.top, ?_, h.coalesced, h.offers, h.live⟩
  apply h.laid.payload
  intro x hx
  rw [hstart, hfinish] at hsame
  exact hsame x hx

/-! ## Calls -/

/-- The heap is represented, set up or not, and before it is set up there are no blocks. -/
def Good (A : Arena) (s : Session) : Prop :=
  (∃ segs, Represents A (ready A s.st) s.live segs) ∧ (s.st.bot = null → s.live = [])

theorem Represents.bot_ne (h : Represents A st live segs) : st.bot ≠ null := by
  intro hnull
  have := congrArg BitVec.toNat (h.bot.symm.trans hnull)
  exact Nat.ne_of_gt A.pos this

theorem Represents.good (h : Represents A st live segs) : Good A ⟨st, live⟩ :=
  ⟨⟨segs, by rw [h.ready]; exact h⟩, fun hnull => absurd hnull h.bot_ne⟩

/-- With a live block the heap is set up. -/
theorem Good.represents {s : Session} (h : Good A s) {b : Block} (hb : b ∈ s.live) :
    ∃ segs, Represents A s.st s.live segs := by
  obtain ⟨⟨segs, hrep⟩, hnone⟩ := h
  have hne : ¬ s.st.bot = null := by
    intro hnull
    rw [hnone hnull] at hb
    cases hb
  rw [Tmalloc.ready, if_neg hne] at hrep
  exact ⟨segs, hrep⟩

theorem handOut_null (live : List Block) (n : Nat) : handOut live null n = live := if_pos rfl

theorem handOut_new {vp : BitVec 32} (hvp : vp ≠ null) (live : List Block) (n : Nat) :
    handOut live vp n = ⟨vp, n⟩ :: live := if_neg hvp

/-- No block is at NULL. -/
theorem Represents.handBack_null (h : Represents A st live segs) : handBack live null = live := by
  have hend := A.fits
  apply List.filter_eq_self.2
  intro b hb
  obtain ⟨a, hvp, -, -, hlow, hhigh, -⟩ := h.finish hb
  rw [hvp]
  exact decide_eq_true (ptr_ne_null (by omega) (by omega))

/-- A new block is not at the place of another one. -/
theorem Represents.handBack_cons {b new : Block} (h : Represents A st (new :: live) segs)
    (hb : b ∈ live) : handBack (new :: live) b.vp = new :: handBack live b.vp := by
  have hapart := (List.pairwise_cons.1 h.apart).1 b hb
  obtain ⟨a, -, -, -, hlow, -, -, haddr⟩ := h.finish List.mem_cons_self
  obtain ⟨a', -, -, -, hlow', -, -, haddr'⟩ := h.finish (List.mem_cons_of_mem _ hb)
  have hne : new.vp ≠ b.vp := by
    intro heq
    have hsame : new.finish st.mem = b.finish st.mem := by rw [Block.finish, heq, ← Block.finish]
    rw [heq] at hapart haddr
    omega
  have hkeep : decide (new.vp ≠ b.vp) = true := decide_eq_true hne
  simp only [handBack, List.filter_cons, hkeep, if_true]

section Step

variable {s : Session} {fuel : Nat} (hfuel : 8193 ≤ fuel) (h : Good A s)

include hfuel h

theorem Good.tmalloc {nbytes : BitVec 32} (hn : nbytes.toNat + 15 < 2 ^ 32) :
    ∃ st vp segs, tmalloc A fuel s.st nbytes = some (st, vp) ∧
      Represents A st (handOut s.live vp nbytes.toNat) segs := by
  obtain ⟨⟨segs, hrep⟩, -⟩ := h
  obtain ⟨heq, -⟩ | ⟨st, vp, segs', heq, hvp, hrep', -⟩ := hrep.tmalloc hfuel hn
  · exact ⟨_, _, segs, heq, by rw [handOut_null]; exact hrep⟩
  · exact ⟨_, _, segs', heq, by rw [handOut_new hvp]; exact hrep'⟩

theorem Good.tcalloc {nelem elsize : BitVec 32}
    (hn : nelem.toNat * elsize.toNat + 15 < 2 ^ 32) :
    ∃ st vp segs, tcalloc A fuel s.st nelem elsize = some (st, vp) ∧
      Represents A st (handOut s.live vp (nelem.toNat * elsize.toNat)) segs := by
  have hmul : (nelem * elsize).toNat = nelem.toNat * elsize.toNat := by
    rw [BitVec.toNat_mul]
    exact Nat.mod_eq_of_lt (by omega)
  obtain ⟨⟨segs, hrep⟩, -⟩ := h
  obtain ⟨heq, -⟩ | ⟨st, vp, segs', heq, hvp, hrep', -⟩ :=
    hrep.tmalloc hfuel (show (nelem * elsize).toNat + 15 < 2 ^ 32 by omega)
  · refine ⟨_, null, segs, ?_, by rw [handOut_null]; exact hrep⟩
    simp only [Tmalloc.tcalloc, heq, if_true]
  · refine ⟨{ st with mem := st.mem.fill vp 0 (nelem * elsize) }, vp, segs', ?_, ?_⟩
    · simp only [Tmalloc.tcalloc, heq, if_neg hvp]
    · rw [handOut_new hvp, ← hmul]
      have hend := A.fits
      obtain ⟨a, -, -, hstart, hlow, hhigh, -⟩ := hrep'.finish List.mem_cons_self
      change vp.toNat = a + 8 at hstart
      change a + (nelem * elsize).toNat + 8 ≤ _ at hlow
      apply hrep'.write List.mem_cons_self
      intro x hx
      change x.toNat < vp.toNat ∨ _ at hx
      exact Memory.fill_outside (by omega) _ _ (by omega)

theorem Good.trealloc {vp newbytes : BitVec 32} (hn : newbytes.toNat + 15 < 2 ^ 32)
    (hvp : vp = null ∨ ∃ b ∈ s.live, b.vp = vp) :
    ∃ st newp segs, trealloc A fuel s.st vp newbytes = some (st, newp) ∧
      Represents A st (handOut (if newbytes ≠ 0 ∧ newp = null then s.live else handBack s.live vp)
        newp newbytes.toNat) segs := by
  cases hvp with
  | inl hnull =>
    obtain ⟨st, newp, segs, heq, hrep⟩ := Good.tmalloc hfuel h hn
    obtain ⟨⟨segs₀, hrep₀⟩, -⟩ := h
    refine ⟨st, newp, segs, ?_, ?_⟩
    · rw [Tmalloc.trealloc, if_pos hnull, heq]
    · rw [hnull, hrep₀.handBack_null, ite_self]
      exact hrep
  | inr hblock =>
    obtain ⟨b, hb, rfl⟩ := hblock
    obtain ⟨segs, hrep⟩ := h.represents hb
    obtain ⟨a₀, hbvp, -, -, hblow, hbhigh, -⟩ := hrep.finish hb
    have hend := A.fits
    have hne : ¬ b.vp = null := by
      rw [hbvp]
      exact ptr_ne_null (by omega) (by omega)
    by_cases hzero : newbytes = 0
    · obtain ⟨segs', hrep'⟩ := hrep.tfree hb
      refine ⟨Tmalloc.tfree s.st b.vp, null, segs', ?_, ?_⟩
      · rw [Tmalloc.trealloc, if_neg hne, if_neg (not_not.2 hzero)]
      · rw [handOut_null, if_neg fun hand => hand.1 hzero]
        exact hrep'
    · have hready : Represents A (ready A s.st) s.live segs := by rwa [hrep.ready]
      obtain ⟨heq, -⟩ | ⟨st, newp, segs', heq, hnewp, hrep', -⟩ := hready.tmalloc hfuel hn
      · refine ⟨s.st, null, segs, ?_, ?_⟩
        · simp only [Tmalloc.trealloc, if_neg hne, ne_eq, hzero, not_false_eq_true, if_true, heq,
            hrep.ready]
        · rw [handOut_null, if_pos ⟨hzero, rfl⟩]
          exact hrep
      · obtain ⟨bytes, hbytes⟩ : ∃ bytes, bytes =
            if newbytes < chunkSize st.mem (toChunk b.vp) - chunkBytes then newbytes
            else chunkSize st.mem (toChunk b.vp) - chunkBytes := ⟨_, rfl⟩
        have hle : bytes.toNat ≤ newbytes.toNat := by
          rw [hbytes]
          split <;> bv_omega
        -- the copy stays inside of the new block
        have hcopy : Represents A { st with mem := st.mem.copy newp b.vp bytes }
            (⟨newp, newbytes.toNat⟩ :: s.live) segs' := by
          obtain ⟨a, -, -, hstart, hlow, hhigh, -⟩ := hrep'.finish List.mem_cons_self
          change newp.toNat = a + 8 at hstart
          change a + newbytes.toNat + 8 ≤ _ at hlow
          apply hrep'.write List.mem_cons_self
          intro x hx
          change x.toNat < newp.toNat ∨ _ at hx
          exact Memory.copy_outside (by omega) _ (by omega)
        obtain ⟨segs'', hrep''⟩ := hcopy.tfree (List.mem_cons_of_mem _ hb)
        refine ⟨Tmalloc.tfree { st with mem := st.mem.copy newp b.vp bytes } b.vp, newp, segs'',
          ?_, ?_⟩
        · simp only [Tmalloc.trealloc, if_neg hne, ne_eq, hzero, not_false_eq_true, if_true, heq,
            if_neg hnewp, ← hbytes]
        · rw [handOut_new hnewp, if_neg fun hand => hnewp hand.2]
          rw [hcopy.handBack_cons hb] at hrep''
          exact hrep''

/-- Every valid call returns and keeps the invariant; only `tfree(NULL)` leaves the heap as it is
    when it is not set up. -/
theorem Good.step {c : Call} (hlegal : Valid s c) :
    ∃ s', step A fuel s c = some s' ∧ Good A s' ∧
      (c ≠ .tfree null ∨ s.st.bot ≠ null → s'.st.bot ≠ null) := by
  cases c with
  | tmalloc nbytes =>
    obtain ⟨st, vp, segs, heq, hrep⟩ := Good.tmalloc hfuel h hlegal
    exact ⟨_, by simp only [Tmalloc.step, heq], hrep.good, fun _ => hrep.bot_ne⟩
  | tfree vp =>
    refine ⟨_, rfl, ?_⟩
    cases hlegal with
    | inl hnull =>
      -- `tfree` of the null pointer does nothing, also before the heap is set up
      subst hnull
      obtain ⟨segs, hrep⟩ := h.1
      rw [hrep.handBack_null, Tmalloc.tfree, if_pos rfl]
      refine ⟨h, ?_⟩
      intro hset
      cases hset with
      | inl hcall => exact absurd rfl hcall
      | inr hbot => exact hbot
    | inr hblock =>
      obtain ⟨b, hb, rfl⟩ := hblock
      obtain ⟨segs, hrep⟩ := h.represents hb
      obtain ⟨segs', hrep'⟩ := hrep.tfree hb
      exact ⟨hrep'.good, fun _ => hrep'.bot_ne⟩
  | trealloc vp newbytes =>
    obtain ⟨st, newp, segs, heq, hrep⟩ := Good.trealloc hfuel h hlegal.1 hlegal.2
    exact ⟨_, by simp only [Tmalloc.step, heq], hrep.good, fun _ => hrep.bot_ne⟩
  | tcalloc nelem elsize =>
    obtain ⟨st, vp, segs, heq, hrep⟩ := Good.tcalloc hfuel h hlegal
    exact ⟨_, by simp only [Tmalloc.step, heq], hrep.good, fun _ => hrep.bot_ne⟩
  | write addr byte =>
    obtain ⟨b, hb, hlow, hhigh⟩ := hlegal
    obtain ⟨segs, hrep⟩ := h.represents hb
    have hwrite : Represents A { s.st with mem := s.st.mem.setByte addr byte } s.live segs := by
      apply hrep.write hb
      intro x hx
      -- a byte inside a live block is no word of the bookkeeping
      apply Memory.setByte_outside
      intro heq
      rw [heq] at hx
      omega
    exact ⟨_, rfl, hwrite.good, fun _ => hwrite.bot_ne⟩

/-- Every valid run returns and keeps the invariant. -/
theorem Good.run {calls : List Call} (hlegal : ValidRun A fuel s calls) :
    ∃ s', run A fuel s calls = some s' ∧ Good A s' ∧
      ((∃ c ∈ calls, c ≠ .tfree null) ∨ s.st.bot ≠ null → s'.st.bot ≠ null) := by
  induction calls generalizing s with
  | nil =>
    refine ⟨s, rfl, h, ?_⟩
    intro hset
    cases hset with
    | inl hcall => obtain ⟨c, hc, -⟩ := hcall; cases hc
    | inr hbot => exact hbot
  | cons c calls ih =>
    obtain ⟨s₁, hstep, hgood, hset₁⟩ := Good.step hfuel h hlegal.1
    obtain ⟨s', hrun, hgood', hset'⟩ := ih hgood (hlegal.2 s₁ hstep)
    refine ⟨s', by rw [Tmalloc.run, hstep]; exact hrun, hgood', ?_⟩
    intro hset
    apply hset'
    cases hset with
    | inl hcall =>
      obtain ⟨d, hd, hne⟩ := hcall
      rw [List.mem_cons] at hd
      cases hd with
      | inl heq => exact .inr (hset₁ (.inl (heq ▸ hne)))
      | inr hmem => exact .inl ⟨d, hmem, hne⟩
    | inr hbot => exact .inr (hset₁ (.inr hbot))

end Step

theorem good_start (A : Arena) (mem : Memory) : Good A (start mem) := by
  refine ⟨⟨[⟨65528, none⟩], ?_⟩, fun _ => rfl⟩
  have hready : ready A (start mem).st = init A (start mem).st := if_pos rfl
  rw [hready]
  exact represents_init A _

/-- The free chunks are the free segments. -/
theorem Represents.free_chunks (h : Represents A st live segs) (size : Nat) :
    (∀ c ∈ (bounds A.base.toNat segs).map ptr, getFreebit st.mem c = true →
      (chunkSize st.mem c).toNat < size) ↔ ∀ s ∈ segs, s.owner = none → s.size < size := by
  have hlaid := h.laid
  constructor
  · intro hall s hs hfree
    obtain ⟨pre, post, rfl⟩ := List.append_of_mem hs
    have hs := hlaid.header pre s post rfl
    rw [← hs.chunkSize]
    apply hall _ (List.mem_map_of_mem (mem_bounds.2 (.inr ⟨pre, s, post, rfl, rfl⟩)))
    rw [hs.freebit, hfree]
    rfl
  · intro hall c hc hfree
    rw [List.mem_map] at hc
    obtain ⟨x, hmem, rfl⟩ := hc
    obtain hx | ⟨pre, s, post, rfl, hx⟩ := mem_bounds.1 hmem
    · rw [hx, hlaid.length, hlaid.top_freebit] at hfree
      cases hfree
    · have hs := hlaid.header pre s post hx
      rw [hs.freebit, Option.isNone_iff_eq_none] at hfree
      rw [hs.chunkSize]
      exact hall s (by simp) hfree

/-- In every legal run every call returns, and after it the heap is in order (set up, unless no call
    but `tfree(NULL)` has been made); then `tmalloc` returns, and gives NULL exactly when no free
    chunk has room for the header and the bytes. -/
theorem run_heapOk (A : Arena) (mem : Memory) {fuel : Nat} (hfuel : 8193 ≤ fuel)
    (calls : List Call) (hlegal : LegalRun A fuel (start mem) calls) :
    ∃ s, run A fuel (start mem) calls = some s ∧
      ((∃ c ∈ calls, c ≠ .tfree null) → ready A s.st = s.st) ∧
      ∃ chunks, HeapOk A (ready A s.st) s.live chunks ∧
        ∀ nbytes : BitVec 32, nbytes.toNat ≤ 65536 →
          ∃ st vp, tmalloc A fuel s.st nbytes = some (st, vp) ∧
            (vp = null ↔ ∀ c ∈ chunks, getFreebit (ready A s.st).mem c = true →
              (chunkSize (ready A s.st).mem c).toNat < nbytes.toNat + 8) := by
  obtain ⟨s, hrun, hgood, hset⟩ := Good.run hfuel (good_start A mem) hlegal.valid
  obtain ⟨⟨segs, hrep⟩, -⟩ := hgood
  refine ⟨s, hrun, fun hcall => if_neg (hset (.inl hcall)), _, hrep.heapOk, ?_⟩
  intro nbytes hn
  rw [hrep.free_chunks]
  obtain ⟨heq, hnone⟩ | ⟨st, vp, -, heq, hvp, -, u, hu, hfree, hfits⟩ :=
    hrep.tmalloc hfuel (show nbytes.toNat + 15 < 2 ^ 32 by omega)
  · exact ⟨_, _, heq, fun _ => hnone, fun _ => rfl⟩
  · refine ⟨_, _, heq, fun hnull => absurd hnull hvp, ?_⟩
    intro hall
    have := hall u hu hfree
    omega

/-- An arena on the second page. -/
def page : Arena := ⟨0x1000, by decide, by decide, by decide⟩

/-- A block is allocated, written to, moved to a larger one, and freed. -/
def fourCalls : List Call :=
  [.tmalloc 24, .write 69600 7, .trealloc 69600 40, .tfree 69552]

theorem run_heapOk_fourCalls :
    ∃ s chunks, run page 8193 (start fun _ => 0) fourCalls = some s ∧
      HeapOk page (ready page s.st) s.live chunks := by
  obtain ⟨s, hrun, -, chunks, hok, -⟩ := run_heapOk page (fun _ => 0) (Nat.le_refl 8193) fourCalls
    (by decide +kernel)
  exact ⟨s, chunks, hrun, hok⟩

end Tmalloc
