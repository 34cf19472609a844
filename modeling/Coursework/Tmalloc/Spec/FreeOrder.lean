import Coursework.Tmalloc.Spec.HeapInvariant

/-!
# The order of `tfree` does not matter

Each `tfree` meets other neighbours when the order changes, and joins its chunk with them in one
of four ways. But it moves no other busy chunk and leaves no two free neighbours, and such a list
of chunks is known by its busy ones.

## Key results

- `chunkList_laid`: the list that the code reads from `bot` on is that of the segments
- `Represents.freeAll`: the busy segments after any number of `tfree`s
- `run_freeAll`: two orders give one list
-/

namespace Tmalloc

open Heap

/-- The chunks that are reached from `p`, with their free bits; `none` if the walk has not ended
    within its steps. -/
def chunkList (m : Memory) : Nat → BitVec 32 → Option (List (BitVec 32 × Bool))
  | 0, _ => none
  | fuel + 1, p =>
    if p = null then some []
    else (chunkList m fuel (right m p)).map fun chunks => (p, getFreebit m p) :: chunks

/-- The chunk list of the heap, which the first call of `tmalloc` sets up. -/
def State.chunks (A : Arena) (fuel : Nat) (st : State) : Option (List (BitVec 32 × Bool)) :=
  chunkList (ready A st).mem fuel (ready A st).bot

/-- The pointers are freed one after the other. -/
def freeAll (st : State) (vps : List (BitVec 32)) : State := vps.foldl tfree st

/-- The list of the chunks with these sizes and free bits; the top is not free. -/
def shapeList (a : Nat) : List (Nat × Bool) → List (BitVec 32 × Bool)
  | [] => [(ptr a, false)]
  | (size, free) :: shapes => (ptr a, free) :: shapeList (a + size) shapes

variable {A : Arena} {st : State} {m : Memory} {live : List Block} {a : Nat} {s : Segment Nat}
  {segs pre post : List (Segment Nat)}

/-- The walk reads the shapes of the segments. -/
theorem chunkList_linked {fuel : Nat} (hsized : Sized segs) (hlinked : Linked m a segs)
    (h4 : a % 4 = 0) (hpos : 0 < a) (hfit : a + total segs < 2 ^ 32)
    (htop : m.load (ptr (a + total segs + 4)) = null) (hfuel : segs.length + 2 ≤ fuel) :
    chunkList m fuel (ptr a) = some (shapeList a (segs.map Segment.shape)) := by
  induction segs generalizing a fuel with
  | nil =>
    obtain ⟨fuel, rfl⟩ : ∃ n, fuel = n + 2 := ⟨fuel - 2, by simp at hfuel; omega⟩
    simp only [total_nil, Nat.add_zero] at hfit htop
    -- the last chunk, which has no right neighbour and is not free
    have htop' : m.load (ptr (a + 4)) = ptr (0 + false.toNat) := htop
    rw [chunkList, if_neg (ptr_ne_null hpos hfit), right_ptr htop' rfl, getFreebit_ptr htop' rfl]
    rfl
  | cons s segs ih =>
    obtain ⟨fuel, rfl⟩ : ∃ n, fuel = n + 1 := ⟨fuel - 1, by simp at hfuel; omega⟩
    obtain ⟨hright, -, hrest⟩ := hlinked
    have hs := hsized s List.mem_cons_self
    rw [total_cons] at hfit htop
    rw [List.length_cons] at hfuel
    rw [chunkList, if_neg (ptr_ne_null hpos (by omega)), right_ptr hright (by omega),
      getFreebit_ptr hright (by omega),
      ih (fun u hu => hsized u (List.mem_cons_of_mem _ hu)) hrest (by omega) (by omega) (by omega)
        (by rw [Nat.add_assoc a]; exact htop) (show segs.length + 2 ≤ fuel by omega)]
    rfl

theorem Represents.chunks (h : Represents A (Tmalloc.ready A st) live segs) {fuel : Nat}
    (hfuel : 8193 ≤ fuel) :
    st.chunks A fuel = some (shapeList A.base.toNat (segs.map Segment.shape)) := by
  have hend := A.fits
  have hlength := h.laid.length
  have hcount := h.laid.sized.length_le
  have hbot : (Tmalloc.ready A st).bot = ptr A.base.toNat := by rw [h.bot, ← base_eq]
  rw [State.chunks, hbot]
  apply chunkList_linked h.laid.sized h.laid.linked A.aligned A.pos (by omega)
  · rw [hlength]
    exact h.laid.topRight
  · omega

/-! ## The busy segments after `tfree` -/

/-- The spans whose block has not been freed. -/
def notFreed (vps : List (BitVec 32)) (spans : List (Nat × Nat)) : List (Nat × Nat) :=
  spans.filter fun c => decide (ptr (c.1 + 8) ∉ vps)

theorem notFreed_cons (vp : BitVec 32) (vps : List (BitVec 32)) (l : List (Nat × Nat)) :
    notFreed (vp :: vps) l = notFreed vps (notFreed [vp] l) := by
  rw [notFreed, notFreed, notFreed, List.filter_filter]
  congr 1
  funext c
  simp [Bool.and_comm]

theorem spans_release_notFreed (hsized : Sized (pre ++ s :: post)) (hbusy : s.owner.isSome)
    (hfit : a + total (pre ++ s :: post) + 8 ≤ 2 ^ 32) :
    spans a (release pre s post) =
      notFreed [ptr (a + total pre + 8)] (spans a (pre ++ s :: post)) := by
  have hs := hsized s (by simp)
  rw [total_append, total_cons] at hfit
  -- a span at another place has another pointer, as no address wraps
  have hkeep : ∀ l : List (Nat × Nat), (∀ c ∈ l, c.1 ≠ a + total pre ∧ c.1 + 8 < 2 ^ 32) →
      notFreed [ptr (a + total pre + 8)] l = l := by
    intro l hl
    apply List.filter_eq_self.2
    intro c hc
    obtain ⟨hne, hlt⟩ := hl c hc
    have hptr : ptr (c.1 + 8) ≠ ptr (a + total pre + 8) := ptr_ne hlt (by omega) (by omega)
    simpa using hptr
  have hpre := hkeep (spans a pre) <| by
    intro c hc
    have hlt := spans_lt (fun u hu => (hsized u (List.mem_append_left _ hu)).1) hc
    omega
  have hpost := hkeep (spans (a + total pre + s.size) post) <| by
    intro c hc
    have hlow := spans_bounds hc
    have hlt := spans_lt
      (fun u hu => (hsized u (List.mem_append_right _ (List.mem_cons_of_mem _ hu))).1) hc
    omega
  have hself : notFreed [ptr (a + total pre + 8)] [(a + total pre, s.size)] = [] := by
    simp [notFreed]
  have happend : ∀ l₁ l₂ : List (Nat × Nat), notFreed [ptr (a + total pre + 8)] (l₁ ++ l₂) =
      notFreed [ptr (a + total pre + 8)] l₁ ++ notFreed [ptr (a + total pre + 8)] l₂ :=
    fun l₁ l₂ => List.filter_append ..
  rw [spans_release, spans_append, spans, if_pos hbusy, happend, happend, hpre, hpost, hself,
    List.nil_append]

/-- After any number of `tfree`s the busy segments are those that have not been freed. -/
theorem Represents.freeAll (h : Represents A st live segs) {vps : List (BitVec 32)}
    (hnodup : vps.Nodup) (hlive : ∀ vp ∈ vps, ∃ b ∈ live, b.vp = vp) :
    ∃ live' segs', Represents A (freeAll st vps) live' segs' ∧
      spans A.base.toNat segs' = notFreed vps (spans A.base.toNat segs) := by
  induction vps generalizing st live segs with
  | nil =>
    refine ⟨live, segs, h, ?_⟩
    simp [notFreed]
  | cons vp vps ih =>
    obtain ⟨hnew, hrest⟩ := List.nodup_cons.1 hnodup
    obtain ⟨b, hb, rfl⟩ := hlive vp List.mem_cons_self
    have hend := A.fits
    obtain ⟨pre, s, post, rfl, howner, hvp⟩ := h.segment hb
    have hlength := h.laid.length
    have hstep := h.release howner hvp
    -- the others are still live
    have hothers : ∀ vp ∈ vps, ∃ c ∈ handBack live b.vp, c.vp = vp := by
      intro vp hmem
      obtain ⟨c, hc, rfl⟩ := hlive vp (List.mem_cons_of_mem _ hmem)
      have hne : c.vp ≠ b.vp := fun heq => hnew (heq ▸ hmem)
      exact ⟨c, List.mem_filter.2 ⟨hc, decide_eq_true hne⟩, rfl⟩
    obtain ⟨live', segs', hrep, hspans⟩ := ih hstep hrest hothers
    refine ⟨live', segs', hrep, ?_⟩
    rw [hspans, spans_release_notFreed h.laid.sized (by rw [howner]; rfl) (by omega), ← hvp,
      ← notFreed_cons]

/-- The same from a heap that may not be set up: then there is no block to free. -/
theorem Good.freeAll {s : Session} (h : Good A s) :
    ∃ segs, Represents A (ready A s.st) s.live segs ∧
      ∀ vps : List (BitVec 32), vps.Nodup → (∀ vp ∈ vps, ∃ b ∈ s.live, b.vp = vp) →
        ∃ live' segs', Represents A (ready A (Tmalloc.freeAll s.st vps)) live' segs' ∧
          spans A.base.toNat segs' = notFreed vps (spans A.base.toNat segs) := by
  obtain ⟨⟨segs, hrep⟩, hnone⟩ := h
  refine ⟨segs, hrep, fun vps hnodup hlive => ?_⟩
  by_cases hbot : s.st.bot = null
  · have hempty : vps = [] := by
      apply List.eq_nil_iff_forall_not_mem.2
      intro vp hvp
      obtain ⟨b, hb, -⟩ := hlive vp hvp
      rw [hnone hbot] at hb
      cases hb
    subst hempty
    exact ⟨s.live, segs, hrep, by simp [notFreed]⟩
  · rw [ready, if_neg hbot] at hrep
    obtain ⟨live', segs', hrep', hspans⟩ := hrep.freeAll hnodup hlive
    exact ⟨live', segs', by rw [hrep'.ready]; exact hrep', hspans⟩

/-- Heaps with the same busy segments have the same chunk list. -/
theorem Represents.chunks_eq {st' : State} {live' : List Block} {segs' : List (Segment Nat)}
    (h : Represents A (Tmalloc.ready A st) live segs)
    (h' : Represents A (Tmalloc.ready A st') live' segs')
    (hspans : spans A.base.toNat segs = spans A.base.toNat segs') {fuel : Nat}
    (hfuel : 8193 ≤ fuel) : st.chunks A fuel = st'.chunks A fuel := by
  rw [h.chunks hfuel, h'.chunks hfuel]
  congr 2
  exact shapes_of_spans (fun u hu => (h.laid.sized u hu).1) (fun u hu => (h'.laid.sized u hu).1)
    h.coalesced h'.coalesced (h.laid.length.trans h'.laid.length.symm) hspans

/-- A busy segment is a live block. -/
theorem Represents.span_live (h : Represents A st live segs) {c : Nat × Nat}
    (hc : c ∈ spans A.base.toNat segs) : ∃ b ∈ live, b.vp = ptr (c.1 + 8) := by
  obtain ⟨pre, s, post, rfl, howner, rfl⟩ := segment_of_span hc
  obtain ⟨n, hn⟩ := Option.isSome_iff_exists.1 howner
  exact ⟨_, h.mem_live hn, rfl⟩

/-- Live blocks are at different places. -/
theorem Represents.live_nodup (h : Represents A st live segs) : (live.map (·.vp)).Nodup := by
  rw [List.Nodup, List.pairwise_map]
  apply h.apart.imp_of_mem
  intro b c hb hc hapart heq
  obtain ⟨a, -, -, -, hlow, -, -, haddr⟩ := h.finish hb
  have hsame : b.finish st.mem = c.finish st.mem := by rw [Block.finish, heq, ← Block.finish]
  rw [← heq] at hapart
  omega

/-- The chunk list of a heap without blocks. -/
theorem chunks_init (A : Arena) (st : State) {fuel : Nat} (hfuel : 8193 ≤ fuel) :
    (init A st).chunks A fuel =
      some [(A.base, true), (A.base + chunkBytes * (arenaChunks - 1), false)] := by
  have hinit := represents_init A st
  have hready : Represents A (ready A (init A st)) [] [⟨65528, none⟩] := by
    rw [hinit.ready]
    exact hinit
  rw [hready.chunks hfuel, top_eq]
  show some [(ptr A.base.toNat, true), (ptr (A.base.toNat + 65528), false)] = _
  rw [← base_eq]

/-- In every heap that valid calls reach, two orders of freeing the same live blocks give the same
    chunk list, and freeing all of them gives the one that `init` makes. -/
theorem run_freeAll (A : Arena) (mem : Memory) {fuel : Nat} (hfuel : 8193 ≤ fuel)
    (calls : List Call) (hvalid : ValidRun A fuel (start mem) calls) :
    ∃ s, run A fuel (start mem) calls = some s ∧
      (∀ vps vps' : List (BitVec 32), vps.Nodup → (∀ vp ∈ vps, ∃ b ∈ s.live, b.vp = vp) →
        vps.Perm vps' → ∃ chunks, (freeAll s.st vps).chunks A fuel = some chunks ∧
          (freeAll s.st vps').chunks A fuel = some chunks) ∧
      ∀ vps : List (BitVec 32), vps.Perm (s.live.map (·.vp)) →
        (freeAll s.st vps).chunks A fuel = (init A s.st).chunks A fuel ∧
        (freeAll s.st vps).chunks A fuel =
          some [(A.base, true), (A.base + chunkBytes * (arenaChunks - 1), false)] := by
  obtain ⟨s, hrun, hgood, -⟩ := Good.run hfuel (good_start A mem) hvalid
  obtain ⟨segs, hrep, hfree⟩ := hgood.freeAll
  refine ⟨s, hrun, ?_, ?_⟩
  · intro vps vps' hnodup hlive hperm
    obtain ⟨_, segs₁, hrep₁, hspans₁⟩ := hfree vps hnodup hlive
    obtain ⟨_, segs₂, hrep₂, hspans₂⟩ := hfree vps' (hperm.nodup_iff.1 hnodup)
      fun vp hvp => hlive vp (hperm.mem_iff.2 hvp)
    refine ⟨_, hrep₁.chunks hfuel, ?_⟩
    rw [← hrep₁.chunks hfuel]
    -- which spans are left depends on the members of the list only
    apply hrep₂.chunks_eq hrep₁ _ hfuel
    rw [hspans₁, hspans₂]
    apply List.filter_congr
    intro c _
    exact decide_eq_decide.2 (not_congr hperm.symm.mem_iff)
  · intro vps hperm
    have hlive : ∀ vp ∈ vps, ∃ b ∈ s.live, b.vp = vp := by
      intro vp hvp
      exact List.mem_map.1 (hperm.mem_iff.1 hvp)
    obtain ⟨live', segs', hrep', hspans'⟩ :=
      hfree vps (hperm.nodup_iff.2 hrep.live_nodup) hlive
    have hinit := represents_init A s.st
    have hready : Represents A (ready A (init A s.st)) [] [⟨65528, none⟩] := by
      rw [hinit.ready]
      exact hinit
    have hnone : notFreed vps (spans A.base.toNat segs) = [] := by
      apply List.filter_eq_nil_iff.2
      intro c hc
      obtain ⟨b, hb, hvp⟩ := hrep.span_live hc
      have hmem : ptr (c.1 + 8) ∈ vps := by
        rw [hperm.mem_iff, ← hvp]
        exact List.mem_map_of_mem hb
      simpa using hmem
    have heq : (Tmalloc.freeAll s.st vps).chunks A fuel = (init A s.st).chunks A fuel :=
      hrep'.chunks_eq hready (hspans'.trans hnone) hfuel
    exact ⟨heq, heq.trans (chunks_init A s.st hfuel)⟩

/-- Two blocks next to each other. -/
def twoBlocks : List Call := [.tmalloc 8, .tmalloc 24]

theorem run_freeAll_twoBlocks :
    ValidRun page 8193 (start fun _ => 0) twoBlocks ∧
      ∃ s, run page 8193 (start fun _ => 0) twoBlocks = some s ∧
        ∀ vps : List (BitVec 32), vps.Perm (s.live.map (·.vp)) →
          (freeAll s.st vps).chunks page 8193 = some [(0x1000, true), (0x10ff8, false)] := by
  have hvalid : ValidRun page 8193 (start fun _ => 0) twoBlocks :=
    ⟨show (8 : BitVec 32).toNat + 15 < 2 ^ 32 by decide, fun _ _ =>
      ⟨show (24 : BitVec 32).toNat + 15 < 2 ^ 32 by decide, fun _ _ => trivial⟩⟩
  obtain ⟨s, hrun, -, hall⟩ :=
    run_freeAll page (fun _ => 0) (Nat.le_refl 8193) twoBlocks hvalid
  exact ⟨hvalid, s, hrun, fun vps hperm => (hall vps hperm).2⟩

end Tmalloc
