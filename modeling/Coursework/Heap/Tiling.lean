import Mathlib.Data.List.Chain

/-!
# Areas tiled by segments

An area is a list of segments from left to right, each free or owned. Granting takes the upper
part of a free segment; releasing makes a segment free and joins it with the free segments beside
it. Both keep the area tiled: its length, the unit of the sizes, and that no two neighbours are
free.

## Key results

- `Tiled.grant`, `Tiled.release`: the two operations keep the tiling
- `blocks_grant`, `blocks_release`: which blocks are owned after them
- `shapes_of_spans`: a coalesced area is known by where its owned segments are
-/

namespace Heap

variable {τ : Type*}

/-- A piece of an area: its length and, when it is not free, what it is for. -/
structure Segment (τ : Type*) where
  size : Nat
  owner : Option τ

/-- The length of an area. -/
def total : List (Segment τ) → Nat
  | [] => 0
  | s :: segs => s.size + total segs

/-- The owned segments of an area that starts at `a`, by the addresses where they start. -/
def blocks (a : Nat) : List (Segment τ) → List (Nat × τ)
  | [] => []
  | s :: segs => (s.owner.map fun t => (a, t)).toList ++ blocks (a + s.size) segs

/-- The addresses where the segments of an area start, and where the last one ends. -/
def bounds (a : Nat) : List (Segment τ) → List Nat
  | [] => [a]
  | s :: segs => a :: bounds (a + s.size) segs

/-- No two neighbours are free. -/
def Coalesced (segs : List (Segment τ)) : Prop :=
  segs.IsChain fun s t => s.owner.isSome ∨ t.owner.isSome

/-- The segments tile an area of this length, in multiples of `unit`. -/
structure Tiled (unit length : Nat) (segs : List (Segment τ)) : Prop where
  sizes : ∀ s ∈ segs, 0 < s.size ∧ unit ∣ s.size
  total : total segs = length
  coalesced : Coalesced segs

variable {unit length a : Nat} {s : Segment τ} {segs pre post : List (Segment τ)} {t : τ}

@[simp] theorem total_append (l₁ l₂ : List (Segment τ)) :
    total (l₁ ++ l₂) = total l₁ + total l₂ := by
  induction l₁ with
  | nil => simp [total]
  | cons s l₁ ih => simp [total, ih, Nat.add_assoc]

@[simp] theorem total_cons (s : Segment τ) (l : List (Segment τ)) :
    total (s :: l) = s.size + total l :=
  rfl

@[simp] theorem total_nil : total ([] : List (Segment τ)) = 0 := rfl

@[simp] theorem blocks_append (a : Nat) (l₁ l₂ : List (Segment τ)) :
    blocks a (l₁ ++ l₂) = blocks a l₁ ++ blocks (a + total l₁) l₂ := by
  induction l₁ generalizing a with
  | nil => simp [blocks]
  | cons s l₁ ih => simp [blocks, ih, Nat.add_assoc]

/-! ## Where blocks are -/

theorem blocks_bounds {b : Nat × τ} (hb : b ∈ blocks a segs) : a ≤ b.1 ∧ b.1 ≤ a + total segs := by
  induction segs generalizing a with
  | nil => cases hb
  | cons s segs ih =>
    rw [blocks, List.mem_append] at hb
    cases hb with
    | inl h =>
      cases howner : s.owner with
      | none => simp [howner] at h
      | some t =>
        rw [howner] at h
        obtain rfl : b = (a, t) := by simpa using h
        simp
    | inr h =>
      have := ih h
      rw [total_cons]
      omega

/-- A block is a segment of the area. -/
theorem exists_segment {b : Nat × τ} (hb : b ∈ blocks a segs) :
    ∃ pre s post, segs = pre ++ s :: post ∧ s.owner = some b.2 ∧ b.1 = a + total pre := by
  induction segs generalizing a with
  | nil => cases hb
  | cons s segs ih =>
    rw [blocks, List.mem_append] at hb
    cases hb with
    | inl h =>
      cases howner : s.owner with
      | none => simp [howner] at h
      | some t =>
        rw [howner] at h
        obtain rfl : b = (a, t) := by simpa using h
        exact ⟨[], s, segs, rfl, howner, rfl⟩
    | inr h =>
      obtain ⟨pre, u, post, rfl, howner, haddr⟩ := ih h
      exact ⟨s :: pre, u, post, rfl, howner, by rw [haddr, total_cons]; omega⟩

theorem blocks_lt (hpos : ∀ s ∈ segs, 0 < s.size) {b : Nat × τ} (hb : b ∈ blocks a segs) :
    b.1 < a + total segs := by
  obtain ⟨pre, s, post, rfl, -, haddr⟩ := exists_segment hb
  have hs := hpos s (List.mem_append_right _ List.mem_cons_self)
  rw [total_append, total_cons]
  omega

/-- A block ends before the next one starts. -/
theorem blocks_apart (sizeAt : Nat → Nat) (h : ∀ pre s post, segs = pre ++ s :: post →
    s.owner.isSome → sizeAt (a + total pre) = s.size) :
    (blocks a segs).Pairwise fun b c => b.1 + sizeAt b.1 ≤ c.1 := by
  induction segs generalizing a with
  | nil => exact List.Pairwise.nil
  | cons s segs ih =>
    have hrest : (blocks (a + s.size) segs).Pairwise fun b c => b.1 + sizeAt b.1 ≤ c.1 := by
      apply ih
      intro pre u post hsegs howner
      have := h (s :: pre) u post (by rw [hsegs]; rfl) howner
      rwa [total_cons, ← Nat.add_assoc] at this
    rw [blocks, List.pairwise_append]
    refine ⟨by cases s.owner <;> simp, hrest, ?_⟩
    intro b hb c hc
    obtain ⟨t, howner, rfl⟩ : ∃ t, s.owner = some t ∧ (a, t) = b := by simpa using hb
    have hsize : sizeAt a = s.size := h [] s segs rfl (by rw [howner]; rfl)
    have := blocks_bounds hc
    show a + sizeAt a ≤ c.1
    omega

theorem mem_bounds {x : Nat} : x ∈ bounds a segs ↔
    x = a + total segs ∨ ∃ pre s post, segs = pre ++ s :: post ∧ x = a + total pre := by
  induction segs generalizing a with
  | nil => simp [bounds]
  | cons s segs ih =>
    rw [bounds, List.mem_cons, ih, total_cons]
    constructor
    · intro h
      obtain h | h | ⟨pre, u, post, hsegs, hx⟩ := h
      · exact .inr ⟨[], s, segs, rfl, h⟩
      · exact .inl (by omega)
      · exact .inr ⟨s :: pre, u, post, by rw [hsegs]; rfl, by rw [hx, total_cons]; omega⟩
    · intro h
      obtain h | ⟨pre, u, post, hsegs, hx⟩ := h
      · exact .inr (.inl (by omega))
      · cases pre with
        | nil => exact .inl hx
        | cons v pre =>
          obtain ⟨rfl, htail⟩ := List.cons.inj hsegs
          exact .inr (.inr ⟨pre, u, post, htail, by rw [hx, total_cons]; omega⟩)

theorem head?_bounds (a : Nat) (segs : List (Segment τ)) : (bounds a segs).head? = some a := by
  cases segs <;> rfl

/-- What holds of every segment holds along the area. -/
theorem chain_bounds {R : Nat → Nat → Prop} (h : ∀ pre s post, segs = pre ++ s :: post →
    R (a + total pre) (a + total pre + s.size)) : (bounds a segs).IsChain R := by
  induction segs generalizing a with
  | nil => exact .singleton a
  | cons s segs ih =>
    have hrest : (bounds (a + s.size) segs).IsChain R := by
      apply ih
      intro pre u post hsegs
      have := h (s :: pre) u post (by rw [hsegs]; rfl)
      rwa [total_cons, ← Nat.add_assoc] at this
    refine hrest.cons ?_
    intro y hy
    rw [head?_bounds] at hy
    obtain rfl := Option.some.inj hy
    exact h [] s segs rfl

theorem getLast?_bounds (a : Nat) (segs : List (Segment τ)) :
    (bounds a segs).getLast? = some (a + total segs) := by
  induction segs generalizing a with
  | nil => rfl
  | cons s segs ih =>
    rw [bounds, List.getLast?_cons, ih, Option.getD_some, total_cons, Nat.add_assoc]

/-- A free segment and an owned one are apart. -/
theorem segments_apart {pre' post' : List (Segment τ)} {s' : Segment τ}
    (h : pre ++ s :: post = pre' ++ s' :: post') (hfree : s.owner = none)
    (hbusy : s'.owner.isSome) :
    total pre + s.size ≤ total pre' ∨ total pre' + s'.size ≤ total pre := by
  have hne : s ≠ s' := by
    intro heq
    rw [← heq, hfree] at hbusy
    cases hbusy
  cases List.append_eq_append_iff.1 h with
  | inl hafter =>
    obtain ⟨mid, rfl, hmid⟩ := hafter
    cases mid with
    | nil => exact absurd (List.cons.inj hmid).1 hne
    | cons u mid =>
      rw [← (List.cons.inj hmid).1, total_append, total_cons]
      omega
  | inr hbefore =>
    obtain ⟨mid, rfl, hmid⟩ := hbefore
    cases mid with
    | nil => exact absurd (List.cons.inj hmid).1.symm hne
    | cons u mid =>
      rw [← (List.cons.inj hmid).1, total_append, total_cons]
      omega

/-- Where the first free segment of an area that starts at `a` ends. -/
def firstFreeEnd (a : Nat) : List (Segment τ) → Option Nat
  | [] => none
  | ⟨size, none⟩ :: _ => some (a + size)
  | ⟨size, some _⟩ :: segs => firstFreeEnd (a + size) segs

theorem firstFreeEnd_append (howned : ∀ u ∈ pre, u.owner ≠ none) (hfree : s.owner = none) (a : Nat)
    (post : List (Segment τ)) :
    firstFreeEnd a (pre ++ s :: post) = some (a + total pre + s.size) := by
  induction pre generalizing a with
  | nil =>
    obtain ⟨size, owner⟩ := s
    cases hfree
    rfl
  | cons u pre ih =>
    have hrest := ih fun v hv => howned v (List.mem_cons_of_mem u hv)
    obtain ⟨size, owner⟩ := u
    cases owner with
    | none => exact absurd rfl (howned ⟨size, none⟩ List.mem_cons_self)
    | some t => rw [List.cons_append, firstFreeEnd, hrest, total_cons, Nat.add_assoc a]

/-! ## Granting -/

/-- A free segment after its upper `size` bytes have been given to `t`. -/
def Segment.grant (s : Segment τ) (size : Nat) (t : τ) : List (Segment τ) :=
  if size < s.size then [⟨s.size - size, none⟩, ⟨size, some t⟩] else [⟨s.size, some t⟩]

theorem total_grant (size : Nat) : total (s.grant size t) = s.size := by
  unfold Segment.grant
  split
  · simp only [total_cons, total_nil]
    omega
  · rfl

theorem blocks_grant {size : Nat} (hfits : size ≤ s.size) (a : Nat) :
    blocks a (s.grant size t) = [(a + (s.size - size), t)] := by
  unfold Segment.grant
  split
  · rfl
  · rw [show s.size - size = 0 by omega]
    rfl

theorem grant_sizes {size : Nat} (hs : 0 < s.size ∧ unit ∣ s.size) (hpos : 0 < size)
    (hunit : unit ∣ size) {u : Segment τ} (hu : u ∈ s.grant size t) :
    0 < u.size ∧ unit ∣ u.size := by
  unfold Segment.grant at hu
  split at hu
  · next hlt =>
    rw [List.mem_pair] at hu
    cases hu with
    | inl h => rw [h]; exact ⟨Nat.sub_pos_of_lt hlt, Nat.dvd_sub hs.2 hunit⟩
    | inr h => rw [h]; exact ⟨hpos, hunit⟩
  · rw [List.mem_singleton.1 hu]
    exact hs

/-- What stands on both sides of a segment of a coalesced area. -/
theorem coalesced_middle : Coalesced (pre ++ s :: post) ↔
    Coalesced pre ∧ Coalesced post ∧ (∀ u ∈ pre.getLast?, u.owner.isSome ∨ s.owner.isSome) ∧
      ∀ v ∈ post.head?, s.owner.isSome ∨ v.owner.isSome := by
  rw [Coalesced, List.isChain_append, List.isChain_cons, List.head?_cons]
  constructor
  · intro h
    obtain ⟨hpre, ⟨hright, hpost⟩, hleft⟩ := h
    exact ⟨hpre, hpost, fun u hu => hleft u hu s rfl, hright⟩
  · intro h
    obtain ⟨hpre, hpost, hleft, hright⟩ := h
    refine ⟨hpre, ⟨hright, hpost⟩, ?_⟩
    intro u hu v hv
    obtain rfl : s = v := Option.some.inj hv
    exact hleft u hu

theorem Tiled.grant {size : Nat} (h : Tiled unit length (pre ++ s :: post)) (hfree : s.owner = none)
    (hpos : 0 < size) (hunit : unit ∣ size) (t : τ) :
    Tiled unit length (pre ++ (s.grant size t ++ post)) := by
  obtain ⟨hsizes, htotal, hcoalesced⟩ := h
  have hs := hsizes s (List.mem_append_right pre List.mem_cons_self)
  obtain ⟨hpre, hpost, hleft, -⟩ := coalesced_middle.1 hcoalesced
  -- the neighbours of a free segment are owned
  have hbusy : ∀ u ∈ pre.getLast?, u.owner.isSome := by
    intro u hu
    cases hleft u hu with
    | inl h => exact h
    | inr h => rw [hfree] at h; cases h
  constructor
  · intro u hu
    rw [List.mem_append, List.mem_append] at hu
    obtain h | h | h := hu
    · exact hsizes u (List.mem_append_left _ h)
    · exact grant_sizes hs hpos hunit h
    · exact hsizes u (List.mem_append_right _ (List.mem_cons_of_mem _ h))
  · rw [total_append, total_append, total_grant]
    simpa using htotal
  · unfold Segment.grant
    split
    · rw [List.cons_append, coalesced_middle, List.cons_append, List.nil_append]
      refine ⟨hpre, ?_, fun u hu => .inl (hbusy u hu), ?_⟩
      · rw [Coalesced, List.isChain_cons]
        exact ⟨fun _ _ => .inl rfl, hpost⟩
      · intro v hv
        obtain rfl := Option.some.inj hv
        exact .inr rfl
    · rw [List.cons_append, List.nil_append, coalesced_middle]
      exact ⟨hpre, hpost, fun _ _ => .inr rfl, fun _ _ => .inl rfl⟩

/-! ## Releasing -/

/-- The length of the free segment at the end of a list, 0 if there is none. -/
def lastFree (pre : List (Segment τ)) : Nat :=
  match pre.getLast? with
  | some u => if u.owner.isNone then u.size else 0
  | none => 0

/-- The list without the free segment at its end. -/
def dropLastFree (pre : List (Segment τ)) : List (Segment τ) :=
  match pre.getLast? with
  | some u => if u.owner.isNone then pre.dropLast else pre
  | none => pre

/-- The length of the free segment at the front of a list, 0 if there is none. -/
def headFree (post : List (Segment τ)) : Nat :=
  match post with
  | v :: _ => if v.owner.isNone then v.size else 0
  | [] => 0

/-- The list without the free segment at its front. -/
def dropHeadFree (post : List (Segment τ)) : List (Segment τ) :=
  match post with
  | v :: post' => if v.owner.isNone then post' else v :: post'
  | [] => []

/-- The area after the segment between `pre` and `post` has been made free and joined. -/
def release (pre : List (Segment τ)) (s : Segment τ) (post : List (Segment τ)) : List (Segment τ) :=
  dropLastFree pre ++ ⟨lastFree pre + s.size + headFree post, none⟩ :: dropHeadFree post

/-- A list ends in a free segment or it does not. -/
theorem dropLastFree_cases (pre : List (Segment τ)) :
    (∃ pre' size, pre = pre' ++ [⟨size, none⟩] ∧ dropLastFree pre = pre' ∧ lastFree pre = size) ∨
    (dropLastFree pre = pre ∧ lastFree pre = 0 ∧ ∀ u ∈ pre.getLast?, u.owner.isSome) := by
  cases List.eq_nil_or_concat pre with
  | inl h =>
    subst h
    exact .inr ⟨rfl, rfl, fun u hu => by cases hu⟩
  | inr h =>
    obtain ⟨pre', ⟨size, owner⟩, rfl⟩ := h
    rw [List.concat_eq_append]
    cases owner with
    | none => exact .inl ⟨pre', size, rfl, by simp [dropLastFree], by simp [lastFree]⟩
    | some t => exact .inr ⟨by simp [dropLastFree], by simp [lastFree], by simp⟩

theorem dropHeadFree_cases (post : List (Segment τ)) :
    (∃ post' size, post = ⟨size, none⟩ :: post' ∧ dropHeadFree post = post' ∧
      headFree post = size) ∨
    (dropHeadFree post = post ∧ headFree post = 0 ∧ ∀ v ∈ post.head?, v.owner.isSome) := by
  cases post with
  | nil => exact .inr ⟨rfl, rfl, fun v hv => by cases hv⟩
  | cons v post =>
    obtain ⟨size, owner⟩ := v
    cases owner with
    | none => exact .inl ⟨post, size, rfl, rfl, rfl⟩
    | some t => exact .inr ⟨rfl, rfl, by simp⟩

theorem total_dropLastFree (pre : List (Segment τ)) :
    total (dropLastFree pre) + lastFree pre = total pre := by
  obtain ⟨pre', size, rfl, hdrop, hlast⟩ | ⟨hdrop, hlast, -⟩ := dropLastFree_cases pre
  · rw [hdrop, hlast]
    simp
  · rw [hdrop, hlast, Nat.add_zero]

theorem total_dropHeadFree (post : List (Segment τ)) :
    headFree post + total (dropHeadFree post) = total post := by
  obtain ⟨post', size, rfl, hdrop, hhead⟩ | ⟨hdrop, hhead, -⟩ := dropHeadFree_cases post
  · rw [hdrop, hhead, total_cons]
  · rw [hdrop, hhead, Nat.zero_add]

theorem blocks_dropLastFree (a : Nat) (pre : List (Segment τ)) :
    blocks a (dropLastFree pre) = blocks a pre := by
  obtain ⟨pre', size, rfl, hdrop, -⟩ | ⟨hdrop, -, -⟩ := dropLastFree_cases pre
  · rw [hdrop, blocks_append]
    simp [blocks]
  · rw [hdrop]

theorem blocks_dropHeadFree (a : Nat) (post : List (Segment τ)) :
    blocks (a + headFree post) (dropHeadFree post) = blocks a post := by
  obtain ⟨post', size, rfl, hdrop, hhead⟩ | ⟨hdrop, hhead, -⟩ := dropHeadFree_cases post
  · rw [hdrop, hhead]
    rfl
  · rw [hdrop, hhead, Nat.add_zero]

/-- The other blocks stay. -/
theorem blocks_release (a : Nat) (pre : List (Segment τ)) (s : Segment τ)
    (post : List (Segment τ)) :
    blocks a (release pre s post) = blocks a pre ++ blocks (a + total pre + s.size) post := by
  have htotal := total_dropLastFree pre
  rw [release, blocks_append, blocks_dropLastFree, blocks,
    ← blocks_dropHeadFree (a + total pre + s.size) post, Option.map_none, Option.toList_none,
    List.nil_append]
  congr 2
  show a + total (dropLastFree pre) + (lastFree pre + s.size + headFree post) = _
  omega

theorem Tiled.release (h : Tiled unit length (pre ++ s :: post)) :
    Tiled unit length (release pre s post) := by
  obtain ⟨hsizes, htotal, hcoalesced⟩ := h
  obtain ⟨hpre, hpost, -, -⟩ := coalesced_middle.1 hcoalesced
  have hs := hsizes s (List.mem_append_right pre List.mem_cons_self)
  have hsizesPre : ∀ u ∈ pre, 0 < u.size ∧ unit ∣ u.size :=
    fun u hu => hsizes u (List.mem_append_left _ hu)
  have hsizesPost : ∀ u ∈ post, 0 < u.size ∧ unit ∣ u.size :=
    fun u hu => hsizes u (List.mem_append_right _ (List.mem_cons_of_mem _ hu))
  -- what `pre` contributes: either its last segment is free and goes into the new one, or it stays
  have hleft : (∀ u ∈ dropLastFree pre, u ∈ pre) ∧ unit ∣ lastFree pre ∧
      Coalesced (dropLastFree pre) ∧ ∀ u ∈ (dropLastFree pre).getLast?, u.owner.isSome := by
    obtain ⟨pre', size, rfl, hdrop, hlast⟩ | ⟨hdrop, hlast, hbusy⟩ := dropLastFree_cases pre
    · obtain ⟨hpre', -, hbusy, -⟩ := coalesced_middle.1 hpre
      rw [hdrop, hlast]
      refine ⟨fun u hu => List.mem_append_left _ hu,
        (hsizesPre _ (List.mem_append_right _ (List.mem_singleton_self _))).2, hpre', ?_⟩
      intro u hu
      simpa using hbusy u hu
    · rw [hdrop, hlast]
      exact ⟨fun u hu => hu, Nat.dvd_zero _, hpre, hbusy⟩
  -- the same on the other side
  have hright : (∀ v ∈ dropHeadFree post, v ∈ post) ∧ unit ∣ headFree post ∧
      Coalesced (dropHeadFree post) ∧ ∀ v ∈ (dropHeadFree post).head?, v.owner.isSome := by
    obtain ⟨post', size, rfl, hdrop, hhead⟩ | ⟨hdrop, hhead, hbusy⟩ := dropHeadFree_cases post
    · rw [Coalesced, List.isChain_cons] at hpost
      rw [hdrop, hhead]
      refine ⟨fun v hv => List.mem_cons_of_mem _ hv, (hsizesPost _ List.mem_cons_self).2,
        hpost.2, ?_⟩
      intro v hv
      simpa using hpost.1 v hv
    · rw [hdrop, hhead]
      exact ⟨fun v hv => hv, Nat.dvd_zero _, hpost, hbusy⟩
  constructor
  · intro u hu
    rw [Heap.release, List.mem_append, List.mem_cons] at hu
    obtain h | h | h := hu
    · exact hsizesPre u (hleft.1 u h)
    · rw [h]
      exact ⟨by have := hs.1; show 0 < lastFree pre + s.size + headFree post; omega,
        Nat.dvd_add (Nat.dvd_add hleft.2.1 hs.2) hright.2.1⟩
    · exact hsizesPost u (hright.1 u h)
  · have h₁ := total_dropLastFree pre
    have h₂ := total_dropHeadFree post
    rw [total_append, total_cons] at htotal
    rw [Heap.release, total_append, total_cons]
    show Heap.total (dropLastFree pre) + (lastFree pre + s.size + headFree post + _) = length
    omega
  · rw [Heap.release, coalesced_middle]
    exact ⟨hleft.2.2.1, hright.2.2.1, fun u hu => .inl (hleft.2.2.2 u hu),
      fun v hv => .inr (hright.2.2.2 v hv)⟩

/-! ## A coalesced area is known by its owned segments -/

/-- Where the owned segments of an area that starts at `a` are, and how long. -/
def spans (a : Nat) : List (Segment τ) → List (Nat × Nat)
  | [] => []
  | s :: segs => (if s.owner.isSome then [(a, s.size)] else []) ++ spans (a + s.size) segs

/-- The size of a segment, and whether it is free. -/
def Segment.shape (s : Segment τ) : Nat × Bool := (s.size, s.owner.isNone)

theorem spans_append (a : Nat) (l₁ l₂ : List (Segment τ)) :
    spans a (l₁ ++ l₂) = spans a l₁ ++ spans (a + total l₁) l₂ := by
  induction l₁ generalizing a with
  | nil => rfl
  | cons s l₁ ih => simp [spans, ih, Nat.add_assoc]

/-- A span is an owned segment of the area. -/
theorem segment_of_span {c : Nat × Nat} (hc : c ∈ spans a segs) :
    ∃ pre s post, segs = pre ++ s :: post ∧ s.owner.isSome ∧ c = (a + total pre, s.size) := by
  induction segs generalizing a with
  | nil => cases hc
  | cons s segs ih =>
    rw [spans, List.mem_append] at hc
    cases hc with
    | inl h =>
      split at h
      · next howner => exact ⟨[], s, segs, rfl, howner, List.mem_singleton.1 h⟩
      · cases h
    | inr h =>
      obtain ⟨pre, u, post, rfl, howner, rfl⟩ := ih h
      exact ⟨s :: pre, u, post, rfl, howner, by rw [total_cons, Nat.add_assoc]⟩

theorem spans_bounds {c : Nat × Nat} (hc : c ∈ spans a segs) :
    a ≤ c.1 ∧ c.1 + c.2 ≤ a + total segs := by
  obtain ⟨pre, s, post, rfl, -, rfl⟩ := segment_of_span hc
  rw [total_append, total_cons]
  omega

theorem spans_lt (hpos : ∀ s ∈ segs, 0 < s.size) {c : Nat × Nat} (hc : c ∈ spans a segs) :
    c.1 < a + total segs := by
  obtain ⟨pre, s, post, rfl, -, rfl⟩ := segment_of_span hc
  have hs := hpos s (List.mem_append_right _ List.mem_cons_self)
  rw [total_append, total_cons]
  omega

theorem spans_dropLastFree (a : Nat) (pre : List (Segment τ)) :
    spans a (dropLastFree pre) = spans a pre := by
  obtain ⟨pre', size, rfl, hdrop, -⟩ | ⟨hdrop, -, -⟩ := dropLastFree_cases pre
  · rw [hdrop, spans_append]
    simp [spans]
  · rw [hdrop]

theorem spans_dropHeadFree (a : Nat) (post : List (Segment τ)) :
    spans (a + headFree post) (dropHeadFree post) = spans a post := by
  obtain ⟨post', size, rfl, hdrop, hhead⟩ | ⟨hdrop, hhead, -⟩ := dropHeadFree_cases post
  · rw [hdrop, hhead]
    rfl
  · rw [hdrop, hhead, Nat.add_zero]

/-- Releasing takes one segment away and moves no other. -/
theorem spans_release (a : Nat) (pre : List (Segment τ)) (s : Segment τ)
    (post : List (Segment τ)) :
    spans a (release pre s post) = spans a pre ++ spans (a + total pre + s.size) post := by
  have htotal := total_dropLastFree pre
  rw [release, spans_append, spans_dropLastFree, spans,
    ← spans_dropHeadFree (a + total pre + s.size) post]
  congr 1
  show spans (a + total (dropLastFree pre) + (lastFree pre + s.size + headFree post)) _ = _
  congr 1
  omega

/-- After a free segment the next one, if there is one, is owned; so its span says where the free
    one ends. -/
theorem Coalesced.free_size {l₁ l₂ : List (Segment τ)} {s₁ s₂ : Segment τ}
    (h₁ : Coalesced (s₁ :: l₁)) (h₂ : Coalesced (s₂ :: l₂)) (hfree₁ : s₁.owner = none)
    (hfree₂ : s₂.owner = none) (htotal : s₁.size + total l₁ = s₂.size + total l₂)
    (hspans : spans (a + s₁.size) l₁ = spans (a + s₂.size) l₂) : s₁.size = s₂.size := by
  rw [Coalesced, List.isChain_cons] at h₁ h₂
  have hbusy : ∀ {s : Segment τ} {l : List (Segment τ)}, s.owner = none →
      (∀ u ∈ l.head?, s.owner.isSome ∨ u.owner.isSome) →
      ∀ u l', l = u :: l' → u.owner.isSome := by
    intro s l hfree hnext u l' hl
    have hor := hnext u (by rw [hl]; rfl)
    rw [hfree] at hor
    simpa using hor
  cases l₁ with
  | nil =>
    cases l₂ with
    | nil => simpa using htotal
    | cons u₂ l₂ =>
      rw [spans, spans, if_pos (hbusy hfree₂ h₂.1 u₂ l₂ rfl)] at hspans
      cases hspans
  | cons u₁ l₁ =>
    rw [spans, if_pos (hbusy hfree₁ h₁.1 u₁ l₁ rfl)] at hspans
    cases l₂ with
    | nil => cases hspans
    | cons u₂ l₂ =>
      rw [spans, if_pos (hbusy hfree₂ h₂.1 u₂ l₂ rfl)] at hspans
      have hhead := (List.cons.inj hspans).1
      have hstart : a + s₁.size = a + s₂.size := congrArg Prod.fst hhead
      omega

theorem shapes_of_spans {l₁ l₂ : List (Segment τ)} (hpos₁ : ∀ s ∈ l₁, 0 < s.size)
    (hpos₂ : ∀ s ∈ l₂, 0 < s.size) (h₁ : Coalesced l₁) (h₂ : Coalesced l₂)
    (htotal : total l₁ = total l₂) (hspans : spans a l₁ = spans a l₂) :
    l₁.map Segment.shape = l₂.map Segment.shape := by
  induction l₁ generalizing a l₂ with
  | nil =>
    cases l₂ with
    | nil => rfl
    | cons s₂ l₂ =>
      have hpos := hpos₂ s₂ List.mem_cons_self
      rw [total_nil, total_cons] at htotal
      omega
  | cons s₁ l₁ ih =>
    have hs₁ := hpos₁ s₁ List.mem_cons_self
    cases l₂ with
    | nil =>
      rw [total_nil, total_cons] at htotal
      omega
    | cons s₂ l₂ =>
      have hs₂ := hpos₂ s₂ List.mem_cons_self
      rw [total_cons, total_cons] at htotal
      -- the first segments have one shape, and then the others do
      have hfirst : s₁.shape = s₂.shape ∧ spans (a + s₁.size) l₁ = spans (a + s₂.size) l₂ := by
        rw [spans, spans] at hspans
        cases howner₁ : s₁.owner with
        | some t₁ =>
          rw [howner₁] at hspans
          cases howner₂ : s₂.owner with
          | some t₂ =>
            rw [howner₂] at hspans
            obtain ⟨hhead, htail⟩ := List.cons.inj hspans
            have hsize : s₁.size = s₂.size := congrArg Prod.snd hhead
            exact ⟨by rw [Segment.shape, Segment.shape, howner₁, howner₂, hsize]; rfl, htail⟩
          | none =>
            rw [howner₂] at hspans
            have hmem : (a, s₁.size) ∈ spans (a + s₂.size) l₂ := by
              have hlist : (a, s₁.size) :: spans (a + s₁.size) l₁ = spans (a + s₂.size) l₂ := hspans
              rw [← hlist]
              exact List.mem_cons_self
            have hle : a + s₂.size ≤ a := (spans_bounds hmem).1
            omega
        | none =>
          rw [howner₁] at hspans
          cases howner₂ : s₂.owner with
          | some t₂ =>
            rw [howner₂] at hspans
            have hmem : (a, s₂.size) ∈ spans (a + s₁.size) l₁ := by
              have hlist : spans (a + s₁.size) l₁ = (a, s₂.size) :: spans (a + s₂.size) l₂ := hspans
              rw [hlist]
              exact List.mem_cons_self
            have hle : a + s₁.size ≤ a := (spans_bounds hmem).1
            omega
          | none =>
            rw [howner₂] at hspans
            have htail : spans (a + s₁.size) l₁ = spans (a + s₂.size) l₂ := hspans
            have hsize := h₁.free_size h₂ howner₁ howner₂ htotal htail
            exact ⟨by rw [Segment.shape, Segment.shape, howner₁, howner₂, hsize], htail⟩
      obtain ⟨hshape, htail⟩ := hfirst
      have hsize : s₁.size = s₂.size := congrArg Prod.fst hshape
      rw [hsize] at htail htotal
      have h₁' := (List.isChain_cons.1 h₁).2
      have h₂' := (List.isChain_cons.1 h₂).2
      rw [List.map_cons, List.map_cons, hshape]
      congr 1
      exact ih (fun u hu => hpos₁ u (List.mem_cons_of_mem _ hu))
        (fun u hu => hpos₂ u (List.mem_cons_of_mem _ hu)) h₁' h₂' (by omega) htail

end Heap
