import Coursework.CacheSim.Cache
import Coursework.Lru.Recency
import Mathlib.Data.List.Perm.Subperm

/-!
# The cache is an LRU cache

A history records for every access the set and the tag it asked for and whether it hit.
The recency list of a set comes from that history alone. `SetOk` says how the ways of a set
encode it; `access` preserves it, so every set of a cache that has been used since `reset`
is the set of an LRU cache.

## Key results

- `getIndex_toNat` / `getTag_toNat`: what the shifts of an address compute
- `SetOk.access`: one access, in its own set
- `run_lru`: any sequence of accesses from `reset`
-/

namespace CacheSim

namespace Cache

variable {c : Cache}

/-! ## Addresses -/

/-- The geometries the shifts are meant for. -/
structure Geometry (numSets assoc blockSize : Nat) : Prop where
  sets : ∃ n, numSets = 2 ^ n
  block : ∃ n, blockSize = 2 ^ n
  two_le : 2 ≤ numSets
  bits : numSets * blockSize < 2 ^ 32
  ways : 1 ≤ assoc

/-- The set of an address is its block number modulo the number of sets. -/
theorem getIndex_toNat (hg : Geometry c.numSets c.assoc c.blockSize) (addr : BitVec 32) :
    (c.getIndex addr).toNat = addr.toNat / c.blockSize % c.numSets := by
  obtain ⟨s, hs⟩ := hg.sets
  obtain ⟨b, hb⟩ := hg.block
  have hs32 : s ≤ 32 := by
    have hlt : 2 ^ s < 2 ^ 32 := by
      calc 2 ^ s ≤ 2 ^ s * 2 ^ b := Nat.le_mul_of_pos_right _ (Nat.two_pow_pos b)
        _ < 2 ^ 32 := by rw [← hs, ← hb]; exact hg.bits
    exact Nat.le_of_lt ((Nat.pow_lt_pow_iff_right (by omega)).mp hlt)
  have hpow : 2 ^ 32 = 2 ^ s * 2 ^ (32 - s) := by rw [← Nat.pow_add]; congr 1; omega
  simp only [getIndex, Cache.b, Cache.s, hs, hb, Nat.log2_two_pow, BitVec.toNat_ushiftRight,
    BitVec.toNat_shiftLeft, Nat.shiftRight_eq_div_pow, Nat.shiftLeft_eq]
  rw [hpow, Nat.mul_mod_mul_right, Nat.mul_div_cancel _ (Nat.two_pow_pos _)]

/-- The tag of an address is its block number divided by the number of sets. -/
theorem getTag_toNat_of_two_pow (hsets : ∃ n, c.numSets = 2 ^ n) (hblock : ∃ n, c.blockSize = 2 ^ n)
    (addr : BitVec 32) : (c.getTag addr).toNat = addr.toNat / c.blockSize / c.numSets := by
  obtain ⟨s, hs⟩ := hsets
  obtain ⟨b, hb⟩ := hblock
  simp only [getTag, Cache.b, Cache.s, hs, hb, Nat.log2_two_pow, BitVec.toNat_ushiftRight,
    Nat.shiftRight_eq_div_pow, Nat.pow_add, Nat.div_div_eq_div_mul]

theorem getTag_toNat (hg : Geometry c.numSets c.assoc c.blockSize) (addr : BitVec 32) :
    (c.getTag addr).toNat = addr.toNat / c.blockSize / c.numSets :=
  getTag_toNat_of_two_pow hg.sets hg.block addr

theorem setOf_eq (hg : Geometry c.numSets c.assoc c.blockSize) (addr : BitVec 32) :
    c.setOf addr = (c.getIndex addr).toNat := by
  rw [setOf, if_neg (by have := hg.two_le; omega)]

/-! ## Histories -/

/-- One call of `access`. -/
structure Access where
  addr : BitVec 32
  load : Bool
  deriving DecidableEq, Repr

/-- What a call of `access` asked for, and whether it hit. -/
structure Event where
  index : Nat
  tag : BitVec 32
  load : Bool
  hit : Bool
  deriving DecidableEq, Repr

def next (c : Cache) (a : Access) : Cache := (c.access a.addr a.load).2

def event (c : Cache) (a : Access) : Event :=
  ⟨c.setOf a.addr, c.getTag a.addr, a.load, (c.access a.addr a.load).1⟩

def run (c : Cache) (accesses : List Access) : Cache := accesses.foldl next c

/-- What happened during `run`, oldest first. -/
def history (c : Cache) : List Access → List Event
  | [] => []
  | a :: accesses => c.event a :: (c.next a).history accesses

/-- The access brought its block into the cache. -/
def Event.allocates (writeAlloc : Bool) (e : Event) : Bool :=
  !e.hit && (e.load || writeAlloc)

/-- The tags of the accesses that hit or allocated in set `index`. -/
def usedTags (writeAlloc : Bool) (index : Nat) (events : List Event) : List (BitVec 32) :=
  (events.filter fun e => e.index == index && (e.hit || e.allocates writeAlloc)).map (·.tag)

/-- Whether `tag` has been stored to in set `index` since its block was brought in. -/
def storedSince (writeAlloc : Bool) (index : Nat) (tag : BitVec 32) (events : List Event) : Bool :=
  events.foldl (fun stored e =>
    if e.index == index && e.tag == tag then
      if e.allocates writeAlloc then !e.load else stored || (e.hit && !e.load)
    else stored) false

/-- The tags that an LRU cache holds in set `index`, the most recently used first. -/
def lruTags (writeAlloc : Bool) (assoc index : Nat) (events : List Event) : List (BitVec 32) :=
  (Lru.recent (usedTags writeAlloc index events)).take assoc

/-! ## The ways after an access -/

/-- What `hit` leaves in the way that was hit. -/
theorem hit_self (ways : Nat → Way) (i : Nat) (load : Bool) :
    c.hit ways i load i =
      { ways i with
        dirty := (ways i).dirty || !load
        lru := if c.keepsLru then 0 else (ways i).lru } := by
  cases load <;> cases hk : c.keepsLru <;> simp [hit, hk]

/-- What `hit` leaves in the other ways. -/
theorem hit_other (ways : Nat → Way) {i j : Nat} (hji : j ≠ i) (load : Bool) :
    c.hit ways i load j =
      if c.keepsLru && (ways j).valid && decide ((ways j).lru < (ways i).lru) then
        { ways j with lru := (ways j).lru + 1 }
      else ways j := by
  cases load <;> cases hk : c.keepsLru <;> simp [hit, hk, hji, and_comm]

/-- What `fill` leaves in the way it fills. -/
theorem fill_self (ways : Nat → Way) (i : Nat) (tag : BitVec 32) (load : Bool) :
    c.fill ways i tag load i =
      ⟨tag, true, (ways i).dirty || !load, if c.keepsLru then 0 else (ways i).lru⟩ := by
  cases load <;> cases hk : c.keepsLru <;> simp [fill, hk]

/-- What `fill` leaves in the other ways. -/
theorem fill_other (ways : Nat → Way) {i j : Nat} (hji : j ≠ i) (tag : BitVec 32) (load : Bool) :
    c.fill ways i tag load j =
      if c.keepsLru && (ways j).valid then { ways j with lru := (ways j).lru + 1 } else ways j := by
  cases load <;> cases hk : c.keepsLru <;> simp [fill, hk, hji]

/-! ## One set -/

/-- The ways of a set hold the tags of the recency list `r`: the valid ways come first, their
    numbers are the positions in `r`, and a way is dirty when its tag is `stored`. -/
structure Encodes (assoc : Nat) (ways : Nat → Way) (r : List (BitVec 32))
    (stored : BitVec 32 → Bool) : Prop where
  length_le : r.length ≤ assoc
  nodup : r.Nodup
  valid : ∀ i < assoc, (ways i).valid = decide (i < r.length)
  ranked : Lru.Ranked r (fun i => (ways i).tag) (fun i => (ways i).lru)
  dirty : ∀ i < r.length, (ways i).dirty = stored (ways i).tag
  clean : ∀ i, r.length ≤ i → i < assoc → (ways i).dirty = false
  /-- A cache with one way does not keep the numbers, and does not need to. -/
  single : assoc = 1 → (ways 0).lru = 0

namespace Encodes

variable {ways : Nat → Way} {r : List (BitVec 32)} {stored : BitVec 32 → Bool}
  {tag : BitVec 32} {i index : Nat}

theorem findTag_some (h : Encodes c.assoc ways r stored) (hf : c.findTag ways tag = some i) :
    i < r.length ∧ (ways i).tag = tag := by
  have hp := List.find?_some hf
  have hi := List.mem_range.mp (List.mem_of_find?_eq_some hf)
  simp only [Bool.and_eq_true, beq_iff_eq, h.valid i hi, decide_eq_true_eq] at hp
  exact ⟨hp.2, hp.1.symm⟩

theorem findTag_none (h : Encodes c.assoc ways r stored) (hf : c.findTag ways tag = none) :
    tag ∉ r := by
  intro hmem
  obtain ⟨i, hi, htag⟩ := h.ranked.mem_iff.mp hmem
  have hia := hi.trans_le h.length_le
  have hno := List.find?_eq_none.mp hf i (List.mem_range.mpr hia)
  simp [htag, h.valid i hia, hi] at hno

/-- The first empty way follows the valid ones. -/
theorem findEmpty_some (h : Encodes c.assoc ways r stored) (hf : c.findEmpty ways = some i) :
    i = r.length ∧ r.length < c.assoc := by
  have hi := List.mem_range.mp (List.mem_of_find?_eq_some hf)
  have hge : r.length ≤ i := by
    have hp := List.find?_some hf
    simp only [h.valid i hi, Bool.not_eq_true', decide_eq_false_iff_not] at hp
    omega
  have hle : ¬ r.length < i := by
    intro hlt
    have hno := (List.find?_range_eq_some.mp hf).2.2 r.length hlt
    rw [h.valid _ (hlt.trans hi)] at hno
    simp at hno
  omega

theorem findEmpty_none (h : Encodes c.assoc ways r stored) (hf : c.findEmpty ways = none) :
    r.length = c.assoc := by
  by_contra hne
  have hlt : r.length < c.assoc := lt_of_le_of_ne h.length_le hne
  have hno := List.find?_eq_none.mp hf r.length (List.mem_range.mpr hlt)
  rw [h.valid _ hlt] at hno
  simp at hno

theorem keepsLru_iff (hrand : c.randReplacement = false) : c.keepsLru = true ↔ 1 < c.assoc := by
  simp [keepsLru, hrand]

theorem hit (h : Encodes c.assoc ways r stored) (hrand : c.randReplacement = false)
    (hi : i < r.length) (load : Bool) {stored' : BitVec 32 → Bool}
    (hself : stored' (ways i).tag = (stored (ways i).tag || !load))
    (hother : ∀ t ≠ (ways i).tag, stored' t = stored t) :
    Encodes c.assoc (c.hit ways i load) (Lru.touch r (ways i).tag) stored' := by
  have hle := h.length_le
  have hlen : (Lru.touch r (ways i).tag).length = r.length := by
    have hmem : (ways i).tag ∈ r := h.ranked.mem_iff.mpr ⟨i, hi, rfl⟩
    rw [Lru.touch, List.length_cons, List.length_erase_of_mem hmem]
    have := List.length_pos_of_mem hmem
    omega
  have htag : ∀ j, (c.hit ways i load j).tag = (ways j).tag := by
    intro j
    by_cases hji : j = i
    · rw [hji, hit_self]
    · rw [hit_other ways hji]; split <;> rfl
  have hdirty : ∀ j ≠ i, (c.hit ways i load j).dirty = (ways j).dirty := by
    intro j hji
    rw [hit_other ways hji]
    split <;> rfl
  refine ⟨by omega, Lru.nodup_touch h.nodup _, ?valid, ?ranked, ?dirty, ?clean, ?single⟩
  case valid =>
    intro j hj
    rw [hlen, ← h.valid j hj]
    by_cases hji : j = i
    · rw [hji, hit_self]
    · rw [hit_other ways hji]; split <;> rfl
  case ranked =>
    have hkeys : (fun j => (c.hit ways i load j).tag) = fun j => (ways j).tag := funext htag
    rw [hkeys]
    apply h.ranked.promote h.nodup hi
    · rw [hit_self]
      by_cases hk : 1 < c.assoc
      · simp [(keepsLru_iff hrand).mpr hk]
      · -- the only way of the set
        have h1 : c.assoc = 1 := by omega
        have h0 : i = 0 := by omega
        simp [h0, h.single h1]
    · intro j hj hji
      have hk : c.keepsLru = true := (keepsLru_iff hrand).mpr (by omega)
      rw [hit_other ways hji, hk, h.valid j (by omega)]
      by_cases hlt : (ways j).lru < (ways i).lru <;> simp [hj, hlt]
  case dirty =>
    intro j hj
    rw [hlen] at hj
    rw [htag]
    by_cases hji : j = i
    · rw [hji, hit_self, hself, h.dirty i hi]
    · rw [hdirty j hji, hother _ fun heq => hji (h.ranked.key_inj h.nodup hj hi heq)]
      exact h.dirty j hj
  case clean =>
    intro j hj hja
    rw [hdirty j (by omega)]
    exact h.clean j (by omega) hja
  case single =>
    intro h1
    have h0 : i = 0 := by omega
    rw [h0, hit_self]
    simp [h.single h1]

theorem fill (h : Encodes c.assoc ways r stored) (hrand : c.randReplacement = false)
    (hroom : r.length < c.assoc) (hnew : tag ∉ r) (load : Bool) {stored' : BitVec 32 → Bool}
    (hself : stored' tag = !load) (hother : ∀ t ≠ tag, stored' t = stored t) :
    Encodes c.assoc (c.fill ways r.length tag load) (tag :: r) stored' := by
  -- the ways in use before the fill are those below `r.length`, and each of them ages by one
  have hold : ∀ j < r.length, c.fill ways r.length tag load j =
      { ways j with lru := (ways j).lru + 1 } := by
    intro j hj
    have hk : c.keepsLru = true := (keepsLru_iff hrand).mpr (by omega)
    rw [fill_other ways (by omega), hk, h.valid j (by omega)]
    simp [hj]
  refine ⟨by rw [List.length_cons]; omega, List.nodup_cons.mpr ⟨hnew, h.nodup⟩, ?valid, ?ranked,
    ?dirty, ?clean, ?single⟩
  case valid =>
    intro j hj
    rw [List.length_cons]
    by_cases hjr : j = r.length
    · rw [hjr, fill_self]
      simp
    · rw [fill_other ways hjr, show decide (j < r.length + 1) = decide (j < r.length) from by
        rw [decide_eq_decide]; omega, ← h.valid j hj]
      split <;> rfl
  case ranked =>
    apply h.ranked.push
    · rw [fill_self]
    · rw [fill_self]
      -- with one way the number is not written, but it was 0 already
      by_cases hk : 1 < c.assoc
      · simp [(keepsLru_iff hrand).mpr hk]
      · have h0 : r.length = 0 := by omega
        simp [h0, h.single (by omega)]
    · intro j hj
      rw [hold j hj]
      exact ⟨rfl, rfl⟩
  case dirty =>
    intro j hj
    rw [List.length_cons] at hj
    by_cases hjr : j = r.length
    · rw [hjr, fill_self, h.clean r.length (by omega) hroom, hself, Bool.false_or]
    · have hj' : j < r.length := by omega
      rw [hold j hj']
      -- another way holds another tag, whose block the fill does not touch
      have hne : (ways j).tag ≠ tag := fun heq => hnew (h.ranked.mem_iff.mpr ⟨j, hj', heq⟩)
      exact (h.dirty j hj').trans (hother _ hne).symm
  case clean =>
    intro j hj hja
    rw [List.length_cons] at hj
    rw [fill_other ways (by omega), h.valid j hja]
    simp only [show ¬ j < r.length from by omega, decide_false, Bool.and_false,
      Bool.false_eq_true, if_false]
    exact h.clean j (by omega) hja
  case single =>
    intro h1
    have h0 : r.length = 0 := by omega
    rw [h0, fill_self]
    simp [h.single h1]

/-- What `evict` leaves in a set. -/
theorem evict_way (h : Encodes c.assoc (c.sets index) r stored) (hrand : c.randReplacement = false)
    {j : Nat} (hj : j < c.assoc) (tag : BitVec 32) (load : Bool) :
    (c.evict index tag load).sets index j =
      if (c.sets index j).lru + 1 = c.assoc then ⟨tag, true, !load, 0⟩
      else { c.sets index j with lru := (c.sets index j).lru + 1 } := by
  by_cases h1 : c.assoc = 1
  · have h0 : j = 0 := by omega
    subst h0
    simp [evict, h1, setWays, replace, h.single h1]
  · simp [evict, h1, hrand, setWays, replaceLru, hj]

theorem evict (h : Encodes c.assoc (c.sets index) r stored)
    (hrand : c.randReplacement = false) (hways : 1 ≤ c.assoc) (hfull : r.length = c.assoc)
    (hnew : tag ∉ r) (load : Bool) {stored' : BitVec 32 → Bool} (hself : stored' tag = !load)
    (hother : ∀ t ≠ tag, stored' t = stored t) :
    Encodes c.assoc ((c.evict index tag load).sets index) (tag :: r.dropLast) stored' := by
  have hlen : (tag :: r.dropLast).length = c.assoc := by
    rw [List.length_cons, List.length_dropLast]
    omega
  -- the way with the highest number is the one replaced; every other way ages by one
  have hlast : ∀ j < c.assoc, (c.sets index j).lru + 1 = c.assoc →
      (c.evict index tag load).sets index j = ⟨tag, true, !load, 0⟩ := by
    intro j hj hl
    rw [evict_way h hrand hj, if_pos hl]
  have hkeep : ∀ j < c.assoc, (c.sets index j).lru + 1 ≠ c.assoc →
      (c.evict index tag load).sets index j =
        { c.sets index j with lru := (c.sets index j).lru + 1 } := by
    intro j hj hl
    rw [evict_way h hrand hj, if_neg hl]
  refine ⟨by omega, ?nodup, ?valid, ?ranked, ?dirty, ?clean, ?single⟩
  case nodup =>
    rw [List.nodup_cons]
    exact ⟨fun hmem => hnew (List.mem_of_mem_dropLast hmem), h.nodup.sublist r.dropLast_sublist⟩
  case valid =>
    intro j hj
    rw [hlen, evict_way h hrand hj]
    split
    · simp [hj]
    · show (c.sets index j).valid = _
      rw [h.valid j hj, hfull]
  case ranked =>
    apply h.ranked.replace (by omega)
    · intro j hj hl
      rw [hfull] at hj hl
      rw [hlast j hj hl]
      exact ⟨rfl, rfl⟩
    · intro j hj hl
      rw [hfull] at hj hl
      rw [hkeep j hj hl]
      exact ⟨rfl, rfl⟩
  case dirty =>
    intro j hj
    rw [hlen] at hj
    by_cases hl : (c.sets index j).lru + 1 = c.assoc
    · rw [hlast j hj hl]
      exact hself.symm
    · rw [hkeep j hj hl]
      have hne : (c.sets index j).tag ≠ tag := fun heq =>
        hnew (h.ranked.mem_iff.mpr ⟨j, by omega, heq⟩)
      exact (h.dirty j (by omega)).trans (hother _ hne).symm
  case clean =>
    -- the set is full, so there is no way beyond those in use
    intro j hj hja
    omega
  case single =>
    intro h1
    rw [hlast 0 (by omega) (by rw [h.single h1]; omega)]

end Encodes

/-! ## Any sequence of accesses -/

theorem usedTags_concat {writeAlloc : Bool} {index : Nat} {e : Event} (events : List Event)
    (hidx : e.index = index) (hused : (e.hit || e.allocates writeAlloc) = true) :
    usedTags writeAlloc index (events ++ [e]) = usedTags writeAlloc index events ++ [e.tag] := by
  simp [usedTags, List.filter_append, hidx, hused]

theorem usedTags_concat_of_not {writeAlloc : Bool} {index : Nat} {e : Event} (events : List Event)
    (hnot : e.index ≠ index ∨ (e.hit || e.allocates writeAlloc) = false) :
    usedTags writeAlloc index (events ++ [e]) = usedTags writeAlloc index events := by
  have hf : (e.index == index && (e.hit || e.allocates writeAlloc)) = false := by
    cases hnot with
    | inl hidx => simp [hidx]
    | inr hused => simp [hused]
  simp [usedTags, List.filter_append, hf]

theorem storedSince_concat (writeAlloc : Bool) (index : Nat) (tag : BitVec 32)
    (events : List Event) (e : Event) :
    storedSince writeAlloc index tag (events ++ [e]) =
      if e.index == index && e.tag == tag then
        if e.allocates writeAlloc then !e.load
        else storedSince writeAlloc index tag events || (e.hit && !e.load)
      else storedSince writeAlloc index tag events := by
  simp [storedSince]

/-- Set `index` is the set of an LRU cache with this history. -/
def SetOk (c : Cache) (events : List Event) (index : Nat) : Prop :=
  Encodes c.assoc (c.sets index) (lruTags c.writeAlloc c.assoc index events)
    (fun t => storedSince c.writeAlloc index t events)

/-- What `access` cannot change. -/
theorem next_config (c : Cache) (a : Access) :
    (c.next a).numSets = c.numSets ∧ (c.next a).assoc = c.assoc ∧
    (c.next a).blockSize = c.blockSize ∧ (c.next a).randReplacement = c.randReplacement ∧
    (c.next a).writeAlloc = c.writeAlloc := by
  simp only [next, access]
  split
  · exact ⟨rfl, rfl, rfl, rfl, rfl⟩
  · split
    · split
      · exact ⟨rfl, rfl, rfl, rfl, rfl⟩
      · simp only [evict]
        split
        · exact ⟨rfl, rfl, rfl, rfl, rfl⟩
        · split <;> exact ⟨rfl, rfl, rfl, rfl, rfl⟩
    · exact ⟨rfl, rfl, rfl, rfl, rfl⟩

theorem next_other {a : Access} {index : Nat} (hidx : index ≠ c.setOf a.addr) :
    (c.next a).sets index = c.sets index := by
  simp only [next, access]
  split
  · simp [setWays, hidx]
  · split
    · split
      · simp [setWays, hidx]
      · simp only [evict]
        split
        · simp [setWays, hidx]
        · split <;> simp [setWays, hidx]
    · rfl

namespace SetOk

variable {events : List Event} {a : Access}

/-- The recency list after an access that brings its block in. -/
theorem lruTags_allocate {index : Nat} {e : Event}
    (hidx : e.index = index) (halloc : e.allocates c.writeAlloc = true)
    (hnew : e.tag ∉ lruTags c.writeAlloc c.assoc index events) :
    lruTags c.writeAlloc c.assoc index (events ++ [e]) =
      (e.tag :: lruTags c.writeAlloc c.assoc index events).take c.assoc := by
  rw [lruTags, usedTags_concat events hidx (by simp [halloc]), Lru.recent_concat]
  exact Lru.take_touch_of_notMem hnew

/-- An access in its own set. -/
theorem access (hrand : c.randReplacement = false) (hways : 1 ≤ c.assoc)
    (h : SetOk c events (c.setOf a.addr)) :
    Encodes c.assoc ((c.next a).sets (c.setOf a.addr))
      (lruTags c.writeAlloc c.assoc (c.setOf a.addr) (events ++ [c.event a]))
      (fun t => storedSince c.writeAlloc (c.setOf a.addr) t (events ++ [c.event a])) := by
  have hother : ∀ t ≠ c.getTag a.addr,
      storedSince c.writeAlloc (c.setOf a.addr) t (events ++ [c.event a]) =
        storedSince c.writeAlloc (c.setOf a.addr) t events := by
    intro t ht
    rw [storedSince_concat]
    simp [event, ht.symm]
  cases hf : c.findTag (c.sets (c.setOf a.addr)) (c.getTag a.addr) with
  | some i =>
    obtain ⟨hi, htag⟩ := Encodes.findTag_some h hf
    have hevent : c.event a = ⟨c.setOf a.addr, c.getTag a.addr, a.load, true⟩ := by
      simp only [event, Cache.access, hf]
    have hnext : (c.next a).sets (c.setOf a.addr) =
        c.hit (c.sets (c.setOf a.addr)) i a.load := by
      simp only [next, Cache.access, hf, setWays, Function.update_self]
    have hlist : lruTags c.writeAlloc c.assoc (c.setOf a.addr) (events ++ [c.event a]) =
        Lru.touch (lruTags c.writeAlloc c.assoc (c.setOf a.addr) events) (c.getTag a.addr) := by
      rw [lruTags, usedTags_concat events (by rw [hevent]) (by rw [hevent]; rfl),
        Lru.recent_concat, hevent]
      exact Lru.take_touch_of_mem (h.ranked.mem_iff.mpr ⟨i, hi, htag⟩)
    rw [hnext, hlist, ← htag]
    apply h.hit hrand hi
    · rw [htag, storedSince_concat, hevent]
      simp [Event.allocates]
    · rw [htag]
      exact hother
  | none =>
    have hnew := Encodes.findTag_none h hf
    by_cases halloc : (a.load || c.writeAlloc) = true
    · -- a miss that brings the block in
      have hevent : c.event a = ⟨c.setOf a.addr, c.getTag a.addr, a.load, false⟩ := by
        simp only [event, Cache.access, hf, halloc, if_true]
        split <;> rfl
      have hallocates : (c.event a).allocates c.writeAlloc = true := by
        rw [hevent]
        exact halloc
      have hself : storedSince c.writeAlloc (c.setOf a.addr) (c.getTag a.addr)
          (events ++ [c.event a]) = !a.load := by
        rw [storedSince_concat, hallocates, hevent]
        simp
      rw [lruTags_allocate (by rw [hevent]) hallocates (by rw [hevent]; exact hnew)]
      cases he : c.findEmpty (c.sets (c.setOf a.addr)) with
      | some i =>
        obtain ⟨hi, hroom⟩ := Encodes.findEmpty_some h he
        have hnext : (c.next a).sets (c.setOf a.addr) =
            c.fill (c.sets (c.setOf a.addr)) i (c.getTag a.addr) a.load := by
          simp only [next, Cache.access, hf, halloc, if_true, he, setWays, Function.update_self]
        rw [hnext, hi, List.take_of_length_le (by rw [List.length_cons]; omega), hevent]
        rw [hevent] at hself hother
        exact h.fill hrand hroom hnew a.load hself hother
      | none =>
        have hfull := Encodes.findEmpty_none h he
        have hnext : (c.next a).sets (c.setOf a.addr) =
            (c.evict (c.setOf a.addr) (c.getTag a.addr) a.load).sets (c.setOf a.addr) := by
          simp only [next, Cache.access, hf, halloc, if_true, he]
        obtain ⟨n, hn⟩ : ∃ n, c.assoc = n + 1 := ⟨c.assoc - 1, by omega⟩
        rw [hnext]
        have hdrop : ((c.event a).tag :: lruTags c.writeAlloc c.assoc (c.setOf a.addr) events).take
            c.assoc = c.getTag a.addr ::
              (lruTags c.writeAlloc c.assoc (c.setOf a.addr) events).dropLast := by
          rw [List.dropLast_eq_take, hfull, hn, List.take_succ_cons, Nat.add_sub_cancel, hevent]
        rw [hdrop]
        exact h.evict hrand hways hfull hnew a.load hself hother
    · -- a store that misses without write-allocate
      have hstate : c.next a = c := by
        simp only [next, Cache.access, hf, halloc, Bool.false_eq_true, if_false]
      have hevent : c.event a = ⟨c.setOf a.addr, c.getTag a.addr, a.load, false⟩ := by
        simp only [event, Cache.access, hf, halloc, Bool.false_eq_true, if_false]
      have hallocates : (c.event a).allocates c.writeAlloc = false := by
        rw [hevent]
        simpa [Event.allocates] using halloc
      have hstored : ∀ t, storedSince c.writeAlloc (c.setOf a.addr) t (events ++ [c.event a]) =
          storedSince c.writeAlloc (c.setOf a.addr) t events := by
        intro t
        rw [storedSince_concat, hallocates, hevent]
        simp
      rw [hstate, lruTags, usedTags_concat_of_not events (Or.inr (by rw [hallocates, hevent]; rfl))]
      simp only [hstored]
      exact h

/-- An access in any set. -/
theorem next (hrand : c.randReplacement = false) (hways : 1 ≤ c.assoc) {index : Nat}
    (h : SetOk c events index) : SetOk (c.next a) (events ++ [c.event a]) index := by
  obtain ⟨-, hassoc, -, -, halloc⟩ := next_config c a
  rw [SetOk, hassoc, halloc]
  by_cases hidx : index = c.setOf a.addr
  · subst hidx
    exact access hrand hways h
  · have hne : (c.event a).index ≠ index := fun heq => hidx heq.symm
    rw [next_other hidx, lruTags, usedTags_concat_of_not events (Or.inl hne)]
    simp only [storedSince_concat, beq_eq_false_iff_ne.mpr hne, Bool.false_and,
      Bool.false_eq_true, if_false]
    exact h

end SetOk

/-- The valid ways of a set. -/
def validWays (c : Cache) (index : Nat) : List Way :=
  ((List.range c.assoc).map (c.sets index)).filter (·.valid)

/-- Set `index` holds what an LRU cache would hold after these events. -/
structure LruSet (c : Cache) (events : List Event) (index : Nat) : Prop where
  distinct : ∀ i < c.assoc, ∀ j < c.assoc, (c.sets index i).valid = true →
    (c.sets index j).valid = true → (c.sets index i).tag = (c.sets index j).tag → i = j
  numbers : 1 < c.assoc → List.Perm ((c.validWays index).map (·.lru))
    (List.range (c.validWays index).length)
  ordered : 1 < c.assoc → ∀ i < c.assoc, (c.sets index i).valid = true →
    (Lru.recent (usedTags c.writeAlloc index events))[(c.sets index i).lru]? =
      some (c.sets index i).tag
  contents : ∀ t, (∃ i < c.assoc, (c.sets index i).valid = true ∧ (c.sets index i).tag = t) ↔
    t ∈ (Lru.recent (usedTags c.writeAlloc index events)).take c.assoc
  count : (c.validWays index).length =
    min c.assoc (usedTags c.writeAlloc index events).toFinset.card
  dirty : ∀ i < c.assoc, (c.sets index i).valid = true →
    ((c.sets index i).dirty = true ↔
      storedSince c.writeAlloc index (c.sets index i).tag events = true)

namespace Encodes

variable {r : List (BitVec 32)} {stored : BitVec 32 → Bool} {index : Nat}

theorem valid_iff {assoc i : Nat} {ways : Nat → Way} (h : Encodes assoc ways r stored)
    (hi : i < assoc) : (ways i).valid = true ↔ i < r.length := by
  rw [h.valid i hi, decide_eq_true_eq]

theorem validWays_eq (h : Encodes c.assoc (c.sets index) r stored) :
    c.validWays index = (List.range r.length).map (c.sets index) := by
  have hsplit : List.range c.assoc =
      List.range r.length ++ (List.range (c.assoc - r.length)).map (r.length + ·) := by
    rw [← List.range_add, Nat.add_sub_cancel' h.length_le]
  rw [validWays, hsplit, List.map_append, List.filter_append, List.filter_eq_self.mpr,
    List.filter_eq_nil_iff.mpr, List.append_nil]
  · intro w hw
    simp only [List.mem_map, List.mem_range] at hw
    obtain ⟨-, ⟨i, hi, rfl⟩, rfl⟩ := hw
    rw [h.valid _ (by omega)]
    simp
  · intro w hw
    simp only [List.mem_map, List.mem_range] at hw
    obtain ⟨i, hi, rfl⟩ := hw
    exact (h.valid_iff (hi.trans_le h.length_le)).mpr hi

end Encodes

theorem SetOk.lruSet {events : List Event} {index : Nat} (h : SetOk c events index) :
    LruSet c events index := by
  refine ⟨?distinct, ?numbers, ?ordered, ?contents, ?count, ?dirty⟩
  case distinct =>
    intro i hi j hj hvi hvj htag
    exact h.ranked.key_inj h.nodup ((h.valid_iff hi).mp hvi) ((h.valid_iff hj).mp hvj) htag
  case numbers =>
    intro _
    rw [h.validWays_eq, List.map_map, List.length_map, List.length_range]
    -- distinct numbers below the count, as many as there are: a permutation of them
    apply List.Subperm.perm_of_length_le
    · apply List.subperm_of_subset
      · rw [List.nodup_map_iff_inj_on List.nodup_range]
        intro i hi j hj heq
        exact h.ranked.inj i (List.mem_range.mp hi) j (List.mem_range.mp hj) heq
      · intro n hn
        obtain ⟨i, hi, rfl⟩ := List.mem_map.mp hn
        exact List.mem_range.mpr (h.ranked.rank_lt (List.mem_range.mp hi))
    · simp
  case ordered =>
    intro _ i hi hv
    have hget := h.ranked.get i ((h.valid_iff hi).mp hv)
    rwa [lruTags, List.getElem?_take, if_pos] at hget
    exact (h.ranked.rank_lt ((h.valid_iff hi).mp hv)).trans_le h.length_le
  case contents =>
    intro t
    show _ ↔ t ∈ lruTags c.writeAlloc c.assoc index events
    -- the valid ways are an initial segment, so a way with the tag is a valid one
    rw [h.ranked.mem_iff]
    constructor
    · intro ⟨i, hi, hv, htag⟩
      exact ⟨i, (h.valid_iff hi).mp hv, htag⟩
    · intro ⟨i, hi, htag⟩
      have hia := hi.trans_le h.length_le
      exact ⟨i, hia, (h.valid_iff hia).mpr hi, htag⟩
  case count =>
    rw [h.validWays_eq, List.length_map, List.length_range, lruTags, List.length_take,
      Lru.length_recent]
  case dirty =>
    intro i hi hv
    rw [h.dirty i ((h.valid_iff hi).mp hv)]

theorem run_concat (c : Cache) (accesses : List Access) (a : Access) :
    c.run (accesses ++ [a]) = (c.run accesses).next a := by
  simp [run]

theorem history_concat (c : Cache) (accesses : List Access) (a : Access) :
    c.history (accesses ++ [a]) = c.history accesses ++ [(c.run accesses).event a] := by
  induction accesses generalizing c with
  | nil => rfl
  | cons b accesses ih => simp [history, run, ih]

/-- After `reset` every set is empty. -/
theorem setOk_reset (c : Cache) (index : Nat) : SetOk c.reset [] index := by
  have hlist : lruTags c.reset.writeAlloc c.reset.assoc index [] = [] := by
    simp [lruTags, usedTags]
  rw [SetOk, hlist]
  refine ⟨Nat.zero_le _, List.nodup_nil, ?_, ?_, ?_, ?_, ?_⟩
  · intro i _
    rfl
  · exact ⟨fun i hi => absurd hi (Nat.not_lt_zero i), fun i hi => absurd hi (Nat.not_lt_zero i)⟩
  · intro i hi
    exact absurd hi (Nat.not_lt_zero i)
  · intro i _ _
    rfl
  · intro _
    rfl

theorem run_config (c : Cache) (accesses : List Access) :
    (c.run accesses).numSets = c.numSets ∧ (c.run accesses).assoc = c.assoc ∧
    (c.run accesses).blockSize = c.blockSize ∧
    (c.run accesses).randReplacement = c.randReplacement ∧
    (c.run accesses).writeAlloc = c.writeAlloc := by
  induction accesses using List.reverseRecOn with
  | nil => exact ⟨rfl, rfl, rfl, rfl, rfl⟩
  | append_singleton accesses a ih =>
    rw [run_concat]
    obtain ⟨h1, h2, h3, h4, h5⟩ := next_config (c.run accesses) a
    obtain ⟨i1, i2, i3, i4, i5⟩ := ih
    exact ⟨h1.trans i1, h2.trans i2, h3.trans i3, h4.trans i4, h5.trans i5⟩

theorem setOk_run (hrand : c.randReplacement = false) (hways : 1 ≤ c.assoc)
    (accesses : List Access) (index : Nat) :
    SetOk (c.reset.run accesses) (c.reset.history accesses) index := by
  induction accesses using List.reverseRecOn with
  | nil => exact setOk_reset c index
  | append_singleton accesses a ih =>
    obtain ⟨-, hassoc, -, hr, -⟩ := run_config c.reset accesses
    rw [run_concat, history_concat]
    exact ih.next (hr.trans hrand) (by rw [hassoc]; exact hways)

/-- A cache with LRU replacement, after any sequence of accesses from `reset`: every set is
    the set of an LRU cache, an access hits exactly when its tag is in the set of its address,
    and a store that misses changes nothing unless the cache allocates on writes. -/
theorem run_lru (c : Cache) (hg : Geometry c.numSets c.assoc c.blockSize)
    (hrand : c.randReplacement = false) (accesses : List Access) :
    (∀ index < c.numSets, LruSet (c.reset.run accesses) (c.reset.history accesses) index) ∧
    ∀ addr load,
      let c' := c.reset.run accesses
      let index := addr.toNat / c.blockSize % c.numSets
      (c'.setOf addr = index ∧ (c'.getTag addr).toNat = addr.toNat / c.blockSize / c.numSets) ∧
      ((c'.access addr load).1 = true ↔
        ∃ i < c.assoc, (c'.sets index i).valid = true ∧ (c'.sets index i).tag = c'.getTag addr) ∧
      ((c'.access addr load).1 = false → load = false → c.writeAlloc = false →
        (c'.access addr load).2 = c') := by
  have hok := setOk_run hrand hg.ways accesses
  refine ⟨fun index _ => (hok index).lruSet, ?_⟩
  intro addr load c' index
  -- accesses leave the geometry alone, so the run keeps that of `c`
  obtain ⟨hsets, hassoc, hblock, hr, halloc⟩ := run_config c.reset accesses
  have hg' : Geometry c'.numSets c'.assoc c'.blockSize := by
    rw [hsets, hassoc, hblock]
    exact hg
  have hset : c'.setOf addr = index := by
    rw [setOf_eq hg', getIndex_toNat hg', hsets, hblock]
    rfl
  have htag : (c'.getTag addr).toNat = addr.toNat / c.blockSize / c.numSets := by
    rw [getTag_toNat hg', hsets, hblock]
    rfl
  refine ⟨⟨hset, htag⟩, ?_, ?_⟩
  · rw [← hset]
    -- a lookup finds the tag exactly when it is among the recent ones of the set
    cases hf : c'.findTag (c'.sets (c'.setOf addr)) (c'.getTag addr) with
    | some i =>
      obtain ⟨hi, hit⟩ := Encodes.findTag_some (hok (c'.setOf addr)) hf
      have hia := hi.trans_le (hok (c'.setOf addr)).length_le
      have hhit : (c'.access addr load).1 = true := by simp only [access, hf]
      rw [hhit, eq_self, true_iff]
      exact ⟨i, hia.trans_eq hassoc, ((hok _).valid_iff hia).mpr hi, hit⟩
    | none =>
      have hnew := Encodes.findTag_none (hok (c'.setOf addr)) hf
      have hmiss : (c'.access addr load).1 = false := by
        simp only [access, hf]
        split
        · split <;> rfl
        · rfl
      rw [hmiss]
      constructor
      · intro h
        cases h
      · intro ⟨i, hi, hv, hit⟩
        refine absurd ((hok (c'.setOf addr)).ranked.mem_iff.mpr ⟨i, ?_, hit⟩) hnew
        exact ((hok (c'.setOf addr)).valid_iff (hi.trans_eq hassoc.symm)).mp hv
  · intro hmiss hload hwa
    subst hload
    -- a store that misses without write allocation goes past the cache
    have hwa' : c'.writeAlloc = false := halloc.trans hwa
    cases hf : c'.findTag (c'.sets (c'.setOf addr)) (c'.getTag addr) with
    | some i => simp [access, hf] at hmiss
    | none => simp [access, hf, hwa']

/-- The L2 cache of the simulator has 1024 sets of 8 ways with 32 bytes each. -/
theorem run_lru_storeAfterLoad :
    LruSet ((new 1024 8 32 false true false fun _ => 0).reset.run [⟨0x40, true⟩, ⟨0x40, false⟩])
      ((new 1024 8 32 false true false fun _ => 0).reset.history [⟨0x40, true⟩, ⟨0x40, false⟩])
      2 :=
  (run_lru (new 1024 8 32 false true false fun _ => 0)
    ⟨⟨10, rfl⟩, ⟨5, rfl⟩, by decide, by decide, by decide⟩ rfl
    [⟨0x40, true⟩, ⟨0x40, false⟩]).1 2 (by decide)

end Cache

end CacheSim
