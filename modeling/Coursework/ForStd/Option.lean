/-!
# Option lemmas for the standard library

`List.mapM` with a function that may fail. Candidates for upstreaming to Lean's standard library.
-/

namespace List

variable {α β : Type} {f : α → Option β} {l : List α}

/-- If all elements succeed, so does the list. -/
theorem mapM_eq_some_map {g : α → β} (h : ∀ a ∈ l, f a = some (g a)) :
    l.mapM f = some (l.map g) := by
  induction l with
  | nil => rfl
  | cons a l ih =>
    rw [mapM_cons, h a mem_cons_self, ih fun b hb => h b (mem_cons_of_mem a hb)]
    rfl

theorem exists_mapM_eq_some (h : ∀ a ∈ l, ∃ b, f a = some b) :
    ∃ bs, l.mapM f = some bs ∧ bs.length = l.length := by
  induction l with
  | nil => exact ⟨[], rfl, rfl⟩
  | cons a l ih =>
    obtain ⟨b, hb⟩ := h a mem_cons_self
    obtain ⟨bs, hbs, hlen⟩ := ih fun a' ha' => h a' (mem_cons_of_mem a ha')
    refine ⟨b :: bs, ?_, congrArg (· + 1) hlen⟩
    rw [mapM_cons, hb, hbs]
    rfl

/-- If the list succeeds, so do all elements, and there are no other results. -/
theorem of_mapM_eq_some {bs : List β} (h : l.mapM f = some bs) :
    (∀ a ∈ l, ∃ b, f a = some b) ∧ ∀ b ∈ bs, ∃ a ∈ l, f a = some b := by
  induction l generalizing bs with
  | nil =>
    cases h
    exact ⟨nofun, nofun⟩
  | cons a l ih =>
    rw [mapM_cons] at h
    obtain ⟨b, hb, h⟩ := Option.bind_eq_some_iff.1 h
    obtain ⟨bs', hbs, heq⟩ := Option.bind_eq_some_iff.1 h
    cases heq
    -- the first element, then the others
    obtain ⟨hall, hmem⟩ := ih hbs
    apply And.intro
    · intro a' ha'
      cases ha' with
      | head => exact ⟨b, hb⟩
      | tail _ ha' => exact hall a' ha'
    · intro b' hb'
      cases hb' with
      | head => exact ⟨a, mem_cons_self, hb⟩
      | tail _ hb' =>
        obtain ⟨a', ha', hf⟩ := hmem b' hb'
        exact ⟨a', mem_cons_of_mem a ha', hf⟩

end List
