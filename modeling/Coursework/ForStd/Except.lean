/-!
# Except lemmas for the standard library

Inversion of `do` blocks over `Except`, and invariants of `List.foldlM`. Candidates for
upstreaming to Lean's standard library.
-/

namespace Except

variable {ε α β : Type}

/-- A `do` block returns iff its first action returns and so does the rest. -/
theorem bind_eq_ok {x : Except ε α} {f : α → Except ε β} {b : β} :
    (x >>= f) = .ok b ↔ ∃ a, x = .ok a ∧ f a = .ok b := by
  cases x <;> simp [bind, Except.bind]

/-- What every action preserves, a loop over a list preserves. -/
theorem foldlM_invariant {f : β → α → Except ε β} {R : β → β → Prop} (hrefl : ∀ b, R b b)
    (htrans : ∀ {a b c}, R a b → R b c → R a c)
    (hstep : ∀ {b a b'}, f b a = .ok b' → R b b') :
    ∀ {l : List α} {b b' : β}, l.foldlM f b = .ok b' → R b b' := by
  intro l
  induction l with
  | nil =>
    intro b b' h
    obtain rfl : b = b' := by simpa [pure, Except.pure] using h
    exact hrefl b
  | cons a l ih =>
    intro b b' h
    rw [List.foldlM_cons, bind_eq_ok] at h
    obtain ⟨b₁, h₁, h⟩ := h
    exact htrans (hstep h₁) (ih h)

/-- An error that no action raises, a loop over a list does not raise. -/
theorem foldlM_ne_error {f : β → α → Except ε β} {e : ε} (hstep : ∀ b a, f b a ≠ .error e)
    (l : List α) (b : β) : l.foldlM f b ≠ .error e := by
  induction l generalizing b with
  | nil => exact nofun
  | cons a l ih =>
    rw [List.foldlM_cons]
    cases ha : f b a with
    | error e' =>
      intro h
      obtain rfl := Except.error.inj h
      exact hstep b a ha
    | ok b' => exact ih b'

/-- A loop over a list returns iff each action does, where an invariant of the loop says when an
    action returns; and then the invariant holds at the end. -/
theorem foldlM_isOk_iff {f : β → α → Except ε β} {Inv : β → Prop} {cond : α → Prop} :
    ∀ {l : List α}, (∀ b, ∀ a ∈ l, Inv b → ((∃ b', f b a = .ok b') ↔ cond a)) →
    (∀ b, ∀ a ∈ l, Inv b → ∀ b', f b a = .ok b' → Inv b') →
    ∀ b, Inv b → ((∃ b', l.foldlM f b = .ok b') ↔ ∀ a ∈ l, cond a) ∧
      ∀ b', l.foldlM f b = .ok b' → Inv b' := by
  intro l
  induction l with
  | nil =>
    intro _ _ b hb
    refine ⟨iff_of_true ⟨b, rfl⟩ nofun, ?_⟩
    intro b' h
    obtain rfl : b = b' := by simpa [pure, Except.pure] using h
    exact hb
  | cons a l ih =>
    intro hok hinv b hb
    have ha := hok b a (by simp) hb
    have hrest := ih (fun b c hc => hok b c (by simp [hc])) (fun b c hc => hinv b c (by simp [hc]))
    simp only [List.foldlM_cons, bind_eq_ok]
    refine ⟨⟨?_, ?_⟩, ?_⟩
    · rintro ⟨b', b₁, h₁, h⟩ c hc
      cases hc with
      | head => exact ha.mp ⟨b₁, h₁⟩
      | tail _ hc => exact (hrest b₁ (hinv b a (by simp) hb b₁ h₁)).1.mp ⟨b', h⟩ c hc
    · intro hall
      obtain ⟨b₁, h₁⟩ := ha.mpr (hall a (by simp))
      obtain ⟨b', h⟩ := (hrest b₁ (hinv b a (by simp) hb b₁ h₁)).1.mpr
        fun c hc => hall c (by simp [hc])
      exact ⟨b', b₁, h₁, h⟩
    · rintro b' ⟨b₁, h₁, h⟩
      exact (hrest b₁ (hinv b a (by simp) hb b₁ h₁)).2 b' h

/-- A computation that returns a value that passes a test. -/
theorem exists_of_map_eq_ok {r : Except ε α} (test : α → Bool) (h : r.map test = .ok true) :
    ∃ a, r = .ok a ∧ test a = true := by
  cases r with
  | ok a => exact ⟨a, rfl, Except.ok.inj h⟩
  | error e => simp [Except.map] at h

end Except
