import Mathlib.Init

/-!
# Stateful computations that fail: inversion, triples and simulation

An `EStateM` computation keeps the state it fails in. `bind_eq_ok` and `bind_eq_error` take
a sequence apart; `Ensures` is a triple with a postcondition for each way to end.
`Simulates` compares two computations over different states: the first may fail where the
second has no counterpart, and then nothing has happened yet as far as the second can tell;
whatever else the first does, the second does as well.
-/

namespace EStateM

variable {ε σ τ α β : Type}

theorem bind_eq_ok {x : EStateM ε σ α} {f : α → EStateM ε σ β} {s s' : σ} {b : β} :
    (x >>= f) s = .ok b s' ↔ ∃ a s₁, x s = .ok a s₁ ∧ f a s₁ = .ok b s' := by
  show EStateM.bind x f s = _ ↔ _
  simp only [EStateM.bind]
  cases x s with
  | ok a s₁ => exact ⟨fun h => ⟨a, s₁, rfl, h⟩, fun ⟨_, _, h, hf⟩ => by cases h; exact hf⟩
  | error e s₁ => simp

theorem bind_eq_error {x : EStateM ε σ α} {f : α → EStateM ε σ β} {s s' : σ} {e : ε} :
    (x >>= f) s = .error e s' ↔
      x s = .error e s' ∨ ∃ a s₁, x s = .ok a s₁ ∧ f a s₁ = .error e s' := by
  show EStateM.bind x f s = _ ↔ _
  simp only [EStateM.bind]
  cases x s with
  | ok a s₁ =>
    exact ⟨fun h => Or.inr ⟨a, s₁, rfl, h⟩,
      fun h => by rcases h with h | ⟨_, _, h, hf⟩ <;> cases h; exact hf⟩
  | error e' s₁ => simp

/-- What follows a computation that returns. -/
theorem bind_of_ok {x : EStateM ε σ α} {f : α → EStateM ε σ β} {s s' : σ} {a : α}
    (h : x s = .ok a s') : (x >>= f) s = f a s' := by
  show EStateM.bind x f s = _
  simp only [EStateM.bind, h]

theorem bind_of_error {x : EStateM ε σ α} {f : α → EStateM ε σ β} {s s' : σ} {e : ε}
    (h : x s = .error e s') : (x >>= f) s = .error e s' := by
  show EStateM.bind x f s = _
  simp only [EStateM.bind, h]

@[simp] theorem pure_apply (a : α) (s : σ) : (pure a : EStateM ε σ α) s = .ok a s := rfl

@[simp] theorem throw_apply (e : ε) (s : σ) : (throw e : EStateM ε σ α) s = .error e s := rfl

@[simp] theorem get_apply (s : σ) : (get : EStateM ε σ σ) s = .ok s s := rfl

@[simp] theorem set_apply (s s' : σ) : (set s' : EStateM ε σ PUnit) s = .ok ⟨⟩ s' := rfl

@[simp] theorem modify_apply (f : σ → σ) (s : σ) :
    (modify f : EStateM ε σ PUnit) s = .ok ⟨⟩ (f s) := rfl

/-- A computation that starts by reading the state. -/
theorem get_bind (f : σ → EStateM ε σ α) (s : σ) : (get >>= f) s = f s s := rfl

/-- A computation that starts by writing the state. -/
theorem set_bind (s' : σ) (f : PUnit → EStateM ε σ α) (s : σ) : (set s' >>= f) s = f ⟨⟩ s' := rfl

/-- A computation that leaves the state as it is when it returns. -/
def ReadOnly (x : EStateM ε σ α) : Prop := ∀ s a s', x s = .ok a s' → s' = s

theorem ReadOnly.pure (a : α) : ReadOnly (ε := ε) (σ := σ) (pure a) := by
  intro s b s' h
  simp only [pure_apply, Result.ok.injEq] at h
  exact h.2.symm

theorem ReadOnly.bind {x : EStateM ε σ α} {f : α → EStateM ε σ β} (hx : ReadOnly x)
    (hf : ∀ a, ReadOnly (f a)) : ReadOnly (x >>= f) := by
  intro s b s' h
  obtain ⟨a, s₁, h₁, h₂⟩ := bind_eq_ok.mp h
  obtain rfl := hx _ _ _ h₁
  exact hf a _ _ _ h₂

/-! ## Pre- and postconditions -/

/-- Run from a state of `P`, `x` returns a result and a state of `Q` or throws an exception in
    a state of `E`. -/
def Ensures (P : σ → Prop) (x : EStateM ε σ α) (Q : α → σ → Prop) (E : ε → σ → Prop) : Prop :=
  ∀ s, P s → (∀ a s', x s = .ok a s' → Q a s') ∧ (∀ e s', x s = .error e s' → E e s')

namespace Ensures

variable {P : σ → Prop} {Q : α → σ → Prop} {E : ε → σ → Prop}

theorem pure {a : α} (h : ∀ s, P s → Q a s) : Ensures P (pure a) Q E := by
  intro s hP
  constructor
  · intro b s' hx
    simp only [pure_apply, Result.ok.injEq] at hx
    obtain ⟨rfl, rfl⟩ := hx
    exact h _ hP
  · intro e s' hx
    exact nomatch hx

theorem throw {e : ε} (h : ∀ s, P s → E e s) : Ensures P (throw e) Q E := by
  intro s hP
  constructor
  · intro b s' hx
    exact nomatch hx
  · intro e' s' hx
    simp only [throw_apply, Result.error.injEq] at hx
    obtain ⟨rfl, rfl⟩ := hx
    exact h _ hP

theorem bind {Q' : β → σ → Prop} {x : EStateM ε σ α} {f : α → EStateM ε σ β}
    (hx : Ensures P x Q E) (hf : ∀ a, Ensures (Q a) (f a) Q' E) : Ensures P (x >>= f) Q' E := by
  intro s hP
  constructor
  · intro b s' h
    obtain ⟨a, s₁, h₁, h₂⟩ := bind_eq_ok.mp h
    exact (hf a s₁ ((hx s hP).1 a s₁ h₁)).1 b s' h₂
  · intro e s' h
    rcases bind_eq_error.mp h with h₁ | ⟨a, s₁, h₁, h₂⟩
    · exact (hx s hP).2 e s' h₁
    · exact (hf a s₁ ((hx s hP).1 a s₁ h₁)).2 e s' h₂

theorem mono {P' : σ → Prop} {Q' : α → σ → Prop} {E' : ε → σ → Prop} {x : EStateM ε σ α}
    (h : Ensures P x Q E) (hP : ∀ s, P' s → P s) (hQ : ∀ a s, Q a s → Q' a s)
    (hE : ∀ e s, E e s → E' e s) : Ensures P' x Q' E' := by
  intro s hpre
  obtain ⟨hok, herror⟩ := h s (hP s hpre)
  exact ⟨fun a s' hx => hQ a s' (hok a s' hx), fun e s' hx => hE e s' (herror e s' hx)⟩

end Ensures

/-! ## Simulation -/

/-- Run from states related by `R`, `x` and `y` return results and states related by `Q`, or
    throw the same exception in states related by `E`; or `x` throws an exception of `skip`,
    in a state that `E` relates to the state `y` starts from. -/
def Simulates (skip : ε → Prop) (E R : σ → τ → Prop) (x : EStateM ε σ α) (y : EStateM ε τ β)
    (Q : α → β → σ → τ → Prop) : Prop :=
  ∀ s t, R s t →
    (∀ a s', x s = .ok a s' → ∃ b t', y t = .ok b t' ∧ Q a b s' t') ∧
    (∀ e s', x s = .error e s' → skip e ∧ E s' t ∨ ∃ t', y t = .error e t' ∧ E s' t')

namespace Simulates

variable {skip : ε → Prop} {E R : σ → τ → Prop} {Q : α → β → σ → τ → Prop}

theorem pure {a : α} {b : β} (h : ∀ s t, R s t → Q a b s t) :
    Simulates (ε := ε) skip E R (pure a) (pure b) Q := by
  intro s t hR
  constructor
  · intro a' s' hx
    simp only [pure_apply, Result.ok.injEq] at hx
    obtain ⟨rfl, rfl⟩ := hx
    exact ⟨b, t, rfl, h _ _ hR⟩
  · intro e s' hx
    exact nomatch hx

theorem throw {e : ε} (h : ∀ s t, R s t → E s t) :
    Simulates skip E R (throw e : EStateM ε σ α) (throw e : EStateM ε τ β) Q := by
  intro s t hR
  constructor
  · intro a s' hx
    exact nomatch hx
  · intro e' s' hx
    simp only [throw_apply, Result.error.injEq] at hx
    obtain ⟨rfl, rfl⟩ := hx
    exact Or.inr ⟨t, rfl, h _ _ hR⟩

/-- Two computations whose results are known for each pair of states. -/
theorem of_results {x : EStateM ε σ α} {y : EStateM ε τ β}
    (h : ∀ s t, R s t →
      (∃ a b s' t', x s = .ok a s' ∧ y t = .ok b t' ∧ Q a b s' t') ∨
        ∃ e s' t', x s = .error e s' ∧ y t = .error e t' ∧ E s' t') :
    Simulates skip E R x y Q := by
  intro s t hR
  rcases h s t hR with ⟨a, b, s', t', hx, hy, hQ⟩ | ⟨e, s', t', hx, hy, hE⟩
  · constructor
    · intro a' s'' hx'
      obtain ⟨rfl, rfl⟩ : a = a' ∧ s' = s'' := by simpa [hx] using hx'
      exact ⟨b, t', hy, hQ⟩
    · intro e s'' hx'
      rw [hx] at hx'
      exact nomatch hx'
  · constructor
    · intro a s'' hx'
      rw [hx] at hx'
      exact nomatch hx'
    · intro e' s'' hx'
      obtain ⟨rfl, rfl⟩ : e = e' ∧ s' = s'' := by simpa [hx] using hx'
      exact Or.inr ⟨t', hy, hE⟩

/-- Weaken what is known afterwards, strengthen what is known before. -/
theorem mono {R' : σ → τ → Prop} {Q' : α → β → σ → τ → Prop} {x : EStateM ε σ α}
    {y : EStateM ε τ β} (h : Simulates skip E R x y Q) (hR : ∀ s t, R' s t → R s t)
    (hQ : ∀ a b s t, Q a b s t → Q' a b s t) : Simulates skip E R' x y Q' := by
  intro s t hpre
  obtain ⟨hok, herror⟩ := h s t (hR s t hpre)
  constructor
  · intro a s' hx
    obtain ⟨b, t', hy, hpost⟩ := hok a s' hx
    exact ⟨b, t', hy, hQ _ _ _ _ hpost⟩
  · exact herror

/-- A simulation without exceptions to skip is one with any. -/
theorem weaken {x : EStateM ε σ α} {y : EStateM ε τ β}
    (h : Simulates (fun _ => False) E R x y Q) : Simulates skip E R x y Q := by
  intro s t hR
  obtain ⟨hok, herror⟩ := h s t hR
  exact ⟨hok, fun e s' hx => (herror e s' hx).imp (fun h => h.1.elim) id⟩

/-- In a sequence, `y` may have changed its state before the second part of `x` runs, so
    that part has nothing to skip. -/
theorem bind {α' β' : Type} {Q' : α' → β' → σ → τ → Prop} {x : EStateM ε σ α}
    {y : EStateM ε τ β} {f : α → EStateM ε σ α'} {g : β → EStateM ε τ β'}
    (hx : Simulates skip E R x y Q)
    (hf : ∀ a b, Simulates (fun _ => False) E (Q a b) (f a) (g b) Q') :
    Simulates skip E R (x >>= f) (y >>= g) Q' := by
  intro s t hR
  obtain ⟨hok, herror⟩ := hx s t hR
  constructor
  · intro a' s' h
    obtain ⟨a, s₁, h₁, h₂⟩ := bind_eq_ok.mp h
    obtain ⟨b, t₁, ht₁, hQ⟩ := hok a s₁ h₁
    obtain ⟨b', t', ht', hQ'⟩ := (hf a b s₁ t₁ hQ).1 a' s' h₂
    exact ⟨b', t', bind_eq_ok.mpr ⟨b, t₁, ht₁, ht'⟩, hQ'⟩
  · intro e s' h
    rcases bind_eq_error.mp h with h₁ | ⟨a, s₁, h₁, h₂⟩
    · exact (herror e s' h₁).imp_right fun ⟨t', ht', hE⟩ =>
        ⟨t', bind_eq_error.mpr (Or.inl ht'), hE⟩
    · obtain ⟨b, t₁, ht₁, hQ⟩ := hok a s₁ h₁
      rcases (hf a b s₁ t₁ hQ).2 e s' h₂ with h | ⟨t', ht', hE⟩
      · exact h.1.elim
      · exact Or.inr ⟨t', bind_eq_error.mpr (Or.inr ⟨b, t₁, ht₁, ht'⟩), hE⟩

/-- After a part that leaves the state of `y` alone, the rest may still skip. -/
theorem bind_readOnly {α' β' : Type} {Q' : α' → β' → σ → τ → Prop} {x : EStateM ε σ α}
    {y : EStateM ε τ β} {f : α → EStateM ε σ α'} {g : β → EStateM ε τ β'}
    (hx : Simulates skip E R x y Q) (hy : ReadOnly y)
    (hf : ∀ a b, Simulates skip E (Q a b) (f a) (g b) Q') :
    Simulates skip E R (x >>= f) (y >>= g) Q' := by
  intro s t hR
  obtain ⟨hok, herror⟩ := hx s t hR
  constructor
  · intro a' s' h
    obtain ⟨a, s₁, h₁, h₂⟩ := bind_eq_ok.mp h
    obtain ⟨b, t₁, ht₁, hQ⟩ := hok a s₁ h₁
    obtain ⟨b', t', ht', hQ'⟩ := (hf a b s₁ t₁ hQ).1 a' s' h₂
    exact ⟨b', t', bind_eq_ok.mpr ⟨b, t₁, ht₁, ht'⟩, hQ'⟩
  · intro e s' h
    rcases bind_eq_error.mp h with h₁ | ⟨a, s₁, h₁, h₂⟩
    · exact (herror e s' h₁).imp_right fun ⟨t', ht', hE⟩ =>
        ⟨t', bind_eq_error.mpr (Or.inl ht'), hE⟩
    · obtain ⟨b, t₁, ht₁, hQ⟩ := hok a s₁ h₁
      obtain rfl := hy _ _ _ ht₁
      rcases (hf a b s₁ t₁ hQ).2 e s' h₂ with h | ⟨t', ht', hE⟩
      · exact Or.inl h
      · exact Or.inr ⟨t', bind_eq_error.mpr (Or.inr ⟨b, t₁, ht₁, ht'⟩), hE⟩

end Simulates

end EStateM
