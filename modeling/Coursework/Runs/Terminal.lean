import Mathlib.Order.WellFounded
import Mathlib.Data.List.Basic

/-!
# Runs that come to an end

A system whose parties take steps in any order: `step s i` is the state after the step of party
`i`, or nothing when it cannot take one.
-/

namespace Runs

variable {σ ι α : Type} {step : σ → ι → Option σ} {Inv : σ → Prop}

/-- What every step keeps holds after every run. -/
theorem invariant (hstep : ∀ s i s', Inv s → step s i = some s' → Inv s') {order : List ι} :
    ∀ {s s' : σ}, Inv s → order.foldlM step s = some s' → Inv s' := by
  induction order with
  | nil =>
    intro s s' hs h
    cases h
    exact hs
  | cons i order ih =>
    intro s s' hs h
    rw [List.foldlM_cons] at h
    obtain ⟨s₁, hi, hrest⟩ := Option.bind_eq_some_iff.mp h
    exact ih (hstep s i s₁ hs hi) hrest

/-- When every step makes a measure smaller, some run goes on until no party can take a step. -/
theorem exists_terminal [LT α] [WellFoundedLT α] (measure : σ → α)
    (hstep : ∀ s i s', Inv s → step s i = some s' → Inv s' ∧ measure s' < measure s) (s : σ)
    (hs : Inv s) :
    ∃ (order : List ι) (s' : σ), order.foldlM step s = some s' ∧ ∀ i, step s' i = none := by
  induction s using (InvImage.wf measure wellFounded_lt).induction with
  | _ s ih =>
    by_cases hstop : ∀ i, step s i = none
    · exact ⟨[], s, rfl, hstop⟩
    · obtain ⟨i, hi⟩ := Classical.not_forall.mp hstop
      obtain ⟨s₁, h₁⟩ := Option.ne_none_iff_exists'.mp hi
      obtain ⟨hinv, hlt⟩ := hstep s i s₁ hs h₁
      obtain ⟨order, s', hrun, hend⟩ := ih s₁ hlt hinv
      refine ⟨i :: order, s', ?_, hend⟩
      rw [List.foldlM_cons, h₁]
      exact hrun

end Runs
