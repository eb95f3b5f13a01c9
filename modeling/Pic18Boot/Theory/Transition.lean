import Mathlib.Tactic.TypeStar

/-! # Labelled transition functions under a guard

A system takes labelled steps given by a partial function. `Reach` is what it reaches by steps that
satisfy a guard, so that a property of the runs in which the environment behaves is a statement
about a guarded `Reach`, and the guard `True` gives all runs. -/

namespace Transition

variable {σ ℓ : Type*}

/-- The states reached from `s₀` by steps whose guard holds. -/
inductive Reach (step : ℓ → σ → Option σ) (guard : ℓ → σ → Prop) (s₀ : σ) : σ → Prop
  | start : Reach step guard s₀ s₀
  | step {s s' l} : Reach step guard s₀ s → guard l s → step l s = some s' →
    Reach step guard s₀ s'

variable {step : ℓ → σ → Option σ} {guard : ℓ → σ → Prop} {s₀ s : σ}

/-- The rule for an invariant of the guarded steps. -/
theorem Reach.invariant {I : σ → Prop} (h0 : I s₀)
    (hstep : ∀ l s s', I s → guard l s → step l s = some s' → I s') (h : Reach step guard s₀ s) :
    I s := by
  induction h with
  | start => exact h0
  | step _ hguard hs ih => exact hstep _ _ _ ih hguard hs

/-- The steps of a list of labels, while their guards hold. -/
def exec (step : ℓ → σ → Option σ) (guard : ℓ → σ → Prop) [∀ l s, Decidable (guard l s)] :
    List ℓ → σ → Option σ
  | [], s => some s
  | l :: ls, s => if guard l s then (step l s).bind (exec step guard ls) else none

variable [∀ l s, Decidable (guard l s)]

theorem Reach.exec {ls : List ℓ} {s' : σ} (h : Reach step guard s₀ s)
    (hls : exec step guard ls s = some s') : Reach step guard s₀ s' := by
  induction ls generalizing s with
  | nil =>
    cases hls
    exact h
  | cons l ls ih =>
    rw [Transition.exec] at hls
    split at hls
    · next hguard =>
      obtain ⟨s'', hs, hls⟩ := Option.bind_eq_some_iff.mp hls
      exact ih (h.step hguard hs) hls
    · cases hls

/-- A list of labels that can be carried out, and a check of where it ends. -/
theorem exists_reach {ls : List ℓ} {p : σ → Bool}
    (h : (Transition.exec step guard ls s₀).map p = some true) :
    ∃ s, Reach step guard s₀ s ∧ p s = true := by
  obtain ⟨s, hs, hp⟩ := Option.map_eq_some_iff.mp h
  exact ⟨s, Reach.start.exec hs, hp⟩

end Transition
