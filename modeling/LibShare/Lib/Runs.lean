import Mathlib.Tactic.Common

/-!
# Runs of steps that may have no result

`step s a` is the state after the action `a`, where there is one. A run is a list
of actions, and goes no further than the first one without a result.

* `AlwaysAlong` — a property of states holds in every state that a run reaches.
* `KeepsAlong` — a condition on the steps holds of each step that a run takes.
* `always_iff_keeps` — where the condition tells the steps that keep the property
  from those that do not, the one is the other.
-/

namespace LibShare

variable {σ α : Type}

/-- The property holds in every state that the run reaches, the first one included. -/
def AlwaysAlong (step : σ → α → Option σ) (P : σ → Prop) (s : σ) : List α → Prop
  | [] => P s
  | a :: as => P s ∧ ∀ s', step s a = some s' → AlwaysAlong step P s' as

/-- The condition holds of each step that the run takes, in the state it is taken in. -/
def KeepsAlong (step : σ → α → Option σ) (K : σ → α → Prop) (s : σ) : List α → Prop
  | [] => True
  | a :: as => K s a ∧ ∀ s', step s a = some s' → KeepsAlong step K s' as

variable {step : σ → α → Option σ} {P : σ → Prop} {K : σ → α → Prop}

theorem AlwaysAlong.head {s : σ} {as : List α} (h : AlwaysAlong step P s as) : P s := by
  cases as with
  | nil => exact h
  | cons a as => exact h.1

/-- The property holds along a run just when every step of it meets the condition. -/
theorem always_iff_keeps (hstep : ∀ s a, P s → ((∀ s', step s a = some s' → P s') ↔ K s a)) :
    ∀ (as : List α) (s : σ), P s → (AlwaysAlong step P s as ↔ KeepsAlong step K s as) := by
  intro as
  induction as with
  | nil =>
    intro s hs
    exact iff_of_true hs trivial
  | cons a as ih =>
    intro s hs
    constructor
    · rintro ⟨-, hrest⟩
      have hkeeps := (hstep s a hs).mp fun s' hs' => (hrest s' hs').head
      refine ⟨hkeeps, ?_⟩
      intro s' hs'
      exact (ih s' (hrest s' hs').head).mp (hrest s' hs')
    · rintro ⟨hkeeps, hrest⟩
      refine ⟨hs, ?_⟩
      intro s' hs'
      exact (ih s' ((hstep s a hs).mpr hkeeps s' hs')).mpr (hrest s' hs')

end LibShare
