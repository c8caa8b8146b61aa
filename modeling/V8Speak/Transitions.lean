import Mathlib

/-!
# Transition systems

A system is a partial function `step` that takes an action in a state, where
it is possible. A run is a list of actions. What holds of a whole run follows
from what one step keeps (`Reaches.invariant`).
-/

namespace Transitions

variable {σ α : Type} (step : σ → α → Option σ)

/-- The actions of a list, one after the other. -/
def run (s : σ) (actions : List α) : Option σ := actions.foldlM step s

/-- **A state is reached** by some run. -/
def Reaches (s s' : σ) : Prop := ∃ actions, run step s actions = some s'

variable {step}

theorem run_cons {s : σ} {a : α} {actions : List α} :
    run step s (a :: actions) = (step s a).bind (fun s' => run step s' actions) := rfl

/-- **Invariants**: what every step keeps, holds in every state that is reached. -/
theorem Reaches.invariant {P : σ → Prop} (hstep : ∀ {s a s'}, P s → step s a = some s' → P s')
    {s s' : σ} (h : Reaches step s s') (hs : P s) : P s' := by
  obtain ⟨actions, hrun⟩ := h
  induction actions generalizing s with
  | nil => exact Option.some.inj hrun ▸ hs
  | cons a actions ih =>
    rw [run_cons] at hrun
    obtain ⟨t, ht, hrest⟩ := Option.bind_eq_some_iff.1 hrun
    exact ih (hstep hs ht) hrest

end Transitions
