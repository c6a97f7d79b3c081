import Mathlib.Logic.Basic

/-!
# Transition systems

A system whose actions are taken one at a time, by a step function that gives `none` for an
action that cannot happen in the state. The states a run reaches from the initial one, the
invariant rule for them (`Reachable.invariant`: what holds initially and what every step keeps
holds of every reachable state), and that the state after a list of actions is reachable
(`reachable_of_foldlM`), which names a reachable state by its run.
-/

namespace Transition

variable {σ α : Type} (step : σ → α → Option σ) (init : σ)

/-- The states reached from `init` by steps. -/
inductive Reachable : σ → Prop
  | init : Reachable init
  | step {s s' : σ} (a : α) : Reachable s → step s a = some s' → Reachable s'

variable {step init}

/-- The invariant rule. -/
theorem Reachable.invariant (Inv : σ → Prop) (h₀ : Inv init)
    (hstep : ∀ s a s', Inv s → step s a = some s' → Inv s') {s : σ}
    (hs : Reachable step init s) : Inv s := by
  induction hs with
  | init => exact h₀
  | step a _ ha ih => exact hstep _ a _ ih ha

/-- Every state of a run is reachable. -/
theorem reachable_of_foldlM :
    ∀ (as : List α) {s s' : σ}, Reachable step init s → as.foldlM step s = some s' →
      Reachable step init s'
  | [], _, _, hs, h => by
    rw [List.foldlM_nil] at h
    exact Option.some.inj h ▸ hs
  | a :: as, s, _, hs, h => by
    rw [List.foldlM_cons] at h
    obtain ⟨t, ht, h⟩ := Option.bind_eq_some_iff.1 h
    exact reachable_of_foldlM as (hs.step a ht) h

end Transition
