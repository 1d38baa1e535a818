import Mathlib.Tactic

/-!
# Reachable states

The states that a system reaches from its initial states by any number of steps, and the rule by
which an invariant is proved of all of them.
-/

variable {σ : Type*}

/-- Reachable from a state in `init` through `step`. -/
inductive Reachable (init : σ → Prop) (step : σ → σ → Prop) : σ → Prop
  | init {s : σ} (h : init s) : Reachable init step s
  | step {s s' : σ} (h : Reachable init step s) (hs : step s s') : Reachable init step s'

namespace Reachable

variable {init : σ → Prop} {step step' : σ → σ → Prop} {P Q : σ → Prop}

/-- What holds at the start and is kept by every step holds in every reachable state. -/
theorem invariant {s : σ} (h : Reachable init step s) (h0 : ∀ s, init s → P s)
    (hstep : ∀ s s', P s → step s s' → P s') : P s := by
  induction h with
  | init h => exact h0 _ h
  | step _ hs ih => exact hstep _ _ ih hs

/-- A system with fewer steps reaches fewer states. -/
theorem mono {s : σ} (h : Reachable init step s) (hstep : ∀ s s', step s s' → step' s s') :
    Reachable init step' s := by
  induction h with
  | init h => exact .init h
  | step _ hs ih => exact .step ih (hstep _ _ hs)

end Reachable
