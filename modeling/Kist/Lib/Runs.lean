import Mathlib.Tactic

/-!
# Runs of guarded steps

A system whose steps are a function of an action: `step a s` is `some s'` where the action is
enabled in `s`, and `none` where it is not. A list of actions is a run as far as its actions are
enabled.

* `always_iff_eachStep`: a property of states holds all along a run exactly when each of its steps
  meets a condition, if that is so of every single step.
-/

namespace Runs

variable {σ α : Type*} (step : α → σ → Option σ)

/-- The state at the end of a run, if all of its actions are enabled. -/
def last : List α → σ → Option σ
  | [], s => some s
  | a :: as, s => step a s >>= last as

/-- What holds of every state of a run, the first one included. -/
def Always (P : σ → Prop) : List α → σ → Prop
  | [], s => P s
  | a :: as, s => P s ∧ ∀ s' ∈ step a s, Always P as s'

/-- What holds of every step of a run, in the state before it. -/
def EachStep (Q : α → σ → Prop) : List α → σ → Prop
  | [], _ => True
  | a :: as, s => ∀ s' ∈ step a s, Q a s ∧ EachStep Q as s'

variable {step} {P I : σ → Prop} {Q : α → σ → Prop}

theorem Always.head {as : List α} {s : σ} (h : Always step P as s) : P s := by
  cases as with
  | nil => exact h
  | cons a as => exact h.1

/-- What holds all along a run holds at its end. -/
theorem Always.last {as : List α} {s s' : σ} (h : Always step P as s)
    (hs : Runs.last step as s = some s') : P s' := by
  induction as generalizing s with
  | nil => cases hs; exact h
  | cons a as ih =>
    obtain ⟨s₁, h₁, hs⟩ := Option.bind_eq_some_iff.1 hs
    exact ih (h.2 s₁ h₁) hs

theorem last_append (as bs : List α) (s : σ) :
    last step (as ++ bs) s = last step as s >>= last step bs := by
  induction as generalizing s with
  | nil => rfl
  | cons a as ih =>
    show (step a s >>= fun s₁ => last step (as ++ bs) s₁) = _
    simp only [ih, last, bind_assoc]

/-- **Exactness over runs.** If a step out of a good state leads to a good state exactly when it
meets the condition, then a run stays in good states exactly when all of its steps meet it. `I` is
an invariant that the steps may rely on. -/
theorem always_iff_eachStep (hI : ∀ a s s', I s → s' ∈ step a s → I s')
    (hstep : ∀ a s s', I s → P s → s' ∈ step a s → (P s' ↔ Q a s)) {as : List α} {s : σ} (hs : I s)
    (hp : P s) : Always step P as s ↔ EachStep step Q as s := by
  induction as generalizing s with
  | nil => exact iff_of_true hp trivial
  | cons a as ih =>
    refine ⟨fun h s' hs' => ?_, fun h => ⟨hp, fun s' hs' => ?_⟩⟩
    · have hp' := (h.2 s' hs').head
      exact ⟨(hstep a s s' hs hp hs').1 hp', (ih (hI a s s' hs hs') hp').1 (h.2 s' hs')⟩
    · obtain ⟨hq, h⟩ := h s' hs'
      exact (ih (hI a s s' hs hs') ((hstep a s s' hs hp hs').2 hq)).2 h

end Runs
