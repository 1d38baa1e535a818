import Mathlib.Tactic

/-!
# Checked machine operations

Indexing, slicing, subtraction and shifting as a compiled program performs them: each operation
either yields its value or stops the program with a `Fault`. A function written over these
operations that always returns `.ok` never indexes out of range, never subtracts below zero and
never shifts by the width of the word or more.
-/

namespace Checked

universe u

/-- What stops a program at one of the operations below. -/
inductive Fault
  | index
  | slice
  | sub
  | shift
  deriving DecidableEq, Repr

variable {α : Type*}

/-- `xs[i]`. -/
def at_ (xs : List α) (i : ℕ) : Except Fault α :=
  match xs[i]? with
  | some x => .ok x
  | none => .error .index

/-- `a - b` on an unsigned type. -/
def sub (a b : ℕ) : Except Fault ℕ :=
  if b ≤ a then .ok (a - b) else .error .sub

/-- `&xs[i..j]`. -/
def slice (xs : List α) (i j : ℕ) : Except Fault (List α) :=
  if i ≤ j ∧ j ≤ xs.length then .ok ((xs.take j).drop i) else .error .slice

/-- `1u64 << k`. -/
def bit64 (k : ℕ) : Except Fault ℕ :=
  if k < 64 then .ok (2 ^ k) else .error .shift

theorem at_ok {xs : List α} {i : ℕ} (h : i < xs.length) : at_ xs i = .ok xs[i] := by
  simp [at_, h]

theorem sub_ok {a b : ℕ} (h : b ≤ a) : sub a b = .ok (a - b) := by
  simp [sub, h]

theorem slice_ok {xs : List α} {i j : ℕ} (hij : i ≤ j) (hj : j ≤ xs.length) :
    slice xs i j = .ok ((xs.take j).drop i) := by
  simp [slice, hij, hj]

theorem bit64_ok {k : ℕ} (h : k < 64) : bit64 k = .ok (2 ^ k) := by
  simp [bit64, h]

/-- A sequence of two steps succeeds when both do. -/
theorem bind_eq_ok {ε : Type*} {β γ : Type u} {x : Except ε β} {f : β → Except ε γ} {b : γ} :
    (x >>= f) = .ok b ↔ ∃ a, x = .ok a ∧ f a = .ok b := by
  cases x with
  | error e => simp [bind, Except.bind]
  | ok a => simp [bind, Except.bind]

/-- Two computations yield the same where both succeed. -/
def Agree {ε α : Type*} (x y : Except ε α) : Prop := ∀ a b, x = .ok a → y = .ok b → a = b

theorem Agree.refl {ε α : Type*} (x : Except ε α) : Agree x x := fun _ _ ha hb =>
  Except.ok.inj (ha.symm.trans hb)

theorem Agree.bind {ε : Type*} {β γ : Type u} {x y : Except ε β} {f g : β → Except ε γ}
    (h : Agree x y) (hfg : ∀ a, x = .ok a → y = .ok a → Agree (f a) (g a)) :
    Agree (x >>= f) (y >>= g) := by
  intro c d hc hd
  obtain ⟨a, ha, hc⟩ := bind_eq_ok.1 hc
  obtain ⟨b, hb, hd⟩ := bind_eq_ok.1 hd
  obtain rfl := h a b ha hb
  exact hfg a ha hb c d hc hd

/-- What every step of a fold keeps holds at its end. -/
theorem foldlM_invariant {ε β : Type*} {σ : Type u} {f : σ → β → Except ε σ} {P : σ → Prop}
    (hstep : ∀ s x s', P s → f s x = .ok s' → P s') {l : List β} {s s' : σ} (hs : P s)
    (h : l.foldlM f s = .ok s') : P s' := by
  induction l generalizing s with
  | nil => cases h; exact hs
  | cons x l ih =>
    rw [List.foldlM_cons] at h
    obtain ⟨s₁, h₁, h⟩ := bind_eq_ok.1 h
    exact ih (hstep s x s₁ hs h₁) h

/-- What every step of two folds over the same list keeps between them holds at their ends. -/
theorem foldlM_relation {ε ε' β : Type*} {σ τ : Type u} {f : σ → β → Except ε σ}
    {g : τ → β → Except ε' τ} {R : σ → τ → Prop} {l : List β}
    (hstep : ∀ x ∈ l, ∀ s t s' t', R s t → f s x = .ok s' → g t x = .ok t' → R s' t')
    {s s' : σ} {t t' : τ} (hst : R s t) (hs : l.foldlM f s = .ok s')
    (ht : l.foldlM g t = .ok t') : R s' t' := by
  induction l generalizing s t with
  | nil => cases hs; cases ht; exact hst
  | cons x l ih =>
    rw [List.foldlM_cons] at hs ht
    obtain ⟨s₁, hs₁, hs⟩ := bind_eq_ok.1 hs
    obtain ⟨t₁, ht₁, ht⟩ := bind_eq_ok.1 ht
    exact ih (fun y hy => hstep y (List.mem_cons_of_mem _ hy))
      (hstep x List.mem_cons_self s t s₁ t₁ hst hs₁ ht₁) hs ht

end Checked
