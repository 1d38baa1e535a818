import Mathlib.Tactic

/-!
# Computations that may panic

A computation that may panic is an `Option`: nothing where it panics. `PanicsUnless x y P` says that
it yields `y` where `P` holds and panics elsewhere. The condition of a sequence is that each step
that is reached has its own.
-/

/-- The computation `x` yields `y` where `P` holds, and panics elsewhere. -/
structure PanicsUnless {α : Type*} (x : Option α) (y : α) (P : Prop) : Prop where
  yields : P → x = some y
  panics : ¬P → x = none

namespace PanicsUnless

universe u v

variable {α β : Type u} {ε : Type u} {x : Option α} {y : α} {P Q : Prop}

protected theorem pure (y : α) : PanicsUnless (some y) y True :=
  ⟨fun _ => rfl, fun h => absurd trivial h⟩

theorem congr (h : PanicsUnless x y P) (hiff : P ↔ Q) : PanicsUnless x y Q :=
  ⟨fun hq => h.yields (hiff.2 hq), fun hq => h.panics (mt hiff.1 hq)⟩

theorem of_ite [Decidable P] : PanicsUnless (if P then some y else none) y P :=
  ⟨fun h => if_pos h, fun h => if_neg h⟩

/-- What the condition is good for. -/
theorem eq_some_iff (h : PanicsUnless x y P) : x = some y ↔ P := by
  refine ⟨fun hx => ?_, h.yields⟩
  by_contra hP
  rw [h.panics hP] at hx
  cases hx

theorem bind {f : α → Option β} {z : β} (h : PanicsUnless x y P) (hf : P → PanicsUnless (f y) z Q) :
    PanicsUnless (x >>= f) z (P ∧ Q) := by
  constructor
  · rintro ⟨hP, hQ⟩
    rw [h.yields hP]
    exact (hf hP).yields hQ
  · intro hno
    by_cases hP : P
    · rw [h.yields hP]
      exact (hf hP).panics fun hQ => hno ⟨hP, hQ⟩
    · rw [h.panics hP]
      rfl

theorem map (h : PanicsUnless x y P) (f : α → β) :
    PanicsUnless (x >>= fun a => pure (f a)) (f y) P :=
  (h.bind (f := fun a => some (f a)) fun _ => .pure _).congr (by rw [and_true])

/-! ### Lists -/

section Lists

variable {γ : Type v} {l : List γ} {R : γ → Prop}

theorem mapM {f : γ → Option β} {g : γ → β} (h : ∀ a ∈ l, PanicsUnless (f a) (g a) (R a)) :
    PanicsUnless (l.mapM f) (l.map g) (∀ a ∈ l, R a) := by
  induction l with
  | nil => exact (PanicsUnless.pure []).congr (by simp)
  | cons a l ih =>
    have hrest := ih fun b hb => h b (List.mem_cons_of_mem _ hb)
    rw [List.mapM_cons]
    refine ((h a List.mem_cons_self).bind (Q := ∀ b ∈ l, R b) fun _ => ?_).congr (by simp)
    exact hrest.map _

theorem filterMapM {f : γ → Option (Option β)} {g : γ → Option β}
    (h : ∀ a ∈ l, PanicsUnless (f a) (g a) (R a)) :
    PanicsUnless (l.filterMapM f) (l.filterMap g) (∀ a ∈ l, R a) := by
  induction l with
  | nil => exact (PanicsUnless.pure []).congr (by simp)
  | cons a l ih =>
    have hrest := ih fun b hb => h b (List.mem_cons_of_mem _ hb)
    rw [List.filterMapM_cons, List.filterMap_cons]
    refine ((h a List.mem_cons_self).bind (Q := ∀ b ∈ l, R b) fun _ => ?_).congr (by simp)
    cases g a with
    | none => exact hrest
    | some b => exact hrest.map _

end Lists

/-! ### Computations that may also fail -/

section Fail

theorem bindExcept {x : ExceptT ε Option α} {y : Except ε α} {f : α → ExceptT ε Option β}
    {g : α → Except ε β} {R : α → Prop} (h : PanicsUnless x.run y P)
    (hf : ∀ a, y = .ok a → PanicsUnless (f a).run (g a) (R a)) :
    PanicsUnless (x >>= f).run (y >>= g) (P ∧ ∀ a, y = .ok a → R a) := by
  rw [ExceptT.run_bind]
  refine h.bind fun _ => ?_
  cases y with
  | error e => exact (PanicsUnless.pure _).congr (by simp)
  | ok a => exact (hf a rfl).congr (by simp)

/-- A step that may panic and does not fail. -/
theorem bindLift {f : α → ExceptT ε Option β} {z : Except ε β} (h : PanicsUnless x y P)
    (hf : P → PanicsUnless (f y).run z Q) :
    PanicsUnless ((liftM x : ExceptT ε Option α) >>= f).run z (P ∧ Q) := by
  have hrun : ((liftM x : ExceptT ε Option α) >>= f).run = x >>= fun a => (f a).run :=
    ExceptT.run_bind_lift x f
  rw [hrun]
  exact h.bind hf

/-- A step that may fail and does not panic. -/
theorem bindOk {y : Except ε α} {f : α → ExceptT ε Option β} {g : α → Except ε β} {R : α → Prop}
    (hf : ∀ a, y = .ok a → PanicsUnless (f a).run (g a) (R a)) :
    PanicsUnless ((liftM y : ExceptT ε Option α) >>= f).run (y >>= g) (∀ a, y = .ok a → R a) :=
  ((PanicsUnless.pure y).bindExcept hf).congr (by rw [true_and])

/-- A loop: no step panics before one that fails. -/
theorem forM {γ : Type v} {l : List γ} {f : γ → ExceptT ε Option PUnit} {g : γ → Except ε PUnit}
    {R : γ → Prop} (h : ∀ a ∈ l, PanicsUnless (f a).run (g a) (R a)) :
    PanicsUnless (l.forM f).run (l.forM g)
      (∀ done a rest, l = done ++ a :: rest → (∀ b ∈ done, g b = .ok ⟨⟩) → R a) := by
  induction l with
  | nil => exact (PanicsUnless.pure _).congr (by simp)
  | cons a l ih =>
    have hrest := ih fun b hb => h b (List.mem_cons_of_mem _ hb)
    change PanicsUnless (f a >>= fun _ => l.forM f).run (g a >>= fun _ => l.forM g) _
    refine ((h a List.mem_cons_self).bindExcept fun _ _ => hrest).congr ?_
    constructor
    · rintro ⟨ha, hl⟩ done b rest heq hdone
      cases done with
      | nil =>
        cases heq
        exact ha
      | cons c done =>
        cases heq
        exact hl ⟨⟩ (hdone _ List.mem_cons_self) done b rest rfl fun d hd =>
          hdone d (List.mem_cons_of_mem _ hd)
    · refine fun hall => ⟨hall [] a l rfl nofun, fun _ hok done b rest heq hdone => ?_⟩
      refine hall (a :: done) b rest (by rw [heq, List.cons_append]) fun d hd => ?_
      rcases List.mem_cons.1 hd with rfl | hd
      · exact hok
      · exact hdone d hd

end Fail

end PanicsUnless
