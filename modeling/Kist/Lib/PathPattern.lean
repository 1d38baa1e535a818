import Mathlib.Tactic

/-!
# Patterns over sequences

A pattern is a list of components; a `star` component stands for any number of elements, every other
one for exactly one element that it accepts. `Matches` is the direct definition. `matches_cons_iff`
is its derivative by the first element, in terms of positions that are reached by skipping stars:
the step of a matcher that keeps sets of positions. `exists_matches_star_iff` is what a matcher
relies on that only goes back to the last star it has seen.
-/

namespace PathPattern

variable {γ α : Type*}

section Skips

variable (star : γ → Prop) {c : γ} {cs : List γ} {j k : ℕ}

/-- Every component before the position `k` may stand for nothing. -/
def Skips (cs : List γ) (k : ℕ) : Prop := ∀ c ∈ cs.take k, star c

variable {star}

theorem skips_zero : Skips star cs 0 := by simp [Skips]

theorem skips_succ_cons : Skips star (c :: cs) (k + 1) ↔ star c ∧ Skips star cs k := by
  simp [Skips]

end Skips

variable (star : γ → Prop) [DecidablePred star] (accepts : γ → α → Bool)

/-- The pattern matches the whole sequence. -/
def Matches : List γ → List α → Prop
  | [], ns => ns = []
  | c :: cs, ns =>
    if star c then ∃ k, Matches cs (ns.drop k)
    else ∃ n rest, ns = n :: rest ∧ accepts c n = true ∧ Matches cs rest

variable {star accepts} {c : γ} {cs : List γ} {n : α} {ns : List α} {k : ℕ}

theorem matches_star (hc : star c) :
    Matches star accepts (c :: cs) ns ↔ ∃ k, Matches star accepts cs (ns.drop k) := by
  simp [Matches, hc]

theorem matches_one (hc : ¬star c) :
    Matches star accepts (c :: cs) ns ↔
      ∃ n rest, ns = n :: rest ∧ accepts c n = true ∧ Matches star accepts cs rest := by
  simp [Matches, hc]

/-- What is left of a star after an element. -/
theorem matches_star_cons (hc : star c) :
    Matches star accepts (c :: cs) (n :: ns) ↔
      Matches star accepts cs (n :: ns) ∨ Matches star accepts (c :: cs) ns := by
  rw [matches_star hc, matches_star hc]
  constructor
  · rintro ⟨_ | k, h⟩
    · exact .inl h
    · exact .inr ⟨k, h⟩
  · rintro (h | ⟨k, h⟩)
    · exact ⟨0, h⟩
    · exact ⟨k + 1, h⟩

/-- The empty sequence is matched by stars alone. -/
theorem matches_nil_iff : Matches star accepts cs [] ↔ ∀ c ∈ cs, star c := by
  induction cs with
  | nil => simp [Matches]
  | cons c cs ih =>
    by_cases hc : star c
    · simp [matches_star hc, ih, hc]
    · simp [matches_one hc, hc]

/-- Skipped components may stand for nothing. -/
theorem matches_of_skips (hk : Skips star cs k) (h : Matches star accepts (cs.drop k) ns) :
    Matches star accepts cs ns := by
  induction k generalizing cs with
  | zero => exact h
  | succ k ih =>
    cases cs with
    | nil => exact h
    | cons c cs =>
      obtain ⟨hc, hk⟩ := skips_succ_cons.1 hk
      exact (matches_star hc).2 ⟨0, ih hk h⟩

/-- **The derivative of a pattern.** The first element is taken at a position that is reached by
skipping stars: by the star there, which stays, or by the component there, which is used up. -/
theorem matches_cons_iff : Matches star accepts cs (n :: ns) ↔
    ∃ k c rest, cs.drop k = c :: rest ∧ Skips star cs k ∧
      ((star c ∧ Matches star accepts (c :: rest) ns) ∨
        (¬star c ∧ accepts c n = true ∧ Matches star accepts rest ns)) := by
  constructor
  · intro h
    induction cs with
    | nil => cases h
    | cons c cs ih =>
      by_cases hc : star c
      · rcases (matches_star_cons hc).1 h with h | h
        · obtain ⟨k, c', rest, hd, hs, hm⟩ := ih h
          exact ⟨k + 1, c', rest, hd, skips_succ_cons.2 ⟨hc, hs⟩, hm⟩
        · exact ⟨0, c, cs, rfl, skips_zero, .inl ⟨hc, h⟩⟩
      · obtain ⟨n', rest, he, ha, hm⟩ := (matches_one hc).1 h
        cases he
        exact ⟨0, c, cs, rfl, skips_zero, .inr ⟨hc, ha, hm⟩⟩
  · rintro ⟨k, c, rest, hd, hs, ⟨hc, hm⟩ | ⟨hc, ha, hm⟩⟩
    · refine matches_of_skips hs ?_
      rw [hd]
      exact (matches_star_cons hc).2 (.inr hm)
    · refine matches_of_skips hs ?_
      rw [hd]
      exact (matches_one hc).2 ⟨n, ns, rfl, ha, hm⟩

/-! ### Components without a star -/

/-- What components without a star take is as long as they are. -/
theorem fits_of_matches_append {mid : List γ} (hmid : ∀ c ∈ mid, ¬star c)
    (h : Matches star accepts (mid ++ cs) ns) :
    ∃ pre rest, ns = pre ++ rest ∧
      List.Forall₂ (fun c n => ¬star c ∧ accepts c n = true) mid pre ∧
        Matches star accepts cs rest := by
  induction mid generalizing ns with
  | nil => exact ⟨[], ns, rfl, .nil, h⟩
  | cons c mid ih =>
    have hc : ¬star c := hmid c (by simp)
    obtain ⟨n, ns', rfl, ha, h⟩ := (matches_one hc).1 h
    obtain ⟨pre, rest, rfl, hfits, h⟩ := ih (fun c hc => hmid c (by simp [hc])) h
    exact ⟨n :: pre, rest, rfl, .cons ⟨hc, ha⟩ hfits, h⟩

section Fits

variable {mid : List γ} {pre : List α}

/-- Components without a star take one element each. -/
theorem matches_append_of_fits
    (hfits : List.Forall₂ (fun c n => ¬star c ∧ accepts c n = true) mid pre)
    (h : Matches star accepts cs ns) : Matches star accepts (mid ++ cs) (pre ++ ns) := by
  induction hfits with
  | nil => exact h
  | cons hc _ ih => exact (matches_one hc.1).2 ⟨_, _, rfl, hc.2, ih⟩

omit [DecidablePred star] in
theorem noStar_of_fits
    (hfits : List.Forall₂ (fun c n => ¬star c ∧ accepts c n = true) mid pre) :
    ∀ c ∈ mid, ¬star c := by
  induction hfits with
  | nil => simp
  | cons hc _ ih => simpa [hc.1] using ih

/-- A later start of the components without a star leaves a later rest. -/
theorem matches_of_drop_append
    (hfits : List.Forall₂ (fun c n => ¬star c ∧ accepts c n = true) mid pre)
    (h : Matches star accepts (mid ++ cs) ((pre ++ ns).drop k)) :
    Matches star accepts cs (ns.drop k) := by
  obtain ⟨pre', rest, he, hfits', h⟩ := fits_of_matches_append (noStar_of_fits hfits) h
  have hlen : pre'.length = pre.length := hfits'.length_eq.symm.trans hfits.length_eq
  have hrest := congrArg (List.drop pre.length) he
  rw [List.drop_drop, Nat.add_comm, ← List.drop_drop, List.drop_left, ← hlen,
    List.drop_left] at hrest
  rw [hrest]
  exact h

/-- **The first fit suffices.** Up to the next star, the components may as well take the first
elements that fit: what a later start leaves, the next star can take. -/
theorem exists_matches_star_iff (hc : star c)
    (hfits : List.Forall₂ (fun c n => ¬star c ∧ accepts c n = true) mid pre) :
    (∃ k, Matches star accepts (mid ++ c :: cs) ((pre ++ ns).drop k)) ↔
      ∃ k, Matches star accepts cs (ns.drop k) := by
  constructor
  · rintro ⟨k, h⟩
    obtain ⟨j, h⟩ := (matches_star hc).1 (matches_of_drop_append hfits h)
    exact ⟨k + j, by rwa [List.drop_drop] at h⟩
  · intro h
    exact ⟨0, matches_append_of_fits hfits ((matches_star hc).2 h)⟩

end Fits

end PathPattern
