import Kist.Filter.Glob

/-!
# The filter against its reference

The direct recursive definition of a pattern, and the order in which a walk carries its positions
along.

* `FilterState.Ordered`: the positions stay grouped by pattern, so that looking through the last
  group for a duplicate is enough.
* `PathFilter.walk_eq_reference`: component by component, the walk agrees with the direct
  definition.
-/

namespace Kist

/-- One component of a pattern against a name, as the test's `ref_path` compares them. -/
def refComp (cases : CaseMap) (fold : Bool) : Comp → Bytes → Bool
  | .anyDepth, _ => false
  | .literal l, name => l = name
  | .glob tokens, name => refGlob cases fold tokens (units name)

/-- The components of a pattern match a whole path: the test's `ref_path`. -/
def refPath (cases : CaseMap) (fold : Bool) : List Comp → List Bytes → Bool
  | [], path => path.isEmpty
  | .anyDepth :: rest, path =>
    (List.range (path.length + 1)).any fun k => refPath cases fold rest (path.drop k)
  | c :: rest, path =>
    match path with
    | [] => false
    | name :: path => refComp cases fold c name && refPath cases fold rest path

/-- The pattern matches a path, by the direct definition. -/
def Pattern.refMatches (cases : CaseMap) (pattern : Pattern) (path : List Bytes) : Bool :=
  refPath cases pattern.fold pattern.comps path

/-- The decision at a path is that of the last pattern of the list that matches it. -/
def PathFilter.refDecision (f : PathFilter) (path : List Bytes) : Option Bool :=
  (f.patterns.reverse.find? fun pattern => pattern.refMatches f.cases path).map fun pattern =>
    !pattern.negated

section Reference

variable {cases : CaseMap} {fold : Bool} {c : Comp} {comps : List Comp} {path : List Bytes}

theorem accepts_eq_refComp (name : Bytes) :
    c.accepts cases fold name = refComp cases fold c name := by
  cases c with
  | anyDepth => rfl
  | literal l => rfl
  | glob tokens => exact Bool.eq_iff_iff.2 globMatch_iff

theorem refPath_one (hc : c ≠ .anyDepth) : refPath cases fold (c :: comps) path = true ↔
    ∃ name rest, path = name :: rest ∧ refComp cases fold c name = true ∧
      refPath cases fold comps rest = true := by
  cases c with
  | anyDepth => exact absurd rfl hc
  | literal | glob =>
    cases path with
    | nil => simp [refPath]
    | cons name path => simp [refPath]

theorem refPath_iff : refPath cases fold comps path = true ↔
    PathPattern.Matches (· = Comp.anyDepth) (Comp.accepts cases fold) comps path := by
  induction comps generalizing path with
  | nil => simp [refPath, PathPattern.Matches]
  | cons c comps ih =>
    by_cases hc : c = .anyDepth
    · subst hc
      refine Iff.trans ?_
        (@PathPattern.matches_star _ _ (· = Comp.anyDepth) _ (Comp.accepts cases fold) _ _ _
          rfl).symm
      rw [refPath, List.any_eq_true]
      constructor
      · rintro ⟨k, -, h⟩
        exact ⟨k, ih.1 h⟩
      · rintro ⟨k, h⟩
        by_cases hk : k ≤ path.length
        · exact ⟨k, List.mem_range.2 (by omega), ih.2 h⟩
        · rw [List.drop_eq_nil_of_le (by omega)] at h
          exact ⟨path.length, by simp, ih.2 (by rwa [List.drop_length])⟩
    · refine Iff.trans ?_
        (@PathPattern.matches_one _ _ (· = Comp.anyDepth) _ (Comp.accepts cases fold) _ _ _
          hc).symm
      rw [refPath_one hc]
      simp only [ih, accepts_eq_refComp]

theorem refMatches_iff {pattern : Pattern} :
    pattern.refMatches cases path = true ↔ pattern.Matches cases path := refPath_iff

end Reference

/-! ### The order of the positions -/

/-- No position stands twice, and the positions and the matches are in the order of the patterns, up
to the pattern `p`. -/
structure FilterState.Ordered (s : FilterState) (p : ℕ) : Prop where
  nodup : s.active.Nodup
  grouped : s.active.Pairwise fun a b => a.1 ≤ b.1
  matched : s.matched.Pairwise (· < ·)
  active_le : ∀ a ∈ s.active, a.1 ≤ p
  matched_le : ∀ q ∈ s.matched, q ≤ p

/-- The last group of a list in this order holds all the elements of the last pattern. -/
theorem mem_takeWhile_of_grouped {p : ℕ} {a : ℕ × ℕ} {l : List (ℕ × ℕ)}
    (hl : l.Pairwise fun a b => b.1 ≤ a.1) (hle : ∀ b ∈ l, b.1 ≤ p) (ha : a ∈ l) (hp : a.1 = p) :
    a ∈ l.takeWhile fun b => b.1 = p := by
  induction l with
  | nil => cases ha
  | cons b l ih =>
    have hb : b.1 = p := by
      rcases List.mem_cons.1 ha with rfl | ha
      · exact hp
      · have hab := (List.pairwise_cons.1 hl).1 a ha
        have hbp := hle b (by simp)
        omega
    rw [List.takeWhile_cons_of_pos (by simpa using hb)]
    rcases List.mem_cons.1 ha with rfl | ha
    · exact List.mem_cons_self
    · exact List.mem_cons_of_mem _
        (ih (List.pairwise_cons.1 hl).2 (fun b hb => hle b (List.mem_cons_of_mem _ hb)) ha)

/-- In an increasing list the greatest element is the last one. -/
theorem getLast?_of_increasing {p : ℕ} {l : List ℕ} (hl : l.Pairwise (· < ·)) (hle : ∀ q ∈ l, q ≤ p)
    (hp : p ∈ l) : l.getLast? = some p := by
  induction l using List.reverseRecOn with
  | nil => cases hp
  | append_singleton l x _ =>
    rw [List.getLast?_concat]
    rcases List.mem_append.1 hp with hp | hp
    · have hlt : p < x := (List.pairwise_append.1 hl).2.2 p hp x (by simp)
      have hxp := hle x (by simp)
      omega
    · rw [List.mem_singleton.1 hp]

namespace FilterState

variable {s : FilterState} {p q i : ℕ} {negated : Bool}

theorem ordered_empty : Ordered {} p := ⟨.nil, .nil, .nil, by simp, by simp⟩

theorem Ordered.mono (h : s.Ordered p) (hpq : p ≤ q) : s.Ordered q where
  nodup := h.nodup
  grouped := h.grouped
  matched := h.matched
  active_le := fun a ha => (h.active_le a ha).trans hpq
  matched_le := fun r hr => (h.matched_le r hr).trans hpq

/-- A position that does not stand in the last group stands nowhere. -/
theorem Ordered.push (h : s.Ordered p) : (s.push p negated i).Ordered p := by
  unfold FilterState.push
  split_ifs with hseen
  · exact h
  · have hnew : (p, i) ∉ s.active := fun hmem => hseen (List.any_eq_true.2 ⟨(p, i),
      mem_takeWhile_of_grouped (List.pairwise_reverse.2 h.grouped)
        (fun b hb => h.active_le b (List.mem_reverse.1 hb)) (List.mem_reverse.2 hmem) rfl,
      by simp⟩)
    refine ⟨?_, ?_, h.matched, ?_, h.matched_le⟩
    · exact List.nodup_append.2 ⟨h.nodup, List.nodup_singleton _, fun a ha b hb => by
        rintro rfl
        exact hnew (List.mem_singleton.1 hb ▸ ha)⟩
    · refine List.pairwise_append.2 ⟨h.grouped, List.pairwise_singleton _ _, fun a ha b hb => ?_⟩
      rw [List.mem_singleton.1 hb]
      exact h.active_le a ha
    · intro a ha
      rcases List.mem_append.1 ha with ha | ha
      · exact h.active_le a ha
      · rw [List.mem_singleton.1 ha]

theorem Ordered.add (h : s.Ordered p) (comps : List Comp) :
    (s.add p negated i comps).Ordered p := by
  induction comps generalizing i s with
  | nil =>
    unfold FilterState.add
    split_ifs with hlast
    · exact h
    · refine ⟨h.nodup, h.grouped, ?_, h.active_le, ?_⟩
      · refine List.pairwise_append.2 ⟨h.matched, List.pairwise_singleton _ _, fun a ha b hb => ?_⟩
        rw [List.mem_singleton.1 hb]
        refine lt_of_le_of_ne (h.matched_le a ha) ?_
        rintro rfl
        exact hlast (getLast?_of_increasing h.matched h.matched_le ha)
      · intro q hq
        rcases List.mem_append.1 hq with hq | hq
        · exact h.matched_le q hq
        · rw [List.mem_singleton.1 hq]
  | cons c comps ih =>
    unfold FilterState.add
    split_ifs
    · exact ih h.push
    · exact h.push

end FilterState

namespace PathFilter

variable {f : PathFilter} {s : FilterState} {p i : ℕ} {path : List Bytes}

open FilterState (Ordered ordered_empty)

theorem ordered_reach (h : s.Ordered p) : (f.reach s p i).Ordered p := by
  unfold reach
  split
  · exact h.add _
  · exact h

/-- Adding in the order of the patterns keeps the order. -/
theorem ordered_foldl {β : Type*} (step : FilterState → β → FilterState) (key : β → ℕ)
    (hstep : ∀ s b, s.Ordered (key b) → (step s b).Ordered (key b)) {l : List β}
    (hl : l.Pairwise fun a b => key a ≤ key b) (hs : s.Ordered p) (hp : ∀ b ∈ l, p ≤ key b) :
    ∃ q, (l.foldl step s).Ordered q := by
  induction l generalizing s p with
  | nil => exact ⟨p, hs⟩
  | cons b l ih =>
    obtain ⟨hb, hl⟩ := List.pairwise_cons.1 hl
    exact ih hl (hstep s b (hs.mono (hp b (by simp)))) hb

theorem ordered_start : ∃ q, f.start.Ordered q :=
  ordered_foldl _ id (fun _ _ h => ordered_reach h)
    (List.pairwise_lt_range.imp fun h => le_of_lt h) ordered_empty fun _ _ => Nat.zero_le _

theorem ordered_descend {name : Bytes} (h : s.Ordered p) : ∃ q, (f.descend s name).Ordered q := by
  unfold descend
  dsimp only
  generalize hnext : s.active.foldl _ _ = next
  obtain ⟨q, hq⟩ : ∃ q, next.Ordered q := by
    rw [← hnext]
    refine ordered_foldl _ Prod.fst (fun s a hs => ?_) h.grouped ordered_empty fun _ _ =>
      Nat.zero_le _
    split
    · exact ordered_reach hs
    · exact hs
  exact ⟨q, ⟨hq.nodup, hq.grouped, hq.matched, hq.active_le, hq.matched_le⟩⟩

theorem ordered_walk : ∃ q, (f.walk f.start path).Ordered q := by
  induction path using List.reverseRecOn with
  | nil => exact ordered_start
  | append_singleton path name ih =>
    obtain ⟨q, hq⟩ := ih
    rw [walk_append_singleton]
    exact ordered_descend hq

/-! ### The walk against the direct definition -/

theorem mem_matched_iff {name : Bytes} : p ∈ (f.walk f.start (path ++ [name])).matched ↔
    ∃ pattern, f.patterns[p]? = some pattern ∧
      pattern.refMatches f.cases (path ++ [name]) = true := by
  rw [mem_matched_walk]
  simp only [MatchesAt, refMatches_iff]

/-- The greatest number of a pattern that matches belongs to the last pattern that does. -/
theorem decision_eq_refDecision {name : Bytes} :
    (f.walk f.start (path ++ [name])).decision = f.refDecision (path ++ [name]) := by
  unfold refDecision
  cases hfind : f.patterns.reverse.find? fun pattern =>
    pattern.refMatches f.cases (path ++ [name]) with
  | none =>
    refine decision_walk_eq_none.2 fun p hp => ?_
    obtain ⟨pattern, hp, hm⟩ := hp
    exact List.find?_eq_none.1 hfind pattern (List.mem_reverse.2 (List.mem_of_getElem? hp))
      (refMatches_iff.2 hm)
  | some pattern =>
    obtain ⟨hm, after, before, hlist, hafter⟩ := List.find?_eq_some_iff_append.1 hfind
    have hlist : f.patterns = before.reverse ++ pattern :: after.reverse := by
      rw [← List.reverse_reverse f.patterns, hlist]
      simp
    have hp : f.patterns[before.length]? = some pattern := by simp [hlist]
    have hmax : (f.walk f.start (path ++ [name])).matched.max? = some before.length := by
      refine List.max?_eq_some_iff.2 ⟨mem_matched_iff.2 ⟨pattern, hp, hm⟩, fun q hq => ?_⟩
      obtain ⟨later, hlater, hmq⟩ := mem_matched_iff.1 hq
      by_contra hlt
      -- a later pattern stands in the part of the list that has been looked through
      have hmem : later ∈ after := by
        rw [hlist, List.getElem?_append_right (by simp; omega)] at hlater
        rw [List.length_reverse, show q - before.length = (q - before.length - 1) + 1 by omega,
          List.getElem?_cons_succ] at hlater
        exact List.mem_reverse.1 (List.mem_of_getElem? hlater)
      simpa [hmq] using hafter later hmem
    rw [walk_append_singleton] at hmax ⊢
    rw [decision_descend, hmax, Option.bind_some, hp]

/-- Above a path that a pattern matches, a pattern that is not a negated one is still alive. -/
theorem positiveAlive_of_refMatches {pattern : Pattern} {rest : List Bytes} (hrest : rest ≠ [])
    (hp : pattern ∈ f.patterns) (hneg : pattern.negated = false)
    (hm : pattern.refMatches f.cases (path ++ rest) = true) :
    (f.walk f.start path).positiveAlive = true := by
  obtain ⟨p, hp⟩ := List.mem_iff_getElem?.1 hp
  have halive : f.Alive (f.walk f.start path) p rest :=
    (alive_walk closed_start hrest).2
      ((alive_start (by simp [hrest])).2 ⟨pattern, hp, refMatches_iff.1 hm⟩)
  obtain ⟨pattern', i, hp', hi, -⟩ := halive
  cases hp.symm.trans hp'
  exact noted_walk p i pattern hi hp hneg

/-- **The filter implements its reference.** At every path, component by component: the matches and
the decision are those of the direct definition; every proper prefix of a path that a positive
pattern matches may still match below; and the positions carried along stand once each, grouped by
pattern. -/
theorem walk_eq_reference (f : PathFilter) (path : List Bytes) :
    let s := f.walk f.start path
    (path = [] ∨ (∀ p, p ∈ s.matched ↔ ∃ pattern, f.patterns[p]? = some pattern ∧
        pattern.refMatches f.cases path = true) ∧ s.decision = f.refDecision path) ∧
      (∀ rest pattern, rest ≠ [] → pattern ∈ f.patterns → pattern.negated = false →
        pattern.refMatches f.cases (path ++ rest) = true → s.positiveAlive = true) ∧
      s.active.Nodup ∧ (s.active.Pairwise fun a b => a.1 ≤ b.1) ∧ s.matched.Pairwise (· < ·) := by
  obtain ⟨q, hq⟩ := @ordered_walk f path
  refine ⟨?_, fun rest pattern hrest hp hneg hm => positiveAlive_of_refMatches hrest hp hneg hm,
    hq.nodup, hq.grouped, hq.matched⟩
  rcases List.eq_nil_or_concat path with rfl | ⟨path, name, rfl⟩
  · exact .inl rfl
  · rw [List.concat_eq_append]
    exact .inr ⟨fun p => mem_matched_iff, decision_eq_refDecision⟩

end PathFilter

end Kist
