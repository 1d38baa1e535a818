import Kist.Lib.Bytes
import Kist.Lib.PathPattern
import Mathlib.Data.List.TakeWhile

/-!
# Path filters

`kist-core::filter`: the patterns of `--exclude` and `--include`, compiled, and the state with which
a walk carries along how far each pattern has matched.

* `isMatch_walk`: the decision at a node is that of the last pattern that matches its path, by the
  direct definition of `PathPattern.Matches`.
-/

namespace Kist

/-- The case mappings of characters in the standard library. -/
structure CaseMap where
  lower : Char → List Char
  upper : Char → List Char

/-- `Token`: a piece of a component with wildcards. -/
inductive Token
  | char (c : Char)
  | anyChar
  | star
  | cls (negated : Bool) (ranges : List (Char × Char))
  deriving DecidableEq, Repr

/-- `Unit`: a character of a name, or a byte that belongs to none. -/
inductive NameUnit
  | char (c : Char)
  | byte (b : UInt8)
  deriving DecidableEq, Repr

/-- `Comp`: `**`, a component without wildcards, or one with wildcards. -/
inductive Comp
  | anyDepth
  | literal (name : Bytes)
  | glob (tokens : List Token)
  deriving DecidableEq, Repr

/-- `Pattern`, with its text as it was given. -/
structure Pattern where
  text : String
  comps : List Comp
  negated : Bool
  fold : Bool
  deriving DecidableEq, Repr

/-- `PathFilter`, with the case mapping that patterns without case use. -/
structure PathFilter where
  patterns : List Pattern
  cases : CaseMap

/-! ### One component -/

/-- A character in one of the closed ranges. -/
def inRanges (ranges : List (Char × Char)) (c : Char) : Bool :=
  ranges.any fun r => r.1 ≤ c && c ≤ r.2

/-- `Token::matches`. -/
def Token.matches (cases : CaseMap) (fold : Bool) : Token → NameUnit → Bool
  | .anyChar, _ => true
  | .char c, .char u => c = u || (fold && cases.lower c = cases.lower u)
  | .cls negated ranges, .char u =>
    let found := inRanges ranges u ||
      (fold && ((cases.lower u).any (inRanges ranges) || (cases.upper u).any (inRanges ranges)))
    found != negated
  | .cls negated _, .byte _ => negated
  | .char _, .byte _ => false
  | .star, _ => false

/-- The length that the first byte of a character announces; 1 for a byte that begins none. -/
def leadLen (lead : UInt8) : ℕ :=
  if lead ≤ 0x7F then 1
  else if 0xC2 ≤ lead ∧ lead ≤ 0xDF then 2
  else if 0xE0 ≤ lead ∧ lead ≤ 0xEF then 3
  else if 0xF0 ≤ lead ∧ lead ≤ 0xF4 then 4
  else 1

/-- The character that these bytes are the UTF-8 encoding of. -/
def charOfUtf8 (bytes : Bytes) : Option Char :=
  let cont (b : UInt8) : Bool := 0x80 ≤ b && b ≤ 0xBF
  let valid (v least : ℕ) : Option Char :=
    if h : Nat.isValidChar v then if least ≤ v then some (Char.ofNatAux v h) else none else none
  match bytes with
  | [a] => if a ≤ 0x7F then valid a.toNat 0 else none
  | [a, b] => if cont b then valid (a.toNat % 32 * 64 + b.toNat % 64) 0x80 else none
  | [a, b, c] =>
    if cont b && cont c then
      valid ((a.toNat % 16 * 64 + b.toNat % 64) * 64 + c.toNat % 64) 0x800
    else none
  | [a, b, c, d] =>
    if cont b && cont c && cont d then
      valid (((a.toNat % 8 * 64 + b.toNat % 64) * 64 + c.toNat % 64) * 64 + d.toNat % 64) 0x10000
    else none
  | _ => none

/-- `unit_at`: the character that starts at a position within the name, and its length. -/
def unitAt (name : Bytes) (pos : ℕ) : NameUnit × ℕ :=
  let lead := name.getD pos 0
  let len := leadLen lead
  let slice := (name.drop pos).take len
  match if slice.length = len then charOfUtf8 slice else none with
  | some c => (.char c, len)
  | none => (.byte lead, 1)

/-- The loop of `glob_match`: the next token, the position in the name, and behind the last `*` its
token and the position it has reached. -/
structure GlobState where
  t : ℕ
  pos : ℕ
  star : Option (ℕ × ℕ)
  star_le : ∀ s ∈ star, s.2 ≤ pos

/-- What is left for the last `*` to take, and the tokens left. -/
def GlobState.measure (tokens : List Token) (name : Bytes) (s : GlobState) : ℕ × ℕ :=
  (match s.star with
    | some (_, starAt) => name.length - starAt
    | none => name.length + 1, tokens.length - s.t)

/-- One round of `glob_match`. -/
def GlobState.next (cases : CaseMap) (tokens : List Token) (name : Bytes) (fold : Bool)
    (s : GlobState) : Option GlobState :=
  let (unit, len) := unitAt name s.pos
  let backtrack : Option GlobState :=
    match s.star with
    | none => none
    | some (after, starAt) =>
      let pos := starAt + (unitAt name starAt).2
      some ⟨after, pos, some (after, pos), fun r hr => by cases hr; exact le_rfl⟩
  match tokens[s.t]? with
  | some .star =>
    some ⟨s.t + 1, s.pos, some (s.t + 1, s.pos), fun r hr => by cases hr; exact le_rfl⟩
  | some token =>
    if token.matches cases fold unit then
      some ⟨s.t + 1, s.pos + len, s.star, fun r hr => Nat.le_add_right_of_le (s.star_le r hr)⟩
    else backtrack
  | none => backtrack

theorem unitAt_pos (name : Bytes) (pos : ℕ) : 0 < (unitAt name pos).2 := by
  have hlead : ∀ b, 0 < leadLen b := fun b => by unfold leadLen; split_ifs <;> simp
  unfold unitAt
  dsimp only
  split
  · exact hlead _
  · exact Nat.one_pos

/-- Every round shortens what the last `*` can still take, or uses up a token. -/
theorem GlobState.next_lt {cases : CaseMap} {tokens : List Token} {name : Bytes} {fold : Bool}
    {s s' : GlobState} (hpos : s.pos < name.length) (h : s.next cases tokens name fold = some s') :
    Prod.Lex (· < ·) (· < ·) (s'.measure tokens name) (s.measure tokens name) := by
  -- going back to the star moves its start one unit on
  have hback : (match s.star with
      | none => none
      | some (after, starAt) =>
        let pos := starAt + (unitAt name starAt).2
        some (⟨after, pos, some (after, pos), fun r hr => by cases hr; exact le_rfl⟩ :
          GlobState)) = some s' →
      Prod.Lex (· < ·) (· < ·) (s'.measure tokens name) (s.measure tokens name) := by
    intro h
    split at h
    · cases h
    · next after starAt hs =>
      cases h
      have := unitAt_pos name starAt
      have := s.star_le _ hs
      refine .left _ _ ?_
      rw [hs]
      dsimp only at this ⊢
      omega
  unfold next at h
  dsimp only at h
  split at h
  · next ht =>
    cases h
    have hlt := (List.getElem?_eq_some_iff.1 ht).1
    -- a star met anew takes the place of the one before, further on in the pattern
    rcases hs : s.star with _ | ⟨after, starAt⟩
    · refine .left _ _ ?_
      rw [hs]
      dsimp only
      omega
    · have hle := s.star_le _ hs
      dsimp only at hle
      rw [measure, measure, hs]
      dsimp only
      rcases hle.lt_or_eq with hlt' | rfl
      · exact .left _ _ (by omega)
      · exact .right _ (by omega)
  · next token _ ht =>
    have hlt := (List.getElem?_eq_some_iff.1 ht).1
    split_ifs at h with hm
    · cases h
      exact .right _ (by dsimp only; omega)
    · exact hback h
  · exact hback h

/-- `glob_match`, from a state of its loop. -/
def globLoop (cases : CaseMap) (tokens : List Token) (name : Bytes) (fold : Bool)
    (s : GlobState) : Bool :=
  if _hpos : s.pos < name.length then
    match _h : s.next cases tokens name fold with
    | none => false
    | some s' => globLoop cases tokens name fold s'
  else (tokens.drop s.t).all (· = .star)
  termination_by s.measure tokens name
  decreasing_by exact GlobState.next_lt _hpos _h

/-- `glob_match`. -/
def globMatch (cases : CaseMap) (tokens : List Token) (name : Bytes) (fold : Bool) : Bool :=
  globLoop cases tokens name fold ⟨0, 0, none, nofun⟩

/-- Whether a component other than `**` stands for the name. -/
def Comp.accepts (cases : CaseMap) (fold : Bool) : Comp → Bytes → Bool
  | .anyDepth, _ => false
  | .literal l, name => l = name
  | .glob tokens, name => globMatch cases tokens name fold

/-! ### The state of a walk -/

/-- `FilterState`. -/
structure FilterState where
  active : List (ℕ × ℕ) := []
  matched : List ℕ := []
  decision : Option Bool := none
  positiveAlive : Bool := false
  deriving DecidableEq, Repr

namespace FilterState

/-- `FilterState::is_match`. -/
def isMatch (s : FilterState) : Bool := s.decision = some true

/-- The pattern `p` is at the position `i`. Only the positions of the same pattern at the end of the
list are looked through. -/
def push (p : ℕ) (negated : Bool) (i : ℕ) (s : FilterState) : FilterState :=
  if (s.active.reverse.takeWhile fun a => a.1 = p).any fun a => a.2 = i then s
  else { s with active := s.active ++ [(p, i)], positiveAlive := s.positiveAlive || !negated }

/-- `FilterState::add`: the pattern `p` has reached the position `i`, before the components `comps`,
and every position behind further `**`. -/
def add (p : ℕ) (negated : Bool) : ℕ → List Comp → FilterState → FilterState
  | _, [], s => if s.matched.getLast? = some p then s else { s with matched := s.matched ++ [p] }
  | i, c :: comps, s =>
    if c = .anyDepth then add p negated (i + 1) comps (s.push p negated i)
    else s.push p negated i

end FilterState

namespace PathFilter

variable (f : PathFilter)

/-- The pattern `p` reaches the position `i`. -/
def reach (s : FilterState) (p i : ℕ) : FilterState :=
  match f.patterns[p]? with
  | some pattern => s.add p pattern.negated i (pattern.comps.drop i)
  | none => s

/-- `PathFilter::start`. -/
def start : FilterState := (List.range f.patterns.length).foldl (fun s p => f.reach s p 0) {}

/-- The position that an active one moves to under a name. -/
def advance (name : Bytes) (a : ℕ × ℕ) : Option ℕ :=
  match f.patterns[a.1]? with
  | none => none
  | some pattern =>
    match pattern.comps[a.2]? with
    | none => none
    | some .anyDepth => some a.2
    | some c => if c.accepts f.cases pattern.fold name then some (a.2 + 1) else none

/-- `PathFilter::descend`. -/
def descend (state : FilterState) (name : Bytes) : FilterState :=
  let next := state.active.foldl (fun next a =>
    match f.advance name a with
    | some i => f.reach next a.1 i
    | none => next) {}
  { next with
    decision := next.matched.max?.bind fun last => f.patterns[last]?.map fun pattern =>
      !pattern.negated }

/-- The state at a path. -/
def walk (state : FilterState) (path : List Bytes) : FilterState := path.foldl f.descend state

end PathFilter

/-! ### The direct definition -/

/-- The pattern matches a path, given by its components. -/
def Pattern.Matches (cases : CaseMap) (pattern : Pattern) (path : List Bytes) : Prop :=
  PathPattern.Matches (· = Comp.anyDepth) (Comp.accepts cases pattern.fold) pattern.comps path

namespace PathFilter

variable (f : PathFilter)

/-- The pattern with the number `p` matches the path. -/
def MatchesAt (p : ℕ) (path : List Bytes) : Prop :=
  ∃ pattern, f.patterns[p]? = some pattern ∧ pattern.Matches f.cases path

/-- The last pattern that matches the path is not a negated one. -/
def Selects (path : List Bytes) : Prop :=
  ∃ p pattern, f.patterns[p]? = some pattern ∧ pattern.Matches f.cases path ∧
    pattern.negated = false ∧ ∀ q, p < q → ¬f.MatchesAt q path

end PathFilter

/-! ### What a state stands for -/

open PathPattern (Skips skips_zero skips_succ_cons)

section Add

variable {p q i j : ℕ} {negated : Bool} {comps : List Comp} {s : FilterState}

theorem FilterState.mem_active_push :
    (q, j) ∈ (s.push p negated i).active ↔ (q, j) ∈ s.active ∨ (q = p ∧ j = i) := by
  unfold push
  split_ifs with hseen
  · refine ⟨.inl, ?_⟩
    rintro (h | ⟨rfl, rfl⟩)
    · exact h
    · obtain ⟨⟨a, b⟩, hmem, hb⟩ := List.any_eq_true.1 hseen
      have ha : a = q := by simpa using List.mem_takeWhile_imp hmem
      have hb' : b = j := by simpa using hb
      have := (List.takeWhile_prefix _).subset hmem
      rw [ha, hb'] at this
      exact List.mem_reverse.1 this
  · simp

@[simp] theorem FilterState.matched_push : (s.push p negated i).matched = s.matched := by
  unfold push; split_ifs <;> rfl

theorem FilterState.mem_active_add : (q, j) ∈ (s.add p negated i comps).active ↔
    (q, j) ∈ s.active ∨
      (q = p ∧ ∃ k, k < comps.length ∧ j = i + k ∧ Skips (· = Comp.anyDepth) comps k) := by
  induction comps generalizing i s with
  | nil => unfold add; split_ifs <;> simp
  | cons c comps ih =>
    unfold add
    split_ifs with hc
    · rw [ih, mem_active_push, or_assoc, ← and_or_left]
      refine or_congr_right (and_congr_right fun _ => ?_)
      constructor
      · rintro (rfl | ⟨k, hk, rfl, hs⟩)
        · exact ⟨0, by simp, rfl, skips_zero⟩
        · exact ⟨k + 1, by simpa using hk, by omega, skips_succ_cons.2 ⟨hc, hs⟩⟩
      · rintro ⟨_ | k, hk, rfl, hs⟩
        · exact .inl rfl
        · exact .inr ⟨k, by simpa using hk, by omega, (skips_succ_cons.1 hs).2⟩
    · rw [mem_active_push]
      refine or_congr_right (and_congr_right fun _ => ?_)
      constructor
      · rintro rfl
        exact ⟨0, by simp, rfl, skips_zero⟩
      · rintro ⟨_ | k, hk, rfl, hs⟩
        · rfl
        · exact absurd (skips_succ_cons.1 hs).1 hc

theorem FilterState.mem_matched_add : q ∈ (s.add p negated i comps).matched ↔
    q ∈ s.matched ∨ (q = p ∧ ∀ c ∈ comps, c = Comp.anyDepth) := by
  induction comps generalizing i s with
  | nil =>
    unfold add
    split_ifs with hlast
    · refine ⟨.inl, ?_⟩
      rintro (h | ⟨rfl, -⟩)
      · exact h
      · exact List.mem_of_getLast? hlast
    · simp
  | cons c comps ih =>
    unfold add
    split_ifs with hc
    · rw [ih]; simp [hc]
    · simp [hc]

end Add

namespace PathFilter

variable {f : PathFilter} {s : FilterState} {p q i j : ℕ} {name : Bytes} {path : List Bytes}

/-- The pattern `p` has a position in the state from which it matches the rest of a path. -/
def Alive (f : PathFilter) (s : FilterState) (p : ℕ) (path : List Bytes) : Prop :=
  ∃ pattern i, f.patterns[p]? = some pattern ∧ (p, i) ∈ s.active ∧
    PathPattern.Matches (· = Comp.anyDepth) (Comp.accepts f.cases pattern.fold)
      (pattern.comps.drop i) path

/-- The active positions are closed under skipping `**`. -/
def Closed (f : PathFilter) (s : FilterState) : Prop :=
  ∀ p pattern i k, f.patterns[p]? = some pattern → (p, i) ∈ s.active →
    Skips (· = Comp.anyDepth) (pattern.comps.drop i) k → i + k < pattern.comps.length →
      (p, i + k) ∈ s.active

theorem mem_active_reach : (q, j) ∈ (f.reach s p i).active ↔ (q, j) ∈ s.active ∨
    (q = p ∧ ∃ pattern k, f.patterns[p]? = some pattern ∧ i + k < pattern.comps.length ∧
      j = i + k ∧ Skips (· = Comp.anyDepth) (pattern.comps.drop i) k) := by
  unfold reach
  cases hp : f.patterns[p]? with
  | none => simp
  | some pattern =>
    simp only [FilterState.mem_active_add, List.length_drop, Option.some.injEq]
    refine or_congr_right (and_congr_right fun _ => ?_)
    constructor
    · rintro ⟨k, hk, rfl, hs⟩
      exact ⟨pattern, k, rfl, by omega, rfl, hs⟩
    · rintro ⟨_, k, rfl, hk, rfl, hs⟩
      exact ⟨k, by omega, rfl, hs⟩

theorem mem_matched_reach : q ∈ (f.reach s p i).matched ↔ q ∈ s.matched ∨
    (q = p ∧ ∃ pattern, f.patterns[p]? = some pattern ∧
      ∀ c ∈ pattern.comps.drop i, c = Comp.anyDepth) := by
  unfold reach
  cases hp : f.patterns[p]? with
  | none => simp
  | some pattern => simp [FilterState.mem_matched_add]

/-- The positions of a folded state are those that some element of the list adds. -/
theorem mem_active_foldl {β : Type*} {step : FilterState → β → FilterState} {P : β → ℕ × ℕ → Prop}
    (hstep : ∀ s b x, x ∈ (step s b).active ↔ x ∈ s.active ∨ P b x) (l : List β) :
    ∀ s x, x ∈ (l.foldl step s).active ↔ x ∈ s.active ∨ ∃ b ∈ l, P b x := by
  induction l with
  | nil => simp
  | cons b l ih =>
    intro s x
    rw [List.foldl_cons, ih, hstep]
    simp [or_assoc]

theorem mem_matched_foldl {β : Type*} {step : FilterState → β → FilterState} {P : β → ℕ → Prop}
    (hstep : ∀ s b p, p ∈ (step s b).matched ↔ p ∈ s.matched ∨ P b p) (l : List β) :
    ∀ s p, p ∈ (l.foldl step s).matched ↔ p ∈ s.matched ∨ ∃ b ∈ l, P b p := by
  induction l with
  | nil => simp
  | cons b l ih =>
    intro s p
    rw [List.foldl_cons, ih, hstep]
    simp [or_assoc]

theorem mem_active_start : (q, j) ∈ f.start.active ↔ ∃ pattern, f.patterns[q]? = some pattern ∧
    j < pattern.comps.length ∧ Skips (· = Comp.anyDepth) pattern.comps j := by
  have hstep : ∀ (s : FilterState) (p : ℕ) (x : ℕ × ℕ), x ∈ (f.reach s p 0).active ↔ x ∈ s.active ∨
      (x.1 = p ∧ ∃ pattern k, f.patterns[p]? = some pattern ∧ 0 + k < pattern.comps.length ∧
        x.2 = 0 + k ∧ Skips (· = Comp.anyDepth) (pattern.comps.drop 0) k) :=
    fun s p x => mem_active_reach (q := x.1) (j := x.2)
  refine (mem_active_foldl hstep _ {} (q, j)).trans ?_
  constructor
  · rintro (h | ⟨p, -, rfl, pattern, k, hp, hk, rfl, hs⟩)
    · cases h
    · simp only [Nat.zero_add] at hk ⊢
      exact ⟨pattern, hp, hk, hs⟩
  · rintro ⟨pattern, hp, hj, hs⟩
    have hlt := (List.getElem?_eq_some_iff.1 hp).1
    exact .inr ⟨q, List.mem_range.2 hlt, rfl, pattern, j, hp, by omega, by omega, hs⟩

/-- What one element of the active positions adds below a name. -/
theorem mem_active_descend : (q, j) ∈ (f.descend s name).active ↔
    ∃ a ∈ s.active, ∃ i pattern k, f.advance name a = some i ∧ q = a.1 ∧
      f.patterns[a.1]? = some pattern ∧ i + k < pattern.comps.length ∧ j = i + k ∧
        Skips (· = Comp.anyDepth) (pattern.comps.drop i) k := by
  have hstep : ∀ (s : FilterState) (a x : ℕ × ℕ),
      x ∈ (match f.advance name a with
        | some i => f.reach s a.1 i
        | none => s).active ↔ x ∈ s.active ∨
          ∃ i pattern k, f.advance name a = some i ∧ x.1 = a.1 ∧ f.patterns[a.1]? = some pattern ∧
            i + k < pattern.comps.length ∧ x.2 = i + k ∧
              Skips (· = Comp.anyDepth) (pattern.comps.drop i) k := by
    intro s a x
    cases f.advance name a with
    | none => simp
    | some i =>
      refine (mem_active_reach (q := x.1) (j := x.2)).trans (or_congr_right ?_)
      constructor
      · rintro ⟨hq, pattern, k, hp, hk, hj, hs⟩
        exact ⟨i, pattern, k, rfl, hq, hp, hk, hj, hs⟩
      · rintro ⟨_, pattern, k, hi, hq, hp, hk, hj, hs⟩
        cases hi
        exact ⟨hq, pattern, k, hp, hk, hj, hs⟩
  refine (mem_active_foldl hstep s.active {} (q, j)).trans ?_
  simp

theorem mem_matched_descend : q ∈ (f.descend s name).matched ↔
    ∃ a ∈ s.active, ∃ i pattern, f.advance name a = some i ∧ q = a.1 ∧
      f.patterns[a.1]? = some pattern ∧ ∀ c ∈ pattern.comps.drop i, c = Comp.anyDepth := by
  have hstep : ∀ (s : FilterState) (a : ℕ × ℕ) (p : ℕ),
      p ∈ (match f.advance name a with
        | some i => f.reach s a.1 i
        | none => s).matched ↔ p ∈ s.matched ∨
          ∃ i pattern, f.advance name a = some i ∧ p = a.1 ∧ f.patterns[a.1]? = some pattern ∧
            ∀ c ∈ pattern.comps.drop i, c = Comp.anyDepth := by
    intro s a p
    cases f.advance name a with
    | none => simp
    | some i =>
      refine mem_matched_reach.trans (or_congr_right ?_)
      constructor
      · rintro ⟨hq, pattern, hp, hc⟩
        exact ⟨i, pattern, rfl, hq, hp, hc⟩
      · rintro ⟨_, pattern, hi, hq, hp, hc⟩
        cases hi
        exact ⟨hq, pattern, hp, hc⟩
  refine (mem_matched_foldl hstep s.active {} q).trans ?_
  simp

/-- The move of a position, read off its component. -/
theorem advance_eq_some {a : ℕ × ℕ} {pattern : Pattern} {c : Comp}
    (hp : f.patterns[a.1]? = some pattern) (hc : pattern.comps[a.2]? = some c) :
    f.advance name a = some i ↔ (c = .anyDepth ∧ i = a.2) ∨
      (c ≠ .anyDepth ∧ c.accepts f.cases pattern.fold name = true ∧ i = a.2 + 1) := by
  unfold advance
  rw [hp]
  dsimp only
  rw [hc]
  cases c with
  | anyDepth => simpa using eq_comm
  | literal l =>
    dsimp only
    split_ifs with h
    · simpa [h] using eq_comm
    · simp [h]
  | glob tokens =>
    dsimp only
    split_ifs with h
    · simpa [h] using eq_comm
    · simp [h]

theorem advance_isSome_comps {a : ℕ × ℕ} (h : f.advance name a = some i) :
    ∃ pattern c, f.patterns[a.1]? = some pattern ∧ pattern.comps[a.2]? = some c := by
  unfold advance at h
  split at h
  · cases h
  · next pattern hp =>
    split at h
    · cases h
    · next hc => exact ⟨pattern, _, hp, hc⟩
    · next c _ hc => exact ⟨pattern, c, hp, hc⟩

theorem closed_start : f.Closed f.start := by
  intro p pattern i k hp hi hs hk
  obtain ⟨pattern', hp', hi', hs'⟩ := mem_active_start.1 hi
  cases hp.symm.trans hp'
  refine mem_active_start.2 ⟨pattern, hp, hk, fun c hc => ?_⟩
  rw [List.take_add, List.mem_append] at hc
  exact hc.elim (hs' c) (hs c)

theorem closed_descend : f.Closed (f.descend s name) := by
  intro p pattern j k hp hj hs hk
  obtain ⟨a, ha, i, pattern', k', hadv, rfl, hp', hk', rfl, hs'⟩ := mem_active_descend.1 hj
  cases hp.symm.trans hp'
  refine mem_active_descend.2 ⟨a, ha, i, pattern, k' + k, hadv, rfl, hp, by omega, by omega,
    fun c hc => ?_⟩
  rw [List.take_add, List.mem_append, List.drop_drop] at hc
  exact hc.elim (hs' c) (hs c)

/-- A position from which the rest of a path is matched moves, below the first name of the path, to
one from which the rest behind it is matched. -/
theorem Alive.advance (hs : f.Closed s) (h : f.Alive s p (name :: path)) :
    ∃ pattern a i, f.patterns[p]? = some pattern ∧ a ∈ s.active ∧ a.1 = p ∧
      f.advance name a = some i ∧
        PathPattern.Matches (· = Comp.anyDepth) (Comp.accepts f.cases pattern.fold)
          (pattern.comps.drop i) path := by
  obtain ⟨pattern, i, hp, hi, hm⟩ := h
  obtain ⟨k, c, rest, hd, hk, hm⟩ := PathPattern.matches_cons_iff.1 hm
  rw [List.drop_drop] at hd
  have hlt : i + k < pattern.comps.length := by
    by_contra hge
    rw [List.drop_eq_nil_of_le (not_lt.1 hge)] at hd
    cases hd
  have hc : pattern.comps[i + k]? = some c := by
    rw [← List.head?_drop, hd]; rfl
  have hrest : pattern.comps.drop (i + k + 1) = rest := by
    rw [← List.drop_drop, hd]; rfl
  have ha := hs p pattern i k hp hi hk hlt
  rcases hm with ⟨hany, hm⟩ | ⟨hone, hacc, hm⟩
  · exact ⟨pattern, (p, i + k), i + k, hp, ha, rfl,
      (advance_eq_some hp hc).2 (.inl ⟨hany, rfl⟩), by rw [hd]; exact hm⟩
  · exact ⟨pattern, (p, i + k), i + k + 1, hp, ha, rfl,
      (advance_eq_some hp hc).2 (.inr ⟨hone, hacc, rfl⟩), by rw [hrest]; exact hm⟩

theorem alive_of_advance {pattern : Pattern} {a : ℕ × ℕ} (hp : f.patterns[a.1]? = some pattern)
    (ha : a ∈ s.active) (hadv : f.advance name a = some i)
    (hm : PathPattern.Matches (· = Comp.anyDepth) (Comp.accepts f.cases pattern.fold)
      (pattern.comps.drop i) path) : f.Alive s a.1 (name :: path) := by
  obtain ⟨pattern', c, hp', hc⟩ := advance_isSome_comps hadv
  cases hp.symm.trans hp'
  refine ⟨pattern, a.2, hp, ha, ?_⟩
  have hd : pattern.comps.drop a.2 = c :: pattern.comps.drop (a.2 + 1) := by
    obtain ⟨hlt, rfl⟩ := List.getElem?_eq_some_iff.1 hc
    exact List.drop_eq_getElem_cons hlt
  refine PathPattern.matches_cons_iff.2 ⟨0, c, _, hd, skips_zero, ?_⟩
  rcases (advance_eq_some hp hc).1 hadv with ⟨hany, rfl⟩ | ⟨hone, hacc, rfl⟩
  · exact .inl ⟨hany, by rw [← hd]; exact hm⟩
  · exact .inr ⟨hone, hacc, hm⟩

/-- **One step of the matcher.** The patterns that match the rest of a path from the state of a
directory match the rest behind a name from the state of that child. -/
theorem alive_descend (hs : f.Closed s) (hpath : path ≠ []) :
    f.Alive (f.descend s name) p path ↔ f.Alive s p (name :: path) := by
  constructor
  · rintro ⟨pattern, j, hp, hj, hm⟩
    obtain ⟨a, ha, i, pattern', k, hadv, rfl, hp', hk, rfl, hskip⟩ := mem_active_descend.1 hj
    cases hp.symm.trans hp'
    refine alive_of_advance hp ha hadv (PathPattern.matches_of_skips hskip ?_)
    rw [List.drop_drop]
    exact hm
  · intro h
    obtain ⟨pattern, a, i, hp, ha, rfl, hadv, hm⟩ := h.advance hs
    have hlt : i < pattern.comps.length := by
      by_contra hge
      rw [List.drop_eq_nil_of_le (not_lt.1 hge)] at hm
      exact hpath hm
    exact ⟨pattern, i, hp, mem_active_descend.2
      ⟨a, ha, i, pattern, 0, hadv, rfl, hp, hlt, rfl, skips_zero⟩, hm⟩

theorem mem_matched_descend_iff (hs : f.Closed s) :
    p ∈ (f.descend s name).matched ↔ f.Alive s p [name] := by
  rw [mem_matched_descend]
  constructor
  · rintro ⟨a, ha, i, pattern, hadv, rfl, hp, hall⟩
    exact alive_of_advance hp ha hadv (PathPattern.matches_nil_iff.2 hall)
  · intro h
    obtain ⟨pattern, a, i, hp, ha, rfl, hadv, hm⟩ := h.advance hs
    exact ⟨a, ha, i, pattern, hadv, rfl, hp, PathPattern.matches_nil_iff.1 hm⟩

theorem alive_start (hpath : path ≠ []) : f.Alive f.start p path ↔ f.MatchesAt p path := by
  constructor
  · rintro ⟨pattern, i, hp, hi, hm⟩
    obtain ⟨pattern', hp', -, hs⟩ := mem_active_start.1 hi
    cases hp.symm.trans hp'
    exact ⟨pattern, hp, PathPattern.matches_of_skips hs hm⟩
  · rintro ⟨pattern, hp, hm⟩
    refine ⟨pattern, 0, hp, mem_active_start.2 ⟨pattern, hp, ?_, skips_zero⟩, hm⟩
    rcases hc : pattern.comps with _ | ⟨c, cs⟩
    · rw [Pattern.Matches, hc] at hm
      exact absurd hm hpath
    · simp

theorem walk_append_singleton : f.walk s (path ++ [name]) = f.descend (f.walk s path) name := by
  simp [walk]

theorem closed_walk (hs : f.Closed s) : f.Closed (f.walk s path) := by
  induction path using List.reverseRecOn with
  | nil => exact hs
  | append_singleton path name _ => rw [walk_append_singleton]; exact closed_descend

/-- A run of the matcher keeps what the rest of a path matches. -/
theorem alive_walk (hs : f.Closed s) {rest : List Bytes} (hrest : rest ≠ []) :
    f.Alive (f.walk s path) p rest ↔ f.Alive s p (path ++ rest) := by
  induction path generalizing s with
  | nil => rfl
  | cons name path ih =>
    have hcons : f.walk s (name :: path) = f.walk (f.descend s name) path := rfl
    rw [hcons, ih closed_descend, alive_descend hs (by simp [hrest]), List.cons_append]

/-- **The matcher finds the patterns that match.** -/
theorem mem_matched_walk :
    p ∈ (f.walk f.start (path ++ [name])).matched ↔ f.MatchesAt p (path ++ [name]) := by
  rw [walk_append_singleton, mem_matched_descend_iff (closed_walk closed_start),
    alive_walk closed_start (by simp), alive_start (by simp)]

theorem decision_descend : (f.descend s name).decision =
    (f.descend s name).matched.max?.bind fun last => f.patterns[last]?.map fun pattern =>
      !pattern.negated := rfl

/-- **The decision at a node.** A node counts as matched when the last pattern that matches its path
is not a negated one. -/
theorem isMatch_walk :
    (f.walk f.start (path ++ [name])).isMatch = true ↔ f.Selects (path ++ [name]) := by
  have hmem : ∀ p, p ∈ (f.walk f.start (path ++ [name])).matched ↔
      f.MatchesAt p (path ++ [name]) := fun _ => mem_matched_walk
  rw [walk_append_singleton] at hmem ⊢
  rw [FilterState.isMatch, decision_descend, decide_eq_true_eq]
  constructor
  · intro h
    obtain ⟨last, hlast, h⟩ := Option.bind_eq_some_iff.1 h
    obtain ⟨pattern, hp, hneg⟩ := Option.map_eq_some_iff.1 h
    obtain ⟨hin, hmax⟩ := List.max?_eq_some_iff.1 hlast
    obtain ⟨pattern', hp', hm⟩ := (hmem last).1 hin
    cases hp.symm.trans hp'
    refine ⟨last, pattern, hp, hm, by simpa using hneg, fun q hq hmq => ?_⟩
    exact absurd (hmax q ((hmem q).2 hmq)) (not_le.2 hq)
  · rintro ⟨p, pattern, hp, hm, hneg, hlast⟩
    refine Option.bind_eq_some_iff.2 ⟨p, List.max?_eq_some_iff.2
      ⟨(hmem p).2 ⟨pattern, hp, hm⟩, fun q hq => ?_⟩, by simp [hp, hneg]⟩
    by_contra hlt
    exact hlast q (not_le.1 hlt) ((hmem q).1 hq)

/-- Without a decision at a node no pattern matches its path. -/
theorem decision_walk_eq_none :
    (f.walk f.start (path ++ [name])).decision = none ↔ ∀ p, ¬f.MatchesAt p (path ++ [name]) := by
  have hmem : ∀ p, p ∈ (f.walk f.start (path ++ [name])).matched ↔
      f.MatchesAt p (path ++ [name]) := fun _ => mem_matched_walk
  rw [walk_append_singleton] at hmem ⊢
  rw [decision_descend]
  constructor
  · intro h p hp
    obtain ⟨last, hlast⟩ := Option.isSome_iff_exists.1
      (List.isSome_max?_of_mem ((hmem p).2 hp))
    obtain ⟨pattern, hpat, -⟩ := (hmem last).1 (List.max?_eq_some_iff.1 hlast).1
    rw [hlast, Option.bind_some, hpat] at h
    cases h
  · intro h
    have hnil : (f.descend (f.walk f.start path) name).matched = [] :=
      List.eq_nil_iff_forall_not_mem.2 fun p hp => h p ((hmem p).1 hp)
    rw [hnil]
    rfl

/-! ### What lies below a node -/

/-- A position of a pattern that is not a negated one is noted. -/
def Noted (f : PathFilter) (s : FilterState) : Prop :=
  ∀ p i pattern, (p, i) ∈ s.active → f.patterns[p]? = some pattern → pattern.negated = false →
    s.positiveAlive = true

theorem noted_push {pattern : Pattern} (hs : f.Noted s) (hp : f.patterns[p]? = some pattern) :
    f.Noted (s.push p pattern.negated i) := by
  intro q j pattern' hmem hq hneg
  unfold FilterState.push at hmem ⊢
  split_ifs at hmem ⊢
  · exact hs q j pattern' hmem hq hneg
  · rcases List.mem_append.1 hmem with hmem | hmem
    · simp [hs q j pattern' hmem hq hneg]
    · cases List.mem_singleton.1 hmem
      cases hp.symm.trans hq
      simp [hneg]

theorem noted_add {pattern : Pattern} (hp : f.patterns[p]? = some pattern) (comps : List Comp) :
    ∀ {i : ℕ} {s : FilterState}, f.Noted s → f.Noted (s.add p pattern.negated i comps) := by
  induction comps with
  | nil =>
    intro i s hs
    unfold FilterState.add
    split_ifs
    · exact hs
    · exact fun q j pattern' => hs q j pattern'
  | cons c comps ih =>
    intro i s hs
    unfold FilterState.add
    split_ifs
    · exact ih (noted_push hs hp)
    · exact noted_push hs hp

theorem noted_reach (hs : f.Noted s) : f.Noted (f.reach s p i) := by
  unfold reach
  split
  · next pattern hp => exact noted_add hp _ hs
  · exact hs

theorem noted_foldl {β : Type*} {step : FilterState → β → FilterState}
    (hstep : ∀ s b, f.Noted s → f.Noted (step s b)) (l : List β) :
    ∀ s, f.Noted s → f.Noted (l.foldl step s) := by
  induction l with
  | nil => exact fun _ hs => hs
  | cons b l ih => exact fun s hs => ih _ (hstep s b hs)

theorem noted_empty : f.Noted {} := fun _ _ _ h => absurd h (List.not_mem_nil)

theorem noted_start : f.Noted f.start :=
  noted_foldl (fun _ _ hs => noted_reach hs) _ _ noted_empty

theorem noted_descend : f.Noted (f.descend s name) := by
  refine noted_foldl (fun s a hs => ?_) s.active {} noted_empty
  split
  · exact noted_reach hs
  · exact hs

theorem noted_walk : f.Noted (f.walk f.start path) := by
  induction path using List.reverseRecOn with
  | nil => exact noted_start
  | append_singleton path name _ => rw [walk_append_singleton]; exact noted_descend

/-- **Pruning is safe.** At a node above one that the patterns select, a pattern that is not a
negated one is still alive. -/
theorem positiveAlive_of_selects {rest : List Bytes} (hrest : rest ≠ [])
    (h : f.Selects (path ++ rest)) : (f.walk f.start path).positiveAlive = true := by
  obtain ⟨p, pattern, hp, hm, hneg, -⟩ := h
  have halive : f.Alive (f.walk f.start path) p rest :=
    (alive_walk closed_start hrest).2 ((alive_start (by simp [hrest])).2 ⟨pattern, hp, hm⟩)
  obtain ⟨pattern', i, hp', hi, -⟩ := halive
  cases hp.symm.trans hp'
  exact noted_walk p i pattern hi hp hneg

end PathFilter
end Kist
