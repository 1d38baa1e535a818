import Mathlib
import Kist.Filter

/-!
# One component of a pattern

The units of a name, by the encoding of characters alone, and the direct definition of a component
with wildcards over them.

* `decodes_iff`: `unit_at` cuts a name into its units, malformed or not.
* `GlobState.Follows`: what the loop of `glob_match` keeps while it only goes back to the last `*`.
-/

namespace Kist

/-! ### Units -/

/-- The units of a name: a character where the bytes begin with its encoding, a byte where they
begin with no encoding of a character. -/
inductive Decodes : Bytes → List NameUnit → Prop
  | nil : Decodes [] []
  | char {c : Char} {rest : Bytes} {us : List NameUnit} (h : Decodes rest us) :
    Decodes (String.utf8EncodeChar c ++ rest) (.char c :: us)
  | byte {b : UInt8} {rest : Bytes} {us : List NameUnit}
    (hb : ∀ c, ¬String.utf8EncodeChar c <+: b :: rest) (h : Decodes rest us) :
    Decodes (b :: rest) (.byte b :: us)

/-- The units of a name as `unit_at` finds them. -/
def units (name : Bytes) : List NameUnit :=
  if _h : name = [] then [] else (unitAt name 0).1 :: units (name.drop (unitAt name 0).2)
  termination_by name.length
  decreasing_by
    have := unitAt_pos name 0
    have := List.length_pos_iff.2 _h
    rw [List.length_drop]
    omega

/-- The first byte of an encoding announces its length. -/
theorem leadLen_utf8EncodeChar (c : Char) :
    leadLen ((String.utf8EncodeChar c).headD 0) = (String.utf8EncodeChar c).length := by
  have hv : c.val.toNat < 0x110000 := by
    have h : Nat.isValidChar c.val.toNat := c.valid
    unfold Nat.isValidChar at h
    omega
  unfold String.utf8EncodeChar
  dsimp only
  generalize c.val.toNat = v at hv
  split_ifs with h₁ h₂ h₃
  all_goals
    simp only [List.headD_cons, List.length_cons, List.length_nil, leadLen, UInt8.le_iff_toNat_le,
      UInt8.toNat_ofNat']
    simp only [UInt8.reduceToNat, Nat.reducePow]
    split_ifs <;> omega

/-- A code point that is checked before it becomes a character. -/
theorem ofCode_eq_some {v least : ℕ} {c : Char} :
    (if h : Nat.isValidChar v then if least ≤ v then some (Char.ofNatAux v h) else none
      else none) = some c ↔ least ≤ v ∧ v = c.val.toNat := by
  constructor
  · intro h
    by_cases hvalid : Nat.isValidChar v
    · rw [dif_pos hvalid] at h
      by_cases hle : least ≤ v
      · rw [if_pos hle] at h
        cases h
        exact ⟨hle, rfl⟩
      · rw [if_neg hle] at h
        cases h
    · rw [dif_neg hvalid] at h
      cases h
  · rintro ⟨hle, rfl⟩
    have hvalid : Nat.isValidChar c.val.toNat := c.valid
    rw [dif_pos hvalid, if_pos hle]
    exact congrArg some (Char.ext (UInt32.toNat_inj.1 rfl))

theorem eq_ofNat_iff {a : UInt8} {n : ℕ} (hn : n < 256) : a = UInt8.ofNat n ↔ a.toNat = n := by
  rw [← UInt8.toNat_inj, UInt8.toNat_ofNat', Nat.mod_eq_of_lt hn]

/-- With the length that the first byte announces, decoding is the inverse of encoding. -/
theorem charOfUtf8_eq_some {slice : Bytes} {c : Char}
    (hlen : slice.length = leadLen (slice.headD 0)) :
    charOfUtf8 slice = some c ↔ slice = String.utf8EncodeChar c := by
  have hv : c.val.toNat < 0x110000 := by
    have h : Nat.isValidChar c.val.toNat := c.valid
    unfold Nat.isValidChar at h
    omega
  unfold String.utf8EncodeChar
  -- by the length of the slice; the encodings of other lengths differ from it
  rcases slice with _ | ⟨a, _ | ⟨b, _ | ⟨d, _ | ⟨e, _ | ⟨g, rest⟩⟩⟩⟩⟩
  all_goals
    simp only [leadLen, UInt8.le_iff_toNat_le, UInt8.reduceToNat, List.length_cons,
      List.length_nil, List.headD_cons, List.headD_nil] at hlen
    dsimp only [charOfUtf8]
    simp only [reduceCtorEq, Option.ite_none_right_eq_some, Bool.and_eq_true, decide_eq_true_eq,
      UInt8.le_iff_toNat_le, UInt8.reduceToNat, ofCode_eq_some]
    generalize c.val.toNat = v at hv
  · split_ifs at hlen
  · have := a.toNat_lt
    split_ifs with h₁ h₂ h₃ <;>
      simp only [List.cons.injEq, reduceCtorEq, and_true, and_false, iff_false]
    · rw [eq_ofNat_iff (by omega)]
      omega
    all_goals omega
  · have hlead : 0xC2 ≤ a.toNat ∧ a.toNat ≤ 0xDF := by split_ifs at hlen <;> omega
    split_ifs with h₁ h₂ h₃ <;>
      simp only [List.cons.injEq, reduceCtorEq, and_true, and_false, iff_false]
    · omega
    · rw [eq_ofNat_iff (by omega), eq_ofNat_iff (by omega)]
      omega
    all_goals omega
  · have hlead : 0xE0 ≤ a.toNat ∧ a.toNat ≤ 0xEF := by split_ifs at hlen <;> omega
    split_ifs with h₁ h₂ h₃ <;>
      simp only [List.cons.injEq, reduceCtorEq, and_true, and_false, iff_false]
    · omega
    · omega
    · rw [eq_ofNat_iff (by omega), eq_ofNat_iff (by omega), eq_ofNat_iff (by omega)]
      omega
    · omega
  · have hlead : 0xF0 ≤ a.toNat ∧ a.toNat ≤ 0xF4 := by split_ifs at hlen <;> omega
    split_ifs with h₁ h₂ h₃ <;>
      simp only [List.cons.injEq, reduceCtorEq, and_true, and_false, iff_false]
    · omega
    · omega
    · omega
    · rw [eq_ofNat_iff (by omega), eq_ofNat_iff (by omega), eq_ofNat_iff (by omega),
        eq_ofNat_iff (by omega)]
      omega
  · split_ifs at hlen <;> omega

theorem unitAt_drop (name : Bytes) (pos : ℕ) : unitAt (name.drop pos) 0 = unitAt name pos := by
  unfold unitAt
  simp [List.getD_eq_getElem?_getD, List.getElem?_drop]

/-- The unit at the start of a name that begins with a character. -/
theorem unitAt_utf8EncodeChar_append (c : Char) (rest : Bytes) :
    unitAt (String.utf8EncodeChar c ++ rest) 0 =
      (.char c, (String.utf8EncodeChar c).length) := by
  have hlead := leadLen_utf8EncodeChar c
  have hhead : (String.utf8EncodeChar c ++ rest).getD 0 0 = (String.utf8EncodeChar c).headD 0 := by
    have hne : String.utf8EncodeChar c ≠ [] := String.utf8EncodeChar_ne_nil
    cases h : String.utf8EncodeChar c with
    | nil => exact absurd h hne
    | cons b bs => simp
  unfold unitAt
  dsimp only
  rw [hhead, hlead, List.drop_zero, List.take_left, if_pos rfl,
    (charOfUtf8_eq_some hlead.symm).2 rfl]

/-- The unit at the start of a name that begins with no character. -/
theorem unitAt_byte {b : UInt8} {rest : Bytes}
    (hb : ∀ c, ¬String.utf8EncodeChar c <+: b :: rest) : unitAt (b :: rest) 0 = (.byte b, 1) := by
  unfold unitAt
  simp only [List.getD_cons_zero, List.drop_zero]
  have hnone : (if ((b :: rest).take (leadLen b)).length = leadLen b then
      charOfUtf8 ((b :: rest).take (leadLen b)) else none) = none := by
    split_ifs with hlen
    · refine Option.eq_none_iff_forall_ne_some.2 fun c hc => hb c ?_
      have hpos : 0 < leadLen b := by unfold leadLen; split_ifs <;> simp
      have hhead : ((b :: rest).take (leadLen b)).headD 0 = b := by
        obtain ⟨n, hn⟩ := Nat.exists_eq_add_of_lt hpos
        rw [hn]
        simp
      rw [← (charOfUtf8_eq_some (by rw [hhead]; exact hlen)).1 hc]
      exact List.take_prefix _ _
    · rfl
  rw [hnone]

theorem units_nil : units [] = [] := by
  rw [units]
  simp

theorem units_cons {name : Bytes} (h : name ≠ []) :
    units name = (unitAt name 0).1 :: units (name.drop (unitAt name 0).2) := by
  rw [units, dif_neg h]

/-- **The units of a name.** Every name is cut in one way into characters and bytes that belong to
none, and `unit_at` finds it. -/
theorem decodes_iff {name : Bytes} {us : List NameUnit} : Decodes name us ↔ us = units name := by
  constructor
  · intro h
    induction h with
    | nil => exact units_nil.symm
    | @char c rest us _ ih =>
      rw [units_cons (by simp), unitAt_utf8EncodeChar_append, List.drop_left, ih]
    | @byte b rest us hb _ ih =>
      rw [units_cons (by simp), unitAt_byte hb, ih]
      rfl
  · rintro rfl
    induction name using units.induct with
    | case1 => exact units_nil ▸ .nil
    | case2 name hne ih =>
      rw [units_cons hne]
      by_cases hc : ∃ c, String.utf8EncodeChar c <+: name
      · obtain ⟨c, rest, rfl⟩ := hc
        rw [unitAt_utf8EncodeChar_append, List.drop_left] at ih ⊢
        exact .char ih
      · obtain ⟨b, rest, rfl⟩ := List.exists_cons_of_ne_nil hne
        have hb : ∀ c, ¬String.utf8EncodeChar c <+: b :: rest := fun c h => hc ⟨c, h⟩
        rw [unitAt_byte hb] at ih ⊢
        exact .byte hb ih

/-! ### The direct definition -/

/-- A component with wildcards stands for these units: the test's `ref_glob`. -/
def refGlob (cases : CaseMap) (fold : Bool) : List Token → List NameUnit → Bool
  | [], us => us.isEmpty
  | .star :: rest, us =>
    (List.range (us.length + 1)).any fun k => refGlob cases fold rest (us.drop k)
  | token :: rest, us =>
    match us with
    | [] => false
    | u :: us => token.matches cases fold u && refGlob cases fold rest us

/-- The tokens match the units, a `*` any number of them and every other token one. -/
abbrev TokensMatch (cases : CaseMap) (fold : Bool) : List Token → List NameUnit → Prop :=
  PathPattern.Matches (· = Token.star) (Token.matches cases fold)

section Glob

variable {cases : CaseMap} {fold : Bool} {tokens : List Token} {name : Bytes} {us : List NameUnit}

theorem tokensMatch_star {rest : List Token} :
    TokensMatch cases fold (.star :: rest) us ↔ ∃ k, TokensMatch cases fold rest (us.drop k) :=
  @PathPattern.matches_star _ _ (· = Token.star) _ (Token.matches cases fold) _ _ _ rfl

theorem tokensMatch_one {token : Token} {rest : List Token} (ht : ¬token = .star) :
    TokensMatch cases fold (token :: rest) us ↔ ∃ u us', us = u :: us' ∧
      token.matches cases fold u = true ∧ TokensMatch cases fold rest us' :=
  @PathPattern.matches_one _ _ (· = Token.star) _ (Token.matches cases fold) _ _ _ ht

theorem refGlob_one {token : Token} (ht : token ≠ .star) (rest : List Token) :
    refGlob cases fold (token :: rest) us = true ↔
      ∃ u us', us = u :: us' ∧ token.matches cases fold u = true ∧
        refGlob cases fold rest us' = true := by
  cases token with
  | star => exact absurd rfl ht
  | char | anyChar | cls =>
    cases us with
    | nil => simp [refGlob]
    | cons u us => simp [refGlob]

theorem refGlob_iff : refGlob cases fold tokens us = true ↔ TokensMatch cases fold tokens us := by
  induction tokens generalizing us with
  | nil => simp [refGlob, PathPattern.Matches]
  | cons token rest ih =>
    by_cases ht : token = .star
    · subst ht
      rw [tokensMatch_star, refGlob, List.any_eq_true]
      constructor
      · rintro ⟨k, -, h⟩
        exact ⟨k, ih.1 h⟩
      · rintro ⟨k, h⟩
        by_cases hk : k ≤ us.length
        · exact ⟨k, List.mem_range.2 (by omega), ih.2 h⟩
        · -- a star cannot take more than there is
          rw [List.drop_eq_nil_of_le (by omega)] at h
          exact ⟨us.length, by simp, ih.2 (by rwa [List.drop_length])⟩
    · rw [refGlob_one ht, tokensMatch_one ht]
      simp only [ih]

/-! ### The loop -/

/-- A round of `glob_match` keeps what is to be found out: with no `*` seen, whether the tokens left
match the units left; behind a `*`, whether the tokens behind it match some end of what it began
with, of which the tokens since then have taken as many units as they are. -/
def GlobState.Follows (cases : CaseMap) (fold : Bool) (tokens : List Token) (name : Bytes)
    (goal : Prop) (s : GlobState) : Prop :=
  match s.star with
  | none => goal ↔ TokensMatch cases fold (tokens.drop s.t) (units (name.drop s.pos))
  | some (after, starAt) =>
    (goal ↔ ∃ k, TokensMatch cases fold (tokens.drop after) ((units (name.drop starAt)).drop k)) ∧
      ∃ mid pre, tokens.drop after = mid ++ tokens.drop s.t ∧
        units (name.drop starAt) = pre ++ units (name.drop s.pos) ∧
        List.Forall₂ (fun t u => ¬t = Token.star ∧ t.matches cases fold u = true) mid pre

variable {goal : Prop} {s s' : GlobState}

theorem units_drop {pos : ℕ} (h : pos < name.length) :
    units (name.drop pos) =
      (unitAt name pos).1 :: units (name.drop (pos + (unitAt name pos).2)) := by
  have hne : name.drop pos ≠ [] := fun h' => by
    have := congrArg List.length h'
    simp at this
    omega
  rw [units_cons hne, unitAt_drop, List.drop_drop]

/-- Without units left, the tokens left decide. -/
theorem GlobState.Follows.done (h : s.Follows cases fold tokens name goal)
    (hpos : name.length ≤ s.pos) : goal ↔ (tokens.drop s.t).all (· = .star) = true := by
  have hnil : units (name.drop s.pos) = [] := by
    rw [List.drop_eq_nil_of_le hpos, units_nil]
  have hall : (tokens.drop s.t).all (· = .star) = true ↔
      TokensMatch cases fold (tokens.drop s.t) [] := by
    rw [TokensMatch, PathPattern.matches_nil_iff]
    simp
  unfold Follows at h
  rw [hnil] at h
  rw [hall]
  split at h
  · exact h
  · next after starAt _ =>
    obtain ⟨hgoal, mid, pre, hafter, hstar, hfits⟩ := h
    rw [hgoal, hafter, hstar]
    constructor
    · rintro ⟨k, h⟩
      simpa using PathPattern.matches_of_drop_append hfits h
    · intro h
      exact ⟨0, PathPattern.matches_append_of_fits hfits h⟩

/-- Behind a `*` that the tokens from there on begin with, the units from there on are its own. -/
theorem GlobState.Follows.star (h : s.Follows cases fold tokens name goal)
    (ht : tokens[s.t]? = some .star) : goal ↔
      ∃ k, TokensMatch cases fold (tokens.drop (s.t + 1)) ((units (name.drop s.pos)).drop k) := by
  obtain ⟨hlt, ht⟩ := List.getElem?_eq_some_iff.1 ht
  have hdrop : tokens.drop s.t = .star :: tokens.drop (s.t + 1) := by
    rw [List.drop_eq_getElem_cons hlt, ht]
  unfold Follows at h
  rw [hdrop] at h
  split at h
  · rw [h, tokensMatch_star]
  · obtain ⟨hgoal, mid, pre, hafter, hstar, hfits⟩ := h
    rw [hgoal, hafter, hstar]
    exact PathPattern.exists_matches_star_iff rfl hfits

/-- A token that takes the next unit. -/
theorem GlobState.Follows.take {token : Token} (h : s.Follows cases fold tokens name goal)
    (hpos : s.pos < name.length) (ht : tokens[s.t]? = some token) (hone : token ≠ .star)
    (hm : token.matches cases fold (unitAt name s.pos).1 = true)
    (hle : ∀ r ∈ s.star, r.2 ≤ s.pos + (unitAt name s.pos).2) :
    Follows cases fold tokens name goal
      ⟨s.t + 1, s.pos + (unitAt name s.pos).2, s.star, hle⟩ := by
  obtain ⟨hlt, ht⟩ := List.getElem?_eq_some_iff.1 ht
  have hdrop : tokens.drop s.t = token :: tokens.drop (s.t + 1) := by
    rw [List.drop_eq_getElem_cons hlt, ht]
  unfold Follows at h ⊢
  rw [hdrop, units_drop hpos] at h
  dsimp only
  split at h
  · rw [h, tokensMatch_one hone]
    simp [hm]
  · obtain ⟨hgoal, mid, pre, hafter, hstar, hfits⟩ := h
    refine ⟨hgoal, mid ++ [token], pre ++ [(unitAt name s.pos).1], ?_, ?_, ?_⟩
    · rw [hafter, List.append_cons]
    · rw [hstar, List.append_cons]
    · exact List.rel_append hfits (.cons ⟨hone, hm⟩ .nil)

/-- A next unit that the next token does not take: the tokens since the last `*` do not match from
where it stands. -/
theorem GlobState.Follows.stuck (h : s.Follows cases fold tokens name goal)
    (hstuck : ¬TokensMatch cases fold (tokens.drop s.t) (units (name.drop s.pos))) :
    match s.star with
    | none => ¬goal
    | some (after, starAt) => goal ↔ ∃ k, TokensMatch cases fold (tokens.drop after)
        ((units (name.drop starAt)).drop (k + 1)) := by
  unfold Follows at h
  split at h
  · rw [h]
    exact hstuck
  · obtain ⟨hgoal, mid, pre, hafter, hstar, hfits⟩ := h
    rw [hgoal]
    constructor
    · rintro ⟨_ | k, h⟩
      · rw [hafter, hstar] at h
        exact absurd (PathPattern.matches_of_drop_append hfits h) hstuck
      · exact ⟨k, h⟩
    · rintro ⟨k, h⟩
      exact ⟨k + 1, h⟩

/-- Going back to the last `*`, which takes one unit more. -/
theorem GlobState.Follows.back (h : s.Follows cases fold tokens name goal)
    (hpos : s.pos < name.length)
    (hstuck : ¬TokensMatch cases fold (tokens.drop s.t) (units (name.drop s.pos))) :
    (match s.star with
      | none => none
      | some (after, starAt) =>
        let pos := starAt + (unitAt name starAt).2
        some (⟨after, pos, some (after, pos), fun r hr => by cases hr; exact le_rfl⟩ :
          GlobState)).elim (¬goal) (Follows cases fold tokens name goal) := by
  have hback := h.stuck hstuck
  rcases hs : s.star with _ | ⟨after, starAt⟩
  · rw [hs] at hback
    exact hback
  · rw [hs] at hback
    dsimp only at hback
    have hle : starAt ≤ s.pos := s.star_le _ hs
    have hdrop := units_drop (hle.trans_lt hpos)
    refine ⟨?_, [], [], rfl, rfl, .nil⟩
    rw [hback, hdrop]
    rfl

/-- **One round of the loop** gives up only where there is no match, and keeps what is to be found
out. -/
theorem GlobState.Follows.next (h : s.Follows cases fold tokens name goal)
    (hpos : s.pos < name.length) :
    (s.next cases tokens name fold).elim (¬goal) (Follows cases fold tokens name goal) := by
  unfold GlobState.next
  dsimp only
  split
  · next ht =>
    exact ⟨h.star ht, [], [], rfl, rfl, .nil⟩
  · next token hone ht =>
    have hone : token ≠ .star := fun h => hone h
    split_ifs with hm
    · exact h.take hpos ht hone hm _
    · refine h.back hpos fun hmatch => ?_
      obtain ⟨hlt, ht⟩ := List.getElem?_eq_some_iff.1 ht
      rw [List.drop_eq_getElem_cons hlt, ht, units_drop hpos, tokensMatch_one hone] at hmatch
      obtain ⟨u, us', he, hu, -⟩ := hmatch
      cases he
      exact hm hu
  · next ht =>
    refine h.back hpos fun hmatch => ?_
    rw [List.drop_eq_nil_of_le (List.getElem?_eq_none_iff.1 ht), units_drop hpos] at hmatch
    cases hmatch

/-- The whole loop, from a state of it. -/
theorem globLoop_iff (h : s.Follows cases fold tokens name goal) :
    globLoop cases tokens name fold s = true ↔ goal := by
  induction s using globLoop.induct cases tokens name fold with
  | case1 s hpos hnext =>
    have hstep := h.next hpos
    rw [hnext] at hstep
    rw [globLoop, dif_pos hpos]
    split
    · simpa using hstep
    · next hs => cases hnext.symm.trans hs
  | case2 s hpos s' hnext ih =>
    have hstep := h.next hpos
    rw [hnext] at hstep
    rw [globLoop, dif_pos hpos]
    split
    · next hs => cases hnext.symm.trans hs
    · next hs =>
      cases hnext.symm.trans hs
      exact ih hstep
  | case3 s hpos =>
    rw [globLoop, dif_neg hpos]
    exact (h.done (not_lt.1 hpos)).symm

theorem globMatch_iff :
    globMatch cases tokens name fold = true ↔ refGlob cases fold tokens (units name) = true := by
  rw [globMatch, refGlob_iff]
  exact globLoop_iff (s := ⟨0, 0, none, by simp⟩) Iff.rfl

/-- **Globs are exact.** A name is cut into units in one way, and `glob_match`, which goes through
it with one `*` to go back to, finds a match if and only if the direct definition over the units
does. -/
theorem globMatch_exact (cases : CaseMap) (fold : Bool) (tokens : List Token) (name : Bytes) :
    (∀ us, Decodes name us ↔ us = units name) ∧
      globMatch cases tokens name fold = refGlob cases fold tokens (units name) :=
  ⟨fun _ => decodes_iff, Bool.eq_iff_iff.2 globMatch_iff⟩

end Glob

end Kist
