import Mathlib.Tactic

/-!
# Numbers in decimal digits

Texts of numbers, as programs write and read them: without leading zeros, or in a fixed width.
Numbers of a fixed width are told apart by their texts, are read back from them, and come in the
order of their texts.
-/

namespace Decimal

/-- A number in decimal digits. -/
def digits (i : ℤ) : List Char :=
  if i < 0 then '-' :: Nat.toDigits 10 i.natAbs else Nat.toDigits 10 i.natAbs

/-- A number in at least `width` digits. -/
def padded (width n : ℕ) : List Char :=
  List.replicate (width - (Nat.toDigits 10 n).length) '0' ++ Nat.toDigits 10 n

theorem toDigits_injective {m n : ℕ} (h : Nat.toDigits 10 m = Nat.toDigits 10 n) : m = n := by
  have hm := @Nat.ofDigitChars_toDigits 10 m (by norm_num) (by norm_num)
  rw [h, Nat.ofDigitChars_toDigits (by norm_num) (by norm_num)] at hm
  exact hm.symm

theorem digits_injective {i j : ℤ} (h : digits i = digits j) : i = j := by
  have hminus : ∀ n, '-' ∉ Nat.toDigits 10 n := fun n hn =>
    absurd (Nat.isDigit_of_mem_toDigits (by norm_num) (by norm_num) hn) (by decide)
  unfold digits at h
  split_ifs at h with hi hj hj
  · have := toDigits_injective (List.cons.inj h).2
    omega
  · exact absurd (h ▸ List.mem_cons_self) (hminus _)
  · exact absurd (h.symm ▸ List.mem_cons_self) (hminus _)
  · have := toDigits_injective h
    omega

theorem length_padded {width n : ℕ} (hwidth : 0 < width) (h : n < 10 ^ width) :
    (padded width n).length = width := by
  have hle := (Nat.length_toDigits_le_iff (by norm_num) hwidth).2 h
  rw [padded, List.length_append, List.length_replicate]
  omega

theorem padded_injective {width m n : ℕ} (h : padded width m = padded width n) : m = n := by
  have hzeros : ∀ k n, Nat.ofDigitChars 10 (List.replicate k '0' ++ Nat.toDigits 10 n) 0 = n := by
    intro k n
    induction k with
    | zero => exact Nat.ofDigitChars_toDigits (by norm_num) (by norm_num)
    | succ k ih =>
      rw [List.replicate_succ, List.cons_append]
      exact ih
  have hm := hzeros (width - (Nat.toDigits 10 m).length) m
  rw [← padded, h, padded, hzeros] at hm
  exact hm.symm

/-- A text that ends in digits of a fixed number. -/
theorem append_padded_inj {width m n : ℕ} {a b : List Char} (hwidth : 0 < width)
    (hm : m < 10 ^ width) (hn : n < 10 ^ width) :
    a ++ padded width m = b ++ padded width n ↔ a = b ∧ m = n := by
  constructor
  · intro h
    have hlen := (length_padded hwidth hm).trans (length_padded hwidth hn).symm
    obtain ⟨ha, hpadded⟩ := List.append_inj' h hlen
    exact ⟨ha, padded_injective hpadded⟩
  · rintro ⟨rfl, rfl⟩
    rfl

theorem digits_append_inj {i j : ℤ} {sep : List Char} :
    digits i ++ sep = digits j ++ sep ↔ i = j :=
  ⟨fun h => digits_injective (List.append_cancel_right h), fun h => h ▸ rfl⟩

/-! ### Reading -/

/-- The number that decimal digits spell, or `none` where there are none or something else. -/
def ofDigits (s : List Char) : Option ℕ :=
  if s ≠ [] ∧ s.all Char.isDigit then some (Nat.ofDigitChars 10 s 0) else none

theorem ofDigits_toDigits (n : ℕ) : ofDigits (Nat.toDigits 10 n) = some n := by
  have hdigits : (Nat.toDigits 10 n).all Char.isDigit := List.all_eq_true.2 fun c hc =>
    Nat.isDigit_of_mem_toDigits (by norm_num) (by norm_num) hc
  rw [ofDigits, if_pos ⟨Nat.toDigits_ne_nil, hdigits⟩,
    Nat.ofDigitChars_toDigits (by norm_num) (by norm_num)]

theorem isDigit_of_mem_padded {width n : ℕ} {c : Char} (h : c ∈ padded width n) : c.isDigit := by
  rcases List.mem_append.1 h with h | h
  · rw [List.eq_of_mem_replicate h]
    rfl
  · exact Nat.isDigit_of_mem_toDigits (by norm_num) (by norm_num) h

theorem ofDigits_padded (width n : ℕ) : ofDigits (padded width n) = some n := by
  have hne : padded width n ≠ [] := List.append_ne_nil_of_right_ne_nil _ Nat.toDigits_ne_nil
  rw [ofDigits, if_pos ⟨hne, List.all_eq_true.2 fun c hc => isDigit_of_mem_padded hc⟩, padded,
    Nat.ofDigitChars_append, Nat.ofDigitChars_replicate_zero, mul_zero,
    Nat.ofDigitChars_toDigits (by norm_num) (by norm_num)]

/-! ### The order of the texts -/

section Order

variable {b width m n : ℕ}

/-- A number in at least `width` digits of the base `b`. -/
def paddedIn (b width n : ℕ) : List Char :=
  List.replicate (width - (Nat.toDigits b n).length) '0' ++ Nat.toDigits b n

theorem length_paddedIn (hb : 1 < b) (hwidth : 0 < width) (h : n < b ^ width) :
    (paddedIn b width n).length = width := by
  have hle := (Nat.length_toDigits_le_iff hb hwidth).2 h
  rw [paddedIn, List.length_append, List.length_replicate]
  omega

theorem paddedIn_zero (h : 0 < width) : paddedIn b width 0 = List.replicate width '0' := by
  obtain ⟨w, rfl⟩ := Nat.exists_eq_succ_of_ne_zero h.ne'
  rw [paddedIn, Nat.toDigits_zero, List.length_singleton, Nat.succ_sub_one, List.replicate_succ']

/-- The last digit, and the text of the rest. -/
theorem paddedIn_succ (hb : 1 < b) (h : 0 < width) :
    paddedIn b (width + 1) n = paddedIn b width (n / b) ++ [(n % b).digitChar] := by
  rcases lt_or_ge n b with hlt | hge
  · rw [Nat.div_eq_of_lt hlt, paddedIn_zero h, Nat.mod_eq_of_lt hlt, paddedIn,
      Nat.toDigits_of_lt_base hlt, List.length_singleton, Nat.add_sub_cancel]
  · rw [paddedIn, Nat.toDigits_of_base_le hb hge, List.length_append,
      List.length_singleton, Nat.add_sub_add_right, ← List.append_assoc, ← paddedIn]

/-- Texts that go on behind parts of one length. -/
theorem append_lt_append_iff {s t u v : List Char} (h : s.length = t.length) :
    s ++ u < t ++ v ↔ s < t ∨ (s = t ∧ u < v) := by
  induction s generalizing t with
  | nil =>
    obtain rfl := List.length_eq_zero_iff.1 h.symm
    simp
  | cons c s ih =>
    cases t with
    | nil => cases h
    | cons d t =>
      rw [List.cons_append, List.cons_append, List.cons_lt_cons_iff, List.cons_lt_cons_iff,
        ih (Nat.succ.inj h), List.cons.injEq]
      constructor
      · rintro (hlt | ⟨rfl, hlt | ⟨rfl, hlt⟩⟩)
        · exact .inl (.inl hlt)
        · exact .inl (.inr ⟨rfl, hlt⟩)
        · exact .inr ⟨⟨rfl, rfl⟩, hlt⟩
      · rintro ((hlt | ⟨rfl, hlt⟩) | ⟨⟨rfl, rfl⟩, hlt⟩)
        · exact .inl hlt
        · exact .inr ⟨rfl, .inl hlt⟩
        · exact .inr ⟨rfl, .inr ⟨rfl, hlt⟩⟩

theorem append_left_lt_iff (s : List Char) {u v : List Char} : s ++ u < s ++ v ↔ u < v := by
  rw [append_lt_append_iff rfl]
  exact ⟨fun h => h.resolve_left (List.lt_irrefl _) |>.2, fun h => .inr ⟨rfl, h⟩⟩

theorem digitChar_lt_iff : ∀ m < 16, ∀ n < 16, (m.digitChar < n.digitChar ↔ m < n) := by
  decide

/-- **Order.** Numbers of a fixed width come in the order of their texts. -/
theorem paddedIn_lt_iff (hb : 1 < b) (hb' : b ≤ 16) (hwidth : 0 < width) (hm : m < b ^ width)
    (hn : n < b ^ width) : paddedIn b width m < paddedIn b width n ↔ m < n := by
  have hdigit : ∀ {i j : ℕ}, i < b → j < b → ([i.digitChar] < [j.digitChar] ↔ i < j) :=
    fun hi hj => by
      rw [← digitChar_lt_iff _ (hi.trans_le hb') _ (hj.trans_le hb')]
      simp [List.cons_lt_cons_iff]
  induction width, hwidth using Nat.le_induction generalizing m n with
  | base =>
    have hone : ∀ k < b ^ 1, paddedIn b 1 k = [k.digitChar] := fun k hk => by
      rw [paddedIn, Nat.toDigits_of_lt_base (by simpa using hk)]
      rfl
    rw [hone m hm, hone n hn, hdigit (by simpa using hm) (by simpa using hn)]
  -- the last digit decides where the digits before it are the same
  | succ width hwidth ih =>
    have hm' : m / b < b ^ width := Nat.div_lt_of_lt_mul (by rwa [← pow_succ'])
    have hn' : n / b < b ^ width := Nat.div_lt_of_lt_mul (by rwa [← pow_succ'])
    have hpos : 0 < b := by omega
    have hfront : paddedIn b width (m / b) < paddedIn b width (n / b) ↔ m / b < n / b :=
      ih hm' hn'
    have heq : paddedIn b width (m / b) = paddedIn b width (n / b) ↔ m / b = n / b := by
      refine ⟨fun h => ?_, fun h => h ▸ rfl⟩
      rcases lt_trichotomy (m / b) (n / b) with hlt | heq | hlt
      · have htext := (ih hm' hn').2 hlt
        rw [h] at htext
        exact absurd htext (List.lt_irrefl _)
      · exact heq
      · have htext := (ih hn' hm').2 hlt
        rw [h] at htext
        exact absurd htext (List.lt_irrefl _)
    rw [paddedIn_succ hb hwidth, paddedIn_succ hb hwidth,
      append_lt_append_iff
        ((length_paddedIn hb hwidth hm').trans (length_paddedIn hb hwidth hn').symm),
      hfront, hdigit (Nat.mod_lt _ hpos) (Nat.mod_lt _ hpos), heq]
    have hdivm := Nat.div_add_mod m b
    have hdivn := Nat.div_add_mod n b
    constructor
    · rintro (hlt | ⟨heq, hlt⟩)
      · exact lt_of_not_ge fun hge => absurd (Nat.div_le_div_right hge) (not_le.2 hlt)
      · rw [heq] at hdivm
        omega
    · intro hlt
      rcases (Nat.div_le_div_right (c := b) hlt.le).lt_or_eq with hlt' | heq
      · exact .inl hlt'
      · rw [heq] at hdivm
        exact .inr ⟨heq, by omega⟩

theorem padded_lt_iff (hwidth : 0 < width) (hm : m < 10 ^ width) (hn : n < 10 ^ width) :
    padded width m < padded width n ↔ m < n :=
  paddedIn_lt_iff (by norm_num) (by norm_num) hwidth hm hn

end Order

end Decimal
