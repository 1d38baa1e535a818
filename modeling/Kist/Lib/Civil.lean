import Mathlib.Data.Prod.Lex
import Mathlib.Tactic

/-!
# Dates and times of day

The Gregorian calendar, in Coordinated Universal Time: the date and the time of day at a number of
nanoseconds since 1970, and back. Later times have later dates, or later times of day.
-/

/-- A date and a time of day. -/
structure Civil where
  year : ℤ
  month : ℕ
  day : ℕ
  hour : ℕ
  minute : ℕ
  second : ℕ
  nanosecond : ℕ
  deriving DecidableEq, Repr

namespace Civil

/-- The order of time: by the years, then by the months, and so on. -/
def lex (c : Civil) : ℤ ×ₗ ℕ ×ₗ ℕ ×ₗ ℕ ×ₗ ℕ ×ₗ ℕ ×ₗ ℕ :=
  toLex (c.year, toLex (c.month, toLex (c.day, toLex (c.hour, toLex (c.minute,
    toLex (c.second, c.nanosecond))))))

/-! ### Years -/

/-- Whether a year has 366 days. -/
def leap (year : ℤ) : Bool := year % 4 = 0 ∧ (year % 100 ≠ 0 ∨ year % 400 = 0)

/-- The days before a year, counted from the year 1. -/
def yearStart (year : ℤ) : ℤ :=
  365 * (year - 1) + (year - 1) / 4 - (year - 1) / 100 + (year - 1) / 400

/-- The year of a day. -/
def yearOf (days : ℤ) : ℤ :=
  let guess := 400 * days / 146097 + 1
  if days < yearStart guess then guess - 1
  else if yearStart (guess + 1) ≤ days then guess + 1
  else guess

theorem yearStart_succ (y : ℤ) :
    yearStart (y + 1) = yearStart y + if leap y then 366 else 365 := by
  unfold yearStart leap
  rw [add_sub_cancel_right]
  split_ifs with h
  · have h := of_decide_eq_true h
    omega
  · rw [decide_eq_true_eq] at h
    omega

theorem yearOf_spec (d : ℤ) : yearStart (yearOf d) ≤ d ∧ d < yearStart (yearOf d + 1) := by
  have hlow : yearStart (400 * d / 146097) ≤ d := by
    unfold yearStart
    omega
  have hhigh : d < yearStart (400 * d / 146097 + 3) := by
    unfold yearStart
    omega
  unfold yearOf
  dsimp only
  split_ifs with h h'
  · exact ⟨by simpa using hlow, by simpa using h⟩
  · exact ⟨h', by simpa [add_assoc] using hhigh⟩
  · exact ⟨not_lt.1 h, not_le.1 h'⟩

theorem yearStart_mono : Monotone yearStart := monotone_int_of_le_succ fun y => by
  rw [yearStart_succ]
  split_ifs <;> omega

theorem yearOf_mono : Monotone yearOf := fun d d' h => by
  by_contra hlt
  have hstart := yearStart_mono (Int.add_one_le_iff.2 (not_le.1 hlt))
  have := (yearOf_spec d).1
  have := (yearOf_spec d').2
  omega

/-! ### Months -/

/-- The lengths of the months. -/
def months (leap : Bool) : List ℕ :=
  [31, if leap then 29 else 28, 31, 30, 31, 30, 31, 31, 30, 31, 30, 31]

/-- Which part of a row a position lies in, and where. -/
def place : List ℕ → ℕ → ℕ × ℕ
  | [], i => (0, i)
  | len :: lens, i => if i < len then (0, i) else
      let p := place lens (i - len)
      (p.1 + 1, p.2)

/-- The position of a place in the row. -/
def position : List ℕ → ℕ × ℕ → Option ℕ
  | [], _ => none
  | len :: _, (0, j) => if j < len then some j else none
  | len :: lens, (k + 1, j) => (position lens (k, j)).map fun i => len + i

theorem position_place {lens : List ℕ} {i : ℕ} (h : i < lens.sum) :
    position lens (place lens i) = some i := by
  induction lens generalizing i with
  | nil => cases h
  | cons len lens ih =>
    unfold place
    split_ifs with hlt
    · rw [position, if_pos hlt]
    · rw [List.sum_cons] at h
      rw [position, ih (by omega), Option.map_some]
      congr 1
      omega

theorem place_fst_lt {lens : List ℕ} {i : ℕ} (h : i < lens.sum) :
    (place lens i).1 < lens.length := by
  induction lens generalizing i with
  | nil => cases h
  | cons len lens ih =>
    unfold place
    split_ifs with hlt
    · exact Nat.succ_pos _
    · rw [List.sum_cons] at h
      exact Nat.succ_lt_succ (ih (by omega))

theorem place_snd_lt {lens : List ℕ} {i bound : ℕ} (hall : ∀ len ∈ lens, len ≤ bound)
    (h : i < lens.sum) : (place lens i).2 < bound := by
  induction lens generalizing i with
  | nil => cases h
  | cons len lens ih =>
    unfold place
    split_ifs with hlt
    · exact hlt.trans_le (hall len List.mem_cons_self)
    · rw [List.sum_cons] at h
      exact ih (fun l hl => hall l (List.mem_cons_of_mem _ hl)) (by omega)

theorem place_strictMono (lens : List ℕ) : StrictMono fun i => toLex (place lens i) := by
  induction lens with
  | nil => exact fun i j h => Prod.Lex.toLex_lt_toLex.2 (.inr ⟨rfl, h⟩)
  | cons len lens ih =>
    intro i j h
    unfold place
    dsimp only
    split_ifs with hi hj hj
    · exact Prod.Lex.toLex_lt_toLex.2 (.inr ⟨rfl, h⟩)
    · exact Prod.Lex.toLex_lt_toLex.2 (.inl (Nat.succ_pos _))
    · exact absurd (h.trans hj) hi
    · have hlt : i - len < j - len := by omega
      rcases Prod.Lex.toLex_lt_toLex.1 (ih hlt) with hfst | ⟨hfst, hsnd⟩
      · exact Prod.Lex.toLex_lt_toLex.2 (.inl (Nat.succ_lt_succ hfst))
      · exact Prod.Lex.toLex_lt_toLex.2 (.inr ⟨congrArg Nat.succ hfst, hsnd⟩)

theorem sum_months (leap : Bool) : (months leap).sum = if leap then 366 else 365 := by
  cases leap <;> rfl

theorem months_le (leap : Bool) : ∀ len ∈ months leap, len ≤ 31 := by
  cases leap <;> decide

/-! ### Dates -/

/-- The nanoseconds of a day. -/
def dayNs : ℕ := 86400 * 10 ^ 9

/-- The days from the year 1 to the year 1970. -/
def epochDays : ℤ := 719162

/-- The day of the year, from 0. -/
def ordinal (days : ℤ) : ℕ := (days - yearStart (yearOf days)).toNat

theorem ordinal_lt (days : ℤ) : ordinal days < (months (leap (yearOf days))).sum := by
  have hspec := yearOf_spec days
  rw [yearStart_succ] at hspec
  rw [sum_months, ordinal]
  split_ifs at hspec ⊢ <;> omega

/-- The date and the time of day at a time. -/
def ofTime (t : ℤ) : Civil :=
  let days := t / dayNs + epochDays
  let rest := (t % dayNs).toNat
  let date := place (months (leap (yearOf days))) (ordinal days)
  { year := yearOf days
    month := date.1 + 1
    day := date.2 + 1
    hour := rest / (3600 * 10 ^ 9)
    minute := rest / (60 * 10 ^ 9) % 60
    second := rest / 10 ^ 9 % 60
    nanosecond := rest % 10 ^ 9 }

/-- The time at a date and a time of day, or `none` where a part is out of range. -/
def toTime (c : Civil) : Option ℤ :=
  if c.month = 0 ∨ c.day = 0 ∨ 24 ≤ c.hour ∨ 60 ≤ c.minute ∨ 60 ≤ c.second ∨
      10 ^ 9 ≤ c.nanosecond then none
  else (position (months (leap c.year)) (c.month - 1, c.day - 1)).map fun ordinal : ℕ =>
    (yearStart c.year + ordinal - epochDays) * dayNs +
      (((c.hour * 60 + c.minute) * 60 + c.second) * 10 ^ 9 + c.nanosecond : ℕ)

theorem toTime_ofTime (t : ℤ) : toTime (ofTime t) = some t := by
  have hspec := yearOf_spec (t / dayNs + epochDays)
  have hrest : (t % dayNs).toNat < dayNs := by
    have := Int.emod_lt_of_pos t (show (0 : ℤ) < dayNs by decide)
    have := Int.emod_nonneg t (show (dayNs : ℤ) ≠ 0 by decide)
    omega
  have hdiv := Int.mul_ediv_add_emod t dayNs
  have hmod := Int.emod_nonneg t (show (dayNs : ℤ) ≠ 0 by decide)
  unfold toTime ofTime
  dsimp only
  have hparts : ∀ r < dayNs, r / (3600 * 10 ^ 9) < 24 := by
    intro r hr
    unfold dayNs at hr
    omega
  have hhour := hparts _ hrest
  rw [if_neg (by omega), Nat.add_sub_cancel, Nat.add_sub_cancel,
    position_place (ordinal_lt _), Option.map_some]
  congr 1
  have hordinal : (ordinal (t / dayNs + epochDays) : ℤ) =
      t / dayNs + epochDays - yearStart (yearOf (t / dayNs + epochDays)) :=
    Int.toNat_of_nonneg (by omega)
  have htime : ∀ r < dayNs, ((r / (3600 * 10 ^ 9) * 60 + r / (60 * 10 ^ 9) % 60) * 60 +
      r / 10 ^ 9 % 60) * 10 ^ 9 + r % 10 ^ 9 = r := by
    intro r _
    omega
  rw [hordinal, htime _ hrest, Int.toNat_of_nonneg hmod]
  have hday : yearStart (yearOf (t / dayNs + epochDays)) +
      (t / dayNs + epochDays - yearStart (yearOf (t / dayNs + epochDays))) - epochDays =
        t / dayNs := by ring
  rw [hday, mul_comm]
  exact hdiv

/-- The parts of a date and of a time of day are in range. -/
theorem ofTime_range (t : ℤ) : (ofTime t).month ≤ 12 ∧ (ofTime t).day ≤ 31 ∧
    (ofTime t).hour < 24 ∧ (ofTime t).minute < 60 ∧ (ofTime t).second < 60 ∧
      (ofTime t).nanosecond < 10 ^ 9 := by
  refine ⟨?_, ?_, ?_, Nat.mod_lt _ (by norm_num), Nat.mod_lt _ (by norm_num),
    Nat.mod_lt _ (by norm_num)⟩
  · have hlen : (months (leap (yearOf (t / dayNs + epochDays)))).length = 12 := rfl
    exact Nat.succ_le_of_lt ((place_fst_lt (ordinal_lt _)).trans_eq hlen)
  · exact Nat.succ_le_of_lt (place_snd_lt (months_le _) (ordinal_lt _))
  · have hmod := Int.emod_lt_of_pos t (show (0 : ℤ) < dayNs by decide)
    unfold ofTime
    unfold dayNs at hmod ⊢
    dsimp only
    omega

/-- Later times of day are later in their parts. -/
theorem clock_lt {r r' : ℕ} (h : r < r') :
    toLex (r / (3600 * 10 ^ 9), toLex (r / (60 * 10 ^ 9) % 60, toLex (r / 10 ^ 9 % 60,
        r % 10 ^ 9))) <
      toLex (r' / (3600 * 10 ^ 9), toLex (r' / (60 * 10 ^ 9) % 60, toLex (r' / 10 ^ 9 % 60,
        r' % 10 ^ 9))) := by
  simp only [Prod.Lex.toLex_lt_toLex]
  omega

/-- **Order.** Later times have later dates, or later times of day. -/
theorem ofTime_strictMono : StrictMono fun t => (ofTime t).lex := by
  intro t t' h
  have hday : t / dayNs ≤ t' / dayNs := Int.ediv_le_ediv (by decide) h.le
  unfold lex ofTime
  dsimp only
  rcases hday.lt_or_eq with hlt | heq
  · rcases (yearOf_mono (Int.add_le_add_right hlt.le epochDays)).lt_or_eq with hyear | hyear
    · exact Prod.Lex.toLex_lt_toLex.2 (.inl hyear)
    · refine Prod.Lex.toLex_lt_toLex.2 (.inr ⟨hyear, ?_⟩)
      have hstart := (yearOf_spec (t / dayNs + epochDays)).1
      have hordinal : ordinal (t / dayNs + epochDays) < ordinal (t' / dayNs + epochDays) := by
        rw [ordinal, ordinal, ← hyear]
        omega
      rw [← hyear]
      rcases Prod.Lex.toLex_lt_toLex.1 (place_strictMono _ hordinal) with hmonth | ⟨hmonth, hdate⟩
      · exact Prod.Lex.toLex_lt_toLex.2 (.inl (Nat.succ_lt_succ hmonth))
      · refine Prod.Lex.toLex_lt_toLex.2 (.inr ⟨congrArg Nat.succ hmonth, ?_⟩)
        exact Prod.Lex.toLex_lt_toLex.2 (.inl (Nat.succ_lt_succ hdate))
  · have hrest : (t % dayNs).toNat < (t' % dayNs).toNat := by
      have := Int.mul_ediv_add_emod t dayNs
      have := Int.mul_ediv_add_emod t' dayNs
      have := Int.emod_nonneg t (show (dayNs : ℤ) ≠ 0 by decide)
      rw [heq] at *
      omega
    rw [heq]
    refine Prod.Lex.toLex_lt_toLex.2 (.inr ⟨rfl, ?_⟩)
    refine Prod.Lex.toLex_lt_toLex.2 (.inr ⟨rfl, ?_⟩)
    exact Prod.Lex.toLex_lt_toLex.2 (.inr ⟨rfl, clock_lt hrest⟩)

end Civil
