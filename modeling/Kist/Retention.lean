import Kist.Lib.Decimal
import Kist.Storage

/-!
# Retention

`kist-core::forget::apply_policy`: which snapshots of a group are kept, and for what reasons. Dates
are those of `OffsetDateTime`, whose arithmetic panics outside of its range.

* `Calendar.key_eq_iff`: the texts of two times are the same where the times share a bucket.
* `applyPolicy_kept`: a snapshot has a reason to be kept where the policy says so.
-/

namespace Kist

/-! ### Dates -/

/-- `OffsetDateTime::MIN`, the start of the year -9999. -/
def minDateTime : ℤ := -377705116800 * 10 ^ 9

/-- `OffsetDateTime::MAX`, the end of the year 9999. -/
def maxDateTime : ℤ := 253402300800 * 10 ^ 9 - 1

/-- `OffsetDateTime + duration` and `OffsetDateTime - duration`; nothing where they panic. -/
structure DateOps where
  add : ℤ → ℕ → Option ℤ
  sub : ℤ → ℕ → Option ℤ

/-- They panic where the result is past the last date, or before the first one. -/
structure DateOps.Lawful (ops : DateOps) : Prop where
  add_eq : ∀ t d, ops.add t d = if t + d ≤ maxDateTime then some (t + d) else none
  sub_eq : ∀ t d, ops.sub t d = if minDateTime ≤ t - d then some (t - d) else none

/-- What a point of time shows in UTC. -/
structure Calendar extends DateOps where
  year : Time → ℤ
  ordinal : Time → ℕ
  hour : Time → ℕ
  month : Time → ℕ
  isoWeek : Time → ℤ × ℕ

/-- Dates follow one another as the times do, and their parts are in range. -/
structure Calendar.Lawful (cal : Calendar) : Prop extends cal.toDateOps.Lawful where
  hours : Monotone fun t => toLex (cal.year t, toLex (cal.ordinal t, cal.hour t))
  months : Monotone fun t => toLex (cal.year t, cal.month t)
  weeks : Monotone fun t => toLex (cal.isoWeek t)
  ordinal_le : ∀ t, cal.ordinal t ≤ 366
  hour_lt : ∀ t, cal.hour t < 24
  month_le : ∀ t, cal.month t ≤ 12
  week_le : ∀ t, (cal.isoWeek t).2 ≤ 53

/-- The kinds of buckets. -/
inductive BucketKind
  | hourly
  | daily
  | weekly
  | monthly
  | yearly
  deriving DecidableEq, Repr

namespace Calendar

open Decimal

variable (cal : Calendar)

/-- The bucket of a time: an hour, a day, an ISO week, a month or a year. -/
def bucket : BucketKind → Time → ℤ ×ₗ ℕ ×ₗ ℕ
  | .hourly, t => toLex (cal.year t, toLex (cal.ordinal t, cal.hour t))
  | .daily, t => toLex (cal.year t, toLex (cal.ordinal t, 0))
  | .weekly, t => toLex ((cal.isoWeek t).1, toLex ((cal.isoWeek t).2, 0))
  | .monthly, t => toLex (cal.year t, toLex (cal.month t, 0))
  | .yearly, t => toLex (cal.year t, toLex (0, 0))

/-- `hour_key`, `day_key`, `week_key`, `month_key` and `year_key`. -/
def key : BucketKind → Time → List Char
  | .hourly, t =>
    digits (cal.year t) ++ '-' :: padded 3 (cal.ordinal t) ++ '-' :: padded 2 (cal.hour t)
  | .daily, t => digits (cal.year t) ++ '-' :: padded 3 (cal.ordinal t)
  | .weekly, t => digits (cal.isoWeek t).1 ++ '-' :: 'W' :: padded 2 (cal.isoWeek t).2
  | .monthly, t => digits (cal.year t) ++ '-' :: padded 2 (cal.month t)
  | .yearly, t => digits (cal.year t)

variable {cal}

/-- Buckets follow one another as the times do. -/
theorem Lawful.bucket_monotone (h : cal.Lawful) (kind : BucketKind) :
    Monotone (cal.bucket kind) := by
  intro s t hst
  have hhours := Prod.Lex.toLex_le_toLex.1 (h.hours hst)
  have hmonths := Prod.Lex.toLex_le_toLex.1 (h.months hst)
  have hweeks := Prod.Lex.toLex_le_toLex.1 (h.weeks hst)
  cases kind with
  | hourly => exact h.hours hst
  | daily =>
    refine Prod.Lex.toLex_le_toLex.2 (hhours.imp_right fun ⟨hyear, hrest⟩ => ⟨hyear, ?_⟩)
    refine Prod.Lex.toLex_le_toLex.2 ((Prod.Lex.toLex_le_toLex.1 hrest).imp_right ?_)
    exact fun hday => ⟨hday.1, le_rfl⟩
  | weekly =>
    refine Prod.Lex.toLex_le_toLex.2 (hweeks.imp_right fun ⟨hyear, hrest⟩ => ⟨hyear, ?_⟩)
    exact Prod.Lex.toLex_le_toLex.2 (hrest.lt_or_eq.imp_right fun hweek => ⟨hweek, le_rfl⟩)
  | monthly =>
    refine Prod.Lex.toLex_le_toLex.2 (hmonths.imp_right fun ⟨hyear, hrest⟩ => ⟨hyear, ?_⟩)
    exact Prod.Lex.toLex_le_toLex.2 (hrest.lt_or_eq.imp_right fun hmonth => ⟨hmonth, le_rfl⟩)
  | yearly =>
    exact Prod.Lex.toLex_le_toLex.2 (hmonths.imp_right fun ⟨hyear, _⟩ => ⟨hyear, le_rfl⟩)

/-- **Buckets.** The texts of two times are the same where the times share a bucket. -/
theorem Lawful.key_eq_iff (h : cal.Lawful) (kind : BucketKind) (s t : Time) :
    cal.key kind s = cal.key kind t ↔ cal.bucket kind s = cal.bucket kind t := by
  have hday : ∀ t, cal.ordinal t < 10 ^ 3 := fun t => (h.ordinal_le t).trans_lt (by norm_num)
  have hhour : ∀ t, cal.hour t < 10 ^ 2 := fun t => (h.hour_lt t).trans (by norm_num)
  have hmonth : ∀ t, cal.month t < 10 ^ 2 := fun t => (h.month_le t).trans_lt (by norm_num)
  have hweek : ∀ t, (cal.isoWeek t).2 < 10 ^ 2 := fun t => (h.week_le t).trans_lt (by norm_num)
  -- a separator belongs to the text before it
  have hsep : ∀ (a b : List Char) x, a ++ x :: b = (a ++ [x]) ++ b := by simp
  cases kind with
  | hourly =>
    simp only [key, bucket]
    rw [hsep _ (padded 2 _), hsep _ (padded 2 _),
      append_padded_inj (by norm_num) (hhour _) (hhour _),
      List.append_left_inj, hsep _ (padded 3 _), hsep _ (padded 3 _),
      append_padded_inj (by norm_num) (hday _) (hday _), digits_append_inj]
    simp [and_assoc]
  | daily =>
    simp only [key, bucket]
    rw [hsep _ (padded 3 _), hsep _ (padded 3 _), append_padded_inj (by norm_num) (hday _) (hday _),
      digits_append_inj]
    simp
  | weekly =>
    have hweeks : ∀ a n, digits a ++ '-' :: 'W' :: padded 2 n =
      digits a ++ ['-', 'W'] ++ padded 2 n := by
      simp
    simp only [key, bucket]
    rw [hweeks, hweeks, append_padded_inj (by norm_num) (hweek _) (hweek _), digits_append_inj]
    simp
  | monthly =>
    simp only [key, bucket]
    rw [hsep _ (padded 2 _), hsep _ (padded 2 _),
      append_padded_inj (by norm_num) (hmonth _) (hmonth _), digits_append_inj]
    simp
  | yearly =>
    simp only [key, bucket]
    constructor
    · exact fun hyear => by rw [digits_injective hyear]
    · intro hyear
      rw [show cal.year s = cal.year t by simpa using hyear]

end Calendar

/-! ### The policy -/

/-- `RetentionPolicy`, with the duration in nanoseconds. -/
structure RetentionPolicy where
  keepLast : Option ℕ := none
  keepHourly : Option ℕ := none
  keepDaily : Option ℕ := none
  keepWeekly : Option ℕ := none
  keepMonthly : Option ℕ := none
  keepYearly : Option ℕ := none
  keepWithin : Option ℕ := none
  deriving DecidableEq, Repr

namespace RetentionPolicy

variable (policy : RetentionPolicy)

/-- `is_empty`. -/
def isEmpty : Bool := policy = {}

/-- `validate`: 0 is no number to keep. -/
def validate : Except CoreError Unit :=
  let counts : List (String × Option ℕ) := [("--keep-last", policy.keepLast),
    ("--keep-hourly", policy.keepHourly), ("--keep-daily", policy.keepDaily),
    ("--keep-weekly", policy.keepWeekly), ("--keep-monthly", policy.keepMonthly),
    ("--keep-yearly", policy.keepYearly)]
  match counts.find? fun c => c.2 = some 0 with
  | some (name, _) => .error (.usage s!"{name} 0 would remove every snapshot in a group; refusing")
  | none =>
    if policy.keepWithin = some 0 then
      .error (.usage "--keep-within 0 would remove every snapshot in a group; refusing")
    else .ok ()

/-- The number of buckets of a kind. -/
def buckets : BucketKind → Option ℕ
  | .hourly => policy.keepHourly
  | .daily => policy.keepDaily
  | .weekly => policy.keepWeekly
  | .monthly => policy.keepMonthly
  | .yearly => policy.keepYearly

end RetentionPolicy

/-- `Candidate`. -/
structure Candidate where
  key : SnapshotKey
  time : ℤ
  deriving DecidableEq, Repr

/-- The place of a candidate in the order of times, and of keys where the times are equal. -/
def Candidate.rank (c : Candidate) : ℤ ×ₗ ℕ ×ₗ ℤ :=
  toLex (c.time, toLex (c.key.client, c.key.timeNs))

/-- `Bucket`: what is left to keep of a kind, and the text of the last bucket. -/
structure Bucket where
  kind : BucketKind
  remaining : ℕ
  last : Option (List Char)
  deriving DecidableEq, Repr

/-- The names of the kinds in the reasons. -/
def BucketKind.reason : BucketKind → String
  | .hourly => "hourly"
  | .daily => "daily"
  | .weekly => "weekly"
  | .monthly => "monthly"
  | .yearly => "yearly"

/-- One turn of the loop over the buckets: whether the bucket is a reason to keep a candidate. -/
def Bucket.take (cal : Calendar) (t : Time) (b : Bucket) : Bool × Bucket :=
  if b.remaining = 0 then (false, b)
  else if b.last = some (cal.key b.kind t) then (false, b)
  else (true, { b with remaining := b.remaining - 1, last := some (cal.key b.kind t) })

/-- Whether a candidate is within the duration of the latest one; nothing where that panics. -/
def keptWithin (cal : Calendar) (policy : RetentionPolicy) (latest : Option ℤ) (t : ℤ) :
    Option Bool :=
  match policy.keepWithin, latest with
  | some within, some latest => (cal.sub latest within).map fun cut => cut ≤ t
  | _, _ => some false

/-- The loop of `apply_policy`, which takes the candidates from the newest to the oldest. -/
def applyLoop (cal : Calendar) (policy : RetentionPolicy) (latest : Option ℤ) :
    List Candidate → ℕ → List Bucket → Option (List (SnapshotKey × List String))
  | [], _, _ => some []
  | c :: cs, lastRemaining, buckets => do
    let within ← keptWithin cal policy latest c.time
    let taken := buckets.map (Bucket.take cal c.time)
    let reasons := (if lastRemaining > 0 then ["last"] else []) ++
      (if within then ["within"] else []) ++
      (taken.filter Prod.fst).map fun b => b.2.kind.reason
    let rest ← applyLoop cal policy latest cs (lastRemaining - 1) (taken.map Prod.snd)
    return (c.key, reasons) :: rest

/-- The candidates from the newest to the oldest. -/
def newestFirst (cs : List Candidate) : List Candidate :=
  cs.insertionSort fun a b => b.rank ≤ a.rank

/-- `apply_policy`. -/
def applyPolicy (cal : Calendar) (cs : List Candidate) (policy : RetentionPolicy) :
    Option (List (SnapshotKey × List String)) :=
  let sorted := newestFirst cs
  let buckets := [.hourly, .daily, .weekly, .monthly, .yearly].filterMap fun kind =>
    (policy.buckets kind).map fun remaining => ⟨kind, remaining, none⟩
  applyLoop cal policy (sorted.head?.map Candidate.time) sorted (policy.keepLast.getD 0) buckets

/-! ### What is kept -/

/-- The candidates that are newer. -/
def newer (cs : List Candidate) (c : Candidate) : List Candidate :=
  cs.filter fun x => c.rank < x.rank

/-- The policy keeps a candidate: it is one of the last ones, it is within the duration of the
newest one, or it is the newest one of its bucket, which is one of the most recent ones. -/
inductive Kept (cal : Calendar) (policy : RetentionPolicy) (cs : List Candidate)
    (c : Candidate) : Prop
  | last (n : ℕ) (hn : policy.keepLast = some n) (few : (newer cs c).length < n)
  | within (d : ℕ) (hd : policy.keepWithin = some d) (near : ∀ x ∈ cs, x.time - d ≤ c.time)
  | bucket (kind : BucketKind) (n : ℕ) (hn : policy.buckets kind = some n)
      (newest : ∀ x ∈ newer cs c, cal.bucket kind x.time ≠ cal.bucket kind c.time)
      (few : ((newer cs c).map fun x => cal.bucket kind x.time).toFinset.card < n)

section Loop

variable {cal : Calendar} {policy : RetentionPolicy} {pre cs : List Candidate}
  {c : Candidate} {n : ℕ}
  {b : Bucket}

/-- The bucket after these candidates, from the newest to the oldest. -/
structure Bucket.Tracks (cal : Calendar) (n : ℕ) (pre : List Candidate) (b : Bucket) : Prop where
  remaining : b.remaining = n - (pre.map fun x => cal.bucket b.kind x.time).toFinset.card
  last : 0 < b.remaining → b.last = pre.getLast?.map fun x => cal.key b.kind x.time

@[simp] theorem Bucket.take_kind (cal : Calendar) (t : Time) (b : Bucket) :
    (b.take cal t).2.kind = b.kind := by
  unfold Bucket.take
  split_ifs <;> rfl

/-- A bucket is a reason where no newer candidate is in it, and few enough buckets are newer. -/
theorem Bucket.Tracks.take (hcal : cal.Lawful) (h : b.Tracks cal n pre)
    (hsorted : (pre ++ [c]).Pairwise fun x y => y.time ≤ x.time) :
    ((b.take cal c.time).1 = true ↔
      (∀ x ∈ pre, cal.bucket b.kind x.time ≠ cal.bucket b.kind c.time) ∧
      (pre.map fun x => cal.bucket b.kind x.time).toFinset.card < n) ∧
    (b.take cal c.time).2.Tracks cal n (pre ++ [c]) := by
  obtain ⟨hremaining, hlast⟩ := h
  have hset : ((pre ++ [c]).map fun x => cal.bucket b.kind x.time).toFinset =
      insert (cal.bucket b.kind c.time) (pre.map fun x => cal.bucket b.kind x.time).toFinset := by
    ext x
    simp
  by_cases hzero : b.remaining = 0
  · have htake : b.take cal c.time = (false, b) := if_pos hzero
    rw [htake]
    refine ⟨⟨nofun, fun ⟨_, hfew⟩ => by omega⟩, ?_, fun h => absurd h (by dsimp only; omega)⟩
    have hle := Finset.card_le_card (Finset.subset_insert (cal.bucket b.kind c.time)
      (pre.map fun x => cal.bucket b.kind x.time).toFinset)
    rw [hset]
    dsimp only
    omega
  have hlast := hlast (Nat.pos_of_ne_zero hzero)
  have hlastKey : (pre ++ [c]).getLast?.map (fun x => cal.key b.kind x.time) =
      some (cal.key b.kind c.time) := by simp
  by_cases hsame : b.last = some (cal.key b.kind c.time)
  · -- the candidate before is in the same bucket
    have htake : b.take cal c.time = (false, b) := by rw [Bucket.take, if_neg hzero, if_pos hsame]
    obtain ⟨y, hy, hkey⟩ := Option.map_eq_some_iff.1 (hlast.symm.trans hsame)
    have hmem : y ∈ pre := List.mem_of_getLast? hy
    have hbucket := (hcal.key_eq_iff b.kind _ _).1 hkey
    rw [htake]
    refine ⟨⟨nofun, fun ⟨hnew, _⟩ => absurd hbucket (hnew y hmem)⟩, ?_, fun _ => ?_⟩
    · rw [hset, Finset.insert_eq_of_mem]
      · exact hremaining
      · rw [← hbucket]
        exact List.mem_toFinset.2 (List.mem_map_of_mem hmem)
    · exact hsame.trans hlastKey.symm
  · have htake : b.take cal c.time = (true, { b with
        remaining := b.remaining - 1, last := some (cal.key b.kind c.time) }) := by
      rw [Bucket.take, if_neg hzero, if_neg hsame]
    have hnew : ∀ x ∈ pre, cal.bucket b.kind x.time ≠ cal.bucket b.kind c.time := by
      intro x hx hbucket
      obtain ⟨y, hy⟩ : ∃ y, pre.getLast? = some y :=
        Option.isSome_iff_exists.1 (by rw [List.getLast?_isSome]; exact List.ne_nil_of_mem hx)
      -- the last one is between the two
      have hxy : y.time ≤ x.time := by
        obtain ⟨init, rfl⟩ := List.getLast?_eq_some_iff.1 hy
        rcases List.mem_append.1 hx with hx | hx
        · exact List.pairwise_append.1 (List.pairwise_append.1 hsorted).1 |>.2.2 x hx y (by simp)
        · rw [List.mem_singleton.1 hx]
      have hyc : c.time ≤ y.time :=
        (List.pairwise_append.1 hsorted).2.2 y (List.mem_of_getLast? hy) c (by simp)
      have hle₁ := hcal.bucket_monotone b.kind hxy
      have hle₂ := hcal.bucket_monotone b.kind hyc
      rw [hbucket] at hle₁
      have hkey := (hcal.key_eq_iff b.kind _ _).2 (le_antisymm hle₁ hle₂)
      rw [hlast, hy, Option.map_some, hkey] at hsame
      exact hsame rfl
    have hnotMem : cal.bucket b.kind c.time ∉
        (pre.map fun x => cal.bucket b.kind x.time).toFinset := by
      rw [List.mem_toFinset, List.mem_map]
      exact fun ⟨x, hx, hbucket⟩ => hnew x hx hbucket
    rw [htake]
    refine ⟨⟨fun _ => ⟨hnew, by omega⟩, fun _ => rfl⟩, ?_, fun _ => hlastKey.symm⟩
    dsimp only
    rw [hset, Finset.card_insert_of_notMem hnotMem]
    omega

/-- The buckets of a policy after these candidates. -/
structure BucketsTrack (cal : Calendar) (policy : RetentionPolicy) (pre : List Candidate)
    (buckets : List Bucket) : Prop where
  tracks : ∀ b ∈ buckets, ∃ n, policy.buckets b.kind = some n ∧ b.Tracks cal n pre
  complete : ∀ kind n, policy.buckets kind = some n → ∃ b ∈ buckets, b.kind = kind

theorem bucketsTrack_nil (cal : Calendar) (policy : RetentionPolicy) :
    BucketsTrack cal policy [] ([.hourly, .daily, .weekly, .monthly, .yearly].filterMap fun kind =>
      (policy.buckets kind).map fun remaining => ⟨kind, remaining, none⟩) where
  tracks b hb := by
    obtain ⟨kind, -, hkind⟩ := List.mem_filterMap.1 hb
    obtain ⟨n, hn, rfl⟩ := Option.map_eq_some_iff.1 hkind
    exact ⟨n, hn, by simp, fun _ => rfl⟩
  complete kind n hn := by
    refine ⟨⟨kind, n, none⟩, List.mem_filterMap.2 ⟨kind, ?_, by rw [hn]; rfl⟩, rfl⟩
    cases kind <;> simp

theorem BucketsTrack.take (hcal : cal.Lawful) {buckets : List Bucket}
    (h : BucketsTrack cal policy pre buckets)
    (hsorted : (pre ++ [c]).Pairwise fun x y => y.time ≤ x.time) :
    BucketsTrack cal policy (pre ++ [c]) ((buckets.map (Bucket.take cal c.time)).map Prod.snd) where
  tracks b' hb' := by
    obtain ⟨r, hr, rfl⟩ := List.mem_map.1 hb'
    obtain ⟨b, hb, rfl⟩ := List.mem_map.1 hr
    obtain ⟨n, hn, htracks⟩ := h.tracks b hb
    exact ⟨n, by rwa [Bucket.take_kind], (htracks.take hcal hsorted).2⟩
  complete kind n hn := by
    obtain ⟨b, hb, rfl⟩ := h.complete kind n hn
    exact ⟨(b.take cal c.time).2, List.mem_map_of_mem (List.mem_map_of_mem hb), b.take_kind cal _⟩

/-- The policy keeps a candidate after the newer ones. -/
def KeptAfter (cal : Calendar) (policy : RetentionPolicy) (latest : Option ℤ) (pre : List Candidate)
    (c : Candidate) : Prop :=
  pre.length < policy.keepLast.getD 0 ∨ keptWithin cal policy latest c.time = some true ∨
  ∃ kind n, policy.buckets kind = some n ∧
    (∀ x ∈ pre, cal.bucket kind x.time ≠ cal.bucket kind c.time) ∧
    (pre.map fun x => cal.bucket kind x.time).toFinset.card < n

theorem reasons_ne_nil_iff (hcal : cal.Lawful) {buckets : List Bucket} {latest : Option ℤ}
    {within : Bool}
    (h : BucketsTrack cal policy pre buckets)
    (hsorted : (pre ++ [c]).Pairwise fun x y => y.time ≤ x.time)
    (hwithin : keptWithin cal policy latest c.time = some within) :
    (if policy.keepLast.getD 0 - pre.length > 0 then ["last"] else []) ++
        (if within then ["within"] else []) ++
        ((buckets.map (Bucket.take cal c.time)).filter Prod.fst).map
          (fun b => b.2.kind.reason) ≠ [] ↔
      KeptAfter cal policy latest pre c := by
  have hbuckets : ((buckets.map (Bucket.take cal c.time)).filter Prod.fst).map
      (fun b => b.2.kind.reason) ≠ [] ↔ ∃ kind n, policy.buckets kind = some n ∧
        (∀ x ∈ pre, cal.bucket kind x.time ≠ cal.bucket kind c.time) ∧
        (pre.map fun x => cal.bucket kind x.time).toFinset.card < n := by
    rw [ne_eq, List.map_eq_nil_iff, List.filter_eq_nil_iff]
    push Not
    constructor
    · rintro ⟨r, hr, htrue⟩
      obtain ⟨b, hb, rfl⟩ := List.mem_map.1 hr
      obtain ⟨n, hn, htracks⟩ := h.tracks b hb
      exact ⟨b.kind, n, hn, (htracks.take hcal hsorted).1.1 htrue⟩
    · rintro ⟨kind, n, hn, hnew⟩
      obtain ⟨b, hb, rfl⟩ := h.complete kind n hn
      obtain ⟨n', hn', htracks⟩ := h.tracks b hb
      obtain rfl := Option.some.inj (hn.symm.trans hn')
      exact ⟨_, List.mem_map_of_mem hb, (htracks.take hcal hsorted).1.2 hnew⟩
  have hlast : policy.keepLast.getD 0 - pre.length > 0 ↔ pre.length < policy.keepLast.getD 0 := by
    omega
  rw [KeptAfter, hwithin, ← hbuckets, ← hlast]
  cases within <;> by_cases hpos : policy.keepLast.getD 0 - pre.length > 0 <;> simp [hpos]

/-- **The loop.** It gives each candidate reasons where the policy keeps it after the newer ones. -/
theorem applyLoop_spec (hcal : cal.Lawful) {latest : Option ℤ} {buckets : List Bucket}
    (hsorted : (pre ++ cs).Pairwise fun x y => y.time ≤ x.time)
    (hwithin : ∀ c ∈ cs, (keptWithin cal policy latest c.time).isSome)
    (hbuckets : BucketsTrack cal policy pre buckets) :
    ∃ out, applyLoop cal policy latest cs (policy.keepLast.getD 0 - pre.length) buckets = some out ∧
      out.map Prod.fst = cs.map Candidate.key ∧
      ∀ r ∈ out, ∃ l c post, cs = l ++ c :: post ∧ r.1 = c.key ∧
        (r.2 ≠ [] ↔ KeptAfter cal policy latest (pre ++ l) c) := by
  induction cs generalizing pre buckets with
  | nil => exact ⟨[], rfl, rfl, nofun⟩
  | cons c cs ih =>
    have hsorted' : ((pre ++ [c]) ++ cs).Pairwise fun x y =>
      y.time ≤ x.time := by simpa using hsorted
    have hone := (List.pairwise_append.1 hsorted').1
    obtain ⟨within, hw⟩ := Option.isSome_iff_exists.1 (hwithin c (by simp))
    obtain ⟨out, hout, hkeys, hkept⟩ := ih hsorted'
      (fun x hx => hwithin x (List.mem_cons_of_mem _ hx)) (hbuckets.take hcal hone)
    have hlast : policy.keepLast.getD 0 - (pre ++ [c]).length =
        policy.keepLast.getD 0 - pre.length - 1 := by
      rw [List.length_append, List.length_singleton]
      omega
    rw [hlast] at hout
    refine ⟨_, by rw [applyLoop, hw]; simp only [bind, Option.bind, hout]; rfl, ?_, ?_⟩
    · rw [List.map_cons, List.map_cons, hkeys]
    · intro r hr
      rcases List.mem_cons.1 hr with rfl | hr
      · refine ⟨[], c, cs, rfl, rfl, ?_⟩
        rw [List.append_nil]
        exact reasons_ne_nil_iff hcal hbuckets hone hw
      · obtain ⟨l, x, post, rfl, hkey, hiff⟩ := hkept r hr
        exact ⟨c :: l, x, post, rfl, hkey, by rwa [List.append_assoc] at hiff⟩

/-- Where the time of the latest candidate less the duration is out of range, the loop panics. -/
theorem applyLoop_eq_none {latest : Option ℤ} {buckets : List Bucket} {k : ℕ}
    (hwithin : keptWithin cal policy latest c.time = none) :
    applyLoop cal policy latest (c :: cs) k buckets = none := by
  rw [applyLoop, hwithin]
  rfl

end Loop

/-! ### Exactness -/

section Exact

variable {cal : Calendar} {policy : RetentionPolicy} {cs cs' l post : List Candidate}
  {c : Candidate}

theorem Candidate.rank_injective : Function.Injective Candidate.rank := by
  rintro ⟨⟨client, timeNs⟩, time⟩ ⟨⟨client', timeNs'⟩, time'⟩ h
  simpa [Candidate.rank, and_comm, and_assoc] using h

theorem newestFirst_perm (cs : List Candidate) : (newestFirst cs).Perm cs :=
  List.perm_insertionSort _ cs

theorem pairwise_newestFirst (cs : List Candidate) :
    (newestFirst cs).Pairwise fun x y => y.rank ≤ x.rank := by
  have : Std.Total fun a b : Candidate => b.rank ≤ a.rank := ⟨fun a b => le_total _ _⟩
  have : IsTrans Candidate fun a b => b.rank ≤ a.rank := ⟨fun _ _ _ hab hbc => le_trans hbc hab⟩
  exact List.pairwise_insertionSort _ cs

/-- The order in which the candidates are listed is of no account. -/
theorem newestFirst_congr (h : cs.Perm cs') : newestFirst cs = newestFirst cs' := by
  refine List.Perm.eq_of_pairwise (fun a b _ _ hab hba => ?_) (pairwise_newestFirst cs)
    (pairwise_newestFirst cs') ?_
  · exact Candidate.rank_injective (le_antisymm hba hab)
  · exact (newestFirst_perm cs).trans (h.trans (newestFirst_perm cs').symm)

theorem time_le_of_rank_le {a b : Candidate} (h : a.rank ≤ b.rank) : a.time ≤ b.time := by
  rcases Prod.Lex.toLex_le_toLex.1 h with h | ⟨h, -⟩
  · exact h.le
  · exact h.le

/-- The candidates that are newer than one come before it. -/
theorem newer_perm (hcs : cs.Nodup) (hsplit : newestFirst cs = l ++ c :: post) :
    (newer cs c).Perm l := by
  have hnodup : (l ++ c :: post).Nodup := hsplit ▸ (newestFirst_perm cs).nodup_iff.2 hcs
  have hpair := hsplit ▸ pairwise_newestFirst cs
  have hstrict : ∀ x ∈ l, c.rank < x.rank := by
    intro x hx
    refine lt_of_le_of_ne ((List.pairwise_append.1 hpair).2.2 x hx c (by simp)) fun heq => ?_
    obtain rfl := Candidate.rank_injective heq
    exact (List.nodup_append.1 hnodup).2.2 c hx c (by simp) rfl
  have hrest : ∀ x ∈ c :: post, ¬c.rank < x.rank := by
    intro x hx
    rcases List.mem_cons.1 hx with rfl | hx
    · exact lt_irrefl _
    · exact not_lt.2 (List.rel_of_pairwise_cons (List.pairwise_append.1 hpair).2.1 hx)
  have hfilter : (l ++ c :: post).filter (fun x => c.rank < x.rank) = l := by
    rw [List.filter_append, List.filter_eq_self.2 (by simpa using hstrict),
      List.filter_eq_nil_iff.2 (by simpa using hrest), List.append_nil]
  have hperm := (newestFirst_perm cs).filter fun x => c.rank < x.rank
  rw [hsplit, hfilter] at hperm
  exact hperm.symm

/-- The time of the newest candidate less the duration of the policy is out of range. -/
def WithinOverflows (policy : RetentionPolicy) (cs : List Candidate) : Prop :=
  ∃ d, policy.keepWithin = some d ∧ cs ≠ [] ∧ ∀ x ∈ cs, x.time - d < minDateTime

theorem head_newestFirst (hne : cs ≠ []) :
    ∃ x ∈ cs, ∃ rest, newestFirst cs = x :: rest ∧ ∀ y ∈ cs, y.time ≤ x.time := by
  cases hsorted : newestFirst cs with
  | nil => exact absurd (List.perm_nil.1 (hsorted ▸ (newestFirst_perm cs).symm)) hne
  | cons x rest =>
    have hmem : ∀ y, y ∈ cs ↔ y ∈ x :: rest := fun y => hsorted ▸ (newestFirst_perm cs).mem_iff.symm
    refine ⟨x, (hmem x).2 (by simp), rest, rfl, fun y hy => ?_⟩
    rcases List.mem_cons.1 ((hmem y).1 hy) with rfl | hy
    · exact le_rfl
    · have hpair := pairwise_newestFirst cs
      rw [hsorted] at hpair
      exact time_le_of_rank_le (List.rel_of_pairwise_cons hpair hy)

/-- With the latest time of the candidates, the test is that of the policy. -/
theorem keptWithin_iff (hcal : cal.Lawful) {x : Candidate} (hx : x ∈ cs)
    (hlatest : ∀ y ∈ cs, y.time ≤ x.time) :
    keptWithin cal policy (some x.time) c.time = some true ↔
      ¬WithinOverflows policy cs ∧ ∃ d, policy.keepWithin = some d ∧ ∀ y ∈ cs,
        y.time - d ≤ c.time := by
  cases hd : policy.keepWithin with
  | none => simp [keptWithin, hd]
  | some d =>
    have hover : WithinOverflows policy cs ↔ x.time - d < minDateTime := by
      refine ⟨fun ⟨d', hd', _, h⟩ => ?_, fun h => ⟨d, hd, List.ne_nil_of_mem hx, fun y hy => ?_⟩⟩
      · obtain rfl := Option.some.inj (hd.symm.trans hd')
        exact h x hx
      · have := hlatest y hy
        omega
    have hnear : (∃ d', some d = some d' ∧ ∀ y ∈ cs, y.time - d' ≤ c.time) ↔
      x.time - d ≤ c.time := by
      constructor
      · rintro ⟨d', hd', h⟩
        cases hd'
        exact h x hx
      · refine fun h => ⟨d, rfl, fun y hy => ?_⟩
        have := hlatest y hy
        omega
    rw [hover, hnear]
    unfold keptWithin
    rw [hd]
    dsimp only
    rw [hcal.sub_eq]
    split_ifs with hle
    · simp [not_lt.2 hle]
    · simp [not_le.1 hle]

theorem keptAfter_iff (hcal : cal.Lawful) (hcs : cs.Nodup) (hover : ¬WithinOverflows policy cs)
    (hsplit : newestFirst cs = l ++ c :: post) :
    KeptAfter cal policy ((newestFirst cs).head?.map Candidate.time) l c ↔
      Kept cal policy cs c := by
  have hperm := newer_perm hcs hsplit
  have hne : cs ≠ [] := by
    refine List.ne_nil_of_mem (a := c) ((newestFirst_perm cs).mem_iff.1 ?_)
    rw [hsplit]
    simp
  obtain ⟨x, hx, rest, hhead, hlatest⟩ := head_newestFirst hne
  rw [KeptAfter, hhead, List.head?_cons, Option.map_some, keptWithin_iff hcal hx hlatest]
  have hset : ∀ kind, ((newer cs c).map fun x => cal.bucket kind x.time).toFinset =
      (l.map fun x => cal.bucket kind x.time).toFinset := fun kind =>
    List.toFinset_eq_of_perm _ _ (hperm.map _)
  constructor
  · rintro (h | ⟨-, d, hd, h⟩ | ⟨kind, n, hn, hnew, hfew⟩)
    · cases hn : policy.keepLast with
      | none => rw [hn] at h; exact absurd h (by simp)
      | some n => exact .last n hn (by rwa [hperm.length_eq, ← Option.getD_some (a := n), ← hn])
    · exact .within d hd h
    · exact .bucket kind n hn (fun x hx => hnew x (hperm.mem_iff.1 hx)) (by rwa [hset])
  · rintro (⟨n, hn, hfew⟩ | ⟨d, hd, h⟩ | ⟨kind, n, hn, hnew, hfew⟩)
    · exact .inl (by rwa [hn, Option.getD_some, ← hperm.length_eq])
    · exact .inr (.inl ⟨hover, d, hd, h⟩)
    · exact .inr (.inr ⟨kind, n, hn, fun x hx => hnew x (hperm.mem_iff.2 hx), by rwa [← hset]⟩)

/-- **The policy.** Unless the date arithmetic panics, each candidate has a reason to be kept
exactly where the policy says so. -/
theorem applyPolicy_kept (hcal : cal.Lawful) (hcs : cs.Nodup) (hover : ¬WithinOverflows policy cs) :
    ∃ out, applyPolicy cal cs policy = some out ∧ (out.map Prod.fst).Perm (cs.map Candidate.key) ∧
      ∀ r ∈ out, ∃ c ∈ cs, r.1 = c.key ∧ (r.2 ≠ [] ↔ Kept cal policy cs c) := by
  have hsorted : ([] ++ newestFirst cs).Pairwise fun x y : Candidate => y.time ≤ x.time :=
    (pairwise_newestFirst cs).imp time_le_of_rank_le
  have hwithin : ∀ y ∈ newestFirst cs,
      (keptWithin cal policy ((newestFirst cs).head?.map Candidate.time) y.time).isSome := by
    intro y hy
    obtain ⟨x, hx, rest, hhead, hlatest⟩ :=
      head_newestFirst (List.ne_nil_of_mem ((newestFirst_perm cs).mem_iff.1 hy))
    rw [hhead, List.head?_cons, Option.map_some]
    unfold keptWithin
    cases hd : policy.keepWithin with
    | none => rfl
    | some d =>
      dsimp only
      rw [hcal.sub_eq, if_pos]
      · rfl
      · refine not_lt.1 fun hlt => hover ⟨d, hd, List.ne_nil_of_mem hx, fun z hz => ?_⟩
        have := hlatest z hz
        omega
  obtain ⟨out, hout, hkeys, hkept⟩ :=
    applyLoop_spec hcal hsorted hwithin (bucketsTrack_nil cal policy)
  refine ⟨out, hout, ?_, fun r hr => ?_⟩
  · rw [hkeys]
    exact (newestFirst_perm cs).map _
  · obtain ⟨l, c, post, hsplit, hkey, hiff⟩ := hkept r hr
    rw [List.nil_append, keptAfter_iff hcal hcs hover hsplit] at hiff
    exact ⟨c, (newestFirst_perm cs).mem_iff.1 (by simp [hsplit]), hkey, hiff⟩

theorem applyPolicy_eq_none (hcal : cal.Lawful) (hover : WithinOverflows policy cs) :
    applyPolicy cal cs policy = none := by
  obtain ⟨d, hd, hne, hlow⟩ := hover
  obtain ⟨x, hx, rest, hhead, -⟩ := head_newestFirst hne
  unfold applyPolicy
  dsimp only
  rw [hhead]
  refine applyLoop_eq_none ?_
  simp only [keptWithin, hd, List.head?_cons, Option.map_some, hcal.sub_eq,
    if_neg (not_le.2 (hlow x hx))]
  rfl

theorem applyPolicy_congr (h : cs.Perm cs') :
    applyPolicy cal cs policy = applyPolicy cal cs' policy := by
  unfold applyPolicy
  rw [newestFirst_congr h]

/-- No number of a valid policy is 0. -/
theorem RetentionPolicy.pos_of_validate (h : policy.validate = .ok ()) :
    (∀ n, policy.keepLast = some n → 0 < n) ∧ (∀ kind n, policy.buckets kind = some n → 0 < n) ∧
      ∀ d, policy.keepWithin = some d → 0 < d := by
  unfold RetentionPolicy.validate at h
  dsimp only at h
  split at h
  · cases h
  · next hnone =>
    rw [List.find?_eq_none] at hnone
    have hpos : ∀ name n, (name, some n) ∈ [("--keep-last", policy.keepLast),
        ("--keep-hourly", policy.keepHourly), ("--keep-daily", policy.keepDaily),
        ("--keep-weekly", policy.keepWeekly), ("--keep-monthly", policy.keepMonthly),
        ("--keep-yearly", policy.keepYearly)] → 0 < n := by
      rintro name n hmem
      by_contra hzero
      obtain rfl : n = 0 := by omega
      exact hnone _ hmem (by simp)
    refine ⟨fun n hn => hpos "--keep-last" n (by simp [hn]), fun kind n hn => ?_, fun d hd => ?_⟩
    · cases kind <;> simp only [RetentionPolicy.buckets] at hn
      · exact hpos "--keep-hourly" n (by simp [hn])
      · exact hpos "--keep-daily" n (by simp [hn])
      · exact hpos "--keep-weekly" n (by simp [hn])
      · exact hpos "--keep-monthly" n (by simp [hn])
      · exact hpos "--keep-yearly" n (by simp [hn])
    · by_contra hzero
      obtain rfl : d = 0 := by omega
      simp [hd] at h

/-- A policy with a rule keeps the newest candidate. -/
theorem kept_newest (hvalid : policy.validate = .ok ()) (hne : policy.isEmpty = false)
    (hnewest : ∀ x ∈ cs, x.rank ≤ c.rank) : Kept cal policy cs c := by
  obtain ⟨hlast, hbuckets, hwithin⟩ := RetentionPolicy.pos_of_validate hvalid
  have hnewer : newer cs c = [] := List.filter_eq_nil_iff.2 (by simpa using hnewest)
  by_contra hno
  have hkeepLast : policy.keepLast = none := Option.eq_none_iff_forall_ne_some.2 fun n hn =>
    hno (.last n hn (by simpa [hnewer] using hlast n hn))
  have hkeepWithin : policy.keepWithin = none := Option.eq_none_iff_forall_ne_some.2 fun d hd =>
    hno (.within d hd fun x hx => by have := time_le_of_rank_le (hnewest x hx); omega)
  have hkind : ∀ kind, policy.buckets kind = none := fun kind =>
    Option.eq_none_iff_forall_ne_some.2 fun n hn =>
      hno (.bucket kind n hn (by simp [hnewer]) (by simpa [hnewer] using hbuckets kind n hn))
  have hempty : policy = {} := by
    have hhourly := hkind .hourly
    have hdaily := hkind .daily
    have hweekly := hkind .weekly
    have hmonthly := hkind .monthly
    have hyearly := hkind .yearly
    cases policy
    simp only [RetentionPolicy.buckets]
      at hkeepLast hkeepWithin hhourly hdaily hweekly hmonthly hyearly
    rw [hkeepLast, hkeepWithin, hhourly, hdaily, hweekly, hmonthly, hyearly]
  rw [RetentionPolicy.isEmpty, hempty] at hne
  simp at hne

end Exact

end Kist
