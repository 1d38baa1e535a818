import Mathlib.Data.Char
import Mathlib.Data.List.Lex
import Mathlib.Data.List.DropRight
import Kist.Backup.PrepareSpec
import Kist.Lib.Civil
import Kist.Lib.Fields
import Kist.Reach

/-!
# The names of snapshots

A snapshot lies under `snapshots/<client>/<time>`, with its time in the digits of a date. The lists
of snapshots are sorted as texts, in `list_snapshot_keys` and in `find_parent`, and `read_snapshot`
reads the time back from the name. The conversion between times and dates is a parameter.

`snapshot_names_chronological`: the texts come in the order of the times.
-/

namespace Kist

open Decimal

/-- The times of snapshots, nanoseconds in 64 bits with a sign. -/
def FitsI64 (t : Time) : Prop := -2 ^ 63 ≤ t ∧ t < 2 ^ 63

/-- The conversion between times and dates, of the `time` library. -/
structure UtcOps where
  civil : Time → Civil
  ofCivil : Civil → Option Time

/-- Dates follow one another as the times do, are read back, and have parts in range. -/
structure UtcOps.Lawful (ops : UtcOps) : Prop where
  lex_lt : ∀ t t', FitsI64 t → FitsI64 t' → t < t' → (ops.civil t).lex < (ops.civil t').lex
  ofCivil_civil : ∀ t, FitsI64 t → ops.ofCivil (ops.civil t) = some t
  year : ∀ t, FitsI64 t → 1677 ≤ (ops.civil t).year ∧ (ops.civil t).year ≤ 2262
  month_le : ∀ t, FitsI64 t → (ops.civil t).month ≤ 12
  day_le : ∀ t, FitsI64 t → (ops.civil t).day ≤ 31
  hour_lt : ∀ t, FitsI64 t → (ops.civil t).hour < 24
  minute_lt : ∀ t, FitsI64 t → (ops.civil t).minute < 60
  second_lt : ∀ t, FitsI64 t → (ops.civil t).second < 60
  nanosecond_lt : ∀ t, FitsI64 t → (ops.civil t).nanosecond < 10 ^ 9

/-- The Gregorian calendar. -/
def gregorian : UtcOps := ⟨Civil.ofTime, Civil.toTime⟩

theorem lawful_gregorian : gregorian.Lawful where
  lex_lt _ _ _ _ h := Civil.ofTime_strictMono h
  ofCivil_civil t _ := Civil.toTime_ofTime t
  year t h := by
    have hday : ∀ {a b : ℤ}, a ≤ b → a / Civil.dayNs + Civil.epochDays ≤
        b / Civil.dayNs + Civil.epochDays := fun hab =>
      Int.add_le_add_right (Int.ediv_le_ediv (by decide) hab) _
    have hfirst : Civil.yearOf (-2 ^ 63 / Civil.dayNs + Civil.epochDays) = 1677 := by decide
    have hlast : Civil.yearOf ((2 ^ 63 - 1) / Civil.dayNs + Civil.epochDays) = 2262 := by decide
    exact ⟨hfirst ▸ Civil.yearOf_mono (hday h.1),
      hlast ▸ Civil.yearOf_mono (hday (Int.le_sub_one_of_lt h.2))⟩
  month_le t _ := (Civil.ofTime_range t).1
  day_le t _ := (Civil.ofTime_range t).2.1
  hour_lt t _ := (Civil.ofTime_range t).2.2.1
  minute_lt t _ := (Civil.ofTime_range t).2.2.2.1
  second_lt t _ := (Civil.ofTime_range t).2.2.2.2.1
  nanosecond_lt t _ := (Civil.ofTime_range t).2.2.2.2.2

/-! ### The time of a name -/

/-- `KEY_TS_FORMAT`. -/
def keyTsFormat : List Fields.Item :=
  [.number 4, .number 2, .number 2, .literal 'T', .number 2, .number 2, .number 2, .number 9,
    .literal 'Z']

/-- The numbers that are written of a date. -/
def dateValues (c : Civil) : List ℕ :=
  [c.year.natAbs, c.month, c.day, c.hour, c.minute, c.second, c.nanosecond]

section Timestamp

variable (ops : UtcOps)

/-- `format_key_timestamp`. `none` stands for the error `BadTimestamp`, which a year of more than
four digits leads to. -/
def formatKeyTimestamp (t : Time) : Option (List Char) :=
  let c := ops.civil t
  if 9999 < c.year.natAbs then none
  else some ((if c.year < 0 then ['-'] else []) ++ Fields.write keyTsFormat (dateValues c))

/-- `parse_key_timestamp`. A sign may stand before the year. -/
def parseKeyTimestamp (s : List Char) : Option Time :=
  let signed := s.head? = some '-' ∨ s.head? = some '+'
  match Fields.read keyTsFormat (if signed then s.tail else s) with
  | some [year, month, day, hour, minute, second, nanosecond] =>
    ops.ofCivil
      ⟨if s.head? = some '-' then -year else year, month, day, hour, minute, second, nanosecond⟩
  | _ => none

variable {ops} (hops : ops.Lawful) {t t' : Time}
include hops

theorem fits_dateValues (ht : FitsI64 t) : Fields.Fits keyTsFormat (dateValues (ops.civil t)) := by
  have hyear := hops.year t ht
  have hmonth := hops.month_le t ht
  have hday := hops.day_le t ht
  have hhour := hops.hour_lt t ht
  have hminute := hops.minute_lt t ht
  have hsecond := hops.second_lt t ht
  have hnanosecond := hops.nanosecond_lt t ht
  refine .number (by norm_num) (by omega) (.number (by norm_num) (by omega)
    (.number (by norm_num) (by omega) (.literal (.number (by norm_num) (by omega)
      (.number (by norm_num) (by omega) (.number (by norm_num) (by omega)
        (.number (by norm_num) hnanosecond (.literal .nil))))))))

theorem formatKeyTimestamp_eq (ht : FitsI64 t) :
    formatKeyTimestamp ops t = some (Fields.write keyTsFormat (dateValues (ops.civil t))) := by
  have hyear := hops.year t ht
  unfold formatKeyTimestamp
  dsimp only
  rw [if_neg (by omega), if_neg (by omega), List.nil_append]

/-- A time that is written is read. -/
theorem parse_format (ht : FitsI64 t) {s : List Char} (h : formatKeyTimestamp ops t = some s) :
    parseKeyTimestamp ops s = some t := by
  rw [formatKeyTimestamp_eq hops ht] at h
  cases h
  have hsign : ∀ {c : Char}, c.isDigit = false → c ≠ 'T' → c ≠ 'Z' →
      (Fields.write keyTsFormat (dateValues (ops.civil t))).head? ≠ some c := by
    intro c hdigit hT hZ hhead
    rcases Fields.mem_write (List.mem_of_head? hhead) with hc | hc
    · rw [hc] at hdigit
      cases hdigit
    · simp [keyTsFormat, hT, hZ] at hc
  have hminus := hsign (c := '-') rfl (by decide) (by decide)
  have hplus := hsign (c := '+') rfl (by decide) (by decide)
  have hyear : (if (Fields.write keyTsFormat (dateValues (ops.civil t))).head? = some '-' then
      -((ops.civil t).year.natAbs : ℤ) else (ops.civil t).year.natAbs) = (ops.civil t).year := by
    rw [if_neg hminus, Int.natAbs_of_nonneg (by have := hops.year t ht; omega)]
  unfold parseKeyTimestamp
  dsimp only
  rw [if_neg (by simp [hminus, hplus]), Fields.read_write (fits_dateValues hops ht)]
  exact (congrArg (fun year => ops.ofCivil { ops.civil t with year := year }) hyear).trans
    (hops.ofCivil_civil t ht)

/-- The order of dates, and of their numbers. -/
theorem dateValues_lt (ht : FitsI64 t) (ht' : FitsI64 t') (h : t < t') :
    dateValues (ops.civil t) < dateValues (ops.civil t') := by
  have hlex := hops.lex_lt t t' ht ht' h
  have hyear := hops.year t ht
  have hyear' := hops.year t' ht'
  have hlt : (ops.civil t).year.natAbs < (ops.civil t').year.natAbs ↔
      (ops.civil t).year < (ops.civil t').year := by omega
  have heq : (ops.civil t).year.natAbs = (ops.civil t').year.natAbs ↔
      (ops.civil t).year = (ops.civil t').year := by omega
  simpa [Civil.lex, dateValues, Prod.Lex.toLex_lt_toLex, List.cons_lt_cons_iff, hlt, heq] using hlex

/-- **Order.** The texts come in the order of the times. -/
theorem format_lt_iff (ht : FitsI64 t) (ht' : FitsI64 t') {s s' : List Char}
    (h : formatKeyTimestamp ops t = some s) (h' : formatKeyTimestamp ops t' = some s') :
    s < s' ↔ t < t' := by
  have hmono : ∀ {t t' : Time}, FitsI64 t → FitsI64 t' → t < t' →
      Fields.write keyTsFormat (dateValues (ops.civil t)) <
        Fields.write keyTsFormat (dateValues (ops.civil t')) := fun ht ht' hlt =>
    (Fields.write_lt_iff (fits_dateValues hops ht) (fits_dateValues hops ht')).2
      (dateValues_lt hops ht ht' hlt)
  rw [formatKeyTimestamp_eq hops ht] at h
  rw [formatKeyTimestamp_eq hops ht'] at h'
  cases h
  cases h'
  refine ⟨fun hlt => ?_, hmono ht ht'⟩
  rcases lt_trichotomy t t' with h | rfl | h
  · exact h
  · exact absurd hlt (List.lt_irrefl _)
  · exact absurd (hmono ht' ht h) (List.lt_asymm hlt)

end Timestamp

/-! ### Names -/

/-- `hex::encode` of the 16 bytes of a client. -/
def hexEncode (client : ClientId) : List Char := paddedIn 16 32 client

/-- `SNAPSHOTS_PREFIX`. -/
def snapshotsPrefix : List Char := "snapshots".toList

/-- `keys::snapshot_prefix`. -/
def snapshotPrefix (client : ClientId) : List Char := snapshotsPrefix ++ '/' :: hexEncode client

/-- `keys::snapshot`. -/
def snapshotName (client : ClientId) (timestamp : List Char) : List Char :=
  snapshotPrefix client ++ '/' :: timestamp

/-- `REPLICA_SUFFIX`. -/
def replicaSuffix : List Char := ".r1".toList

/-- `timestamp_of`: what follows the last slash. -/
def timestampOf (name : List Char) : List Char := name.rtakeWhile fun c => c ≠ '/'

/-- The error with which `resolve_snapshot` ends. -/
inductive ResolveError
  | snapshotNotFound (spec : List Char)
  | ambiguousSnapshot (spec : List Char) (n : ℕ)
  deriving DecidableEq, Repr

/-- The names of a listing that are not those of replicas. -/
def mainNames (listing : List (List Char)) : List (List Char) :=
  listing.filter fun name => ¬replicaSuffix <:+ name

/-- `list_snapshot_keys`, over the names that the storage lists. -/
def sortedNames (listing : List (List Char)) : List (List Char) :=
  (mainNames listing).insertionSort fun a b =>
    toLex (timestampOf a, a) ≤ toLex (timestampOf b, b)

/-- `resolve_snapshot`. -/
def resolveSnapshot (listing : List (List Char)) (spec : List Char) :
    Except ResolveError (List Char) :=
  let names := sortedNames listing
  if spec = "latest".toList then
    match names.getLast? with
    | some name => .ok name
    | none => .error (.snapshotNotFound spec)
  else if spec ∈ names then .ok spec
  else
    match names.filter fun name => '/' :: spec <:+ name ∨ spec <+: timestampOf name with
    | [] => .error (.snapshotNotFound spec)
    | [name] => .ok name
    | found => .error (.ambiguousSnapshot spec found.length)

/-- The name that `find_parent` looks at: of the names below the client's, the last. -/
def parentName (listing : List (List Char)) (client : ClientId) : Option (List Char) :=
  ((mainNames (listing.filter fun name => snapshotPrefix client ++ ['/'] <+: name)).insertionSort
    (· ≤ ·)).getLast?

/-- The ways in which `read_snapshot` refuses the name of a snapshot. -/
inductive NameError
  | badTimestamp
  | corrupt (reason : String)
  deriving DecidableEq, Repr

section Names

variable (ops : UtcOps)

/-- The last check of `read_snapshot`: a snapshot belongs under the name that its client and its
time make. -/
def belongsUnder (name : List Char) (s : Snapshot) : Except NameError Unit :=
  match parseKeyTimestamp ops (timestampOf name) with
  | none => .error .badTimestamp
  | some t =>
    if ¬(-2 ^ 63 ≤ t ∧ t < 2 ^ 63) then .error (.corrupt "timestamp out of range")
    else if 2 ^ 128 ≤ s.clientId ∨ snapshotName s.clientId (timestampOf name) ≠ name ∨
        s.timeNs ≠ t then
      .error (.corrupt "snapshot content does not belong under this key")
    else .ok ()

/-- The name of a key. -/
def SnapshotKey.name (key : SnapshotKey) : List Char :=
  snapshotName key.client ((formatKeyTimestamp ops key.timeNs).getD [])

/-- A client of 16 bytes and a time of 64 bits. -/
structure SnapshotKey.Fits (key : SnapshotKey) : Prop where
  client : key.client < 2 ^ 128
  time : FitsI64 key.timeNs

/-- What the storage lists below `snapshots/`: the names of the snapshots and of their replicas. -/
def Repository.Lists (repo : Repository) (listing : List (List Char)) : Prop :=
  listing.Perm (repo.store.snapshots.keys.map (SnapshotKey.name ops) ++
    repo.store.snapshotReplicas.keys.map fun key => key.name ops ++ replicaSuffix)

end Names

/-! ### The names of keys -/

theorem length_hexEncode {client : ClientId} (h : client < 2 ^ 128) :
    (hexEncode client).length = 32 :=
  length_paddedIn (by norm_num) (by norm_num) (h.trans_eq (by norm_num))

theorem hexEncode_lt_iff {client client' : ClientId} (h : client < 2 ^ 128)
    (h' : client' < 2 ^ 128) : hexEncode client < hexEncode client' ↔ client < client' :=
  paddedIn_lt_iff (by norm_num) (by norm_num) (by norm_num) (h.trans_eq (by norm_num))
    (h'.trans_eq (by norm_num))

theorem hexEncode_inj {client client' : ClientId} (h : client < 2 ^ 128)
    (h' : client' < 2 ^ 128) : hexEncode client = hexEncode client' ↔ client = client' := by
  refine ⟨fun heq => ?_, fun heq => heq ▸ rfl⟩
  rcases lt_trichotomy client client' with hlt | heq' | hlt
  · exact absurd ((hexEncode_lt_iff h h').2 hlt) (heq ▸ List.lt_irrefl _)
  · exact heq'
  · exact absurd ((hexEncode_lt_iff h' h).2 hlt) (heq ▸ List.lt_irrefl _)

theorem timestampOf_snapshotName {client : ClientId} {s : List Char} (h : '/' ∉ s) :
    timestampOf (snapshotName client s) = s := by
  have hall : ∀ c ∈ s.reverse, decide (c ≠ '/') = true := fun c hc =>
    decide_eq_true fun heq => h (heq ▸ List.mem_reverse.1 hc)
  rw [timestampOf, snapshotName, List.rtakeWhile, List.reverse_append, List.reverse_cons,
    List.append_assoc, List.takeWhile_append_of_pos hall, List.singleton_append,
    List.takeWhile_cons_of_neg (by simp), List.append_nil, List.reverse_reverse]

theorem snapshotName_lt_iff {client client' : ClientId} {s : List Char} (h : client < 2 ^ 128)
    (h' : client' < 2 ^ 128) :
    snapshotName client s < snapshotName client' s ↔ client < client' := by
  have hlen := (length_hexEncode h).trans (length_hexEncode h').symm
  have hrest : hexEncode client ++ '/' :: s < hexEncode client' ++ '/' :: s ↔ client < client' := by
    rw [append_lt_append_iff hlen, hexEncode_lt_iff h h']
    exact ⟨fun hlt => hlt.resolve_right fun heq => List.lt_irrefl _ heq.2, .inl⟩
  have hslash : '/' :: (hexEncode client ++ '/' :: s) < '/' :: (hexEncode client' ++ '/' :: s) ↔
      client < client' :=
    (append_left_lt_iff ['/']).trans hrest
  rw [snapshotName, snapshotName, snapshotPrefix, snapshotPrefix, List.append_assoc,
    List.append_assoc, append_left_lt_iff, List.cons_append, List.cons_append, hslash]

/-- The keys are in the order of time. -/
theorem listSnapshotKeys_chronological (repo : Repository) :
    repo.listSnapshotKeys.Pairwise fun a b => a.timeNs ≤ b.timeNs := by
  let r (a b : SnapshotKey) : Prop := toLex (a.timeNs, a.client) ≤ toLex (b.timeNs, b.client)
  have htotal : Std.Total r := ⟨fun a b => le_total _ _⟩
  have htrans : IsTrans SnapshotKey r := ⟨fun a b c hab hbc => le_trans hab hbc⟩
  refine (List.pairwise_insertionSort r repo.store.snapshots.keys).imp fun {a b} h => ?_
  rcases Prod.Lex.toLex_le_toLex.1 h with hlt | ⟨heq, -⟩
  · exact le_of_lt hlt
  · exact le_of_eq heq

/-! ### The latest -/

theorem latestKey_eq_none {keys : List SnapshotKey} :
    Repository.latestKey keys = none ↔ keys = [] := by
  cases keys with
  | nil => exact iff_of_true rfl rfl
  | cons key keys =>
    rw [Repository.latestKey]
    refine iff_of_false ?_ (List.cons_ne_nil _ _)
    split
    · split_ifs <;> exact nofun
    · exact nofun

/-- The latest key is one of the keys, with a time that no other key exceeds. -/
theorem latestKey_eq_some {keys : List SnapshotKey} {key : SnapshotKey}
    (h : Repository.latestKey keys = some key) :
    key ∈ keys ∧ ∀ other ∈ keys, other.timeNs ≤ key.timeNs := by
  induction keys generalizing key with
  | nil => cases h
  | cons first keys ih =>
    rw [Repository.latestKey] at h
    split at h
    · next other hother =>
      obtain ⟨hmem, hmax⟩ := ih hother
      split_ifs at h with hlt
      · cases h
        refine ⟨List.mem_cons_of_mem _ hmem, fun x hx => ?_⟩
        rcases List.mem_cons.1 hx with rfl | hx
        · exact le_of_lt hlt
        · exact hmax x hx
      · cases h
        refine ⟨List.mem_cons_self, fun x hx => ?_⟩
        rcases List.mem_cons.1 hx with rfl | hx
        · exact le_rfl
        · exact (hmax x hx).trans (not_lt.1 hlt)
    · next hnone =>
      cases h
      rw [latestKey_eq_none.1 hnone]
      simp

/-- The last of a sorted list. -/
theorem getLast?_insertionSort {α : Type*} [LinearOrder α] {l : List α} {x : α}
    (h : (l.insertionSort (· ≤ ·)).getLast? = some x) : x ∈ l ∧ ∀ y ∈ l, y ≤ x := by
  obtain ⟨init, hinit⟩ := List.getLast?_eq_some_iff.1 h
  have hsorted := List.pairwise_insertionSort (· ≤ ·) l
  rw [hinit, List.pairwise_append] at hsorted
  have hmem : ∀ y, y ∈ l ↔ y ∈ init ++ [x] := fun y => by
    rw [← hinit, List.mem_insertionSort]
  refine ⟨(hmem x).2 (by simp), fun y hy => ?_⟩
  rcases List.mem_append.1 ((hmem y).1 hy) with hy | hy
  · exact hsorted.2.2 y hy x List.mem_cons_self
  · exact le_of_eq (List.mem_singleton.1 hy)

section Order

variable {ops : UtcOps} (hops : ops.Lawful) {a b : SnapshotKey}
include hops

/-- The text of the time of a key, without a slash and with a `Z` at its end. -/
theorem SnapshotKey.Fits.name_eq (ha : a.Fits) : ∃ s, formatKeyTimestamp ops a.timeNs = some s ∧
    a.name ops = snapshotName a.client s ∧ '/' ∉ s ∧ ∃ digits, s = digits ++ ['Z'] := by
  have hs := formatKeyTimestamp_eq hops ha.time
  refine ⟨_, hs, by rw [SnapshotKey.name, hs, Option.getD_some], fun hslash => ?_,
    _, Fields.write_concat (keyTsFormat.dropLast) 'Z' _⟩
  rcases Fields.mem_write hslash with h | h
  · cases h
  · simp [keyTsFormat] at h

/-- The names come in the order of the times, and then of the clients. -/
theorem SnapshotKey.Fits.name_le_iff (ha : a.Fits) (hb : b.Fits) :
    toLex (timestampOf (a.name ops), a.name ops) ≤ toLex (timestampOf (b.name ops), b.name ops) ↔
      toLex (a.timeNs, a.client) ≤ toLex (b.timeNs, b.client) := by
  obtain ⟨s, hs, hname, hslash, -⟩ := ha.name_eq hops
  obtain ⟨s', hs', hname', hslash', -⟩ := hb.name_eq hops
  have hlt : s < s' ↔ a.timeNs < b.timeNs := format_lt_iff hops ha.time hb.time hs hs'
  have heq : s = s' ↔ a.timeNs = b.timeNs := by
    constructor
    · intro h
      have hread := parse_format hops ha.time hs
      rw [h, parse_format hops hb.time hs'] at hread
      exact (Option.some.inj hread).symm
    · intro h
      rw [h, hs'] at hs
      exact (Option.some.inj hs).symm
  rw [hname, hname', timestampOf_snapshotName hslash, timestampOf_snapshotName hslash',
    Prod.Lex.toLex_le_toLex, Prod.Lex.toLex_le_toLex]
  dsimp only
  refine or_congr hlt ⟨fun ⟨h, hle⟩ => ⟨heq.1 h, ?_⟩, fun ⟨h, hle⟩ => ⟨heq.2 h, ?_⟩⟩
  · rw [← h, ← not_lt] at hle
    exact not_lt.1 fun hlt => hle ((snapshotName_lt_iff hb.client ha.client).2 hlt)
  · rw [heq.2 h]
    exact not_lt.1 fun hlt =>
      absurd ((snapshotName_lt_iff hb.client ha.client).1 hlt) (not_lt.2 hle)

/-- Names are told apart. -/
theorem SnapshotKey.Fits.name_inj (ha : a.Fits) (hb : b.Fits) :
    a.name ops = b.name ops ↔ a = b := by
  refine ⟨fun h => ?_, fun h => h ▸ rfl⟩
  have hle := (ha.name_le_iff hops hb).1 (h ▸ le_rfl)
  have hge := (hb.name_le_iff hops ha).1 (h ▸ le_rfl)
  have heq := toLex.injective (le_antisymm hle hge)
  obtain ⟨client, timeNs⟩ := a
  obtain ⟨client', timeNs'⟩ := b
  obtain ⟨rfl, rfl⟩ := Prod.mk.inj heq
  rfl

theorem SnapshotKey.Fits.not_replica (ha : a.Fits) : ¬replicaSuffix <:+ a.name ops := by
  obtain ⟨s, -, hname, -, digits, rfl⟩ := ha.name_eq hops
  rintro ⟨front, hfront⟩
  have hlast : (front ++ replicaSuffix).getLast? = some 'Z' := by
    rw [hfront, hname, snapshotName, ← List.cons_append, ← List.append_assoc, List.getLast?_concat]
  have hone : (front ++ replicaSuffix).getLast? = some '1' := by
    rw [List.getLast?_append]
    rfl
  rw [hone] at hlast
  cases hlast

/-- The names of a listing without those of the replicas. -/
theorem mainNames_perm {repo : Repository} {listing : List (List Char)}
    (hfits : ∀ key ∈ repo.store.snapshots.keys, key.Fits) (h : repo.Lists ops listing) :
    (mainNames listing).Perm (repo.store.snapshots.keys.map (SnapshotKey.name ops)) := by
  refine (h.filter _).trans ?_
  rw [List.filter_append]
  have hmain : ∀ name ∈ repo.store.snapshots.keys.map (SnapshotKey.name ops),
      decide (¬replicaSuffix <:+ name) = true := by
    intro name hname
    obtain ⟨key, hkey, rfl⟩ := List.mem_map.1 hname
    exact decide_eq_true ((hfits key hkey).not_replica hops)
  have hreplica : ∀ name ∈ repo.store.snapshotReplicas.keys.map fun key =>
      key.name ops ++ replicaSuffix, ¬decide (¬replicaSuffix <:+ name) = true := by
    intro name hname
    obtain ⟨key, -, rfl⟩ := List.mem_map.1 hname
    simp
  rw [List.filter_eq_self.2 hmain, List.filter_eq_nil_iff.2 hreplica, List.append_nil]

/-- **`list_snapshot_keys`.** The sorted names are those of the sorted keys. -/
theorem sortedNames_eq {repo : Repository} {listing : List (List Char)}
    (hfits : ∀ key ∈ repo.store.snapshots.keys, key.Fits) (h : repo.Lists ops listing) :
    sortedNames listing = repo.listSnapshotKeys.map (SnapshotKey.name ops) := by
  have hmap : repo.listSnapshotKeys.map (SnapshotKey.name ops) =
      (repo.store.snapshots.keys.map (SnapshotKey.name ops)).insertionSort fun a b =>
        toLex (timestampOf a, a) ≤ toLex (timestampOf b, b) :=
    List.map_insertionSort _ _ _ _ fun a ha b hb =>
      ((hfits a ha).name_le_iff hops (hfits b hb)).symm
  rw [hmap]
  let r (a b : List Char) : Prop := toLex (timestampOf a, a) ≤ toLex (timestampOf b, b)
  have htotal : Std.Total r := ⟨fun a b => le_total _ _⟩
  have htrans : IsTrans (List Char) r := ⟨fun a b c hab hbc => le_trans hab hbc⟩
  have hperm := mainNames_perm hops hfits h
  refine @List.Perm.eq_of_pairwise _ r _ _ (fun a b _ _ hab hba => ?_)
    (List.pairwise_insertionSort r _) (List.pairwise_insertionSort r _) ?_
  · exact congrArg (fun p => (ofLex p).2) (le_antisymm hab hba)
  · exact (List.perm_insertionSort r _).trans (hperm.trans (List.perm_insertionSort r _).symm)

/-- The name that `latest` stands for, of the last of the sorted keys. -/
theorem resolveSnapshot_latest {repo : Repository} {listing : List (List Char)}
    (hfits : ∀ key ∈ repo.store.snapshots.keys, key.Fits) (h : repo.Lists ops listing) :
    resolveSnapshot listing "latest".toList = match repo.listSnapshotKeys.getLast? with
      | some key => .ok (key.name ops)
      | none => .error (.snapshotNotFound "latest".toList) := by
  unfold resolveSnapshot
  dsimp only
  rw [if_pos rfl, sortedNames_eq hops hfits h, List.getLast?_map]
  cases repo.listSnapshotKeys.getLast? <;> rfl

theorem prefix_name_iff {client : ClientId} (hclient : client < 2 ^ 128) (ha : a.Fits) :
    snapshotPrefix client ++ ['/'] <+: a.name ops ↔ a.client = client := by
  obtain ⟨s, -, hname, -⟩ := ha.name_eq hops
  have hlen := (length_hexEncode hclient).trans (length_hexEncode ha.client).symm
  rw [hname, snapshotName]
  constructor
  · rintro ⟨rest, hrest⟩
    rw [List.append_assoc, snapshotPrefix, snapshotPrefix, List.append_assoc, List.append_assoc]
      at hrest
    have hcons := List.append_cancel_left hrest
    rw [List.cons_append, List.cons_append] at hcons
    have hhex := List.append_inj_left (List.cons.inj hcons).2 hlen
    exact ((hexEncode_inj hclient ha.client).1 hhex).symm
  · rintro rfl
    exact ⟨s, by rw [List.append_assoc, List.singleton_append]⟩

/-- The names of one client come in the order of the times. -/
theorem SnapshotKey.Fits.name_lt (ha : a.Fits) (hb : b.Fits) (hclient : a.client = b.client)
    (h : a.timeNs < b.timeNs) : a.name ops < b.name ops := by
  obtain ⟨s, hs, hname, -⟩ := ha.name_eq hops
  obtain ⟨s', hs', hname', -⟩ := hb.name_eq hops
  rw [hname, hname', ← hclient, snapshotName, snapshotName, append_left_lt_iff]
  exact (append_left_lt_iff ['/']).2 ((format_lt_iff hops ha.time hb.time hs hs').2 h)

/-- **`find_parent`.** The name that is looked at is that of the client's latest key. -/
theorem parentName_eq {repo : Repository} {listing : List (List Char)} {client : ClientId}
    (hfits : ∀ key ∈ repo.store.snapshots.keys, key.Fits) (h : repo.Lists ops listing)
    (hclient : client < 2 ^ 128) :
    parentName listing client = (Repository.latestKey
      (repo.store.snapshots.keys.filter fun key => key.client = client)).map
        (SnapshotKey.name ops) := by
  let keys := repo.store.snapshots.keys.filter fun key => key.client = client
  have hkeys : ∀ key ∈ keys, key.Fits ∧ key.client = client := fun key hkey =>
    ⟨hfits key (List.mem_filter.1 hkey).1, of_decide_eq_true (List.mem_filter.1 hkey).2⟩
  let names := mainNames (listing.filter fun name => snapshotPrefix client ++ ['/'] <+: name)
  -- the names below the client's prefix are the names of the client's keys
  have hperm : names.Perm (keys.map (SnapshotKey.name ops)) := by
    have hsame : (repo.store.snapshots.keys.map (SnapshotKey.name ops)).filter
        (fun name => snapshotPrefix client ++ ['/'] <+: name) =
          keys.map (SnapshotKey.name ops) := by
      rw [List.filter_map]
      congr 1
      refine List.filter_congr fun key hkey => ?_
      rw [Function.comp_apply, decide_eq_decide]
      exact prefix_name_iff hops hclient (hfits key hkey)
    rw [← hsame]
    show (mainNames (listing.filter _)).Perm _
    rw [mainNames, List.filter_comm]
    exact (mainNames_perm hops hfits h).filter _
  show (names.insertionSort (· ≤ ·)).getLast? = (Repository.latestKey keys).map _
  have hmem : ∀ name, name ∈ names ↔ ∃ key ∈ keys, key.name ops = name := fun name => by
    rw [hperm.mem_iff, List.mem_map]
  cases hlatest : Repository.latestKey keys with
  | none =>
    have hnil : names = [] := by
      rw [latestKey_eq_none.1 hlatest] at hperm
      exact List.perm_nil.1 hperm
    rw [hnil]
    rfl
  | some key =>
    obtain ⟨hkey, hmax⟩ := latestKey_eq_some hlatest
    cases hlast : (names.insertionSort (· ≤ ·)).getLast? with
    | none =>
      have hnil := List.getLast?_eq_none_iff.1 hlast
      have hname : key.name ops ∈ names.insertionSort (· ≤ ·) :=
        (List.mem_insertionSort _).2 ((hmem _).2 ⟨key, hkey, rfl⟩)
      rw [hnil] at hname
      cases hname
    | some name =>
      obtain ⟨hname, hle⟩ := getLast?_insertionSort hlast
      obtain ⟨other, hother, rfl⟩ := (hmem name).1 hname
      -- the last name belongs to a latest key, since the order of the names is that of the times
      have hnot : ¬other.timeNs < key.timeNs := fun hlt => by
        have hclients := (hkeys other hother).2.trans (hkeys key hkey).2.symm
        have hnames := (hkeys other hother).1.name_lt hops (hkeys key hkey).1 hclients hlt
        exact absurd (hle _ ((hmem _).2 ⟨key, hkey, rfl⟩)) (not_le.2 hnames)
      have htime := le_antisymm (hmax other hother) (not_lt.1 hnot)
      obtain ⟨client₁, time₁⟩ := other
      obtain ⟨client₂, time₂⟩ := key
      obtain rfl := (hkeys _ hother).2.trans (hkeys _ hkey).2.symm
      obtain rfl := htime
      rfl

/-- **`read_snapshot`.** Under a name of a key belong the snapshots of this key. -/
theorem SnapshotKey.Fits.belongsUnder_iff (ha : a.Fits) {s : Snapshot} :
    belongsUnder ops (a.name ops) s = .ok () ↔ s.key = a := by
  obtain ⟨ts, hts, hname, hslash, -⟩ := ha.name_eq hops
  have htime : timestampOf (a.name ops) = ts := by rw [hname, timestampOf_snapshotName hslash]
  have hsame : s.clientId < 2 ^ 128 →
      (snapshotName s.clientId ts = a.name ops ↔ s.clientId = a.client) := fun hs => by
    rw [hname]
    refine ⟨fun h => ?_, fun h => h ▸ rfl⟩
    rw [snapshotName, snapshotName] at h
    have hprefix := List.append_cancel_right h
    exact (hexEncode_inj hs ha.client).1
      (List.cons.inj (List.append_cancel_left hprefix)).2
  unfold belongsUnder
  rw [htime, parse_format hops ha.time hts]
  dsimp only
  have hrange : ¬¬(-2 ^ 63 ≤ a.timeNs ∧ a.timeNs < 2 ^ 63) := not_not.2 ha.time
  rw [if_neg hrange]
  constructor
  · intro h
    split_ifs at h with hbad
    push Not at hbad
    obtain ⟨hclient, hequal, hns⟩ := hbad
    have hclients := (hsame hclient).1 hequal
    obtain ⟨client, timeNs⟩ := a
    obtain rfl := hclients
    obtain rfl := hns
    rfl
  · rintro rfl
    rw [if_neg]
    rintro (h | h | h)
    · exact absurd ha.client (not_lt.2 h)
    · exact h ((hsame ha.client).2 rfl)
    · exact h rfl

end Order

theorem writeSnapshot_lookup_ne {repo repo' : Repository} {key other : SnapshotKey} {s : Snapshot}
    (h : repo.writeSnapshot key s = (.ok (), repo')) (hne : other ≠ key) :
    repo'.store.snapshots.lookup other = repo.store.snapshots.lookup other := by
  unfold Repository.writeSnapshot at h
  split at h
  · cases h
  · obtain ⟨replicas, hr⟩ := repo.putSnapshotReplica_eq key (.snapshot key s)
    dsimp only at h
    rw [hr] at h
    split_ifs at h
    · cases h
    · cases h
      exact AList.lookup_insert_ne hne

/-- What `commit_snapshot` stores: snapshots under the keys of their clients and times. -/
theorem commitSnapshot_stored {make : Time → Snapshot} {key : SnapshotKey} {bytes : Sealed}
    {attempts : ℕ} {now : Time} {repo : Repository}
    (h : (Repository.commitSnapshot make attempts now repo).2.store.snapshots.lookup key =
      some bytes) : repo.store.snapshots.lookup key = some bytes ∨
        ∃ t, FitsI64 t ∧ key = (make t).key ∧ bytes = .snapshot key (make t) := by
  induction attempts generalizing now repo with
  | zero => exact .inl h
  | succ attempts ih =>
    unfold Repository.commitSnapshot at h
    dsimp only at h
    split_ifs at h with hrange
    · split at h
      · next repo₁ hw =>
        obtain ⟨-, hl, -⟩ := Repository.writeSnapshot_ok hw
        by_cases hkey : key = (make now).key
        · subst hkey
          rw [hl] at h
          exact .inr ⟨now, hrange, rfl, (Option.some.inj h).symm⟩
        · exact .inl ((writeSnapshot_lookup_ne hw hkey).symm.trans h)
      · next repo₁ hw =>
        obtain ⟨replicas, rfl⟩ := Repository.writeSnapshot_error hw
        exact @ih _ { repo with store.snapshotReplicas := replicas } h
      · next e repo₁ hne hw =>
        obtain ⟨replicas, rfl⟩ := Repository.writeSnapshot_error hw
        exact .inl h
    · exact .inl h

/-- The names that the storage lists, as they are used: sorted by time, the latest of all and the
latest of a client. -/
structure Repository.NamesInOrder (ops : UtcOps) (repo : Repository)
    (listing : List (List Char)) : Prop where
  sorted : sortedNames listing = repo.listSnapshotKeys.map (SnapshotKey.name ops)
  complete : repo.listSnapshotKeys.Perm repo.store.snapshots.keys
  chronological : repo.listSnapshotKeys.Pairwise fun a b => a.timeNs ≤ b.timeNs
  latest : repo.store.snapshots.keys ≠ [] → ∃ key ∈ repo.store.snapshots.keys,
    resolveSnapshot listing "latest".toList = .ok (key.name ops) ∧
      ∀ other ∈ repo.store.snapshots.keys, other.timeNs ≤ key.timeNs
  parent : ∀ client < 2 ^ 128, (∃ key ∈ repo.store.snapshots.keys, key.client = client) →
    ∃ key ∈ repo.store.snapshots.keys, key.client = client ∧
      parentName listing client = some (key.name ops) ∧
      ∀ other ∈ repo.store.snapshots.keys, other.client = client → other.timeNs ≤ key.timeNs

theorem namesInOrder {ops : UtcOps} (hops : ops.Lawful) {repo : Repository}
    {listing : List (List Char)} (hfits : ∀ key ∈ repo.store.snapshots.keys, key.Fits)
    (h : repo.Lists ops listing) : repo.NamesInOrder ops listing where
  sorted := sortedNames_eq hops hfits h
  complete := List.perm_insertionSort _ _
  chronological := listSnapshotKeys_chronological repo
  latest hne := by
    have hperm : repo.listSnapshotKeys.Perm repo.store.snapshots.keys :=
      List.perm_insertionSort _ _
    have hsorted := listSnapshotKeys_chronological repo
    cases hlast : repo.listSnapshotKeys.getLast? with
    | none =>
      rw [List.getLast?_eq_none_iff.1 hlast] at hperm
      exact absurd (List.nil_perm.1 hperm) hne
    | some key =>
      obtain ⟨init, hinit⟩ := List.getLast?_eq_some_iff.1 hlast
      rw [hinit] at hperm hsorted
      refine ⟨key, hperm.mem_iff.1 (by simp), ?_, fun other hother => ?_⟩
      · rw [resolveSnapshot_latest hops hfits h, hlast]
      · rcases List.mem_append.1 (hperm.mem_iff.2 hother) with hmem | hmem
        · exact (List.pairwise_append.1 hsorted).2.2 other hmem key List.mem_cons_self
        · exact le_of_eq (congrArg SnapshotKey.timeNs (List.mem_singleton.1 hmem))
  parent client hclient hsome := by
    obtain ⟨first, hfirst, hof⟩ := hsome
    have hparent := parentName_eq hops hfits h hclient
    cases hlatest : Repository.latestKey
        (repo.store.snapshots.keys.filter fun key => key.client = client) with
    | none =>
      have hnil := latestKey_eq_none.1 hlatest
      exact absurd (decide_eq_true hof) (List.filter_eq_nil_iff.1 hnil first hfirst)
    | some key =>
      obtain ⟨hkey, hmax⟩ := latestKey_eq_some hlatest
      rw [hlatest] at hparent
      exact ⟨key, (List.mem_filter.1 hkey).1, of_decide_eq_true (List.mem_filter.1 hkey).2, hparent,
        fun other hother hclient => hmax other (List.mem_filter.2 ⟨hother, decide_eq_true hclient⟩)⟩

/-- **Names in the order of time.** Times of 64 bits are written, read back to the nanosecond, and
come in the order of their texts; so do the names of any stored snapshots wherever they are sorted;
and what a commit stores belongs under its name. -/
theorem snapshot_names_chronological (ops : UtcOps) (hops : ops.Lawful) :
    (∀ t t', FitsI64 t → FitsI64 t' → ∃ s s', formatKeyTimestamp ops t = some s ∧
        formatKeyTimestamp ops t' = some s' ∧ parseKeyTimestamp ops s = some t ∧
          (s < s' ↔ t < t')) ∧
      (∀ (repo : Repository) listing, (∀ key ∈ repo.store.snapshots.keys, key.Fits) →
        repo.Lists ops listing → repo.NamesInOrder ops listing) ∧
      ∀ make : Time → Snapshot, (∀ t, (make t).timeNs = t ∧ (make t).clientId < 2 ^ 128) →
        ∀ attempts started repo key bytes,
          (Repository.commitSnapshot make attempts started repo).2.store.snapshots.lookup key =
            some bytes → repo.store.snapshots.lookup key = some bytes ∨
              key.Fits ∧ ∃ s, bytes = .snapshot key s ∧
                belongsUnder ops (key.name ops) s = .ok () := by
  refine ⟨fun t t' ht ht' => ?_, fun repo listing hfits h => namesInOrder hops hfits h,
    fun make hmake attempts started repo key bytes h => ?_⟩
  · have hs := formatKeyTimestamp_eq hops ht
    have hs' := formatKeyTimestamp_eq hops ht'
    exact ⟨_, _, hs, hs', parse_format hops ht hs, format_lt_iff hops ht ht' hs hs'⟩
  · refine (commitSnapshot_stored h).imp_right fun ⟨t, ht, hkey, hbytes⟩ => ?_
    have hfits : key.Fits := by
      have htime : (make t).key.timeNs = t := (hmake t).1
      rw [hkey]
      exact ⟨(hmake t).2, by rwa [htime]⟩
    exact ⟨hfits, make t, hbytes, (hfits.belongsUnder_iff hops).2 hkey.symm⟩

theorem snapshot_names_chronological_gregorian :
    ∃ s s', formatKeyTimestamp gregorian (-1) = some s ∧
      formatKeyTimestamp gregorian 1700000000123456789 = some s' ∧
        parseKeyTimestamp gregorian s = some (-1) ∧ (s < s' ↔ (-1 : ℤ) < 1700000000123456789) :=
  (snapshot_names_chronological gregorian lawful_gregorian).1 _ _ ⟨by norm_num, by norm_num⟩
    ⟨by norm_num, by norm_num⟩

end Kist
