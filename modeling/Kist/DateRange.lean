import Kist.Backup.Prepare
import Kist.Forget
import Kist.Lib.Panics

/-!
# Dates out of range

The durations that a user gives meet the times of objects in `prune_plan`, `commit_at` and `forget`.
Here these are written over the date operators, which panic where the result is no date, and
compared with the plain arithmetic of the other modules.

`dates_in_range_iff`: when each of them panics.
-/

namespace Kist

namespace DateOps.Lawful

variable {ops : DateOps} (hops : ops.Lawful)
include hops

theorem add (t : ℤ) (d : ℕ) : PanicsUnless (ops.add t d) (t + d) (t + d ≤ maxDateTime) := by
  rw [hops.add_eq]
  exact .of_ite

theorem sub (t : ℤ) (d : ℕ) : PanicsUnless (ops.sub t d) (t - d) (minDateTime ≤ t - d) := by
  rw [hops.sub_eq]
  exact .of_ite

end DateOps.Lawful

/-! ### The durations -/

/-- `char::is_whitespace`. -/
def isWhitespace (c : Char) : Bool :=
  (9 ≤ c.toNat ∧ c.toNat ≤ 13) ∨ (0x2000 ≤ c.toNat ∧ c.toNat ≤ 0x200A) ∨
    c.toNat ∈ [0x20, 0x85, 0xA0, 0x1680, 0x2028, 0x2029, 0x202F, 0x205F, 0x3000]

/-- `str::trim`. -/
def trim (s : List Char) : List Char :=
  ((s.dropWhile isWhitespace).reverse.dropWhile isWhitespace).reverse

/-- The seconds of a unit. -/
def unitSeconds : List Char → Option ℕ
  | ['s'] => some 1
  | ['m'] => some 60
  | ['h'] => some 3600
  | ['d'] => some 86400
  | ['w'] => some (7 * 86400)
  | _ => none

/-- `parse_duration`, in nanoseconds. -/
def parseDuration (s : List Char) : Except String ℕ :=
  let s := trim s
  let num := s.takeWhile Char.isDigit
  let unit := s.dropWhile Char.isDigit
  let shown := reprStr (String.ofList s)
  if unit = [] then .error (shown ++ ": missing unit (s, m, h, d, w)")
  else if num = [] ∨ 2 ^ 64 ≤ Nat.ofDigitChars 10 num 0 then .error (shown ++ ": not a number")
  else match unitSeconds unit with
    | none =>
      .error (shown ++ ": unknown unit " ++ reprStr (String.ofList unit) ++ " (use s, m, h, d, w)")
    | some secs =>
      let n := Nat.ofDigitChars 10 num 0
      if 2 ^ 64 ≤ n * secs then .error (shown ++ ": too large") else .ok (n * secs * 10 ^ 9)

/-- A duration is a number of seconds of 64 bits. -/
theorem parseDuration_lt {s : List Char} {d : ℕ} (h : parseDuration s = .ok d) :
    d < 2 ^ 64 * 10 ^ 9 := by
  unfold parseDuration at h
  dsimp only at h
  split_ifs at h
  split at h
  · cases h
  · split_ifs at h with hlarge
    cases h
    exact Nat.mul_lt_mul_of_pos_right (not_le.1 hlarge) (by norm_num)

/-- Each such number can be given. -/
theorem parseDuration_seconds {n : ℕ} (h : n < 2 ^ 64) :
    parseDuration (Nat.toDigits 10 n ++ ['s']) = .ok (n * 10 ^ 9) := by
  have hdigit : ∀ c ∈ Nat.toDigits 10 n, c.isDigit = true := fun c hc =>
    Nat.isDigit_of_mem_toDigits (by norm_num) (by norm_num) hc
  obtain ⟨d, ds, hds⟩ := List.exists_cons_of_ne_nil (Nat.toDigits_ne_nil (b := 10) (n := n))
  have hblank : isWhitespace d = false := by
    have hd : 48 ≤ d.toNat ∧ d.toNat ≤ 57 := by
      simpa [Char.isDigit, UInt32.le_iff_toNat_le] using hdigit d (by simp [hds])
    simp [isWhitespace]
    omega
  have htrim : trim (Nat.toDigits 10 n ++ ['s']) = Nat.toDigits 10 n ++ ['s'] := by
    have hs : isWhitespace 's' = false := by decide
    rw [trim, hds, List.cons_append, List.dropWhile_cons_of_neg (by simp [hblank])]
    simp [hs]
  have hnum : (Nat.toDigits 10 n ++ ['s']).takeWhile Char.isDigit = Nat.toDigits 10 n := by
    rw [List.takeWhile_append_of_pos hdigit]
    simp
  have hunit : (Nat.toDigits 10 n ++ ['s']).dropWhile Char.isDigit = ['s'] := by
    rw [List.dropWhile_append_of_pos hdigit]
    simp
  unfold parseDuration
  simp only [htrim, hnum, hunit, unitSeconds, Nat.ofDigitChars_ten_toDigits]
  rw [if_neg (by simp), if_neg, if_neg (by omega), mul_one]
  rw [not_or]
  exact ⟨Nat.toDigits_ne_nil, not_le.2 h⟩

/-! ### Prune -/

namespace TimedRepository

variable (ops : DateOps) (repo : TimedRepository)

/-- `min_active_latest`. -/
def minActiveLatestDated (snapshots : List (SnapshotKey × Snapshot)) (now : Time)
    (inactiveAfter skew : ℕ) : Option (Option Time) := do
  let latest ← ((latestByClient snapshots).entries.map fun b => b.2).filterMapM fun t => do
    let cut ← ops.sub now inactiveAfter
    if t ≥ cut then return some (← ops.sub t skew) else return none
  return latest.min?

/-- The verdict on a mark. -/
def judgeDated (isLive : Kind → ObjectId → Bool) (now : Time) (grace : ℕ) (minLatest : Option Time)
    (id : ObjectId) (time : Time) : Option MarkVerdict :=
  match [Kind.pack, .tree, .index].findSome? fun kind => repo.info kind id with
  | none => some .stale
  | some target =>
    if isLive target.kind id then some .revived
    else do
      let due ← ops.add time grace
      if due > now then return .waiting
      else if minLatest.any fun m => time ≥ m then return .blocked
      else return .delete target

/-- The packs to pack anew. -/
def repackCandidatesDated (opts : PruneOptions) (indexed : Dict ObjectId IndexPack)
    (needed : Finset ObjectId) (live : Dict ObjectId ℕ) : Option (List ObjectId) :=
  if opts.repackBelowPercent = 0 then some []
  else (needed.sort (· ≤ ·)).filterMapM fun id =>
    if id ∈ repo.store.marks then some none
    else match repo.info .pack id with
      | none => some none
      | some t => do
        let due ← ops.add t.modified opts.grace
        return if due ≤ opts.now ∧ ((indexed.lookup id).any fun p => packTotal p > 0 ∧
            saturatingMul ((live.lookup id).getD 0) 100 <
              saturatingMul (packTotal p) opts.repackBelowPercent) then some id else none

/-- The objects to mark. -/
def markCandidatesDated (opts : PruneOptions) (isLive : Kind → ObjectId → Bool)
    (repack : List ObjectId) : Option (List PruneTarget) := do
  let candidates := [Kind.pack, .tree, .index].flatMap fun kind =>
    (repo.listIds kind).filterMap (repo.info kind)
  let old ← candidates.filterMapM fun t =>
    if isLive t.kind t.id || t.id ∈ repo.store.marks then some none
    else do
      let due ← ops.add t.modified opts.grace
      return if due > opts.now then none else some t
  return sortTargets (old ++ repack.filterMap (repo.info .pack))

/-- The decisions of `prune_plan`. -/
def decidePlanDated (opts : PruneOptions) (reach : Reachability) (indexed : Dict ObjectId IndexPack)
    (needed : Finset ObjectId) (live : Dict ObjectId ℕ) (idx : PruneIndex) : Option PrunePlan := do
  let isLive := repo.isLive needed reach.liveTrees
  let minLatest ← minActiveLatestDated ops reach.snapshots opts.now opts.inactiveAfter
    opts.clockSkew
  let verdicts ← repo.store.marks.entries.mapM fun m => do
    return (m.1, m.2, ← repo.judgeDated ops isLive opts.now opts.grace minLatest m.1 m.2)
  let deletions := verdicts.filterMap fun v => match v.2.2 with
    | .delete target => some (target, v.2.1)
    | _ => none
  let repack ← repo.repackCandidatesDated ops opts indexed needed live
  let toMark ← repo.markCandidatesDated ops opts isLive repack
  let blobs := repo.indexBlobs
  return {
    dryRun := opts.dryRun
    report :=
      { snapshots := reach.snapshots.length
        liveTrees := reach.liveTrees.card
        livePacks := needed.card
        marked := toMark.length
        revived := verdicts.countP fun v => v.2.2 = .revived
        staleMarks := verdicts.countP fun v => v.2.2 = .stale
        deleted := if opts.dryRun then deletions.length else 0
        blocked := verdicts.countP fun v => v.2.2 = .blocked
        waiting := verdicts.countP fun v => v.2.2 = .waiting
        repackedPacks := repack.length }
    indexed
    phantoms := repo.phantomPacks indexed
    markedPacks := repo.store.marks.keys.toFinset.filter fun id => id ∈ indexed
    allBlobIds := (effective blobs).map Prod.fst ++
      (blobs.filter fun b => b.1 ∈ supersededBy blobs).map Prod.fst
    effectiveBlobCount := (effective blobs).length
    idx
    neededPacks := needed
    toDelete := deletions.insertionSort fun a b =>
      toLex (a.1.kind.rank, a.1.id) ≤ toLex (b.1.kind.rank, b.1.id)
    marksToRemove := verdicts.filterMap fun v =>
      if v.2.2 = .stale ∨ v.2.2 = .revived then some v.1 else none
    repack
    toMark
    packTargetSize := repo.config.packTargetSize }

/-- `prune_plan`. -/
def prunePlanDated (sorter : SortedTable.UnstableSort TableRecord.sortKey) (opts : PruneOptions) :
    ExceptT CoreError Option PrunePlan := do
  checkDuration opts.grace "grace"
  checkDuration opts.inactiveAfter "inactive_after"
  if let e :: _ := repo.indexErrors then
    throw (.unsafe_ s!"{repo.indexErrors.length} index object(s) cannot be read ({reprStr e}); run `kist rebuild-index` first")
  let indexed := indexPacks (effectivePacks repo.indexBlobs)
  let idx := repo.pruneIndex sorter
  let reach := repo.reachability idx.locator
  if let e :: _ := reach.errors then
    throw (.unsafe_ s!"{reach.errors.length} reference(s) cannot be resolved ({reprStr e}); run `kist check` (and `kist rebuild-index` if packs are missing from the index) first")
  let (needed, live, idx) ← idx.markAndCanonicalize (fun id => id ∈ repo.store.marks.keys)
    (repo.phantomPacks indexed) reach.referencedChunks
  checkDuration opts.clockSkew "clock_skew"
  repo.decidePlanDated ops opts reach indexed needed live idx

/-- The dates that the decisions of a prune compute: for each client, the start of its activity and,
where it is active, its latest snapshot less the tolerance for its clock; the end of the grace of
each mark of an object that is not live, and of each object without a mark that is not live or may
be packed anew. -/
structure DatesFit (opts : PruneOptions) (reach : Reachability)
    (needed : Finset ObjectId) : Prop where
  clients : ∀ t ∈ (latestByClient reach.snapshots).entries.map (fun b => b.2),
    minDateTime ≤ opts.now - opts.inactiveAfter ∧
      (opts.now - opts.inactiveAfter ≤ t → minDateTime ≤ t - opts.clockSkew)
  marks : ∀ m ∈ repo.store.marks.entries, ∀ target,
    [Kind.pack, .tree, .index].findSome? (fun kind => repo.info kind m.1) = some target →
      repo.isLive needed reach.liveTrees target.kind target.id = false →
        m.2 + opts.grace ≤ maxDateTime
  objects : ∀ kind, ∀ id ∈ repo.listIds kind, id ∉ repo.store.marks →
    (repo.isLive needed reach.liveTrees kind id = true →
      kind = .pack ∧ opts.repackBelowPercent ≠ 0) → repo.modified kind id + opts.grace ≤ maxDateTime

/-- `prune_plan` gets to its decisions, with these packs needed. -/
structure Decides (sorter : SortedTable.UnstableSort TableRecord.sortKey) (opts : PruneOptions)
    (needed : Finset ObjectId) : Prop where
  grace : checkDuration opts.grace "grace" = .ok ()
  inactiveAfter : checkDuration opts.inactiveAfter "inactive_after" = .ok ()
  readable : repo.indexErrors = []
  resolved : (repo.reachability (repo.pruneIndex sorter).locator).errors = []
  chosen : ∃ live idx,
    (repo.pruneIndex sorter).markAndCanonicalize (fun id => id ∈ repo.store.marks.keys)
    (repo.phantomPacks (indexPacks (effectivePacks repo.indexBlobs)))
    (repo.reachability (repo.pruneIndex sorter).locator).referencedChunks = .ok (needed, live, idx)
  clockSkew : checkDuration opts.clockSkew "clock_skew" = .ok ()

section Spec

variable {ops : DateOps} {repo : TimedRepository} {opts : PruneOptions}

theorem minActiveLatestDated_spec (hops : ops.Lawful) {snapshots : List (SnapshotKey × Snapshot)}
    {now : Time} {inactiveAfter skew : ℕ} :
    PanicsUnless (minActiveLatestDated ops snapshots now inactiveAfter skew)
      (minActiveLatest snapshots now inactiveAfter skew)
      (∀ t ∈ (latestByClient snapshots).entries.map (fun b => b.2),
        minDateTime ≤ now - inactiveAfter ∧
          (now - inactiveAfter ≤ t → minDateTime ≤ t - skew)) := by
  unfold minActiveLatestDated minActiveLatest
  refine PanicsUnless.map (.filterMapM fun t _ => ?_) _
  refine (hops.sub _ _).bind fun _ => ?_
  split_ifs with h
  · exact ((hops.sub _ _).map _).congr (by simp [h])
  · exact (PanicsUnless.pure _).congr (by simp [h])

theorem judgeDated_spec (hops : ops.Lawful) {isLive : Kind → ObjectId → Bool}
    {now : Time} {grace : ℕ}
    {minLatest : Option Time} {id : ObjectId} {time : Time} :
    PanicsUnless (repo.judgeDated ops isLive now grace minLatest id time)
      (repo.judge isLive now grace minLatest id time)
      (∀ target, [Kind.pack, .tree, .index].findSome? (fun kind => repo.info kind id) =
        some target →
        isLive target.kind target.id = false → time + grace ≤ maxDateTime) := by
  unfold judgeDated judge
  cases hfind : [Kind.pack, .tree, .index].findSome? (fun kind => repo.info kind id) with
  | none => exact (PanicsUnless.pure _).congr (by simp)
  | some target =>
    obtain ⟨kind, -, hinfo⟩ := List.exists_of_findSome?_eq_some hfind
    obtain rfl : target.id = id := by rw [(info_eq_some.1 hinfo).2]
    dsimp only
    cases hlive : isLive target.kind target.id with
    | true => exact (PanicsUnless.pure _).congr (by simp [hlive])
    | false =>
      refine ((hops.add time grace).bind (Q := True) fun _ => ?_).congr (by simp [hlive])
      simp only [Bool.false_eq_true, if_false]
      split_ifs
      · exact .pure _
      · exact .pure _
      · exact .pure _

theorem repackCandidatesDated_spec (hops : ops.Lawful) {indexed : Dict ObjectId IndexPack}
    {needed : Finset ObjectId} {live : Dict ObjectId ℕ} :
    PanicsUnless (repo.repackCandidatesDated ops opts indexed needed live)
      (repo.repackCandidates opts opts.grace indexed needed live)
      (opts.repackBelowPercent ≠ 0 → ∀ id ∈ needed,
        id ∉ repo.store.marks → id ∈ repo.listIds .pack →
        repo.modified .pack id + opts.grace ≤ maxDateTime) := by
  unfold repackCandidatesDated repackCandidates
  split_ifs with hzero
  · exact (PanicsUnless.pure _).congr (by simp [hzero])
  have hsort : ∀ (p : ObjectId → Prop) [DecidablePred p], (needed.filter p).sort (· ≤ ·) =
      (needed.sort (· ≤ ·)).filterMap (Option.guard p) := by
    intro p _
    have hset : ((needed.sort (· ≤ ·)).filter p).toFinset = needed.filter p := by
      rw [List.toFinset_filter, Finset.sort_toFinset]
      simp
    rw [List.filterMap_eq_filter, ← hset]
    exact (List.toFinset_sort _ ((Finset.sort_nodup _ _).filter _)).2
      ((Finset.pairwise_sort _ _).filter _)
  rw [hsort]
  refine (PanicsUnless.filterMapM (R := fun id => id ∉ repo.store.marks → id ∈ repo.listIds .pack →
    repo.modified .pack id + opts.grace ≤ maxDateTime) fun id _ => ?_).congr (by simp [hzero])
  by_cases hmark : id ∈ repo.store.marks
  · simp only [hmark, Option.guard]
    exact (PanicsUnless.pure _).congr (by simp)
  simp only [hmark, Option.guard]
  by_cases hid : id ∈ repo.listIds .pack
  · have hinfo : repo.info .pack id = some ⟨.pack, id, repo.modified .pack id⟩ :=
      info_eq_some.2 ⟨hid, rfl⟩
    simp only [hinfo, Option.any_some, not_false_eq_true, true_and, hid, forall_const, if_false,
      decide_eq_true_eq]
    exact (hops.add _ _).map _
  · have hinfo : repo.info .pack id = none := if_neg hid
    simp only [hinfo, hid]
    exact (PanicsUnless.pure _).congr (by simp)

theorem markCandidatesDated_spec (hops : ops.Lawful) {isLive : Kind → ObjectId → Bool}
    {repack : List ObjectId} :
    PanicsUnless (repo.markCandidatesDated ops opts isLive repack)
      (repo.markCandidates opts opts.grace isLive repack)
      (∀ kind, ∀ id ∈ repo.listIds kind, isLive kind id = false → id ∉ repo.store.marks →
        repo.modified kind id + opts.grace ≤ maxDateTime) := by
  have hmem : ∀ t, (t ∈ [Kind.pack, .tree, .index].flatMap fun kind =>
      (repo.listIds kind).filterMap (repo.info kind)) ↔
        ∃ kind, ∃ id ∈ repo.listIds kind, t = ⟨kind, id, repo.modified kind id⟩ := by
    intro t
    simp only [List.mem_flatMap, List.mem_filterMap, info_eq_some]
    constructor
    · rintro ⟨kind, -, id, hid, -, rfl⟩
      exact ⟨kind, id, hid, rfl⟩
    · rintro ⟨kind, id, hid, rfl⟩
      exact ⟨kind, by cases kind <;> simp, id, hid, hid, rfl⟩
  unfold markCandidatesDated markCandidates
  dsimp only
  rw [← List.filterMap_eq_filter]
  generalize hall : ([Kind.pack, .tree, .index].flatMap fun kind =>
    (repo.listIds kind).filterMap (repo.info kind)) = all at hmem ⊢
  refine (PanicsUnless.map (P := ∀ t ∈ all, isLive t.kind t.id = false → t.id ∉ repo.store.marks →
    t.modified + opts.grace ≤ maxDateTime) (.filterMapM fun t _ => ?_) _).congr ?_
  · have hguard : Option.guard (fun t => !(isLive t.kind t.id || decide (t.id ∈ repo.store.marks) ||
        decide (t.modified + opts.grace > opts.now))) t =
      if isLive t.kind t.id || t.id ∈ repo.store.marks then none
      else if t.modified + opts.grace > opts.now then none else some t := by
      unfold Option.guard
      by_cases hskip : isLive t.kind t.id || t.id ∈ repo.store.marks
      · simp [hskip]
      · by_cases hold : t.modified + opts.grace > opts.now <;> simp [hskip, hold]
    rw [hguard]
    by_cases hskip : isLive t.kind t.id || t.id ∈ repo.store.marks
    · rw [if_pos hskip, if_pos hskip]
      refine (PanicsUnless.pure _).congr ?_
      cases hlive : isLive t.kind t.id <;> simp_all
    · rw [if_neg hskip, if_neg hskip]
      refine ((hops.add _ _).map _).congr ?_
      cases hlive : isLive t.kind t.id <;> simp_all
  · simp only [hmem]
    constructor
    · exact fun h kind id hid => h ⟨kind, id, repo.modified kind id⟩ ⟨kind, id, hid, rfl⟩
    · rintro h t ⟨kind, id, hid, rfl⟩
      exact h kind id hid

/-- The decisions panic where a date is out of range, and are those of `decidePlan` elsewhere. -/
theorem decidePlanDated_spec (hops : ops.Lawful) {reach : Reachability}
    {indexed : Dict ObjectId IndexPack} {needed : Finset ObjectId} {live : Dict ObjectId ℕ}
    {idx : PruneIndex} :
    PanicsUnless (repo.decidePlanDated ops opts reach indexed needed live idx)
      (repo.decidePlan opts reach indexed needed live idx) (repo.DatesFit opts reach needed) := by
  -- a live pack is dated only for the repack, every other object as a candidate for a mark
  have hfit : ((∀ t ∈ (latestByClient reach.snapshots).entries.map (fun b => b.2),
        minDateTime ≤ opts.now - opts.inactiveAfter ∧
          (opts.now - opts.inactiveAfter ≤ t → minDateTime ≤ t - opts.clockSkew)) ∧
      (∀ m ∈ repo.store.marks.entries, ∀ target,
        [Kind.pack, .tree, .index].findSome? (fun kind => repo.info kind m.1) = some target →
          repo.isLive needed reach.liveTrees target.kind target.id = false →
            m.2 + opts.grace ≤ maxDateTime) ∧
      (opts.repackBelowPercent ≠ 0 → ∀ id ∈ needed,
        id ∉ repo.store.marks → id ∈ repo.listIds .pack →
        repo.modified .pack id + opts.grace ≤ maxDateTime) ∧
      ∀ kind, ∀ id ∈ repo.listIds kind, repo.isLive needed reach.liveTrees kind id = false →
        id ∉ repo.store.marks → repo.modified kind id + opts.grace ≤ maxDateTime) ↔
      repo.DatesFit opts reach needed := by
    constructor
    · rintro ⟨hclients, hmarks, hrepack, hobjects⟩
      refine ⟨hclients, hmarks, fun kind id hid hmark hlive => ?_⟩
      cases h : repo.isLive needed reach.liveTrees kind id with
      | false => exact hobjects kind id hid h hmark
      | true =>
        obtain ⟨rfl, hzero⟩ := hlive h
        exact hrepack hzero id (of_decide_eq_true h) hmark hid
    · rintro ⟨hclients, hmarks, hobjects⟩
      refine ⟨hclients, hmarks, fun hzero id hid hmark hlist => ?_,
        fun kind id hid hlive hmark => ?_⟩
      · exact hobjects .pack id hlist hmark fun _ => ⟨rfl, hzero⟩
      · exact hobjects kind id hid hmark fun h => absurd (hlive.symm.trans h) (by decide)
  refine PanicsUnless.congr ?_ hfit
  unfold decidePlanDated decidePlan
  refine (minActiveLatestDated_spec hops).bind fun _ => ?_
  refine (PanicsUnless.mapM fun m _ => (judgeDated_spec hops).map _).bind fun _ => ?_
  refine (repackCandidatesDated_spec hops).bind fun _ => ?_
  exact (markCandidatesDated_spec hops).map _

/-- **Prune.** A plan is made, or refused, where the dates of its decisions are in range. -/
theorem prunePlanDated_spec (hops : ops.Lawful)
    {sorter : SortedTable.UnstableSort TableRecord.sortKey} :
    PanicsUnless (repo.prunePlanDated ops sorter opts).run (repo.prunePlan sorter opts)
      (∀ needed, repo.Decides sorter opts needed →
        repo.DatesFit opts (repo.reachability (repo.pruneIndex sorter).locator) needed) := by
  -- where it is refused before the decisions, no date is computed
  have hrefused : ∀ e, repo.prunePlan sorter opts = .error e →
      (repo.prunePlanDated ops sorter opts).run = some (.error e) →
      (∀ needed, ¬repo.Decides sorter opts needed) →
      PanicsUnless (repo.prunePlanDated ops sorter opts).run (repo.prunePlan sorter opts)
        (∀ needed, repo.Decides sorter opts needed →
          repo.DatesFit opts (repo.reachability (repo.pruneIndex sorter).locator) needed) := by
    intro e hplan hdated hno
    rw [hplan, hdated]
    exact (PanicsUnless.pure _).congr ⟨fun _ needed h => absurd h (hno needed), fun _ => trivial⟩
  cases hgrace : checkDuration opts.grace "grace" with
  | error e =>
    exact hrefused e (by rw [prunePlan, hgrace]; rfl) (by rw [prunePlanDated, hgrace]; rfl)
      fun needed h => nomatch hgrace.symm.trans h.grace
  | ok u =>
  cases hinactive : checkDuration opts.inactiveAfter "inactive_after" with
  | error e =>
    exact hrefused e (by rw [prunePlan, hgrace, hinactive]; rfl)
      (by rw [prunePlanDated, hgrace, hinactive]; rfl)
      fun needed h => nomatch hinactive.symm.trans h.inactiveAfter
  | ok u =>
  cases hread : repo.indexErrors with
  | cons e errors =>
    exact hrefused _ (by rw [prunePlan, hgrace, hinactive, hread]; rfl)
      (by rw [prunePlanDated, hgrace, hinactive, hread]; rfl)
      fun needed h => nomatch hread.symm.trans h.readable
  | nil =>
  cases hwalk : (repo.reachability (repo.pruneIndex sorter).locator).errors with
  | cons e errors =>
    exact hrefused _ (by simp only [prunePlan, hgrace, hinactive, hread, hwalk]; rfl)
      (by simp only [prunePlanDated, hgrace, hinactive, hread, hwalk]; rfl)
      fun needed h => nomatch hwalk.symm.trans h.resolved
  | nil =>
  cases hchosen : (repo.pruneIndex sorter).markAndCanonicalize
    (fun id => id ∈ repo.store.marks.keys)
    (repo.phantomPacks (indexPacks (effectivePacks repo.indexBlobs)))
    (repo.reachability (repo.pruneIndex sorter).locator).referencedChunks with
  | error e =>
    exact hrefused e (by simp only [prunePlan, hgrace, hinactive, hread, hwalk, hchosen]; rfl)
      (by simp only [prunePlanDated, hgrace, hinactive, hread, hwalk, hchosen]; rfl)
      fun needed h => by
        obtain ⟨live, idx, hok⟩ := h.chosen
        cases hchosen.symm.trans hok
  | ok r =>
  obtain ⟨needed, live, idx⟩ := r
  cases hskew : checkDuration opts.clockSkew "clock_skew" with
  | error e =>
    exact hrefused e
      (by simp only [prunePlan, hgrace, hinactive, hread, hwalk, hchosen, hskew]; rfl)
      (by simp only [prunePlanDated, hgrace, hinactive, hread, hwalk, hchosen, hskew]; rfl)
      fun needed h => nomatch hskew.symm.trans h.clockSkew
  | ok u =>
    let reach := repo.reachability (repo.pruneIndex sorter).locator
    let indexed := indexPacks (effectivePacks repo.indexBlobs)
    have hplan : repo.prunePlan sorter opts =
        .ok (repo.decidePlan opts reach indexed needed live idx) := by
      simp only [prunePlan, hgrace, hinactive, hread, hwalk, hchosen, hskew]
      rfl
    have hdated : (repo.prunePlanDated ops sorter opts).run =
        repo.decidePlanDated ops opts reach indexed needed live idx >>= fun plan =>
          pure (.ok plan) := by
      simp only [prunePlanDated, hgrace, hinactive, hread, hwalk, hchosen, hskew]
      change (repo.decidePlanDated ops opts reach indexed needed live idx).map Except.ok = _
      cases repo.decidePlanDated ops opts reach indexed needed live idx <;> rfl
    rw [hplan, hdated]
    refine ((decidePlanDated_spec hops).map _).congr ⟨fun h needed' hdecides => ?_, fun h => ?_⟩
    · obtain ⟨live', idx', hchosen'⟩ := hdecides.chosen
      cases hchosen.symm.trans hchosen'
      exact h
    · exact h needed ⟨hgrace, hinactive, hread, hwalk, ⟨live, idx, hchosen⟩, hskew⟩

end Spec

end TimedRepository

/-! ### Commit -/

namespace Repository

variable (ops : DateOps) (repo : Repository)

/-- A mark that has outlived the grace. -/
def expiredDated (marks : Dict ObjectId Time) (grace : ℕ) (now : Time) (id : ObjectId) :
    Option Bool :=
  match marks.lookup id with
  | none => some false
  | some m => do
    let due ← ops.add m grace
    return due ≤ now

/-- One chunk of `verify_referenced_chunks`. -/
def verifyChunkDated (fresh : ChunkIndex) (marks : Dict ObjectId Time) (grace : ℕ) (now : Time)
    (oldPack : ObjectId) (chunk : ChunkId) : ExceptT CoreError Option Unit :=
  match fresh.get chunk with
  | none => throw (.packMissing oldPack (some chunk))
  | some loc => do
    let expired ← expiredDated ops marks grace now loc.pack
    if ¬expired ∧ (repo.store.packs.lookup loc.pack).isSome then pure ()
    else throw (.packMissing loc.pack (some chunk))

/-- `verify_referenced_chunks`. -/
def verifyReferencedChunksDated (referenced : Dict ObjectId (List ChunkId))
    (ownPacks : List ObjectId)
    (marks : Dict ObjectId Time) (grace : ℕ) (now : Time) : ExceptT CoreError Option Unit :=
  if referenced.entries = [] then pure ()
  else do
    let fresh ← repo.loadIndexForBackup marks.keys
    referenced.entries.forM fun r =>
      if r.1 ∈ ownPacks then pure ()
      else r.2.forM (repo.verifyChunkDated ops fresh marks grace now r.1)

/-- `verify_touched_trees`. -/
def verifyTouchedTreesDated (seen : List TreeId) (marksAtStart marks : Dict ObjectId Time)
    (grace : ℕ) (now : Time) : ExceptT CoreError Option Unit := do
  marks.entries.forM fun m => do
    let due ← ops.add m.2 grace
    if due > now ∨ m.1 ∉ seen then pure () else repo.headTreeAndTouch m.1 m.2
  marksAtStart.entries.forM fun m =>
    if m.1 ∉ seen then pure () else repo.headTreeAndTouch m.1 m.2

/-- `commit_snapshot`, the attempts that are left. -/
def commitSnapshotDated (make : Time → Snapshot) (started : Time) :
    ℕ → ℕ → Repository → Option (Except CoreError SnapshotKey × Repository)
  | 0, attempt, repo =>
    some (.error (.alreadyExists (.snapshot (make (started + attempt)).key)), repo)
  | left + 1, attempt, repo => do
    let now ← ops.add started attempt
    let key := (make now).key
    if ¬(-2 ^ 63 ≤ now ∧ now < 2 ^ 63) then
      return (.error (.corrupt (.snapshot key) "timestamp out of range"), repo)
    else match repo.writeSnapshot key (make now) with
      | (.ok (), repo) => return (.ok key, repo)
      | (.error (.alreadyExists _), repo) =>
        commitSnapshotDated make started left (attempt + 1) repo
      | (.error e, repo) => return (.error e, repo)

end Repository

namespace PreparedBackup

variable (ops : DateOps) (p : PreparedBackup)

/-- The checks of `commit_at`. -/
def verifyDated (repo : Repository) (now : Time) : ExceptT CoreError Option Unit := do
  let elapsed := now - p.started
  if 2 ^ 63 ≤ p.opts.gcGrace / 10 ^ 9 then throw (.usage "gc_grace is too large")
  let margin := min graceSafetyMargin (p.opts.gcGrace / 2)
  if elapsed + margin ≥ p.opts.gcGrace then throw (.backupTooLong elapsed p.opts.gcGrace)
  let marks := repo.store.marks
  repo.verifyReferencedChunksDated ops p.referenced p.ownPacks marks p.opts.gcGrace.toNat now
  repo.verifyTouchedTreesDated ops p.seenTrees p.marksAtStart marks p.opts.gcGrace.toNat now

/-- `commit_at`. -/
def commitAtDated (repo : Repository) (now : Time) :
    Option (Except CoreError SnapshotKey × Repository) := do
  match ← (p.verifyDated ops repo now).run with
  | .error e => return (.error e, repo)
  | .ok () => Repository.commitSnapshotDated ops p.snapshotAt p.started 3 0 repo

/-- The ends of the graces that a commit computes: of the mark of each pack to which a chunk that is
used again resolves, and of each mark, as long as no check has failed. -/
structure DatesFit (repo : Repository) (now : Time) : Prop where
  chunks : ∀ fresh, repo.loadIndexForBackup repo.store.marks.keys = .ok fresh →
    ∀ done r rest, p.referenced.entries = done ++ r :: rest → r.1 ∉ p.ownPacks →
      (∀ x ∈ done, x.1 ∉ p.ownPacks → x.2.forM
        (repo.verifyChunk fresh repo.store.marks p.opts.gcGrace now x.1) = .ok ()) →
      ∀ before chunk after, r.2 = before ++ chunk :: after →
        (∀ c ∈ before, repo.verifyChunk fresh repo.store.marks p.opts.gcGrace now r.1 c = .ok ()) →
        ∀ loc, fresh.get chunk = some loc → ∀ m, repo.store.marks.lookup loc.pack = some m →
          m + p.opts.gcGrace ≤ maxDateTime
  trees : repo.verifyReferencedChunks p.referenced p.ownPacks repo.store.marks
    p.opts.gcGrace now = .ok () →
    ∀ done m rest, repo.store.marks.entries = done ++ m :: rest →
      (∀ x ∈ done, x.2 + p.opts.gcGrace ≤ now → x.1 ∈ p.seenTrees →
        repo.headTreeAndTouch x.1 x.2 = .ok ()) → m.2 + p.opts.gcGrace ≤ maxDateTime

end PreparedBackup

section CommitSpec

variable {ops : DateOps} {repo : Repository} {marks : Dict ObjectId Time} {grace : ℕ} {now : Time}

namespace Repository

theorem expiredDated_spec (hops : ops.Lawful) {id : ObjectId} :
    PanicsUnless (expiredDated ops marks grace now id) (expired marks grace now id)
      (∀ m, marks.lookup id = some m → m + grace ≤ maxDateTime) := by
  unfold expiredDated expired
  cases hm : marks.lookup id with
  | none => exact (PanicsUnless.pure _).congr (by simp)
  | some m => exact ((hops.add _ _).map _).congr (by simp)

theorem verifyChunkDated_spec (hops : ops.Lawful) {fresh : ChunkIndex} {oldPack : ObjectId}
    {chunk : ChunkId} :
    PanicsUnless (repo.verifyChunkDated ops fresh marks grace now oldPack chunk).run
      (repo.verifyChunk fresh marks grace now oldPack chunk)
      (∀ loc, fresh.get chunk = some loc → ∀ m, marks.lookup loc.pack = some m →
        m + grace ≤ maxDateTime) := by
  unfold verifyChunkDated verifyChunk
  cases hget : fresh.get chunk with
  | none => exact (PanicsUnless.pure _).congr (by simp)
  | some loc =>
    refine ((expiredDated_spec hops).bindLift (Q := True) fun _ => ?_).congr (by simp)
    dsimp only
    split_ifs <;> exact .pure _

theorem verifyReferencedChunksDated_spec (hops : ops.Lawful)
    {referenced : Dict ObjectId (List ChunkId)} {ownPacks : List ObjectId} :
    PanicsUnless (repo.verifyReferencedChunksDated ops referenced ownPacks marks grace now).run
      (repo.verifyReferencedChunks referenced ownPacks marks grace now)
      (∀ fresh, repo.loadIndexForBackup marks.keys = .ok fresh →
        ∀ done r rest, referenced.entries = done ++ r :: rest → r.1 ∉ ownPacks →
          (∀ x ∈ done, x.1 ∉ ownPacks →
            x.2.forM (repo.verifyChunk fresh marks grace now x.1) = .ok ()) →
          ∀ before chunk after, r.2 = before ++ chunk :: after →
            (∀ c ∈ before, repo.verifyChunk fresh marks grace now r.1 c = .ok ()) →
            ∀ loc, fresh.get chunk = some loc → ∀ m, marks.lookup loc.pack = some m →
              m + grace ≤ maxDateTime) := by
  unfold verifyReferencedChunksDated verifyReferencedChunks
  split_ifs with hnil
  · exact (PanicsUnless.pure _).congr (by simp [hnil])
  have hpack : ∀ fresh (r : (_ : ObjectId) × List ChunkId),
      PanicsUnless (if r.1 ∈ ownPacks then (pure () : ExceptT CoreError Option Unit)
        else r.2.forM (repo.verifyChunkDated ops fresh marks grace now r.1)).run
      (if r.1 ∈ ownPacks then .ok () else r.2.forM (repo.verifyChunk fresh marks grace now r.1))
      (r.1 ∉ ownPacks → ∀ before chunk after, r.2 = before ++ chunk :: after →
        (∀ c ∈ before, repo.verifyChunk fresh marks grace now r.1 c = .ok ()) →
          ∀ loc, fresh.get chunk = some loc → ∀ m, marks.lookup loc.pack = some m →
            m + grace ≤ maxDateTime) := by
    intro fresh r
    split_ifs with hown
    · exact (PanicsUnless.pure _).congr (by simp [hown])
    · exact (PanicsUnless.forM fun chunk _ => verifyChunkDated_spec hops).congr (by simp [hown])
  refine (PanicsUnless.bindOk fun fresh _ => .forM fun r _ => hpack fresh r).congr ?_
  have hdone : ∀ fresh (done : List ((_ : ObjectId) × List ChunkId)),
      (∀ x ∈ done, (if x.1 ∈ ownPacks then Except.ok ()
        else x.2.forM (repo.verifyChunk fresh marks grace now x.1)) = .ok ()) ↔
      ∀ x ∈ done, x.1 ∉ ownPacks →
        x.2.forM (repo.verifyChunk fresh marks grace now x.1) = .ok () := by
    refine fun fresh done => forall₂_congr fun x _ => ?_
    split_ifs with hown <;> simp [hown]
  refine forall₂_congr fun fresh _ => forall₄_congr fun done r rest _ => ?_
  rw [hdone]
  exact ⟨fun h hown hall => h hall hown, fun h hall hown => h hown hall⟩

theorem verifyTouchedTreesDated_spec (hops : ops.Lawful) {seen : List TreeId}
    {marksAtStart : Dict ObjectId Time} :
    PanicsUnless (repo.verifyTouchedTreesDated ops seen marksAtStart marks grace now).run
      (repo.verifyTouchedTrees seen marksAtStart marks grace now)
      (∀ done m rest, marks.entries = done ++ m :: rest →
        (∀ x ∈ done, x.2 + grace ≤ now → x.1 ∈ seen → repo.headTreeAndTouch x.1 x.2 = .ok ()) →
          m.2 + grace ≤ maxDateTime) := by
  unfold verifyTouchedTreesDated verifyTouchedTrees
  have hmark : ∀ m : (_ : ObjectId) × Time,
      PanicsUnless (do
        let due ← liftM (ops.add m.2 grace)
        if due > now ∨ m.1 ∉ seen then (pure () : ExceptT CoreError Option Unit)
        else liftM (repo.headTreeAndTouch m.1 m.2)).run
      (if m.2 + grace > now ∨ m.1 ∉ seen then .ok () else repo.headTreeAndTouch m.1 m.2)
      (m.2 + grace ≤ maxDateTime) := by
    intro m
    refine ((hops.add _ _).bindLift (Q := True) fun _ => ?_).congr (by simp)
    split_ifs <;> exact .pure _
  have hstart : PanicsUnless (marksAtStart.entries.forM fun m =>
      if m.1 ∉ seen then (pure () : ExceptT CoreError Option Unit)
      else liftM (repo.headTreeAndTouch m.1 m.2)).run
      (marksAtStart.entries.forM fun m =>
        if m.1 ∉ seen then .ok () else repo.headTreeAndTouch m.1 m.2) True := by
    refine (PanicsUnless.forM (R := fun _ => True) fun m _ => ?_).congr (by simp)
    split_ifs <;> exact .pure _
  refine ((PanicsUnless.forM fun m _ => hmark m).bindExcept fun _ _ => hstart).congr ?_
  have hdone : ∀ done : List ((_ : ObjectId) × Time),
      (∀ x ∈ done, (if x.2 + grace > now ∨ x.1 ∉ seen then Except.ok ()
        else repo.headTreeAndTouch x.1 x.2) = .ok ()) ↔
      ∀ x ∈ done, x.2 + grace ≤ now → x.1 ∈ seen → repo.headTreeAndTouch x.1 x.2 = .ok () := by
    refine fun done => forall₂_congr fun x _ => ?_
    split_ifs with hskip
    · refine iff_of_true rfl fun hle hseen => ?_
      exact absurd hskip (not_or.2 ⟨not_lt.2 hle, not_not.2 hseen⟩)
    · obtain ⟨hle, hseen⟩ := not_or.1 hskip
      simp [not_lt.1 hle, not_not.1 hseen]
  refine (and_iff_left fun _ _ => trivial).trans (forall₄_congr fun done m rest _ => ?_)
  rw [hdone]

/-- The attempts of a commit are at dates: none follows one whose time does not fit into 64 bits. -/
theorem commitSnapshotDated_eq (hops : ops.Lawful) {make : Time → Snapshot} {started : ℤ}
    {left attempt : ℕ} (hattempt : started + attempt ≤ maxDateTime) :
    commitSnapshotDated ops make started left attempt repo =
      some (commitSnapshot make left (started + attempt) repo) := by
  induction left generalizing attempt repo with
  | zero => rfl
  | succ left ih =>
    rw [commitSnapshotDated, commitSnapshot, (hops.add _ _).yields hattempt]
    simp only [Option.bind_eq_bind, Option.bind_some]
    by_cases hfits : -2 ^ 63 ≤ started + attempt ∧ started + attempt < 2 ^ 63
    · rw [if_neg (not_not.2 hfits), if_neg (not_not.2 hfits)]
      have hnext : started + (attempt + 1 : ℕ) ≤ maxDateTime := by
        unfold maxDateTime
        omega
      have hstep : started + (attempt : ℤ) + 1 = started + (attempt + 1 : ℕ) := by omega
      split <;> simp_all
    · rw [if_pos hfits, if_pos hfits]
      rfl

end Repository

namespace PreparedBackup

variable {p : PreparedBackup}

theorem verifyDated_spec (hops : ops.Lawful) (hgrace : 0 ≤ p.opts.gcGrace) :
    PanicsUnless (p.verifyDated ops repo now).run
      (if 2 ^ 63 ≤ p.opts.gcGrace / 10 ^ 9 then .error (.usage "gc_grace is too large")
        else p.verify repo now)
      (p.opts.gcGrace / 10 ^ 9 < 2 ^ 63 →
        now - p.started + min graceSafetyMargin (p.opts.gcGrace / 2) < p.opts.gcGrace →
          p.DatesFit repo now) := by
  obtain ⟨grace, heq⟩ := Int.eq_ofNat_of_zero_le hgrace
  unfold verifyDated verify
  -- the two early returns of `verify` compute no date
  by_cases hlarge : 2 ^ 63 ≤ p.opts.gcGrace / 10 ^ 9
  · simp only [hlarge, if_true]
    exact (PanicsUnless.pure _).congr ⟨fun _ h => absurd h (not_lt.2 hlarge), fun _ => trivial⟩
  simp only [hlarge, if_false]
  by_cases hlong : now - p.started + min graceSafetyMargin (p.opts.gcGrace / 2) ≥ p.opts.gcGrace
  · simp only [hlong, if_true]
    exact (PanicsUnless.pure _).congr ⟨fun _ _ h => absurd h (not_lt.2 hlong), fun _ => trivial⟩
  simp only [hlong, if_false]
  -- the sums of the two loops, over the marks they meet before they stop
  have hfit : (∀ fresh, repo.loadIndexForBackup repo.store.marks.keys = .ok fresh →
      ∀ done r rest, p.referenced.entries = done ++ r :: rest → r.1 ∉ p.ownPacks →
        (∀ x ∈ done, x.1 ∉ p.ownPacks → x.2.forM
          (repo.verifyChunk fresh repo.store.marks grace now x.1) = .ok ()) →
        ∀ before chunk after, r.2 = before ++ chunk :: after →
          (∀ c ∈ before, repo.verifyChunk fresh repo.store.marks grace now r.1 c = .ok ()) →
          ∀ loc, fresh.get chunk = some loc → ∀ m, repo.store.marks.lookup loc.pack = some m →
            m + grace ≤ maxDateTime) ∧
      (∀ u, repo.verifyReferencedChunks p.referenced p.ownPacks repo.store.marks grace now = .ok u →
        ∀ done m rest, repo.store.marks.entries = done ++ m :: rest →
          (∀ x ∈ done, x.2 + grace ≤ now → x.1 ∈ p.seenTrees →
            repo.headTreeAndTouch x.1 x.2 = .ok ()) → m.2 + grace ≤ maxDateTime) ↔
      (p.opts.gcGrace / 10 ^ 9 < 2 ^ 63 →
        now - p.started + min graceSafetyMargin (p.opts.gcGrace / 2) < p.opts.gcGrace →
          p.DatesFit repo now) := by
    simp only [not_le.1 hlarge, lt_of_not_ge hlong, forall_const]
    constructor
    · rintro ⟨hchunks, htrees⟩
      constructor <;> rw [heq]
      · exact hchunks
      · exact htrees ()
    · rintro ⟨hchunks, htrees⟩
      rw [heq] at hchunks htrees
      exact ⟨hchunks, fun _ => htrees⟩
  refine PanicsUnless.congr ?_ hfit
  rw [heq, Int.toNat_natCast]
  exact (Repository.verifyReferencedChunksDated_spec hops).bindExcept fun _ _ =>
    Repository.verifyTouchedTreesDated_spec hops

/-- **Commit.** A commit is made, or refused, where the ends of the graces are in range. -/
theorem commitAtDated_spec (hops : ops.Lawful) (hgrace : 0 ≤ p.opts.gcGrace)
    (hstarted : p.started ≤ maxDateTime) :
    PanicsUnless (p.commitAtDated ops repo now)
      (if 2 ^ 63 ≤ p.opts.gcGrace / 10 ^ 9 then (.error (.usage "gc_grace is too large"), repo)
        else p.commitAt repo now)
      (p.opts.gcGrace / 10 ^ 9 < 2 ^ 63 →
        now - p.started + min graceSafetyMargin (p.opts.gcGrace / 2) < p.opts.gcGrace →
          p.DatesFit repo now) := by
  unfold commitAtDated commitAt
  refine ((verifyDated_spec hops hgrace).bind (Q := True) fun _ => ?_).congr (by rw [and_true])
  split_ifs with hlarge
  · exact .pure _
  · cases p.verify repo now with
    | error e => exact .pure _
    | ok u =>
      dsimp only
      rw [Repository.commitSnapshotDated_eq hops (by simpa using hstarted)]
      simpa using PanicsUnless.pure _

end PreparedBackup

end CommitSpec

/-! ### Forget -/

/-- The same dates with an arithmetic that has no bounds. -/
def Calendar.unbounded (cal : Calendar) : Calendar :=
  { cal with add := fun t d => some (t + d), sub := fun t d => some (t - d) }

section ForgetSpec

variable {cal : Calendar} {policy : RetentionPolicy} {cs : List Candidate}

theorem keptWithin_spec (hcal : cal.Lawful) (policy : RetentionPolicy) (latest : Option ℤ) (t : ℤ) :
    ∃ within, keptWithin cal.unbounded policy latest t = some within ∧
      PanicsUnless (keptWithin cal policy latest t) within
        (∀ d x, policy.keepWithin = some d → latest = some x → minDateTime ≤ x - d) := by
  unfold keptWithin
  cases hd : policy.keepWithin with
  | none => exact ⟨false, rfl, (PanicsUnless.pure _).congr (by simp)⟩
  | some d =>
    cases hx : latest with
    | none => exact ⟨false, rfl, (PanicsUnless.pure _).congr (by simp)⟩
    | some x =>
      refine ⟨_, rfl, ?_⟩
      dsimp only
      rw [Option.map_eq_bind]
      exact ((hcal.sub x d).map fun cut => decide (cut ≤ t)).congr (by simp)

theorem applyLoop_dated (hcal : cal.Lawful) (policy : RetentionPolicy) (latest : Option ℤ)
    (cs : List Candidate) (k : ℕ) (buckets : List Bucket) :
    ∃ out, applyLoop cal.unbounded policy latest cs k buckets = some out ∧
      PanicsUnless (applyLoop cal policy latest cs k buckets) out
        (cs ≠ [] → ∀ d x, policy.keepWithin = some d → latest = some x → minDateTime ≤ x - d) := by
  induction cs generalizing k buckets with
  | nil => exact ⟨[], rfl, (PanicsUnless.pure _).congr (by simp)⟩
  | cons c cs ih =>
    obtain ⟨within, hwithin, hspec⟩ := keptWithin_spec hcal policy latest c.time
    obtain ⟨out, hout, hrest⟩ := ih (k - 1) ((buckets.map (Bucket.take cal c.time)).map Prod.snd)
    refine ⟨_, by rw [applyLoop, hwithin]; simp only [Option.bind_eq_bind, Option.bind_some]
                  rw [show Bucket.take cal.unbounded = Bucket.take cal from rfl, hout]; rfl, ?_⟩
    rw [applyLoop]
    refine (hspec.bind fun _ => hrest.map _).congr ?_
    exact ⟨fun h _ => h.1, fun h => ⟨h (by simp), fun _ => h (by simp)⟩⟩

/-- The policy on a group. -/
theorem applyPolicy_dated (hcal : cal.Lawful) (policy : RetentionPolicy) (cs : List Candidate) :
    ∃ out, applyPolicy cal.unbounded cs policy = some out ∧
      PanicsUnless (applyPolicy cal cs policy) out (¬WithinOverflows policy cs) := by
  obtain ⟨out, hout, hspec⟩ := applyLoop_dated hcal policy
    ((newestFirst cs).head?.map Candidate.time) (newestFirst cs) (policy.keepLast.getD 0)
    ([.hourly, .daily, .weekly, .monthly, .yearly].filterMap fun kind =>
      (policy.buckets kind).map fun remaining => ⟨kind, remaining, none⟩)
  refine ⟨out, hout, hspec.congr ?_⟩
  by_cases hne : cs = []
  · subst hne
    exact iff_of_true (fun h => absurd rfl h) fun ⟨_, _, h, _⟩ => h rfl
  obtain ⟨x, hx, rest, hhead, hlatest⟩ := head_newestFirst hne
  rw [hhead]
  constructor
  · rintro h ⟨d, hd, -, hlow⟩
    exact absurd (h (List.cons_ne_nil _ _) d x.time hd rfl) (not_le.2 (hlow x hx))
  · rintro h - d _ hd ⟨⟩
    by_contra hlow
    refine h ⟨d, hd, hne, fun y hy => ?_⟩
    have := hlatest y hy
    omega

/-- The policy on all groups. -/
theorem applyGroups_dated (hcal : cal.Lawful) (policy : RetentionPolicy)
    (groups : List (List Candidate)) :
    ∃ r, applyGroups cal.unbounded policy groups = some r ∧
      PanicsUnless (applyGroups cal policy groups) r
        (∀ cs ∈ groups, ¬WithinOverflows policy cs) := by
  induction groups with
  | nil => exact ⟨_, rfl, (PanicsUnless.pure _).congr (by simp)⟩
  | cons cs groups ih =>
    obtain ⟨out, hout, hspec⟩ := applyPolicy_dated hcal policy cs
    obtain ⟨r, hr, hrest⟩ := ih
    refine ⟨_, by rw [applyGroups, hout, hr]; rfl, ?_⟩
    rw [applyGroups]
    exact (hspec.bind fun _ => hrest.map _).congr (by simp)

theorem not_withinOverflows_of_isEmpty (h : policy.isEmpty = true) :
    ¬WithinOverflows policy cs := by
  rintro ⟨d, hd, -⟩
  have hempty : policy = {} := of_decide_eq_true h
  rw [hempty] at hd
  cases hd

theorem forgetPlan_dated (hcal : cal.Lawful) {opts : ForgetOptions} {all : List SnapshotInfo}
    (htime : ∀ s ∈ all, -2 ^ 63 ≤ s.snapshot.timeNs ∧ s.snapshot.timeNs < 2 ^ 63) :
    ∃ r, Repository.forgetPlan cal.unbounded opts all = some r ∧
      PanicsUnless (Repository.forgetPlan cal opts all) r
        ((∀ key ∈ opts.snapshots, ∃ s ∈ all, s.key = key) → ∀ s ∈ all, s.key ∉ opts.snapshots →
          ¬WithinOverflows opts.policy (groupCandidates all opts.snapshots s.group)) := by
  by_cases hnamed : ∀ key ∈ opts.snapshots, ∃ s ∈ all, s.key = key
  · cases hempty : opts.policy.isEmpty with
    | true =>
      have hfind : opts.snapshots.find? (fun key => ∀ s ∈ all, s.key ≠ key) = none := by
        rw [List.find?_eq_none]
        intro key hkey
        obtain ⟨s, hs, hsk⟩ := hnamed key hkey
        simpa using ⟨s, hs, hsk⟩
      unfold Repository.forgetPlan
      rw [hfind, hempty]
      refine ⟨_, rfl, (PanicsUnless.pure _).congr (iff_of_true trivial fun _ _ _ _ => ?_)⟩
      exact not_withinOverflows_of_isEmpty hempty
    | false =>
      obtain ⟨r, hr, hspec⟩ := applyGroups_dated hcal opts.policy (groupsOf
        ((all.filter fun s => s.key ∉ opts.named).map fun s => (s.group, s.candidate)))
      rw [Repository.forgetPlan_eq hempty hnamed htime,
        Repository.forgetPlan_eq hempty hnamed htime, hr]
      refine ⟨_, rfl, ?_⟩
      rw [Option.map_eq_bind]
      refine (hspec.map _).congr ?_
      constructor
      · exact fun h _ s hs hun => h _ (Repository.mem_groupsOf_named.2 ⟨s, hs, hun, rfl⟩)
      · intro h cs hcs
        obtain ⟨s, hs, hun, rfl⟩ := Repository.mem_groupsOf_named.1 hcs
        exact h hnamed s hs hun
  · -- a named snapshot that does not exist is an error before any group is judged
    cases hfind : opts.snapshots.find? (fun key => ∀ s ∈ all, s.key ≠ key) with
    | none =>
      refine absurd (fun key hkey => ?_) hnamed
      simpa using List.find?_eq_none.1 hfind key hkey
    | some key =>
      unfold Repository.forgetPlan
      rw [hfind]
      exact ⟨_, rfl, (PanicsUnless.pure _).congr (iff_of_true trivial fun h => absurd h hnamed)⟩

/-- **Forget.** It is done, or refused, where no group overflows. -/
theorem forget_dated (hcal : cal.Lawful) (repo : Repository) (opts : ForgetOptions)
    (htime : ∀ all, repo.listSnapshots = .ok all →
      ∀ s ∈ all, -2 ^ 63 ≤ s.snapshot.timeNs ∧ s.snapshot.timeNs < 2 ^ 63) :
    ∃ r, repo.forget cal.unbounded opts = some r ∧
      PanicsUnless (repo.forget cal opts) r
        (opts.policy.validate = .ok () → ∀ all, repo.listSnapshots = .ok all →
          (∀ key ∈ opts.snapshots, ∃ s ∈ all, s.key = key) → ∀ s ∈ all, s.key ∉ opts.snapshots →
            ¬WithinOverflows opts.policy (groupCandidates all opts.snapshots s.group)) := by
  unfold Repository.forget
  by_cases husage : opts.snapshots = [] ∧ opts.policy.isEmpty
  · simp only [husage]
    refine ⟨_, rfl, (PanicsUnless.pure _).congr (iff_of_true trivial ?_)⟩
    exact fun _ _ _ _ _ _ _ => not_withinOverflows_of_isEmpty husage.2
  simp only [husage, if_false]
  cases hvalid : opts.policy.validate with
  | error e => exact ⟨_, rfl, (PanicsUnless.pure _).congr (by simp)⟩
  | ok u =>
    cases hlist : repo.listSnapshots with
    | error e => exact ⟨_, rfl, (PanicsUnless.pure _).congr (by simp)⟩
    | ok all =>
      obtain ⟨r, hr, hspec⟩ := @forgetPlan_dated cal hcal opts all (htime all hlist)
      have hiff : ((∀ key ∈ opts.snapshots, ∃ s ∈ all, s.key = key) → ∀ s ∈ all,
        s.key ∉ opts.snapshots →
            ¬WithinOverflows opts.policy (groupCandidates all opts.snapshots s.group)) ∧ True ↔
          (Except.ok (ε := CoreError) u = .ok () → ∀ all',
            Except.ok (ε := CoreError) all = .ok all' →
            (∀ key ∈ opts.snapshots, ∃ s ∈ all', s.key = key) → ∀ s ∈ all', s.key ∉ opts.snapshots →
              ¬WithinOverflows opts.policy (groupCandidates all' opts.snapshots s.group)) := by
        rw [and_true]
        exact ⟨fun h _ all' heq => by cases heq; exact h, fun h => h rfl all rfl⟩
      dsimp only
      rw [hr]
      cases r with
      | error e =>
        refine ⟨_, rfl, PanicsUnless.congr ?_ hiff⟩
        exact hspec.bind fun _ => .pure _
      | ok summary =>
        refine ⟨_, rfl, PanicsUnless.congr ?_ hiff⟩
        exact hspec.bind fun _ => .pure _

end ForgetSpec

/-! ### When the dates are in range -/

/-- **Dates.** A prune, a commit and a forget do what they do with an arithmetic that has no bounds,
or refuse, exactly where the dates that they compute from these times and durations are in range. -/
theorem dates_in_range_iff {cal : Calendar} (hcal : cal.Lawful) :
    (∀ (repo : TimedRepository) (sorter : SortedTable.UnstableSort TableRecord.sortKey)
      (opts : PruneOptions),
      (repo.prunePlanDated cal.toDateOps sorter opts).run = some (repo.prunePlan sorter opts) ↔
        ∀ needed, repo.Decides sorter opts needed →
          repo.DatesFit opts (repo.reachability (repo.pruneIndex sorter).locator) needed) ∧
    (∀ (p : PreparedBackup) (repo : Repository) (now : Time), 0 ≤ p.opts.gcGrace →
      p.started ≤ maxDateTime →
      (p.commitAtDated cal.toDateOps repo now =
          some (if 2 ^ 63 ≤ p.opts.gcGrace / 10 ^ 9
            then (.error (.usage "gc_grace is too large"), repo)
            else p.commitAt repo now) ↔
        (p.opts.gcGrace / 10 ^ 9 < 2 ^ 63 →
          now - p.started + min graceSafetyMargin (p.opts.gcGrace / 2) < p.opts.gcGrace →
            p.DatesFit repo now))) ∧
    ∀ (repo : Repository) (opts : ForgetOptions), (∀ all, repo.listSnapshots = .ok all →
      ∀ s ∈ all, -2 ^ 63 ≤ s.snapshot.timeNs ∧ s.snapshot.timeNs < 2 ^ 63) →
      ∃ r, repo.forget cal.unbounded opts = some r ∧ (repo.forget cal opts = some r ↔
        (opts.policy.validate = .ok () → ∀ all, repo.listSnapshots = .ok all →
          (∀ key ∈ opts.snapshots, ∃ s ∈ all, s.key = key) → ∀ s ∈ all, s.key ∉ opts.snapshots →
            ¬WithinOverflows opts.policy (groupCandidates all opts.snapshots s.group))) := by
  refine ⟨fun repo sorter opts => ?_, fun p repo now hgrace hstarted => ?_,
    fun repo opts htime => ?_⟩
  · exact (TimedRepository.prunePlanDated_spec hcal.toLawful).eq_some_iff
  · exact (PreparedBackup.commitAtDated_spec hcal.toLawful hgrace hstarted).eq_some_iff
  · obtain ⟨r, hr, hspec⟩ := forget_dated hcal repo opts htime
    exact ⟨r, hr, hspec.eq_some_iff⟩

/-- A tree that no snapshot reaches, and its pack. -/
def unreachedTree : TimedRepository :=
  let repo := TimedRepository.sampleRepository [.new [⟨7, 20, [⟨3, 8, 5, 5⟩]⟩]]
  { repo with store.snapshots := ∅ }

theorem dates_in_range_unreachedTree :
    (unreachedTree.prunePlanDated firstHour.toDateOps
      (.stable _) TimedRepository.sampleOptions).run =
      some (unreachedTree.prunePlan (.stable _) TimedRepository.sampleOptions) := by
  refine ((dates_in_range_iff lawful_firstHour).1 _ _ _).2 fun needed _ => ⟨?_, ?_, ?_⟩
  · intro t _
    refine ⟨by decide, fun ht => ?_⟩
    have hnow : (9 : ℤ) ≤ t := ht
    change minDateTime ≤ t - ((0 : ℕ) : ℤ)
    unfold minDateTime
    omega
  · exact fun m hm => nomatch hm
  · intro kind id _ _ _
    change (0 : ℤ) + ((1 : ℕ) : ℤ) ≤ maxDateTime
    decide

/-- **A grace of 3000000 days**: the end of the grace of an object is past the last date. -/
theorem not_dates_in_range :
    ¬∀ cal : Calendar, cal.Lawful → ∀ s d, parseDuration s = .ok d →
      (∀ (repo : TimedRepository) sorter (opts : PruneOptions), opts.grace = d →
        (repo.prunePlanDated cal.toDateOps sorter opts).run = some (repo.prunePlan sorter opts)) ∧
      (∀ (p : PreparedBackup) (repo : Repository) now,
        p.opts.gcGrace = d → p.started ≤ maxDateTime →
        ∃ r, p.commitAtDated cal.toDateOps repo now = some r) ∧
      ∀ (repo : Repository) (opts : ForgetOptions), opts.policy.keepWithin = some d →
        ∃ r, repo.forget cal opts = some r := by
  intro h
  have hparse : parseDuration ['3', '0', '0', '0', '0', '0', '0', 'd'] =
      .ok (3000000 * 86400 * 10 ^ 9) := by decide +kernel
  have hplan := (h firstHour lawful_firstHour _ _ hparse).1 unreachedTree (.stable _)
    { TimedRepository.sampleOptions with grace := 3000000 * 86400 * 10 ^ 9 } rfl
  have hnone : (unreachedTree.prunePlanDated firstHour.toDateOps (.stable _)
      { TimedRepository.sampleOptions with grace := 3000000 * 86400 * 10 ^ 9 }).run.isSome =
        false := by
    decide +kernel
  rw [hplan] at hnone
  cases hnone

end Kist
