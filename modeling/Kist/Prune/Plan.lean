import Kist.Lib.Checked
import Kist.Prune.Canonical
import Kist.Reach

/-!
# The plan of a prune

`kist-core::prune`, `prune_plan`: from the readable index blobs, the walk over all references and
the listings of the storage it decides what to mark, what to delete, which marks to remove and which
packs to pack anew. It writes nothing.

* `walkReferences_exact`: the walk finds exactly what is reachable, and there is no plan where it
  has met an error.
-/

namespace Kist

open Checked (bind_eq_ok)

/-- `Kind`. -/
inductive Kind
  | pack
  | tree
  | index
  deriving DecidableEq, Repr

/-- The place of a kind in the order of the declaration. -/
def Kind.rank : Kind → ℕ
  | .pack => 0
  | .tree => 1
  | .index => 2

/-- A repository with what a prune reads of it besides the contents of the objects: the time at
which the backend last wrote each object, and the packs for which there is a parity sidecar. -/
structure TimedRepository extends Repository where
  modified : Kind → ObjectId → Time
  sidecars : List ObjectId

/-- `PruneOptions`, with the durations in nanoseconds. -/
structure PruneOptions where
  grace : ℕ
  inactiveAfter : ℕ
  clockSkew : ℕ
  repackBelowPercent : ℕ
  dryRun : Bool
  now : Time

/-- `to_time_duration`: the seconds of a duration must fit into 63 bits. What it returns is the
duration itself. -/
def checkDuration (d : ℕ) (what : String) : Except CoreError Unit :=
  if d / 10 ^ 9 < 2 ^ 63 then .ok () else .error (.usage s!"{what} is too large")

/-- `PruneReport`, the numbers of objects. -/
structure PruneReport where
  snapshots : ℕ := 0
  liveTrees : ℕ := 0
  livePacks : ℕ := 0
  marked : ℕ := 0
  revived : ℕ := 0
  staleMarks : ℕ := 0
  deleted : ℕ := 0
  blocked : ℕ := 0
  waiting : ℕ := 0
  repackedPacks : ℕ := 0
  newPacks : ℕ := 0
  skipped : List ObjectKey := []
  deriving DecidableEq, Repr

/-- `Target`. -/
structure PruneTarget where
  kind : Kind
  id : ObjectId
  modified : Time
  deriving DecidableEq, Repr

/-- `PrunePlan`. -/
structure PrunePlan where
  dryRun : Bool
  report : PruneReport
  indexed : Dict ObjectId IndexPack
  phantoms : Finset ObjectId
  markedPacks : Finset ObjectId
  allBlobIds : List ObjectId
  effectiveBlobCount : ℕ
  idx : PruneIndex
  neededPacks : Finset ObjectId
  toDelete : List (PruneTarget × Time)
  marksToRemove : List ObjectId
  repack : List ObjectId
  toMark : List PruneTarget
  packTargetSize : ℕ

/-- `saturating_add` on 64-bit numbers. -/
def saturatingAdd (a b : ℕ) : ℕ := min (a + b) (2 ^ 64 - 1)

/-- `saturating_mul` on 64-bit numbers. -/
def saturatingMul (a b : ℕ) : ℕ := min (a * b) (2 ^ 64 - 1)

/-- `indexed`: the packs of the effective blobs, each as the first blob that lists it has it. -/
def indexPacks (packs : List IndexPack) : Dict ObjectId IndexPack :=
  packs.foldl (fun d p => if (d.lookup p.pack).isSome then d else d.insert p.pack p) ∅

/-- `latest_by_client`: the time of the latest snapshot of each client. -/
def latestByClient (snapshots : List (SnapshotKey × Snapshot)) : Dict ClientId Time :=
  snapshots.foldl (fun d s =>
    d.insert s.2.clientId (max ((d.lookup s.2.clientId).getD s.2.timeNs) s.2.timeNs)) ∅

/-- `min_active_latest`: the earliest of the latest snapshots of the active clients, moved forward
by the tolerance for their clocks. -/
def minActiveLatest (snapshots : List (SnapshotKey × Snapshot)) (now inactiveAfter skew : Time) :
    Option Time :=
  (((latestByClient snapshots).entries.map fun b => b.2).filterMap fun t =>
    if t ≥ now - inactiveAfter then some (t - skew) else none).min?

/-- The bytes of all chunks of a pack. -/
def packTotal (p : IndexPack) : ℕ := p.entries.foldl (fun total e => saturatingAdd total e.length) 0

/-- The order in which targets are listed. -/
def sortTargets (targets : List PruneTarget) : List PruneTarget :=
  targets.insertionSort fun a b => toLex (a.kind.rank, a.id) ≤ toLex (b.kind.rank, b.id)

/-- What becomes of a mark. -/
inductive MarkVerdict
  | stale
  | revived
  | waiting
  | blocked
  | delete (target : PruneTarget)
  deriving DecidableEq, Repr

namespace TimedRepository

variable (repo : TimedRepository)

/-- The names that `list_ids` finds for a kind. -/
def listIds : Kind → List ObjectId
  | .pack => repo.store.packs.keys
  | .tree => repo.store.trees.keys
  | .index => repo.store.indexes.keys

/-- An entry of `list_ids`, or what `head` tells of an object. -/
def info (kind : Kind) (id : ObjectId) : Option PruneTarget :=
  if id ∈ repo.listIds kind then some ⟨kind, id, repo.modified kind id⟩ else none

/-- `load_index_blobs`, the blobs that cannot be read. -/
def indexErrors : List CoreError :=
  repo.store.indexes.keys.filterMap fun id =>
    match repo.readIndexBlob id with
    | .ok _ => none
    | .error e => some e

/-- `load_index_blobs`, the blobs that can be read. -/
def indexBlobs : List (ObjectId × IndexBlob) :=
  repo.store.indexes.keys.filterMap fun id =>
    match repo.readIndexBlob id with
    | .ok blob => some (id, blob)
    | .error _ => none

/-- The index of a prune, as `prune_plan` builds it from the effective blobs. -/
def pruneIndex (sorter : SortedTable.UnstableSort TableRecord.sortKey) : PruneIndex :=
  .new sorter (PruneIndex.recordsOf (effectivePacks repo.indexBlobs))

/-- The packs that the index lists and the storage does not have. -/
def phantomPacks (indexed : Dict ObjectId IndexPack) : Finset ObjectId :=
  indexed.keys.toFinset.filter fun id => id ∉ repo.store.packs

/-- The verdict on the mark of an object, written at `time`. -/
def judge (isLive : Kind → ObjectId → Bool) (now grace : Time) (minLatest : Option Time)
    (id : ObjectId) (time : Time) : MarkVerdict :=
  match [Kind.pack, .tree, .index].findSome? fun kind => repo.info kind id with
  | none => .stale
  | some target =>
    if isLive target.kind id then .revived
    else if time + grace > now then .waiting
    else if minLatest.any fun m => time ≥ m then .blocked
    else .delete target

/-- The packs to pack anew: needed, without a mark, older than the grace period, and with too small
a part of their bytes live. -/
def repackCandidates (opts : PruneOptions) (grace : Time) (indexed : Dict ObjectId IndexPack)
    (needed : Finset ObjectId) (live : Dict ObjectId ℕ) : List ObjectId :=
  if opts.repackBelowPercent = 0 then []
  else
    (needed.filter fun id =>
      id ∉ repo.store.marks ∧
        ((repo.info .pack id).any fun t => t.modified + grace ≤ opts.now) ∧
        ((indexed.lookup id).any fun p => packTotal p > 0 ∧
          saturatingMul ((live.lookup id).getD 0) 100 <
            saturatingMul (packTotal p) opts.repackBelowPercent)).sort (· ≤ ·)

/-- The objects to mark: not live, without a mark and older than the grace period; and the packs to
pack anew. -/
def markCandidates (opts : PruneOptions) (grace : Time) (isLive : Kind → ObjectId → Bool)
    (repack : List ObjectId) : List PruneTarget :=
  let candidates := [Kind.pack, .tree, .index].flatMap fun kind =>
    (repo.listIds kind).filterMap (repo.info kind)
  sortTargets (candidates.filter (fun t =>
      !(isLive t.kind t.id || t.id ∈ repo.store.marks || t.modified + grace > opts.now)) ++
    repack.filterMap (repo.info .pack))

/-- `is_live`. -/
def isLive (needed liveTrees : Finset ObjectId) : Kind → ObjectId → Bool
  | .pack, id => id ∈ needed
  | .tree, id => id ∈ liveTrees
  | .index, id => id ∈ (effective repo.indexBlobs).map Prod.fst

/-- `prune_plan`, the decisions: what is left to do once it is known what is needed. -/
def decidePlan (opts : PruneOptions) (reach : Reachability) (indexed : Dict ObjectId IndexPack)
    (needed : Finset ObjectId) (live : Dict ObjectId ℕ) (idx : PruneIndex) : PrunePlan :=
  let isLive := repo.isLive needed reach.liveTrees
  let minLatest := minActiveLatest reach.snapshots opts.now opts.inactiveAfter opts.clockSkew
  let verdicts := repo.store.marks.entries.map fun m =>
    (m.1, m.2, repo.judge isLive opts.now opts.grace minLatest m.1 m.2)
  let deletions := verdicts.filterMap fun v => match v.2.2 with
    | .delete target => some (target, v.2.1)
    | _ => none
  let repack := repo.repackCandidates opts opts.grace indexed needed live
  let toMark := repo.markCandidates opts opts.grace isLive repack
  let blobs := repo.indexBlobs
  { dryRun := opts.dryRun
    report :=
      { snapshots := reach.snapshots.length
        liveTrees := reach.liveTrees.card
        livePacks := needed.card
        marked := toMark.length
        revived := verdicts.countP fun v => v.2.2 = .revived
        staleMarks := verdicts.countP fun v => v.2.2 = .stale
        deleted := if opts.dryRun then deletions.length else 0
        blocked := verdicts.countP fun v => v.2.2 = .blocked
        waiting := verdicts.countP fun v => v.2.2 = .waiting
        repackedPacks := repack.length }
    indexed
    phantoms := repo.phantomPacks indexed
    markedPacks := repo.store.marks.keys.toFinset.filter fun id => id ∈ indexed
    allBlobIds := (effective blobs).map Prod.fst ++
      (blobs.filter fun b => b.1 ∈ supersededBy blobs).map Prod.fst
    effectiveBlobCount := (effective blobs).length
    idx
    neededPacks := needed
    toDelete := deletions.insertionSort fun a b =>
      toLex (a.1.kind.rank, a.1.id) ≤ toLex (b.1.kind.rank, b.1.id)
    marksToRemove := verdicts.filterMap fun v =>
      if v.2.2 = .stale ∨ v.2.2 = .revived then some v.1 else none
    repack
    toMark
    packTargetSize := repo.config.packTargetSize }

/-- `prune_plan`. -/
def prunePlan (sorter : SortedTable.UnstableSort TableRecord.sortKey) (opts : PruneOptions) :
    Except CoreError PrunePlan := do
  checkDuration opts.grace "grace"
  checkDuration opts.inactiveAfter "inactive_after"
  -- a single unreadable index blob is enough to refuse
  if let e :: _ := repo.indexErrors then
    throw (.unsafe_ s!"{repo.indexErrors.length} index object(s) cannot be read ({reprStr e}); run `kist rebuild-index` first")
  let indexed := indexPacks (effectivePacks repo.indexBlobs)
  let idx := repo.pruneIndex sorter
  let reach := repo.reachability idx.locator
  -- so is a single reference that cannot be resolved
  if let e :: _ := reach.errors then
    throw (.unsafe_ s!"{reach.errors.length} reference(s) cannot be resolved ({reprStr e}); run `kist check` (and `kist rebuild-index` if packs are missing from the index) first")
  let (needed, live, idx) ← idx.markAndCanonicalize (fun id => id ∈ repo.store.marks.keys)
    (repo.phantomPacks indexed) reach.referencedChunks
  checkDuration opts.clockSkew "clock_skew"
  return repo.decidePlan opts reach indexed needed live idx

/-! ### What a plan decides -/

section Decide

variable {repo : TimedRepository} {kind : Kind} {id : ObjectId} {target : PruneTarget}

theorem info_eq_some : repo.info kind id = some target ↔
    id ∈ repo.listIds kind ∧ target = ⟨kind, id, repo.modified kind id⟩ := by
  rw [info]
  split_ifs with h
  · simp [h, eq_comm]
  · simp [h]

/-- A mark leads to a delete where its object is there and not live, the mark is older than the
grace period, and no active client is behind it. -/
theorem judge_eq_delete {isLive : Kind → ObjectId → Bool} {now grace time : Time}
    {minLatest : Option Time}
    (h : repo.judge isLive now grace minLatest id time = .delete target) :
    target.id = id ∧ repo.info target.kind id = some target ∧ isLive target.kind id = false ∧
      time + grace ≤ now ∧ ∀ m ∈ minLatest, time < m := by
  rw [judge] at h
  split at h
  · cases h
  · next t hfind =>
    split_ifs at h with hlive hwait hblocked
    obtain rfl := MarkVerdict.delete.inj h
    obtain ⟨kind, -, hinfo⟩ := List.exists_of_findSome?_eq_some hfind
    obtain ⟨-, he⟩ := info_eq_some.1 hinfo
    have hkind : t.kind = kind := by rw [he]
    refine ⟨by rw [he], by rw [hkind]; exact hinfo, by simpa using hlive, not_lt.1 hwait, ?_⟩
    intro m hm
    rw [Option.mem_def.1 hm] at hblocked
    simpa using hblocked

theorem lookup_indexPacks {packs : List IndexPack} :
    (indexPacks packs).lookup id = packs.find? fun p => p.pack = id := by
  have aux : ∀ (packs : List IndexPack) (d : Dict ObjectId IndexPack),
      (packs.foldl (fun d p => if (d.lookup p.pack).isSome then d else d.insert p.pack p) d).lookup
        id = (d.lookup id).or (packs.find? fun p => p.pack = id) := by
    intro packs
    induction packs with
    | nil => simp
    | cons p packs ih =>
      intro d
      rw [List.foldl_cons, ih, List.find?_cons]
      by_cases hp : p.pack = id
      · subst hp
        cases hd : d.lookup p.pack with
        | none => simp [AList.lookup_insert]
        | some q => simp [hd]
      · have hne : (if (d.lookup p.pack).isSome then d else d.insert p.pack p).lookup id =
            d.lookup id := by
          split_ifs
          · rfl
          · rw [Dict.lookup_insert', if_neg (Ne.symm hp)]
        simp [hne, hp]
  simpa [indexPacks] using aux packs ∅

/-- A target of the plan's deletes was judged. -/
theorem mem_toDelete {opts : PruneOptions} {reach : Reachability}
    {indexed : Dict ObjectId IndexPack} {needed : Finset ObjectId} {live : Dict ObjectId ℕ}
    {idx : PruneIndex} {time : Time}
    (h : (target, time) ∈ (repo.decidePlan opts reach indexed needed live idx).toDelete) :
    repo.store.marks.lookup target.id = some time ∧
      repo.judge (repo.isLive needed reach.liveTrees) opts.now opts.grace
        (minActiveLatest reach.snapshots opts.now opts.inactiveAfter opts.clockSkew)
          target.id time =
          .delete target := by
  simp only [decidePlan, List.mem_insertionSort, List.mem_filterMap, List.mem_map] at h
  obtain ⟨v, ⟨m, hm, rfl⟩, hv⟩ := h
  dsimp only at hv
  split at hv
  · next t hjudge =>
    cases hv
    obtain ⟨hid, -⟩ := judge_eq_delete hjudge
    rw [hid]
    exact ⟨AList.mem_lookup_iff.2 hm, hjudge⟩
  · cases hv

end Decide

/-! ### When there is a plan -/

section Spec

variable {repo : TimedRepository} {sorter : SortedTable.UnstableSort TableRecord.sortKey}
  {opts : PruneOptions} {plan : PrunePlan}

/-- What a plan has been made of. -/
structure Planned (repo : TimedRepository) (sorter : SortedTable.UnstableSort TableRecord.sortKey)
    (opts : PruneOptions) (live : Dict ObjectId ℕ) (plan : PrunePlan) : Prop where
  readable : repo.indexErrors = []
  resolved : (repo.reachability (repo.pruneIndex sorter).locator).errors = []
  chosen : (repo.pruneIndex sorter).markAndCanonicalize (fun id => id ∈ repo.store.marks.keys)
    (repo.phantomPacks plan.indexed)
    (repo.reachability (repo.pruneIndex sorter).locator).referencedChunks =
      .ok (plan.neededPacks, live, plan.idx)
  indexed : plan.indexed = indexPacks (effectivePacks repo.indexBlobs)
  decided : plan = repo.decidePlan opts (repo.reachability (repo.pruneIndex sorter).locator)
    plan.indexed plan.neededPacks live plan.idx

theorem planned_of_prunePlan (h : repo.prunePlan sorter opts = .ok plan) :
    ∃ live, Planned repo sorter opts live plan := by
  obtain ⟨-, -, h⟩ := bind_eq_ok.1 h
  obtain ⟨-, -, h⟩ := bind_eq_ok.1 h
  cases hread : repo.indexErrors with
  | cons e errors =>
    rw [hread] at h
    cases h
  | nil =>
    rw [hread] at h
    cases hwalk : (repo.reachability (repo.pruneIndex sorter).locator).errors with
    | cons e errors =>
      simp only [hwalk] at h
      cases h
    | nil =>
      simp only [hwalk] at h
      obtain ⟨⟨needed, live, idx⟩, hmark, h⟩ := bind_eq_ok.1 h
      obtain ⟨-, -, h⟩ := bind_eq_ok.1 h
      obtain rfl := Except.ok.inj h
      exact ⟨live, hread, hwalk, hmark, rfl, rfl⟩

end Spec

end TimedRepository

/-! ### The walk -/

/-- **Reachability.** The walk ends, whatever graph the trees form. Without errors it has found the
trees that the snapshots reach and the chunks that these reference, and the index has all of them;
and where it has met an error there is no plan. -/
theorem walkReferences_exact (repo : TimedRepository) (index : ChunkIndex) :
    ∃ reach, repo.walkReferences index = some reach ∧
      (reach.errors = [] →
        (∀ t, t ∈ reach.liveTrees ↔ repo.LiveTree t) ∧
        (∀ c, c ∈ reach.referencedChunks ↔
          ∃ t, repo.LiveTree t ∧ repo.TreeReferences index t c) ∧
        ∀ c ∈ reach.referencedChunks, index.contains c) ∧
      ∀ sorter, index = (repo.pruneIndex sorter).locator → reach.errors ≠ [] →
        ∀ opts, ∃ e, repo.prunePlan sorter opts = .error e := by
  have hwalk := Repository.walkReferences_eq repo.toRepository index
  refine ⟨_, hwalk, Repository.walkReferences_spec hwalk, ?_⟩
  rintro sorter rfl herr opts
  cases hplan : repo.prunePlan sorter opts with
  | error e => exact ⟨e, rfl⟩
  | ok plan =>
    obtain ⟨live, hp⟩ := TimedRepository.planned_of_prunePlan hplan
    exact absurd hp.resolved herr

end Kist
