import Kist.Index
import Kist.Lib.Reachable

/-!
# The local index cache

`kist-core::cache`: the index blobs of a repository merged into one table on the local disk, with
a manifest of the blobs that went into it. `load` takes the table as it is, merges the new blobs
into it, or rebuilds it from all the blobs of the repository. It renames the new table into place
first and the new manifest after it; a load that stops in between leaves the new table next to the
old manifest.

* `load_agrees`: along every history of loads in which no load merges a blob that a blob of the
  manifest supersedes, or goes on from a table with blobs that are gone, the cached index knows the
  chunks that the load without a cache knows, and every place it has is one that an effective blob
  lists;
* `not_load_agrees`: without that condition the second load of one and the same set of blobs can
  bring back the records of a superseded blob.
-/

namespace Kist

open SortedTable

/-- `MANIFEST_VERSION`. -/
def manifestVersion : ℕ := 1

/-- `Manifest`: the blobs merged into the table, and the packs with their sizes. -/
structure Manifest where
  version : ℕ
  blobs : List ObjectId
  packs : List (ObjectId × ℕ)

/-- `IndexCache`: the files of the cache directory, `none` where a file is missing or does not
decode. -/
structure IndexCache where
  manifest : Option Manifest
  table : Option DiskTable

/-- The files that `write` puts into the cache directory, the table first. `merges` tells whether
the records of the old table are in the new one. -/
structure CacheUpdate where
  table : DiskTable
  manifest : Manifest
  merges : Bool

/-- What a load comes to: the index, and the files that it has written, if it has. -/
structure CacheLoad where
  index : ChunkIndex
  update : Option CacheUpdate

/-- `Merged`: the result of one pass over blobs. -/
structure Merged where
  records : List TableRecord
  kept : List ObjectId
  packs : List (ObjectId × ℕ)

/-- `push_blob`, with the note that the blob was merged. -/
def Merged.push (m : Merged) (b : ObjectId × IndexBlob) : Merged where
  records := m.records ++
    b.2.packs.flatMap fun p => p.entries.map fun e => ⟨e.id, location p.pack e⟩
  kept := m.kept ++ [b.1]
  packs := m.packs ++ b.2.packs.map fun p => (p.pack, p.size)

/-- Fetch blobs one after the other; the first failure fails the whole. -/
def fetchAll (fetch : ObjectId → Option IndexBlob) :
    List ObjectId → Option (List (ObjectId × IndexBlob))
  | [] => some []
  | id :: ids => do
    let blob ← fetch id
    let blobs ← fetchAll fetch ids
    return (id, blob) :: blobs

/-- `packs.sort(); packs.dedup()`. -/
def sortPacks (packs : List (ObjectId × ℕ)) : List (ObjectId × ℕ) :=
  sortDedup toLex packs

namespace IndexCache

/-- `IndexCache::read_manifest`. -/
def readManifest (dir : IndexCache) : Option Manifest :=
  dir.manifest.filter fun m => m.version = manifestVersion

/-- `IndexCache::write`: the table of the new records, merged with the old table if there is one,
and the manifest. -/
def write (newRecords : List TableRecord) (h : Sorted TableRecord.id newRecords)
    (blobs : List ObjectId) (packs : List (ObjectId × ℕ)) (old : Option DiskTable) : CacheLoad :=
  let table : DiskTable :=
    match old with
    | some t => ⟨mergeNew TableRecord.id t.records newRecords, sorted_mergeNew _ t.sorted h⟩
    | none => ⟨newRecords, h⟩
  ⟨.withBase table (Dict.collect packs),
    some ⟨table, ⟨manifestVersion, blobs, packs⟩, old.isSome⟩⟩

/-- `IndexCache::optimistic_pass`: `none` inside when a blob supersedes anything. -/
def optimisticPass (fetch : ObjectId → Option IndexBlob) :
    List ObjectId → Merged → Option (Option Merged)
  | [], m => some (some m)
  | id :: live, m => do
    let blob ← fetch id
    if blob.supersedes ≠ [] then return none
    optimisticPass fetch live (m.push (id, blob))

/-- `IndexCache::two_pass`. -/
def twoPass (fetch : ObjectId → Option IndexBlob) (live : List ObjectId) : Option Merged := do
  let blobs ← fetchAll fetch live
  return (effective blobs).foldl Merged.push ⟨[], [], []⟩

/-- `IndexCache::rebuild`. -/
def rebuild (live : List ObjectId) (fetch : ObjectId → Option IndexBlob) : Option CacheLoad := do
  let m ← match ← optimisticPass fetch live ⟨[], [], []⟩ with
    | some merged => some merged
    | none => twoPass fetch live
  return write (sortDedup TableRecord.id m.records) (sorted_sortDedup _ _) m.kept
    (sortPacks m.packs) none

/-- `IndexCache::load`. `fetch` reads a blob, `live` are the blobs the repository has. -/
def load (dir : IndexCache) (live : List ObjectId) (fetch : ObjectId → Option IndexBlob) :
    Option CacheLoad :=
  match dir.readManifest, dir.table with
  | some m, some t =>
    if ∀ b ∈ m.blobs, b ∈ live then do
      let newIds := live.filter (· ∉ m.blobs)
      if newIds = [] then return ⟨.withBase t (Dict.collect m.packs), none⟩
      let newBlobs ← fetchAll fetch newIds
      let superseded := supersededBy newBlobs
      if ∃ k ∈ m.blobs, k ∈ superseded then rebuild live fetch
      else
        let merged := (newBlobs.filter (·.1 ∉ superseded)).foldl Merged.push ⟨[], m.blobs, m.packs⟩
        return write (sortDedup TableRecord.id merged.records) (sorted_sortDedup _ _) merged.kept
          (sortPacks merged.packs) (some t)
    else rebuild live fetch
  | _, _ => rebuild live fetch

/-- An empty cache directory. -/
def empty : IndexCache := ⟨none, none⟩

/-- The first rename of `write`: the new table is in place. -/
def putTable (dir : IndexCache) (update : CacheUpdate) : IndexCache :=
  { dir with table := some update.table }

/-- The second rename of `write`: the new manifest is in place, too. -/
def putManifest (dir : IndexCache) (update : CacheUpdate) : IndexCache :=
  { dir with manifest := some update.manifest }

end IndexCache

/-! ### What the passes collect -/

/-- The blobs of a live set with their contents. -/
def blobsOf (content : ObjectId → IndexBlob) (live : List ObjectId) :
    List (ObjectId × IndexBlob) :=
  live.map fun id => (id, content id)

/-- A successful read of a blob yields its content. -/
def Reads (content : ObjectId → IndexBlob) (fetch : ObjectId → Option IndexBlob) : Prop :=
  ∀ id b, fetch id = some b → b = content id

/-- The records of a list of blobs are the places that the blobs list. -/
def RecordsOf (content : ObjectId → IndexBlob) (blobs : List ObjectId)
    (records : List TableRecord) : Prop :=
  ∀ r, r ∈ records ↔ ∃ id ∈ blobs, Lists (content id).packs r.id r.location

/-- A table covers a list of blobs: each record is listed by one of them, and each chunk that one
of them lists has a record. -/
structure Covers (content : ObjectId → IndexBlob) (table : DiskTable) (blobs : List ObjectId) :
    Prop where
  listed : ∀ r ∈ table.records, ∃ id ∈ blobs, Lists (content id).packs r.id r.location
  complete : ∀ id ∈ blobs, ∀ c loc, Lists (content id).packs c loc →
    ∃ r ∈ table.records, r.id = c

section Passes

variable {content : ObjectId → IndexBlob} {fetch : ObjectId → Option IndexBlob}

theorem mem_supersededBy_blobsOf {live : List ObjectId} {id : ObjectId} :
    id ∈ supersededBy (blobsOf content live) ↔ ∃ b ∈ live, id ∈ (content b).supersedes := by
  simp [supersededBy, blobsOf]

theorem fetchAll_eq (hf : Reads content fetch) : ∀ {ids : List ObjectId}
    {bs : List (ObjectId × IndexBlob)}, fetchAll fetch ids = some bs → bs = blobsOf content ids
  | [], bs, h => by cases h; rfl
  | id :: ids, bs, h => by
    simp only [fetchAll, bind, Option.bind_eq_some_iff, pure, Option.some.injEq] at h
    obtain ⟨b, hb, bs', hbs, rfl⟩ := h
    rw [hf id b hb, fetchAll_eq hf hbs]
    rfl

theorem foldl_push (bs : List (ObjectId × IndexBlob)) : ∀ m : Merged,
    (bs.foldl Merged.push m).kept = m.kept ++ bs.map Prod.fst ∧
    ∀ r, r ∈ (bs.foldl Merged.push m).records ↔
      r ∈ m.records ∨ ∃ b ∈ bs, Lists b.2.packs r.id r.location := by
  induction bs with
  | nil => intro m; simp
  | cons b bs ih =>
    intro m
    obtain ⟨hk, hr⟩ := ih (m.push b)
    refine ⟨by rw [List.foldl_cons, hk]; simp [Merged.push], fun r => ?_⟩
    have hpush : r ∈ (m.push b).records ↔ r ∈ m.records ∨ Lists b.2.packs r.id r.location := by
      obtain ⟨c, loc⟩ := r
      simp only [Merged.push, List.mem_append, List.mem_flatMap, List.mem_map, Lists,
        TableRecord.mk.injEq]
      simp only [eq_comm]
    rw [List.foldl_cons, hr, hpush]
    simp only [List.mem_cons, exists_eq_or_imp, or_assoc]

/-- The optimistic pass succeeds only where nothing supersedes anything. -/
theorem optimisticPass_eq (hf : Reads content fetch) : ∀ {live : List ObjectId} {m m' : Merged},
    IndexCache.optimisticPass fetch live m = some (some m') →
      (∀ id ∈ live, (content id).supersedes = []) ∧
        m' = (blobsOf content live).foldl Merged.push m
  | [], m, m', h => by
    cases h
    exact ⟨by simp, rfl⟩
  | id :: live, m, m', h => by
    simp only [IndexCache.optimisticPass, bind, Option.bind_eq_some_iff] at h
    obtain ⟨b, hb, h⟩ := h
    obtain rfl := hf id b hb
    split_ifs at h with hs
    · cases h
    · obtain ⟨hall, hm⟩ := optimisticPass_eq hf h
      rw [not_not] at hs
      exact ⟨by simpa [hs] using hall, hm⟩

/-- The effective blobs of a live set. -/
def effectiveIds (content : ObjectId → IndexBlob) (live : List ObjectId) : List ObjectId :=
  (effective (blobsOf content live)).map Prod.fst

theorem mem_effective_blobsOf {live : List ObjectId} {b : ObjectId × IndexBlob} :
    b ∈ effective (blobsOf content live) ↔
      (b.1 ∈ live ∧ ∀ b' ∈ live, b.1 ∉ (content b').supersedes) ∧ b.2 = content b.1 := by
  obtain ⟨id, blob⟩ := b
  rw [effective, List.mem_filter]
  simp only [decide_eq_true_eq, mem_supersededBy_blobsOf, not_exists, not_and]
  simp only [blobsOf, List.mem_map, Prod.mk.injEq]
  constructor
  · rintro ⟨⟨_, hid, rfl, rfl⟩, hs⟩
    exact ⟨⟨hid, hs⟩, rfl⟩
  · rintro ⟨⟨hid, hs⟩, rfl⟩
    exact ⟨⟨id, hid, rfl, rfl⟩, hs⟩

theorem mem_effectiveIds {live : List ObjectId} {id : ObjectId} :
    id ∈ effectiveIds content live ↔ id ∈ live ∧ ∀ b ∈ live, id ∉ (content b).supersedes := by
  simp only [effectiveIds, List.mem_map, mem_effective_blobsOf]
  constructor
  · rintro ⟨b, ⟨h, -⟩, rfl⟩
    exact h
  · exact fun h => ⟨(id, content id), ⟨h, rfl⟩, rfl⟩

theorem lists_effectivePacks {live : List ObjectId} {c : ChunkId} {loc : ChunkLocation} :
    Lists (effectivePacks (blobsOf content live)) c loc ↔
      ∃ id ∈ effectiveIds content live, Lists (content id).packs c loc := by
  simp only [Lists, effectivePacks, List.mem_flatMap, mem_effective_blobsOf, mem_effectiveIds]
  constructor
  · rintro ⟨p, ⟨b, ⟨hb, he⟩, hp⟩, h⟩
    exact ⟨b.1, hb, p, he ▸ hp, h⟩
  · rintro ⟨id, hid, p, hp, h⟩
    exact ⟨p, ⟨(id, content id), ⟨hid, rfl⟩, hp⟩, h⟩

/-- The records that the effective blobs of a list of ids are merged to. -/
theorem recordsOf_foldl_push (content : ObjectId → IndexBlob) (ids kept : List ObjectId)
    (packs : List (ObjectId × ℕ)) :
    RecordsOf content (effectiveIds content ids)
      ((effective (blobsOf content ids)).foldl Merged.push ⟨[], kept, packs⟩).records := by
  intro rec
  rw [(foldl_push _ _).2]
  simp only [List.not_mem_nil, false_or, mem_effective_blobsOf, mem_effectiveIds]
  constructor
  · rintro ⟨b, ⟨hb, he⟩, hl⟩
    exact ⟨b.1, hb, he ▸ hl⟩
  · rintro ⟨id, hb, hl⟩
    exact ⟨(id, content id), ⟨hb, rfl⟩, hl⟩

/-- A table built from the records of some blobs covers them. -/
theorem covers_sortDedup {blobs : List ObjectId} {records : List TableRecord}
    (h : RecordsOf content blobs records) :
    Covers content ⟨sortDedup TableRecord.id records, sorted_sortDedup _ _⟩ blobs where
  listed r hr := (h r).1 (mem_of_mem_sortDedup _ hr)
  complete id hid c loc hl := exists_mem_sortDedup TableRecord.id ((h ⟨c, loc⟩).2 ⟨id, hid, hl⟩)

/-- Merging the records of new blobs into a table that covers the old ones. -/
theorem Covers.merge {t : DiskTable} {old new : List ObjectId} {records : List TableRecord}
    (ht : Covers content t old) (h : RecordsOf content new records) :
    Covers content ⟨mergeNew TableRecord.id t.records (sortDedup TableRecord.id records),
      sorted_mergeNew _ t.sorted (sorted_sortDedup _ _)⟩ (old ++ new) where
  listed r hr := by
    rcases (mem_mergeNew _ t.sorted (sorted_sortDedup _ _)).1 hr with hn | ⟨ho, -⟩
    · obtain ⟨id, hid, hl⟩ := (covers_sortDedup h).listed r hn
      exact ⟨id, List.mem_append_right _ hid, hl⟩
    · obtain ⟨id, hid, hl⟩ := ht.listed r ho
      exact ⟨id, List.mem_append_left _ hid, hl⟩
  complete id hid c loc hl := by
    have hm : ∀ r : TableRecord, r ∈ t.records ∨ r ∈ sortDedup TableRecord.id records →
        ∃ r' ∈ mergeNew TableRecord.id t.records (sortDedup TableRecord.id records),
          r'.id = r.id :=
      fun r => exists_mem_mergeNew TableRecord.id t.sorted (sorted_sortDedup _ _)
    rcases List.mem_append.1 hid with hid | hid
    · obtain ⟨r, hr, rfl⟩ := ht.complete id hid c loc hl
      exact hm r (.inl hr)
    · obtain ⟨r, hr, rfl⟩ := (covers_sortDedup h).complete id hid c loc hl
      exact hm r (.inr hr)

end Passes

/-! ### The directory -/

/-- A cache directory, with the blobs whose records its table has. -/
structure CacheState where
  dir : IndexCache
  merged : List ObjectId

namespace CacheState

/-- An empty cache directory. -/
def empty : CacheState := ⟨.empty, []⟩

/-- The blobs of the manifest. -/
def known (s : CacheState) : List ObjectId := (s.dir.readManifest.map Manifest.blobs).getD []

/-- The load has renamed its table into place, and stops before it does so with its manifest. -/
def stopped (s : CacheState) (update : CacheUpdate) : CacheState where
  dir := s.dir.putTable update
  merged :=
    if update.merges then s.merged ++ update.manifest.blobs.filter (· ∉ s.known)
    else update.manifest.blobs

/-- The load has come to its end. -/
def loaded (s : CacheState) (update : CacheUpdate) : CacheState :=
  { s.stopped update with dir := (s.dir.putTable update).putManifest update }

end CacheState

/-- The invariant of the cache directory: the table covers the blobs that were merged into it, and
those of the manifest do not supersede each other. -/
structure CacheInv (content : ObjectId → IndexBlob) (s : CacheState) : Prop where
  covers : ∀ t, s.dir.table = some t → Covers content t s.merged
  apart : ∀ k ∈ s.known, ∀ k' ∈ s.known, k ∉ (content k').supersedes

/-- The load goes on from the files of the directory: all the blobs of the manifest are live, and
none is superseded by a live blob that is not in it. -/
structure GoesOn (content : ObjectId → IndexBlob) (s : CacheState) (live : List ObjectId) :
    Prop where
  stays : ∀ k ∈ s.known, k ∈ live
  kept : ∀ k ∈ s.known, ∀ n ∈ live, n ∉ s.known → k ∉ (content n).supersedes

/-- Nothing that is superseded or gone comes back: where a load goes on from the files, a live blob
outside the manifest that a blob of the manifest supersedes is also superseded by a live blob
outside it, and the blobs that are merged into the table are live, not superseded, and have those of
the manifest among them. -/
def Clean (content : ObjectId → IndexBlob) (s : CacheState) (live : List ObjectId) : Prop :=
  s.dir.readManifest.isSome → s.dir.table.isSome → GoesOn content s live →
    (∀ n ∈ live, n ∉ s.known → (∃ k ∈ s.known, n ∈ (content k).supersedes) →
      ∃ n' ∈ live, n' ∉ s.known ∧ n ∈ (content n').supersedes) ∧
    (∀ k ∈ s.known, k ∈ s.merged) ∧
    ∀ k ∈ s.merged, k ∈ live ∧ ∀ b ∈ live, k ∉ (content b).supersedes

/-- The cached index agrees with the load of the same live set without a cache. -/
structure Agrees (content : ObjectId → IndexBlob) (live : List ObjectId) (index : ChunkIndex) :
    Prop where
  same_chunks : ∀ c, (index.get c).isSome = ((loadIndex (blobsOf content live)).get c).isSome
  listed : ∀ c loc, index.get c = some loc → Lists (effectivePacks (blobsOf content live)) c loc

/-! ### Loading -/

section Load

variable {content : ObjectId → IndexBlob} {fetch : ObjectId → Option IndexBlob} {s : CacheState}
  {live : List ObjectId} {r : CacheLoad}

/-- What a load comes to: an index on a table that covers the effective blobs of the live set; and
if it has written this table, a manifest with the same blobs. -/
structure Loaded (content : ObjectId → IndexBlob) (live : List ObjectId) (s : CacheState)
    (r : CacheLoad) : Prop where
  onTable : ∃ t blobs, r.index.overlay = ∅ ∧ r.index.base = some t ∧ Covers content t blobs ∧
    ∀ id, id ∈ blobs ↔ id ∈ effectiveIds content live
  covers : ∀ update, r.update = some update → Covers content update.table (s.stopped update).merged
  manifest : ∀ update, r.update = some update → update.manifest.version = manifestVersion ∧
    ∀ id, id ∈ update.manifest.blobs ↔ id ∈ effectiveIds content live

theorem Loaded.agrees (h : Loaded content live s r) : Agrees content live r.index := by
  obtain ⟨t, blobs, ho, hb, hcov, hids⟩ := h.onTable
  have hget : ∀ c, r.index.get c = t.get c := fun c => by
    simp [ChunkIndex.get, ChunkIndex.baseGet, ho, hb]
  have hlisted : ∀ c loc, r.index.get c = some loc →
      Lists (effectivePacks (blobsOf content live)) c loc := fun c loc hg => by
    rw [hget, DiskTable.get_eq_some_iff] at hg
    obtain ⟨id, hid, hl⟩ := hcov.listed _ hg
    exact lists_effectivePacks.2 ⟨id, (hids id).1 hid, hl⟩
  refine ⟨fun c => ?_, hlisted⟩
  rw [loadIndex_eq_ranked, Bool.eq_iff_iff, isSome_get_loadIndexRanked]
  constructor
  · intro hs
    obtain ⟨loc, hg⟩ := Option.isSome_iff_exists.1 hs
    exact ⟨loc, hlisted c loc hg⟩
  · rintro ⟨loc, hl⟩
    obtain ⟨id, hid, hl⟩ := lists_effectivePacks.1 hl
    obtain ⟨rec, hr, rfl⟩ := hcov.complete id ((hids id).2 hid) c loc hl
    rw [hget, DiskTable.get_eq_some_iff.2 hr]
    rfl

/-- A load that stops between the renames leaves a table that covers what was merged into it. -/
theorem Loaded.inv_stopped (h : Loaded content live s r) (hinv : CacheInv content s)
    {update : CacheUpdate} (hupdate : r.update = some update) : CacheInv content
    (s.stopped update) where
  covers t ht := by
    cases ht
    exact h.covers update hupdate
  apart := hinv.apart

/-- A load that comes to its end leaves a manifest of effective blobs. -/
theorem Loaded.inv_loaded (h : Loaded content live s r) {update : CacheUpdate}
    (hupdate : r.update = some update) : CacheInv content (s.loaded update) where
  covers t ht := by
    cases ht
    exact h.covers update hupdate
  apart k hk k' hk' := by
    obtain ⟨hversion, hids⟩ := h.manifest update hupdate
    have hknown : (s.loaded update).known = update.manifest.blobs := by
      simp [CacheState.known, IndexCache.readManifest, CacheState.loaded, IndexCache.putManifest,
        Option.filter_some, hversion]
    rw [hknown] at hk hk'
    exact (mem_effectiveIds.1 ((hids k).1 hk)).2 k' (mem_effectiveIds.1 ((hids k').1 hk')).1

/-- A rebuild merges the effective blobs, whichever pass it takes. -/
theorem loaded_rebuild (s : CacheState) (hf : Reads content fetch)
    (h : IndexCache.rebuild live fetch = some r) : Loaded content live s r := by
  have hm : ∃ m : Merged, (effective (blobsOf content live)).foldl Merged.push ⟨[], [], []⟩ = m ∧
      some (IndexCache.write (sortDedup TableRecord.id m.records) (sorted_sortDedup _ _) m.kept
        (sortPacks m.packs) none) = some r := by
    simp only [IndexCache.rebuild, bind, Option.bind_eq_some_iff, pure] at h
    obtain ⟨om, hom, h⟩ := h
    cases om with
    | some merged =>
      obtain ⟨hall, hm⟩ := optimisticPass_eq hf hom
      refine ⟨merged, ?_, h⟩
      rw [hm, effective, List.filter_eq_self.2]
      intro b hb
      simp only [decide_eq_true_eq, mem_supersededBy_blobsOf, not_exists, not_and]
      intro b' hb'
      rw [hall b' hb']
      exact List.not_mem_nil
    | none =>
      obtain ⟨m, hpass, h⟩ := Option.bind_eq_some_iff.1 h
      simp only [IndexCache.twoPass, bind, Option.bind_eq_some_iff, pure, Option.some.injEq]
        at hpass
      obtain ⟨bs, hbs, hm⟩ := hpass
      exact ⟨m, by rw [← hm, fetchAll_eq hf hbs], h⟩
  obtain ⟨m, rfl, hw⟩ := hm
  cases hw
  have hkept := (foldl_push (effective (blobsOf content live)) ⟨[], [], []⟩).1
  have hcov := covers_sortDedup (recordsOf_foldl_push content live [] [])
  set m := (effective (blobsOf content live)).foldl Merged.push ⟨[], [], []⟩
  replace hkept : m.kept = effectiveIds content live := hkept
  refine ⟨⟨_, _, rfl, rfl, hcov, fun _ => Iff.rfl⟩, ?_, ?_⟩
  · rintro update ⟨⟩
    show Covers content _ m.kept
    rwa [hkept]
  · rintro update ⟨⟩
    exact ⟨rfl, fun id => by rw [← hkept]⟩

/-- The effective ones of the new blobs are the effective blobs that are not in the manifest, if a
new blob that the manifest supersedes is superseded by a new one, too. -/
theorem mem_effectiveIds_new {known : List ObjectId} {id : ObjectId}
    (hback : ∀ n ∈ live, n ∉ known → (∃ k ∈ known, n ∈ (content k).supersedes) →
      ∃ n' ∈ live, n' ∉ known ∧ n ∈ (content n').supersedes) :
    id ∈ effectiveIds content (live.filter (· ∉ known)) ↔
      id ∉ known ∧ id ∈ effectiveIds content live := by
  have hnew : ∀ n, n ∈ live.filter (· ∉ known) ↔ n ∈ live ∧ n ∉ known := fun n => by simp
  rw [mem_effectiveIds, mem_effectiveIds, hnew]
  constructor
  · rintro ⟨⟨hid, hnot⟩, hun⟩
    refine ⟨hnot, hid, fun b hb hs => ?_⟩
    by_cases hbm : b ∈ known
    · obtain ⟨n', hn', hn'm, hs'⟩ := hback id hid hnot ⟨b, hbm, hs⟩
      exact hun n' ((hnew n').2 ⟨hn', hn'm⟩) hs'
    · exact hun b ((hnew b).2 ⟨hb, hbm⟩) hs
  · rintro ⟨hnot, hid, hun⟩
    exact ⟨⟨hid, hnot⟩, fun b hb => hun b ((hnew b).1 hb).1⟩

/-- The new blobs that no new blob supersedes, merged into the table of the manifest's. -/
theorem loaded_merge {t : DiskTable} {known : List ObjectId} {packs : List (ObjectId × ℕ)}
    {merged : Merged} (hknown : s.known = known) (hcov : Covers content t s.merged)
    (hback : ∀ n ∈ live, n ∉ known → (∃ k ∈ known, n ∈ (content k).supersedes) →
      ∃ n' ∈ live, n' ∉ known ∧ n ∈ (content n').supersedes)
    (hmerged : ∀ k ∈ known, k ∈ s.merged)
    (hfresh : ∀ k ∈ s.merged, k ∈ live ∧ ∀ b ∈ live, k ∉ (content b).supersedes)
    (hm : (effective (blobsOf content (live.filter (· ∉ known)))).foldl Merged.push
      ⟨[], known, packs⟩ = merged) :
    Loaded content live s (IndexCache.write (sortDedup TableRecord.id merged.records)
      (sorted_sortDedup _ _) merged.kept (sortPacks merged.packs) (some t)) := by
  subst hknown
  have hkept : merged.kept = s.known ++ effectiveIds content (live.filter (· ∉ s.known)) := by
    rw [← hm]
    exact (foldl_push _ _).1
  have hcov' := hcov.merge (hm ▸ recordsOf_foldl_push content (live.filter (· ∉ s.known))
    s.known packs)
  have hnews := fun id => @mem_effectiveIds_new content live s.known id hback
  have heffective : ∀ id ∈ s.merged, id ∈ effectiveIds content live := fun id hid =>
    mem_effectiveIds.2 (hfresh id hid)
  -- what stands in the manifest or the table, and the new blobs, are the effective ones
  have hsplit : ∀ {known : List ObjectId}, (∀ id ∈ s.known, id ∈ known) →
      (∀ id ∈ known, id ∈ effectiveIds content live) → ∀ id,
        id ∈ known ++ effectiveIds content (live.filter (· ∉ s.known)) ↔
          id ∈ effectiveIds content live := by
    intro known hsub hsound id
    rw [List.mem_append, hnews]
    constructor
    · rintro (hid | ⟨-, hid⟩)
      · exact hsound id hid
      · exact hid
    · intro hid
      by_cases hidm : id ∈ s.known
      · exact .inl (hsub id hidm)
      · exact .inr ⟨hidm, hid⟩
  refine ⟨⟨_, _, rfl, rfl, hcov', hsplit hmerged heffective⟩, ?_, ?_⟩
  · rintro update ⟨⟩
    show Covers content _ (s.merged ++ merged.kept.filter (· ∉ s.known))
    have hfirst : s.known.filter (· ∉ s.known) = [] := by simp
    have hrest : (effectiveIds content (live.filter (· ∉ s.known))).filter (· ∉ s.known) =
        effectiveIds content (live.filter (· ∉ s.known)) :=
      List.filter_eq_self.2 fun id hid => decide_eq_true ((hnews id).1 hid).1
    rw [hkept, List.filter_append, hfirst, hrest, List.nil_append]
    exact hcov'
  · rintro update ⟨⟩
    refine ⟨rfl, fun id => ?_⟩
    show id ∈ merged.kept ↔ _
    rw [hkept]
    exact hsplit (fun _ h => h) (fun id hid => heffective id (hmerged id hid)) id

/-- A clean load yields the effective blobs, from the table and the manifest that it leaves. -/
theorem loaded_load (hinv : CacheInv content s) (hclean : Clean content s live)
    (hf : Reads content fetch) (h : s.dir.load live fetch = some r) : Loaded content live s r := by
  unfold IndexCache.load at h
  split at h
  · next m t hm ht =>
    have hknown : s.known = m.blobs := by rw [CacheState.known, hm]; rfl
    have hcov := hinv.covers t ht
    have hcleaned := hclean (by rw [hm]; rfl) (by rw [ht]; rfl)
    have hgoes : (∀ k ∈ m.blobs, k ∈ live) → (∀ k ∈ m.blobs, ∀ n ∈ live, n ∉ m.blobs →
        k ∉ (content n).supersedes) → GoesOn content s live := fun hstays hkept =>
      ⟨hknown.symm ▸ hstays, by rwa [hknown]⟩
    rw [hknown] at hcleaned
    split_ifs at h with hlive
    · dsimp only at h
      have hnew : ∀ n, n ∈ live.filter (· ∉ m.blobs) ↔ n ∈ live ∧ n ∉ m.blobs := fun n => by simp
      split_ifs at h with hnil
      · -- every live blob is in the manifest
        cases h
        have hsub : ∀ n ∈ live, n ∈ m.blobs := fun n hn => by
          by_contra hnot
          have := (hnew n).2 ⟨hn, hnot⟩
          rw [hnil] at this
          cases this
        obtain ⟨-, hmerged, hfresh⟩ := hcleaned
          (hgoes hlive fun k hk n hn hn' => absurd (hsub n hn) hn')
        refine ⟨⟨t, s.merged, rfl, rfl, hcov, fun id => ?_⟩, nofun, nofun⟩
        rw [mem_effectiveIds]
        exact ⟨fun hid => hfresh id hid, fun hid => hmerged id (hsub id hid.1)⟩
      · simp only [bind, Option.bind_eq_some_iff] at h
        obtain ⟨bs, hbs, h⟩ := h
        obtain rfl := fetchAll_eq hf hbs
        split_ifs at h with hsup
        · exact loaded_rebuild s hf h
        · cases h
          obtain ⟨hback, hmerged, hfresh⟩ := hcleaned (hgoes hlive fun k hk n hn hn' hkn =>
            hsup ⟨k, hk, mem_supersededBy_blobsOf.2 ⟨n, (hnew n).2 ⟨hn, hn'⟩, hkn⟩⟩)
          exact loaded_merge hknown hcov hback hmerged hfresh rfl
    · exact loaded_rebuild s hf h
  · exact loaded_rebuild s hf h

end Load

/-! ### Histories -/

/-- What happens to a cache directory: a load that comes to its end, one that stops between the two
renames, and the loss of one of the files. A load that stops before leaves the directory as it was.
`ok` says which loads are considered. -/
inductive CacheStep (content : ObjectId → IndexBlob) (ok : CacheState → List ObjectId → Prop) :
    CacheState → CacheState → Prop
  | load {s : CacheState} {live : List ObjectId} {fetch : ObjectId → Option IndexBlob}
      {index : ChunkIndex} {update : CacheUpdate} (hok : ok s live) (hf : Reads content fetch)
      (h : s.dir.load live fetch = some ⟨index, some update⟩) :
      CacheStep content ok s (s.loaded update)
  | stop {s : CacheState} {live : List ObjectId} {fetch : ObjectId → Option IndexBlob}
      {index : ChunkIndex} {update : CacheUpdate} (hok : ok s live) (hf : Reads content fetch)
      (h : s.dir.load live fetch = some ⟨index, some update⟩) :
      CacheStep content ok s (s.stopped update)
  | loseManifest (s : CacheState) :
      CacheStep content ok s { s with dir := { s.dir with manifest := none } }
  | loseTable (s : CacheState) :
      CacheStep content ok s { s with dir := { s.dir with table := none } }

/-- The cache directories that a history of clean loads leads to. -/
abbrev CleanHistory (content : ObjectId → IndexBlob) : CacheState → Prop :=
  Reachable (· = CacheState.empty) (CacheStep content (Clean content))

theorem CleanHistory.inv {content : ObjectId → IndexBlob} {s : CacheState}
    (h : CleanHistory content s) : CacheInv content s := by
  refine h.invariant ?_ ?_
  · rintro _ rfl
    exact ⟨nofun, nofun⟩
  · intro s s' hs hstep
    cases hstep with
    | load hok hf hl => exact (loaded_load hs hok hf hl).inv_loaded rfl
    | stop hok hf hl => exact (loaded_load hs hok hf hl).inv_stopped hs rfl
    | loseManifest => exact ⟨hs.covers, nofun⟩
    | loseTable => exact ⟨nofun, hs.apart⟩

/-- Where the last load that has put a table has put its manifest, too, the table is no
hindrance. -/
theorem clean_of_settled {content : ObjectId → IndexBlob} {s : CacheState} {live : List ObjectId}
    (hinv : CacheInv content s) (hsettled : ∀ k, k ∈ s.merged ↔ k ∈ s.known)
    (h : GoesOn content s live → ∀ n ∈ live, n ∉ s.known →
      (∃ k ∈ s.known, n ∈ (content k).supersedes) →
        ∃ n' ∈ live, n' ∉ s.known ∧ n ∈ (content n').supersedes) : Clean content s live := by
  intro _ _ hgoes
  refine ⟨h hgoes, fun k hk => (hsettled k).2 hk, fun k hk => ?_⟩
  have hk := (hsettled k).1 hk
  refine ⟨hgoes.stays k hk, fun b hb => ?_⟩
  by_cases hbk : b ∈ s.known
  · exact hinv.apart k hk b hbk
  · exact hgoes.kept k hk b hb hbk

/-- **The cache agrees with the repository.** After any history of clean loads, a clean load yields
the chunks of the load without a cache, each at a place that an effective blob lists. -/
theorem load_agrees {content : ObjectId → IndexBlob} {s : CacheState} {live : List ObjectId}
    {fetch : ObjectId → Option IndexBlob} {r : CacheLoad} (hist : CleanHistory content s)
    (hclean : Clean content s live) (hf : Reads content fetch)
    (h : s.dir.load live fetch = some r) : Agrees content live r.index :=
  (loaded_load hist.inv hclean hf h).agrees

/-- Two blobs of which nothing is superseded. -/
def growing : ObjectId → IndexBlob
  | 1 => .new [⟨10, 100, [⟨5, 8, 41, 1⟩]⟩]
  | 2 => .new [⟨11, 100, [⟨5, 8, 41, 1⟩, ⟨6, 49, 41, 1⟩]⟩]
  | _ => .new []

/-- An instance: the load that merges the second blob into the table of the first stops between the
renames, and the next one merges it again. -/
theorem load_agrees_growing :
    ∃ s r, CleanHistory growing s ∧ s.known = [1] ∧ s.merged = [1, 2] ∧ Clean growing s [1, 2] ∧
      s.dir.load [1, 2] (some ∘ growing) = some r ∧
        (r.index.get 5).map ChunkLocation.pack = some 11 ∧ Agrees growing [1, 2] r.index := by
  have hnone : ∀ id, (growing id).supersedes = [] := fun id => by
    unfold growing; split <;> rfl
  have hclean : ∀ (s : CacheState) (live : List ObjectId), (∀ k ∈ s.known, k ∈ s.merged) →
      (∀ k ∈ s.merged, k ∈ live) → Clean growing s live := fun s live hmerged hlive _ _ _ => by
    refine ⟨fun n _ _ hk => ?_, hmerged, fun k hk => ⟨hlive k hk, fun b _ hs => ?_⟩⟩
    · obtain ⟨k, -, hk⟩ := hk
      rw [hnone] at hk
      cases hk
    · rw [hnone] at hs
      cases hs
  have hreads : Reads growing (some ∘ growing) := fun id b hb => by cases hb; rfl
  have hrun : (do
      let r₁ ← IndexCache.empty.load [1] (some ∘ growing)
      let s₁ := CacheState.empty.loaded (← r₁.update)
      let r₂ ← s₁.dir.load [1, 2] (some ∘ growing)
      let s₂ := s₁.stopped (← r₂.update)
      let r ← s₂.dir.load [1, 2] (some ∘ growing)
      return ((s₁.known, s₁.merged), (s₂.known, s₂.merged),
        (r.index.get 5).map ChunkLocation.pack)) =
      some (([1], [1]), ([1], [1, 2]), some 11) := by decide
  simp only [bind, Option.bind_eq_some_iff, pure, Option.some.injEq, Prod.mk.injEq] at hrun
  obtain ⟨⟨index₁, _⟩, h₁, update₁, rfl, ⟨index₂, _⟩, h₂, update₂, rfl, r, h, ⟨hknown₁, hmerged₁⟩,
    ⟨hknown, hmerged⟩, hget⟩ := hrun
  have hist₁ : CleanHistory growing (CacheState.empty.loaded update₁) :=
    .step (.init rfl) (.load (hclean _ _ nofun nofun) hreads h₁)
  have hist : CleanHistory growing ((CacheState.empty.loaded update₁).stopped update₂) :=
    .step hist₁ (.stop (hclean _ _ (by rw [hknown₁, hmerged₁]; exact fun _ h => h)
      (by rw [hmerged₁]; decide)) hreads h₂)
  have hnext : Clean growing ((CacheState.empty.loaded update₁).stopped update₂) [1, 2] :=
    hclean _ _ (by rw [hknown, hmerged]; decide) (by rw [hmerged]; exact fun _ h => h)
  exact ⟨_, r, hist, hknown, hmerged, hnext, h, hget, load_agrees hist hnext hreads h⟩

/-- Blob 2 replaces blob 1 and leaves out the chunk 5 of the pack 10. -/
def repacked : ObjectId → IndexBlob
  | 1 => .new [⟨10, 100, [⟨5, 8, 41, 1⟩]⟩]
  | 2 => { IndexBlob.new [⟨11, 100, [⟨6, 8, 41, 1⟩]⟩] with supersedes := [1] }
  | _ => .new []

/-- Two loads of one and the same live set: the first rebuilds and leaves out the superseded blob,
the second finds that blob outside the manifest and merges it. -/
theorem not_load_agrees :
    ¬∀ (content : ObjectId → IndexBlob) (s : CacheState) (live : List ObjectId)
      (fetch : ObjectId → Option IndexBlob) (r : CacheLoad),
      Reachable (· = CacheState.empty) (CacheStep content fun _ _ => True) s →
      Reads content fetch → s.dir.load live fetch = some r → Agrees content live r.index := by
  intro hall
  have hreads : Reads repacked (some ∘ repacked) := fun id b hb => by cases hb; rfl
  have hrun : (do
      let r₁ ← IndexCache.empty.load [1, 2] (some ∘ repacked)
      let s₁ := CacheState.empty.loaded (← r₁.update)
      let r ← s₁.dir.load [1, 2] (some ∘ repacked)
      return (r.index.get 5).isSome) = some true := by decide
  simp only [bind, Option.bind_eq_some_iff, pure, Option.some.injEq] at hrun
  obtain ⟨⟨index₁, _⟩, h₁, update₁, rfl, r, h, hstale⟩ := hrun
  have hagree := hall repacked _ [1, 2] (some ∘ repacked) r
    (.step (.init rfl) (.load trivial hreads h₁)) hreads h
  have hfresh : ((loadIndex (blobsOf repacked [1, 2])).get 5).isSome = false := by decide
  rw [hagree.same_chunks 5, hfresh] at hstale
  cases hstale

/-- A load that stops between the renames can bring back a blob, too: the first load has the blob 1,
the second stops when the blob 2 is in its table, and the third finds the blob 2 deleted. -/
example : (do
    let r₁ ← IndexCache.empty.load [1] (some ∘ growing)
    let s₁ := CacheState.empty.loaded (← r₁.update)
    let r₂ ← s₁.dir.load [1, 2] (some ∘ growing)
    let s₂ := s₁.stopped (← r₂.update)
    let r ← s₂.dir.load [1] (some ∘ growing)
    return (r.index.get 6).isSome) = some true := by decide

end Kist
