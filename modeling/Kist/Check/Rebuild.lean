import Kist.Check.Sound
import Kist.Lib.Related
import Kist.Prune.Crash

/-!
# Rebuilding the index

`kist-core::rebuild`: a new index blob is made of the trailers of the packs and replaces the blobs
that were there when the work began. Other clients may write blobs meanwhile, which stay.

* `rebuild_index_spec`: what the index gives after that.
* `check_after_rebuild`: a check has nothing to say of the index then.
-/

namespace Kist

open Checked (bind_eq_ok)

/-- `read_pack_index`: the entries in the trailer of a pack. -/
abbrev ReadPackIndex := ObjectId → Pack → Except CoreError (List PackEntry)

/-- `RebuildSummary`. -/
structure RebuildSummary where
  packs : ℕ
  chunks : ℕ
  superseded : ℕ

/-- The packs one after the other, as the index lists them. -/
def readPackIndexes (read : ReadPackIndex) : List (ObjectId × Pack) →
    Except CoreError (List IndexPack)
  | [] => .ok []
  | (id, p) :: packs => do
    let entries ← read id p
    let done ← readPackIndexes read packs
    return ⟨id, p.size, entries⟩ :: done

/-- The blob that `rebuild_index` writes, of the blobs and the packs that it has listed. -/
def rebuildBlob (read : ReadPackIndex) (existing : List ObjectId) (packs : Dict ObjectId Pack) :
    Except CoreError IndexBlob := do
  let listed := packs.entries.map (fun e => (e.1, e.2))
  let done ← readPackIndexes read (listed.insertionSort fun a b => a.1 ≤ b.1)
  return { IndexBlob.new done with supersedes := existing.insertionSort (· ≤ ·) }

/-- `rebuild_index`, with no other client at work. -/
def Repository.rebuildIndex (repo : Repository) (read : ReadPackIndex) (nonce : ℕ) :
    Except CoreError RebuildSummary × Repository :=
  match rebuildBlob read repo.store.indexes.keys repo.store.packs with
  | .error e => (.error e, repo)
  | .ok blob =>
    (.ok ⟨blob.packs.length, (blob.packs.map fun p => p.entries.length).sum,
      blob.supersedes.length⟩,
      repo.writeIndex nonce blob)

/-! ### The blob -/

section Blob

variable {read : ReadPackIndex} {existing : List ObjectId} {packs : Dict ObjectId Pack}
  {blob : IndexBlob}

theorem readPackIndexes_ok : ∀ {l : List (ObjectId × Pack)} {done : List IndexPack},
    readPackIndexes read l = .ok done →
      List.Forall₂ (fun e p => p.pack = e.1 ∧ p.size = e.2.size ∧
        read e.1 e.2 = .ok p.entries) l done
  | [], done, h => by
    cases h
    exact .nil
  | (id, p) :: l, done, h => by
    obtain ⟨entries, hread, h⟩ := bind_eq_ok.1 h
    obtain ⟨rest, hrest, h⟩ := bind_eq_ok.1 h
    cases h
    exact .cons ⟨rfl, rfl, hread⟩ (readPackIndexes_ok hrest)

/-- The blob lists each pack with its size and what its trailer says, and supersedes what was
there. -/
theorem rebuildBlob_ok (h : rebuildBlob read existing packs = .ok blob) :
    blob.version = formatVersion ∧ (∀ id, id ∈ blob.supersedes ↔ id ∈ existing) ∧
      (∀ p ∈ blob.packs, ∃ pack, packs.lookup p.pack = some pack ∧ p.size = pack.size ∧
        read p.pack pack = .ok p.entries) ∧
      (blob.packs.map IndexPack.pack).Nodup ∧
      ∀ id pack, packs.lookup id = some pack → ∃ p ∈ blob.packs, p.pack = id := by
  obtain ⟨done, hdone, h⟩ := bind_eq_ok.1 h
  cases h
  have hrel := readPackIndexes_ok hdone
  have hperm := List.perm_insertionSort (fun a b : ObjectId × Pack => a.1 ≤ b.1)
    (packs.entries.map fun e => (e.1, e.2))
  have hmem : ∀ e : ObjectId × Pack, e ∈ (packs.entries.map fun e => (e.1, e.2)).insertionSort
      (fun a b => a.1 ≤ b.1) ↔ packs.lookup e.1 = some e.2 := by
    intro e
    refine hperm.mem_iff.trans (List.mem_map.trans (.trans ?_ AList.mem_lookup_iff.symm))
    constructor
    · rintro ⟨s, hs, rfl⟩
      exact hs
    · exact fun he => ⟨⟨e.1, e.2⟩, he, rfl⟩
  refine ⟨rfl, fun id => (List.perm_insertionSort _ _).mem_iff, fun p hp => ?_, ?_,
    fun id pack hpack => ?_⟩
  · obtain ⟨e, he, hpack, hsize, hread⟩ := Related.exists_left hrel p hp
    rw [hpack]
    exact ⟨e.2, (hmem e).1 he, hsize, hread⟩
  · have hnodup : ((packs.entries.map fun e => (e.1, e.2)).insertionSort
        fun a b => a.1 ≤ b.1).Pairwise fun a b => a.1 ≠ b.1 := by
      refine (hperm.pairwise_iff fun h => Ne.symm h).2 (List.pairwise_map.2 ?_)
      exact List.pairwise_map.1 packs.nodupKeys
    refine List.pairwise_map.2 (Related.pairwise_right ?_ hrel hnodup)
    intro e e' p p' hp hp' hne
    rwa [hp.1, hp'.1]
  · obtain ⟨p, hp, hpid, -⟩ := Related.exists_right hrel (id, pack) ((hmem (id, pack)).2 hpack)
    exact ⟨p, hp, hpid⟩

end Blob

/-! ### The index after it -/

namespace Repository

section Index

variable {repo : Repository} {all : List (ObjectId × IndexBlob)} {ids : List ObjectId}

theorem readIndexBlobs_ok : ∀ {ids : List ObjectId} {all : List (ObjectId × IndexBlob)},
    repo.readIndexBlobs ids = .ok all →
      ∀ b, b ∈ all ↔ b.1 ∈ ids ∧ repo.readIndexBlob b.1 = .ok b.2
  | [], all, h => by
    cases h
    simp
  | id :: ids, all, h => by
    unfold readIndexBlobs at h
    split at h
    · cases h
    · next blob hread =>
      obtain ⟨rest, hrest, h⟩ := bind_eq_ok.1 h
      cases h
      intro b
      rw [List.mem_cons, List.mem_cons, readIndexBlobs_ok hrest b]
      constructor
      · rintro (rfl | ⟨hb, hok⟩)
        · exact ⟨.inl rfl, hread⟩
        · exact ⟨.inr hb, hok⟩
      · rintro ⟨hb | hb, hok⟩
        · rw [hb, hread] at hok
          cases hok
          exact .inl (Prod.ext hb rfl)
        · exact .inr ⟨hb, hok⟩

theorem exists_of_readIndexBlobs : ∀ {ids : List ObjectId} {all : List (ObjectId × IndexBlob)},
    repo.readIndexBlobs ids = .ok all → ∀ id ∈ ids, ∃ blob, repo.readIndexBlob id = .ok blob
  | [], _, _ => fun _ h => by cases h
  | id :: ids, all, h => by
    unfold readIndexBlobs at h
    split at h
    · cases h
    · next blob hread =>
      obtain ⟨rest, hrest, -⟩ := bind_eq_ok.1 h
      exact List.forall_mem_cons.2 ⟨⟨blob, hread⟩, exists_of_readIndexBlobs hrest⟩

theorem exists_readIndexBlobs (h : ∀ id ∈ ids, ∃ blob, repo.readIndexBlob id = .ok blob) :
    ∃ all, repo.readIndexBlobs ids = .ok all := by
  induction ids with
  | nil => exact ⟨[], rfl⟩
  | cons id ids ih =>
    obtain ⟨⟨blob, hblob⟩, hids⟩ := List.forall_mem_cons.1 h
    obtain ⟨rest, hrest⟩ := ih hids
    refine ⟨(id, blob) :: rest, ?_⟩
    unfold readIndexBlobs
    rw [hblob]
    exact bind_eq_ok.2 ⟨rest, hrest, rfl⟩

end Index

section Rebuild

variable {read : ReadPackIndex} {repo : Repository} {existing : List ObjectId}
  {packs : Dict ObjectId Pack} {blob : IndexBlob} {nonce : ℕ}
  {all : List (ObjectId × IndexBlob)}

/-- The packs of the blobs that count and that were not there when the rebuild began. -/
def newerPacks (all : List (ObjectId × IndexBlob)) (existing : List ObjectId) : List IndexPack :=
  ((effective all).filter fun b => b.1 ∉ existing).flatMap fun b => b.2.packs

theorem mem_newerPacks {p : IndexPack} :
    p ∈ newerPacks all existing ↔ ∃ b ∈ effective all, b.1 ∉ existing ∧ p ∈ b.2.packs := by
  simp [newerPacks, and_assoc]

/-- The blob that a rebuild writes is read as it was written. -/
theorem readIndexBlob_writeIndex (hversion : blob.version = formatVersion) :
    (repo.writeIndex nonce blob).readIndexBlob (repo.keys.objectId (.indexBlob nonce blob)) =
      .ok blob := by
  have hget : (repo.writeIndex nonce blob).store.getSealed
      (.index (repo.keys.objectId (.indexBlob nonce blob))) = some (.indexBlob nonce blob) :=
    AList.lookup_insert _
  unfold readIndexBlob
  rw [hget]
  have hkeys : (repo.writeIndex nonce blob).keys = repo.keys := rfl
  dsimp only [Sealed.openIndexBlob]
  rw [hkeys, if_neg (not_not.2 rfl), if_neg (not_not.2 hversion)]

/-- Other blobs are read as before. -/
theorem readIndexBlob_writeIndex_of_ne {id : ObjectId}
    (h : id ≠ repo.keys.objectId (.indexBlob nonce blob)) :
    (repo.writeIndex nonce blob).readIndexBlob id = repo.readIndexBlob id := by
  have hget : (repo.writeIndex nonce blob).store.getSealed (.index id) =
      repo.store.getSealed (.index id) := AList.lookup_insert_ne h
  unfold readIndexBlob
  rw [hget]
  rfl

/-- The blobs after a rebuild. -/
theorem loadIndexBlobs_writeIndex (hversion : blob.version = formatVersion)
    (hload : repo.loadIndexBlobs = .ok all)
    (hfresh : repo.keys.objectId (.indexBlob nonce blob) ∉ repo.store.indexes) :
    ∃ all', (repo.writeIndex nonce blob).loadIndexBlobs = .ok all' ∧
      ∀ b, b ∈ all' ↔ b = (repo.keys.objectId (.indexBlob nonce blob), blob) ∨ b ∈ all := by
  set newId := repo.keys.objectId (.indexBlob nonce blob) with hnew
  have hold := readIndexBlobs_ok hload
  have hkeys : ∀ id, id ∈ (repo.writeIndex nonce blob).store.indexes.keys ↔
      id = newId ∨ id ∈ repo.store.indexes.keys := by
    intro id
    rw [AList.mem_keys.symm, AList.mem_keys.symm]
    exact AList.mem_insert _
  have hne : ∀ id ∈ repo.store.indexes.keys, id ≠ newId := by
    rintro id hid rfl
    exact hfresh (AList.mem_keys.2 hid)
  have hall : ∃ all', (repo.writeIndex nonce blob).loadIndexBlobs = .ok all' := by
    refine exists_readIndexBlobs fun id hid => ?_
    rcases (hkeys id).1 hid with rfl | hid
    · exact ⟨blob, readIndexBlob_writeIndex hversion⟩
    · obtain ⟨b, hb⟩ := exists_of_readIndexBlobs hload id hid
      exact ⟨b, (readIndexBlob_writeIndex_of_ne (hne id hid)).trans hb⟩
  obtain ⟨all', hall'⟩ := hall
  refine ⟨all', hall', fun b => ?_⟩
  rw [readIndexBlobs_ok hall' b, hkeys, hold b]
  constructor
  · rintro ⟨hb | hb, hread⟩
    · rw [hb, readIndexBlob_writeIndex hversion] at hread
      exact .inl (Prod.ext hb (Except.ok.inj hread).symm)
    · exact .inr ⟨hb, (readIndexBlob_writeIndex_of_ne (hne b.1 hb)).symm.trans hread⟩
  · rintro (rfl | ⟨hb, hread⟩)
    · exact ⟨.inl rfl, readIndexBlob_writeIndex hversion⟩
    · exact ⟨.inr hb, (readIndexBlob_writeIndex_of_ne (hne b.1 hb)).trans hread⟩

/-- The packs that count after a rebuild. -/
theorem effectivePacks_rebuilt (hblob : rebuildBlob read existing packs = .ok blob)
    (hload : repo.loadIndexBlobs = .ok all)
    (hfresh : repo.keys.objectId (.indexBlob nonce blob) ∉ repo.store.indexes)
    (hnew : repo.keys.objectId (.indexBlob nonce blob) ∉ existing ++ supersededBy all) :
    ∃ all', (repo.writeIndex nonce blob).loadIndexBlobs = .ok all' ∧
      ∀ p, p ∈ effectivePacks all' ↔ p ∈ blob.packs ++ newerPacks all existing := by
  obtain ⟨hversion, hsupersedes, -⟩ := rebuildBlob_ok hblob
  rw [List.mem_append, not_or] at hnew
  obtain ⟨all', hload', hmem⟩ := loadIndexBlobs_writeIndex hversion hload hfresh
  have heff : ∀ b, b ∈ effective all' ↔
      b = (repo.keys.objectId (.indexBlob nonce blob), blob) ∨ b ∈ effective all ∧
        b.1 ∉ existing := by
    have hsuper : ∀ id, id ∈ supersededBy all' ↔ id ∈ existing ∨ id ∈ supersededBy all := by
      intro id
      simp [TimedRepository.mem_supersededBy, hmem, or_and_right, exists_or, hsupersedes]
    intro b
    rw [TimedRepository.mem_effective, TimedRepository.mem_effective, hmem, hsuper]
    constructor
    · rintro ⟨hb | hb, hnot⟩
      · exact .inl hb
      · exact .inr ⟨⟨hb, fun h => hnot (.inr h)⟩, fun h => hnot (.inl h)⟩
    · rintro (rfl | ⟨⟨hb, hnot⟩, hex⟩)
      · exact ⟨.inl rfl, fun h => h.elim hnew.1 hnew.2⟩
      · exact ⟨.inr hb, fun h => h.elim hex hnot⟩
  refine ⟨all', hload', fun p => ?_⟩
  simp [TimedRepository.mem_effectivePacks, heff, mem_newerPacks, or_and_right,
    exists_or, and_assoc]

/-- **A rebuilt index.** A rebuild has listed the blobs `existing` and then `packs`, and writes its
blob while the repository is `repo`, to which others may have added since. The index then gives for
a chunk the place in the pack of the smallest name, out of the packs that were listed, with what
their trailers say, and the packs of the blobs that are newer. No chunk gets lost if the older blobs
were true. -/
theorem rebuild_index_spec (hblob : rebuildBlob read existing packs = .ok blob)
    (hload : repo.loadIndexBlobs = .ok all)
    (hfresh : repo.keys.objectId (.indexBlob nonce blob) ∉ repo.store.indexes)
    (hnew : repo.keys.objectId (.indexBlob nonce blob) ∉ existing ++ supersededBy all) :
    ∃ index, (repo.writeIndex nonce blob).loadIndexUncached = .ok index ∧
      (∀ c loc, index.get c = some loc →
        BestPlace (fun _ => false) (blob.packs ++ newerPacks all existing) c loc) ∧
      (∀ c, (index.get c).isSome ↔ ∃ loc,
        Kist.Lists (blob.packs ++ newerPacks all existing) c loc) ∧
      ((∀ b ∈ effective all, b.1 ∈ existing → ∀ p ∈ b.2.packs, ∃ pack,
          packs.lookup p.pack = some pack ∧ read p.pack pack = .ok p.entries) →
        ∀ c, ((loadIndex all).get c).isSome → (index.get c).isSome) := by
  obtain ⟨all', hload', hpacks⟩ := effectivePacks_rebuilt hblob hload hfresh hnew
  obtain ⟨-, -, htrailers, -, hlisted⟩ := rebuildBlob_ok hblob
  have hlists : ∀ c loc, Kist.Lists (effectivePacks all') c loc ↔
      Kist.Lists (blob.packs ++ newerPacks all existing) c loc := by
    intro c loc
    simp only [Kist.Lists, hpacks]
  have hbest : ∀ c, (((loadIndex all').get c).isSome ↔
      ∃ loc, Kist.Lists (blob.packs ++ newerPacks all existing) c loc) := by
    intro c
    rw [loadIndex_eq_ranked, isSome_get_loadIndexRanked]
    exact exists_congr (hlists c)
  refine ⟨loadIndex all', bind_eq_ok.2 ⟨all', hload', rfl⟩, fun c loc hget => ?_, hbest,
    fun htrue c hsome => ?_⟩
  · rw [loadIndex_eq_ranked] at hget
    obtain ⟨hl, hb⟩ := best_of_get_loadIndexRanked hget
    exact ⟨(hlists c loc).1 hl, fun loc' hl' => hb loc' ((hlists c loc').2 hl')⟩
  · rw [loadIndex_eq_ranked, isSome_get_loadIndexRanked] at hsome
    obtain ⟨loc, p, hp, e, he, hid, hloc⟩ := hsome
    obtain ⟨b, hb, hpb⟩ := TimedRepository.mem_effectivePacks.1 hp
    by_cases hex : b.1 ∈ existing
    · obtain ⟨pack, hpack, hread⟩ := htrue b hb hex p hpb
      obtain ⟨p', hp', hpp⟩ := hlisted p.pack pack hpack
      obtain ⟨pack', hpack', -, hread'⟩ := htrailers p' hp'
      rw [hpp, hpack] at hpack'
      cases hpack'
      rw [hpp, hread] at hread'
      refine (hbest c).2 ⟨location p'.pack e, p', List.mem_append_left _ hp', e, ?_, hid, rfl⟩
      rwa [← Except.ok.inj hread']
    · refine (hbest c).2
        ⟨loc, p, List.mem_append_right _ (mem_newerPacks.2 ⟨b, hb, hex, hpb⟩), e, he,
        hid, hloc⟩

end Rebuild

end Repository

/-! ### A check after it -/

/-- What `check` says of the index, and not of the data. -/
def CheckError.ofIndex : CheckError → Bool
  | .index _ | .missing _ | .size .. | .trailer .. | .unindexed .. | .location .. | .unlisted .. =>
    true
  | _ => false

namespace Repository

section After

variable {read : ReadPackIndex} {lib : PackBytes} {repo repo' : Repository} {nonce : ℕ}
  {all : List (ObjectId × IndexBlob)} {index : ChunkIndex} {summary : RebuildSummary}
  {opts : CheckOptions}

/-- An index that lists each pack with its size and what its trailer says. -/
structure ListsPacks (repo : Repository) (lib : PackBytes) (index : ChunkIndex) : Prop where
  packs : ∀ pack size, index.packs.lookup pack = some size → ∃ p,
    repo.store.packs.lookup pack = some p ∧ p.size = size ∧ ∃ es, lib.readTrailer p = .ok es
  chunks : ∀ pack p es, repo.store.packs.lookup pack = some p → lib.readTrailer p = .ok es →
    (es.map PackEntry.id).Nodup ∧ ∀ e ∈ es, index.contains e.id
  places : ∀ c loc, index.get c = some loc → ∃ p es, repo.store.packs.lookup loc.pack = some p ∧
    lib.readTrailer p = .ok es ∧ ∃ e ∈ es, e.id = c ∧ loc = location loc.pack e

theorem checkPack_of_listsPacks (h : repo.ListsPacks lib index) {pack : ObjectId} {size : ℕ}
    (hpack : index.packs.lookup pack = some size) : repo.checkPack pack size = [] := by
  obtain ⟨p, hp, hsize, -⟩ := h.packs pack size hpack
  unfold checkPack
  rw [hp]
  dsimp only
  rw [if_neg (not_not.2 hsize)]

theorem ofIndex_checkEntry (h : repo.ListsPacks lib index) {pack : ObjectId} {p : Pack}
    {es : List PackEntry} (hp : repo.store.packs.lookup pack = some p)
    (hes : lib.readTrailer p = .ok es) {entry : PackEntry} (hentry : entry ∈ es) :
    ∀ e ∈ repo.checkEntry index pack p entry, e.ofIndex = false := by
  obtain ⟨hnodup, hcontains⟩ := h.chunks pack p es hp hes
  intro e he
  unfold checkEntry at he
  rcases List.mem_append.1 he with he | he
  · exfalso
    cases hexpected : expectedIn index pack entry.id with
    | none =>
      rw [hexpected] at he
      dsimp only at he
      rw [if_pos (hcontains entry hentry)] at he
      cases he
    | some loc =>
      rw [hexpected] at he
      obtain ⟨hget, hpack⟩ := Option.filter_eq_some_iff.1 hexpected
      obtain rfl := of_decide_eq_true hpack
      obtain ⟨p', es', hp', hes', entry', hentry', hid, hloc⟩ := h.places entry.id loc hget
      cases hp.symm.trans hp'
      cases hes.symm.trans hes'
      obtain rfl : entry' = entry := List.inj_on_of_nodup_map hnodup hentry' hentry hid
      dsimp only at he
      rw [hloc] at he
      simp [location] at he
  · split at he
    · cases List.mem_singleton.1 he
      rfl
    · split at he
      · cases List.mem_singleton.1 he
        rfl
      · cases he

theorem ofIndex_checkContent (h : repo.ListsPacks lib index) {pack : ObjectId} {p : Pack}
    {es : List PackEntry} (hp : repo.store.packs.lookup pack = some p)
    (hes : lib.readTrailer p = .ok es) :
    ∀ e ∈ repo.checkContent lib index pack p, e.ofIndex = false := by
  intro e he
  unfold checkContent at he
  rw [hes] at he
  rcases List.mem_append.1 he with he | he
  · obtain ⟨entry, hentry, he⟩ := List.mem_flatMap.1 he
    exact ofIndex_checkEntry h hp hes hentry e he
  · exfalso
    obtain ⟨⟨c, loc⟩, hc, rfl⟩ := List.mem_map.1 he
    obtain ⟨hchunk, hcond⟩ := List.mem_filter.1 hc
    obtain ⟨rfl, hmiss⟩ := of_decide_eq_true hcond
    obtain ⟨p', es', hp', hes', entry, hentry, rfl, -⟩ :=
      h.places c loc (ChunkIndex.mem_chunks.1 hchunk)
    cases hp.symm.trans hp'
    cases hes.symm.trans hes'
    exact hmiss (List.mem_map_of_mem hentry)

/-- A pack after the other, where nothing is repaired. -/
theorem errors_checkPacksData (h : repo.ListsPacks lib index) :
    ∀ {packs : List ObjectId}, (∀ pack ∈ packs, pack ∈ index.packs.keys) → ∀ {report : CheckReport},
      ∀ e ∈ (checkPacksData lib index false packs report repo).1.errors,
        e ∈ report.errors ∨ e.ofIndex = false
  | [], _, report, e, he => .inl he
  | pack :: packs, hpacks, report, e, he => by
    obtain ⟨hpack, hrest⟩ := List.forall_mem_cons.1 hpacks
    obtain ⟨size, hsize⟩ :=
      Option.isSome_iff_exists.1 (AList.lookup_isSome.2 (AList.mem_keys.2 hpack))
    obtain ⟨p, hp, -, es, hes⟩ := h.packs pack size hsize
    have hone : ∃ r, repo.checkPackData lib index false pack report = (r, repo) ∧
        ∀ e ∈ r.errors, e ∈ report.errors ∨ e.ofIndex = false := by
      unfold checkPackData
      rw [hp]
      dsimp only
      split_ifs with hhash
      · refine ⟨_, rfl, fun e he => (List.mem_append.1 he).imp_right fun he => ?_⟩
        exact ofIndex_checkContent h hp hes e he
      · refine ⟨_, rfl, fun e he => (List.mem_append.1 he).imp_right fun he => ?_⟩
        rw [List.mem_singleton.1 he]
        rfl
      · next hnot => exact absurd rfl hnot
    obtain ⟨r, hr, herrors⟩ := hone
    rw [checkPacksData, hr] at he
    exact (errors_checkPacksData h hrest e he).elim (herrors e) .inr

theorem lenient_of_readIndexBlobs : ∀ {ids : List ObjectId} {all : List (ObjectId × IndexBlob)},
    repo.readIndexBlobs ids = .ok all → repo.readIndexBlobsLenient ids = ([], all)
  | [], all, h => by
    cases h
    rfl
  | id :: ids, all, h => by
    unfold readIndexBlobs at h
    unfold readIndexBlobsLenient
    cases hread : repo.readIndexBlob id with
    | error e =>
      rw [hread] at h
      cases h
    | ok blob =>
      rw [hread] at h
      obtain ⟨rest, hrest, h⟩ := bind_eq_ok.1 h
      cases h
      rw [lenient_of_readIndexBlobs hrest]

/-- What `check` reports where the index can be loaded and lists the packs as they are. -/
theorem ofIndex_check (hload : repo.loadIndexBlobs = .ok all)
    (h : repo.ListsPacks lib (loadIndex all)) (hrepair : opts.repair = false) :
    ∀ e ∈ (repo.check lib opts).1.errors, e.ofIndex = false := by
  have hlenient : repo.loadIndexLenient = ([], loadIndex all) := by
    unfold loadIndexLenient
    rw [lenient_of_readIndexBlobs hload]
  have hmeta : ∀ e ∈ repo.checkMetadata.errors, e.ofIndex = false := by
    intro e he
    unfold checkMetadata at he
    rw [hlenient] at he
    simp only [List.mem_append, List.map_nil, List.nil_append] at he
    rcases he with ((he | he) | he) | he
    · obtain ⟨b, hb, he⟩ := List.mem_flatMap.1 he
      rw [checkPack_of_listsPacks h (AList.mem_lookup_iff.2 hb)] at he
      cases he
    · obtain ⟨w, -, rfl⟩ := List.mem_map.1 he
      rfl
    · obtain ⟨f, -, he⟩ := List.mem_flatMap.1 he
      unfold checkVisit at he
      dsimp only at he
      split_ifs at he
      · rw [List.mem_singleton.1 he]
        rfl
      · cases he
    · obtain ⟨id, -, rfl⟩ := List.mem_map.1 he
      rfl
  intro e he
  unfold check at he
  rw [hrepair, hlenient] at he
  split_ifs at he
  · exact (errors_checkPacksData h (fun _ h => h) e he).elim (hmeta e) id
  · exact hmeta e he

/-- The sizes in the index are those in the blobs. -/
theorem lookup_packs_loadIndex {pack : ObjectId} {size : ℕ}
    (h : (loadIndex all).packs.lookup pack = some size) :
    ∃ p ∈ effectivePacks all, p.pack = pack ∧ p.size = size := by
  have hpacks : ∀ (ps : List IndexPack) {index : ChunkIndex},
      (ps.foldl ChunkIndex.addPack index).packs.lookup pack = some size →
        index.packs.lookup pack = some size ∨ ∃ p ∈ ps, p.pack = pack ∧ p.size = size := by
    intro ps
    induction ps with
    | nil => exact fun h => .inl h
    | cons p ps ih =>
      intro index h
      rcases ih h with h | ⟨q, hq, hqs⟩
      · unfold ChunkIndex.addPack at h
        rw [Dict.lookup_insert'] at h
        split_ifs at h with hp
        · exact .inr ⟨p, List.mem_cons_self, hp.symm, Option.some.inj h⟩
        · exact .inl h
      · exact .inr ⟨q, List.mem_cons_of_mem _ hq, hqs⟩
  have hblobs : ∀ (bs : List (ObjectId × IndexBlob)) {index : ChunkIndex},
      (bs.foldl (fun index b => b.2.packs.foldl ChunkIndex.addPack index) index).packs.lookup pack =
          some size →
        index.packs.lookup pack = some size ∨
          ∃ p ∈ bs.flatMap fun b => b.2.packs, p.pack = pack ∧ p.size = size := by
    intro bs
    induction bs with
    | nil => exact fun h => .inl h
    | cons b bs ih =>
      intro index h
      rw [List.flatMap_cons]
      rcases ih h with h | ⟨q, hq, hqs⟩
      · exact (hpacks _ h).imp_right fun ⟨q, hq, hqs⟩ => ⟨q, List.mem_append_left _ hq, hqs⟩
      · exact .inr ⟨q, List.mem_append_right _ hq, hqs⟩
  refine (hblobs (effective all) h).resolve_left fun hnew => ?_
  cases hnew

/-- **A rebuilt index is as a check wants it.** After a rebuild of the index by the only client at
work, in a repository with blobs that can be read, a check reports nothing of the index: each pack
is there and as long as the index says, and has the trailer that the index lists. -/
theorem check_after_rebuild (h : repo.rebuildIndex read nonce = (.ok summary, repo'))
    (hload : repo.loadIndexBlobs = .ok all)
    (hfresh : ∀ blob, rebuildBlob read repo.store.indexes.keys repo.store.packs = .ok blob →
      repo.keys.objectId (.indexBlob nonce blob) ∉ repo.store.indexes.keys ++ supersededBy all)
    (hread : ∀ id p es, repo.store.packs.lookup id = some p → read id p = .ok es →
      lib.readTrailer p = .ok es ∧ (es.map PackEntry.id).Nodup)
    (hrepair : opts.repair = false) :
    ∀ e ∈ (repo'.check lib opts).1.errors, e.ofIndex = false := by
  unfold rebuildIndex at h
  split at h
  · cases h
  next blob hblob =>
  cases h
  have hkeys : ∀ b ∈ all, b.1 ∈ repo.store.indexes.keys := fun b hb =>
    ((readIndexBlobs_ok hload b).1 hb).1
  have hnot : repo.keys.objectId (.indexBlob nonce blob) ∉ repo.store.indexes := fun hmem =>
    hfresh blob hblob (List.mem_append_left _ (AList.mem_keys.1 hmem))
  obtain ⟨all', hload', hpacks⟩ := effectivePacks_rebuilt hblob hload hnot (hfresh blob hblob)
  obtain ⟨-, -, htrailers, -, hlisted⟩ := rebuildBlob_ok hblob
  replace hpacks : ∀ p, p ∈ effectivePacks all' ↔ p ∈ blob.packs := by
    intro p
    rw [hpacks, List.mem_append]
    refine or_iff_left fun hp => ?_
    obtain ⟨b, hb, hnot, -⟩ := mem_newerPacks.1 hp
    exact hnot (hkeys b (TimedRepository.mem_effective.1 hb).1)
  refine ofIndex_check hload' ⟨fun pack size hsize => ?_, fun pack p es hp hes => ?_,
    fun c loc hget => ?_⟩ hrepair
  · obtain ⟨p, hp, rfl, rfl⟩ := lookup_packs_loadIndex hsize
    obtain ⟨pack, hpack, hsize, htrailer⟩ := htrailers p ((hpacks p).1 hp)
    exact ⟨pack, hpack, hsize.symm, p.entries, (hread _ _ _ hpack htrailer).1⟩
  · obtain ⟨p', hp', rfl⟩ := hlisted pack p hp
    obtain ⟨pack', hpack', -, htrailer⟩ := htrailers p' hp'
    cases hp.symm.trans hpack'
    obtain ⟨hes', hnodup⟩ := hread _ _ _ hp htrailer
    cases hes.symm.trans hes'
    refine ⟨hnodup, fun e he => ?_⟩
    rw [ChunkIndex.contains_eq_isSome, loadIndex_eq_ranked, isSome_get_loadIndexRanked]
    exact ⟨_, p', (hpacks p').2 hp', e, he, rfl, rfl⟩
  · rw [loadIndex_eq_ranked] at hget
    obtain ⟨p, hp, e, he, rfl, rfl⟩ := (best_of_get_loadIndexRanked hget).listed
    obtain ⟨pack, hpack, -, htrailer⟩ := htrailers p ((hpacks p).1 hp)
    exact ⟨pack, p.entries, hpack, (hread _ _ _ hpack htrailer).1, e, he, rfl, rfl⟩

end After

end Repository

/-! ### A small repository -/

/-- The trailer of a pack that nothing is wrong with. -/
def readPlain : ReadPackIndex := fun _ p => .ok (p.chunks.map Prod.fst)

/-- What a rebuild of this repository would write. -/
def Repository.rebuilt (repo : Repository) : Except CoreError
    (IndexBlob × List (ObjectId × IndexBlob)) := do
  let blob ← rebuildBlob readPlain repo.store.indexes.keys repo.store.packs
  let all ← repo.loadIndexBlobs
  return (blob, all)

theorem rebuilt_oneByte {repo : Repository}
    (hrepo : (Repository.emptyIdeal.backup oneByteOptions 0 100 100 100).2 = repo) :
    ∃ blob all, rebuildBlob readPlain repo.store.indexes.keys repo.store.packs = .ok blob ∧
      repo.loadIndexBlobs = .ok all ∧
      repo.keys.objectId (.indexBlob 1 blob) ∉ repo.store.indexes.keys ++ supersededBy all := by
  have hfresh : repo.rebuilt.toOption.map (fun x =>
      decide (repo.keys.objectId (.indexBlob 1 x.1) ∉ repo.store.indexes.keys ++
        supersededBy x.2)) =
        some true := by
    rw [← hrepo]
    decide +kernel
  obtain ⟨⟨blob, all⟩, hx, hnot⟩ := Option.map_eq_some_iff.1 hfresh
  cases hr : repo.rebuilt with
  | error e =>
    rw [hr] at hx
    cases hx
  | ok x =>
    rw [hr] at hx
    cases hx
    obtain ⟨blob', hblob, hr⟩ := bind_eq_ok.1 hr
    obtain ⟨all', hall, hr⟩ := bind_eq_ok.1 hr
    cases hr
    exact ⟨blob, all, hblob, hall, of_decide_eq_true hnot⟩

theorem rebuild_index_spec_oneByte :
    ∃ (repo : Repository) (blob : IndexBlob) (index : ChunkIndex), repo.store.packs.keys ≠ [] ∧
      rebuildBlob readPlain repo.store.indexes.keys repo.store.packs = .ok blob ∧
      (repo.writeIndex 1 blob).loadIndexUncached = .ok index ∧
      ∃ all, ∀ c, (index.get c).isSome ↔
        ∃ loc, Lists (blob.packs ++ Repository.newerPacks all repo.store.indexes.keys) c loc := by
  have hpacks : (Repository.emptyIdeal.backup oneByteOptions 0 100 100 100).2.store.packs.keys ≠
    [] := by
    decide +kernel
  generalize hrepo : (Repository.emptyIdeal.backup oneByteOptions 0 100 100 100).2 = repo at hpacks
  obtain ⟨blob, all, hblob, hall, hnot⟩ := rebuilt_oneByte hrepo
  obtain ⟨index, hload, -, hsome, -⟩ := Repository.rebuild_index_spec hblob hall
    (fun h => hnot (List.mem_append_left _ (AList.mem_keys.1 h))) hnot
  exact ⟨repo, blob, index, hpacks, hblob, hload, all, hsome⟩

theorem check_after_rebuild_oneByte :
    ∃ (repo repo' : Repository) (summary : RebuildSummary),
      repo.rebuildIndex readPlain 1 = (.ok summary, repo') ∧ summary.packs ≠ 0 ∧
        ∀ e ∈ (repo'.check .plain ⟨true, false⟩).1.errors, e.ofIndex = false := by
  have hone : ((Repository.emptyIdeal.backup oneByteOptions 0 100 100 100).2.rebuildIndex
      readPlain 1).1.toOption.map RebuildSummary.packs = some 1 := by decide +kernel
  have hnodup : ∀ e ∈
    (Repository.emptyIdeal.backup oneByteOptions 0 100 100 100).2.store.packs.entries,
      ((e.2.chunks.map Prod.fst).map PackEntry.id).Nodup := by decide +kernel
  generalize hrepo : (Repository.emptyIdeal.backup oneByteOptions 0 100 100 100).2 =
    repo at hone hnodup
  obtain ⟨blob, all, hblob, hall, hnot⟩ := rebuilt_oneByte hrepo
  rcases h : repo.rebuildIndex readPlain 1 with ⟨_ | summary, repo'⟩
  · rw [h] at hone
    cases hone
  · rw [h] at hone
    have hpacks : summary.packs = 1 := Option.some.inj hone
    refine ⟨repo, repo', summary, h, by omega, Repository.check_after_rebuild h hall
      (fun blob' hblob' => ?_) (fun id p es hp hes => ?_) rfl⟩
    · cases hblob.symm.trans hblob'
      exact hnot
    · cases hes
      exact ⟨rfl, hnodup ⟨id, p⟩ (AList.mem_lookup_iff.1 hp)⟩

end Kist
