import Kist.Backup.Covered
import Kist.Check.Run
import Kist.Check.Visits
import Kist.Restore.Leaf

/-!
# What a check without errors means

A check with `read_data` that reports no error has read every chunk that the index knows from the
place that the index gives for it, and the walk over the references has looked at every file of
every snapshot. Together they say that whatever a listed snapshot references can be read.

* `checkPacksData_spec`: each pack of the index is as the index says, in the state that the repair
  leaves.
* `check_sound`: each listed snapshot, its trees and the contents of its files can be read.
-/

namespace Kist

open Checked (bind_eq_ok)

/-! ### The chunks of the index -/

theorem ChunkIndex.mem_chunks {index : ChunkIndex} {c : ChunkId} {loc : ChunkLocation} :
    (c, loc) ∈ index.chunks ↔ index.get c = some loc := by
  have hover : (c, loc) ∈ index.overlay.entries.map (fun e => (e.1, e.2)) ↔
      index.overlay.lookup c = some loc := by
    refine List.mem_map.trans (.trans ⟨?_, fun h => ⟨⟨c, loc⟩, h, rfl⟩⟩ AList.mem_lookup_iff.symm)
    rintro ⟨e, he, heq⟩
    cases heq
    exact he
  have hbase : (⟨c, loc⟩ : TableRecord) ∈ index.base.elim [] DiskTable.records ↔
      index.baseGet c = some loc := by
    unfold ChunkIndex.baseGet
    cases index.base with
    | none => simp
    | some table => exact DiskTable.get_eq_some_iff.symm
  have hfilter : (c, loc) ∈ ((index.base.elim [] DiskTable.records).filter fun r =>
        (index.overlay.lookup r.id).isNone).map (fun r => (r.id, r.location)) ↔
      index.overlay.lookup c = none ∧ index.baseGet c = some loc := by
    rw [List.mem_map, ← hbase]
    constructor
    · rintro ⟨r, hr, heq⟩
      cases heq
      obtain ⟨hmem, hnone⟩ := List.mem_filter.1 hr
      exact ⟨Option.isNone_iff_eq_none.1 hnone, hmem⟩
    · rintro ⟨hnone, hmem⟩
      exact ⟨_, List.mem_filter.2 ⟨hmem, Option.isNone_iff_eq_none.2 hnone⟩, rfl⟩
  unfold ChunkIndex.chunks ChunkIndex.get
  rw [List.mem_append, hover, hfilter]
  cases index.overlay.lookup c with
  | none => simp
  | some loc' => simp

theorem keys_foldl_addPack (ps : List IndexPack) : ∀ {index : ChunkIndex} {pack : ObjectId},
    pack ∈ (ps.foldl ChunkIndex.addPack index).packs ↔
      pack ∈ index.packs ∨ ∃ p ∈ ps, p.pack = pack := by
  induction ps with
  | nil => simp
  | cons p ps ih =>
    intro index pack
    rw [List.foldl_cons, ih]
    simp [ChunkIndex.addPack, or_assoc, or_left_comm, eq_comm]

/-- The index knows the packs of its chunks. -/
theorem mem_packs_loadIndex {all : List (ObjectId × IndexBlob)} {c : ChunkId} {loc : ChunkLocation}
    (h : (loadIndex all).get c = some loc) : loc.pack ∈ (loadIndex all).packs.keys := by
  rw [loadIndex_eq_ranked] at h
  obtain ⟨p, hp, e, -, -, rfl⟩ := (best_of_get_loadIndexRanked h).listed
  have hpacks : ∀ (bs : List (ObjectId × IndexBlob)) {index : ChunkIndex},
      (p.pack ∈ index.packs ∨ p ∈ bs.flatMap fun b => b.2.packs) →
        p.pack ∈ (bs.foldl (fun index b => b.2.packs.foldl ChunkIndex.addPack index)
          index).packs := by
    intro bs
    induction bs with
    | nil => simp
    | cons b bs ih =>
      intro index h
      refine ih ?_
      rw [List.flatMap_cons, List.mem_append] at h
      rcases h with h | h | h
      · exact .inl ((keys_foldl_addPack _).2 (.inl h))
      · exact .inl ((keys_foldl_addPack _).2 (.inr ⟨p, h, rfl⟩))
      · exact .inr h
  exact AList.mem_keys.1 (hpacks (effective all) (.inr hp))

/-- Sums of lengths up to the largest number of 64 bits. -/
theorem sumLengths_eq {index : ChunkIndex} : ∀ {data : List ChunkId} {lens : List ℕ},
    List.Forall₂ (fun c n => ∃ loc, index.get c = some loc ∧ loc.rawLen = n) data lens →
      Repository.sumLengths index data = min lens.sum (2 ^ 64 - 1) := by
  have hfold : ∀ {data : List ChunkId} {lens : List ℕ} (sum : ℕ),
      List.Forall₂ (fun c n => ∃ loc, index.get c = some loc ∧ loc.rawLen = n) data lens →
        data.foldl (fun sum c => (index.get c).elim sum fun loc =>
          min (sum + loc.rawLen) (2 ^ 64 - 1)) (min sum (2 ^ 64 - 1)) =
            min (sum + lens.sum) (2 ^ 64 - 1) := by
    intro data lens sum h
    induction h generalizing sum with
    | nil => simp
    | @cons c n data lens hc _ ih =>
      obtain ⟨loc, hget, rfl⟩ := hc
      rw [List.foldl_cons, hget, Option.elim_some, List.sum_cons, ← add_assoc, ← ih]
      congr 1
      omega
  intro data lens h
  have := hfold 0 h
  rwa [Nat.zero_min, zero_add] at this

/-! ### The data of the packs -/

namespace Repository

section Packs

variable {repo : Repository} {lib : PackBytes} {index : ChunkIndex} {pack : ObjectId}
  {report : CheckReport} {repair : Bool}

/-- A chunk can be read from its place in the index, as long as the index says. -/
def ChunkReads (repo : Repository) (index : ChunkIndex) (c : ChunkId)
    (loc : ChunkLocation) : Prop :=
  ∃ plain, repo.readChunk c index = .ok plain ∧ plain.length = loc.rawLen

theorem length_of_decodeChunk {id : ChunkId} {bytes : Sealed} {rawLen : ℕ} {key : ObjectKey}
    {plain : Bytes} (h : repo.decodeChunk id bytes rawLen key = .ok plain) :
    plain.length = rawLen := by
  unfold decodeChunk at h
  split at h
  · cases h
  · split_ifs at h with _ hlen
    cases h
    exact not_not.1 hlen

/-- A pack without an error holds what the index expects in it. -/
theorem chunkReads_of_checkContent {p : Pack} (hp : repo.store.packs.lookup pack = some p)
    (hnil : repo.checkContent lib index pack p = []) {c : ChunkId} {loc : ChunkLocation}
    (hget : index.get c = some loc) (hpack : loc.pack = pack) : repo.ChunkReads index c loc := by
  unfold checkContent at hnil
  split at hnil
  · cases hnil
  next entries _ =>
  obtain ⟨hentries, hlisted⟩ := List.append_eq_nil_iff.1 hnil
  -- the index lists the chunk in this pack, so the trailer has an entry for it
  have hmem : c ∈ entries.map PackEntry.id := by
    have hfilter := List.filter_eq_nil_iff.1 (List.map_eq_nil_iff.1 hlisted) (c, loc)
      (ChunkIndex.mem_chunks.2 hget)
    simpa [hpack] using hfilter
  obtain ⟨entry, hentry, rfl⟩ := List.mem_map.1 hmem
  obtain ⟨hplace, hdata⟩ :=
    List.append_eq_nil_iff.1 (List.flatMap_eq_nil_iff.1 hentries entry hentry)
  -- and that entry is where the index says
  have hexpected : expectedIn index pack entry.id = some loc := by
    rw [expectedIn, hget]
    simp [hpack]
  rw [hexpected] at hplace
  dsimp only at hplace
  split_ifs at hplace with hsame
  push Not at hsame
  obtain ⟨hoffset, hlength, hraw⟩ := hsame
  cases hrange : p.getRange entry.offset entry.length with
  | none =>
    rw [hrange] at hdata
    cases hdata
  | some bytes =>
    rw [hrange] at hdata
    dsimp only at hdata
    cases hdecode : repo.decodeChunk entry.id bytes entry.rawLen (.pack pack) with
    | error e =>
      rw [hdecode] at hdata
      cases hdata
    | ok plain =>
      refine ⟨plain, ?_, (length_of_decodeChunk hdecode).trans hraw.symm⟩
      unfold readChunk
      rw [hget]
      dsimp only
      rw [hpack, hp]
      dsimp only
      rw [hoffset, hlength, hrange]
      dsimp only
      rw [hraw, hdecode]

/-- A pack is there, and what was read of it is as the index says. -/
def Verified (repo : Repository) (lib : PackBytes) (index : ChunkIndex) (pack : ObjectId) : Prop :=
  ∃ p, repo.store.packs.lookup pack = some p ∧ repo.checkContent lib index pack p = []

/-- The repository has other packs, and no other packs than these have changed. -/
structure Repaired (packs : List ObjectId) (repo repo' : Repository) : Prop where
  same : ∃ d, repo' = { repo with store.packs := d }
  lookup : ∀ q, q ∉ packs → repo'.store.packs.lookup q = repo.store.packs.lookup q

theorem Repaired.refl (packs : List ObjectId) (repo : Repository) : Repaired packs repo repo :=
  ⟨⟨_, rfl⟩, fun _ _ => rfl⟩

/-- What the content of a pack gives rise to is said of the pack. -/
theorem pack_of_checkContent {p : Pack} {e : CheckError}
    (h : e ∈ repo.checkContent lib index pack p) : e.pack? = some pack := by
  unfold checkContent at h
  split at h
  · cases List.mem_singleton.1 h
    rfl
  · rcases List.mem_append.1 h with h | h
    · obtain ⟨entry, -, h⟩ := List.mem_flatMap.1 h
      unfold checkEntry at h
      rcases List.mem_append.1 h with h | h
      · split at h
        · split_ifs at h
          · cases h
          · cases List.mem_singleton.1 h
            rfl
        · split_ifs at h
          · cases List.mem_singleton.1 h
            rfl
          · cases h
      · split at h
        · cases List.mem_singleton.1 h
          rfl
        · split at h
          · cases List.mem_singleton.1 h
            rfl
          · cases h
    · obtain ⟨c, -, rfl⟩ := List.mem_map.1 h
      rfl

/-- One pack: it is as it should be or an error is reported of it, and the errors of others stay. -/
theorem checkPackData_spec {report' : CheckReport} {repo' : Repository}
    (h : repo.checkPackData lib index repair pack report = (report', repo')) :
    Repaired [pack] repo repo' ∧
      (∀ e ∈ report.errors, e.pack? ≠ some pack → e ∈ report'.errors) ∧
      (repo'.Verified lib index pack ∨ ∃ e ∈ report'.errors, e.pack? = some pack) := by
  have hfail : ∀ {r : CheckReport} {e : CheckError}, e.pack? = some pack →
      ∃ e' ∈ (r.fail [e]).errors, e'.pack? = some pack := fun he =>
    ⟨_, List.mem_append_right _ List.mem_cons_self, he⟩
  have hstay : ∀ {r : CheckReport} {es : List CheckError}, ∀ e ∈ r.errors, e ∈ (r.fail es).errors :=
    fun e he => List.mem_append_left _ he
  have hcontent : ∀ {r : CheckReport} {p : Pack} {repo : Repository},
      repo.store.packs.lookup pack = some p → repo.Verified lib index pack ∨
        ∃ e ∈ (r.fail (repo.checkContent lib index pack p)).errors, e.pack? = some pack := by
    intro r p repo hp
    cases hnil : repo.checkContent lib index pack p with
    | nil => exact .inl ⟨p, hp, hnil⟩
    | cons e es =>
      refine .inr ⟨e, List.mem_append_right _ List.mem_cons_self, ?_⟩
      exact pack_of_checkContent (hnil ▸ List.mem_cons_self)
  unfold checkPackData at h
  split at h
  · cases h
    exact ⟨.refl _ _, fun e he _ => hstay e he, .inr (hfail rfl)⟩
  next p hp =>
  split_ifs at h with hhash hrepair
  · cases h
    exact ⟨.refl _ _, fun e he _ => hstay e he, hcontent hp⟩
  · cases h
    exact ⟨.refl _ _, fun e he _ => hstay e he, .inr (hfail rfl)⟩
  split at h
  · cases h
    exact ⟨.refl _ _, fun e he _ => hstay e he, .inr (hfail rfl)⟩
  next fixed _ =>
  -- the repaired pack takes the place of the damaged one, and its errors are taken back
  have hrep : Repaired [pack] repo
    { repo with store.packs := repo.store.packs.insert pack fixed } := by
    refine ⟨⟨_, rfl⟩, fun q hq => ?_⟩
    exact AList.lookup_insert_ne fun he => hq (he ▸ List.mem_cons_self)
  have hkept : ∀ e ∈ report.errors, e.pack? ≠ some pack →
      e ∈ report.errors.filter fun e => e.pack? ≠ some pack := fun e he hne =>
    List.mem_filter.2 ⟨he, decide_eq_true hne⟩
  dsimp only at h
  split_ifs at h
  · cases h
    exact ⟨hrep, fun e he hne => hstay e (hkept e he hne), hcontent (AList.lookup_insert _)⟩
  · cases h
    exact ⟨hrep, fun e he hne => hstay e (hkept e he hne), .inr (hfail rfl)⟩

theorem Repaired.trans {packs packs' : List ObjectId} {repo' repo'' : Repository}
    (h : Repaired packs repo repo') (h' : Repaired packs' repo' repo'') :
    Repaired (packs ++ packs') repo repo'' := by
  obtain ⟨d, rfl⟩ := h.same
  obtain ⟨d', rfl⟩ := h'.same
  refine ⟨⟨d', rfl⟩, fun q hq => ?_⟩
  rw [List.mem_append, not_or] at hq
  exact (h'.lookup q hq.2).trans (h.lookup q hq.1)

theorem Verified.of_repaired {packs : List ObjectId} {repo' : Repository}
    (h : repo.Verified lib index pack) (hr : Repaired packs repo repo') (hpack : pack ∉ packs) :
    repo'.Verified lib index pack := by
  obtain ⟨p, hp, hnil⟩ := h
  obtain ⟨d, rfl⟩ := hr.same
  exact ⟨p, (hr.lookup pack hpack).trans hp, hnil⟩

/-- All packs: each is as it should be or an error is reported of it, and the errors of others
stay. -/
theorem checkPacksData_spec {packs : List ObjectId} (hnodup : packs.Nodup) :
    ∀ {report report' : CheckReport} {repo repo' : Repository},
      checkPacksData lib index repair packs report repo = (report', repo') →
        Repaired packs repo repo' ∧
          (∀ e ∈ report.errors, (∀ pack ∈ packs, e.pack? ≠ some pack) → e ∈ report'.errors) ∧
          ∀ pack ∈ packs, repo'.Verified lib index pack ∨ ∃ e ∈ report'.errors,
            e.pack? = some pack := by
  induction packs with
  | nil =>
    intro report report' repo repo' h
    cases h
    exact ⟨.refl _ _, fun e he _ => he, fun pack hp => by cases hp⟩
  | cons pack packs ih =>
    intro report report' repo repo' h
    obtain ⟨hpack, hnodup⟩ := List.nodup_cons.1 hnodup
    rw [checkPacksData] at h
    rcases hone : repo.checkPackData lib index repair pack report with ⟨report₁, repo₁⟩
    rw [hone] at h
    obtain ⟨hr₁, hstay₁, hver₁⟩ := checkPackData_spec hone
    obtain ⟨hr, hstay, hver⟩ := ih hnodup h
    refine ⟨hr₁.trans hr, fun e he hne => ?_, fun q hq => ?_⟩
    · exact hstay e (hstay₁ e he (hne pack List.mem_cons_self)) fun q hq =>
        hne q (List.mem_cons_of_mem _ hq)
    · rcases List.mem_cons.1 hq with rfl | hq
      · refine hver₁.imp (fun hv => hv.of_repaired hr hpack) fun ⟨e, he, heq⟩ => ⟨e, ?_, heq⟩
        refine hstay e he fun q' hq' hne => hpack ?_
        rw [heq] at hne
        exact Option.some.inj hne ▸ hq'
      · exact hver q hq

end Packs

/-! ### The contents of the files -/

section Contents

variable {repo repo' : Repository} {index : ChunkIndex} {ids : List ChunkId} {bytes : Bytes}

theorem get_of_readChunk {c : ChunkId} (h : repo.readChunk c index = .ok bytes) :
    ∃ loc, index.get c = some loc := by
  unfold readChunk at h
  cases hget : index.get c with
  | none =>
    rw [hget] at h
    cases h
  | some loc => exact ⟨loc, rfl⟩

/-- What was read before the repair is what is read after it. -/
theorem readChunks_of_chunkReads (hinj : Function.Injective repo.keys.chunkId)
    (hkeys : repo'.keys = repo.keys)
    (hall : ∀ c loc, index.get c = some loc → repo'.ChunkReads index c loc) :
    ∀ {ids : List ChunkId} {bytes : Bytes}, repo.readChunks index ids = .ok bytes →
      repo'.readChunks index ids = .ok bytes
  | [], bytes, h => h
  | id :: ids, bytes, h => by
    obtain ⟨head, hhead, h⟩ := bind_eq_ok.1 h
    obtain ⟨tail, htail, h⟩ := bind_eq_ok.1 h
    cases h
    obtain ⟨loc, hget⟩ := get_of_readChunk hhead
    obtain ⟨head', hhead', -⟩ := hall id loc hget
    have hname := chunkId_of_readChunk hhead'
    rw [hkeys] at hname
    obtain rfl : head = head' := hinj ((chunkId_of_readChunk hhead).trans hname.symm)
    exact bind_eq_ok.2 ⟨head, hhead', bind_eq_ok.2
      ⟨tail, readChunks_of_chunkReads hinj hkeys hall htail, rfl⟩⟩

/-- Chunks that can be read are together as long as the index says. -/
theorem exists_readChunks (hall : ∀ c loc, index.get c = some loc → repo.ChunkReads index c loc) :
    ∀ {ids : List ChunkId}, (∀ c ∈ ids, index.contains c) →
      ∃ bytes lens, repo.readChunks index ids = .ok bytes ∧ bytes.length = lens.sum ∧
        List.Forall₂ (fun c n => ∃ loc, index.get c = some loc ∧ loc.rawLen = n) ids lens
  | [], _ => ⟨[], [], rfl, rfl, .nil⟩
  | id :: ids, h => by
    obtain ⟨hid, hids⟩ := List.forall_mem_cons.1 h
    rw [ChunkIndex.contains_eq_isSome] at hid
    obtain ⟨loc, hget⟩ := Option.isSome_iff_exists.1 hid
    obtain ⟨head, hhead, hlen⟩ := hall id loc hget
    obtain ⟨tail, lens, htail, hsum, hlens⟩ := exists_readChunks hall hids
    refine ⟨head ++ tail, loc.rawLen :: lens, ?_, ?_, .cons ⟨loc, hget, rfl⟩ hlens⟩
    · exact bind_eq_ok.2 ⟨head, hhead, bind_eq_ok.2 ⟨tail, htail, rfl⟩⟩
    · rw [List.length_append, hlen, hsum, List.sum_cons]

/-- A visit without an error, to a file whose list could be read. -/
theorem reads_of_checkVisit {t : TreeId} {e : Entry} (hinj : Function.Injective repo.keys.chunkId)
    (hkeys : repo'.keys = repo.keys)
    (hall : ∀ c loc, index.get c = some loc → repo'.ChunkReads index c loc)
    (hids : repo.resolveChunks e.chunks e.content index = .ok ids)
    (hindexed : ∀ c ∈ ids, index.contains c) (hvisit : checkVisit index ⟨t, e, ids⟩ = [])
    (hsize : e.size < 2 ^ 64 - 1) : repo'.Reads index e := by
  obtain ⟨bytes, lens, hread, hlen, hlens⟩ := exists_readChunks hall hindexed
  refine ⟨ids, bytes, ?_, hread, ?_⟩
  · cases hc : e.content with
    | direct =>
      rw [hc] at hids
      exact hids
    | indirect =>
      rw [hc] at hids
      obtain ⟨list, hlist, hids⟩ := bind_eq_ok.1 hids
      refine bind_eq_ok.2 ⟨list, readChunks_of_chunkReads hinj hkeys hall hlist, ?_⟩
      unfold chunkIdsOf at hids ⊢
      rwa [hkeys]
  · unfold checkVisit at hvisit
    dsimp only at hvisit
    split_ifs at hvisit with hne
    have hsum : sumLengths index ids = e.size := by
      by_contra hsum
      exact hne ⟨List.all_eq_true.2 hindexed, hsum⟩
    rw [sumLengths_eq hlens] at hsum
    omega

end Contents

/-! ### The check -/

section Check

variable {repo repo' : Repository} {lib : PackBytes} {opts : CheckOptions} {report : CheckReport}

theorem readIndexBlobs_of_lenient : ∀ {ids : List ObjectId},
    (repo.readIndexBlobsLenient ids).1 = [] →
      repo.readIndexBlobs ids = .ok (repo.readIndexBlobsLenient ids).2
  | [], _ => rfl
  | id :: ids, h => by
    unfold readIndexBlobsLenient at h ⊢
    unfold readIndexBlobs
    cases hread : repo.readIndexBlob id with
    | error e =>
      rw [hread] at h
      cases h
    | ok blob =>
      rw [hread] at h
      exact bind_eq_ok.2 ⟨_, readIndexBlobs_of_lenient h, rfl⟩

/-- Where every blob can be read the lenient way to load the index is the usual one. -/
theorem loadIndexUncached_of_lenient (h : repo.loadIndexLenient.1 = []) :
    repo.loadIndexUncached = .ok repo.loadIndexLenient.2 :=
  bind_eq_ok.2 ⟨_, readIndexBlobs_of_lenient h, rfl⟩

/-- The index does not depend on the packs. -/
theorem loadIndexUncached_congr {packs : Dict ObjectId Pack} :
    { repo with store.packs := packs }.loadIndexUncached = repo.loadIndexUncached := by
  have hread : ∀ ids : List ObjectId,
      { repo with store.packs := packs }.readIndexBlobs ids = repo.readIndexBlobs ids := by
    intro ids
    induction ids with
    | nil => rfl
    | cons id ids ih =>
      unfold readIndexBlobs
      rw [ih]
      rfl
  unfold loadIndexUncached loadIndexBlobs
  rw [hread]

/-- What a part of the check on the metadata finds is not taken back. -/
theorem errors_of_check (hdata : opts.readData ∨ opts.repair)
    (h : repo.check lib opts = (report, repo')) (hok : report.errors = []) :
    Repaired repo.loadIndexLenient.2.packs.keys repo repo' ∧
      (∀ e ∈ repo.checkMetadata.errors, e.pack? ≠ none) ∧
      ∀ pack ∈ repo.loadIndexLenient.2.packs.keys,
        repo'.Verified lib repo.loadIndexLenient.2 pack := by
  unfold check at h
  rw [if_pos (by simpa using hdata)] at h
  obtain ⟨hr, hstay, hver⟩ := checkPacksData_spec (AList.keys_nodup _) h
  rw [hok] at hstay hver
  refine ⟨hr, fun e he hnone => ?_, fun pack hp => ?_⟩
  · exact List.not_mem_nil (hstay e he fun pack _ => by simp [hnone])
  · exact (hver pack hp).resolve_right fun ⟨e, he, _⟩ => List.not_mem_nil he

/-- **A check is sound.** If a check that reads the data reports no error, then in the repository
that it leaves, with what it has repaired, every listed snapshot can be read, every tree below it,
and the content of every file in them with its recorded size. -/
theorem check_sound (hinj : Function.Injective repo.keys.chunkId)
    (hdata : opts.readData ∨ opts.repair) (h : repo.check lib opts = (report, repo'))
    (hok : report.errors = []) :
    ∃ index, repo'.loadIndexUncached = .ok index ∧
      ∀ key ∈ repo'.listSnapshotKeys, ∃ snapshot, repo'.readSnapshot key = .ok snapshot ∧
        ∀ root ∈ snapshot.roots, ∀ t, repo'.TreeReach root.tree t →
          ∃ tree, repo'.readTree t = .ok tree ∧ ∀ e ∈ tree.entries, e.kind = .file →
            e.size < 2 ^ 64 - 1 → repo'.Reads index e := by
  obtain ⟨hr, hmeta, hver⟩ := errors_of_check hdata h hok
  obtain ⟨packs, rfl⟩ := hr.same
  set index := repo.loadIndexLenient.2 with hindex
  -- no error of any part of the metadata check: the index, the walk over the snapshots, the visited
  -- files
  have hparts : ∀ e, e.pack? = none → e ∉ repo.checkMetadata.errors := fun e hnone he =>
    hmeta e he hnone
  simp only [checkMetadata, List.mem_append, not_or, ← hindex] at hparts
  have hload : repo.loadIndexLenient.1 = [] := List.eq_nil_iff_forall_not_mem.2 fun e he =>
    (hparts (.index e) rfl).1.1.1.1 (List.mem_map_of_mem he)
  have hwalk := @walkReferences_eq repo index
  have herrors : (repo.reachability index).errors = [] :=
    List.eq_nil_iff_forall_not_mem.2 fun e he =>
    (hparts (.walk e) rfl).1.1.2 (List.mem_map_of_mem he)
  have hvisits : ∀ f ∈ (repo.reachability index).visits, checkVisit index f = [] := fun f hf =>
    List.eq_nil_iff_forall_not_mem.2 fun e he => by
      refine (hparts e ?_).1.2 (List.mem_flatMap.2 ⟨f, hf, he⟩)
      unfold checkVisit at he
      dsimp only at he
      split_ifs at he
      · cases List.mem_singleton.1 he
        rfl
      · cases he
  obtain ⟨hlive, hrefs, hindexed⟩ := walkReferences_spec hwalk herrors
  have hdone := done_of_walkReferences hwalk herrors
  have hseen := visits_of_walkReferences hwalk herrors
  -- every place of the index was read back and had the bytes of its chunk
  have hall : ∀ c loc, index.get c = some loc →
      { repo with store.packs := packs }.ChunkReads index c loc := by
    intro c loc hget
    obtain ⟨p, hp, hnil⟩ := hver loc.pack (mem_packs_loadIndex hget)
    exact chunkReads_of_checkContent hp hnil hget rfl
  refine ⟨index, loadIndexUncached_congr.trans (loadIndexUncached_of_lenient hload),
    fun key hkey => ?_⟩
  obtain ⟨snapshot, hread⟩ := read_of_walkSnapshots hwalk herrors key hkey
  refine ⟨snapshot, hread, fun root hroot t ht => ?_⟩
  have htlive : t ∈ (repo.reachability index).liveTrees :=
    (hlive t).2 ⟨key, hkey, snapshot, hread, root, hroot, ht⟩
  obtain ⟨tree, htree⟩ := (hdone t htlive).readable
  refine ⟨tree, htree, fun e he hfile hsize => ?_⟩
  obtain ⟨ids, hids⟩ := (hdone t htlive).resolved tree htree e he hfile
  refine reads_of_checkVisit hinj rfl hall hids (fun c hc => ?_)
    (hvisits _ (hseen t htlive tree htree e he hfile ids hids)) hsize
  exact hindexed c
    ((hrefs c).2 ⟨t, (hlive t).1 htlive, tree, htree, e, he, hfile, .inr ⟨ids, hids, hc⟩⟩)

end Check

end Repository

/-! ### A small repository -/

/-- Packs that are what their names say, and have no parity. -/
def PackBytes.plain : PackBytes where
  hash _ := 1
  readTrailer p := .ok (p.chunks.map Prod.fst)
  repair _ _ := .error "no parity to repair it from"

theorem check_sound_oneByte :
    ∃ (repo' : Repository) (index : ChunkIndex), repo'.listSnapshotKeys = [⟨1, 100⟩] ∧
      repo'.loadIndexUncached = .ok index ∧
      ∀ key ∈ repo'.listSnapshotKeys, ∃ snapshot, repo'.readSnapshot key = .ok snapshot ∧
        ∀ root ∈ snapshot.roots, ∀ t, repo'.TreeReach root.tree t →
          ∃ tree, repo'.readTree t = .ok tree ∧ ∀ e ∈ tree.entries, e.kind = .file →
            e.size < 2 ^ 64 - 1 → repo'.Reads index e := by
  have hok : ((Repository.emptyIdeal.backup oneByteOptions 0 100 100 100).2.check .plain
      ⟨true, false⟩).1.errors = [] := by decide +kernel
  have hlisted : ((Repository.emptyIdeal.backup oneByteOptions 0 100 100 100).2.check .plain
      ⟨true, false⟩).2.listSnapshotKeys = [⟨1, 100⟩] := by decide +kernel
  generalize hrepo : (Repository.emptyIdeal.backup oneByteOptions 0 100 100 100).2 = repo
    at hok hlisted
  have hinj : Function.Injective repo.keys.chunkId := by
    rw [← hrepo]
    exact RepoKeys.chunkId_ideal_injective
  rcases hcheck : repo.check .plain ⟨true, false⟩ with ⟨report, repo'⟩
  rw [hcheck] at hok hlisted
  obtain ⟨index, hindex, hreads⟩ := Repository.check_sound hinj (.inl rfl) hcheck hok
  exact ⟨repo', index, hlisted, hindex, hreads⟩

end Kist
