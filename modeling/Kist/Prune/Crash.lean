import Kist.Ideal
import Kist.Prune.Execute

/-!
# A prune that stops early

After any number of the writes and deletes of a plan, what the snapshots reference is still there.
Each operation leaves alone the needed packs, the reachable trees and the effective index blobs, in
whatever order they come; and whether or not the new index blob is there, every referenced chunk is
listed in a pack that is needed.
-/

namespace Kist

namespace TimedRepository

/-! ### Index blobs -/

section Blobs

variable {repo s : TimedRepository} {id : ObjectId} {blob : IndexBlob}

/-- A blob that can be read is there. -/
theorem mem_indexes_of_readIndexBlob (h : repo.readIndexBlob id = .ok blob) :
    id ∈ repo.store.indexes := by
  rw [Repository.readIndexBlob] at h
  split at h
  · cases h
  · next bytes hb =>
    have hb : repo.store.indexes.lookup id = some bytes := hb
    exact AList.lookup_isSome.1 (by rw [hb]; rfl)

theorem mem_indexBlobs : (id, blob) ∈ repo.indexBlobs ↔ repo.readIndexBlob id = .ok blob := by
  rw [indexBlobs, List.mem_filterMap]
  constructor
  · rintro ⟨id', -, h⟩
    split at h
    · next hread =>
      cases h
      exact hread
    · cases h
  · intro h
    exact ⟨id, mem_indexes_of_readIndexBlob h, by rw [h]⟩

theorem readIndexBlob_congr (hkeys : s.keys = repo.keys)
    (h : s.store.indexes.lookup id = repo.store.indexes.lookup id) :
    s.readIndexBlob id = repo.readIndexBlob id := by
  have hget : s.store.getSealed (.index id) = repo.store.getSealed (.index id) := h
  unfold Repository.readIndexBlob
  rw [hkeys, hget]

theorem readTree_congr {id : TreeId} (hkeys : s.keys = repo.keys)
    (h : s.store.trees.lookup id = repo.store.trees.lookup id)
    (h' : s.store.treeReplicas.lookup id = repo.store.treeReplicas.lookup id) :
    s.readTree id = repo.readTree id := by
  have hget : s.store.getSealed (.tree id) = repo.store.getSealed (.tree id) := h
  have hget' : s.store.getSealed (.treeReplica id) = repo.store.getSealed (.treeReplica id) := h'
  unfold Repository.readTree Repository.readTreeOnce
  rw [hkeys, hget, hget']

theorem mem_effective {all : List (ObjectId × IndexBlob)} {b : ObjectId × IndexBlob} :
    b ∈ effective all ↔ b ∈ all ∧ b.1 ∉ supersededBy all := by
  simp [effective]

theorem mem_supersededBy {all : List (ObjectId × IndexBlob)} :
    id ∈ supersededBy all ↔ ∃ b ∈ all, id ∈ b.2.supersedes := by
  simp [supersededBy]

/-- A pack of an effective blob. -/
theorem mem_effectivePacks {all : List (ObjectId × IndexBlob)} {p : IndexPack} :
    p ∈ effectivePacks all ↔ ∃ b ∈ effective all, p ∈ b.2.packs := by
  simp [effectivePacks]

end Blobs

/-! ### Operations that spare what is needed -/

/-- What the operations of a plan are to spare, and the blob that they may write. -/
structure Scope where
  repo : TimedRepository
  needed : Finset ObjectId
  trees : Finset TreeId
  blobId : ObjectId
  bytes : Sealed
  present : ∀ id ∈ needed, id ∈ repo.store.packs
  fresh : blobId ∉ repo.store.indexes

namespace Scope

variable (scope : Scope)

/-- The operation spares it. -/
def Spares : PruneOp → Prop
  | .putIndex id bytes => id = scope.blobId ∧ bytes = scope.bytes
  | .delete .pack id => id ∉ scope.needed
  | .delete .tree id => id ∉ scope.trees
  | .delete .index id => id ∉ (effective scope.repo.indexBlobs).map Prod.fst
  | .deleteReplica id => id ∉ scope.trees
  | _ => True

/-- It is still there. -/
structure Spared (s : TimedRepository) : Prop where
  keys : s.keys = scope.repo.keys
  packs : ∀ id ∈ scope.needed, id ∈ s.store.packs
  trees : ∀ id ∈ scope.trees, s.store.trees.lookup id = scope.repo.store.trees.lookup id
  replicas : ∀ id ∈ scope.trees,
    s.store.treeReplicas.lookup id = scope.repo.store.treeReplicas.lookup id
  indexes : ∀ id bytes, s.store.indexes.lookup id = some bytes →
    scope.repo.store.indexes.lookup id = some bytes ∨ (id = scope.blobId ∧ bytes = scope.bytes)
  effective : ∀ id ∈ (effective scope.repo.indexBlobs).map Prod.fst,
    s.store.indexes.lookup id = scope.repo.store.indexes.lookup id

variable {scope} {s : TimedRepository} {now : Time}

theorem spared_refl : scope.Spared scope.repo :=
  ⟨rfl, scope.present, fun _ _ => rfl, fun _ _ => rfl, fun _ _ => .inl, fun _ _ => rfl⟩

theorem ne_blobId {id : ObjectId} (h : id ∈ (Kist.effective scope.repo.indexBlobs).map Prod.fst) :
    id ≠ scope.blobId := by
  rintro rfl
  obtain ⟨⟨id, blob⟩, hb, hid⟩ := List.mem_map.1 h
  refine scope.fresh ?_
  rw [← hid]
  exact mem_indexes_of_readIndexBlob (mem_indexBlobs.1 (mem_effective.1 hb).1)

/-- **One operation.** -/
theorem Spared.apply {op : PruneOp} (h : scope.Spared s) (hop : scope.Spares op) :
    scope.Spared (op.apply now s) := by
  cases op with
  | putPack id pack =>
    exact { h with packs := fun i hi => (AList.mem_insert _).2 (.inr (h.packs i hi)) }
  | putIndex id bytes =>
    -- the only index blob a prune puts is its own, under a new name
    obtain ⟨rfl, rfl⟩ := hop
    refine { h with indexes := fun i bytes hi => ?_, effective := fun i hi => ?_ }
    · rw [PruneOp.apply, Dict.lookup_insert'] at hi
      split_ifs at hi with he
      · cases hi
        exact .inr ⟨he, rfl⟩
      · exact h.indexes i bytes hi
    · rw [PruneOp.apply, Dict.lookup_insert', if_neg (ne_blobId hi)]
      exact h.effective i hi
  | delete kind id =>
    cases kind with
    | pack =>
      refine { h with packs := fun i hi => ?_ }
      have hne : i ≠ id := fun he => hop (he ▸ hi)
      exact AList.mem_erase.2 ⟨hne, h.packs i hi⟩
    | tree =>
      refine { h with trees := fun i hi => ?_ }
      have hne : i ≠ id := fun he => hop (he ▸ hi)
      rw [PruneOp.apply, Dict.lookup_erase', if_neg hne]
      exact h.trees i hi
    | index =>
      refine { h with indexes := fun i bytes hi => ?_, effective := fun i hi => ?_ }
      · rw [PruneOp.apply, Dict.lookup_erase'] at hi
        split_ifs at hi
        exact h.indexes i bytes hi
      · have hne : i ≠ id := fun he => hop (he ▸ hi)
        rw [PruneOp.apply, Dict.lookup_erase', if_neg hne]
        exact h.effective i hi
  | deleteReplica id =>
    refine { h with replicas := fun i hi => ?_ }
    have hne : i ≠ id := fun he => hop (he ▸ hi)
    rw [PruneOp.apply, Dict.lookup_erase', if_neg hne]
    exact h.replicas i hi
  | deleteTouch id => exact { h with }
  | deleteSidecar id => exact { h with }
  | deleteMark id => exact { h with }
  | putMark id => exact { h with }

/-- **Any number of operations.** -/
theorem Spared.after {ops : List PruneOp} (h : scope.Spared s)
    (hops : ∀ op ∈ ops, scope.Spares op) :
    scope.Spared (s.after now ops) := by
  induction ops generalizing s with
  | nil => exact h
  | cons op ops ih =>
    exact ih (h.apply (hops op List.mem_cons_self)) fun op hop =>
      hops op (List.mem_cons_of_mem _ hop)

/-- A blob of the backend is one that was there, or the one that may be written. -/
theorem Spared.mem_indexBlobs {b : ObjectId × IndexBlob} (h : scope.Spared s)
    (hb : b ∈ s.indexBlobs) :
    b ∈ scope.repo.indexBlobs ∨ (b.1 = scope.blobId ∧ scope.bytes.openIndexBlob = some b.2) := by
  obtain ⟨id, blob⟩ := b
  have hread := TimedRepository.mem_indexBlobs.1 hb
  obtain ⟨bytes, hbytes⟩ := Option.isSome_iff_exists.1
    (AList.lookup_isSome.2 (mem_indexes_of_readIndexBlob hread))
  rcases h.indexes id bytes hbytes with hold | ⟨rfl, rfl⟩
  · refine .inl (TimedRepository.mem_indexBlobs.2 ?_)
    rw [← hread]
    exact (readIndexBlob_congr h.keys (hbytes.trans hold.symm)).symm
  · refine .inr ⟨rfl, ?_⟩
    have hget : s.store.getSealed (.index scope.blobId) = some scope.bytes := hbytes
    rw [Repository.readIndexBlob, hget] at hread
    dsimp only at hread
    split at hread
    · cases hread
    · split at hread
      · cases hread
      · next blob' hopen =>
        split at hread
        · cases hread
        · rw [hopen, Except.ok.inj hread]

/-- **What is listed stays listed.** Without the new blob every effective blob is still effective;
with it, the new blob lists what is needed. -/
theorem Spared.lists {blob : IndexBlob} {n : ℕ} {c : ChunkId} {loc : ChunkLocation}
    (h : scope.Spared s) (hbytes : scope.bytes = .indexBlob n blob)
    (hself : scope.blobId ∉ blob.supersedes)
    (hnot : scope.blobId ∉ supersededBy scope.repo.indexBlobs) (hnew : Lists blob.packs c loc)
    (hc : Lists (effectivePacks scope.repo.indexBlobs) c loc) :
    Lists (effectivePacks s.indexBlobs) c loc := by
  by_cases hblob : (scope.blobId, blob) ∈ s.indexBlobs
  · obtain ⟨p, hp, he⟩ := hnew
    refine ⟨p, mem_effectivePacks.2 ⟨_, mem_effective.2 ⟨hblob, ?_⟩, hp⟩, he⟩
    rintro hsup
    obtain ⟨b, hb, hmem⟩ := mem_supersededBy.1 hsup
    rcases h.mem_indexBlobs hb with hold | ⟨-, hopen⟩
    · exact hnot (mem_supersededBy.2 ⟨b, hold, hmem⟩)
    · rw [hbytes] at hopen
      obtain rfl := Option.some.inj hopen
      exact hself hmem
  · have hold : ∀ b ∈ s.indexBlobs, b ∈ scope.repo.indexBlobs := by
      intro b hb
      refine (h.mem_indexBlobs hb).resolve_right ?_
      rintro ⟨hbid, hopen⟩
      rw [hbytes] at hopen
      obtain hb' := Option.some.inj hopen
      exact hblob (by rw [← hbid, hb']; exact hb)
    obtain ⟨p, hp, he⟩ := hc
    obtain ⟨b, hb, hpb⟩ := mem_effectivePacks.1 hp
    obtain ⟨hbmem, hbnot⟩ := mem_effective.1 hb
    refine ⟨p, mem_effectivePacks.2 ⟨b, mem_effective.2 ⟨?_, ?_⟩, hpb⟩, he⟩
    · have hsame := h.effective b.1 (List.mem_map_of_mem hb)
      refine TimedRepository.mem_indexBlobs.2 ?_
      rw [readIndexBlob_congr h.keys hsame]
      exact TimedRepository.mem_indexBlobs.1 hbmem
    · intro hsup
      obtain ⟨b', hb', hmem⟩ := mem_supersededBy.1 hsup
      exact hbnot (mem_supersededBy.2 ⟨b', hold b' hb', hmem⟩)

end Scope

/-! ### The operations of a plan -/

/-- The effective blobs agree on what is in a pack: every writer lists what it has put there. -/
def PacksAgree (repo : TimedRepository) : Prop :=
  ∀ p ∈ effectivePacks repo.indexBlobs, ∀ q ∈ effectivePacks repo.indexBlobs,
    p.pack = q.pack → p.entries = q.entries

/-- No index blob that is sealed from here on has a name that is in use. -/
def FreshFrom (repo : TimedRepository) (nonce : ℕ) : Prop :=
  ∀ n, nonce ≤ n → ∀ blob, repo.keys.objectId (.indexBlob n blob) ∉ repo.store.indexes ∧
    repo.keys.objectId (.indexBlob n blob) ∉ supersededBy repo.indexBlobs

/-- A chunk is held at a place: an effective blob lists it there, in a pack that exists. -/
def Holds (repo : TimedRepository) (c : ChunkId) (loc : ChunkLocation) : Prop :=
  Lists (effectivePacks repo.indexBlobs) c loc ∧ loc.pack ∈ repo.store.packs

section Planned

variable {repo : TimedRepository} {sorter : SortedTable.UnstableSort TableRecord.sortKey}
  {opts : PruneOptions} {live : Dict ObjectId ℕ} {plan : PrunePlan} {faults : PruneFaults}
  {now : Time} {nonce : ℕ} {c : ChunkId}

theorem mem_indexed {id : ObjectId} (h : Planned repo sorter opts live plan) :
    id ∈ plan.indexed ↔ ∃ p ∈ effectivePacks repo.indexBlobs, p.pack = id := by
  rw [← AList.lookup_isSome, h.indexed, lookup_indexPacks, List.find?_isSome]
  simp

/-- What is listed and no phantom exists. -/
theorem mem_packs_of_listed {loc : ChunkLocation} (h : Planned repo sorter opts live plan)
    (hl : Lists (effectivePacks repo.indexBlobs) c loc)
    (hph : loc.pack ∉ repo.phantomPacks plan.indexed) : loc.pack ∈ repo.store.packs := by
  obtain ⟨p, hp, e, -, -, rfl⟩ := hl
  have hin : p.pack ∈ plan.indexed := (mem_indexed h).2 ⟨p, hp, rfl⟩
  by_contra hnot
  exact hph (Finset.mem_filter.2 ⟨List.mem_toFinset.2 hin, hnot⟩)

/-- The choice behind a plan, for each chunk that is referenced. -/
theorem exists_choice (h : Planned repo sorter opts live plan) :
    ∃ choice, PruneIndex.Selected (fun id => id ∈ repo.store.marks.keys)
      (repo.phantomPacks plan.indexed) (PruneIndex.recordsOf (effectivePacks repo.indexBlobs))
      (repo.reachability (repo.pruneIndex sorter).locator).referencedChunks choice
      plan.neededPacks live plan.idx := by
  have hspec := PruneIndex.markAndCanonicalize_spec sorter (fun id => id ∈ repo.store.marks.keys)
    (repo.phantomPacks plan.indexed) (PruneIndex.recordsOf (effectivePacks repo.indexBlobs))
    (repo.reachability (repo.pruneIndex sorter).locator).referencedChunks
  have hchosen := h.chosen
  rw [pruneIndex] at hchosen
  rw [pruneIndex, hchosen] at hspec
  exact hspec

theorem needed_present (h : Planned repo sorter opts live plan) :
    ∀ id ∈ plan.neededPacks, id ∈ repo.store.packs := by
  obtain ⟨choice, hsel⟩ := exists_choice h
  intro id hid
  rw [hsel.needed_eq] at hid
  obtain ⟨c, hc, rfl⟩ := Finset.mem_image.1 hid
  have hcan := hsel.canonical c (List.mem_toFinset.1 hc)
  exact mem_packs_of_listed h (PruneIndex.mem_recordsOf.1 hcan.mem) hcan.present

/-- What the operations of the plan are to spare. -/
def scope (h : Planned repo sorter opts live plan) (faults : PruneFaults)
    (hfresh : FreshFrom repo nonce) : Scope where
  repo := repo
  needed := plan.neededPacks
  trees := (repo.reachability (repo.pruneIndex sorter).locator).liveTrees
  blobId := repo.keys.objectId (repo.newIndex faults plan nonce)
  bytes := repo.newIndex faults plan nonce
  present := needed_present h
  fresh := (hfresh _ nonce_le_repackPacks _).1

theorem spares_execute (h : Planned repo sorter opts live plan) (hfresh : FreshFrom repo nonce) :
    ∀ op ∈ (repo.execute faults plan now nonce).1, (scope h faults hfresh).Spares op := by
  intro op hop
  rcases mem_execute hop with ⟨id, pack, rfl⟩ | rfl | ⟨⟨t, time⟩, ht, hop⟩ | ⟨id, rfl⟩ | ⟨id, rfl⟩ |
    ⟨id, rfl⟩ | ⟨id, rfl⟩
  · trivial
  · exact ⟨rfl, rfl⟩
  · rw [h.decided] at ht
    obtain ⟨-, hjudge⟩ := mem_toDelete ht
    obtain ⟨-, -, hlive, -⟩ := judge_eq_delete hjudge
    obtain ⟨kind, id, modified⟩ := t
    cases kind with
    | pack =>
      rcases List.mem_cons.1 hop with rfl | hop
      · exact of_decide_eq_false hlive
      · obtain rfl := List.mem_singleton.1 hop
        trivial
    | tree =>
      rcases List.mem_cons.1 hop with rfl | hop
      · exact of_decide_eq_false hlive
      · rcases List.mem_cons.1 hop with rfl | hop
        · exact of_decide_eq_false hlive
        · obtain rfl := List.mem_singleton.1 hop
          trivial
    | index =>
      rcases List.mem_cons.1 hop with rfl | hop
      · exact of_decide_eq_false hlive
      · cases hop
  · trivial
  · trivial
  · trivial
  · trivial

theorem notMem_needed_of_mem_toDelete {t : PruneTarget} {time : Time}
    (h : Planned repo sorter opts live plan) (ht : (t, time) ∈ plan.toDelete)
    (hkind : t.kind = .pack) : t.id ∉ plan.neededPacks := by
  rw [h.decided] at ht
  obtain ⟨-, hjudge⟩ := mem_toDelete ht
  obtain ⟨-, -, hlive, -⟩ := judge_eq_delete hjudge
  rw [hkind] at hlive
  exact of_decide_eq_false hlive

/-- No pack that is needed is deleted. -/
theorem notMem_deletedPacks {id : ObjectId} (h : Planned repo sorter opts live plan)
    (hneeded : id ∈ plan.neededPacks) : id ∉ plan.deletedPacks := by
  intro hmem
  obtain ⟨⟨t, time⟩, ht, rfl⟩ := List.mem_map.1 (List.mem_toFinset.1 hmem)
  obtain ⟨ht, hkind⟩ := List.mem_filter.1 ht
  exact notMem_needed_of_mem_toDelete h ht (of_decide_eq_true hkind).1 hneeded

/-- The new blob lists a pack that stays with all of its chunks. -/
theorem lists_newBlob {loc : ChunkLocation} (h : Planned repo sorter opts live plan)
    (hagree : repo.PacksAgree) (hstays : loc.pack ∉ plan.deletedPacks)
    (hph : loc.pack ∉ repo.phantomPacks plan.indexed)
    (hl : Lists (effectivePacks repo.indexBlobs) c loc) (newPacks : List IndexPack) :
    Lists (plan.newBlob newPacks).packs c loc := by
  obtain ⟨p, hp, e, he, hid, rfl⟩ := hl
  obtain ⟨q, hq⟩ := Option.isSome_iff_exists.1
    (AList.lookup_isSome.2 ((mem_indexed h).2 ⟨p, hp, rfl⟩))
  have hfind : (effectivePacks repo.indexBlobs).find? (fun q => q.pack = p.pack) = some q := by
    rw [← lookup_indexPacks, ← h.indexed]
    exact hq
  have hname : q.pack = p.pack := by simpa using List.find?_some hfind
  have hentries := hagree q (List.mem_of_find?_eq_some hfind) p hp hname
  have hkept : ∃ marked, q ∈ plan.keptPacks marked := by
    refine ⟨decide (q.pack ∈ plan.repack ∨ q.pack ∈ plan.markedPacks), ?_⟩
    rw [PrunePlan.keptPacks, List.mem_insertionSort, List.mem_filter]
    refine ⟨List.mem_map.2 ⟨⟨p.pack, q⟩, AList.mem_lookup_iff.1 hq, rfl⟩, ?_⟩
    have hdel : p.pack ∉ plan.deletedPacks := hstays
    have hph' : p.pack ∉ plan.phantoms := by
      rw [h.decided]
      exact hph
    simp [hname, hdel, hph']
  refine ⟨q, ?_, e, by rw [hentries]; exact he, hid, by rw [hname]⟩
  obtain ⟨_ | _, hmem⟩ := hkept
  · simp [PrunePlan.newBlob, IndexBlob.new, hmem]
  · simp [PrunePlan.newBlob, IndexBlob.new, hmem]

theorem mem_indexes_of_mem_allBlobIds {id : ObjectId} (h : Planned repo sorter opts live plan)
    (hid : id ∈ plan.allBlobIds) : id ∈ repo.store.indexes := by
  rw [h.decided] at hid
  have hin : ∃ b ∈ repo.indexBlobs, b.1 = id := by
    simp only [decidePlan, List.mem_append, List.mem_map] at hid
    rcases hid with ⟨b, hb, rfl⟩ | ⟨b, hb, rfl⟩
    · exact ⟨b, (mem_effective.1 hb).1, rfl⟩
    · exact ⟨b, (List.mem_filter.1 hb).1, rfl⟩
  obtain ⟨b, hb, rfl⟩ := hin
  exact mem_indexes_of_readIndexBlob (mem_indexBlobs.1 hb)

theorem blobId_notMem_supersedes (h : Planned repo sorter opts live plan)
    (hfresh : FreshFrom repo nonce) (newPacks : List IndexPack) :
    (scope h faults hfresh).blobId ∉ (plan.newBlob newPacks).supersedes := fun hmem =>
  (scope h faults hfresh).fresh
    (mem_indexes_of_mem_allBlobIds h ((List.mem_insertionSort _).1 hmem))

/-- **A prune that stops early**, after any number of its operations: each chunk that the snapshots
reference is held where it was held before, and each tree they reach can be read. -/
theorem holds_of_isPrefix (h : Planned repo sorter opts live plan) (hagree : repo.PacksAgree)
    (hfresh : FreshFrom repo nonce) {ops : List PruneOp}
    (hops : ops <+: (repo.execute faults plan now nonce).1) :
    (∀ t c, repo.LiveTree t → repo.TreeReferences (repo.pruneIndex sorter).locator t c →
      ∃ loc, repo.Holds c loc ∧ (repo.after now ops).Holds c loc) ∧
    ∀ t, repo.LiveTree t → ∃ tree, (repo.after now ops).readTree t = .ok tree := by
  have hspared : (scope h faults hfresh).Spared (repo.after now ops) :=
    @Scope.Spared.after (scope h faults hfresh) _ _ _ Scope.spared_refl fun op hop =>
      spares_execute h hfresh op (hops.subset hop)
  have hwalk := Repository.walkReferences_eq repo.toRepository (repo.pruneIndex sorter).locator
  obtain ⟨htrees, hchunks, -⟩ := Repository.walkReferences_spec hwalk h.resolved
  have hdone := Repository.done_of_walkReferences hwalk h.resolved
  constructor
  · intro t c ht hc
    obtain ⟨choice, hsel⟩ := exists_choice h
    have href := (hchunks c).2 ⟨t, ht, hc⟩
    have hcan := hsel.canonical c href
    have hl : Lists (effectivePacks repo.indexBlobs) c (choice c).location := by
      have := PruneIndex.mem_recordsOf.1 hcan.mem
      rwa [hcan.id_eq] at this
    have hneeded : (choice c).location.pack ∈ plan.neededPacks := by
      rw [hsel.needed_eq]
      exact Finset.mem_image_of_mem _ (List.mem_toFinset.2 href)
    exact ⟨_, ⟨hl, needed_present h _ hneeded⟩,
      hspared.lists rfl (blobId_notMem_supersedes h hfresh _) (hfresh _ nonce_le_repackPacks _).2
        (lists_newBlob h hagree (notMem_deletedPacks h hneeded) hcan.present hl _) hl,
      hspared.packs _ hneeded⟩
  · intro t ht
    obtain ⟨tree, htree⟩ := (hdone t ((htrees t).2 ht)).readable
    refine ⟨tree, ?_⟩
    rw [readTree_congr hspared.keys (hspared.trees t ((htrees t).2 ht))
      (hspared.replicas t ((htrees t).2 ht))]
    exact htree

/-- **Crash consistency.** After any number of the writes and deletes of a plan, each chunk that the
snapshots reference is listed by an effective index blob in a pack that exists, at a place where it
was held before, each tree they reach can be read, and the only pack that holds a referenced chunk
is still there and still listed. -/
theorem prune_crash_consistent (repo : TimedRepository)
    (sorter : SortedTable.UnstableSort TableRecord.sortKey) (opts : PruneOptions)
    (plan : PrunePlan) (faults : PruneFaults) (now : Time) (nonce : ℕ)
    (hplan : repo.prunePlan sorter opts = .ok plan) (hagree : repo.PacksAgree)
    (hfresh : FreshFrom repo nonce) (ops : List PruneOp)
    (hops : ops <+: (repo.execute faults plan now nonce).1) :
    (∀ t c, repo.LiveTree t → repo.TreeReferences (repo.pruneIndex sorter).locator t c →
      (∃ loc, repo.Holds c loc ∧ (repo.after now ops).Holds c loc) ∧
      ∀ id, (∀ loc, repo.Holds c loc → loc.pack = id) →
        ∃ loc, loc.pack = id ∧ (repo.after now ops).Holds c loc) ∧
    ∀ t, repo.LiveTree t → ∃ tree, (repo.after now ops).readTree t = .ok tree := by
  obtain ⟨live, h⟩ := planned_of_prunePlan hplan
  obtain ⟨hchunks, htrees⟩ := holds_of_isPrefix h hagree hfresh hops
  refine ⟨fun t c ht hc => ?_, htrees⟩
  obtain ⟨loc, hbefore, hafter⟩ := hchunks t c ht hc
  exact ⟨⟨loc, hbefore, hafter⟩, fun id honly => ⟨loc, honly loc hbefore, hafter⟩⟩

end Planned

/-! ### A repository with one tree -/

/-- The names of the objects. -/
def sampleKeys : RepoKeys where
  chunkId := RepoKeys.ideal.chunkId
  treeId _ := 9
  packId n _ := 100 + n
  objectId
    | .indexBlob n _ => 50 + n
    | _ => 0
  sealedLen := List.length
  packLen := List.length
  encodeList _ := []
  decodeList _ := none

/-- A tree with a file of one chunk. -/
def sampleTree : Tree where
  version := formatVersion
  entries := [{ name := [97], kind := .file, metaKind := .generic, size := 5, chunks := [3] }]
  prev := none

/-- A snapshot of the tree. -/
def sampleSnapshot : Snapshot where
  version := formatVersion
  roots := [⟨[47], 9⟩]
  timeNs := 0
  host := ""
  user := ""
  clientId := 1
  parent := none
  stats := {}

/-- The repository with these index blobs, and with the pack 7. -/
def sampleRepository (blobs : List IndexBlob) : TimedRepository where
  keys := sampleKeys
  config := ⟨⟨1, 2, 3⟩, 10, 0⟩
  store :=
    { packs := Dict.collect [(7, ⟨20, []⟩)]
      indexes := Dict.collect (((List.range blobs.length).zip blobs).map fun b =>
        (50 + b.1, .indexBlob b.1 b.2)).reverse
      trees := Dict.collect [(9, .tree 9 sampleTree)]
      treeReplicas := ∅
      touches := ∅
      marks := ∅
      snapshots := Dict.collect [(⟨1, 0⟩, .snapshot ⟨1, 0⟩ sampleSnapshot)]
      snapshotReplicas := ∅ }
  modified _ _ := 0
  sidecars := []

/-- A prune long after everything was written, which packs nothing anew. -/
def sampleOptions : PruneOptions where
  grace := 1
  inactiveAfter := 1
  clockSkew := 0
  repackBelowPercent := 0
  dryRun := false
  now := 10

/-- Nothing goes wrong. -/
def noFaults : PruneFaults := ⟨fun _ => none, fun _ _ => none⟩

/-- The pack 7 with its chunk, and the pack 8, which does not exist. -/
def sampleBlob : IndexBlob := .new [⟨7, 20, [⟨3, 8, 5, 5⟩]⟩, ⟨8, 20, []⟩]

/-- The pack 7 without its chunk, and the pack 8. -/
def emptyBlob : IndexBlob := .new [⟨7, 20, []⟩, ⟨8, 20, []⟩]

theorem freshFrom_sampleRepository {blobs : List IndexBlob}
    (hkeys : (sampleRepository blobs).store.indexes.keys = [50, 51])
    (hsup : supersededBy (sampleRepository blobs).indexBlobs = []) :
    FreshFrom (sampleRepository blobs) 2 := by
  intro n hn blob
  have hid : (sampleRepository blobs).keys.objectId (.indexBlob n blob) = 50 + n := rfl
  rw [hid, hsup]
  refine ⟨fun hmem => ?_, List.not_mem_nil⟩
  have hmem : 50 + n ∈ (sampleRepository blobs).store.indexes.keys := hmem
  simp only [hkeys, List.mem_cons, Nat.add_eq_left, List.not_mem_nil, or_false] at hmem
  omega

theorem liveTree_sampleRepository (blobs : List IndexBlob) : (sampleRepository blobs).LiveTree 9 :=
  ⟨⟨1, 0⟩, List.mem_singleton_self _, sampleSnapshot, rfl, ⟨[47], 9⟩,
    List.mem_singleton_self _, .refl⟩

theorem treeReferences_sampleRepository (blobs : List IndexBlob) (index : ChunkIndex) :
    (sampleRepository blobs).TreeReferences index 9 3 :=
  ⟨sampleTree, rfl, _, List.mem_singleton_self _, rfl, .inl (List.mem_singleton_self _)⟩

/-- Two blobs that agree on the pack 7, and a prune that writes the index anew without the pack
8. -/
theorem prune_crash_consistent_sampleRepository :
    ∃ plan, (sampleRepository [sampleBlob, sampleBlob]).prunePlan
      (.stable _) sampleOptions = .ok plan ∧
      ∀ ops, ops <+: ((sampleRepository [sampleBlob, sampleBlob]).execute noFaults plan 11 2).1 →
        (∃ loc, loc.pack = 7 ∧
          ((sampleRepository [sampleBlob, sampleBlob]).after 11 ops).Holds 3 loc) ∧
          ∃ tree, ((sampleRepository [sampleBlob, sampleBlob]).after 11 ops).readTree 9 =
            .ok tree := by
  have hsome : ((sampleRepository [sampleBlob, sampleBlob]).prunePlan (.stable _)
      sampleOptions).toOption.isSome := by decide
  have hagree : (sampleRepository [sampleBlob, sampleBlob]).PacksAgree := by
    unfold PacksAgree
    decide
  cases hplan : (sampleRepository [sampleBlob, sampleBlob]).prunePlan (.stable _) sampleOptions with
  | error e =>
    rw [hplan] at hsome
    cases hsome
  | ok plan =>
    refine ⟨plan, rfl, fun ops hops => ?_⟩
    obtain ⟨hchunks, htrees⟩ := prune_crash_consistent _ _ _ plan noFaults 11 2 hplan hagree
      (freshFrom_sampleRepository (by decide) (by decide)) ops hops
    have honly : ∀ loc, (sampleRepository [sampleBlob, sampleBlob]).Holds 3 loc → loc.pack = 7 := by
      rintro loc ⟨⟨p, hp, e, he, hid, rfl⟩, -⟩
      have hpacks : ∀ p ∈ effectivePacks (sampleRepository [sampleBlob, sampleBlob]).indexBlobs,
          ∀ e ∈ p.entries, e.id = 3 → p.pack = 7 := by decide
      exact hpacks p hp e he hid
    exact ⟨(hchunks 9 3 (liveTree_sampleRepository _) (treeReferences_sampleRepository _ _)).2 7
      honly,
      htrees 9 (liveTree_sampleRepository _)⟩

/-- **Blobs that disagree.** The first blob lists the pack 7 without its chunk, the second one with
it. The index that the prune writes has the pack as the first blob lists it. -/
theorem not_prune_crash_consistent :
    ¬∀ (repo : TimedRepository) (sorter : SortedTable.UnstableSort TableRecord.sortKey)
      (opts : PruneOptions) (plan : PrunePlan) (faults : PruneFaults) (now : Time) (nonce : ℕ),
      repo.prunePlan sorter opts = .ok plan → FreshFrom repo nonce →
        ∀ ops, ops <+: (repo.execute faults plan now nonce).1 →
          ∀ t c, repo.LiveTree t → repo.TreeReferences (repo.pruneIndex sorter).locator t c →
            ∃ loc, (repo.after now ops).Holds c loc := by
  intro h
  have hlost : ((sampleRepository [emptyBlob, sampleBlob]).prunePlan (.stable _)
      sampleOptions).toOption.any (fun plan => ∀ p ∈ effectivePacks
        ((sampleRepository [emptyBlob, sampleBlob]).after 11 ((sampleRepository
          [emptyBlob, sampleBlob]).execute noFaults plan 11 2).1).indexBlobs,
            ∀ e ∈ p.entries, e.id ≠ 3) := by decide
  cases hplan : (sampleRepository [emptyBlob, sampleBlob]).prunePlan (.stable _) sampleOptions with
  | error e =>
    rw [hplan] at hlost
    cases hlost
  | ok plan =>
    rw [hplan] at hlost
    obtain ⟨loc, ⟨p, hp, e, he, hid, -⟩, -⟩ := h _ _ _ plan noFaults 11 2 hplan
      (freshFrom_sampleRepository (by decide) (by decide)) _ (List.prefix_refl _) 9 3
      (liveTree_sampleRepository _) (treeReferences_sampleRepository _ _)
    exact of_decide_eq_true hlost p hp e he hid

end TimedRepository

end Kist
