import Kist.Content
import Kist.Prune.Orphans

/-!
# Prunes after the loss of an object

A repository that keeps replicas loses a primary object by accident. The walk of a prune starts at
the snapshots that are listed, which are the primary objects, and reads lost trees through their
replicas.

* `restorable_of_prunes`: complete prunes leave everything that a snapshot needs, as long as its
  trees are reached from the snapshots that are still listed.
* `not_restorable_of_prunes`: a snapshot whose primary object is lost is not listed, and prunes
  delete its trees.
-/

namespace Kist

namespace TimedRepository

/-- The accidental loss of a primary object. -/
def lose (repo : TimedRepository) : Twofold → TimedRepository
  | .tree id => { repo with store.trees := repo.store.trees.erase id }
  | .snapshot key => { repo with store.snapshots := repo.store.snapshots.erase key }

/-- A tree that a snapshot needs. -/
def NeedsTree (repo : TimedRepository) (s : Snapshot) (t : TreeId) : Prop :=
  ∃ root ∈ s.roots, repo.TreeReach root.tree t

/-- A chunk that a snapshot needs: a file entry of one of its trees refers to it. -/
def NeedsChunk (repo : TimedRepository) (s : Snapshot) (c : ChunkId) : Prop :=
  ∃ t tree, repo.NeedsTree s t ∧ repo.readTree t = .ok tree ∧
    ∃ node ∈ tree.entries, node.kind = .file ∧ node.fileContent.Refers repo.keys c

/-- Everything that a snapshot needs is there. -/
structure Restorable (repo : TimedRepository) (key : SnapshotKey) (s : Snapshot) : Prop where
  snapshot : repo.readSnapshot key = .ok s
  trees : ∀ t, repo.NeedsTree s t → ∃ tree, repo.readTree t = .ok tree
  chunks : ∀ c, repo.NeedsChunk s c → ∃ loc, repo.Holds c loc

/-- The replica of an object is as good as the object. -/
def ReplicaRemains (repo : TimedRepository) : Twofold → Prop
  | .tree id => repo.readTreeOnce (.treeReplica id) id = repo.readTree id
  | .snapshot key => repo.store.snapshotReplicas.lookup key = repo.store.snapshots.lookup key

/-- All index blobs, effective or not, agree on what is in a pack. -/
def BlobsAgree (repo : TimedRepository) : Prop :=
  ∀ b ∈ repo.indexBlobs, ∀ p ∈ b.2.packs, ∀ b' ∈ repo.indexBlobs, ∀ q ∈ b'.2.packs,
    p.pack = q.pack → p.entries = q.entries

/-- No pack that is sealed from here on has a name that is listed. -/
def FreshPacks (repo : TimedRepository) (nonce : ℕ) : Prop :=
  ∀ n, nonce ≤ n → ∀ chunks, ∀ b ∈ repo.indexBlobs, ∀ p ∈ b.2.packs,
    p.pack ≠ repo.keys.packId n chunks

/-- A complete prune, which seals its objects under new names. -/
def Pruned (repo repo' : TimedRepository) : Prop :=
  ∃ sorter opts plan faults now nonce, repo.prunePlan sorter opts = .ok plan ∧
    FreshFrom repo nonce ∧ FreshPacks repo nonce ∧
    repo' = repo.after now (repo.execute faults plan now nonce).1

/-- Any number of complete prunes. -/
abbrev Prunes : TimedRepository → TimedRepository → Prop := Relation.ReflTransGen Pruned

/-! ### Trees that read alike -/

section Congr

variable {repo repo' : TimedRepository} {root t : TreeId} {key : SnapshotKey} {s : Snapshot}

/-- From a root below which both repositories read the same, the same trees are reached. -/
theorem treeReach_congr (h : ∀ t, repo.TreeReach root t → repo'.readTree t = repo.readTree t) :
    repo'.TreeReach root t ↔ repo.TreeReach root t := by
  constructor
  · intro hr
    induction hr with
    | refl => exact .refl
    | tail _ hedge ih =>
      obtain ⟨tree, hread, hnext⟩ := hedge
      exact ih.tail ⟨tree, (h _ ih).symm.trans hread, hnext⟩
  · intro hr
    induction hr with
    | refl => exact .refl
    | tail hr hedge ih =>
      obtain ⟨tree, hread, hnext⟩ := hedge
      exact ih.tail ⟨tree, (h _ hr).trans hread, hnext⟩

theorem needsTree_congr (h : ∀ t, repo.NeedsTree s t → repo'.readTree t = repo.readTree t) :
    repo'.NeedsTree s t ↔ repo.NeedsTree s t := by
  constructor
  · rintro ⟨root, hroot, hr⟩
    exact ⟨root, hroot, (treeReach_congr fun t ht => h t ⟨root, hroot, ht⟩).1 hr⟩
  · rintro ⟨root, hroot, hr⟩
    exact ⟨root, hroot, (treeReach_congr fun t ht => h t ⟨root, hroot, ht⟩).2 hr⟩

theorem needsChunk_congr {c : ChunkId} (hkeys : repo'.keys = repo.keys)
    (h : ∀ t, repo.NeedsTree s t → repo'.readTree t = repo.readTree t) :
    repo'.NeedsChunk s c ↔ repo.NeedsChunk s c := by
  simp only [NeedsChunk, hkeys]
  refine exists_congr fun t => exists_congr fun tree => ?_
  rw [needsTree_congr h]
  exact and_congr_right fun ht => by rw [h t ht]

theorem readSnapshot_congr (hs : repo'.store.snapshots.lookup key = repo.store.snapshots.lookup key)
    (hr : repo'.store.snapshotReplicas.lookup key = repo.store.snapshotReplicas.lookup key) :
    repo'.readSnapshot key = repo.readSnapshot key := by
  unfold Repository.readSnapshot
  rw [hs, hr]

end Congr

/-! ### What a loss leaves -/

section Lose

variable {repo : TimedRepository} {object : Twofold} {key : SnapshotKey} {s : Snapshot} {t : TreeId}
  {tree : Tree}

theorem readTree_lose (hreplica : repo.ReplicaRemains object) (h : repo.readTree t = .ok tree) :
    (repo.lose object).readTree t = .ok tree := by
  cases object with
  | snapshot key => exact h
  | tree id =>
    by_cases ht : t = id
    · subst ht
      have hnone : (repo.lose (.tree t)).readTreeOnce (.tree t) t = .error
        (.notFound (.tree t)) := by
        have hget : (repo.lose (.tree t)).store.getSealed (.tree t) = none := AList.lookup_erase _ _
        rw [Repository.readTreeOnce, hget]
      have hsome : (repo.lose (.tree t)).readTreeOnce (.treeReplica t) t = .ok tree :=
        hreplica.trans h
      rw [Repository.readTree, hnone]
      dsimp only
      rw [hsome]
    · have hsame : (repo.lose (.tree id)).readTree t = repo.readTree t :=
        readTree_congr rfl (AList.lookup_erase_ne ht) rfl
      exact hsame.trans h

theorem readSnapshot_lose (hreplica : repo.ReplicaRemains object) :
    (repo.lose object).readSnapshot key = repo.readSnapshot key := by
  cases object with
  | tree id => rfl
  | snapshot k =>
    by_cases hk : key = k
    · subst hk
      have hor : ((repo.lose (.snapshot key)).store.snapshots.lookup key).or
          ((repo.lose (.snapshot key)).store.snapshotReplicas.lookup key) =
            (repo.store.snapshots.lookup key).or (repo.store.snapshotReplicas.lookup key) := by
        have hnone : (repo.lose (.snapshot key)).store.snapshots.lookup key = none :=
          AList.lookup_erase _ _
        have hsame : (repo.lose (.snapshot key)).store.snapshotReplicas.lookup key =
            repo.store.snapshots.lookup key := hreplica
        rw [hnone, hsame, Option.none_or, show repo.store.snapshotReplicas.lookup key =
          _ from hreplica,
          Option.or_self]
      unfold Repository.readSnapshot
      rw [hor]
    · exact readSnapshot_congr (AList.lookup_erase_ne hk) rfl

theorem holds_lose {c : ChunkId} {loc : ChunkLocation} :
    (repo.lose object).Holds c loc ↔ repo.Holds c loc := by
  cases object <;> rfl

theorem keys_lose : (repo.lose object).keys = repo.keys := by
  cases object <;> rfl

/-- A loss changes nothing for what can be read through replicas. -/
theorem Restorable.lose (h : repo.Restorable key s) (hreplica : repo.ReplicaRemains object) :
    (repo.lose object).Restorable key s := by
  have hsame : ∀ t, repo.NeedsTree s t → (repo.lose object).readTree t = repo.readTree t := by
    intro t ht
    obtain ⟨tree, hread⟩ := h.trees t ht
    rw [hread, readTree_lose hreplica hread]
  refine ⟨(readSnapshot_lose hreplica).trans h.snapshot, fun t ht => ?_, fun c hc => ?_⟩
  · have ht := (needsTree_congr hsame).1 ht
    obtain ⟨tree, hread⟩ := h.trees t ht
    exact ⟨tree, readTree_lose hreplica hread⟩
  · obtain ⟨loc, hloc⟩ := h.chunks c ((needsChunk_congr keys_lose hsame).1 hc)
    exact ⟨loc, holds_lose.2 hloc⟩

end Lose

/-! ### What prunes leave -/

/-- What prunes leave of what was there before them. -/
structure Kept (base : TimedRepository) (s : Snapshot) (repo : TimedRepository) : Prop where
  keys : repo.keys = base.keys
  snapshots : repo.store.snapshots = base.store.snapshots
  snapshotReplicas : repo.store.snapshotReplicas = base.store.snapshotReplicas
  trees : ∀ t, base.LiveTree t → repo.store.trees.lookup t = base.store.trees.lookup t
  treeReplicas : ∀ t, base.LiveTree t →
    repo.store.treeReplicas.lookup t = base.store.treeReplicas.lookup t
  agree : repo.BlobsAgree
  chunks : ∀ c, base.NeedsChunk s c → ∃ loc, repo.Holds c loc

section Prunes

variable {base repo repo' : TimedRepository} {key : SnapshotKey} {s : Snapshot}

theorem Kept.readTree (h : Kept base s repo) {t : TreeId} (ht : base.LiveTree t) :
    repo.readTree t = base.readTree t :=
  readTree_congr h.keys (h.trees t ht) (h.treeReplicas t ht)

theorem Kept.liveTree (h : Kept base s repo) {t : TreeId} (ht : base.LiveTree t) :
    repo.LiveTree t := by
  obtain ⟨k, hk, snap, hread, root, hroot, hr⟩ := ht
  have hlist : repo.listSnapshotKeys = base.listSnapshotKeys := by
    unfold Repository.listSnapshotKeys
    rw [h.snapshots]
  refine ⟨k, hlist ▸ hk, snap, ?_, root, hroot, ?_⟩
  · exact (readSnapshot_congr (by rw [h.snapshots]) (by rw [h.snapshotReplicas])).trans hread
  · exact (treeReach_congr fun t ht => h.readTree ⟨k, hk, snap, hread, root, hroot, ht⟩).2 hr

theorem BlobsAgree.packsAgree (h : repo.BlobsAgree) : repo.PacksAgree := by
  intro p hp q hq
  obtain ⟨b, hb, hpb⟩ := mem_effectivePacks.1 hp
  obtain ⟨b', hb', hqb⟩ := mem_effectivePacks.1 hq
  exact h b (mem_effective.1 hb).1 p hpb b' (mem_effective.1 hb').1 q hqb

/-- A pack that the new blob lists was listed before, or is new. -/
theorem mem_newBlob {sorter : SortedTable.UnstableSort TableRecord.sortKey} {opts : PruneOptions}
    {live : Dict ObjectId ℕ} {plan : PrunePlan} {newPacks : List IndexPack} {p : IndexPack}
    (hp : Planned repo sorter opts live plan) (h : p ∈ (plan.newBlob newPacks).packs) :
    p ∈ newPacks ∨ p ∈ effectivePacks repo.indexBlobs := by
  have hkept : ∀ marked, p ∈ plan.keptPacks marked → p ∈ effectivePacks repo.indexBlobs := by
    intro marked hmem
    rw [PrunePlan.keptPacks, List.mem_insertionSort] at hmem
    obtain ⟨⟨id, q⟩, hq, rfl⟩ := List.mem_map.1 (List.mem_filter.1 hmem).1
    have hlookup : plan.indexed.lookup id = some q := AList.mem_lookup_iff.2 hq
    rw [hp.indexed, lookup_indexPacks] at hlookup
    exact List.mem_of_find?_eq_some hlookup
  have hall : p ∈ newPacks ++ plan.keptPacks false ++ plan.keptPacks true := h
  rcases List.mem_append.1 hall with hmem | hmem
  · exact (List.mem_append.1 hmem).imp_right (hkept _)
  · exact .inr (hkept _ hmem)

/-- The blobs still agree after a prune. -/
theorem BlobsAgree.after {sorter : SortedTable.UnstableSort TableRecord.sortKey}
    {opts : PruneOptions} {live : Dict ObjectId ℕ} {plan : PrunePlan} {faults : PruneFaults}
    {now : Time} {nonce : ℕ} (h : repo.BlobsAgree) (hp : Planned repo sorter opts live plan)
    (hfresh : FreshFrom repo nonce) (hpacks : FreshPacks repo nonce)
    (hnames : ∀ n n' chunks chunks', repo.keys.packId n chunks = repo.keys.packId n' chunks' →
      n = n') :
    (repo.after now (repo.execute faults plan now nonce).1).BlobsAgree := by
  obtain ⟨hname, hne⟩ := @out_repackPacks repo faults plan nonce hnames
  have hspared : (scope hp faults hfresh).Spared
      (repo.after now (repo.execute faults plan now nonce).1) :=
    @Scope.Spared.after (scope hp faults hfresh) _ _ _ Scope.spared_refl
      (spares_execute hp hfresh)
  -- a listed pack was listed before, or is a new one
  have horigin : ∀ b ∈ (repo.after now (repo.execute faults plan now nonce).1).indexBlobs,
      ∀ p ∈ b.2.packs, (∃ b ∈ repo.indexBlobs, p ∈ b.2.packs) ∨
        p ∈ (repo.repackPacks faults plan nonce).out.map Prod.fst := by
    intro b hb p hpb
    rcases hspared.mem_indexBlobs hb with hold | ⟨-, hopen⟩
    · exact .inl ⟨b, hold, hpb⟩
    · have hopen : some (plan.newBlob ((repo.repackPacks faults plan nonce).out.map Prod.fst)) =
          some b.2 := hopen
      rw [← Option.some.inj hopen] at hpb
      rcases mem_newBlob hp hpb with hnew | hold
      · exact .inr hnew
      · obtain ⟨b, hb, hpb⟩ := mem_effectivePacks.1 hold
        exact .inl ⟨b, (mem_effective.1 hb).1, hpb⟩
  have hapart : ∀ p ∈ (repo.repackPacks faults plan nonce).out.map Prod.fst,
      ∀ b ∈ repo.indexBlobs, ∀ q ∈ b.2.packs, q.pack ≠ p.pack := by
    intro p hp b hb q hq
    obtain ⟨r, hr, rfl⟩ := List.mem_map.1 hp
    obtain ⟨n, chunks, hn, he⟩ := hname r hr
    rw [he]
    exact hpacks n hn chunks b hb q hq
  intro b hb p hpb b' hb' q hqb heq
  rcases horigin b hb p hpb with ⟨a, ha, hpa⟩ | hpnew
  · rcases horigin b' hb' q hqb with ⟨a', ha', hqa⟩ | hqnew
    · exact h a ha p hpa a' ha' q hqa heq
    · exact absurd heq (hapart q hqnew a ha p hpa)
  · rcases horigin b' hb' q hqb with ⟨a', ha', hqa⟩ | hqnew
    · exact absurd heq.symm (hapart p hpnew a' ha' q hqa)
    · obtain ⟨r, hr, rfl⟩ := List.mem_map.1 hpnew
      obtain ⟨r', hr', rfl⟩ := List.mem_map.1 hqnew
      by_contra hdiff
      have hrr : r ≠ r' := fun he => hdiff (by rw [he])
      have : Std.Symm fun p q : IndexPack × Pack => p.1.pack ≠ q.1.pack := ⟨fun _ _ => Ne.symm⟩
      exact hne.forall hr hr' hrr heq

/-- **One prune.** -/
theorem Kept.pruned (hinj : Function.Injective base.keys.chunkId)
    (hnames : ∀ n n' chunks chunks',
      base.keys.packId n chunks = base.keys.packId n' chunks' → n = n')
    (hneeds : ∀ t, base.NeedsTree s t → base.LiveTree t) (h : Kept base s repo)
    (hp : Pruned repo repo') : Kept base s repo' := by
  obtain ⟨sorter, opts, plan, faults, now, nonce, hplan, hfresh, hpacks, rfl⟩ := hp
  obtain ⟨live, hp⟩ := planned_of_prunePlan hplan
  have hspared : (scope hp faults hfresh).Spared
      (repo.after now (repo.execute faults plan now nonce).1) :=
    @Scope.Spared.after (scope hp faults hfresh) _ _ _ Scope.spared_refl
      (spares_execute hp hfresh)
  have hwalk := Repository.walkReferences_eq repo.toRepository (repo.pruneIndex sorter).locator
  -- the trees that were live at the start are still found by this prune's walk, so it spares them
  have hfound : ∀ t, base.LiveTree t →
      t ∈ (repo.reachability (repo.pruneIndex sorter).locator).liveTrees := fun t ht =>
    ((Repository.walkReferences_spec hwalk hp.resolved).1 t).2 (h.liveTree ht)
  obtain ⟨hsnapshots, hreplicas⟩ := @snapshots_after repo now
    (repo.execute faults plan now nonce).1
  exact
    { keys := hspared.keys.trans h.keys
      snapshots := hsnapshots.trans h.snapshots
      snapshotReplicas := hreplicas.trans h.snapshotReplicas
      trees := fun t ht => (hspared.trees t (hfound t ht)).trans (h.trees t ht)
      treeReplicas := fun t ht => (hspared.replicas t (hfound t ht)).trans (h.treeReplicas t ht)
      agree := h.agree.after hp hfresh hpacks fun n n' chunks chunks' he =>
        hnames n n' chunks chunks' (by rw [← h.keys]; exact he)
      chunks := by
        rintro c ⟨t, tree, ht, hread, node, hnode, hfile, hrefers⟩
        have hlive := h.liveTree (hneeds t ht)
        have hread' := (h.readTree (hneeds t ht)).trans hread
        have hdone := Repository.done_of_walkReferences hwalk hp.resolved t (hfound t (hneeds t ht))
        have hrefs : repo.TreeReferences (repo.pruneIndex sorter).locator t c := by
          refine ⟨tree, hread', node, hnode, hfile, ?_⟩
          cases hrefers with
          | listed hc => exact .inl hc
          | @spelled ids hkind hs hc =>
            obtain ⟨ids', hids⟩ := hdone.resolved tree hread' node hnode hfile
            have hindirect : node.content = .indirect := hkind
            have hs' : base.keys.Spells node.chunks ids' := by
              rw [hindirect] at hids
              rw [← h.keys]
              exact Repository.spells_of_resolveChunks hids
            rw [hs.unique hinj hs'] at hc
            exact .inr ⟨ids', hids, hc⟩
        obtain ⟨loc, -, hloc⟩ := (holds_of_isPrefix hp h.agree.packsAgree hfresh
          (List.prefix_refl _)).1 t c hlive hrefs
        exact ⟨loc, hloc⟩ }

theorem Kept.prunes (hinj : Function.Injective base.keys.chunkId)
    (hnames : ∀ n n' chunks chunks',
      base.keys.packId n chunks = base.keys.packId n' chunks' → n = n')
    (hneeds : ∀ t, base.NeedsTree s t → base.LiveTree t) (h : Kept base s repo)
    (hruns : Prunes repo repo') : Kept base s repo' := by
  induction hruns with
  | refl => exact h
  | tail _ hp ih => exact ih.pruned hinj hnames hneeds hp

/-- What is kept is restorable. -/
theorem Kept.restorable (h : Kept base s repo) (hneeds : ∀ t, base.NeedsTree s t → base.LiveTree t)
    (hbase : base.Restorable key s) : repo.Restorable key s := by
  have hsame : ∀ t, base.NeedsTree s t → repo.readTree t = base.readTree t := fun t ht =>
    h.readTree (hneeds t ht)
  refine ⟨?_, fun t ht => ?_, fun c hc => h.chunks c ((needsChunk_congr h.keys hsame).1 hc)⟩
  · exact (readSnapshot_congr (by rw [h.snapshots]) (by rw [h.snapshotReplicas])).trans
      hbase.snapshot
  · have ht := (needsTree_congr hsame).1 ht
    rw [hsame t ht]
    exact hbase.trees t ht

/-- The trees of a listed snapshot are reached from a listed snapshot after the loss of another
object. -/
theorem liveTree_lose {object : Twofold} (h : repo.Restorable key s)
    (hreplica : repo.ReplicaRemains object) (hlisted : key ∈ repo.store.snapshots)
    (hother : object ≠ .snapshot key) {t : TreeId} (ht : repo.NeedsTree s t) :
    (repo.lose object).LiveTree t := by
  have hkey : key ∈ (repo.lose object).store.snapshots := by
    cases object with
    | tree id => exact hlisted
    | snapshot k => exact AList.mem_erase.2 ⟨fun he => hother (by rw [he]), hlisted⟩
  have hsame : ∀ t, repo.NeedsTree s t → (repo.lose object).readTree t = repo.readTree t := by
    intro t ht
    obtain ⟨tree, hread⟩ := h.trees t ht
    rw [hread, readTree_lose hreplica hread]
  obtain ⟨root, hroot, hr⟩ := (needsTree_congr hsame).2 ht
  refine ⟨key, ?_, s, (h.lose hreplica).snapshot, root, hroot, hr⟩
  rw [Repository.listSnapshotKeys, List.mem_insertionSort]
  exact hkey

/-- **Replicas and prunes.** A snapshot is there with everything it needs, and one primary object is
lost whose replica remains. If this is not the snapshot itself, or if all of its trees are also
reached from snapshots that are still listed, then it is there with everything it needs after any
number of complete prunes, and none of its trees and none of their replicas has been deleted. -/
theorem restorable_of_prunes (repo repo' : TimedRepository) (key : SnapshotKey) (s : Snapshot)
    (object : Twofold) (hinj : Function.Injective repo.keys.chunkId)
    (hnames : ∀ n n' chunks chunks',
      repo.keys.packId n chunks = repo.keys.packId n' chunks' → n = n')
    (h : repo.Restorable key s) (hlisted : key ∈ repo.store.snapshots) (hagree : repo.BlobsAgree)
    (hreplica : repo.ReplicaRemains object)
    (hcond : object ≠ .snapshot key ∨ ∀ t, repo.NeedsTree s t → (repo.lose object).LiveTree t)
    (hruns : Prunes (repo.lose object) repo') :
    repo'.Restorable key s ∧ ∀ t, repo.NeedsTree s t →
      repo'.store.trees.lookup t = (repo.lose object).store.trees.lookup t ∧
      repo'.store.treeReplicas.lookup t = (repo.lose object).store.treeReplicas.lookup t := by
  have hlose := h.lose hreplica
  have hlive : ∀ t, repo.NeedsTree s t → (repo.lose object).LiveTree t := by
    rcases hcond with hother | hall
    · exact fun t ht => liveTree_lose h hreplica hlisted hother ht
    · exact hall
  have hsame : ∀ t, repo.NeedsTree s t → (repo.lose object).readTree t = repo.readTree t := by
    intro t ht
    obtain ⟨tree, hread⟩ := h.trees t ht
    rw [hread, readTree_lose hreplica hread]
  have hneeds : ∀ t, (repo.lose object).NeedsTree s t → (repo.lose object).LiveTree t := fun t ht =>
    hlive t ((needsTree_congr hsame).1 ht)
  have hagree' : (repo.lose object).BlobsAgree := by
    cases object <;> exact hagree
  have hstart : Kept (repo.lose object) s (repo.lose object) :=
    ⟨rfl, rfl, rfl, fun _ _ => rfl, fun _ _ => rfl, hagree', hlose.chunks⟩
  have hkept := hstart.prunes (by rwa [keys_lose]) (by rwa [keys_lose]) hneeds hruns
  exact ⟨hkept.restorable hneeds hlose, fun t ht =>
    ⟨hkept.trees t (hlive t ht), hkept.treeReplicas t (hlive t ht)⟩⟩

end Prunes

/-! ### A lost snapshot -/

/-- The repository with one tree, with the replicas of the tree and of its snapshot. -/
def replicatedRepository : TimedRepository :=
  let repo := sampleRepository [.new [⟨7, 20, [⟨3, 8, 5, 5⟩]⟩]]
  { repo with
    config.replicas := 1
    store.treeReplicas := Dict.collect [(9, .tree 9 sampleTree)]
    store.snapshotReplicas := Dict.collect [(⟨1, 0⟩, .snapshot ⟨1, 0⟩ sampleSnapshot)] }

/-- A prune of a repository with the names of the sample. -/
def pruneAt (repo : TimedRepository) (now : Time) (nonce : ℕ) : Option TimedRepository :=
  (repo.prunePlan (.stable _) { sampleOptions with now }).toOption.map fun plan =>
    repo.after now (repo.execute noFaults plan now nonce).1

/-- The names in use are those of objects that were sealed before. -/
def NamesBelow (repo : TimedRepository) (nonce : ℕ) : Prop :=
  (∀ id ∈ repo.store.indexes.keys, id < 50 + nonce) ∧
    (∀ id ∈ supersededBy repo.indexBlobs, id < 50 + nonce) ∧
    ∀ b ∈ repo.indexBlobs, ∀ p ∈ b.2.packs, p.pack < 100 + nonce

instance (repo : TimedRepository) (nonce : ℕ) : Decidable (NamesBelow repo nonce) := by
  unfold NamesBelow
  infer_instance

theorem pruned_pruneAt {repo repo' : TimedRepository} {now : Time} {nonce : ℕ}
    (hkeys : repo.keys = sampleKeys) (hbelow : NamesBelow repo nonce)
    (h : repo.pruneAt now nonce = some repo') : Pruned repo repo' ∧ repo'.keys = sampleKeys := by
  obtain ⟨hindexes, hsup, hpacks⟩ := hbelow
  have hfresh : FreshFrom repo nonce := by
    intro n hn blob
    rw [hkeys]
    constructor
    · exact fun hmem => (Nat.lt_of_add_lt_add_left (hindexes (50 + n) hmem)).not_ge hn
    · exact fun hmem => (Nat.lt_of_add_lt_add_left (hsup (50 + n) hmem)).not_ge hn
  have hfreshPacks : FreshPacks repo nonce := by
    intro n hn chunks b hb p hp he
    rw [hkeys] at he
    have hlt := hpacks b hb p hp
    rw [he] at hlt
    exact (Nat.lt_of_add_lt_add_left hlt).not_ge hn
  obtain ⟨plan, hplan, rfl⟩ := Option.map_eq_some_iff.1 h
  have hplan : repo.prunePlan (.stable _) { sampleOptions with now } = .ok plan := by
    cases hres : repo.prunePlan (.stable _) { sampleOptions with now } with
    | error e =>
      rw [hres] at hplan
      cases hplan
    | ok plan' =>
      rw [hres] at hplan
      rw [Option.some.inj hplan]
  obtain ⟨live, hp⟩ := planned_of_prunePlan hplan
  have hspared : (scope hp noFaults hfresh).Spared
      (repo.after now (repo.execute noFaults plan now nonce).1) :=
    @Scope.Spared.after (scope hp noFaults hfresh) _ _ _ Scope.spared_refl
      (spares_execute hp hfresh)
  exact ⟨⟨_, _, plan, noFaults, now, nonce, hplan, hfresh, hfreshPacks, rfl⟩,
    hspared.keys.trans hkeys⟩

theorem treeReach_replicatedRepository {t : TreeId} (h : replicatedRepository.TreeReach 9 t) :
    t = 9 := by
  induction h with
  | refl => rfl
  | tail _ hedge ih =>
    subst ih
    obtain ⟨tree, hread, hnext⟩ := hedge
    obtain rfl : sampleTree = tree := Except.ok.inj hread
    rcases hnext with h | ⟨node, hnode, hdir, -⟩
    · cases h
    · obtain rfl := List.mem_singleton.1 hnode
      cases hdir

theorem restorable_replicatedRepository :
    replicatedRepository.Restorable ⟨1, 0⟩ sampleSnapshot := by
  have hneeds : ∀ t, replicatedRepository.NeedsTree sampleSnapshot t → t = 9 := by
    rintro t ⟨root, hroot, hr⟩
    obtain rfl := List.mem_singleton.1 hroot
    exact treeReach_replicatedRepository hr
  refine ⟨rfl, fun t ht => ?_, ?_⟩
  · rw [hneeds t ht]
    exact ⟨sampleTree, rfl⟩
  · rintro c ⟨t, tree, ht, hread, node, hnode, -, hrefers⟩
    obtain rfl := hneeds t ht
    obtain rfl : sampleTree = tree := Except.ok.inj hread
    obtain rfl := List.mem_singleton.1 hnode
    cases hrefers with
    | listed hc =>
      obtain rfl := List.mem_singleton.1 hc
      exact ⟨⟨7, 8, 5, 5⟩, by unfold Lists; decide, by decide⟩
    | spelled hkind => cases hkind

/-- The loss of a tree. -/
theorem restorable_of_prunes_replicatedRepository :
    ((replicatedRepository.lose (.tree 9)).pruneAt 11 1).isSome ∧
      ∀ repo', (replicatedRepository.lose (.tree 9)).pruneAt 11 1 = some repo' →
        repo'.Restorable ⟨1, 0⟩ sampleSnapshot := by
  refine ⟨by decide, fun repo' h => ?_⟩
  have hruns := (pruned_pruneAt rfl (by decide) h).1
  refine (restorable_of_prunes replicatedRepository repo' ⟨1, 0⟩ sampleSnapshot (.tree 9)
    RepoKeys.chunkId_ideal_injective (fun n n' _ _ he => Nat.add_left_cancel he)
    restorable_replicatedRepository (by decide) (by unfold BlobsAgree; decide) rfl
    (.inl (by simp)) (.single hruns)).1

/-- **A snapshot that is lost**: two prunes delete its tree. -/
theorem not_restorable_of_prunes :
    ¬∀ (repo repo' : TimedRepository) (key : SnapshotKey) (s : Snapshot) (object : Twofold),
      Function.Injective repo.keys.chunkId →
      (∀ n n' chunks chunks', repo.keys.packId n chunks = repo.keys.packId n' chunks' → n = n') →
      repo.Restorable key s → key ∈ repo.store.snapshots → repo.BlobsAgree →
      (object = .snapshot key ∨ ∃ t, object = .tree t ∧ repo.NeedsTree s t) →
      repo.ReplicaRemains object → Prunes (repo.lose object) repo' → repo'.Restorable key s := by
  intro h
  have hlost : ((replicatedRepository.lose (.snapshot ⟨1, 0⟩)).pruneAt 11 1).any (fun repo =>
      NamesBelow repo 2 && (repo.pruneAt 21 2).any fun repo =>
        (repo.readTree 9).toOption.isNone) := by
    decide
  obtain ⟨repo₁, h₁, hlost⟩ := (Option.any_eq_true _ _).1 hlost
  obtain ⟨hbelow, hlost⟩ := Bool.and_eq_true_iff.1 hlost
  obtain ⟨repo₂, h₂, hlost⟩ := (Option.any_eq_true _ _).1 hlost
  obtain ⟨hruns₁, hkeys₁⟩ := pruned_pruneAt rfl (by decide) h₁
  obtain ⟨hruns₂, -⟩ := pruned_pruneAt hkeys₁ (of_decide_eq_true hbelow) h₂
  have hrestorable := h replicatedRepository repo₂ ⟨1, 0⟩ sampleSnapshot (.snapshot ⟨1, 0⟩)
    RepoKeys.chunkId_ideal_injective (fun n n' _ _ he => Nat.add_left_cancel he)
    restorable_replicatedRepository (by decide) (by unfold BlobsAgree; decide) (.inl rfl) rfl
    (.tail (.single hruns₁) hruns₂)
  obtain ⟨tree, hread⟩ := hrestorable.trees 9 ⟨⟨[47], 9⟩, List.mem_singleton_self _, .refl⟩
  rw [hread] at hlost
  cases hlost

end TimedRepository

end Kist
