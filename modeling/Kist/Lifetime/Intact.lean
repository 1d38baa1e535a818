import Kist.Lifetime.Contents
import Kist.Prune.Crash

/-!
# Repositories in which every snapshot can be read

What is to hold of a repository at any time, whoever is at work on it, and what follows from it:
every file of every snapshot can be read.

* `TimedRepository.Sound`: the packs hold what the index lists, and the index blobs form an order.
* `TimedRepository.Serves`: all that a root needs is there; `Serves.reads`: so it can be read.
* `TimedRepository.Intact`: it serves all roots of all snapshots.
* `TimedRepository.Keeps`: what a step may take away, and what it leaves.
-/

namespace Kist

open Checked (bind_eq_ok)

/-! ### Names -/

/-- What is taken for granted of the names and the lengths that depend on the keys: no two chunks
and no two trees have one name, no two packs that are sealed under different nonces, nothing is
sealed into no bytes, and a chunk list is decoded as it was encoded. -/
structure RepoKeys.Faithful (keys : RepoKeys) : Prop where
  chunk : Function.Injective keys.chunkId
  tree : Function.Injective keys.treeId
  pack : ∀ n n' chunks chunks', keys.packId n chunks = keys.packId n' chunks' → n = n'
  pending : ∀ n chunks, keys.packId n chunks ≠ pendingPack
  sealed : ∀ plain, 0 < keys.sealedLen plain
  decode : ∀ l, keys.decodeList (keys.encodeList l) = some l

/-- A file in a tree that the root reaches refers to the chunk. -/
def RepoKeys.Needs (keys : RepoKeys) (root : TreeId) (x : ChunkId) : Prop :=
  ∃ t e, keys.Reaches root (keys.treeId t) ∧ e ∈ t.entries ∧ e.kind = .file ∧
    e.fileContent.Refers keys x

section Reaches

variable {keys : RepoKeys} {root id id' : TreeId}

theorem RepoKeys.Reaches.trans (h : keys.Reaches root id) (h' : keys.Reaches id id') :
    keys.Reaches root id' := by
  induction h' with
  | refl => exact h
  | prev _ ht hp ih => exact .prev ih ht hp
  | sub _ ht he hk ih => exact .sub ih ht he hk

theorem reaches_of_segment {t : Tree} (h : Segment (Backup.Hashes keys) id t) :
    keys.Reaches id (keys.treeId t) := by
  induction h with
  | last ht => exact ht ▸ .refl
  | prev ht hp _ ih => exact .trans (.prev .refl ht hp) ih

theorem reaches_of_contains {path : List Bytes} {e : Entry}
    (h : Contains (Backup.Hashes keys) id path e) :
    ∃ t, keys.Reaches id (keys.treeId t) ∧ e ∈ t.entries := by
  induction h with
  | here hs he => exact ⟨_, reaches_of_segment hs, he⟩
  | deeper hs he hk _ ih =>
    obtain ⟨t, ht, he'⟩ := ih
    exact ⟨t, .trans (.sub (reaches_of_segment hs) rfl he hk) ht, he'⟩

/-- What is reached by reading is reached. -/
theorem Repository.reaches_of_treeReach {repo : Repository} (h : repo.TreeReach root id) :
    repo.keys.Reaches root id := by
  induction h with
  | refl => exact .refl
  | tail _ hedge ih =>
    obtain ⟨t, ht, hp | ⟨e, he, hk, -, rfl⟩⟩ := hedge
    · exact .prev ih (HasTree.treeId_eq ht) hp
    · exact .sub ih (HasTree.treeId_eq ht) he hk

end Reaches

/-! ### The index -/

/-- Where nothing comes before itself, an element that another one comes before has one before it
that none comes before. -/
theorem exists_first_of_transitive {α : Type*} {l : List α} {r : α → α → Prop}
    (hirrefl : ∀ a ∈ l, ¬r a a) (htrans : ∀ a ∈ l, ∀ b ∈ l, ∀ c ∈ l, r a b → r b c → r a c) {x : α}
    (hx : x ∈ l) (h : ∃ a ∈ l, r a x) : ∃ a ∈ l, r a x ∧ ∀ b ∈ l, ¬r b a := by
  let s (a b : {a // a ∈ l}) : Prop := r a.1 b.1
  have : Std.Irrefl s := ⟨fun a => hirrefl a.1 a.2⟩
  have : IsTrans {a // a ∈ l} s := ⟨fun a b c => htrans a.1 a.2 b.1 b.2 c.1 c.2⟩
  have : Finite {a // a ∈ l} := List.finite_toSet l
  have hwf : WellFounded s := Finite.wellFounded_of_trans_of_irrefl s
  obtain ⟨a₀, ha₀, hr⟩ := h
  obtain ⟨a, ha, hmin⟩ := hwf.has_min {a | r a.1 x} ⟨⟨a₀, ha₀⟩, hr⟩
  exact ⟨a.1, a.2, ha, fun b hb hba => hmin ⟨b, hb⟩ (htrans b hb a.1 a.2 x hx hba ha) hba⟩

namespace TimedRepository

variable {repo repo' : TimedRepository} {x : ChunkId} {root : TreeId}

/-- An index blob that counts lists the chunk. -/
def Indexed (repo : TimedRepository) (x : ChunkId) : Prop :=
  ∃ loc, Lists (effectivePacks repo.indexBlobs) x loc

/-- What holds of the packs and the index blobs: the blobs can be read, the packs hold what they
list, and the blobs that count list nothing else; and a blob that replaces another one replaces all
that this one has replaced. -/
structure Sound (repo : TimedRepository) : Prop where
  readable : repo.indexErrors = []
  packs : ∀ id p, repo.store.packs.lookup id = some p →
    p.Sound repo.keys repo.config.chunker.max ∧ id ≠ pendingPack
  listed : ∀ q ∈ effectivePacks repo.indexBlobs,
    ∃ p, repo.store.packs.lookup q.pack = some p ∧ q.entries = p.chunks.map Prod.fst
  irrefl : ∀ b ∈ repo.indexBlobs, b.1 ∉ b.2.supersedes
  chain : ∀ b ∈ repo.indexBlobs, ∀ b' ∈ repo.indexBlobs, b'.1 ∈ b.2.supersedes →
    ∀ b'' ∈ repo.indexBlobs, b''.1 ∈ b'.2.supersedes → b''.1 ∈ b.2.supersedes

/-- A blob that was replaced was replaced by one that counts. -/
theorem Sound.superseded (h : repo.Sound) {b : ObjectId × IndexBlob} (hb : b ∈ repo.indexBlobs)
    (hsup : b.1 ∈ supersededBy repo.indexBlobs) :
    ∃ a ∈ effective repo.indexBlobs, b.1 ∈ a.2.supersedes := by
  obtain ⟨a, ha, hmem, hfirst⟩ := exists_first_of_transitive
    (r := fun a b : ObjectId × IndexBlob => b.1 ∈ a.2.supersedes) h.irrefl
    (fun a ha b hb c hc hab hbc => h.chain a ha b hb hab c hc hbc) hb (mem_supersededBy.1 hsup)
  refine ⟨a, mem_effective.2 ⟨ha, fun hsup => ?_⟩, hmem⟩
  obtain ⟨c, hc, hca⟩ := mem_supersededBy.1 hsup
  exact hfirst c hc hca

theorem readable_iff : repo.indexErrors = [] ↔
    ∀ id ∈ repo.store.indexes, ∃ blob, repo.readIndexBlob id = .ok blob := by
  rw [indexErrors, List.filterMap_eq_nil_iff]
  refine forall₂_congr fun id hid => ?_
  cases repo.readIndexBlob id with
  | ok blob => simp
  | error e => simp

theorem readIndexBlobs_of_forall {f : ObjectId → Option (ObjectId × IndexBlob)} :
    ∀ {ids : List ObjectId},
      (∀ id ∈ ids, ∃ blob, repo.readIndexBlob id = .ok blob ∧ f id = some (id, blob)) →
        repo.readIndexBlobs ids = .ok (ids.filterMap f)
  | [], _ => rfl
  | id :: ids, h => by
    obtain ⟨⟨blob, hread, hf⟩, h⟩ := List.forall_mem_cons.1 h
    unfold Repository.readIndexBlobs
    rw [hread, List.filterMap_cons_some hf]
    exact bind_eq_ok.2 ⟨_, readIndexBlobs_of_forall h, rfl⟩

/-- Where all blobs can be read they are those that are loaded. -/
theorem loadIndexBlobs_of_readable (h : repo.indexErrors = []) :
    repo.loadIndexBlobs = .ok repo.indexBlobs := by
  refine readIndexBlobs_of_forall fun id hid => ?_
  obtain ⟨blob, hread⟩ := readable_iff.1 h id hid
  exact ⟨blob, hread, by rw [hread]⟩

/-! ### Reading -/

/-- A chunk that is listed can be read. -/
theorem Sound.readChunk (h : repo.Sound) (hx : repo.Indexed x) :
    ∃ plain, repo.readChunk x (loadIndex repo.indexBlobs) = .ok plain := by
  rw [loadIndex_eq_ranked]
  have hsome : ((loadIndexRanked (fun _ => false) repo.indexBlobs).get x).isSome :=
    isSome_get_loadIndexRanked.2 hx
  obtain ⟨loc, hget⟩ := Option.isSome_iff_exists.1 hsome
  obtain ⟨q, hq, e, he, rfl, rfl⟩ := (best_of_get_loadIndexRanked hget).listed
  obtain ⟨p, hp, hentries⟩ := h.listed q hq
  obtain ⟨_, hrange, plain, rfl, hid, hlen, hmax⟩ := (h.packs _ p hp).1 e (hentries ▸ he)
  refine ⟨plain, ?_⟩
  unfold Repository.readChunk
  rw [hget]
  dsimp only [location]
  rw [hp]
  dsimp only
  rw [hrange]
  simp only [Repository.decodeChunk, Sealed.openChunk, if_true]
  rw [if_neg (not_lt.2 hmax), if_neg (not_not.2 hlen), if_neg (not_not.2 hid)]

theorem Sound.readChunks (h : repo.Sound) : ∀ {ids : List ChunkId}, (∀ x ∈ ids, repo.Indexed x) →
    ∃ bytes, repo.readChunks (loadIndex repo.indexBlobs) ids = .ok bytes
  | [], _ => ⟨[], rfl⟩
  | id :: ids, hids => by
    obtain ⟨hid, hids⟩ := List.forall_mem_cons.1 hids
    obtain ⟨head, hhead⟩ := h.readChunk hid
    obtain ⟨tail, htail⟩ := h.readChunks hids
    exact ⟨head ++ tail, bind_eq_ok.2 ⟨head, hhead, bind_eq_ok.2 ⟨tail, htail, rfl⟩⟩⟩

/-- A content that stands for bytes, all of whose chunks are listed, reads as these bytes. -/
theorem Sound.reads (h : repo.Sound) (hkeys : repo.keys.Faithful) {e : Entry} {bytes : Bytes}
    (hbytes : e.fileContent.Holds repo.keys bytes)
    (hx : ∀ x, e.fileContent.Refers repo.keys x → repo.Indexed x) :
    repo.Reads (loadIndex repo.indexBlobs) e := by
  obtain ⟨⟨ids, hids, hnames⟩, hsize⟩ := hbytes
  have hdata : (∀ x ∈ ids, repo.Indexed x) →
      repo.readChunks (loadIndex repo.indexBlobs) ids = .ok bytes := fun hall => by
    obtain ⟨read, hread⟩ := h.readChunks hall
    have hread' : repo.keys.Names ids read := Repository.exists_of_readChunks hread
    rw [hread, hread'.unique hkeys.chunk hnames]
  unfold FileContent.Lists at hids
  cases hc : e.content with
  | direct =>
    rw [show e.fileContent.content = .direct from hc] at hids
    refine ⟨ids, bytes, ?_, hdata fun x hmem => hx x (.listed (hids ▸ hmem)), hsize⟩
    rw [hc, hids]
    rfl
  | indirect =>
    rw [show e.fileContent.content = .indirect from hc] at hids
    obtain ⟨list, hlist⟩ := h.readChunks fun x hmem => hx x (.listed hmem)
    refine ⟨ids, bytes, ?_, hdata fun x hmem => hx x (.spelled hc hids hmem), hsize⟩
    rw [hc]
    refine bind_eq_ok.2 ⟨list, hlist, ?_⟩
    obtain ⟨plains, hplains, rfl⟩ := Repository.exists_of_readChunks hlist
    obtain ⟨plains', hplains', hdecode⟩ := hids
    obtain rfl := (List.map_injective_iff.2 hkeys.chunk) (hplains.trans hplains'.symm)
    unfold Repository.chunkIdsOf
    rw [hdecode]
    rfl

/-! ### Snapshots -/

/-- All that a root needs is there: the trees that it reaches can be read, the contents in them
stand for bytes, and their chunks are listed. -/
structure Serves (repo : TimedRepository) (root : TreeId) : Prop where
  trees : ∀ id, repo.keys.Reaches root id → ∃ t, repo.readTreeOnce (.tree id) id = .ok t
  genuine : ∀ t, repo.keys.Reaches root (repo.keys.treeId t) → ∀ e ∈ t.entries, e.Genuine repo.keys
  chunks : ∀ x, repo.keys.Needs root x → repo.Indexed x

/-- A root of a snapshot that is listed. -/
def Live (repo : TimedRepository) (root : TreeId) : Prop :=
  ∃ key ∈ repo.store.snapshots, ∃ s, repo.readSnapshot key = .ok s ∧ ∃ r ∈ s.roots, r.tree = root

/-- **An intact repository.** All snapshots can be read, and all that their roots need is there. -/
structure Intact (repo : TimedRepository) : Prop extends Sound repo where
  snapshots : ∀ key ∈ repo.store.snapshots, ∃ s, repo.readSnapshot key = .ok s
  serves : ∀ root, repo.Live root → repo.Serves root

/-- Every file below a root that is served can be read. -/
theorem Serves.reads (hs : repo.Sound) (hkeys : repo.keys.Faithful) (h : repo.Serves root)
    {id : TreeId}
    (hid : repo.TreeReach root id) : ∃ t, repo.readTree id = .ok t ∧
      ∀ e ∈ t.entries, e.kind = .file → repo.Reads (loadIndex repo.indexBlobs) e := by
  have hreach := Repository.reaches_of_treeReach hid
  obtain ⟨t, ht⟩ := h.trees id hreach
  obtain rfl : repo.keys.treeId t = id := (Repository.readTreeOnce_ok ht).1
  refine ⟨t, Repository.hasTree_of_once ht, fun e he hk => ?_⟩
  obtain ⟨bytes, hbytes⟩ := h.genuine t hreach e he hk
  exact hs.reads hkeys hbytes fun x hx => h.chunks x ⟨t, e, hreach, he, hk, hx⟩

/-- The contents below a root that is served stand for bytes. -/
theorem Serves.genuineTree (h : repo.Serves root) : repo.keys.GenuineTree root := by
  intro path e hc
  obtain ⟨t, ht, he⟩ := reaches_of_contains hc
  exact h.genuine t ht e he

/-- The snapshots of an intact repository can be read, down to the last file. -/
theorem Intact.reads (h : repo.Intact) (hkeys : repo.keys.Faithful) :
    ∃ index, repo.loadIndexUncached = .ok index ∧
      ∀ key ∈ repo.listSnapshotKeys, ∃ snapshot, repo.readSnapshot key = .ok snapshot ∧
        ∀ root ∈ snapshot.roots, ∀ id, repo.TreeReach root.tree id → ∃ t, repo.readTree id = .ok t ∧
          ∀ e ∈ t.entries, e.kind = .file → repo.Reads index e := by
  refine ⟨loadIndex repo.indexBlobs,
    bind_eq_ok.2 ⟨_, loadIndexBlobs_of_readable h.readable, rfl⟩, fun key hkey => ?_⟩
  have hmem : key ∈ repo.store.snapshots := (List.mem_insertionSort _).1 hkey
  obtain ⟨s, hs⟩ := h.snapshots key hmem
  exact ⟨s, hs, fun root hroot id hid =>
    (h.serves root.tree ⟨key, hmem, s, hs, root, hroot, rfl⟩).reads h.toSound hkeys hid⟩

/-! ### What a step leaves -/

/-- From one state to another no place in the index is lost but those in these packs, and no tree
but these. -/
structure Keeps (packs : Set ObjectId) (trees : Set TreeId) (repo repo' : TimedRepository) :
    Prop where
  keys : repo'.keys = repo.keys
  config : repo'.config = repo.config
  lists : ∀ x loc, Lists (effectivePacks repo.indexBlobs) x loc → loc.pack ∉ packs →
    Lists (effectivePacks repo'.indexBlobs) x loc
  trees : ∀ id ∉ trees, ∀ t, repo.readTreeOnce (.tree id) id = .ok t →
    repo'.readTreeOnce (.tree id) id = .ok t

/-- A root is still served if what it needs lies elsewhere. -/
theorem Serves.keeps {packs : Set ObjectId} {trees : Set TreeId} (h : repo.Serves root)
    (hk : Keeps packs trees repo repo')
    (hx : ∀ x, repo.keys.Needs root x →
      ∃ loc, Lists (effectivePacks repo.indexBlobs) x loc ∧ loc.pack ∉ packs)
    (ht : ∀ id, repo.keys.Reaches root id → id ∉ trees) : repo'.Serves root where
  trees id hid := by
    rw [hk.keys] at hid
    obtain ⟨t, hread⟩ := h.trees id hid
    exact ⟨t, hk.trees id (ht id hid) t hread⟩
  genuine t hreach := by
    rw [hk.keys] at hreach ⊢
    exact h.genuine t hreach
  chunks x hneeds := by
    rw [hk.keys] at hneeds
    obtain ⟨loc, hl, hout⟩ := hx x hneeds
    exact ⟨loc, hk.lists x loc hl hout⟩

end TimedRepository

end Kist
