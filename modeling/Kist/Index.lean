import Kist.Format.Index
import Kist.Lib.Dict
import Kist.Lib.SortedTable

/-!
# The chunk index

`kist-core::index`: the map from chunks to their places, in two layers. The overlay is a map in
memory, the base a sorted table on disk. Index blobs are merged by `load_index_blobs`, which leaves
out every blob that a present blob supersedes, and `add_pack` or `add_pack_ranked`, which decide
between several packs that hold the same chunk.

* `get_loadIndexRanked`: the merged index has a place for a chunk exactly when an effective blob
  lists the chunk, every place is listed, and no pack that lists the chunk ranks before it.
-/

namespace Kist

open SortedTable

/-- `ChunkLocation`. -/
structure ChunkLocation where
  pack : ObjectId
  offset : ℕ
  length : ℕ
  rawLen : ℕ
  deriving DecidableEq, Repr

/-- `PENDING_PACK`: the name that stands for a pack that is not written yet. -/
def pendingPack : ObjectId := 0

/-- `location`. -/
def location (pack : ObjectId) (e : PackEntry) : ChunkLocation :=
  ⟨pack, e.offset, e.length, e.rawLen⟩

/-- `canonical_rank`: packs without a mark come first, then the smaller name. -/
def canonicalRank (pack : ObjectId) (isMarked : ObjectId → Bool) : Bool ×ₗ ObjectId :=
  toLex (isMarked pack, pack)

theorem canonicalRank_le_iff {isMarked : ObjectId → Bool} {p q : ObjectId} :
    canonicalRank p isMarked ≤ canonicalRank q isMarked ↔
      isMarked p < isMarked q ∨ (isMarked p = isMarked q ∧ p ≤ q) :=
  Prod.Lex.le_iff

/-- `TableRecord`. -/
structure TableRecord where
  id : ChunkId
  location : ChunkLocation
  deriving DecidableEq, Repr

/-- `DiskTable`: records in increasing order of their chunk. -/
structure DiskTable where
  records : List TableRecord
  sorted : Sorted TableRecord.id records

namespace DiskTable

/-- `DiskTable::build`. -/
def build (records : List TableRecord) : DiskTable :=
  ⟨sortDedup TableRecord.id records, sorted_sortDedup _ _⟩

/-- `DiskTable::get`. -/
def get (t : DiskTable) (id : ChunkId) : Option ChunkLocation :=
  (search TableRecord.id t.records id).map TableRecord.location

/-- A lookup finds exactly the records of the table. -/
theorem get_eq_some_iff {t : DiskTable} {id : ChunkId} {loc : ChunkLocation} :
    t.get id = some loc ↔ (⟨id, loc⟩ : TableRecord) ∈ t.records := by
  simp only [get, Option.map_eq_some_iff, search_eq_some_iff _ t.sorted]
  constructor
  · rintro ⟨r, ⟨hr, rfl⟩, rfl⟩
    exact hr
  · intro h
    exact ⟨_, ⟨h, rfl⟩, rfl⟩

end DiskTable

/-- `ChunkIndex`. -/
structure ChunkIndex where
  overlay : Dict ChunkId ChunkLocation
  base : Option DiskTable
  packs : Dict ObjectId ℕ

namespace ChunkIndex

/-- `ChunkIndex::new`. -/
def new : ChunkIndex := ⟨∅, none, ∅⟩

/-- `ChunkIndex::with_base`. -/
def withBase (table : DiskTable) (packs : Dict ObjectId ℕ) : ChunkIndex := ⟨∅, some table, packs⟩

/-- `ChunkIndex::base_get`. -/
def baseGet (index : ChunkIndex) (id : ChunkId) : Option ChunkLocation :=
  index.base.bind fun table => table.get id

/-- `ChunkIndex::get`. -/
def get (index : ChunkIndex) (id : ChunkId) : Option ChunkLocation :=
  (index.overlay.lookup id).or (index.baseGet id)

/-- `ChunkIndex::contains`. -/
def contains (index : ChunkIndex) (id : ChunkId) : Bool :=
  (index.overlay.lookup id).isSome || (index.baseGet id).isSome

theorem contains_eq_isSome (index : ChunkIndex) (id : ChunkId) :
    index.contains id = (index.get id).isSome := by
  simp [contains, get]

/-- One entry of a pack being added: the place that ranks first is kept. -/
def addEntryRanked (rank : ObjectId → Bool) (pack : ObjectId) (overlay : Dict ChunkId ChunkLocation)
    (e : PackEntry) : Dict ChunkId ChunkLocation :=
  match overlay.lookup e.id with
  | some existing =>
    if canonicalRank existing.pack rank ≤ canonicalRank pack rank then overlay
    else overlay.insert e.id (location pack e)
  | none => overlay.insert e.id (location pack e)

/-- `ChunkIndex::add_pack_ranked`. -/
def addPackRanked (rank : ObjectId → Bool) (index : ChunkIndex) (pack : IndexPack) : ChunkIndex :=
  { index with
    packs := index.packs.insert pack.pack pack.size
    overlay := pack.entries.foldl (addEntryRanked rank pack.pack) index.overlay }

/-- One entry of a pack being added: the place in the pack of the smallest name is kept. -/
def addEntry (pack : ObjectId) (overlay : Dict ChunkId ChunkLocation) (e : PackEntry) :
    Dict ChunkId ChunkLocation :=
  match overlay.lookup e.id with
  | some existing =>
    if existing.pack ≤ pack then overlay else overlay.insert e.id (location pack e)
  | none => overlay.insert e.id (location pack e)

/-- `ChunkIndex::add_pack`. -/
def addPack (index : ChunkIndex) (pack : IndexPack) : ChunkIndex :=
  { index with
    packs := index.packs.insert pack.pack pack.size
    overlay := pack.entries.foldl (addEntry pack.pack) index.overlay }

/-- Where no pack is marked, the rank is the name. -/
theorem addPack_eq_ranked : addPack = addPackRanked fun _ => false := by
  funext index pack
  have : addEntry = addEntryRanked fun _ => false := by
    funext p overlay e
    simp only [addEntry, addEntryRanked, canonicalRank_le_iff, lt_irrefl, false_or, true_and]
  rw [addPack, addPackRanked, this]

/-- `ChunkIndex::add_pending`. -/
def addPending (index : ChunkIndex) (e : PackEntry) : ChunkIndex :=
  match index.overlay.lookup e.id with
  | some _ => index
  | none => { index with overlay := index.overlay.insert e.id (location pendingPack e) }

/-- `ChunkIndex::replace_pending`. -/
def replacePending (index : ChunkIndex) (e : PackEntry) : ChunkIndex :=
  { index with overlay := index.overlay.insert e.id (location pendingPack e) }

/-- `ChunkIndex::resolve_pending`. -/
def resolvePending (index : ChunkIndex) (pack : ObjectId) (size : ℕ) (entries : List PackEntry) :
    ChunkIndex :=
  { index with
    packs := index.packs.insert pack size
    overlay := entries.foldl (fun overlay e =>
      match overlay.lookup e.id with
      | some loc =>
        if loc.pack = pendingPack then overlay.insert e.id (location pack e) else overlay
      | none => overlay) index.overlay }

end ChunkIndex

/-! ### Loading -/

/-- The identifiers that some blob of the list supersedes. -/
def supersededBy (all : List (ObjectId × IndexBlob)) : List ObjectId :=
  all.flatMap fun b => b.2.supersedes

/-- `load_index_blobs`, the blobs that count: those that no present blob supersedes. -/
def effective (all : List (ObjectId × IndexBlob)) : List (ObjectId × IndexBlob) :=
  all.filter fun b => b.1 ∉ supersededBy all

/-- The packs that the effective blobs list. -/
def effectivePacks (all : List (ObjectId × IndexBlob)) : List IndexPack :=
  (effective all).flatMap fun b => b.2.packs

/-- `load_index_for_backup`: the effective blobs merged under the rank of a set of marks. -/
def loadIndexRanked (rank : ObjectId → Bool) (all : List (ObjectId × IndexBlob)) : ChunkIndex :=
  (effective all).foldl (fun index b => b.2.packs.foldl (ChunkIndex.addPackRanked rank) index) .new

/-- `load_index` without a cache, which is `load_index_lenient` where every blob is readable. -/
def loadIndex (all : List (ObjectId × IndexBlob)) : ChunkIndex :=
  (effective all).foldl (fun index b => b.2.packs.foldl ChunkIndex.addPack index) .new

theorem loadIndex_eq_ranked : loadIndex = loadIndexRanked fun _ => false := by
  funext all
  rw [loadIndex, loadIndexRanked, ChunkIndex.addPack_eq_ranked]

/-- A list of packs has an entry for the chunk `c` at the place `loc`. -/
def Lists (packs : List IndexPack) (c : ChunkId) (loc : ChunkLocation) : Prop :=
  ∃ p ∈ packs, ∃ e ∈ p.entries, e.id = c ∧ loc = location p.pack e

/-- A place for a chunk that ranks first among the listed ones. -/
structure BestPlace (rank : ObjectId → Bool) (packs : List IndexPack) (c : ChunkId)
    (loc : ChunkLocation) : Prop where
  listed : Lists packs c loc
  best : ∀ loc', Lists packs c loc' →
    canonicalRank loc.pack rank ≤ canonicalRank loc'.pack rank

/-- The overlay holds a best place for every chunk that the packs list, and nothing else. -/
def HoldsBest (rank : ObjectId → Bool) (packs : List IndexPack)
    (overlay : Dict ChunkId ChunkLocation) : Prop :=
  ∀ c, match overlay.lookup c with
    | none => ∀ loc, ¬Lists packs c loc
    | some loc => BestPlace rank packs c loc

open ChunkIndex

variable {rank : ObjectId → Bool}

theorem lists_append {ps qs : List IndexPack} {c : ChunkId} {loc : ChunkLocation} :
    Lists (ps ++ qs) c loc ↔ Lists ps c loc ∨ Lists qs c loc := by
  simp only [Lists, List.mem_append, or_and_right, exists_or]

/-- Adding one entry to a merged overlay. -/
theorem holdsBest_addEntryRanked {packs : List IndexPack} {overlay : Dict ChunkId ChunkLocation}
    {p : ObjectId} {s : ℕ} {e : PackEntry} (h : HoldsBest rank packs overlay) :
    HoldsBest rank (packs ++ [⟨p, s, [e]⟩]) (addEntryRanked rank p overlay e) := by
  have hone : ∀ {c loc}, Lists [⟨p, s, [e]⟩] c loc ↔ e.id = c ∧ loc = location p e := by
    simp [Lists]
  intro c
  have hc := h c
  by_cases hec : e.id = c
  · subst hec
    rw [addEntryRanked]
    cases hl : overlay.lookup e.id with
    | none =>
      simp only [hl, AList.lookup_insert] at hc ⊢
      refine ⟨lists_append.2 (.inr (hone.2 ⟨rfl, rfl⟩)), fun loc' hloc' => ?_⟩
      rcases lists_append.1 hloc' with h' | h'
      · exact absurd h' (hc loc')
      · rw [(hone.1 h').2]
    | some existing =>
      simp only [hl] at hc
      -- the place there is ranks no worse and stays
      by_cases hle : canonicalRank existing.pack rank ≤ canonicalRank p rank
      · simp only [hle, if_true, hl]
        refine ⟨lists_append.2 (.inl hc.listed), fun loc' hloc' => ?_⟩
        rcases lists_append.1 hloc' with h' | h'
        · exact hc.best loc' h'
        · rw [(hone.1 h').2]; exact hle
      · simp only [hle, if_false, AList.lookup_insert]
        refine ⟨lists_append.2 (.inr (hone.2 ⟨rfl, rfl⟩)), fun loc' hloc' => ?_⟩
        rcases lists_append.1 hloc' with h' | h'
        · exact (not_le.1 hle).le.trans (hc.best loc' h')
        · rw [(hone.1 h').2]
  · have hlook : (addEntryRanked rank p overlay e).lookup c = overlay.lookup c := by
      unfold addEntryRanked
      split
      · split_ifs
        · rfl
        · exact AList.lookup_insert_ne (Ne.symm hec)
      · exact AList.lookup_insert_ne (Ne.symm hec)
    have hlists : ∀ loc, Lists (packs ++ [⟨p, s, [e]⟩]) c loc ↔ Lists packs c loc := fun loc =>
      lists_append.trans (or_iff_left fun h' => hec (hone.1 h').1)
    rw [hlook]
    cases hl : overlay.lookup c with
    | none =>
      simp only [hl] at hc ⊢
      exact fun loc h' => hc loc ((hlists loc).1 h')
    | some existing =>
      simp only [hl] at hc ⊢
      exact ⟨(hlists _).2 hc.listed, fun loc' h' => hc.best loc' ((hlists loc').1 h')⟩

/-- Being merged depends on the listed places alone. -/
theorem HoldsBest.congr {ps qs : List IndexPack} {overlay : Dict ChunkId ChunkLocation}
    (h : HoldsBest rank ps overlay) (hpq : ∀ c loc, Lists ps c loc ↔ Lists qs c loc) :
    HoldsBest rank qs overlay := by
  intro c
  have hc := h c
  cases hl : overlay.lookup c with
  | none =>
    simp only [hl] at hc ⊢
    exact fun loc h' => hc loc ((hpq c loc).2 h')
  | some existing =>
    simp only [hl] at hc ⊢
    exact ⟨(hpq _ _).1 hc.listed, fun loc' h' => hc.best loc' ((hpq _ _).2 h')⟩

theorem holdsBest_foldl_entries {p : ObjectId} {s : ℕ} (es : List PackEntry) :
    ∀ {packs : List IndexPack} {overlay : Dict ChunkId ChunkLocation},
      HoldsBest rank packs overlay →
      HoldsBest rank (packs ++ [⟨p, s, es⟩]) (es.foldl (addEntryRanked rank p) overlay) := by
  induction es with
  | nil =>
    intro packs overlay h
    exact h.congr fun c loc => by simp [Lists]
  | cons e es ih =>
    intro packs overlay h
    refine (ih (holdsBest_addEntryRanked (s := s) h)).congr fun c loc => ?_
    simp only [lists_append, or_assoc]
    refine or_congr_right ?_
    simp [Lists, or_and_right, exists_or]

theorem holdsBest_foldl_packs (qs : List IndexPack) :
    ∀ {packs : List IndexPack} {index : ChunkIndex}, HoldsBest rank packs index.overlay →
      HoldsBest rank (packs ++ qs) (qs.foldl (addPackRanked rank) index).overlay ∧
        (qs.foldl (addPackRanked rank) index).base = index.base := by
  induction qs with
  | nil =>
    intro packs index h
    exact ⟨by simpa using h, rfl⟩
  | cons q qs ih =>
    intro packs index h
    obtain ⟨hm, hb⟩ := @ih _ (addPackRanked rank index q)
      (holdsBest_foldl_entries (p := q.pack) (s := q.size) q.entries h)
    exact ⟨by simpa using hm, hb⟩

theorem holdsBest_foldl_blobs (bs : List (ObjectId × IndexBlob)) :
    ∀ {packs : List IndexPack} {index : ChunkIndex}, HoldsBest rank packs index.overlay →
      HoldsBest rank (packs ++ bs.flatMap fun b => b.2.packs)
        (bs.foldl (fun index b => b.2.packs.foldl (addPackRanked rank) index) index).overlay ∧
      (bs.foldl (fun index b => b.2.packs.foldl (addPackRanked rank) index) index).base
        = index.base := by
  induction bs with
  | nil =>
    intro packs index h
    exact ⟨by simpa using h, rfl⟩
  | cons b bs ih =>
    intro packs index h
    obtain ⟨hm, hb⟩ := holdsBest_foldl_packs b.2.packs h
    have := ih hm
    rw [hb] at this
    simpa using this

/-- **The merged index.** It has a place for a chunk exactly when an effective blob lists one, and
that place ranks first among all the listed ones. -/
theorem get_loadIndexRanked (rank : ObjectId → Bool) (all : List (ObjectId × IndexBlob))
    (c : ChunkId) :
    match (loadIndexRanked rank all).get c with
    | none => ∀ loc, ¬Lists (effectivePacks all) c loc
    | some loc => BestPlace rank (effectivePacks all) c loc := by
  have hnew : HoldsBest rank [] ChunkIndex.new.overlay := fun c => by
    simp [ChunkIndex.new, Lists]
  obtain ⟨hm, hb⟩ := holdsBest_foldl_blobs (effective all) hnew
  have hget : (loadIndexRanked rank all).get c = (loadIndexRanked rank all).overlay.lookup c := by
    have hbase : (loadIndexRanked rank all).base = none := hb
    simp [ChunkIndex.get, ChunkIndex.baseGet, hbase]
  rw [hget]
  exact hm c

theorem isSome_get_loadIndexRanked {all : List (ObjectId × IndexBlob)}
    {c : ChunkId} :
    ((loadIndexRanked rank all).get c).isSome ↔ ∃ loc, Lists (effectivePacks all) c loc := by
  have h := get_loadIndexRanked rank all c
  cases hg : (loadIndexRanked rank all).get c with
  | none => simpa [hg] using h
  | some loc =>
    simp only [hg] at h
    simpa using ⟨loc, h.listed⟩

theorem best_of_get_loadIndexRanked {all : List (ObjectId × IndexBlob)}
    {c : ChunkId} {loc : ChunkLocation} (hg : (loadIndexRanked rank all).get c = some loc) :
    BestPlace rank (effectivePacks all) c loc := by
  have h := get_loadIndexRanked rank all c
  rwa [hg] at h

end Kist
