import Kist.Check.Rebuild
import Kist.Lifetime.Intact

/-!
# What keeps a repository intact

New packs, trees and index blobs take nothing away, and neither does an index blob that replaces all
others and lists all packs.

* `Extends`: what is put before a commit; `Extends.intact`.
* `Ages`: what happens to marks and touches.
* `Sound.replace`: an index blob in the place of all others; `Intact.rebuild`.
-/

namespace Kist

open Checked (bind_eq_ok)

namespace TimedRepository

variable {repo repo' : TimedRepository} {new : List (ObjectId × IndexBlob)} {root : TreeId}

/-! ### Puts -/

/-- What is put before a commit: sound packs, trees, and index blobs that replace no other ones and
list packs that are there. `new` are the blobs. -/
structure Extends (new : List (ObjectId × IndexBlob)) (repo repo' : TimedRepository) : Prop where
  keys : repo'.keys = repo.keys
  config : repo'.config = repo.config
  readable : repo'.indexErrors = []
  kept : ∀ id p, repo.store.packs.lookup id = some p → repo'.store.packs.lookup id = some p
  packs : ∀ id p, repo'.store.packs.lookup id = some p → repo.store.packs.lookup id = some p ∨
    p.Sound repo.keys repo.config.chunker.max ∧ id ≠ pendingPack
  blobs : ∀ b, b ∈ repo'.indexBlobs ↔ b ∈ repo.indexBlobs ∨ b ∈ new
  fresh : ∀ b ∈ new, b.2.supersedes = [] ∧ b.1 ∉ supersededBy repo.indexBlobs
  lists : ∀ b ∈ new, ∀ q ∈ b.2.packs,
    ∃ p, repo'.store.packs.lookup q.pack = some p ∧ q.entries = p.chunks.map Prod.fst
  trees : ∀ id t, repo.readTreeOnce (.tree id) id = .ok t → repo'.readTreeOnce (.tree id) id = .ok t
  snapshots : repo'.store.snapshots = repo.store.snapshots

section Extends

variable (h : Extends new repo repo')

include h in
theorem Extends.mem_supersededBy {id : ObjectId} :
    id ∈ supersededBy repo'.indexBlobs ↔ id ∈ supersededBy repo.indexBlobs := by
  simp only [TimedRepository.mem_supersededBy, h.blobs]
  constructor
  · rintro ⟨b, hb | hb, hid⟩
    · exact ⟨b, hb, hid⟩
    · rw [(h.fresh b hb).1] at hid
      cases hid
  · rintro ⟨b, hb, hid⟩
    exact ⟨b, .inl hb, hid⟩

include h in
/-- The blobs that count are those that did, and the new ones. -/
theorem Extends.mem_effective {b : ObjectId × IndexBlob} :
    b ∈ effective repo'.indexBlobs ↔ b ∈ effective repo.indexBlobs ∨ b ∈ new := by
  rw [TimedRepository.mem_effective, TimedRepository.mem_effective, h.blobs, h.mem_supersededBy]
  constructor
  · rintro ⟨hb | hb, hnot⟩
    · exact .inl ⟨hb, hnot⟩
    · exact .inr hb
  · rintro (⟨hb, hnot⟩ | hb)
    · exact ⟨.inl hb, hnot⟩
    · exact ⟨.inr hb, (h.fresh b hb).2⟩

include h in
theorem Extends.mem_effectivePacks {q : IndexPack} : q ∈ effectivePacks repo'.indexBlobs ↔
    q ∈ effectivePacks repo.indexBlobs ∨ ∃ b ∈ new, q ∈ b.2.packs := by
  simp only [TimedRepository.mem_effectivePacks, h.mem_effective, or_and_right, exists_or]

include h in
theorem Extends.sound (hs : repo.Sound) : repo'.Sound where
  readable := h.readable
  packs id p hp := by
    rw [h.keys, h.config]
    rcases h.packs id p hp with hp | hp
    · exact hs.packs id p hp
    · exact hp
  listed q hq := by
    rcases h.mem_effectivePacks.1 hq with hq | ⟨b, hb, hq⟩
    · obtain ⟨p, hp, he⟩ := hs.listed q hq
      exact ⟨p, h.kept _ p hp, he⟩
    · exact h.lists b hb q hq
  irrefl b hb := by
    rcases (h.blobs b).1 hb with hb | hb
    · exact hs.irrefl b hb
    · rw [(h.fresh b hb).1]
      exact List.not_mem_nil
  chain b hb b' hb' hsup b'' hb'' hsup' := by
    -- a blob that others have replaced is none of the new ones, nor is one that has replaced any
    have hold : ∀ c ∈ repo'.indexBlobs, ∀ a ∈ repo'.indexBlobs, a.1 ∈ c.2.supersedes →
        c ∈ repo.indexBlobs ∧ a ∈ repo.indexBlobs := by
      intro c hc a ha hmem
      have hc' : c ∈ repo.indexBlobs := ((h.blobs c).1 hc).resolve_right fun hnew => by
        rw [(h.fresh c hnew).1] at hmem
        cases hmem
      refine ⟨hc', ((h.blobs a).1 ha).resolve_right fun hnew => ?_⟩
      exact (h.fresh a hnew).2 (TimedRepository.mem_supersededBy.2 ⟨c, hc', hmem⟩)
    obtain ⟨hb₁, hb₂⟩ := hold b hb b' hb' hsup
    obtain ⟨-, hb₃⟩ := hold b' hb' b'' hb'' hsup'
    exact hs.chain b hb₁ b' hb₂ hsup b'' hb₃ hsup'

include h in
/-- Nothing is lost. -/
theorem Extends.keeps : Keeps ∅ ∅ repo repo' where
  keys := h.keys
  config := h.config
  lists x loc hl _ := by
    obtain ⟨q, hq, he⟩ := hl
    exact ⟨q, h.mem_effectivePacks.2 (.inl hq), he⟩
  trees id _ t ht := h.trees id t ht

end Extends

/-- A root stays served where nothing is lost. -/
theorem Serves.of_keeps (h : repo.Serves root) (hk : Keeps ∅ ∅ repo repo') : repo'.Serves root :=
  h.keeps hk (fun x hx => by
    obtain ⟨loc, hl⟩ := h.chunks x hx
    exact ⟨loc, hl, Set.notMem_empty _⟩) fun _ _ => Set.notMem_empty _

theorem readSnapshot_of_mem {key : SnapshotKey} (hmem : key ∈ repo.store.snapshots)
    (h : repo'.store.snapshots.lookup key = repo.store.snapshots.lookup key) :
    repo'.readSnapshot key = repo.readSnapshot key := by
  obtain ⟨bytes, hbytes⟩ := Option.isSome_iff_exists.1 (AList.lookup_isSome.2 hmem)
  unfold Repository.readSnapshot
  rw [h, hbytes]
  rfl

/-- A repository stays intact where nothing is lost and the snapshots stay or go. -/
theorem Intact.of_keeps (h : repo.Intact) (hs : repo'.Sound) (hk : Keeps ∅ ∅ repo repo')
    (hsnap : ∀ key ∈ repo'.store.snapshots, key ∈ repo.store.snapshots ∧
      repo'.store.snapshots.lookup key = repo.store.snapshots.lookup key) : repo'.Intact where
  toSound := hs
  snapshots key hkey := by
    obtain ⟨hmem, hlook⟩ := hsnap key hkey
    rw [readSnapshot_of_mem hmem hlook]
    exact h.snapshots key hmem
  serves root hlive := by
    obtain ⟨key, hkey, s, hread, hroot⟩ := hlive
    obtain ⟨hmem, hlook⟩ := hsnap key hkey
    rw [readSnapshot_of_mem hmem hlook] at hread
    exact (h.serves root ⟨key, hmem, s, hread, hroot⟩).of_keeps hk

theorem Extends.intact (h : Extends new repo repo') (hi : repo.Intact) : repo'.Intact :=
  hi.of_keeps (h.sound hi.toSound) h.keeps fun key hkey => by
    rw [h.snapshots] at hkey ⊢
    exact ⟨hkey, rfl⟩

/-! ### Times -/

/-- The repository after what a client has done to its objects at the time `now`. -/
def put (repo : TimedRepository) (now : Time) (r : Repository) : TimedRepository :=
  { repo with
    toRepository := r
    modified := fun kind id => if id ∈ repo.listIds kind then repo.modified kind id else now }

/-- The tree was put or touched at this time or later. -/
def Recent (repo : TimedRepository) (t : Time) (id : TreeId) : Prop :=
  t ≤ repo.modified .tree id ∨ ∃ touched, repo.store.touches.lookup id = some touched ∧ t ≤ touched

/-- From one state to another marks before the time `t` only go, and what was recent by then still
is, but for these trees. -/
structure Ages (t : Time) (trees : Set TreeId) (repo repo' : TimedRepository) : Prop where
  marks : ∀ id m, repo'.store.marks.lookup id = some m → repo.store.marks.lookup id = some m ∨ t ≤ m
  recent : ∀ t₀ ≤ t, ∀ id ∈ repo.store.trees, id ∉ trees → repo.Recent t₀ id → repo'.Recent t₀ id

/-- What is put touches trees and marks nothing. -/
theorem ages_put {r : Repository} {t now : Time} (ht : t ≤ now)
    (hmarks : r.store.marks = repo.store.marks)
    (htouches : ∀ id, r.store.touches.lookup id = repo.store.touches.lookup id ∨
      r.store.touches.lookup id = some now) : Ages t ∅ repo (repo.put now r) where
  marks id m hm := .inl (hmarks ▸ hm)
  recent t₀ ht₀ id hid _ h := by
    have hmodified : (repo.put now r).modified .tree id = repo.modified .tree id :=
      if_pos (AList.mem_keys.1 hid)
    rcases h with h | ⟨touched, hl, h⟩
    · exact .inl (hmodified ▸ h)
    · rcases htouches id with hsame | hnow
      · exact .inr ⟨touched, hsame.trans hl, h⟩
      · exact .inr ⟨now, hnow, ht₀.trans ht⟩

/-! ### Index blobs -/

section WriteIndex

variable {n : ℕ} {blob : IndexBlob} {now : Time}

theorem mem_indexBlobs_writeIndex (hversion : blob.version = formatVersion)
    (hfresh : repo.keys.objectId (.indexBlob n blob) ∉ repo.store.indexes)
    (b : ObjectId × IndexBlob) : b ∈ (repo.put now (repo.writeIndex n blob)).indexBlobs ↔
      b = (repo.keys.objectId (.indexBlob n blob), blob) ∨ b ∈ repo.indexBlobs := by
  obtain ⟨id, blob'⟩ := b
  rw [mem_indexBlobs, mem_indexBlobs]
  by_cases hid : id = repo.keys.objectId (.indexBlob n blob)
  · subst hid
    have hread : (repo.put now (repo.writeIndex n blob)).readIndexBlob
        (repo.keys.objectId (.indexBlob n blob)) = .ok blob :=
      Repository.readIndexBlob_writeIndex hversion
    rw [hread]
    constructor
    · intro h
      cases h
      exact .inl rfl
    · rintro (h | h)
      · cases h
        rfl
      · exact absurd (mem_indexes_of_readIndexBlob h) hfresh
  · have hread : (repo.put now (repo.writeIndex n blob)).readIndexBlob id = repo.readIndexBlob id :=
      Repository.readIndexBlob_writeIndex_of_ne hid
    rw [hread]
    exact ⟨.inr, fun h => h.resolve_left fun heq => hid (Prod.mk.inj heq).1⟩

theorem readable_writeIndex (hversion : blob.version = formatVersion) (h : repo.indexErrors = []) :
    (repo.put now (repo.writeIndex n blob)).indexErrors = [] := by
  rw [readable_iff] at h ⊢
  intro id hmem
  by_cases hid : id = repo.keys.objectId (.indexBlob n blob)
  · exact ⟨blob, hid ▸ Repository.readIndexBlob_writeIndex hversion⟩
  · obtain ⟨blob', hread⟩ := h id (((AList.mem_insert _).1 hmem).resolve_left hid)
    exact ⟨blob', (Repository.readIndexBlob_writeIndex_of_ne hid).trans hread⟩

/-- A new blob that replaces all others, and lists packs that are there. -/
theorem Sound.replace (h : repo.Sound) (hversion : blob.version = formatVersion)
    (hnew : repo.keys.objectId (.indexBlob n blob) ∉ repo.store.indexes)
    (hunsup : repo.keys.objectId (.indexBlob n blob) ∉ supersededBy repo.indexBlobs)
    (hold : ∀ b ∈ repo.indexBlobs, b.1 ∈ blob.supersedes)
    (hself : repo.keys.objectId (.indexBlob n blob) ∉ blob.supersedes)
    (hlists : ∀ q ∈ blob.packs,
      ∃ p, repo.store.packs.lookup q.pack = some p ∧ q.entries = p.chunks.map Prod.fst) :
    (repo.put now (repo.writeIndex n blob)).Sound ∧
      ∀ b, b ∈ effective (repo.put now (repo.writeIndex n blob)).indexBlobs ↔
        b = (repo.keys.objectId (.indexBlob n blob), blob) := by
  have hblobs := @mem_indexBlobs_writeIndex repo n blob now hversion hnew
  -- the new blob alone counts
  have heff : ∀ b, b ∈ effective (repo.put now (repo.writeIndex n blob)).indexBlobs ↔
      b = (repo.keys.objectId (.indexBlob n blob), blob) := by
    intro b
    rw [mem_effective, mem_supersededBy, hblobs]
    constructor
    · rintro ⟨rfl | hb, hnot⟩
      · rfl
      · exact absurd ⟨_, (hblobs _).2 (.inl rfl), hold b hb⟩ hnot
    · rintro rfl
      refine ⟨.inl rfl, fun ⟨c, hc, hmem⟩ => ?_⟩
      rcases (hblobs c).1 hc with rfl | hc
      · exact hself hmem
      · exact hunsup (mem_supersededBy.2 ⟨c, hc, hmem⟩)
  refine ⟨⟨readable_writeIndex hversion h.readable, h.packs, fun q hq => ?_, fun b hb => ?_,
    fun b hb b' hb' hmem b'' hb'' hmem' => ?_⟩, heff⟩
  · obtain ⟨b, hb, hq⟩ := mem_effectivePacks.1 hq
    rw [(heff b).1 hb] at hq
    exact hlists q hq
  · rcases (hblobs b).1 hb with rfl | hb
    · exact hself
    · exact h.irrefl b hb
  · have hpast : ∀ c ∈ repo.indexBlobs, ∀ a ∈ (repo.put now (repo.writeIndex n blob)).indexBlobs,
        a.1 ∈ c.2.supersedes → a ∈ repo.indexBlobs := fun c hc a ha hca =>
      ((hblobs a).1 ha).resolve_left fun heq =>
        hunsup (mem_supersededBy.2 ⟨c, hc, by rw [heq] at hca; exact hca⟩)
    rcases (hblobs b).1 hb with rfl | hb
    · rcases (hblobs b').1 hb' with rfl | hb'
      · exact absurd hmem hself
      · exact hold b'' (hpast b' hb' b'' hb'' hmem')
    · have hb' := hpast b hb b' hb' hmem
      exact h.chain b hb b' hb' hmem b'' (hpast b' hb' b'' hb'' hmem') hmem'

end WriteIndex

/-- Nothing that is sealed from here on has a name that is in use or carries a mark. -/
structure FreshNames (repo : TimedRepository) (nonce : ℕ) : Prop where
  blobs : repo.FreshFrom nonce
  packs : ∀ n, nonce ≤ n → ∀ chunks, repo.keys.packId n chunks ∉ repo.store.packs
  marks : ∀ n, nonce ≤ n → ∀ chunks, repo.keys.packId n chunks ∉ repo.store.marks

/-- **Rebuilding the index** of packs whose trailers list what is in them. -/
theorem Intact.rebuild {read : ReadPackIndex} {nonce : ℕ} {blob : IndexBlob} {now : Time}
    (h : repo.Intact) (hfresh : repo.FreshFrom nonce)
    (hread : ∀ id p es, repo.store.packs.lookup id = some p → read id p = .ok es →
      es = p.chunks.map Prod.fst)
    (hblob : rebuildBlob read repo.store.indexes.keys repo.store.packs = .ok blob) :
    (repo.put now (repo.writeIndex nonce blob)).Intact ∧
      Keeps ∅ ∅ repo (repo.put now (repo.writeIndex nonce blob)) := by
  obtain ⟨hversion, hsup, hpacks, -, hall⟩ := rebuildBlob_ok hblob
  obtain ⟨hnew, hunsup⟩ := hfresh nonce le_rfl blob
  have hold : ∀ b ∈ repo.indexBlobs, b.1 ∈ blob.supersedes := fun b hb =>
    (hsup b.1).2 (AList.mem_keys.1 (mem_indexes_of_readIndexBlob (mem_indexBlobs.1 hb)))
  have hself : repo.keys.objectId (.indexBlob nonce blob) ∉ blob.supersedes := fun hmem =>
    hnew (AList.mem_keys.2 ((hsup _).1 hmem))
  have hentries : ∀ q ∈ blob.packs,
      ∃ p, repo.store.packs.lookup q.pack = some p ∧ q.entries = p.chunks.map Prod.fst := by
    intro q hq
    obtain ⟨p, hp, -, hes⟩ := hpacks q hq
    exact ⟨p, hp, hread _ p _ hp hes⟩
  obtain ⟨hsound, heff⟩ :=
    @Sound.replace repo nonce blob now h.toSound hversion hnew hunsup hold hself
    hentries
  have hkeeps : Keeps ∅ ∅ repo (repo.put now (repo.writeIndex nonce blob)) := by
    refine ⟨rfl, rfl, fun x loc hl _ => ?_, fun id _ t ht => ht⟩
    obtain ⟨q, hq, e, he, hx, rfl⟩ := hl
    obtain ⟨p, hp, hpe⟩ := h.listed q hq
    obtain ⟨q', hq', hname⟩ := hall q.pack p hp
    obtain ⟨p', hp', hpe'⟩ := hentries q' hq'
    rw [hname, hp] at hp'
    cases hp'
    refine ⟨q', mem_effectivePacks.2 ⟨_, (heff _).2 rfl, hq'⟩, e, ?_, hx, by rw [hname]⟩
    rw [hpe', ← hpe]
    exact he
  exact ⟨h.of_keeps hsound hkeeps fun key hkey => ⟨hkey, rfl⟩, hkeeps⟩

end TimedRepository

end Kist
