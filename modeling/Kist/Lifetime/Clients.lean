import Kist.Forget
import Kist.KeyTime
import Kist.Lifetime.Sweeps

/-!
# Clients side by side

Any number of clients back up into one repository, forget snapshots, rebuild the index and prune. A
backup is made in two halves, between which other clients may do anything of this, and it may stop
at any time, as a forget or a prune may. What it has left in the storage by then is safe until it
has taken too long: a mark on it is younger than the backup, and a delete comes a grace period
later.

* `PreparedBackup.Waits`: all that the roots of a backup need is there, or the commit will look for
  it.
* `Clients.Step`: what a client may do; `Invariant.step`, `Invariant.prune`: what one step
  preserves.
* `snapshots_readable`: whatever clients do, every file of every snapshot can be read.
-/

namespace Kist

open Checked (bind_eq_ok)

/-! ### The first half -/

section Puts

variable {repo repo' : TimedRepository} {nonce : ℕ} {now started : Time} {b : Backup}
  {opts : BackupOptions} {p : PreparedBackup}

/-- A backup that has stopped has put no index blob. -/
theorem Backup.Uploaded.extends (hkeys : repo.keys.Faithful) (hs : repo.Sound)
    (h : Backup.Uploaded repo.toRepository nonce now b) :
    TimedRepository.Extends [] repo (repo.put now b.repo) := by
  have hread : ∀ id, (repo.put now b.repo).readIndexBlob id = repo.readIndexBlob id := fun id =>
    TimedRepository.readIndexBlob_congr h.keys
      (congrArg (fun indexes : Dict ObjectId Sealed => indexes.lookup id) h.indexes)
  refine ⟨h.keys, h.config, ?_, h.kept, fun id p hp => ?_, fun q => ?_, List.forall_mem_nil _,
    List.forall_mem_nil _, fun id t ht => h.readTreeOnce hkeys.tree ht, h.snapshots⟩
  · rw [TimedRepository.readable_iff]
    intro id hid
    have hid : id ∈ repo.store.indexes := h.indexes ▸ hid
    rw [hread]
    exact TimedRepository.readable_iff.1 hs.readable id hid
  · refine (h.packs id p hp).imp_right ?_
    rintro ⟨hsound, n, chunks, -, -, rfl⟩
    exact ⟨hsound, hkeys.pending n chunks⟩
  · obtain ⟨id, blob⟩ := q
    rw [TimedRepository.mem_indexBlobs, TimedRepository.mem_indexBlobs, hread]
    simp

/-- A backup whose walk is over has put one blob at most, which lists its packs. -/
theorem Backup.Uploaded.finish (hkeys : repo.keys.Faithful) (hs : repo.Sound)
    (hfresh : repo.FreshNames nonce) (h : Backup.Uploaded repo.toRepository nonce now b)
    (opts : BackupOptions) (started : Time) (roots : List Root) (parentKey : Option SnapshotKey) :
    ∃ new, TimedRepository.Extends new repo
      (repo.put now (b.finish opts started roots parentKey).repo) ∧
      ∀ q ∈ b.flushPack.newPacks, ∃ c ∈ new, q ∈ c.2.packs := by
  have hflush := h.flushPack hfresh.packs hkeys.pack
  have hext := hflush.extends hkeys hs
  -- a run without new packs writes no index blob
  by_cases hnone : b.flushPack.newPacks = []
  · refine ⟨[], ?_, fun q hq => by rw [hnone] at hq; cases hq⟩
    unfold Backup.finish
    dsimp only
    rw [if_pos hnone]
    exact hext
  · have hrepo : (b.finish opts started roots parentKey).repo =
        b.flushPack.repo.writeIndex b.flushPack.nonce (.new b.flushPack.newPacks) := by
      unfold Backup.finish
      dsimp only
      rw [if_neg hnone]
    rw [hrepo]
    set blob : IndexBlob := .new b.flushPack.newPacks
    obtain ⟨hnew, hunsup⟩ := hfresh.blobs _ hflush.nonce_le blob
    have hnew' : (repo.put now b.flushPack.repo).keys.objectId (.indexBlob b.flushPack.nonce blob) ∉
        (repo.put now b.flushPack.repo).store.indexes := by
      rw [hext.keys]
      exact fun hmem => hnew (hflush.indexes ▸ hmem)
    have hblobs := @TimedRepository.mem_indexBlobs_writeIndex
      (repo.put now b.flushPack.repo) _ blob now
      rfl hnew'
    have hreadable := @TimedRepository.readable_writeIndex (repo.put now b.flushPack.repo)
      b.flushPack.nonce blob now rfl hext.readable
    refine ⟨[(repo.keys.objectId (.indexBlob b.flushPack.nonce blob), blob)],
      ⟨hext.keys, hext.config, hreadable, hext.kept,
        hext.packs, fun c => ?_, ?_, ?_, hext.trees, hext.snapshots⟩,
      fun q hq => ⟨_, List.mem_cons_self, hq⟩⟩
    · have hc := hblobs c
      rw [hext.keys, hext.blobs] at hc
      rw [List.mem_singleton]
      refine hc.trans ?_
      simp [or_comm]
    · refine List.forall_mem_cons.2 ⟨⟨rfl, hunsup⟩, List.forall_mem_nil _⟩
    · refine List.forall_mem_cons.2 ⟨fun q hq => ?_, List.forall_mem_nil _⟩
      exact (hflush.listed q hq).2

/-- The trees, the touches and the marks are as the walk has left them. -/
theorem Backup.store_finish (b : Backup) (opts : BackupOptions) (started : Time)
    (roots : List Root) (parentKey : Option SnapshotKey) :
    (b.finish opts started roots parentKey).repo.store.trees = b.repo.store.trees ∧
      (b.finish opts started roots parentKey).repo.store.touches = b.repo.store.touches ∧
      (b.finish opts started roots parentKey).repo.store.marks = b.repo.store.marks := by
  unfold Backup.finish flushPack
  dsimp only
  split_ifs <;> exact ⟨rfl, rfl, rfl⟩

/-- The backup has not taken too long by this time. -/
def PreparedBackup.InTime (p : PreparedBackup) (t : Time) : Prop :=
  t - p.started + min graceSafetyMargin (p.opts.gcGrace / 2) < p.opts.gcGrace

/-- Between its halves all that the roots of a backup need is there, but for the chunks that the
commit will look for: its trees are recent, and no mark of its packs is older than it. -/
structure PreparedBackup.Waits (repo : TimedRepository) (p : PreparedBackup) : Prop where
  trees : ∀ root ∈ p.roots, ∀ id, repo.keys.Reaches root.tree id →
    (∃ t, repo.readTreeOnce (.tree id) id = .ok t) ∧ repo.Recent p.started id
  genuine : ∀ root ∈ p.roots, ∀ t, repo.keys.Reaches root.tree (repo.keys.treeId t) →
    ∀ e ∈ t.entries, e.Genuine repo.keys
  chunks : ∀ root ∈ p.roots, ∀ x, repo.keys.Needs root.tree x →
    (∃ loc, Lists (effectivePacks repo.indexBlobs) x loc ∧ loc.pack ∈ p.ownPacks) ∨ p.Verifies x
  marks : ∀ id ∈ p.ownPacks, ∀ m, repo.store.marks.lookup id = some m → p.started ≤ m

theorem mem_trees_of_readTreeOnce {repo : Repository} {id : TreeId} {t : Tree}
    (h : repo.readTreeOnce (.tree id) id = .ok t) : id ∈ repo.store.trees := by
  by_contra hnot
  have hget : repo.store.getSealed (.tree id) = none := AList.lookup_eq_none.2 hnot
  unfold Repository.readTreeOnce at h
  rw [hget] at h
  cases h

theorem PreparedBackup.Waits.of_keeps {packs : Set ObjectId} {trees : Set TreeId} {t : Time}
    (h : p.Waits repo) (hk : TimedRepository.Keeps packs trees repo repo')
    (ha : TimedRepository.Ages t trees repo repo') (ht : p.started ≤ t)
    (hpacks : ∀ id ∈ p.ownPacks, id ∉ packs)
    (htrees : ∀ root ∈ p.roots, ∀ id, repo.keys.Reaches root.tree id → id ∉ trees) :
    p.Waits repo' where
  trees root hroot id hid := by
    rw [hk.keys] at hid
    obtain ⟨⟨tree, hread⟩, hrecent⟩ := h.trees root hroot id hid
    have hout := htrees root hroot id hid
    exact ⟨⟨tree, hk.trees id hout tree hread⟩,
      ha.recent _ ht id (mem_trees_of_readTreeOnce hread) hout hrecent⟩
  genuine root hroot tree hid := by
    rw [hk.keys] at hid ⊢
    exact h.genuine root hroot tree hid
  chunks root hroot x hx := by
    rw [hk.keys] at hx
    refine (h.chunks root hroot x hx).imp_left fun ⟨loc, hl, hown⟩ => ?_
    exact ⟨loc, hk.lists x loc hl (hpacks _ hown), hown⟩
  marks id hid m hm := (ha.marks id m hm).elim (h.marks id hid m) ht.trans

/-- The chunker of a backup has the parameters of the repository. -/
theorem params_of_newChunker {repo : Repository} {chunker : Chunking.Chunker}
    (hvalid : repo.config.chunker.Valid) (h : repo.newChunker = .ok chunker) :
    chunker.params = repo.config.chunker := by
  obtain ⟨c, hc, hparams⟩ := Chunking.new_ok hvalid
  unfold Repository.newChunker at h
  rw [hc] at h
  rw [← Except.ok.inj h, hparams]

/-- The contents of the parent snapshot stand for bytes. -/
theorem Prepared.genuine_parent (h : Prepared repo.toRepository opts nonce started now p)
    (hi : repo.Intact) : ∀ root ∈ h.parentRoots, repo.keys.GenuineTree root.tree := by
  intro root hroot
  unfold Prepared.parentRoots at hroot
  cases hparent : h.parent with
  | none =>
    rw [hparent] at hroot
    cases hroot
  | some found =>
    obtain ⟨key, snap⟩ := found
    rw [hparent] at hroot
    have hfound := h.found
    rw [hparent] at hfound
    obtain ⟨latest, hlatest, hfound⟩ := Option.bind_eq_some_iff.1 hfound.symm
    obtain ⟨s, hs, hfound⟩ := Option.bind_eq_some_iff.1 hfound
    split_ifs at hfound
    cases hfound
    have hmem := (List.mem_filter.1 (latestKey_eq_some hlatest).1).1
    refine (hi.serves root.tree ⟨key, AList.mem_keys.2 hmem, snap, ?_, root,
      hroot, rfl⟩).genuineTree
    cases hread : repo.readSnapshot key with
    | error e => rw [hread] at hs; cases hs
    | ok s' => rw [hread] at hs; cases hs; rfl

/-- No index blob that counts lists a pack that is not there. -/
theorem TimedRepository.Sound.not_indexes (h : repo.Sound) {pack : ObjectId}
    (hpack : pack ∉ repo.store.packs) : ¬repo.Indexes pack := by
  rintro ⟨all, hall, q, hq, rfl⟩
  cases (TimedRepository.loadIndexBlobs_of_readable h.readable).symm.trans hall
  obtain ⟨pack, hp, -⟩ := h.listed q hq
  exact hpack (AList.lookup_isSome.1 (by rw [hp]; rfl))

/-- **The first half.** -/
theorem Prepared.waits (hkeys : repo.keys.Faithful) (hvalid : repo.config.chunker.Valid)
    (hi : repo.Intact) (hfresh : repo.FreshNames nonce) {t : Time} (ht : t ≤ now)
    (hstarted : started ≤ now) (h : Prepared repo.toRepository opts nonce started now p) :
    (∃ new, TimedRepository.Extends new repo (repo.put now p.repo)) ∧
      TimedRepository.Ages t ∅ repo (repo.put now p.repo) ∧ p.Waits (repo.put now p.repo) := by
  have hrun := Backup.prepareRoots_proceeds (h.chunker_valid hvalid) h.walk
  have hbegin : Backup.Uploaded repo.toRepository nonce now h.start :=
    Backup.uploaded_start (params_of_newChunker hvalid h.new)
  have hup := hbegin.run hfresh.packs hkeys.pack hkeys.sealed hkeys.tree hrun
  have hpending : pendingPack ∉ repo.store.packs := fun hmem => by
    obtain ⟨pack, hp⟩ := Option.isSome_iff_exists.1 (AList.lookup_isSome.2 hmem)
    exact (hi.packs _ pack hp).2 rfl
  have hstart := h.covers_start hvalid hkeys.pending (hi.not_indexes hpending)
    fun n hn chunks => hi.not_indexes (hfresh.packs n hn chunks)
  obtain ⟨hcovers, -, hroots⟩ :=
    Backup.prepareRoots_covers hkeys.chunk hkeys.decode _ _ _ hstart h.walk
  have hgenuine : Backup.Genuine repo.keys h.walked.2 :=
    Backup.prepareRoots_genuine hkeys.decode (h.genuine_parent hi) _ _ _
      ⟨rfl, h.chunker_valid hvalid, (fun key c hc => by cases hc), List.forall_mem_nil _⟩ h.walk
  obtain ⟨new, hext, hlisted⟩ := hup.finish hkeys hi.toSound hfresh opts started h.walked.1
    (h.parent.map Prod.fst)
  have hseen : ∀ root ∈ h.walked.1, ∀ id, repo.keys.Reaches root.tree id →
      id ∈ h.walked.2.seenTrees := fun root hroot _ hid =>
    hcovers.seen_of_reaches hkeys.tree (hroots root hroot) hid
  obtain ⟨htrees, htouches, hmarks⟩ := h.walked.2.store_finish opts started h.walked.1
    (h.parent.map Prod.fst)
  rw [h.eq]
  refine ⟨⟨new, hext⟩, TimedRepository.ages_put ht (hmarks.trans hup.marks) (fun id => ?_),
    ⟨fun root hroot id hid => ⟨?_, ?_⟩, fun root hroot t ht e he => ?_, fun root hroot x hx => ?_,
      fun id hid m hm => ?_⟩⟩
  · rw [htouches]
    exact hup.touches id
  · rw [hext.keys] at hid
    obtain ⟨t, hread⟩ := hup.seen id (hseen root hroot id hid)
    have hget : (h.walked.2.finish opts started h.walked.1
      (h.parent.map Prod.fst)).repo.store.getSealed
        (.tree id) = h.walked.2.repo.store.getSealed (.tree id) :=
      congrArg (fun trees : Dict TreeId Sealed => trees.lookup id) htrees
    exact ⟨t, (Repository.readTreeOnce_congr (keys_finish _ _ _ _ _) hget).trans hread⟩
  · -- a tree that was there has been touched
    rw [hext.keys] at hid
    rcases hup.touched id (hseen root hroot id hid) with hnone | htouch
    · refine .inl (hstarted.trans_eq (if_neg fun hmem => ?_).symm)
      exact AList.lookup_eq_none.1 hnone (AList.mem_keys.2 hmem)
    · exact .inr ⟨now,
        (congrArg (fun touches : Dict TreeId Time => touches.lookup id) htouches).trans
        htouch, hstarted⟩
  · rw [hext.keys] at ht ⊢
    obtain ⟨t', ht', hentries⟩ := hgenuine.trees _ (hseen root hroot _ ht)
    rw [← hkeys.tree ht'] at he
    exact hentries e he
  · rw [hext.keys] at hx
    obtain ⟨t, e, ht, he, hk, hrefers⟩ := hx
    obtain ⟨t', ht', -, hentries⟩ := hcovers.trees _ (hseen root hroot _ ht)
    rw [← hkeys.tree ht'] at he
    obtain ⟨htracks, hahead, hempty⟩ := hcovers.toTracks.flushPack
    cases hahead x ((hentries e he).file hk x hrefers) with
    | packing c hc =>
      rw [hempty] at hc
      cases hc
    | packed q hq e he hx =>
      obtain ⟨c, hc, hqc⟩ := hlisted q hq
      exact .inl ⟨_, ⟨q, hext.mem_effectivePacks.2 (.inr ⟨c, hc, hqc⟩), e, he, hx, rfl⟩,
        List.mem_map_of_mem hq⟩
    | noted pack hold cs hl hx =>
      refine .inr ⟨pack, cs, hl, fun hown => ?_, hx⟩
      obtain ⟨q, hq, rfl⟩ := List.mem_map.1 hown
      exact (htracks.named q hq).1 hold
  · obtain ⟨q, hq, rfl⟩ := List.mem_map.1 hid
    obtain ⟨⟨n, chunks, hn, -, hname⟩, -⟩ :=
      (hup.flushPack hfresh.packs hkeys.pack).listed q hq
    have hm : repo.store.marks.lookup q.pack = some m := by
      rw [← hup.marks, ← hmarks]
      exact hm
    refine absurd (AList.lookup_isSome.1 (by rw [hm]; rfl)) ?_
    rw [hname]
    exact hfresh.marks n hn chunks

end Puts

/-! ### The second half -/

section Commit

variable {repo repo' : TimedRepository} {p : PreparedBackup} {now : Time}

theorem forM_eq_ok {α : Type*} {f : α → Except CoreError Unit} {l : List α} :
    l.forM f = .ok () ↔ ∀ a ∈ l, f a = .ok () := by
  induction l with
  | nil => exact ⟨fun _ => List.forall_mem_nil _, fun _ => rfl⟩
  | cons a l ih =>
    show (do f a; l.forM f) = .ok () ↔ _
    rw [List.forall_mem_cons, ← ih]
    constructor
    · intro h
      obtain ⟨⟨⟩, ha, hl⟩ := bind_eq_ok.1 h
      exact ⟨ha, hl⟩
    · rintro ⟨ha, hl⟩
      exact bind_eq_ok.2 ⟨(), ha, hl⟩

/-- The commit has found the chunks that it looks for. -/
theorem PreparedBackup.indexed_of_verify (hs : repo.Sound)
    (h : p.verify repo.toRepository now = .ok ())
    {x : ChunkId} (hx : p.Verifies x) : repo.Indexed x := by
  obtain ⟨pack, chunks, hl, hown, hx⟩ := hx
  unfold PreparedBackup.verify at h
  dsimp only at h
  split_ifs at h
  · cases h
  obtain ⟨⟨⟩, hchunks, -⟩ := bind_eq_ok.1 h
  unfold Repository.verifyReferencedChunks at hchunks
  have hmem : ⟨pack, chunks⟩ ∈ p.referenced.entries := AList.mem_lookup_iff.1 hl
  rw [if_neg fun hnil => by rw [hnil] at hmem; cases hmem] at hchunks
  obtain ⟨index, hindex, hchunks⟩ := bind_eq_ok.1 hchunks
  have hpack := forM_eq_ok.1 hchunks _ hmem
  rw [if_neg hown] at hpack
  have hchunk := forM_eq_ok.1 hpack x hx
  unfold Repository.verifyChunk at hchunk
  cases hget : index.get x with
  | none =>
    rw [hget] at hchunk
    cases hchunk
  | some loc =>
    obtain ⟨all, hall, hindex⟩ := bind_eq_ok.1 hindex
    cases (TimedRepository.loadIndexBlobs_of_readable hs.readable).symm.trans hall
    cases hindex
    exact isSome_get_loadIndexRanked.1 (by rw [hget]; rfl)

/-- What a commit may change: the snapshot that it writes can be read, and other ones stay. -/
theorem commitSnapshot_changes {make : Time → Snapshot} {outcome : Except CoreError SnapshotKey}
    {r : Repository} {attempts : ℕ} {now : Time} {repo : Repository}
    (h : Repository.commitSnapshot make attempts now repo = (outcome, r)) :
    (∃ snapshots replicas, r = { repo with
      store.snapshots := snapshots, store.snapshotReplicas := replicas }) ∧
    ∀ key ∈ r.store.snapshots, key ∈ repo.store.snapshots ∧
      r.store.snapshots.lookup key = repo.store.snapshots.lookup key ∨
        ∃ t, r.readSnapshot key = .ok (make t) := by
  induction attempts generalizing now repo with
  | zero =>
    cases h
    exact ⟨⟨_, _, rfl⟩, fun key hkey => .inl ⟨hkey, rfl⟩⟩
  | succ attempts ih =>
    unfold Repository.commitSnapshot at h
    dsimp only at h
    split_ifs at h
    · split at h
      · next repo₁ hw =>
        cases h
        obtain ⟨hv, hl, hsame⟩ := Repository.writeSnapshot_ok hw
        refine ⟨hsame, fun key hkey => ?_⟩
        by_cases heq : key = (make now).key
        · exact .inr ⟨now, heq ▸ Repository.readSnapshot_of_lookup hl hv rfl⟩
        · have hlook := writeSnapshot_lookup_ne hw heq
          exact .inl ⟨AList.lookup_isSome.1 (hlook ▸ AList.lookup_isSome.2 hkey), hlook⟩
      · next repo₁ hw =>
        obtain ⟨replicas, rfl⟩ := Repository.writeSnapshot_error hw
        have hrest := ih h
        exact hrest
      · next hw =>
        obtain ⟨replicas, rfl⟩ := Repository.writeSnapshot_error hw
        cases h
        exact ⟨⟨_, _, rfl⟩, fun key hkey => .inl ⟨hkey, rfl⟩⟩
    · cases h
      exact ⟨⟨_, _, rfl⟩, fun key hkey => .inl ⟨hkey, rfl⟩⟩

/-- Where only snapshots change nothing else is lost. -/
theorem TimedRepository.Intact.snapshots_change (hi : repo.Intact)
    {snapshots replicas : Dict SnapshotKey Sealed} {r : Repository}
    (h : r = { repo.toRepository with
      store.snapshots := snapshots, store.snapshotReplicas := replicas })
        {t : Time} (ht : t ≤ now) :
    (repo.put now r).Sound ∧ TimedRepository.Keeps ∅ ∅ repo (repo.put now r) ∧
      TimedRepository.Ages t ∅ repo (repo.put now r) := by
  subst h
  exact ⟨⟨hi.readable, hi.packs, hi.listed, hi.irrefl, hi.chain⟩,
    ⟨rfl, rfl, fun _ _ hl _ => hl, fun _ _ _ hread => hread⟩,
    TimedRepository.ages_put ht rfl fun _ => .inl rfl⟩

/-- Where nothing changes but the time. -/
theorem TimedRepository.Intact.put_self (hi : repo.Intact) {t : Time} (ht : t ≤ now) :
    (repo.put now repo.toRepository).Intact ∧
      TimedRepository.Keeps ∅ ∅ repo (repo.put now repo.toRepository) ∧
      TimedRepository.Ages t ∅ repo (repo.put now repo.toRepository) := by
  obtain ⟨hsound, hk, ha⟩ := hi.snapshots_change (rfl : repo.toRepository = repo.toRepository) ht
  exact ⟨hi.of_keeps hsound hk fun key hkey => ⟨hkey, rfl⟩, hk, ha⟩

/-- A commit in time. -/
theorem PreparedBackup.inTime_of_verify (h : p.verify repo.toRepository now = .ok ()) :
    p.InTime now := by
  unfold PreparedBackup.verify at h
  dsimp only at h
  split_ifs at h with hlong
  · cases h
  exact not_le.1 hlong

/-- **The second half.** -/
theorem PreparedBackup.Waits.commit (hi : repo.Intact) (hw : p.InTime now → p.Waits repo)
    {outcome : Except CoreError SnapshotKey} {r : Repository} {t : Time} (ht : t ≤ now)
    (h : p.commitAt repo.toRepository now = (outcome, r)) :
    (repo.put now r).Intact ∧ TimedRepository.Keeps ∅ ∅ repo (repo.put now r) ∧
      TimedRepository.Ages t ∅ repo (repo.put now r) := by
  unfold PreparedBackup.commitAt at h
  split at h
  · cases h
    exact hi.put_self ht
  · next hverify =>
    obtain ⟨⟨snapshots, replicas, hr⟩, hchanges⟩ := commitSnapshot_changes h
    obtain ⟨hsound, hkeeps, hages⟩ := hi.snapshots_change hr ht
    have hw := hw (PreparedBackup.inTime_of_verify hverify)
    have hroots : ∀ root ∈ p.roots, repo.Serves root.tree := by
      intro root hroot
      refine ⟨fun id hid => (hw.trees root hroot id hid).1, hw.genuine root hroot, fun x hx => ?_⟩
      rcases hw.chunks root hroot x hx with ⟨loc, hl, -⟩ | hverifies
      · exact ⟨loc, hl⟩
      · exact p.indexed_of_verify hi.toSound hverify hverifies
    refine ⟨⟨hsound, fun key hkey => ?_, ?_⟩, hkeeps, hages⟩
    · rcases hchanges key hkey with ⟨hmem, hlook⟩ | ⟨t, hread⟩
      · obtain ⟨s, hs⟩ := hi.snapshots key hmem
        exact ⟨s, (TimedRepository.readSnapshot_of_mem hmem hlook).trans hs⟩
      · exact ⟨_, hread⟩
    · rintro root ⟨key, hkey, s, hread, y, hy, rfl⟩
      rcases hchanges key hkey with ⟨hmem, hlook⟩ | ⟨t, hread'⟩
      · have hread := (TimedRepository.readSnapshot_of_mem hmem hlook).symm.trans hread
        exact (hi.serves _ ⟨key, hmem, s, hread, y, hy, rfl⟩).of_keeps hkeeps
      · cases hread'.symm.trans hread
        exact (hroots y hy).of_keeps hkeeps

end Commit

/-! ### Clients -/

/-- What a forget leaves that may have stopped: snapshots and replicas are gone, or as they were. -/
def Repository.Forgets (repo r : Repository) : Prop :=
  ∃ snapshots replicas, r = { repo with
    store.snapshots := snapshots, store.snapshotReplicas := replicas } ∧
      ∀ key ∈ snapshots, snapshots.lookup key = repo.store.snapshots.lookup key

theorem Repository.forgets_of_forget {cal : Calendar} {repo r : Repository} {opts : ForgetOptions}
    {outcome : Except CoreError ForgetSummary} (h : repo.forget cal opts = some (outcome, r)) :
    repo.Forgets r := by
  have hrefl : repo.Forgets repo := ⟨_, _, rfl, fun _ _ => rfl⟩
  unfold Repository.forget at h
  split at h
  · cases h
    exact hrefl
  split at h
  · cases h
    exact hrefl
  split at h
  · cases h
    exact hrefl
  obtain ⟨plan, -, h⟩ := Option.bind_eq_some_iff.1 h
  cases plan with
  | error e =>
    cases h
    exact hrefl
  | ok summary =>
    cases h
    split_ifs
    · exact hrefl
    · obtain ⟨hsnap, -, snapshots, replicas, heq⟩ := deleteSnapshots_spec repo summary.removed
      refine ⟨snapshots, replicas, heq, fun key hkey => ?_⟩
      have hlook := hsnap key
      rw [heq] at hlook
      refine hlook.trans (if_neg fun hmem => ?_)
      rw [if_pos hmem] at hlook
      have hsome := AList.lookup_isSome.2 hkey
      rw [hlook] at hsome
      cases hsome

theorem PreparedBackup.InTime.mono {p : PreparedBackup} {t t' : Time} (h : p.InTime t')
    (hle : t ≤ t') : p.InTime t :=
  (Int.add_le_add_right (Int.sub_le_sub_right hle _) _).trans_lt h

/-- A backup that is in time has started within the grace period. -/
theorem PreparedBackup.InTime.lt {p : PreparedBackup} {t : Time} (h : p.InTime t) {grace : ℕ}
    (hgrace : p.opts.gcGrace ≤ grace) : t < p.started + grace := by
  have aux : ∀ t s g : ℤ, t - s + min (3600 * 10 ^ 9) (g / 2) < g → g ≤ grace → t < s + grace := by
    omega
  exact aux t p.started p.opts.gcGrace h hgrace

/-- The repository, the backups between their halves, and the time of the last step. -/
structure Clients where
  repo : TimedRepository
  waiting : List PreparedBackup
  clock : Time

namespace Clients

/-- What a client may do. A prune grants a backup that is under way at least its own grace
period. -/
inductive Step (s : Clients) : Clients → Prop
  /-- A backup stops at any point of its walk, or when its last pack is there. -/
  | stop (chunker : Chunking.Chunker) (nonce : ℕ) (now : Time) (index : ChunkIndex) (start : ℤ)
    (b b' : Backup) (hnow : s.clock ≤ now) (hchunker : s.repo.newChunker = .ok chunker)
    (hfresh : s.repo.FreshNames nonce)
    (h : Relation.ReflTransGen Backup.Proceeds (s.repo.startBackup chunker nonce now index start) b)
    (hlast : b' = b ∨ b' = b.flushPack) : Step s ⟨s.repo.put now b'.repo, s.waiting, now⟩
  | prepare (opts : BackupOptions) (nonce : ℕ) (started now : Time) (p : PreparedBackup)
    (hstarted : s.clock ≤ started) (hnow : started ≤ now) (hfresh : s.repo.FreshNames nonce)
    (h : s.repo.backupPrepare opts nonce started now = .ok p) :
    Step s ⟨s.repo.put now p.repo, p :: s.waiting, now⟩
  | commit (p : PreparedBackup) (before after : List PreparedBackup) (now : Time)
    (outcome : Except CoreError SnapshotKey) (r : Repository) (hnow : s.clock ≤ now)
    (hp : s.waiting = before ++ p :: after)
    (h : p.commitAt s.repo.toRepository now = (outcome, r)) :
    Step s ⟨s.repo.put now r, before ++ after, now⟩
  | forget (now : Time) (r : Repository) (hnow : s.clock ≤ now) (h : s.repo.Forgets r) :
    Step s ⟨s.repo.put now r, s.waiting, now⟩
  | rebuild (read : ReadPackIndex) (nonce : ℕ) (now : Time)
      (outcome : Except CoreError RebuildSummary)
    (r : Repository) (hnow : s.clock ≤ now) (hfresh : s.repo.FreshFrom nonce)
    (hread : ∀ id p es, s.repo.store.packs.lookup id = some p → read id p = .ok es →
      es = p.chunks.map Prod.fst)
    (h : s.repo.rebuildIndex read nonce = (outcome, r)) : Step s ⟨s.repo.put now r, s.waiting, now⟩
  /-- A prune may stop after any of its operations. -/
  | prune (sorter : SortedTable.UnstableSort TableRecord.sortKey) (opts : PruneOptions)
    (plan : PrunePlan) (faults : PruneFaults) (now : Time) (nonce : ℕ) (ops : List PruneOp)
    (hplanned : s.clock ≤ opts.now) (hnow : opts.now ≤ now)
    (hgrace : ∀ p ∈ s.waiting, p.InTime now → p.opts.gcGrace ≤ opts.grace)
    (hfresh : s.repo.FreshNames nonce)
    (hplan : s.repo.prunePlan sorter opts = .ok plan)
    (hops : ops <+: (s.repo.execute faults plan now nonce).1) :
    Step s ⟨s.repo.after now ops, s.waiting, now⟩

/-- What holds at any time. -/
structure Invariant (s : Clients) : Prop where
  keys : s.repo.keys.Faithful
  valid : s.repo.config.chunker.Valid
  intact : s.repo.Intact
  started : ∀ p ∈ s.waiting, p.started ≤ s.clock
  waits : ∀ p ∈ s.waiting, p.InTime s.clock → p.Waits s.repo

section Run

variable {s s' : Clients} {repo : TimedRepository} {now : Time}

/-- A step that takes nothing away. -/
theorem Invariant.advance (h : s.Invariant) (hnow : s.clock ≤ now)
    (hk : TimedRepository.Keeps ∅ ∅ s.repo repo) (ha : TimedRepository.Ages s.clock ∅ s.repo repo)
    (hi : repo.Intact) {waiting : List PreparedBackup}
    (hw : ∀ p ∈ waiting, p ∈ s.waiting ∨ p.started ≤ now ∧ p.Waits repo) :
    Invariant ⟨repo, waiting, now⟩ where
  keys := hk.keys ▸ h.keys
  valid := hk.config ▸ h.valid
  intact := hi
  started p hp := (hw p hp).elim (fun hmem => (h.started p hmem).trans hnow) And.left
  waits p hp htime := by
    rcases hw p hp with hmem | ⟨-, hwaits⟩
    · exact (h.waits p hmem (htime.mono hnow)).of_keeps hk ha (h.started p hmem)
        (fun _ _ => Set.notMem_empty _) fun _ _ _ _ => Set.notMem_empty _
    · exact hwaits

/-- A prune takes nothing from a backup that is still in time after it. -/
theorem Invariant.prune (h : s.Invariant) {sorter : SortedTable.UnstableSort TableRecord.sortKey}
    {opts : PruneOptions} {plan : PrunePlan} {faults : PruneFaults} {nonce : ℕ} {ops : List PruneOp}
    (hplanned : s.clock ≤ opts.now) (hnow : opts.now ≤ now)
    (hgrace : ∀ p ∈ s.waiting, p.InTime now → p.opts.gcGrace ≤ opts.grace)
    (hfresh : s.repo.FreshNames nonce)
    (hplan : s.repo.prunePlan sorter opts = .ok plan)
    (hops : ops <+: (s.repo.execute faults plan now nonce).1) :
    Invariant ⟨s.repo.after now ops, s.waiting, now⟩ := by
  obtain ⟨live, hp⟩ := TimedRepository.planned_of_prunePlan hplan
  have hk := h.intact.toSound.keeps_prune h.keys hfresh hp hops
  have hclock := hplanned.trans hnow
  refine ⟨hk.keys ▸ h.keys, hk.config ▸ h.valid, h.intact.prune h.keys hfresh hplan hops,
    fun p hmem => (h.started p hmem).trans hclock, fun p hmem htime => ?_⟩
  have hw := h.waits p hmem (htime.mono hclock)
  have hlt : opts.now < p.started + opts.grace := hnow.trans_lt (htime.lt (hgrace p hmem htime))
  refine hw.of_keeps hk (TimedRepository.ages_prune hclock hops) (h.started p hmem)
    (fun id hid hdel => ?_) fun root hroot id hid hdel => ?_
  · exact (TimedRepository.old_of_mem_deletedPacks hp (Finset.mem_coe.1 hdel)
      (hw.marks id hid)).not_gt hlt
  · have hout := TimedRepository.outlived_of_mem_execute hdel
    exact (hout.old hp (hw.trees root hroot id hid).2).not_gt hlt

/-- **One step.** -/
theorem Invariant.step (h : s.Invariant) (hstep : s.Step s') : s'.Invariant := by
  cases hstep with
  | stop chunker nonce now index start b b' hnow hchunker hfresh hrun hlast =>
    -- a run that stops has put packs and trees and no index blob; whatever it put extends the store
    have hbegin : Backup.Uploaded s.repo.toRepository nonce now
        (s.repo.startBackup chunker nonce now index start) :=
      Backup.uploaded_start (params_of_newChunker h.valid hchunker)
    have hup := hbegin.run hfresh.packs h.keys.pack h.keys.sealed h.keys.tree hrun
    have hup : Backup.Uploaded s.repo.toRepository nonce now b' := by
      rcases hlast with rfl | rfl
      · exact hup
      · exact hup.flushPack hfresh.packs h.keys.pack
    have hext := hup.extends h.keys h.intact.toSound
    exact h.advance hnow hext.keeps (TimedRepository.ages_put hnow hup.marks hup.touches)
      (hext.intact h.intact) fun p hp => .inl hp
  | prepare opts nonce started now p hstarted hnow hfresh hp =>
    obtain ⟨hprep⟩ := backupPrepare_ok hp
    have hclock := hstarted.trans hnow
    obtain ⟨⟨new, hext⟩, ha, hwaits⟩ :=
      hprep.waits h.keys h.valid h.intact hfresh hclock hnow
    -- the prepared snapshot joins those that wait, and they keep what they wait for
    refine h.advance hclock hext.keeps ha (hext.intact h.intact) fun q hq => ?_
    rcases List.mem_cons.1 hq with rfl | hq
    · exact .inr ⟨(congrArg PreparedBackup.started hprep.eq).trans_le hnow, hwaits⟩
    · exact .inl hq
  | commit p before after now outcome r hnow hp hcommit =>
    -- the committed one leaves the list
    have hmem : p ∈ s.waiting := hp ▸ List.mem_append_right _ List.mem_cons_self
    obtain ⟨hi, hk, ha⟩ := PreparedBackup.Waits.commit h.intact
      (fun htime => h.waits p hmem (htime.mono hnow)) hnow hcommit
    refine h.advance hnow hk ha hi fun q hq => .inl ?_
    rw [hp]
    rcases List.mem_append.1 hq with hq | hq
    · exact List.mem_append_left _ hq
    · exact List.mem_append_right _ (List.mem_cons_of_mem _ hq)
  | forget now r hnow hforget =>
    obtain ⟨snapshots, replicas, hr, hsame⟩ := hforget
    obtain ⟨hsound, hk, ha⟩ := h.intact.snapshots_change hr hnow
    -- a forget only takes snapshots away
    refine h.advance hnow hk ha (h.intact.of_keeps hsound hk fun key hkey => ?_) fun p hp => .inl hp
    subst hr
    have hlook := hsame key hkey
    exact ⟨AList.lookup_isSome.1 (hlook ▸ AList.lookup_isSome.2 hkey), hlook⟩
  | rebuild read nonce now outcome r hnow hfresh hread hrebuild =>
    -- a rebuild that cannot read a pack fails before its only put
    unfold Repository.rebuildIndex at hrebuild
    split at hrebuild
    · cases hrebuild
      obtain ⟨hi, hk, ha⟩ := h.intact.put_self hnow
      exact h.advance hnow hk ha hi fun p hp => .inl hp
    · next blob hblob =>
      cases hrebuild
      obtain ⟨hi, hk⟩ := @TimedRepository.Intact.rebuild s.repo read nonce blob now h.intact hfresh
        hread hblob
      exact h.advance hnow hk (TimedRepository.ages_put hnow rfl fun _ => .inl rfl) hi
        fun p hp => .inl hp
  | prune sorter opts plan faults now nonce ops hplanned hnow hgrace hfresh hplan hops =>
    exact h.prune hplanned hnow hgrace hfresh hplan hops

/-- **Any number of steps.** -/
theorem Invariant.run (h : s.Invariant) (hrun : Relation.ReflTransGen Step s s') :
    s'.Invariant := by
  induction hrun with
  | refl => exact h
  | tail _ hstep ih => exact ih.step hstep

end Run

/-- An empty repository is intact. -/
theorem intact_of_empty {repo : TimedRepository} (h : repo.store = ⟨∅, ∅, ∅, ∅, ∅, ∅, ∅, ∅⟩) :
    repo.Intact := by
  have hindexes : repo.store.indexes.keys = [] := by
    rw [h]
    rfl
  have hblobs : repo.indexBlobs = [] := by
    unfold TimedRepository.indexBlobs
    rw [hindexes]
    rfl
  have herrors : repo.indexErrors = [] := by
    unfold TimedRepository.indexErrors
    rw [hindexes]
    rfl
  have hsnap : ∀ key, key ∉ repo.store.snapshots := fun key hkey => by
    rw [h] at hkey
    cases hkey
  refine ⟨⟨herrors, fun id p hp => ?_, ?_, ?_, ?_⟩, fun key hkey => absurd hkey (hsnap key),
    fun root hlive => ?_⟩
  · rw [h] at hp
    cases hp
  rotate_right
  · obtain ⟨key, hkey, -⟩ := hlive
    exact absurd hkey (hsnap key)
  all_goals rw [hblobs]
  · exact List.forall_mem_nil _
  · exact List.forall_mem_nil _
  · exact List.forall_mem_nil _

theorem Invariant.of_empty {s : Clients} (hkeys : s.repo.keys.Faithful)
    (hvalid : s.repo.config.chunker.Valid) (hempty : s.repo.store = ⟨∅, ∅, ∅, ∅, ∅, ∅, ∅, ∅⟩)
    (hnone : s.waiting = []) : s.Invariant := by
  have hnobody : ∀ p, p ∉ s.waiting := by
    rw [hnone]
    exact fun _ => List.not_mem_nil
  exact ⟨hkeys, hvalid, intact_of_empty hempty, fun p hp => absurd hp (hnobody p),
    fun p hp => absurd hp (hnobody p)⟩

/-- **Clients side by side.** Whatever clients do in a repository that was empty, and wherever their
backups stop, the index can be loaded, all snapshots and all trees below them can be read, and so
can every file in them, with its recorded size. -/
theorem snapshots_readable {s s' : Clients} (hkeys : s.repo.keys.Faithful)
    (hvalid : s.repo.config.chunker.Valid) (hempty : s.repo.store = ⟨∅, ∅, ∅, ∅, ∅, ∅, ∅, ∅⟩)
    (hnone : s.waiting = []) (hrun : Relation.ReflTransGen Step s s') :
    ∃ index, s'.repo.loadIndexUncached = .ok index ∧
      ∀ key ∈ s'.repo.listSnapshotKeys, ∃ snapshot, s'.repo.readSnapshot key = .ok snapshot ∧
        ∀ root ∈ snapshot.roots, ∀ id, s'.repo.TreeReach root.tree id →
          ∃ t, s'.repo.readTree id = .ok t ∧
            ∀ e ∈ t.entries, e.kind = .file → s'.repo.Reads index e := by
  have h := (Invariant.of_empty hkeys hvalid hempty hnone).run hrun
  exact h.intact.reads h.keys

end Clients

/-! ### Two clients -/

theorem RepoKeys.faithful_ideal : RepoKeys.ideal.Faithful where
  chunk := chunkId_ideal_injective
  tree := treeId_ideal_injective
  pack _ _ _ _ h := Nat.succ_injective h
  pending n _ := Nat.succ_ne_zero n
  sealed _ := Nat.succ_pos _
  decode := decodeList_ideal

theorem Backup.keys_of_proceeds {b b' : Backup} (h : Relation.ReflTransGen Proceeds b b') :
    b'.repo.keys = b.repo.keys := by
  induction h with
  | refl => rfl
  | tail _ hstep ih =>
    refine Eq.trans ?_ ih
    cases hstep with
    | note => rfl
    | chunk st chunk => exact (sameRun_addChunk _ _ _).keys
    | tree t r h =>
      obtain ⟨_, _, _, _, hr⟩ := writeTree_eq h
      rw [hr]

/-- The names in use are those of objects that were sealed before. -/
theorem TimedRepository.freshNames_ideal {repo : TimedRepository} (nonce : ℕ)
    (blobs : List (ℕ × IndexBlob)) (hkeys : repo.keys = .ideal)
    (hindexes : repo.store.indexes.keys =
      blobs.map fun b => RepoKeys.ideal.objectId (.indexBlob b.1 b.2))
    (hbelow : ∀ b ∈ blobs, b.1 < nonce) (hsup : supersededBy repo.indexBlobs = [])
    (hpacks : ∀ id ∈ repo.store.packs.keys, id ≤ nonce) (hmarks : repo.store.marks.keys = []) :
    repo.FreshNames nonce where
  blobs n hn blob := by
    rw [hkeys]
    refine ⟨fun hmem => ?_, by simp [hsup]⟩
    rw [AList.mem_keys, hindexes] at hmem
    obtain ⟨b, hb, hname⟩ := List.mem_map.1 hmem
    obtain rfl : b = (n, blob) := Encodable.encode_injective (Nat.succ_injective hname)
    exact absurd hn (not_le.2 (hbelow _ hb))
  packs n hn chunks hmem := by
    rw [hkeys] at hmem
    exact absurd (hpacks _ (AList.mem_keys.1 hmem)) (not_le.2 (Nat.lt_succ_of_le hn))
  marks n _ chunks hmem := by
    rw [AList.mem_keys, hmarks] at hmem
    cases hmem

namespace Clients

variable {s s' : Clients} {now : Time}

/-- A client makes the first half of a backup. -/
def prepare (s : Clients) (opts : BackupOptions) (nonce : ℕ) (now : Time) : Option Clients :=
  (s.repo.backupPrepare opts nonce now now).toOption.map fun p =>
    ⟨s.repo.put now p.repo, p :: s.waiting, now⟩

/-- The backup that waits is committed. -/
def commit (s : Clients) (now : Time) : Clients :=
  match s.waiting with
  | [p] => ⟨s.repo.put now (p.commitAt s.repo.toRepository now).2, [], now⟩
  | _ => s

/-- All snapshots are forgotten. -/
def forgetAll (s : Clients) (now : Time) : Clients :=
  ⟨s.repo.put now { s.repo.toRepository with
    store.snapshots := ∅, store.snapshotReplicas := ∅ }, s.waiting, now⟩

/-- A prune runs to its end. -/
def prune (s : Clients) (opts : PruneOptions) (nonce : ℕ) : Option Clients :=
  (s.repo.prunePlan (.stable _) opts).toOption.map fun plan =>
    ⟨s.repo.after opts.now (s.repo.execute TimedRepository.noFaults plan opts.now nonce).1,
      s.waiting, opts.now⟩

theorem toOption_eq_some {α : Type*} {x : Except CoreError α} {a : α}
    (h : x.toOption = some a) : x = .ok a := by
  cases x with
  | error e => cases h
  | ok b => exact congrArg _ (Option.some.inj h)

theorem step_prepare {opts : BackupOptions} {nonce : ℕ} (hnow : s.clock ≤ now)
    (hfresh : s.repo.FreshNames nonce) (h : s.prepare opts nonce now = some s') : s.Step s' := by
  obtain ⟨p, hp, rfl⟩ := Option.map_eq_some_iff.1 h
  exact .prepare opts nonce now now p hnow le_rfl hfresh (toOption_eq_some hp)

theorem clock_prepare {opts : BackupOptions} {nonce : ℕ}
    (h : s.prepare opts nonce now = some s') : s'.clock = now := by
  obtain ⟨p, -, rfl⟩ := Option.map_eq_some_iff.1 h
  rfl

theorem clock_commit (hnow : s.clock ≤ now) : (s.commit now).clock ≤ now := by
  unfold commit
  split
  · exact le_rfl
  · exact hnow

theorem clock_prune {opts : PruneOptions} {nonce : ℕ} (h : s.prune opts nonce = some s') :
    s'.clock = opts.now := by
  obtain ⟨plan, -, rfl⟩ := Option.map_eq_some_iff.1 h
  rfl

theorem keys_prepare (hvalid : s.repo.config.chunker.Valid) {opts : BackupOptions} {nonce : ℕ}
    (h : s.prepare opts nonce now = some s') : s'.repo.keys = s.repo.keys := by
  obtain ⟨p, hp, rfl⟩ := Option.map_eq_some_iff.1 h
  obtain ⟨hprep⟩ := backupPrepare_ok (toOption_eq_some hp)
  show p.repo.keys = _
  rw [hprep.eq]
  exact (keys_finish _ _ _ _ _).trans (Backup.keys_of_proceeds
    (Backup.prepareRoots_proceeds (hprep.chunker_valid hvalid) hprep.walk))

theorem keys_commit : (s.commit now).repo.keys = s.repo.keys := by
  unfold commit
  split
  · next p hp =>
    show (p.commitAt s.repo.toRepository now).2.keys = _
    unfold PreparedBackup.commitAt
    split
    · rfl
    · obtain ⟨⟨_, _, hr⟩, -⟩ := commitSnapshot_changes (Prod.mk.eta.symm)
      rw [hr]
  · rfl

theorem run_commit (hnow : s.clock ≤ now) : Relation.ReflTransGen Step s (s.commit now) := by
  unfold commit
  split
  · next p hp =>
    exact .single (.commit p [] [] now _ _ hnow hp rfl)
  · exact .refl

theorem step_forgetAll (hnow : s.clock ≤ now) : s.Step (s.forgetAll now) :=
  .forget now _ hnow ⟨∅, ∅, rfl, fun _ hkey => by cases hkey⟩

theorem step_prune {opts : PruneOptions} {nonce : ℕ} (hnow : s.clock ≤ opts.now)
    (hgrace : ∀ p ∈ s.waiting, p.opts.gcGrace ≤ opts.grace) (hfresh : s.repo.FreshNames nonce)
    (h : s.prune opts nonce = some s') : s.Step s' := by
  obtain ⟨plan, hplan, rfl⟩ := Option.map_eq_some_iff.1 h
  exact .prune _ opts plan _ opts.now nonce _ hnow le_rfl (fun p hp _ => hgrace p hp) hfresh
    (toOption_eq_some hplan) List.prefix_rfl

end Clients

/-- The index blob of the first backup. -/
def firstBlob : IndexBlob := .new [⟨1, 49, [⟨RepoKeys.ideal.chunkId [7], 8, 41, 1⟩]⟩]

/-- An empty repository, before any client. -/
def noClient : Clients := ⟨⟨.emptyIdeal, fun _ _ => 0, []⟩, [], 0⟩

/-- One client backs up. -/
def firstClient : Option Clients :=
  (noClient.prepare oneByteOptions 0 100).map (·.commit 200)

/-- Another one makes the first half of a backup, which goes without the chunk that it finds, and
all snapshots are forgotten. -/
def secondClient : Option Clients :=
  firstClient.bind fun s =>
    (s.prepare { oneByteOptions with clientId := 2 } 10 (5 * 10 ^ 14)).map
      (·.forgetAll (6 * 10 ^ 14))

/-- A prune marks the pack of the chunk, and the second backup is committed. -/
def bothClients : Option Clients :=
  secondClient.bind fun s => (s.prune ⟨10 ^ 15, 10 ^ 15, 0, 50, false, 11 * 10 ^ 14⟩ 20).map
    (·.commit (12 * 10 ^ 14))

/-- The second backup is committed after a forget and a prune that have come between its halves. -/
theorem snapshots_readable_bothClients :
    ∃ s ∈ bothClients, s.repo.listSnapshotKeys.map SnapshotKey.client = [2] ∧
      1 ∈ s.repo.store.marks.keys ∧
      ∃ index, s.repo.loadIndexUncached = .ok index ∧
        ∀ key ∈ s.repo.listSnapshotKeys, ∃ snapshot, s.repo.readSnapshot key = .ok snapshot ∧
          ∀ root ∈ snapshot.roots, ∀ id, s.repo.TreeReach root.tree id →
            ∃ t, s.repo.readTree id = .ok t ∧
              ∀ e ∈ t.entries, e.kind = .file → s.repo.Reads index e := by
  have hfinal : bothClients.map (fun s => (s.repo.listSnapshotKeys.map SnapshotKey.client,
      decide (1 ∈ s.repo.store.marks.keys))) = some ([2], true) := by decide +kernel
  have hfresh : ∀ made ∈ [firstClient, secondClient], ∀ s ∈ made,
      s.repo.store.indexes.keys = [RepoKeys.ideal.objectId (.indexBlob 1 firstBlob)] ∧
        supersededBy s.repo.indexBlobs = [] ∧ s.repo.store.packs.keys = [1] ∧
          s.repo.store.marks.keys = [] ∧ ∀ p ∈ s.waiting, p.opts.gcGrace ≤ 10 ^ 15 := by
    decide +kernel
  obtain ⟨s, hs, hstate⟩ := Option.map_eq_some_iff.1 hfinal
  obtain ⟨hkeys, hmark⟩ := Prod.mk.inj hstate
  refine ⟨s, hs, hkeys, of_decide_eq_true hmark, ?_⟩
  obtain ⟨s₂, hs₂, hs⟩ := Option.bind_eq_some_iff.1 hs
  obtain ⟨s₁, hs₁, hs₂'⟩ := Option.bind_eq_some_iff.1 hs₂
  obtain ⟨hindexes₁, hsup₁, hpacks₁, hmarks₁, -⟩ := hfresh _ List.mem_cons_self s₁ hs₁
  obtain ⟨hindexes₂, hsup₂, hpacks₂, hmarks₂, hgrace⟩ :=
    hfresh _ (List.mem_cons_of_mem _ List.mem_cons_self) s₂ hs₂
  obtain ⟨s₀, hs₀, rfl⟩ := Option.map_eq_some_iff.1 hs₁
  obtain ⟨s₁', hs₁', rfl⟩ := Option.map_eq_some_iff.1 hs₂'
  obtain ⟨s₂', hs₂', rfl⟩ := Option.map_eq_some_iff.1 hs
  have hvalid := ChunkerParams.valid_of_validate ChunkerParams.validate_default
  have hstart : noClient.Invariant := .of_empty RepoKeys.faithful_ideal hvalid rfl rfl
  -- the first backup
  have hfresh₀ : noClient.repo.FreshNames 0 :=
    TimedRepository.freshNames_ideal 0 [] rfl rfl (List.forall_mem_nil _) rfl
      (List.forall_mem_nil _) rfl
  have hrun₁ : Relation.ReflTransGen Clients.Step noClient (s₀.commit 200) :=
    .head (Clients.step_prepare (by decide) hfresh₀ hs₀)
      (Clients.run_commit ((Clients.clock_prepare hs₀).trans_le (by norm_num)))
  have hkeys₁ : (s₀.commit 200).repo.keys = .ideal :=
    Clients.keys_commit.trans (Clients.keys_prepare hvalid hs₀)
  -- the first half of the second one, and the forget
  have hfresh₁ := TimedRepository.freshNames_ideal 10 [(1, firstBlob)] hkeys₁ hindexes₁ (by simp)
    hsup₁ (by rw [hpacks₁]; decide) hmarks₁
  have hclock₁ : (s₀.commit 200).clock ≤ 5 * 10 ^ 14 :=
    (Clients.clock_commit ((Clients.clock_prepare hs₀).trans_le (by norm_num))).trans (by norm_num)
  have hclock₁' : s₁'.clock ≤ 6 * 10 ^ 14 :=
    (Clients.clock_prepare hs₁').trans_le (by norm_num)
  have hrun₂ := (hrun₁.tail (Clients.step_prepare hclock₁ hfresh₁ hs₁')).tail
    (Clients.step_forgetAll hclock₁')
  -- the prune, and the second half
  have hkeys₂ : (s₁'.forgetAll (6 * 10 ^ 14)).repo.keys = .ideal :=
    (Clients.keys_prepare (hstart.run hrun₁).valid hs₁').trans hkeys₁
  have hfresh₂ := TimedRepository.freshNames_ideal 20 [(1, firstBlob)] hkeys₂ hindexes₂ (by simp)
    hsup₂ (by rw [hpacks₂]; decide) hmarks₂
  have hpruned := Clients.step_prune (show (6 * 10 ^ 14 : Time) ≤ _ by norm_num) hgrace hfresh₂ hs₂'
  have hclock₂' : s₂'.clock ≤ 12 * 10 ^ 14 :=
    (Clients.clock_prune hs₂').trans_le (by norm_num)
  have hrun := (hrun₂.tail hpruned).trans (Clients.run_commit hclock₂')
  exact Clients.snapshots_readable RepoKeys.faithful_ideal hvalid rfl rfl hrun

end Kist
