import Kist.Lifetime.Packs

/-!
# What a backup leaves in the storage

A backup may stop at any time. Whatever it has put by then are sound packs under new names and
trees; what was there before is still there, and a tree that it has seen is either new or touched.

* `Proceeds`: one step of a backup; `prepareRoots_proceeds`: the walk of the sources takes no
  others.
* `Uploaded`: what is so after any number of steps; `Uploaded.proceeds` is the step lemma.
-/

namespace Kist

open Checked (bind_eq_ok)

namespace Backup

/-! ### Steps -/

/-- One step of a backup, which cuts no chunk longer than the largest one. -/
inductive Proceeds : Backup → Backup → Prop
  | note (b : Backup) (stats : SnapshotStats) (report : BackupReport)
    (referenced : Dict ObjectId (List ChunkId)) (hardlinks : Dict InodeKey FileContent)
    (countedHardlinks : List InodeKey) (tick : ℕ) :
    Proceeds b { b with stats, report, referenced, hardlinks, countedHardlinks, tick }
  | chunk (b : Backup) (st : ChunkState) (chunk : Bytes) (h : chunk.length ≤ b.chunker.params.max) :
    Proceeds b (b.addChunk st chunk).1
  | tree (b : Backup) (t : Tree) (r : TreeId × Backup) (h : b.writeTree t = .ok r) : Proceeds b r.2

section Walks

variable {b b' : Backup}

/-- What a tree that was written has changed. -/
theorem writeTree_eq {t : Tree} {r : TreeId × Backup} (h : b.writeTree t = .ok r) :
    ∃ trees replicas touches seenTrees, r.2 = { b with
      seenTrees, repo.store.trees := trees, repo.store.treeReplicas := replicas,
      repo.store.touches := touches } := by
  obtain ⟨id, b'⟩ := r
  obtain ⟨-, -, ⟨-, rfl⟩ | ⟨b₁, rfl, hb'⟩⟩ := writeTree_cases h
  · exact ⟨_, _, _, _, rfl⟩
  · unfold putTreeReplica putTree at hb'
    rcases hb' with rfl | rfl
    · split <;> split_ifs <;> exact ⟨_, _, _, _, rfl⟩
    · split <;> split_ifs <;> exact ⟨_, _, _, _, rfl⟩

theorem Proceeds.chunker (h : Proceeds b b') : b'.chunker = b.chunker := by
  cases h with
  | note => rfl
  | chunk st chunk => exact (b.sameRun_addChunk st chunk).chunker
  | tree t r h =>
    obtain ⟨trees, replicas, touches, seenTrees, heq⟩ := writeTree_eq h
    rw [heq]

theorem chunker_of_proceeds (h : Relation.ReflTransGen Proceeds b b') : b'.chunker = b.chunker := by
  induction h with
  | refl => rfl
  | tail _ hstep ih => exact hstep.chunker.trans ih

/-- The steps of a backup with a valid chunker. -/
def Goes (b b' : Backup) : Prop :=
  b.chunker.params.Valid → Relation.ReflTransGen Proceeds b b'

theorem goes_note (stats : SnapshotStats) (report : BackupReport)
    (referenced : Dict ObjectId (List ChunkId)) (hardlinks : Dict InodeKey FileContent)
    (countedHardlinks : List InodeKey) (tick : ℕ) :
    Goes b { b with stats, report, referenced, hardlinks, countedHardlinks, tick } := fun _ =>
  .single (.note b stats report referenced hardlinks countedHardlinks tick)

theorem Goes.trans {b'' : Backup} (h : Goes b b') (h' : Goes b' b'') : Goes b b'' := fun hvalid =>
  (h hvalid).trans (h' (chunker_of_proceeds (h hvalid) ▸ hvalid))

theorem goes_addChunks {chunks : List Bytes}
    (hmax : ∀ chunk ∈ chunks, chunk.length ≤ b.chunker.params.max)
    (st : ChunkState) : Relation.ReflTransGen Proceeds b (b.addChunks st chunks).1 := by
  induction chunks generalizing b st with
  | nil => exact .refl
  | cons chunk chunks ih =>
    obtain ⟨hchunk, hchunks⟩ := List.forall_mem_cons.1 hmax
    have hstep : Proceeds b (b.addChunk st chunk).1 := .chunk b st chunk hchunk
    exact .head hstep (ih (by rwa [hstep.chunker]) _)

theorem goes_cut (data : Bytes) (st : ChunkState) :
    Goes b (b.addChunks st (b.chunker.cut data)).1 :=
  fun hvalid => goes_addChunks (fun _ hc => (Chunking.length_of_mem_cut hvalid hc).2) st

theorem goes_cutFailing (data : Bytes) (st : ChunkState) :
    Goes b (b.addChunks st (b.chunker.cutFailing data)).1 :=
  fun hvalid => goes_addChunks (fun _ hc => (Chunking.length_of_mem_cut hvalid
    ((Chunking.cutFailing_isPrefix hvalid data).subset hc)).2) st

theorem goes_chunkBytes (content : Bytes) : Goes b (b.chunkBytes content).2 :=
  (goes_cut content {}).trans (goes_note _ _ _ _ _ _)

theorem goes_storeContent (result : FileResult) : Goes b (b.storeContent result).2 := by
  unfold storeContent
  split_ifs
  · exact fun _ => .refl
  · exact (goes_chunkBytes _).trans (goes_note _ _ _ _ _ _)

theorem notes_goes : Notes Goes :=
  ⟨fun _ _ => .refl, .trans, fun _ stats report referenced hardlinks countedHardlinks tick _ =>
    goes_note stats report referenced hardlinks countedHardlinks tick⟩

theorem goes_readFile (b : Backup) (f : FileFacts) (read : FileRead) :
    Goes b (b.readFile f read).2 := by
  unfold readFile
  cases read with
  | unreadable => exact goes_note _ _ _ _ _ _
  | broken delivered => exact (goes_cutFailing delivered {}).trans (goes_note _ _ _ _ _ _)
  | bytes content =>
    simp only [chunkReader]
    set r := b.chunkBytes content
    let b₂ := r.2.countBytes f r.1.bytesTotal
    let b₃ : Backup := { b₂ with
      report.bytesStored := b₂.report.bytesStored + r.1.bytesNew
      report.chunksNew := b₂.report.chunksNew + r.1.chunksNew }
    have hcounted : Goes r.2 b₃ :=
      (notes_goes.countBytes f r.1.bytesTotal).trans (goes_note b₂.stats _ _ _ _ b₂.tick)
    have hstored : Goes b (b₃.storeContent r.1).2 :=
      (goes_chunkBytes content).trans (hcounted.trans (goes_storeContent r.1))
    cases hkey : hardlinkKey f with
    | none => exact hstored
    | some key => exact hstored.trans (goes_note _ _ _ _ _ _)

/-- The walk of all sources takes these steps. -/
theorem prepareRoots_proceeds {exclude : Exclusions} {parentRoots : List Root}
    {plans : List (Bytes × RootPlan)} {r : List Root × Backup} (hvalid : b.chunker.params.Valid)
    (h : b.prepareRoots exclude parentRoots plans = .ok r) : Relation.ReflTransGen Proceeds b r.2 :=
  Along.prepareRoots ⟨notes_goes, fun h _ => .single (.tree _ _ _ h), goes_readFile⟩ h hvalid

end Walks

/-! ### What the steps keep -/

end Backup

/-- A name that a pack got since the number `nonce`, and before the number `next`. -/
def RepoKeys.NamedIn (keys : RepoKeys) (nonce next : ℕ) (id : ObjectId) : Prop :=
  ∃ n chunks, nonce ≤ n ∧ n < next ∧ id = keys.packId n chunks

theorem RepoKeys.NamedIn.mono {keys : RepoKeys} {nonce next next' : ℕ} {id : ObjectId}
    (h : keys.NamedIn nonce next id) (hle : next ≤ next') : keys.NamedIn nonce next' id := by
  obtain ⟨n, chunks, hn, hlt, heq⟩ := h
  exact ⟨n, chunks, hn, hlt.trans_le hle, heq⟩

namespace Backup

/-- What a backup that has started in `base` has put so far, and what it has left as it was. -/
structure Uploaded (base : Repository) (nonce : ℕ) (now : Time) (b : Backup) : Prop where
  keys : b.repo.keys = base.keys
  config : b.repo.config = base.config
  params : b.chunker.params = base.config.chunker
  time : b.now = now
  indexes : b.repo.store.indexes = base.store.indexes
  marks : b.repo.store.marks = base.store.marks
  snapshots : b.repo.store.snapshots = base.store.snapshots
  snapshotReplicas : b.repo.store.snapshotReplicas = base.store.snapshotReplicas
  nonce_le : nonce ≤ b.nonce
  filled : b.packer.Filled base.keys base.config.chunker.max
  packs : ∀ id p, b.repo.store.packs.lookup id = some p → base.store.packs.lookup id = some p ∨
    p.Sound base.keys base.config.chunker.max ∧ base.keys.NamedIn nonce b.nonce id
  kept : ∀ id p, base.store.packs.lookup id = some p → b.repo.store.packs.lookup id = some p
  listed : ∀ q ∈ b.newPacks, base.keys.NamedIn nonce b.nonce q.pack ∧
    ∃ p, b.repo.store.packs.lookup q.pack = some p ∧ q.entries = p.chunks.map Prod.fst
  seen : SeenOk b
  unseen : ∀ id ∉ b.seenTrees, b.repo.store.trees.lookup id = base.store.trees.lookup id
  touches : ∀ id, b.repo.store.touches.lookup id = base.store.touches.lookup id ∨
    b.repo.store.touches.lookup id = some now
  touched : ∀ id ∈ b.seenTrees, base.store.trees.lookup id = none ∨
    b.repo.store.touches.lookup id = some now

section Uploaded

variable {base : Repository} {nonce : ℕ} {now : Time} {b b' : Backup}

/-- A backup starts with nothing put. -/
theorem uploaded_start {chunker : Chunking.Chunker} {index : ChunkIndex} {parentStartNs : ℤ}
    (hparams : chunker.params = base.config.chunker) :
    Uploaded base nonce now (base.startBackup chunker nonce now index parentStartNs) where
  keys := rfl
  config := rfl
  params := hparams
  time := rfl
  indexes := rfl
  marks := rfl
  snapshots := rfl
  snapshotReplicas := rfl
  nonce_le := le_rfl
  filled := PackWriter.filled_new
  packs _ _ h := .inl h
  kept _ _ h := h
  listed := List.forall_mem_nil _
  seen := List.forall_mem_nil _
  unseen _ _ := rfl
  touches _ := .inl rfl
  touched := List.forall_mem_nil _

/-- What is not an upload. -/
theorem Uploaded.congr (h : Uploaded base nonce now b) (index : ChunkIndex) (stats : SnapshotStats)
    (report : BackupReport) (referenced : Dict ObjectId (List ChunkId))
    (hardlinks : Dict InodeKey FileContent) (countedHardlinks : List InodeKey) (tick : ℕ) :
    Uploaded base nonce now { b with
      index, stats, report, referenced, hardlinks, countedHardlinks, tick } :=
  { h with }

variable (hfresh : ∀ n, nonce ≤ n → ∀ chunks, base.keys.packId n chunks ∉ base.store.packs)
  (hnames : ∀ n n' chunks chunks', base.keys.packId n chunks = base.keys.packId n' chunks' → n = n')
  (hlen : ∀ plain, 0 < base.keys.sealedLen plain)

include hfresh hnames in
/-- A pack is put under a name that no other pack has. -/
theorem Uploaded.flushPack (h : Uploaded base nonce now b) :
    Uploaded base nonce now b.flushPack := by
  unfold Backup.flushPack
  split_ifs
  · exact h
  have hold : b.repo.keys.packId b.nonce b.packer.chunks ∉ base.store.packs := by
    rw [h.keys]
    exact hfresh _ h.nonce_le _
  -- packs of one run are numbered upwards, so the new name is none of the earlier ones
  have hother : ∀ id, base.keys.NamedIn nonce b.nonce id →
      id ≠ b.repo.keys.packId b.nonce b.packer.chunks := by
    rintro _ ⟨n, chunks, -, hlt, rfl⟩ heq
    rw [h.keys] at heq
    exact hlt.ne (hnames _ _ _ _ heq)
  have hnew : base.keys.NamedIn nonce (b.nonce + 1) (b.repo.keys.packId b.nonce b.packer.chunks) :=
    ⟨b.nonce, _, h.nonce_le, Nat.lt_succ_self _, by rw [h.keys]⟩
  refine { h with nonce_le := h.nonce_le.trans (Nat.le_succ _), filled := PackWriter.filled_new,
                  packs := fun id p hp => ?_, kept := fun id p hp => ?_, listed := ?_ }
  · dsimp only at hp
    rw [Dict.lookup_insert'] at hp
    split_ifs at hp with hid
    · cases hp
      exact .inr ⟨h.filled.sound _, hid ▸ hnew⟩
    · exact (h.packs id p hp).imp_right fun ⟨hs, hn⟩ => ⟨hs, hn.mono (Nat.le_succ _)⟩
  · dsimp only
    rw [Dict.lookup_insert', if_neg fun hid => hold ?_]
    · exact h.kept id p hp
    · rw [← AList.lookup_isSome, ← hid, hp]
      rfl
  · refine List.forall_mem_append.2
      ⟨fun q hq => ?_, List.forall_mem_cons.2 ⟨?_, List.forall_mem_nil _⟩⟩
    · obtain ⟨hn, p, hp, he⟩ := h.listed q hq
      refine ⟨hn.mono (Nat.le_succ _), p, ?_, he⟩
      dsimp only
      rw [Dict.lookup_insert', if_neg (hother _ hn)]
      exact hp
    · exact ⟨hnew, _, AList.lookup_insert _, rfl⟩

include hfresh hnames hlen in
theorem Uploaded.storeChunk (h : Uploaded base nonce now b) (st : ChunkState) {chunk : Bytes}
    (hmax : chunk.length ≤ b.chunker.params.max) (m : Bool) :
    Uploaded base nonce now (b.storeChunk st (b.repo.keys.chunkId chunk) chunk m).1 := by
  have hfilled : (b.packer.add b.repo.keys (b.repo.keys.chunkId chunk) chunk).2.Filled base.keys
      base.config.chunker.max := by
    rw [h.keys]
    exact h.filled.add (hlen chunk) rfl (h.params ▸ hmax)
  unfold Backup.storeChunk
  dsimp only
  split
  · refine Uploaded.flushPack hfresh hnames ?_
    exact { h with filled := hfilled }
  · exact { h with filled := hfilled }

include hfresh hnames hlen in
theorem Uploaded.addChunk (h : Uploaded base nonce now b) (st : ChunkState) {chunk : Bytes}
    (hmax : chunk.length ≤ b.chunker.params.max) :
    Uploaded base nonce now (b.addChunk st chunk).1 := by
  unfold Backup.addChunk
  dsimp only
  split
  · split_ifs
    · exact h.storeChunk hfresh hnames hlen _ hmax true
    · exact { h with }
  · exact h.storeChunk hfresh hnames hlen _ hmax false

/-- What is put for a tree. -/
theorem putTree_putTreeReplica (b : Backup) (id : TreeId) (bytes : Sealed) :
    ∃ b₁, (b.putTree id bytes).putTreeReplica id bytes = b₁ ∧ b₁.seenTrees = b.seenTrees ∧
      b₁.now = b.now ∧ b₁.repo.store.touches = b.repo.store.touches ∧
      ∀ k, k ≠ id → b₁.repo.store.trees.lookup k = b.repo.store.trees.lookup k := by
  refine ⟨_, rfl, by simp, ?_, ?_, fun k hk => ?_⟩
  · unfold putTreeReplica putTree
    split <;> split_ifs <;> rfl
  · unfold putTreeReplica putTree
    split <;> split_ifs <;> rfl
  · rw [trees_putTreeReplica, lookup_putTree hk]

/-- A tree is put under its own name alone, and touched if it was there before. -/
theorem Uploaded.writeTree (hinj : Function.Injective base.keys.treeId)
    (h : Uploaded base nonce now b)
    {t : Tree} {r : TreeId × Backup} (hw : b.writeTree t = .ok r) :
    Uploaded base nonce now r.2 := by
  have hpair : b.writeTree t = .ok (r.1, r.2) := hw
  obtain ⟨-, hseen, -⟩ := writeTree_spec (h.keys ▸ hinj) h.seen hpair
  obtain ⟨trees, replicas, touches, seenTrees, heq⟩ := writeTree_eq hw
  obtain ⟨hunseen, htouches, htouched⟩ :
      (∀ id ∉ r.2.seenTrees, r.2.repo.store.trees.lookup id = base.store.trees.lookup id) ∧
      (∀ id, r.2.repo.store.touches.lookup id = base.store.touches.lookup id ∨
        r.2.repo.store.touches.lookup id = some now) ∧
      ∀ id ∈ r.2.seenTrees, base.store.trees.lookup id = none ∨
        r.2.repo.store.touches.lookup id = some now := by
    clear hseen heq
    obtain ⟨x, hx, hw⟩ := bind_eq_ok.1 hw
    obtain ⟨rfl, -⟩ := sealTree_ok hx
    dsimp only at hw
    obtain ⟨b₁, hb₁, hids, hnow, hsame, hlookup⟩ := putTree_putTreeReplica
      { b with seenTrees := b.repo.keys.treeId t :: b.seenTrees } (b.repo.keys.treeId t)
      (.tree (b.repo.keys.treeId t) t)
    rw [hb₁] at hw
    -- the two puts go under the tree's own id, which is among the seen ones from now on
    have hunseen : ∀ k ∉ b₁.seenTrees,
        b₁.repo.store.trees.lookup k = base.store.trees.lookup k := by
      intro k hk
      rw [hids, List.mem_cons, not_or] at hk
      exact (hlookup k hk.1).trans (h.unseen k hk.2)
    have hother : ∀ k ∈ b₁.seenTrees, k ≠ b.repo.keys.treeId t → base.store.trees.lookup k = none ∨
        b.repo.store.touches.lookup k = some now := by
      intro k hk hne
      rw [hids] at hk
      exact h.touched k ((List.mem_cons.1 hk).resolve_left hne)
    split_ifs at hw with hmem htouch
    · cases hw
      exact ⟨h.unseen, h.touches, h.touched⟩
    · cases hw
      -- the tree was there before the run, so its touch note takes the time of this run
      have htouches : ∀ k, (b₁.touchTree (b.repo.keys.treeId t)).repo.store.touches.lookup k =
          if k = b.repo.keys.treeId t then some now else b.repo.store.touches.lookup k := by
        intro k
        rw [touchTree, Dict.lookup_insert', hnow.trans h.time, hsame]
      refine ⟨hunseen, fun k => ?_, fun k hk => ?_⟩ <;> rw [htouches] <;> split_ifs with hid
      · exact .inr rfl
      · exact h.touches k
      · exact .inr rfl
      · exact hother k hk hid
    · cases hw
      push Not at htouch
      -- the tree was not there before the run
      refine ⟨hunseen, fun k => hsame ▸ h.touches k, fun k hk => ?_⟩
      rw [hsame]
      by_cases hid : k = b.repo.keys.treeId t
      · refine .inl ?_
        rw [hid, ← h.unseen _ hmem]
        exact Option.isNone_iff_eq_none.1 htouch.1
      · exact hother k hk hid
  rw [heq] at hseen hunseen htouches htouched ⊢
  exact { h with seen := hseen, unseen := hunseen, touches := htouches, touched := htouched }

include hfresh hnames hlen in
/-- **One step.** -/
theorem Uploaded.proceeds (hinj : Function.Injective base.keys.treeId)
    (h : Uploaded base nonce now b) (hstep : Proceeds b b') : Uploaded base nonce now b' := by
  cases hstep with
  | note stats report referenced hardlinks countedHardlinks tick =>
    exact h.congr b.index stats report referenced hardlinks countedHardlinks tick
  | chunk st chunk hmax => exact h.addChunk hfresh hnames hlen st hmax
  | tree t r hw => exact h.writeTree hinj hw

include hfresh hnames hlen in
/-- **Any number of steps.** -/
theorem Uploaded.run (hinj : Function.Injective base.keys.treeId) (h : Uploaded base nonce now b)
    (hrun : Relation.ReflTransGen Proceeds b b') : Uploaded base nonce now b' := by
  induction hrun with
  | refl => exact h
  | tail _ hstep ih => exact ih.proceeds hfresh hnames hlen hinj hstep

/-- What could be read before can be read now. -/
theorem Uploaded.readTreeOnce (hinj : Function.Injective base.keys.treeId)
    (h : Uploaded base nonce now b) {id : TreeId} {t : Tree}
    (ht : base.readTreeOnce (.tree id) id = .ok t) : b.repo.readTreeOnce (.tree id) id = .ok t := by
  by_cases hid : id ∈ b.seenTrees
  · obtain ⟨t', ht'⟩ := h.seen id hid
    have hname := (Repository.readTreeOnce_ok ht').1
    rw [h.keys] at hname
    rw [ht', hinj ((Repository.readTreeOnce_ok ht).1.trans hname.symm)]
  · rw [← ht]
    exact Repository.readTreeOnce_congr h.keys (h.unseen id hid)

end Uploaded

end Backup
end Kist
