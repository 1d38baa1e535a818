import Kist.Backup.Loop
import Kist.Backup.Outcome
import Kist.Content

/-!
# What the commit accounts for

The chunks and the trees that a snapshot refers to must be there when it is committed, although
other clients collect garbage meanwhile. A run therefore keeps count of them: a chunk it stores
lies in a pack of its own, a chunk it takes over is noted under its pack, and a tree it writes or
takes over is noted as seen.

* `Accounted`: a chunk is in the pack being filled, in a pack of this run, or noted.
* `Covers`: what holds all along: places in the index are accounted for, and so is everything that
  the trees seen refer to.
* `backupPrepare_covers`: at the end of a run, all that its roots reach is accounted for.
-/

namespace Kist

open Checked (bind_eq_ok)

namespace Backup

/-! ### Chunks -/

section Chunks

variable (old : ObjectId → Prop)

/-- A chunk that the run accounts for. `old` are the packs from before the run. -/
inductive Accounted (b : Backup) (x : ChunkId) : Prop
  | packing (c : PackEntry × Sealed) (hc : c ∈ b.packer.chunks) (hx : c.1.id = x)
  | packed (p : IndexPack) (hp : p ∈ b.newPacks) (e : PackEntry) (he : e ∈ p.entries)
      (hx : e.id = x)
  | noted (pack : ObjectId) (hold : old pack) (cs : List ChunkId)
    (h : b.referenced.lookup pack = some cs) (hx : x ∈ cs)

/-- A place that the index gives for a chunk. -/
inductive Place (b : Backup) (x : ChunkId) (pack : ObjectId) : Prop
  | packing (h : pack = pendingPack) (c : PackEntry × Sealed) (hc : c ∈ b.packer.chunks)
    (hx : c.1.id = x)
  | packed (p : IndexPack) (hp : p ∈ b.newPacks) (h : pack = p.pack) (e : PackEntry)
    (he : e ∈ p.entries) (hx : e.id = x)
  | old (h : old pack)

/-- What holds of the packs, the index and the references. -/
structure Tracks (keys : RepoKeys) (b : Backup) : Prop where
  keys_eq : b.repo.keys = keys
  valid : b.chunker.params.Valid
  fresh : ∀ n, b.nonce ≤ n → ∀ chunks, ¬old (keys.packId n chunks) ∧
    keys.packId n chunks ≠ pendingPack
  base : b.index.base = none
  place : ∀ x loc, b.index.get x = some loc → Place old b x loc.pack
  notPending : ¬old pendingPack
  named : ∀ p ∈ b.newPacks, ¬old p.pack ∧ p.pack ≠ pendingPack ∧
    (b.repo.store.packs.lookup p.pack).isSome

variable {old} {keys : RepoKeys} {b b' : Backup} {x : ChunkId}

/-- What is accounted for stays so. -/
def Ahead (old : ObjectId → Prop) (b b' : Backup) : Prop :=
  ∀ x, Accounted old b x → Accounted old b' x

theorem Ahead.trans {b'' : Backup} (h : Ahead old b b') (h' : Ahead old b' b'') : Ahead old b b'' :=
  fun x hx => h' x (h x hx)

theorem Accounted.congr (h : Accounted old b x) (hp : b'.packer = b.packer)
    (hn : b'.newPacks = b.newPacks) (hr : b'.referenced = b.referenced) : Accounted old b' x := by
  cases h with
  | packing c hc hx => exact .packing c (hp ▸ hc) hx
  | packed p hp' e he hx => exact .packed p (hn ▸ hp') e he hx
  | noted pack hold cs h hx => exact .noted pack hold cs (hr ▸ h) hx

/-- A backup that differs in what the accounts do not read. -/
theorem Tracks.congr (h : Tracks old keys b) (hs : SameSetup b b')
    (hp : b'.packer = b.packer) (hn : b'.newPacks = b.newPacks) (hi : b'.index = b.index)
    (hnonce : b'.nonce = b.nonce) (hpacks : b'.repo.store.packs = b.repo.store.packs) :
    Tracks old keys b' where
  keys_eq := hs.keys.trans h.keys_eq
  valid := hs.chunker ▸ h.valid
  fresh := hnonce ▸ h.fresh
  base := hi ▸ h.base
  place x loc hl := by
    rw [hi] at hl
    cases h.place x loc hl with
    | packing hpend c hc hx => exact .packing hpend c (hp ▸ hc) hx
    | packed p hp' heq e he hx => exact .packed p (hn ▸ hp') heq e he hx
    | old hold => exact .old hold
  notPending := h.notPending
  named p hp' := by
    rw [hn] at hp'
    rw [hpacks]
    exact h.named p hp'

/-! #### Flushing -/

theorem ChunkIndex.get_of_base {index : ChunkIndex} (h : index.base = none) (x : ChunkId) :
    index.get x = index.overlay.lookup x := by
  simp [ChunkIndex.get, ChunkIndex.baseGet, h]

/-- Where a chunk is after the names of a pack were given out: where it was, and then it does not
wait for that pack, or in the pack. -/
theorem lookup_resolve {pack : ObjectId} (hpack : pack ≠ pendingPack) {loc : ChunkLocation} :
    ∀ (entries : List PackEntry) (overlay : Dict ChunkId ChunkLocation),
      (entries.foldl (fun overlay e =>
        match overlay.lookup e.id with
        | some loc =>
          if loc.pack = pendingPack then overlay.insert e.id (location pack e) else overlay
        | none => overlay) overlay).lookup x = some loc →
      (overlay.lookup x = some loc ∧ (loc.pack = pendingPack → ∀ e ∈ entries, e.id ≠ x)) ∨
        ∃ e ∈ entries, e.id = x ∧ loc = location pack e
  | [], overlay, h => .inl ⟨h, fun _ => List.forall_mem_nil _⟩
  | e :: entries, overlay, h => by
    rw [List.foldl_cons] at h
    obtain ⟨hl, hwait⟩ | ⟨e', he', hx, rfl⟩ := lookup_resolve hpack entries _ h
    · cases hlook : overlay.lookup e.id with
      | none =>
        rw [hlook] at hl
        refine .inl ⟨hl, fun hp => List.forall_mem_cons.2 ⟨fun hx => ?_, hwait hp⟩⟩
        rw [hx] at hlook
        rw [hlook] at hl
        cases hl
      | some loc₀ =>
        rw [hlook] at hl
        dsimp only at hl
        split_ifs at hl with hpend
        · by_cases hx : x = e.id
          · rw [hx, AList.lookup_insert] at hl
            cases hl
            exact .inr ⟨e, List.mem_cons_self, hx.symm, rfl⟩
          · rw [AList.lookup_insert_ne hx] at hl
            exact .inl ⟨hl, fun hp => List.forall_mem_cons.2 ⟨fun h => hx h.symm, hwait hp⟩⟩
        · refine .inl ⟨hl, fun hp => List.forall_mem_cons.2 ⟨fun hx => ?_, hwait hp⟩⟩
          rw [hx, hl] at hlook
          cases hlook
          exact hpend hp
    · exact .inr ⟨e', List.mem_cons_of_mem _ he', hx, rfl⟩

theorem Tracks.flushPack (h : Tracks old keys b) :
    Tracks old keys b.flushPack ∧ Ahead old b b.flushPack ∧ b.flushPack.packer.chunks = [] := by
  unfold Backup.flushPack
  split_ifs with hempty
  · exact ⟨h, fun _ hx => hx, hempty⟩
  · obtain ⟨hnew, hne⟩ := h.fresh b.nonce le_rfl b.packer.chunks
    rw [← h.keys_eq] at hnew hne
    refine ⟨⟨h.keys_eq, h.valid, fun n hn => h.fresh n (by dsimp only at hn; omega), h.base, ?_,
      h.notPending, ?_⟩, ?_, rfl⟩
    · intro x loc hl
      replace hl : (b.index.resolvePending (b.repo.keys.packId b.nonce b.packer.chunks)
        (b.repo.keys.packLen (b.packer.chunks.map Prod.fst)) (b.packer.chunks.map Prod.fst)).get x =
          some loc := hl
      rw [ChunkIndex.get_of_base (by exact h.base)] at hl
      -- a place is either one the flush did not touch, or it was pending and now names the new pack
      obtain ⟨hl, hwait⟩ | ⟨e, he, hx, rfl⟩ := lookup_resolve hne _ _ hl
      · rw [← ChunkIndex.get_of_base h.base] at hl
        cases h.place x loc hl with
        | packing hpend c hc hx =>
          exact absurd hx (hwait hpend c.1 (List.mem_map_of_mem hc))
        | packed p hp heq e he hx =>
          exact .packed p (List.mem_append_left _ hp) heq e he hx
        | old hold => exact .old hold
      · exact .packed _ (List.mem_append_right _ List.mem_cons_self) rfl e he hx
    · intro p hp
      rcases List.mem_append.1 hp with hp | hp
      · obtain ⟨h1, h2, h3⟩ := h.named p hp
        refine ⟨h1, h2, ?_⟩
        dsimp only
        rw [Dict.lookup_insert']
        split_ifs
        · rfl
        · exact h3
      · rw [List.mem_singleton.1 hp]
        refine ⟨hnew, hne, ?_⟩
        dsimp only
        rw [AList.lookup_insert]
        rfl
    · intro x hx
      cases hx with
      | packing c hc hx =>
        exact .packed _ (List.mem_append_right _ List.mem_cons_self) c.1 (List.mem_map_of_mem hc) hx
      | packed p hp e he hx => exact .packed p (List.mem_append_left _ hp) e he hx
      | noted pack hold cs hl hx => exact .noted pack hold cs hl hx

/-! #### Storing and taking over -/

/-- A chunk that is put into the pack being filled waits for its pack. -/
theorem Tracks.storeChunk (h : Tracks old keys b) (st : ChunkState) (id : ChunkId) (chunk : Bytes)
    {m : Bool} : Tracks old keys (b.storeChunk st id chunk m).1 ∧
      Ahead old b (b.storeChunk st id chunk m).1 ∧ Accounted old
        (b.storeChunk st id chunk m).1 id := by
  -- the state after the chunk is in the packer and the index, before the packer may be full
  let entry : PackEntry := ⟨id, b.packer.len, b.repo.keys.sealedLen chunk, chunk.length⟩
  let b₁ : Backup := { b with
    packer := ⟨b.packer.len + b.repo.keys.sealedLen chunk,
      b.packer.chunks ++ [(entry, .chunk id chunk)]⟩
    index := if m then b.index.replacePending entry else b.index.addPending entry }
  have hmem : (entry, Sealed.chunk id chunk) ∈ b₁.packer.chunks :=
    List.mem_append_right _ List.mem_cons_self
  have hbase : b₁.index.base = none := by
    show (if m then b.index.replacePending entry else b.index.addPending entry).base = none
    unfold ChunkIndex.replacePending ChunkIndex.addPending
    split_ifs
    · exact h.base
    · split <;> exact h.base
  -- the only place that is new is the chunk's own, and it is a pending one
  have hget : ∀ x loc, b₁.index.get x = some loc →
      b.index.get x = some loc ∨ (x = id ∧ loc.pack = pendingPack) := by
    intro x loc hl
    rw [ChunkIndex.get_of_base hbase] at hl
    rw [ChunkIndex.get_of_base h.base]
    replace hl : (if m then b.index.replacePending entry
      else b.index.addPending entry).overlay.lookup x = some loc := hl
    unfold ChunkIndex.replacePending ChunkIndex.addPending at hl
    split_ifs at hl
    · rw [Dict.lookup_insert'] at hl
      split_ifs at hl with hx
      · cases hl
        exact .inr ⟨hx, rfl⟩
      · exact .inl hl
    · split at hl
      · exact .inl hl
      · rw [Dict.lookup_insert'] at hl
        split_ifs at hl with hx
        · cases hl
          exact .inr ⟨hx, rfl⟩
        · exact .inl hl
  have h₁ : Tracks old keys b₁ := by
    refine ⟨h.keys_eq, h.valid, h.fresh, hbase, fun x loc hl => ?_, h.notPending, h.named⟩
    rcases hget x loc hl with hl | ⟨rfl, hpend⟩
    · cases h.place x loc hl with
      | packing hpend c hc hx => exact .packing hpend c (List.mem_append_left _ hc) hx
      | packed p hp heq e he hx => exact .packed p hp heq e he hx
      | old hold => exact .old hold
    · exact .packing hpend _ hmem rfl
  have ha₁ : Ahead old b b₁ := by
    intro x hx
    cases hx with
    | packing c hc hx => exact .packing c (List.mem_append_left _ hc) hx
    | packed p hp e he hx => exact .packed p hp e he hx
    | noted pack hold cs hl hx => exact .noted pack hold cs hl hx
  have hid : Accounted old b₁ id := .packing _ hmem rfl
  show Tracks old keys
    (if b₁.packer.isFull b₁.repo.config.packTargetSize then b₁.flushPack else b₁) ∧
    Ahead old b (if b₁.packer.isFull b₁.repo.config.packTargetSize then b₁.flushPack else b₁) ∧
    Accounted old (if b₁.packer.isFull b₁.repo.config.packTargetSize then b₁.flushPack else b₁) id
  split_ifs
  · obtain ⟨h₂, ha₂, -⟩ := h₁.flushPack
    exact ⟨h₂, ha₁.trans ha₂, ha₂ id hid⟩
  · exact ⟨h₁, ha₁, hid⟩

/-- Noting chunks under their packs forgets none. -/
theorem lookup_recordReferenced :
    ∀ (chunks : List (ChunkId × ObjectId)) (referenced : Dict ObjectId (List ChunkId)),
      let referenced' := chunks.foldl (fun referenced c =>
        if c.2 = pendingPack then referenced
        else referenced.insert c.2 ((referenced.lookup c.2).getD [] ++ [c.1])) referenced
      (∀ pack cs, referenced.lookup pack = some cs →
        ∃ cs', referenced'.lookup pack = some cs' ∧ cs ⊆ cs') ∧
      ∀ c ∈ chunks, c.2 ≠ pendingPack → ∃ cs, referenced'.lookup c.2 = some cs ∧ c.1 ∈ cs
  | [], referenced => ⟨fun _ cs h => ⟨cs, h, fun _ hx => hx⟩, List.forall_mem_nil _⟩
  | c :: chunks, referenced => by
    dsimp only
    rw [List.foldl_cons]
    by_cases hpend : c.2 = pendingPack
    · rw [if_pos hpend]
      obtain ⟨h1, h2⟩ := lookup_recordReferenced chunks referenced
      refine ⟨h1, List.forall_mem_cons.2 ⟨fun h => absurd hpend h, h2⟩⟩
    · rw [if_neg hpend]
      obtain ⟨h1, h2⟩ := lookup_recordReferenced chunks
        (referenced.insert c.2 ((referenced.lookup c.2).getD [] ++ [c.1]))
      refine ⟨fun pack cs hl => ?_, List.forall_mem_cons.2 ⟨fun _ => ?_, h2⟩⟩
      · by_cases hpack : pack = c.2
        · subst hpack
          obtain ⟨cs', hl', hsub⟩ := h1 c.2 _ (AList.lookup_insert _)
          refine ⟨cs', hl', fun x hx => hsub (List.mem_append_left _ ?_)⟩
          rw [hl]
          exact hx
        · exact h1 pack cs (by rw [AList.lookup_insert_ne hpack, hl])
      · obtain ⟨cs', hl', hsub⟩ := h1 c.2 _ (AList.lookup_insert _)
        exact ⟨cs', hl', hsub (List.mem_append_right _ List.mem_cons_self)⟩

/-- Chunks that are taken over from where the index has them are accounted for. -/
theorem Tracks.recordReferenced (h : Tracks old keys b) {chunks : List (ChunkId × ObjectId)}
    (hplace : ∀ c ∈ chunks, ∃ loc, b.index.get c.1 = some loc ∧ c.2 = loc.pack) :
    Tracks old keys (b.recordReferenced chunks) ∧ Ahead old b (b.recordReferenced chunks) ∧
      ∀ c ∈ chunks, Accounted old (b.recordReferenced chunks) c.1 := by
  obtain ⟨hkeep, hnoted⟩ := lookup_recordReferenced chunks b.referenced
  refine ⟨h.congr ⟨rfl, rfl, rfl, rfl, rfl, rfl⟩ rfl rfl rfl rfl rfl, fun x hx => ?_,
    fun c hc => ?_⟩
  · cases hx with
    | packing c hc hx => exact .packing c hc hx
    | packed p hp e he hx => exact .packed p hp e he hx
    | noted pack hold cs hl hx =>
      obtain ⟨cs', hl', hsub⟩ := hkeep pack cs hl
      exact .noted pack hold cs' hl' (hsub hx)
  · obtain ⟨loc, hl, hpack⟩ := hplace c hc
    cases h.place c.1 loc hl with
    | packing hpend c' hc' hx => exact .packing c' hc' hx
    | packed p hp heq e he hx => exact .packed p hp e he hx
    | old hold =>
      have hne : c.2 ≠ pendingPack := fun hp => h.notPending (hp ▸ hpack ▸ hold)
      obtain ⟨cs, hl', hx⟩ := hnoted c hc hne
      exact .noted c.2 (hpack ▸ hold) cs hl' hx

theorem Tracks.addChunk (h : Tracks old keys b) (st : ChunkState) (chunk : Bytes) :
    Tracks old keys (b.addChunk st chunk).1 ∧ Ahead old b (b.addChunk st chunk).1 ∧
      Accounted old (b.addChunk st chunk).1 (keys.chunkId chunk) := by
  rw [← h.keys_eq]
  unfold Backup.addChunk
  dsimp only
  cases hget : b.index.get (b.repo.keys.chunkId chunk) with
  | none => exact h.keys_eq ▸ h.storeChunk _ _ chunk
  | some loc =>
    dsimp only
    split_ifs
    · exact h.keys_eq ▸ h.storeChunk _ _ chunk
    · have hplace : ∀ c ∈ [(b.repo.keys.chunkId chunk, loc.pack)],
          ∃ loc, b.index.get c.1 = some loc ∧ c.2 = loc.pack :=
        List.forall_mem_cons.2 ⟨⟨loc, hget, rfl⟩, List.forall_mem_nil _⟩
      obtain ⟨h1, h2, h3⟩ := h.recordReferenced hplace
      exact ⟨h.keys_eq ▸ h1, h2, h3 _ List.mem_cons_self⟩

theorem Tracks.addChunks : ∀ (chunks : List Bytes) (b : Backup) (st : ChunkState),
    Tracks old keys b → Tracks old keys (b.addChunks st chunks).1 ∧
      Ahead old b (b.addChunks st chunks).1 ∧
        ∀ chunk ∈ chunks, Accounted old (b.addChunks st chunks).1 (keys.chunkId chunk)
  | [], b, st, h => ⟨h, fun _ hx => hx, List.forall_mem_nil _⟩
  | chunk :: chunks, b, st, h => by
    obtain ⟨h₁, ha₁, hc₁⟩ := h.addChunk st chunk
    obtain ⟨h₂, ha₂, hc₂⟩ := Tracks.addChunks chunks _ (b.addChunk st chunk).2 h₁
    exact ⟨h₂, ha₁.trans ha₂, List.forall_mem_cons.2 ⟨ha₂ _ hc₁, hc₂⟩⟩

/-- A backup that differs in the counts alone. -/
theorem Tracks.counts (h : Tracks old keys b) (stats : SnapshotStats) (report : BackupReport)
    (counted : List InodeKey) (tick : ℕ) (links : Dict InodeKey FileContent) :
    Tracks old keys
      { b with stats, report, tick, countedHardlinks := counted, hardlinks := links } ∧
      Ahead old b { b with stats, report, tick, countedHardlinks := counted, hardlinks := links } :=
  ⟨h.congr ⟨rfl, rfl, rfl, rfl, rfl, rfl⟩ rfl rfl rfl rfl rfl, fun _ hx => hx.congr rfl rfl rfl⟩

theorem Tracks.chunkBytes (h : Tracks old keys b) (content : Bytes) :
    Tracks old keys (b.chunkBytes content).2 ∧ Ahead old b (b.chunkBytes content).2 ∧
      ∀ x ∈ (b.chunkBytes content).1.chunks, Accounted old (b.chunkBytes content).2 x := by
  obtain ⟨h₁, ha₁, hc₁⟩ := Tracks.addChunks (b.chunker.cut content) b {} h
  obtain ⟨-, hids, -⟩ := b.chunkBytes_spec h.valid content
  rw [hids, h.keys_eq]
  unfold Backup.chunkBytes
  dsimp only
  obtain ⟨h₂, ha₂⟩ := h₁.counts _ { (b.addChunks {} (b.chunker.cut content)).1.report with
    chunksRead := (b.addChunks {} (b.chunker.cut content)).1.report.chunksRead +
      (b.addChunks {} (b.chunker.cut content)).2.reusedCount
    packsRevived := (b.addChunks {} (b.chunker.cut content)).1.report.packsRevived +
      (b.addChunks {} (b.chunker.cut content)).2.revivedCount } _ _ _
  refine ⟨h₂, ha₁.trans ha₂, fun x hx => ?_⟩
  obtain ⟨chunk, hchunk, rfl⟩ := List.mem_map.1 hx
  exact ha₂ _ (hc₁ chunk hchunk)

end Chunks

/-! ### Contents -/

section Contents

variable {old : ObjectId → Prop} {keys : RepoKeys} {b b' : Backup}

/-- Everything that a content refers to is accounted for. -/
def Backed (old : ObjectId → Prop) (keys : RepoKeys) (b : Backup) (c : FileContent) : Prop :=
  ∀ x, c.Refers keys x → Accounted old b x

theorem Backed.mono {c : FileContent} (h : Backed old keys b c) (ha : Ahead old b b') :
    Backed old keys b' c := fun x hx => ha x (h x hx)

/-- What holds of the chunks and of the contents left for other names. -/
structure Files (old : ObjectId → Prop) (keys : RepoKeys) (b : Backup) : Prop extends
    Tracks old keys b where
  links : ∀ key c, b.hardlinks.lookup key = some c → Backed old keys b c

theorem Files.of_tracks (h : Files old keys b) (ht : Tracks old keys b') (ha : Ahead old b b')
    (hl : b'.hardlinks = b.hardlinks) : Files old keys b' :=
  ⟨ht, fun key c hc => (h.links key c (hl ▸ hc)).mono ha⟩

theorem Tracks.countBytes (h : Tracks old keys b) (f : FileFacts) (size : ℕ) :
    Tracks old keys (b.countBytes f size) ∧ Ahead old b (b.countBytes f size) := by
  unfold Backup.countBytes
  split
  · split_ifs
    · exact ⟨h, fun _ hx => hx⟩
    · exact h.counts _ _ _ _ _
  · exact h.counts _ _ _ _ _

/-- The content of a file that was cut, where all of its chunks are accounted for. -/
theorem Tracks.storeContent (hinj : Function.Injective keys.chunkId)
    (hdecode : ∀ l, keys.decodeList (keys.encodeList l) = some l) (h : Tracks old keys b)
    {result : FileResult} (hr : ∀ x ∈ result.chunks, Accounted old b x) :
    Tracks old keys (b.storeContent result).2 ∧ Ahead old b (b.storeContent result).2 ∧
      Backed old keys (b.storeContent result).2 (b.storeContent result).1 := by
  unfold Backup.storeContent
  split_ifs with hlen
  · refine ⟨h, fun _ hx => hx, fun x hx => ?_⟩
    cases hx with
    | listed hx => exact hr x hx
    | spelled hc => cases hc
  · obtain ⟨h₁, ha₁, hc₁⟩ := h.chunkBytes (b.repo.keys.encodeList (.new result.chunks))
    obtain ⟨-, hids, -⟩ := b.chunkBytes_spec h.valid (b.repo.keys.encodeList (.new result.chunks))
    set r := b.chunkBytes (b.repo.keys.encodeList (.new result.chunks)) with hdef
    obtain ⟨h₂, ha₂⟩ := h₁.counts r.2.stats { r.2.report with
      chunksNew := r.2.report.chunksNew + r.1.chunksNew
      bytesStored := r.2.report.bytesStored + r.1.bytesNew } r.2.countedHardlinks r.2.tick
      r.2.hardlinks
    refine ⟨h₂, ha₁.trans ha₂, fun x hx => ?_⟩
    cases hx with
    | listed hx => exact ha₂ x (hc₁ x hx)
    | spelled hc hs hx =>
      have hspell : keys.Spells r.1.chunks result.chunks := by
        refine ⟨b.chunker.cut (b.repo.keys.encodeList (.new result.chunks)), ?_, ?_⟩
        · rw [hids, h.keys_eq]
        · rw [Chunking.flatten_cut h.valid, h.keys_eq, hdecode]
      rw [hs.unique hinj hspell] at hx
      exact ha₂ x (ha₁ x (hr x hx))

theorem unmarkedPlaces_spec {index : ChunkIndex} {marked : List ObjectId} :
    ∀ {ids : List ChunkId} {places : List (ChunkId × ObjectId)},
      unmarkedPlaces index marked ids = some places →
      (∀ c ∈ places, ∃ loc, index.get c.1 = some loc ∧ c.2 = loc.pack) ∧
        ∀ x ∈ ids, ∃ c ∈ places, c.1 = x
  | [], places, h => by
    cases h
    exact ⟨List.forall_mem_nil _, List.forall_mem_nil _⟩
  | id :: ids, places, h => by
    unfold unmarkedPlaces at h
    obtain ⟨loc, hloc, h⟩ := Option.bind_eq_some_iff.1 h
    split_ifs at h
    · cases h
    · obtain ⟨-, -, h⟩ := Option.bind_eq_some_iff.1 h
      obtain ⟨rest, hrest, h⟩ := Option.bind_eq_some_iff.1 h
      cases h
      obtain ⟨h1, h2⟩ := unmarkedPlaces_spec hrest
      refine ⟨List.forall_mem_cons.2 ⟨⟨loc, hloc, rfl⟩, h1⟩, List.forall_mem_cons.2
        ⟨⟨_, List.mem_cons_self, rfl⟩, fun x hx => ?_⟩⟩
      obtain ⟨c, hc, hx⟩ := h2 x hx
      exact ⟨c, List.mem_cons_of_mem _ hc, hx⟩

/-- The places with which a content is taken over are those of all that it refers to. -/
theorem reusable_spec (hinj : Function.Injective keys.chunkId) (hkeys : b.repo.keys = keys)
    {pentry : Entry} {dataIds : List ChunkId} {places : List (ChunkId × ObjectId)}
    (h : b.reusable pentry = some (dataIds, places)) :
    (∀ c ∈ places, ∃ loc, b.index.get c.1 = some loc ∧ c.2 = loc.pack) ∧
      ∀ x, pentry.fileContent.Refers keys x → ∃ c ∈ places, c.1 = x := by
  unfold Backup.reusable at h
  cases hcontent : pentry.content with
  | direct =>
    rw [hcontent] at h
    obtain ⟨r, hr, h⟩ := Option.bind_eq_some_iff.1 h
    obtain ⟨places', hplaces, h⟩ := Option.bind_eq_some_iff.1 h
    cases hr
    cases h
    obtain ⟨h1, h2⟩ := unmarkedPlaces_spec hplaces
    refine ⟨h1, fun x hx => h2 x (List.mem_append_left _ ?_)⟩
    cases hx with
    | listed hx => exact hx
    | spelled hc => rw [Entry.fileContent, hcontent] at hc; cases hc
  | indirect =>
    rw [hcontent] at h
    dsimp only at h
    split_ifs at h
    · split at h
      · next ids hids =>
        obtain ⟨r, hr, h⟩ := Option.bind_eq_some_iff.1 h
        obtain ⟨places', hplaces, h⟩ := Option.bind_eq_some_iff.1 h
        cases hr
        cases h
        obtain ⟨h1, h2⟩ := unmarkedPlaces_spec hplaces
        refine ⟨h1, fun x hx => h2 x ?_⟩
        cases hx with
        | listed hx => exact List.mem_append_right _ hx
        | spelled hc hs hx =>
          have hspell := Repository.spells_of_resolveChunks hids
          rw [hkeys] at hspell
          exact List.mem_append_left _ (hs.unique hinj hspell ▸ hx)
      · cases h
    · cases h

/-- A content that is taken over from the parent. -/
theorem Tracks.tryReuse (hinj : Function.Injective keys.chunkId) (h : Tracks old keys b)
    (f : FileFacts) (parent : Option Entry) :
    Tracks old keys (b.tryReuse f parent).2 ∧ Ahead old b (b.tryReuse f parent).2 ∧
      ∀ c ∈ (b.tryReuse f parent).1, Backed old keys (b.tryReuse f parent).2 c := by
  unfold Backup.tryReuse
  cases parent with
  | none => exact ⟨h, fun _ hx => hx, fun c hc => by cases hc⟩
  | some pentry =>
    dsimp only
    split_ifs
    · cases hr : b.reusable pentry with
      | none => exact ⟨h, fun _ hx => hx, fun c hc => by cases hc⟩
      | some r =>
        obtain ⟨dataIds, places⟩ := r
        obtain ⟨hplace, hall⟩ := reusable_spec hinj h.keys_eq hr
        obtain ⟨h₁, ha₁, hc₁⟩ := h.recordReferenced hplace
        obtain ⟨h₂, ha₂⟩ := h₁.countBytes f pentry.size
        obtain ⟨h₃, ha₃⟩ := h₂.counts ((b.recordReferenced places).countBytes f pentry.size).stats
          { ((b.recordReferenced places).countBytes f pentry.size).report with
            chunksRead := ((b.recordReferenced places).countBytes f pentry.size).report.chunksRead +
              dataIds.length }
          ((b.recordReferenced places).countBytes f pentry.size).countedHardlinks
          ((b.recordReferenced places).countBytes f pentry.size).tick
          ((b.recordReferenced places).countBytes f pentry.size).hardlinks
        refine ⟨h₃, ha₁.trans (ha₂.trans ha₃), fun c hc x hx => ?_⟩
        cases hc
        obtain ⟨c, hc, rfl⟩ := hall x hx
        exact ha₃ _ (ha₂ _ (hc₁ c hc))
    · exact ⟨h, fun _ hx => hx, fun c hc => by cases hc⟩

/-- Reading a file. -/
theorem Files.readFile (hinj : Function.Injective keys.chunkId)
    (hdecode : ∀ l, keys.decodeList (keys.encodeList l) = some l) (h : Files old keys b)
    (f : FileFacts) (read : FileRead) :
    Files old keys (b.readFile f read).2 ∧ Ahead old b (b.readFile f read).2 ∧
      ∀ c ∈ (b.readFile f read).1, Backed old keys (b.readFile f read).2 c := by
  unfold Backup.readFile
  cases read with
  | unreadable reason =>
    obtain ⟨h₁, ha₁⟩ := h.toTracks.counts b.stats { b.report with errors := b.report.errors + 1 }
      b.countedHardlinks b.tick b.hardlinks
    exact ⟨h.of_tracks h₁ ha₁ rfl, ha₁, fun c hc => by cases hc⟩
  -- the chunks cut before the error stay in the packer, though no entry will name them
  | broken delivered reason =>
    obtain ⟨h₁, ha₁, -⟩ := Tracks.addChunks (b.chunker.cutFailing delivered) b {} h.toTracks
    set b₁ := (b.addChunks {} (b.chunker.cutFailing delivered)).1 with hb₁
    obtain ⟨h₂, ha₂⟩ := h₁.counts b₁.stats { b₁.report with errors := b₁.report.errors + 1 }
      b₁.countedHardlinks b₁.tick b₁.hardlinks
    have hl : b₁.hardlinks = b.hardlinks := (addChunks_spec _ b {}).1.hardlinks
    exact ⟨h.of_tracks h₂ (ha₁.trans ha₂) hl, ha₁.trans ha₂, fun c hc => by cases hc⟩
  | bytes content =>
    obtain ⟨h₁, ha₁, hc₁⟩ := h.toTracks.chunkBytes content
    have hl₁ := (b.sameRun_chunkBytes content).hardlinks
    simp only [Backup.chunkReader]
    set r := b.chunkBytes content with hr
    obtain ⟨h₂, ha₂⟩ := h₁.countBytes f r.1.bytesTotal
    have hl₂ := (sameRun_countBytes r.2 f r.1.bytesTotal).hardlinks
    obtain ⟨h₃, ha₃⟩ := h₂.counts (r.2.countBytes f r.1.bytesTotal).stats
      { (r.2.countBytes f r.1.bytesTotal).report with
        bytesStored := (r.2.countBytes f r.1.bytesTotal).report.bytesStored + r.1.bytesNew
        chunksNew := (r.2.countBytes f r.1.bytesTotal).report.chunksNew + r.1.chunksNew }
      (r.2.countBytes f r.1.bytesTotal).countedHardlinks (r.2.countBytes f r.1.bytesTotal).tick
      (r.2.countBytes f r.1.bytesTotal).hardlinks
    have ha₁₃ := ha₁.trans (ha₂.trans ha₃)
    set b₃ : Backup := { r.2.countBytes f r.1.bytesTotal with
      report := { (r.2.countBytes f r.1.bytesTotal).report with
        bytesStored := (r.2.countBytes f r.1.bytesTotal).report.bytesStored + r.1.bytesNew
        chunksNew := (r.2.countBytes f r.1.bytesTotal).report.chunksNew + r.1.chunksNew } }
    obtain ⟨h₄, ha₄, hc₄⟩ := h₃.storeContent hinj hdecode fun x hx => ha₃ x (ha₂ x (hc₁ x hx))
    have hl₄ : (b₃.storeContent r.1).2.hardlinks = b.hardlinks :=
      (b₃.sameRun_storeContent r.1).hardlinks.trans (hl₂.trans hl₁)
    have hfiles := h.of_tracks h₄ (ha₁₃.trans ha₄) hl₄
    cases hardlinkKey f with
    | none =>
      refine ⟨hfiles, ha₁₃.trans ha₄, fun c hc => ?_⟩
      cases hc
      exact hc₄
    -- the content is noted for the other links of the inode
    | some key =>
      obtain ⟨h₅, ha₅⟩ := h₄.counts (b₃.storeContent r.1).2.stats (b₃.storeContent r.1).2.report
        (b₃.storeContent r.1).2.countedHardlinks (b₃.storeContent r.1).2.tick
        ((b₃.storeContent r.1).2.hardlinks.insert key (b₃.storeContent r.1).1)
      refine ⟨⟨h₅, fun k c hc => ?_⟩, ha₁₃.trans (ha₄.trans ha₅), fun c hc => ?_⟩
      · dsimp only at hc
        rw [Dict.lookup_insert'] at hc
        split_ifs at hc
        · cases hc
          exact hc₄.mono ha₅
        · exact (hfiles.links k c hc).mono ha₅
      · cases hc
        exact hc₄.mono ha₅

/-- **A visit of a file.** Everything that the content it yields refers to is accounted for. -/
theorem Files.processFile (hinj : Function.Injective keys.chunkId)
    (hdecode : ∀ l, keys.decodeList (keys.encodeList l) = some l) (h : Files old keys b)
    (source : Source) (rel : RelPath) (f : FileFacts) (parent : Option Entry) :
    Files old keys (b.processFile source rel f parent).2 ∧
      Ahead old b (b.processFile source rel f parent).2 ∧
      ∀ c ∈ (b.processFile source rel f parent).1,
        Backed old keys (b.processFile source rel f parent).2 c := by
  obtain ⟨h₁, ha₁, hc₁⟩ := h.toTracks.tryReuse hinj f parent
  have hl₁ := (b.sameRun_tryReuse f parent).hardlinks
  unfold Backup.processFile
  split_ifs
  · obtain ⟨h₂, ha₂⟩ := h.toTracks.counts b.stats { b.report with errors := b.report.errors + 1 }
      b.countedHardlinks b.tick b.hardlinks
    exact ⟨h.of_tracks h₂ ha₂ rfl, ha₂, fun c hc => by cases hc⟩
  rcases ht : b.tryReuse f parent with ⟨_ | c, b₁⟩ <;> rw [ht] at h₁ ha₁ hc₁ hl₁
  · have hf₁ := h.of_tracks h₁ ha₁ hl₁
    rcases hk : (hardlinkKey f).bind b₁.hardlinks.lookup with _ | c <;> dsimp only <;> rw [hk]
    · obtain ⟨h₂, ha₂⟩ :=
        h₁.counts b₁.stats b₁.report b₁.countedHardlinks (b₁.tick + 1) b₁.hardlinks
      have hf₂ : Files old keys b₁.ask := hf₁.of_tracks h₂ ha₂ rfl
      obtain ⟨hf₃, ha₃, hc₃⟩ := hf₂.readFile hinj hdecode f (source.read b₁.tick rel)
      exact ⟨hf₃, ha₁.trans (ha₂.trans ha₃), hc₃⟩
    · obtain ⟨key, -, hlook⟩ := Option.bind_eq_some_iff.1 hk
      exact ⟨hf₁, ha₁, fun c' hc' => by cases hc'; exact hf₁.links key c hlook⟩
  · obtain ⟨h₂, ha₂⟩ := h₁.counts b₁.stats
      { b₁.report with filesReused := b₁.report.filesReused + 1 } b₁.countedHardlinks b₁.tick
      b₁.hardlinks
    exact ⟨h.of_tracks h₂ (ha₁.trans ha₂) hl₁, ha₁.trans ha₂,
      fun c' hc' => (hc₁ c' hc').mono ha₂⟩

end Contents

/-! ### Trees -/

section Trees

variable {old : ObjectId → Prop} {keys : RepoKeys} {b b' b'' : Backup} {ctx : SourceCtx}

/-- What an entry refers to is accounted for. -/
structure Entered (old : ObjectId → Prop) (keys : RepoKeys) (b : Backup) (e : Entry) : Prop where
  dir : e.kind = .dir → e.subtree ∈ b.seenTrees
  file : e.kind = .file → Backed old keys b e.fileContent

/-- **What a run keeps account of.** The trees seen name trees all of whose entries and whose
previous segment are accounted for. -/
structure Covers (old : ObjectId → Prop) (keys : RepoKeys) (b : Backup) : Prop extends
    Files old keys b where
  trees : ∀ id ∈ b.seenTrees, ∃ t : Tree, keys.treeId t = id ∧ (∀ p ∈ t.prev, p ∈ b.seenTrees) ∧
    ∀ e ∈ t.entries, Entered old keys b e

/-- What is accounted for, and what is seen, stays so. -/
structure Later (old : ObjectId → Prop) (b b' : Backup) : Prop where
  ahead : Ahead old b b'
  seen : ∀ id ∈ b.seenTrees, id ∈ b'.seenTrees

theorem Later.refl (b : Backup) : Later old b b := ⟨fun _ h => h, fun _ h => h⟩

theorem Later.trans (h : Later old b b') (h' : Later old b' b'') : Later old b b'' :=
  ⟨h.ahead.trans h'.ahead, fun id hid => h'.seen id (h.seen id hid)⟩

theorem Entered.mono {e : Entry} (h : Entered old keys b e) (hl : Later old b b') :
    Entered old keys b' e :=
  ⟨fun hk => hl.seen _ (h.dir hk), fun hk => (h.file hk).mono hl.ahead⟩

theorem Covers.of_files (h : Covers old keys b) (hf : Files old keys b') (ha : Ahead old b b')
    (hs : b'.seenTrees = b.seenTrees) : Covers old keys b' ∧ Later old b b' := by
  have hl : Later old b b' := ⟨ha, fun id hid => hs ▸ hid⟩
  refine ⟨⟨hf, fun id hid => ?_⟩, hl⟩
  obtain ⟨t, ht, hp, he⟩ := h.trees id (hs ▸ hid)
  exact ⟨t, ht, fun p hmem => hl.seen p (hp p hmem), fun e hmem => (he e hmem).mono hl⟩

theorem Covers.counts (h : Covers old keys b) (stats : SnapshotStats) (report : BackupReport)
    (tick : ℕ) : Covers old keys { b with stats, report, tick } ∧
      Later old b { b with stats, report, tick } := by
  obtain ⟨ht, ha⟩ := h.toTracks.counts stats report b.countedHardlinks tick b.hardlinks
  exact h.of_files (h.toFiles.of_tracks ht ha rfl) ha rfl

/-- Writing a tree whose references are accounted for. -/
theorem Covers.writeTree (h : Covers old keys b) {t : Tree} {id : TreeId}
    (hprev : ∀ p ∈ t.prev, p ∈ b.seenTrees) (hentries : ∀ e ∈ t.entries, Entered old keys b e)
    (hw : b.writeTree t = .ok (id, b')) :
    Covers old keys b' ∧ Later old b b' ∧ id ∈ b'.seenTrees := by
  obtain ⟨hid, -, ⟨hseen, rfl⟩ | ⟨b₁, hb₁, hb'⟩⟩ := writeTree_cases hw
  · exact ⟨h, .refl _, hseen⟩
  have hsame : ∃ trees replicas touches, b' = { b with
      seenTrees := id :: b.seenTrees, repo.store.trees := trees,
      repo.store.treeReplicas := replicas, repo.store.touches := touches } := by
    have h₁ : ∃ trees replicas, b₁ = { b with
        seenTrees := id :: b.seenTrees, repo.store.trees := trees,
        repo.store.treeReplicas := replicas } := by
      rw [hb₁]
      unfold putTreeReplica putTree
      split_ifs <;> split <;> exact ⟨_, _, rfl⟩
    obtain ⟨trees, replicas, rfl⟩ := h₁
    rcases hb' with rfl | rfl
    · exact ⟨_, _, b.repo.store.touches, rfl⟩
    · exact ⟨_, _, _, rfl⟩
  obtain ⟨hsetup, hpacker, hnew, hindex, hnonce, hpacks, href, hlinks, hseen⟩ : SameSetup b b' ∧
      b'.packer = b.packer ∧ b'.newPacks = b.newPacks ∧ b'.index = b.index ∧ b'.nonce = b.nonce ∧
      b'.repo.store.packs = b.repo.store.packs ∧ b'.referenced = b.referenced ∧
      b'.hardlinks = b.hardlinks ∧ b'.seenTrees = id :: b.seenTrees := by
    obtain ⟨trees, replicas, touches, rfl⟩ := hsame
    exact ⟨⟨rfl, rfl, rfl, rfl, rfl, rfl⟩, rfl, rfl, rfl, rfl, rfl, rfl, rfl, rfl⟩
  have ha : Ahead old b b' := fun x hx => hx.congr hpacker hnew href
  have hl : Later old b b' := ⟨ha, fun k hk => hseen ▸ List.mem_cons_of_mem _ hk⟩
  have ht : Tracks old keys b' := h.toTracks.congr hsetup hpacker hnew hindex hnonce hpacks
  refine ⟨⟨h.toFiles.of_tracks ht ha hlinks, fun k hk => ?_⟩, hl, hseen ▸ List.mem_cons_self⟩
  rcases List.mem_cons.1 (hseen ▸ hk) with rfl | hk
  · exact ⟨t, by rw [hid, h.keys_eq], fun p hp => hl.seen p (hprev p hp), fun e he =>
      (hentries e he).mono hl⟩
  · obtain ⟨t', ht', hp, he⟩ := h.trees k hk
    exact ⟨t', ht', fun p hmem => hl.seen p (hp p hmem), fun e hmem => (he e hmem).mono hl⟩

/-! ### The walk -/

/-- What the walk of a directory below has to keep. -/
def WalkCovers (old : ObjectId → Prop) (keys : RepoKeys) (walk : Option Walk) : Prop :=
  ∀ w ∈ walk, ∀ b d parent visit r, Covers old keys b → w b d parent visit = .ok r →
    Covers old keys r.2 ∧ Later old b r.2 ∧ r.1 ∈ r.2.seenTrees

theorem entered_symlink {e : Entry} (h : e.kind = .symlink) : Entered old keys b e :=
  ⟨(fun hk => nomatch h.symm.trans hk), fun hk => nomatch h.symm.trans hk⟩

theorem withXattrs_eq (ctx : SourceCtx) (b : Backup) (rel : RelPath) (e : Entry) :
    ∃ xattrs tick, withXattrs ctx b rel e = ({ e with xattrs }, { b with tick }) := by
  unfold withXattrs
  split_ifs
  · exact ⟨_, _, rfl⟩
  · exact ⟨e.xattrs, b.tick, rfl⟩

theorem processDir_covers {walk : Walk} (hwalk : WalkCovers old keys (some walk))
    (h : Covers old keys b) {rel : RelPath} {name : Bytes} {posix : Option PosixMeta}
    {parent : Option Entry} {visit : Visit} {r : Entry × Backup}
    (hr : processDir ctx walk b rel name posix parent visit = .ok r) :
    Covers old keys r.2 ∧ Later old b r.2 ∧ Entered old keys r.2 r.1 := by
  obtain ⟨⟨subtree, b₁⟩, hsub, hr⟩ := bind_eq_ok.1 hr
  have hsubtree : Covers old keys b₁ ∧ Later old b b₁ ∧ subtree ∈ b₁.seenTrees := by
    unfold walkSubtree at hsub
    split at hsub
    · obtain ⟨h₁, hl₁⟩ :=
        h.counts b.stats { b.report with excluded := b.report.excluded + 1 } b.tick
      obtain ⟨h₂, hl₂, hid⟩ := h₁.writeTree (fun p hp => by cases hp) (List.forall_mem_nil _) hsub
      exact ⟨h₂, hl₁.trans hl₂, hid⟩
    · exact hwalk walk rfl _ _ _ _ _ h hsub
  obtain ⟨h₁, hl₁, hid⟩ := hsubtree
  cases hr
  have hxattrs : ∀ e : Entry, e.kind = .dir → e.subtree = subtree →
      Covers old keys (withXattrs ctx { b₁ with stats.dirs := b₁.stats.dirs + 1 } rel e).2 ∧
      Later old b (withXattrs ctx { b₁ with stats.dirs := b₁.stats.dirs + 1 } rel e).2 ∧
      Entered old keys (withXattrs ctx { b₁ with stats.dirs := b₁.stats.dirs + 1 } rel e).2
        (withXattrs ctx { b₁ with stats.dirs := b₁.stats.dirs + 1 } rel e).1 := by
    intro e hkind hsubtree
    obtain ⟨xattrs, tick, heq⟩ :=
      withXattrs_eq ctx { b₁ with stats.dirs := b₁.stats.dirs + 1 } rel e
    obtain ⟨h₂, hl₂⟩ := h₁.counts { b₁.stats with dirs := b₁.stats.dirs + 1 } b₁.report tick
    rw [heq]
    exact ⟨h₂, hl₁.trans hl₂, fun _ => hl₂.seen _ (hsubtree ▸ hid),
      fun hk => nomatch hkind.symm.trans hk⟩
  exact hxattrs _ (by cases ctx.source.metaKind <;> cases posix <;> rfl)
    (by cases ctx.source.metaKind <;> cases posix <;> rfl)

theorem processRegular_covers (hinj : Function.Injective keys.chunkId)
    (hdecode : ∀ l, keys.decodeList (keys.encodeList l) = some l) (h : Covers old keys b)
    {rel : RelPath} {name : Bytes} {size : ℕ} {mtimeNs : ℤ} {etag vern : Option Bytes}
    {posix : Option PosixMeta} {parent : Option Entry} {r : Option Entry × Backup}
    (hr : processRegular ctx b rel name size mtimeNs etag vern posix parent = r) :
    Covers old keys r.2 ∧ Later old b r.2 ∧ ∀ e ∈ r.1, Entered old keys r.2 e := by
  obtain ⟨hf, ha, hc⟩ :=
    h.toFiles.processFile hinj hdecode ctx.source rel ⟨size, posix, etag⟩ parent
  have hs := (b.sameVisit_processFile ctx.source rel ⟨size, posix, etag⟩ parent).seenTrees
  subst hr
  unfold processRegular
  rcases hp : b.processFile ctx.source rel ⟨size, posix, etag⟩ parent with ⟨_ | c, b₁⟩ <;>
    rw [hp] at hf ha hc hs <;> obtain ⟨h₁, hl₁⟩ := h.of_files hf ha hs
  · exact ⟨h₁, hl₁, fun e he => by cases he⟩
  · have hback : Backed old keys b₁ c := hc c rfl
    -- whatever metadata the entry gets, and whatever is counted, its content is accounted for
    have hentered : ∀ (stats : SnapshotStats) (report : BackupReport) (tick : ℕ) (e : Entry),
        e.kind = .file → e.fileContent = c →
          Covers old keys { b₁ with stats, report, tick } ∧
          Later old b { b₁ with stats, report, tick } ∧
          ∀ e' ∈ some e, Entered old keys { b₁ with stats, report, tick } e' := by
      intro stats report tick e hkind hcontent
      obtain ⟨h₂, hl₂⟩ := h₁.counts stats report tick
      refine ⟨h₂, hl₁.trans hl₂, fun e' he' => ?_⟩
      cases he'
      exact ⟨(fun hk => nomatch hkind.symm.trans hk), fun _ => hcontent ▸ hback.mono hl₂.ahead⟩
    dsimp only
    cases hm : ctx.source.metaKind <;> cases posix
    case posix.none =>
      obtain ⟨h₂, hl₂⟩ := h₁.counts { b₁.stats with files := b₁.stats.files + 1 }
        { b₁.report with errors := b₁.report.errors + 1 } b₁.tick
      exact ⟨h₂, hl₁.trans hl₂, fun e he => by cases he⟩
    case posix.some posix =>
      simp only [withXattrs, hm, if_true]
      exact hentered _ _ _ _ rfl rfl
    all_goals exact hentered _ _ _ _ rfl rfl

/-- **One item.** -/
theorem processEntry_covers (hinj : Function.Injective keys.chunkId)
    (hdecode : ∀ l, keys.decodeList (keys.encodeList l) = some l) {walk : Option Walk}
    (hwalk : WalkCovers old keys walk) (h : Covers old keys b) {rel : RelPath} {item : SourceItem}
    {parent : Option Entry} {visit : Visit} {r : Option Entry × Backup}
    (hr : processEntry ctx walk b rel item parent visit = .ok r) :
    Covers old keys r.2 ∧ Later old b r.2 ∧ ∀ e ∈ r.1, Entered old keys r.2 e := by
  obtain ⟨hask, hlask⟩ : Covers old keys b.ask ∧ Later old b b.ask :=
    h.counts b.stats b.report (b.tick + 1)
  unfold processEntry at hr
  cases hkind : item.kind with
  | symlink target =>
    rw [hkind] at hr
    dsimp only [processSymlink] at hr
    generalize (if ctx.source.metaKind = .posix then ctx.source.lstat b.tick rel else none) =
      posix at hr
    obtain ⟨xattrs, tick, heq⟩ := withXattrs_eq ctx
      { b.ask with stats.symlinks := b.ask.stats.symlinks + 1 } rel (posix.elim
        { name := item.name, kind := .symlink, metaKind := ctx.source.metaKind, target } fun p =>
          fillPosixMeta {
            name := item.name, kind := .symlink, metaKind := ctx.source.metaKind, target }
            p false)
    rw [heq] at hr
    cases hr
    obtain ⟨h₂, hl₂⟩ := hask.counts { b.ask.stats with symlinks := b.ask.stats.symlinks + 1 }
      b.ask.report tick
    refine ⟨h₂, hlask.trans hl₂, fun e he => ?_⟩
    cases he
    exact entered_symlink (by cases posix <;> rfl)
  | dir =>
    rw [hkind] at hr
    cases walk with
    | none =>
      cases hr
      obtain ⟨h₂, hl₂⟩ := hask.counts b.stats { b.report with errors := b.report.errors + 1 }
        (b.tick + 1)
      exact ⟨h₂, hlask.trans hl₂, fun e he => by cases he⟩
    | some w =>
      obtain ⟨⟨e, b₁⟩, hdir, hr⟩ := bind_eq_ok.1 hr
      cases hr
      obtain ⟨h₁, hl₁, he₁⟩ := processDir_covers hwalk hask hdir
      exact ⟨h₁, hlask.trans hl₁, fun e' he' => by cases he'; exact he₁⟩
  | file size mtimeNs etag vern =>
    rw [hkind] at hr
    dsimp only at hr
    by_cases hfs : visit.otherFs
        (if ctx.source.metaKind = .posix then ctx.source.lstat b.tick rel else none) = true
    · rw [if_pos hfs] at hr
      cases hr
      obtain ⟨h₂, hl₂⟩ := hask.counts b.stats { b.report with excluded := b.report.excluded + 1 }
        (b.tick + 1)
      exact ⟨h₂, hlask.trans hl₂, fun e he => by cases he⟩
    · rw [if_neg hfs] at hr
      obtain ⟨h₁, hl₁, he₁⟩ := processRegular_covers hinj hdecode hask (Except.ok.inj hr)
      exact ⟨h₁, hlask.trans hl₁, he₁⟩

/-- What holds of the loop of `walk_dir`, in a walk that has started in `b`. -/
structure LoopCovers (old : ObjectId → Prop) (keys : RepoKeys) (b : Backup) (s : Loop) : Prop where
  covers : Covers old keys s.b
  later : Later old b s.b
  children : ∀ e ∈ s.children, Entered old keys s.b e
  prev : ∀ p ∈ s.prev, p ∈ s.b.seenTrees

theorem LoopCovers.take (hinj : Function.Injective keys.chunkId)
    (hdecode : ∀ l, keys.decodeList (keys.encodeList l) = some l) {walk : Option Walk}
    (hwalk : WalkCovers old keys walk) {d : RelPath} {markers : Option (List Bytes)} {visit : Visit}
    {s s' : Loop} {x : Except String SourceItem} (h : LoopCovers old keys b s)
    (hs : Loop.take ctx walk d markers visit s x = .ok s') : LoopCovers old keys b s' := by
  obtain ⟨errors, excluded, rfl⟩ | ⟨item, child, r, -, -, -, hr, hcase⟩ := take_cases hs
  · obtain ⟨h₁, hl₁⟩ := h.covers.counts s.b.stats { s.b.report with errors, excluded } s.b.tick
    exact ⟨h₁, h.later.trans hl₁, fun e he => (h.children e he).mono hl₁,
      fun p hp => hl₁.seen p (h.prev p hp)⟩
  · obtain ⟨h₁, hl₁, he₁⟩ := processEntry_covers hinj hdecode hwalk h.covers hr
    have hchildren : ∀ e ∈ s.children ++ r.1.toList, Entered old keys r.2 e := fun e he => by
      rcases List.mem_append.1 he with he | he
      · exact (h.children e he).mono hl₁
      · exact he₁ e (Option.mem_toList.1 he)
    have hprev : ∀ p ∈ s.prev, p ∈ r.2.seenTrees := fun p hp => hl₁.seen p (h.prev p hp)
    rcases hcase with ⟨id, b₂, hwrite, rfl⟩ | rfl
    · obtain ⟨h₂, hl₂, hid⟩ := h₁.writeTree hprev hchildren hwrite
      refine ⟨h₂, h.later.trans (hl₁.trans hl₂), List.forall_mem_nil _, fun p hp => ?_⟩
      cases hp
      exact hid
    · exact ⟨h₁, h.later.trans hl₁, hchildren, hprev⟩

theorem enterDir_covers (h : Covers old keys b) (d : RelPath) (parent : Option TreeId)
    (visit : Visit) : LoopCovers old keys b (enterDir ctx b d parent visit).2 := by
  have hask : ∀ tick, Covers old keys { b with tick } ∧ Later old b { b with tick } := fun tick =>
    h.counts b.stats b.report tick
  have hmarkers : ∀ (ms : List Marker) (found : List Bytes) (tick : ℕ), ∃ found' tick',
      ms.foldl (fun (r : List Bytes × Backup) marker =>
        (if findsMarker ctx r.2.tick d marker then r.1 ++ [marker.name] else r.1, r.2.ask))
          (found, { b with tick }) = (found', { b with tick := tick' }) := by
    intro ms
    induction ms with
    | nil => exact fun found tick => ⟨found, tick, rfl⟩
    | cons m ms ih => exact fun found tick => ih _ (tick + 1)
  have hb : ∃ tick, (enterDir ctx b d parent visit).2.b = { b with tick } := by
    unfold enterDir
    dsimp only
    by_cases hskip : ctx.exclude.ifPresent = [] ∨ visit.passThrough = true
    · rw [if_pos hskip]
      exact ⟨b.tick + 1, rfl⟩
    · rw [if_neg hskip]
      obtain ⟨found, tick, heq⟩ := hmarkers ctx.exclude.ifPresent [] (b.tick + 1)
      exact ⟨tick, congrArg Prod.snd heq⟩
  obtain ⟨tick, hb⟩ := hb
  exact ⟨hb ▸ (hask tick).1, hb ▸ (hask tick).2, List.forall_mem_nil _, fun p hp => by cases hp⟩

/-- **One directory.** -/
theorem walkDirWith_covers (hinj : Function.Injective keys.chunkId)
    (hdecode : ∀ l, keys.decodeList (keys.encodeList l) = some l) {walk : Option Walk}
    (hwalk : WalkCovers old keys walk) (h : Covers old keys b) {d : RelPath}
    {parent : Option TreeId} {visit : Visit} {r : TreeId × Backup}
    (hr : walkDirWith ctx walk b d parent visit = .ok r) :
    Covers old keys r.2 ∧ Later old b r.2 ∧ r.1 ∈ r.2.seenTrees := by
  cases hlist : ctx.source.list b.tick d with
  | error e =>
    unfold walkDirWith at hr
    rw [hlist] at hr
    obtain ⟨h₁, hl₁⟩ :=
      h.counts b.stats { b.report with errors := b.report.errors + 1 } (b.tick + 1)
    obtain ⟨h₂, hl₂, hid⟩ := h₁.writeTree (fun p hp => by cases hp) (List.forall_mem_nil _) hr
    exact ⟨h₂, hl₁.trans hl₂, hid⟩
  | ok items =>
    rw [walkDirWith_eq ctx hlist] at hr
    obtain ⟨s, hs, hr⟩ := bind_eq_ok.1 hr
    have hloop : LoopCovers old keys b s := Checked.foldlM_invariant
      (fun _ _ _ hs h => hs.take hinj hdecode hwalk h) (enterDir_covers h d parent visit) hs
    obtain ⟨h₂, hl₂, hid⟩ := hloop.covers.writeTree hloop.prev hloop.children hr
    exact ⟨h₂, hloop.later.trans hl₂, hid⟩

theorem walkBelow_covers (hinj : Function.Injective keys.chunkId)
    (hdecode : ∀ l, keys.decodeList (keys.encodeList l) = some l) :
    ∀ levels, WalkCovers old keys (walkBelow ctx levels)
  | 0 => fun w hw => by cases hw
  | levels + 1 => fun w hw b d parent visit r hb h => by
    cases hw
    rw [walkDir_eq] at h
    exact walkDirWith_covers hinj hdecode (walkBelow_covers hinj hdecode levels) hb h

theorem walkDir_covers (hinj : Function.Injective keys.chunkId)
    (hdecode : ∀ l, keys.decodeList (keys.encodeList l) = some l) (h : Covers old keys b)
    {levels : ℕ} {d : RelPath} {parent : Option TreeId} {visit : Visit} {r : TreeId × Backup}
    (hr : walkDir ctx levels b d parent visit = .ok r) :
    Covers old keys r.2 ∧ Later old b r.2 ∧ r.1 ∈ r.2.seenTrees := by
  rw [walkDir_eq] at hr
  exact walkDirWith_covers hinj hdecode (walkBelow_covers hinj hdecode levels) h hr

/-! ### The sources -/

theorem fileRoot_covers (hinj : Function.Injective keys.chunkId)
    (hdecode : ∀ l, keys.decodeList (keys.encodeList l) = some l) (h : Covers old keys b)
    {rel : RelPath} {item : SourceItem} {parent : Option TreeId} {r : TreeId × Backup}
    (hr : fileRoot ctx b rel item parent = .ok r) :
    Covers old keys r.2 ∧ Later old b r.2 ∧ r.1 ∈ r.2.seenTrees := by
  obtain ⟨⟨entry, b₁⟩, hentry, hr⟩ := bind_eq_ok.1 hr
  obtain ⟨h₁, hl₁, he₁⟩ := processEntry_covers hinj hdecode (fun w hw => by cases hw) h hentry
  cases entry with
  | none => cases hr
  | some e =>
    obtain ⟨h₂, hl₂, hid⟩ := h₁.writeTree (fun p hp => by cases hp)
      (List.forall_mem_cons.2 ⟨he₁ e rfl, List.forall_mem_nil _⟩) hr
    exact ⟨h₂, hl₁.trans hl₂, hid⟩

theorem dirRoot_covers (hinj : Function.Injective keys.chunkId)
    (hdecode : ∀ l, keys.decodeList (keys.encodeList l) = some l) (h : Covers old keys b)
    {locator : Bytes} {dev : Option ℕ} {parent : Option TreeId} {r : TreeId × Backup}
    (hr : dirRoot ctx b locator dev parent = .ok r) :
    Covers old keys r.2 ∧ Later old b r.2 ∧ r.1 ∈ r.2.seenTrees := by
  obtain ⟨state, -, hr⟩ := bind_eq_ok.1 hr
  exact walkDir_covers hinj hdecode h hr

/-- One source. -/
theorem prepareRoot_covers (hinj : Function.Injective keys.chunkId)
    (hdecode : ∀ l, keys.decodeList (keys.encodeList l) = some l) (h : Covers old keys b)
    {exclude : Exclusions} {locator : Bytes} {parent : Option TreeId} {plan : RootPlan}
    {r : TreeId × Backup} (hr : b.prepareRoot exclude locator parent plan = .ok r) :
    Covers old keys r.2 ∧ Later old b r.2 ∧ r.1 ∈ r.2.seenTrees := by
  obtain ⟨hask, hlask⟩ : Covers old keys b.ask ∧ Later old b b.ask :=
    h.counts b.stats b.report (b.tick + 1)
  -- a question to the source comes first
  have hlater : ∀ {b₁ : Backup}, Covers old keys b₁ ∧ Later old b.ask b₁ ∧ r.1 ∈ b₁.seenTrees →
      Covers old keys b₁ ∧ Later old b b₁ ∧ r.1 ∈ b₁.seenTrees :=
    fun ⟨h₁, hl₁, hid⟩ => ⟨h₁, hlask.trans hl₁, hid⟩
  cases plan with
  | localDir fs path named =>
    unfold prepareRoot at hr
    dsimp only at hr
    split_ifs at hr
    · split at hr
      · cases hr
      · exact hlater (dirRoot_covers hinj hdecode hask hr)
    · exact dirRoot_covers hinj hdecode h hr
  | localFile fs path =>
    unfold prepareRoot at hr
    dsimp only at hr
    split at hr
    · cases hr
    · obtain ⟨item, -, hr⟩ := bind_eq_ok.1 hr
      exact hlater (fileRoot_covers hinj hdecode hask hr)
  | remote source =>
    unfold prepareRoot at hr
    dsimp only at hr
    split at hr
    · cases hr
    · split at hr
      · exact hlater (fileRoot_covers hinj hdecode hask hr)
      · exact hlater (dirRoot_covers hinj hdecode hask hr)

/-- **The sources.** -/
theorem prepareRoots_covers (hinj : Function.Injective keys.chunkId)
    (hdecode : ∀ l, keys.decodeList (keys.encodeList l) = some l) {exclude : Exclusions}
    {parentRoots : List Root} : ∀ (plans : List (Bytes × RootPlan)) (b : Backup)
      (r : List Root × Backup),
        Covers old keys b → b.prepareRoots exclude parentRoots plans = .ok r →
        Covers old keys r.2 ∧ Later old b r.2 ∧ ∀ root ∈ r.1, root.tree ∈ r.2.seenTrees
  | [], b, r, h, hr => by
    cases hr
    exact ⟨h, .refl b, List.forall_mem_nil _⟩
  | (locator, plan) :: plans, b, r, h, hr => by
    obtain ⟨⟨id, b₁⟩, hroot, hr⟩ := bind_eq_ok.1 hr
    obtain ⟨⟨roots, b₂⟩, hroots, hr⟩ := bind_eq_ok.1 hr
    cases hr
    obtain ⟨h₁, hl₁, hid⟩ := prepareRoot_covers hinj hdecode h hroot
    obtain ⟨h₂, hl₂, hids⟩ := prepareRoots_covers hinj hdecode plans b₁ _ h₁ hroots
    exact ⟨h₂, hl₁.trans hl₂, List.forall_mem_cons.2 ⟨hl₂.seen _ hid, hids⟩⟩

end Trees

end Backup

/-! ### A whole run -/

/-- The trees that are reached from a tree: the segments before it, and the directories in it. -/
inductive RepoKeys.Reaches (keys : RepoKeys) (root : TreeId) : TreeId → Prop
  | refl : Reaches keys root root
  | prev {id p : TreeId} {t : Tree} (h : Reaches keys root id) (ht : keys.treeId t = id)
    (hp : t.prev = some p) : Reaches keys root p
  | sub {id : TreeId} {t : Tree} {e : Entry} (h : Reaches keys root id) (ht : keys.treeId t = id)
    (he : e ∈ t.entries) (hk : e.kind = .dir) : Reaches keys root e.subtree

/-- All trees that a root reaches have been seen with it. -/
theorem Backup.Covers.seen_of_reaches {old : ObjectId → Prop} {keys : RepoKeys} {b : Backup}
    (h : Backup.Covers old keys b) (htree : Function.Injective keys.treeId) {root id : TreeId}
    (hroot : root ∈ b.seenTrees) (hid : keys.Reaches root id) : id ∈ b.seenTrees := by
  induction hid with
  | refl => exact hroot
  | prev _ ht hp ih =>
    obtain ⟨t, ht', hprev, -⟩ := h.trees _ ih
    rw [htree (ht.trans ht'.symm)] at hp
    exact hprev _ hp
  | sub _ ht he hk ih =>
    obtain ⟨t, ht', -, hentries⟩ := h.trees _ ih
    rw [htree (ht.trans ht'.symm)] at he
    exact (hentries _ he).dir hk

/-- A chunk is listed by the index blob of the run, in a pack that the run has uploaded. -/
structure PreparedBackup.Owns (p : PreparedBackup) (x : ChunkId) (nonce : ℕ) (blob : IndexBlob)
    (pack : IndexPack) : Prop where
  written : p.repo.store.indexes.lookup (p.repo.keys.objectId (.indexBlob nonce blob)) =
    some (.indexBlob nonce blob)
  listed : pack ∈ blob.packs
  entry : ∃ e ∈ pack.entries, e.id = x
  own : pack.pack ∈ p.ownPacks
  uploaded : (p.repo.store.packs.lookup pack.pack).isSome

/-- A chunk is one of those that `verify_referenced_chunks` looks up. -/
def PreparedBackup.Verifies (p : PreparedBackup) (x : ChunkId) : Prop :=
  ∃ pack chunks, p.referenced.lookup pack = some chunks ∧ pack ∉ p.ownPacks ∧ x ∈ chunks

section Prepare

variable {repo : Repository} {opts : BackupOptions} {nonce : ℕ} {started now : Time}
  {p : PreparedBackup} {old : ObjectId → Prop} {b : Backup}

/-- What is accounted for when the walk ends is owned or verified. -/
theorem accounts_finish (h : Backup.Covers old repo.keys b) {roots : List Root}
    {parentKey : Option SnapshotKey} {x : ChunkId} (hx : Backup.Accounted old b x) :
    (∃ nonce blob pack, (b.finish opts started roots parentKey).Owns x nonce blob pack) ∨
      (b.finish opts started roots parentKey).Verifies x := by
  obtain ⟨ht, ha, hempty⟩ := h.toTracks.flushPack
  cases ha x hx with
  | packing c hc => rw [hempty] at hc; cases hc
  | packed pk hpk e he hx =>
    have hne : b.flushPack.newPacks ≠ [] := List.ne_nil_of_mem hpk
    refine .inl ⟨b.flushPack.nonce, .new b.flushPack.newPacks, pk, ?_, hpk, ⟨e, he, hx⟩,
      List.mem_map_of_mem hpk, ?_⟩
    · unfold Backup.finish
      dsimp only
      rw [if_neg hne]
      exact AList.lookup_insert _
    · unfold Backup.finish
      dsimp only
      rw [if_neg hne]
      exact (ht.named pk hpk).2.2
  | noted pack hold cs hl hx =>
    refine .inr ⟨pack, cs, hl, fun hown => ?_, hx⟩
    obtain ⟨pk, hpk, rfl⟩ := List.mem_map.1 hown
    exact (ht.named pk hpk).1 hold

/-- The packs that the index blobs of a repository list. -/
def Repository.Indexes (repo : Repository) (pack : ObjectId) : Prop :=
  ∃ all, repo.loadIndexBlobs = .ok all ∧ ∃ pk ∈ effectivePacks all, pk.pack = pack

/-- The walk starts with everything accounted for. -/
theorem Prepared.covers_start (h : Prepared repo opts nonce started now p)
    (hvalid : repo.config.chunker.Valid)
    (hname : ∀ n chunks, repo.keys.packId n chunks ≠ pendingPack)
    (hpending : ¬repo.Indexes pendingPack)
    (hfresh : ∀ n, nonce ≤ n → ∀ chunks, ¬repo.Indexes (repo.keys.packId n chunks)) :
    Backup.Covers repo.Indexes repo.keys h.start := by
  obtain ⟨all, hall, hindex⟩ := bind_eq_ok.1 h.loaded
  replace hindex : loadIndexRanked _ all = h.index := Except.ok.inj hindex
  have hbase : h.index.base = none := by
    rw [← hindex]
    have hnew : HoldsBest (fun id => decide (id ∈ repo.store.marks.keys)) []
        ChunkIndex.new.overlay := fun c => by simp [ChunkIndex.new, Lists]
    exact (holdsBest_foldl_blobs (effective all) hnew).2
  refine ⟨⟨⟨rfl, h.chunker_valid hvalid,
    fun n hn chunks => ⟨hfresh n hn chunks, hname n chunks⟩, hbase,
    fun x loc hl => ?_, hpending, List.forall_mem_nil _⟩, fun key c hc => by cases hc⟩,
    List.forall_mem_nil _⟩
  rw [show h.start.index = h.index from rfl, ← hindex] at hl
  obtain ⟨pk, hpk, e, -, -, rfl⟩ := (best_of_get_loadIndexRanked hl).listed
  exact .old ⟨all, hall, pk, hpk, rfl⟩

/-- **What the commit accounts for.** Every tree that the roots of a run reach is among the trees
seen; every chunk that a file in such a tree refers to, data or list, is in a pack that the run has
uploaded and that its index blob lists, or among those that the commit looks up; and when the last
pack is finished, every place in the index is in a pack from before the run or in one of the run
that has the chunk, and none waits for a pack. -/
theorem backupPrepare_covers (htree : Function.Injective repo.keys.treeId)
    (hinj : Function.Injective repo.keys.chunkId)
    (hdecode : ∀ l, repo.keys.decodeList (repo.keys.encodeList l) = some l)
    (hvalid : repo.config.chunker.Valid)
    (hname : ∀ n chunks, repo.keys.packId n chunks ≠ pendingPack)
    (hpending : ¬repo.Indexes pendingPack)
    (hfresh : ∀ n, nonce ≤ n → ∀ chunks, ¬repo.Indexes (repo.keys.packId n chunks))
    (h : repo.backupPrepare opts nonce started now = .ok p) :
    (∀ root ∈ p.roots, ∀ id, repo.keys.Reaches root.tree id → id ∈ p.seenTrees ∧
      ∀ t, repo.keys.treeId t = id → ∀ e ∈ t.entries, e.kind = .file →
        ∀ x, e.fileContent.Refers repo.keys x →
          (∃ nonce blob pack, p.Owns x nonce blob pack) ∨ p.Verifies x) ∧
    ∃ prep : Prepared repo opts nonce started now p,
      ∀ x loc, prep.walked.2.flushPack.index.get x = some loc → loc.pack ≠ pendingPack ∧
        (repo.Indexes loc.pack ∨ ∃ pk ∈ prep.walked.2.flushPack.newPacks, pk.pack = loc.pack ∧
          ∃ e ∈ pk.entries, e.id = x) := by
  obtain ⟨prep⟩ := backupPrepare_ok h
  obtain ⟨hcovers, -, hroots⟩ := Backup.prepareRoots_covers hinj hdecode _ _ _
    (prep.covers_start hvalid hname hpending hfresh) prep.walk
  -- the last flush empties the packer, so no place is left pending
  obtain ⟨ht, ha, hempty⟩ := hcovers.toTracks.flushPack
  refine ⟨fun root hroot id hid => ?_, prep, fun x loc hl => ?_⟩
  · have hp := prep.eq
    have hseen : id ∈ prep.walked.2.seenTrees := by
      rw [hp] at hroot
      exact hcovers.seen_of_reaches htree (hroots root hroot) hid
    refine ⟨?_, fun t hteq e he hk x hx => ?_⟩
    · rw [hp]
      show id ∈ prep.walked.2.flushPack.seenTrees
      rwa [prep.walked.2.sameRun_flushPack.seenTrees]
    · obtain ⟨t', ht', -, hentries⟩ := hcovers.trees id hseen
      rw [htree (hteq.trans ht'.symm)] at he
      rw [hp]
      exact accounts_finish hcovers ((hentries e he).file hk x hx)
  · cases ht.place x loc hl with
    | packing _ c hc => rw [hempty] at hc; cases hc
    | packed pk hpk heq e he hx =>
      exact ⟨heq ▸ (ht.named pk hpk).2.1, .inr ⟨pk, hpk, heq.symm, e, he, hx⟩⟩
    | old hold => exact ⟨fun hpend => hpending (hpend ▸ hold), .inl hold⟩

end Prepare

/-- A directory `r` that holds the file `f` of one byte. -/
def oneByte : SourceTree :=
  .ofItems
    [([], .dir ⟨0o40755, 0, 0, 5, 5, 1, 1, 3⟩),
      ([[114]], .dir ⟨0o40755, 0, 0, 5, 5, 2, 1, 2⟩),
      ([[114], [102]], .file ⟨0o100644, 0, 0, 5, 5, 3, 1, 1⟩ [7])]
    ⟨by decide, by decide, by decide, by simp [Backup.isRegular]⟩

/-- The source `r`, all of it. -/
def oneByteOptions : BackupOptions where
  source := .localPaths (oneByte.localFs fun _ => .ok [[114]]) [[114]]
  clientId := 1
  hostname := "host"
  username := "user"
  gcGrace := 10 ^ 15
  parity := 0
  exclude := ⟨⟨[], ⟨fun c => [c], fun c => [c]⟩⟩, [], none, false⟩

/-- The file of one byte is backed up into an empty repository: its chunk is in the one pack of the
run, and there it is in the index. -/
theorem backupPrepare_covers_oneByte :
    ∃ p, Repository.emptyIdeal.backupPrepare oneByteOptions 0 100 100 = .ok p ∧
      p.roots.length = 1 ∧ p.ownPacks = [1] ∧ (∀ root ∈ p.roots, root.tree ∈ p.seenTrees) ∧
      ∃ prep : Prepared Repository.emptyIdeal oneByteOptions 0 100 100 p,
        ∀ x loc, prep.walked.2.flushPack.index.get x = some loc →
          loc.pack = 1 ∧ ∃ pk ∈ prep.walked.2.flushPack.newPacks, ∃ e ∈ pk.entries, e.id = x := by
  have hrun : (Repository.emptyIdeal.backupPrepare oneByteOptions 0 100 100).toOption.map
      (fun p => (p.roots.length, p.ownPacks)) = some (1, [1]) := by decide +kernel
  cases hp : Repository.emptyIdeal.backupPrepare oneByteOptions 0 100 100 with
  | error e => rw [hp] at hrun; cases hrun
  | ok p =>
    rw [hp] at hrun
    obtain ⟨hroots, hown⟩ := Prod.mk.inj (Option.some.inj hrun)
    have hnone : ∀ pack, ¬Repository.emptyIdeal.Indexes pack := by
      rintro pack ⟨all, hall, pk, hpk, -⟩
      cases hall
      cases hpk
    obtain ⟨hreach, prep, hplaces⟩ := backupPrepare_covers RepoKeys.treeId_ideal_injective
      RepoKeys.chunkId_ideal_injective RepoKeys.decodeList_ideal
      (ChunkerParams.valid_of_validate ChunkerParams.validate_default)
      (fun n _ => Nat.succ_ne_zero n) (hnone _) (fun _ _ _ => hnone _) hp
    refine ⟨p, rfl, hroots, hown, fun root hroot => (hreach root hroot _ .refl).1, prep,
      fun x loc hl => ?_⟩
    obtain ⟨-, hold | ⟨pk, hpk, hpack, e, he, hx⟩⟩ := hplaces x loc hl
    · exact absurd hold (hnone _)
    · have hmem : pk.pack ∈ p.ownPacks := by
        rw [prep.eq]
        exact List.mem_map_of_mem hpk
      rw [hown] at hmem
      exact ⟨hpack.symm.trans (List.mem_singleton.1 hmem), pk, hpk, e, he, hx⟩

end Kist
