import Kist.Backup.Advance
import Kist.PackFile
import Kist.Prune.Execute

/-!
# No chunk twice in a pack

A trailer that lists a chunk twice is not valid, and the writer of packs does not look. Those who
hand it chunks see to it: a backup finds a chunk of the pack being filled in its index, where it
waits for the name of the pack, and a prune notes what it has moved.

* `Backup.OneEach.advances`: no pack of a backup has a chunk twice.
* `Listed.nodup`: no pack that an index lists has one twice, whoever wrote the index.
* `writer_and_reader_agree`: what the writer of packs writes, the reader reads.
-/

namespace Kist

open PackFile (readPackIndex readTrailer validateTrailer TrailerOk Stores headerLen
  isizeMax maxChunkerMax)

/-- The chunks of the pack being filled. -/
def PackWriter.ids (w : PackWriter) : List ChunkId := w.chunks.map fun c => c.1.id

section Writer

variable {keys : RepoKeys} {w : PackWriter} {id : ChunkId} {plain : Bytes}

theorem PackWriter.ids_add : (w.add keys id plain).2.ids = w.ids ++ [id] := by
  simp [PackWriter.add, PackWriter.ids]

theorem PackWriter.nodup_add (h : w.ids.Nodup) (hnew : id ∉ w.ids) :
    (w.add keys id plain).2.ids.Nodup := by
  rw [ids_add]
  exact h.append (List.nodup_singleton _) (List.disjoint_singleton.2 hnew)

theorem PackWriter.map_entries : (w.chunks.map Prod.fst).map PackEntry.id = w.ids := by
  rw [List.map_map]
  rfl

end Writer

/-! ### Backup -/

namespace Backup

/-- No pack has a chunk twice, and the chunks of the pack being filled wait in the index. -/
structure OneEach (b : Backup) : Prop where
  waiting : ∀ id ∈ b.packer.ids, ∃ loc, b.index.get id = some loc ∧ loc.pack = pendingPack
  packing : b.packer.ids.Nodup
  unmarked : pendingPack ∉ b.marked
  packed : ∀ p ∈ b.newPacks, (p.entries.map PackEntry.id).Nodup

section OneEach

variable {b b' : Backup}

theorem OneEach.flushPack (h : b.OneEach) : b.flushPack.OneEach := by
  unfold Backup.flushPack
  split_ifs with hempty
  · exact h
  · refine ⟨nofun, List.nodup_nil, h.unmarked, fun p hp => ?_⟩
    rcases List.mem_append.1 hp with hp | hp
    · exact h.packed p hp
    · obtain rfl := List.mem_singleton.1 hp
      dsimp only
      rw [PackWriter.map_entries]
      exact h.packing

/-- A chunk that is put into the pack waits there, and the others go on waiting. -/
theorem get_pending {index : ChunkIndex} {e : PackEntry} {m : Bool}
    (hm : m = false → index.get e.id = none) (x : ChunkId) :
    (if m then index.replacePending e else index.addPending e).get x =
      if x = e.id then some (location pendingPack e) else index.get x := by
  have hinsert : ∀ overlay : Dict ChunkId ChunkLocation,
      overlay = index.overlay.insert e.id (location pendingPack e) →
        ({ index with overlay } : ChunkIndex).get x =
          if x = e.id then some (location pendingPack e) else index.get x := by
    rintro _ rfl
    unfold ChunkIndex.get
    dsimp only
    rw [Dict.lookup_insert']
    split_ifs <;> rfl
  cases m with
  | true => exact hinsert _ rfl
  | false =>
    have hnone : index.overlay.lookup e.id = none := (Option.or_eq_none_iff.1 (hm rfl)).1
    rw [if_neg (by decide), ChunkIndex.addPending, hnone]
    exact hinsert _ rfl

theorem OneEach.storeChunk (h : b.OneEach) (st : ChunkState) {id : ChunkId}
    (chunk : Bytes) {m : Bool}
    (hnew : id ∉ b.packer.ids) (hm : m = false → b.index.get id = none) :
    (b.storeChunk st id chunk m).1.OneEach := by
  let e : PackEntry := ⟨id, b.packer.len, b.repo.keys.sealedLen chunk, chunk.length⟩
  let b₁ : Backup := { b with
    packer := (b.packer.add b.repo.keys id chunk).2
    index := if m then b.index.replacePending e else b.index.addPending e }
  have hb₁ : b₁.OneEach := by
    refine ⟨fun x hx => ?_, PackWriter.nodup_add h.packing hnew, h.unmarked, h.packed⟩
    have hget : b₁.index.get x = if x = id then some (location pendingPack e) else b.index.get x :=
      @get_pending b.index e m hm x
    rw [hget]
    split_ifs with hid
    · exact ⟨_, rfl, rfl⟩
    · have hmem : x ∈ b.packer.ids ++ [id] := PackWriter.ids_add ▸ hx
      rcases List.mem_append.1 hmem with hx | hx
      · exact h.waiting x hx
      · exact absurd (List.mem_singleton.1 hx) hid
  show OneEach (if b₁.packer.isFull b₁.repo.config.packTargetSize then b₁.flushPack else b₁)
  split_ifs
  · exact hb₁.flushPack
  · exact hb₁

theorem OneEach.addChunk (h : b.OneEach) (st : ChunkState) (chunk : Bytes) :
    (b.addChunk st chunk).1.OneEach := by
  unfold Backup.addChunk
  dsimp only
  -- a chunk of the pack being filled is found in the index, under a name that no mark has
  cases hget : b.index.get (b.repo.keys.chunkId chunk) with
  | none =>
    refine h.storeChunk _ chunk (fun hmem => ?_) fun _ => hget
    obtain ⟨loc, hloc, -⟩ := h.waiting _ hmem
    rw [hget] at hloc
    cases hloc
  | some loc =>
    dsimp only
    split_ifs with hmarked
    · refine h.storeChunk _ chunk (fun hmem => ?_) nofun
      obtain ⟨loc', hloc', hpending⟩ := h.waiting _ hmem
      rw [hget] at hloc'
      cases hloc'
      exact h.unmarked (hpending ▸ hmarked)
    · exact ⟨h.waiting, h.packing, h.unmarked, h.packed⟩

/-- One step of a backup. -/
theorem OneEach.does (hdoes : Does b b') (h : b.OneEach) : b'.OneEach := by
  cases hdoes with
  | note => exact ⟨h.waiting, h.packing, h.unmarked, h.packed⟩
  | chunk st chunk => exact h.addChunk st chunk
  | tree t r hwrite =>
    obtain ⟨id, b'⟩ := r
    obtain ⟨-, -, ⟨-, heq⟩ | ⟨b₁, hb₁, heq⟩⟩ := writeTree_cases hwrite
    · rwa [heq]
    · have hone : b₁.OneEach := by
        rw [hb₁]
        unfold putTreeReplica putTree
        split <;> split_ifs <;> exact ⟨h.waiting, h.packing, h.unmarked, h.packed⟩
      rcases heq with heq | heq
      · rwa [heq]
      · rw [heq]
        exact ⟨hone.waiting, hone.packing, hone.unmarked, hone.packed⟩

/-- **A backup does not put a chunk into a pack twice**, in whatever order it takes its steps. -/
theorem OneEach.advances (h : b.OneEach) (hadvances : Advances b b') : b'.OneEach :=
  hadvances.invariant (fun _ _ => OneEach.does) h

theorem oneEach_startBackup {repo : Repository} {chunker : Chunking.Chunker}
    {nonce : ℕ} {now : Time}
    {index : ChunkIndex} {start : ℤ} (hmarks : pendingPack ∉ repo.store.marks.keys) :
    (repo.startBackup chunker nonce now index start).OneEach :=
  ⟨nofun, List.nodup_nil, hmarks, nofun⟩

end OneEach

end Backup

/-! ### Prune -/

namespace Repacking

/-- No pack has a chunk twice, and the chunks of the pack being filled are noted. -/
structure OneEach (r : Repacking) : Prop where
  noted : ∀ id ∈ r.writer.ids, id ∈ r.copied
  packing : r.writer.ids.Nodup
  packed : ∀ p ∈ r.out, (p.1.entries.map PackEntry.id).Nodup

section OneEach

variable {keys : RepoKeys} {size : ℕ} {r : Repacking}

theorem finish_oneEach (hpacking : r.writer.ids.Nodup)
    (hpacked : ∀ p ∈ r.out, (p.1.entries.map PackEntry.id).Nodup) :
    (∀ id ∈ (r.finish keys).writer.ids, id ∈ r.writer.ids) ∧ (r.finish keys).writer.ids.Nodup ∧
      (∀ p ∈ (r.finish keys).out, (p.1.entries.map PackEntry.id).Nodup) ∧
        (r.finish keys).copied = r.copied := by
  unfold Repacking.finish
  split_ifs with hempty
  · exact ⟨fun _ h => h, hpacking, hpacked, rfl⟩
  · refine ⟨nofun, List.nodup_nil, fun p hp => ?_, rfl⟩
    rcases List.mem_append.1 hp with hp | hp
    · exact hpacked p hp
    · obtain rfl := List.mem_singleton.1 hp
      dsimp only
      rw [PackWriter.map_entries]
      exact hpacking

/-- The chunks of a pack, none of which is in the pack being filled. -/
theorem addAll_oneEach {plains : List (ChunkId × Bytes)} (hplains : (plains.map Prod.fst).Nodup)
    (hnew : ∀ id ∈ r.writer.ids, id ∉ plains.map Prod.fst) (hpacking : r.writer.ids.Nodup)
    (hpacked : ∀ p ∈ r.out, (p.1.entries.map PackEntry.id).Nodup) :
    (∀ id ∈ (addAll keys size plains r).writer.ids, id ∈ r.writer.ids ∨ id ∈ plains.map Prod.fst) ∧
      (addAll keys size plains r).writer.ids.Nodup ∧
        (∀ p ∈ (addAll keys size plains r).out, (p.1.entries.map PackEntry.id).Nodup) ∧
          (addAll keys size plains r).copied = r.copied := by
  induction plains generalizing r with
  | nil => exact ⟨fun _ h => .inl h, hpacking, hpacked, rfl⟩
  | cons p plains ih =>
    obtain ⟨id, plain⟩ := p
    rw [List.map_cons, List.nodup_cons] at hplains
    let r₁ : Repacking := { r with writer := (r.writer.add keys id plain).2 }
    have hfresh : id ∉ r.writer.ids := fun h => hnew id h List.mem_cons_self
    have hpacking₁ : r₁.writer.ids.Nodup := PackWriter.nodup_add hpacking hfresh
    have hids : ∀ x ∈ r₁.writer.ids, x ∈ r.writer.ids ∨ x = id := by
      intro x hx
      have hmem : x ∈ r.writer.ids ++ [id] := PackWriter.ids_add ▸ hx
      exact (List.mem_append.1 hmem).imp_right List.mem_singleton.1
    let r₂ := if r₁.writer.isFull size then r₁.finish keys else r₁
    have hr₂ : (∀ x ∈ r₂.writer.ids, x ∈ r₁.writer.ids) ∧ r₂.writer.ids.Nodup ∧
        (∀ p ∈ r₂.out, (p.1.entries.map PackEntry.id).Nodup) ∧ r₂.copied = r₁.copied := by
      show (∀ x ∈ (if r₁.writer.isFull size then r₁.finish keys else r₁).writer.ids, _) ∧ _
      unfold r₂
      split_ifs
      · exact finish_oneEach hpacking₁ hpacked
      · exact ⟨fun _ h => h, hpacking₁, hpacked, rfl⟩
    obtain ⟨hsub, hpacking₂, hpacked₂, hcopied₂⟩ := hr₂
    have hnew₂ : ∀ x ∈ r₂.writer.ids, x ∉ plains.map Prod.fst := by
      intro x hx hmem
      rcases hids x (hsub x hx) with h | rfl
      · exact hnew x h (List.mem_cons_of_mem _ hmem)
      · exact hplains.1 hmem
    obtain ⟨hsub₃, hpacking₃, hpacked₃, hcopied₃⟩ := ih hplains.2 hnew₂ hpacking₂ hpacked₂
    refine ⟨fun x hx => ?_, hpacking₃, hpacked₃, hcopied₃.trans hcopied₂⟩
    rcases hsub₃ x hx with h | h
    · rcases hids x (hsub x h) with h | rfl
      · exact .inl h
      · exact .inr List.mem_cons_self
    · exact .inr (List.mem_cons_of_mem _ h)

end OneEach

end Repacking

namespace TimedRepository

variable {repo : TimedRepository} {faults : PruneFaults} {plan : PrunePlan} {nonce : ℕ}

theorem map_decodeAll {id : ObjectId} {pack : Pack} {entries : List PackEntry}
    {plains : List (ChunkId × Bytes)} (h : repo.decodeAll id pack entries = .ok plains) :
    plains.map Prod.fst = entries.map PackEntry.id := by
  induction entries generalizing plains with
  | nil => cases h; rfl
  | cons e entries ih =>
    unfold decodeAll at h
    split at h
    · cases h
    · obtain ⟨plain, -, h⟩ := Checked.bind_eq_ok.1 h
      obtain ⟨rest, hrest, h⟩ := Checked.bind_eq_ok.1 h
      cases h
      rw [List.map_cons, List.map_cons, ih hrest]

/-- One pack is packed anew. -/
theorem repackOne_oneEach {kept : Finset ObjectId} {r : Repacking} {id : ObjectId}
    (hlisted : ∀ p, plan.indexed.lookup id = some p → (p.entries.map PackEntry.id).Nodup)
    (h : r.OneEach) : (repo.repackOne faults plan kept r id).OneEach := by
  unfold repackOne
  split
  · exact h
  · rename_i p hp
    dsimp only
    split_ifs
    · exact h
    · split
      · exact ⟨h.noted, h.packing, h.packed⟩
      · rename_i plains hplains
        obtain ⟨pack, -, hdecode⟩ := Checked.bind_eq_ok.1 hplains
        have hids := map_decodeAll hdecode
        have hnodup : ((plan.movedEntries kept r.copied p).map PackEntry.id).Nodup :=
          (hlisted p hp).sublist (List.filter_sublist.map _)
        -- what has moved is not moved again
        have hnew : ∀ x ∈ r.writer.ids, x ∉ plains.map Prod.fst := by
          intro x hx hmem
          rw [hids] at hmem
          obtain ⟨e, he, rfl⟩ := List.mem_map.1 hmem
          have hfilter := (List.mem_filter.1 he).2
          simp only [Bool.and_eq_true, decide_eq_true_eq] at hfilter
          exact hfilter.2 (h.noted _ hx)
        obtain ⟨hsub, hpacking, hpacked, hcopied⟩ :=
          @Repacking.addAll_oneEach repo.keys plan.packTargetSize r plains (hids ▸ hnodup) hnew
            h.packing h.packed
        refine ⟨fun x hx => ?_, hpacking, hpacked⟩
        rcases hsub x hx with hx | hx
        · exact List.mem_append_left _ (h.noted x hx)
        · exact List.mem_append_right _ (hids ▸ hx)

/-- **A prune does not put a chunk into a pack twice**, where no pack of the index has one twice. -/
theorem repackPacks_oneEach
    (hlisted : ∀ id p, plan.indexed.lookup id = some p → (p.entries.map PackEntry.id).Nodup) :
    ∀ p ∈ (repo.repackPacks faults plan nonce).out, (p.1.entries.map PackEntry.id).Nodup := by
  have hfold : ∀ (kept : Finset ObjectId) (ids : List ObjectId) (r : Repacking), r.OneEach →
      (ids.foldl (repo.repackOne faults plan kept) r).OneEach := by
    intro kept ids
    induction ids with
    | nil => exact fun _ h => h
    | cons id ids ih => exact fun r h => ih _ (repackOne_oneEach (hlisted id) h)
  have hstart : ({ nonce } : Repacking).OneEach := ⟨nofun, List.nodup_nil, nofun⟩
  unfold repackPacks
  dsimp only
  split_ifs
  · exact nofun
  · obtain ⟨-, hpacking, hpacked⟩ :=
      hfold (plan.neededPacks \ plan.repack.toFinset) plan.repack _ hstart
    exact (Repacking.finish_oneEach hpacking hpacked).2.2.1

end TimedRepository

/-! ### The writer and its bytes -/

/-- The writer of a backup or a prune, and one that has the bytes as well. -/
structure PackWriter.Mirrors (w : PackWriter) (bytes : PackFile.PackWriter) : Prop where
  len : w.len = bytes.buf.length
  entries : w.chunks.map Prod.fst = bytes.entries

section Mirrors

variable {lib : PackLib} {keys : RepoKeys} {w : PackWriter} {bytes bytes' : PackFile.PackWriter}

/-- A chunk is as long as its sealed bytes. -/
def SealsAs (lib : PackLib) (keys : RepoKeys) : Prop :=
  ∀ nonce id plain payload sealed, PackFile.compressChunk lib plain = some payload →
    lib.sealChunk nonce id payload = some sealed → keys.sealedLen plain = sealed.length

theorem PackWriter.mirrors_new : PackWriter.new.Mirrors .new := ⟨rfl, rfl⟩

theorem PackWriter.Mirrors.isFull (h : w.Mirrors bytes) (targetSize : ℕ) :
    w.isFull targetSize = bytes.isFull targetSize := by
  rw [PackWriter.isFull, PackFile.PackWriter.isFull, h.len]

/-- Chunks that the one is given get the entries that the other gives them. -/
theorem PackWriter.Mirrors.addAll (hseals : SealsAs lib keys) {cs : List PackFile.Chunk}
    {es : List PackEntry} (h : w.Mirrors bytes)
    (hadd : PackFile.PackWriter.addAll lib cs bytes = some (es, bytes')) :
    (cs.foldl (fun w c => (w.add keys c.id c.plain).2) w).Mirrors bytes' := by
  induction cs generalizing w bytes es with
  | nil => cases hadd; exact h
  | cons c cs ih =>
    obtain ⟨⟨e, bytes₁⟩, hone, hadd⟩ := Option.bind_eq_some_iff.1 hadd
    obtain ⟨⟨es', bytes₂⟩, hrest, hadd⟩ := Option.bind_eq_some_iff.1 hadd
    cases hadd
    obtain ⟨payload, sealed, hpayload, hsealed, -, rfl, rfl⟩ := PackFile.PackWriter.add_eq_some hone
    have hlen := hseals _ _ _ _ _ hpayload hsealed
    refine ih ⟨?_, ?_⟩ hrest
    · simp only [PackWriter.add, List.length_append, h.len, hlen]
    · simp only [PackWriter.add, List.map_append, h.entries, h.len, hlen,
        List.map_cons, List.map_nil]

end Mirrors

/-! ### Whoever wrote the index -/

/-- The packs that an index lists: those of a backup, those that were read when the index was
rebuilt, and those that a prune wrote when the index listed such packs. -/
inductive Listed (lib : PackLib) : IndexPack → Prop
  | backup {repo : Repository} {chunker : Chunking.Chunker} {nonce : ℕ} {now : Time}
    {index : ChunkIndex} {start : ℤ} {b : Backup} {p : IndexPack}
    (hmarks : pendingPack ∉ repo.store.marks.keys)
    (h : Backup.Advances (repo.startBackup chunker nonce now index start) b)
    (hp : p ∈ b.flushPack.newPacks) : Listed lib p
  | rebuilt {getRange : ℕ → ℕ → Except CoreError Bytes} {id : ObjectId} {size : ℕ} {p : IndexPack}
    (hsize : size < 2 ^ 64) (h : readPackIndex lib getRange id size = some (.ok p)) : Listed lib p
  | repacked {repo : TimedRepository} {faults : PruneFaults} {plan : PrunePlan} {nonce : ℕ}
    {p : IndexPack × Pack} (hlisted : ∀ id p, plan.indexed.lookup id = some p → Listed lib p)
    (hp : p ∈ (repo.repackPacks faults plan nonce).out) : Listed lib p.1

section Listed

variable {lib : PackLib} {p : IndexPack}

theorem nodup_of_readPackIndex {getRange : ℕ → ℕ → Except CoreError Bytes}
    {id : ObjectId} {size : ℕ}
    (hsize : size < 2 ^ 64) (h : readPackIndex lib getRange id size = some (.ok p)) :
    (p.entries.map PackEntry.id).Nodup := by
  obtain ⟨dataEnd, trailer, t, hend, ht, rfl⟩ := PackFile.readPackIndex_ok h
  exact ((PackFile.validateTrailer_ok_iff (hend.trans_lt hsize)).1
    (PackFile.decodeTrailer_ok ht)).nodup

theorem Listed.nodup (h : Listed lib p) : (p.entries.map PackEntry.id).Nodup := by
  induction h with
  | backup hmarks hadvances hp =>
    exact (Backup.oneEach_startBackup hmarks |>.advances hadvances).flushPack.packed _ hp
  | rebuilt hsize h => exact nodup_of_readPackIndex hsize h
  | repacked _ hp ih => exact TimedRepository.repackPacks_oneEach ih _ hp

end Listed

/-- **The writer and the reader of packs agree.** A pack that is finished is read with the entries
in the order in which the chunks were added, and each chunk is decoded from its range; a trailer is
valid if and only if its entries tile the region between header and trailer, and no addition goes
over on the way; and neither a backup nor a prune hands the writer a chunk twice for one pack. -/
theorem writer_and_reader_agree (lib : PackLib) (hlib : lib.Lawful) (maxChunk : ℕ)
    (hmax : maxChunk ≤ maxChunkerMax) :
    (∀ (key : ObjectKey) (nonce : ℕ) (cs : List PackFile.Chunk) (es : List PackEntry)
        (w w' : PackFile.PackWriter) (p : PackFile.FinishedPack),
      (cs.map PackFile.Chunk.id).Nodup → (∀ c ∈ cs, c.plain.length ≤ maxChunk) →
        (∀ c ∈ cs, c.id < 256 ^ 32) → PackFile.PackWriter.new.addAll lib cs = some (es, w) →
          w.finish lib nonce = some (some p, w') →
            w' = .new ∧ p.entries = es ∧ p.id = lib.objectId p.bytes ∧
              readTrailer lib key p.bytes = some (.ok ⟨formatVersion, es⟩) ∧
                List.Forall₂ (Stores lib maxChunk p.bytes) cs es) ∧
    (∀ (key : ObjectKey) (dataEnd : ℕ) (t : PackFile.PackTrailer), dataEnd < 2 ^ 64 →
      (validateTrailer key dataEnd t = some (.ok ()) ↔ TrailerOk dataEnd t.entries) ∧
        (headerLen ≤ dataEnd → dataEnd ≤ isizeMax → validateTrailer key dataEnd t ≠ none)) ∧
    (∀ (repo : Repository) (chunker : Chunking.Chunker) (nonce : ℕ) (now : Time)
      (index : ChunkIndex)
        (start : ℤ), pendingPack ∉ repo.store.marks.keys →
      (∀ exclude parentRoots plans roots b,
        (repo.startBackup chunker nonce now index start).prepareRoots exclude parentRoots plans =
          .ok (roots, b) → Backup.Advances (repo.startBackup chunker nonce now index start) b) ∧
      ∀ b, Backup.Advances (repo.startBackup chunker nonce now index start) b →
        b.packer.ids.Nodup ∧ ∀ p ∈ b.flushPack.newPacks, (p.entries.map PackEntry.id).Nodup) ∧
    ∀ (repo : TimedRepository) (faults : PruneFaults) (plan : PrunePlan) (nonce : ℕ),
      (∀ id p, plan.indexed.lookup id = some p → Listed lib p) →
        ∀ p ∈ (repo.repackPacks faults plan nonce).out, (p.1.entries.map PackEntry.id).Nodup := by
  refine ⟨fun key nonce cs es w w' p hnodup hlen hid hadd hfinish =>
    PackFile.readTrailer_finish hlib hmax hnodup hlen hid hadd hfinish, fun key dataEnd t hend =>
    ⟨PackFile.validateTrailer_ok_iff hend, fun hheader hsize => ?_⟩,
    fun repo chunker nonce now index start hmarks =>
    ⟨fun _ _ _ _ _ h => Backup.prepareRoots_advances h, fun b hb => ?_⟩,
    fun repo faults plan nonce hlisted =>
    TimedRepository.repackPacks_oneEach fun id p hp => (hlisted id p hp).nodup⟩
  · refine PackFile.validateTrailer_ne_none ?_ hheader
    have hentry : PackFile.maxEntryLen < 2 ^ 63 := by decide
    unfold isizeMax at hsize
    omega
  · have hone := (Backup.oneEach_startBackup hmarks).advances hb
    exact ⟨hone.packing, hone.flushPack.packed⟩

/-- Two chunks under the names of their contents. -/
def twoChunks : List PackFile.Chunk := [⟨0, 7, [7]⟩, ⟨1, 2313, [9, 9]⟩]

set_option maxRecDepth 4000 in
theorem writer_and_reader_agree_twoChunks :
    ∃ es w p, PackFile.PackWriter.new.addAll PackFile.plainLib twoChunks = some (es, w) ∧
      w.finish PackFile.plainLib 2 = some (some p, .new) ∧
        readTrailer PackFile.plainLib (.pack p.id) p.bytes = some (.ok ⟨formatVersion, es⟩) ∧
          List.Forall₂ (Stores PackFile.plainLib maxChunkerMax p.bytes) twoChunks es := by
  obtain ⟨-, -, -, hread, hstores⟩ :=
    (writer_and_reader_agree PackFile.plainLib PackFile.lawful_plainLib maxChunkerMax le_rfl).1
      (.pack 0) 2 twoChunks _ _ _ _ (by decide) (by decide) (by decide) rfl rfl
  exact ⟨_, _, _, rfl, rfl, hread, hstores⟩

end Kist
