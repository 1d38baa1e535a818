import Kist.Repo
import Kist.FsMeta
import Kist.Chunker.Failing

/-!
# The state of a backup

`kist-core::backup`: a backup reads a source, cuts files into chunks, puts the chunks that the index
does not know into packs, and writes one tree for each directory. This file has the state that the
walk carries along, the writing of packs and the writing of trees.

A source may change while it is read. Its answers are therefore functions of a clock, which
advances with each question the backup asks.
-/

namespace Kist

/-- `SourceItemKind`. -/
inductive SourceItemKind
  | dir
  | file (size : ℕ) (mtimeNs : ℤ) (etag vern : Option Bytes)
  | symlink (target : Bytes)
  deriving DecidableEq, Repr

/-- `SourceItem`. -/
structure SourceItem where
  name : Bytes
  kind : SourceItemKind
  deriving DecidableEq, Repr

/-- What reading a file yields: an error when it is opened, all of its bytes, or an error after the
bytes `delivered`. -/
inductive FileRead
  | unreadable (reason : String)
  | bytes (content : Bytes)
  | broken (delivered : Bytes) (reason : String)

/-- `Source`: the answers of a source at each moment. `lstat` and `xattrs` answer only for a local
source. -/
structure Source where
  metaKind : MetaKind
  list : ℕ → RelPath → Except String (List (Except String SourceItem))
  read : ℕ → RelPath → FileRead
  probe : ℕ → RelPath → ℕ → Except String (Option Bytes)
  lstat : ℕ → RelPath → Option PosixMeta
  xattrs : ℕ → RelPath → Option (List (Bytes × Bytes))

/-- `BackupReport`. -/
structure BackupReport where
  chunksNew : ℕ := 0
  chunksRead : ℕ := 0
  packsNew : ℕ := 0
  packsRevived : ℕ := 0
  bytesStored : ℕ := 0
  errors : ℕ := 0
  filesReused : ℕ := 0
  excluded : ℕ := 0
  deriving DecidableEq, Repr

/-- `FileContent`: what a tree records of the content of a file. -/
structure FileContent where
  size : ℕ
  chunks : List ChunkId
  content : ContentType
  deriving DecidableEq, Repr

/-- `FileFacts`: what the walk knows of a file before it reads it. -/
structure FileFacts where
  size : ℕ
  posix : Option PosixMeta
  etag : Option Bytes
  deriving DecidableEq, Repr

/-- The device and the inode of a file. -/
abbrev InodeKey := ℕ × ℕ

/-- `HEADER_LEN` of a pack. -/
def packHeaderLen : ℕ := 8

/-- `PackWriter`: the chunks of the pack being filled, and the length of its buffer. -/
structure PackWriter where
  len : ℕ
  chunks : List (PackEntry × Sealed)

/-- `PackWriter::new`. -/
def PackWriter.new : PackWriter := ⟨packHeaderLen, []⟩

/-- `PackWriter::add`: seal a chunk behind those already in the buffer. -/
def PackWriter.add (keys : RepoKeys) (w : PackWriter) (id : ChunkId) (plain : Bytes) :
    PackEntry × PackWriter :=
  let entry : PackEntry := ⟨id, w.len, keys.sealedLen plain, plain.length⟩
  (entry, ⟨w.len + keys.sealedLen plain, w.chunks ++ [(entry, .chunk id plain)]⟩)

/-- `PackWriter::is_full`. -/
def PackWriter.isFull (w : PackWriter) (targetSize : ℕ) : Bool := w.len ≥ targetSize

/-- `Backup`. -/
structure Backup where
  repo : Repository
  chunker : Chunking.Chunker
  packer : PackWriter
  index : ChunkIndex
  seenTrees : List TreeId
  newPacks : List IndexPack
  stats : SnapshotStats
  report : BackupReport
  parentStartNs : ℤ
  marked : List ObjectId
  marksAtStart : Dict ObjectId Time
  referenced : Dict ObjectId (List ChunkId)
  hardlinks : Dict InodeKey FileContent
  countedHardlinks : List InodeKey
  /-- The questions asked of the source so far. -/
  tick : ℕ
  /-- The packs finished so far, which stands for the nonces they were sealed with. -/
  nonce : ℕ
  /-- The time of the backend, which a put records. -/
  now : Time

namespace Backup

variable (b : Backup)

/-- `Backup::skip`: note an item that could not be backed up. -/
def skip : Backup := { b with report.errors := b.report.errors + 1 }

/-- One more question was asked of the source. -/
def ask : Backup := { b with tick := b.tick + 1 }

/-- `record_referenced`: the packs of the chunks that were taken over; a pack that is not written
yet is left out. -/
def recordReferenced (chunks : List (ChunkId × ObjectId)) : Backup :=
  { b with
    referenced := chunks.foldl (fun referenced c =>
      if c.2 = pendingPack then referenced
      else referenced.insert c.2 ((referenced.lookup c.2).getD [] ++ [c.1])) b.referenced }

/-! ### Packs -/

/-- `flush_pack` and the finished pack of `chunk_reader`: seal the pack, give its name to the chunks
that wait for it, and upload it. -/
def flushPack : Backup :=
  if b.packer.chunks = [] then b
  else
    let entries := b.packer.chunks.map Prod.fst
    let id := b.repo.keys.packId b.nonce b.packer.chunks
    let size := b.repo.keys.packLen entries
    { b with
      packer := .new
      nonce := b.nonce + 1
      index := b.index.resolvePending id size entries
      newPacks := b.newPacks ++ [⟨id, size, entries⟩]
      report.packsNew := b.report.packsNew + 1
      repo.store.packs := b.repo.store.packs.insert id ⟨size, b.packer.chunks⟩ }

/-- `ChunkState`: the counts of a file being cut. -/
structure ChunkState where
  ids : List ChunkId := []
  bytesTotal : ℕ := 0
  bytesNew : ℕ := 0
  chunksNew : ℕ := 0
  reusedCount : ℕ := 0
  revivedCount : ℕ := 0

/-- Put a chunk that the index does not have, or has in a marked pack, into the pack being filled.
-/
def storeChunk (st : ChunkState) (id : ChunkId) (chunk : Bytes) (inMarkedPack : Bool) :
    Backup × ChunkState :=
  let (entry, packer) := b.packer.add b.repo.keys id chunk
  let b := { b with
    packer
    index := if inMarkedPack then b.index.replacePending entry else b.index.addPending entry }
  let st := { st with
    revivedCount := if inMarkedPack then st.revivedCount + 1 else st.revivedCount
    bytesNew := st.bytesNew + chunk.length
    chunksNew := st.chunksNew + 1 }
  (if packer.isFull b.repo.config.packTargetSize then b.flushPack else b, st)

/-- One chunk of `chunk_reader`: take over a chunk that lies in a pack without a mark. -/
def addChunk (st : ChunkState) (chunk : Bytes) : Backup × ChunkState :=
  let id := b.repo.keys.chunkId chunk
  let st := { st with bytesTotal := st.bytesTotal + chunk.length, ids := st.ids ++ [id] }
  match b.index.get id with
  | some loc =>
    if loc.pack ∈ b.marked then b.storeChunk st id chunk true
    else (b.recordReferenced [(id, loc.pack)], { st with reusedCount := st.reusedCount + 1 })
  | none => b.storeChunk st id chunk false

/-- The chunks of a file one after the other. -/
def addChunks : Backup → ChunkState → List Bytes → Backup × ChunkState
  | b, st, [] => (b, st)
  | b, st, chunk :: chunks =>
    let (b, st) := b.addChunk st chunk
    addChunks b st chunks

/-- `FileResult`. -/
structure FileResult where
  chunks : List ChunkId
  bytesTotal : ℕ
  bytesNew : ℕ
  chunksNew : ℕ

/-- `chunk_reader` on a reader that delivers all of its bytes. -/
def chunkBytes (content : Bytes) : FileResult × Backup :=
  let (b, st) := b.addChunks {} (b.chunker.cut content)
  (⟨st.ids, st.bytesTotal, st.bytesNew, st.chunksNew⟩, { b with
    report.chunksRead := b.report.chunksRead + st.reusedCount
    report.packsRevived := b.report.packsRevived + st.revivedCount })

/-- `chunk_reader`: cut, deduplicate and pack what a reader delivers. A reader that breaks off is
noted and yields nothing; the chunks that came before the error stay where they are. -/
def chunkReader : FileRead → Option FileResult × Backup
  | .unreadable _ => (none, b.skip)
  | .broken delivered _ =>
    (none, (b.addChunks {} (b.chunker.cutFailing delivered)).1.skip)
  | .bytes content =>
    let (result, b) := b.chunkBytes content
    (some result, b)

/-! ### Trees -/

/-- `touch_tree`: overwrite the touch of a tree, which renews its time. -/
def touchTree (id : TreeId) : Backup :=
  { b with repo.store.touches := b.repo.store.touches.insert id b.now }

/-- The primary object of a tree: put unless one is there that reads back. -/
def putTree (id : TreeId) (bytes : Sealed) : Backup :=
  match b.repo.readTreeOnce (.tree id) id with
  | .ok _ => b
  | .error _ => { b with repo.store.trees := b.repo.store.trees.insert id bytes }

/-- The replica of a tree: put unless one is there. -/
def putTreeReplica (id : TreeId) (bytes : Sealed) : Backup :=
  if b.repo.config.replicas > 0 ∧ (b.repo.store.treeReplicas.lookup id).isNone then
    { b with repo.store.treeReplicas := b.repo.store.treeReplicas.insert id bytes }
  else b

/-- `write_tree`: put a tree unless it is there, write its replica, and touch a tree that was there
before or that carries a mark from before this run. An existing tree that does not read back is
overwritten. -/
def writeTree (tree : Tree) : Except CoreError (TreeId × Backup) := do
  let (id, bytes) ← b.repo.sealTree tree
  if id ∈ b.seenTrees then return (id, b)
  let b := { b with seenTrees := id :: b.seenTrees }
  let primary := (b.repo.store.trees.lookup id).isNone
  let b := (b.putTree id bytes).putTreeReplica id bytes
  if ¬primary ∨ (b.marksAtStart.lookup id).isSome then return (id, b.touchTree id)
  return (id, b)

/-! ### What a chunk leaves alone -/

/-- What a backup fixes before its walk. -/
structure SameSetup (b b' : Backup) : Prop where
  keys : b'.repo.keys = b.repo.keys
  config : b'.repo.config = b.repo.config
  chunker : b'.chunker = b.chunker
  parentStartNs : b'.parentStartNs = b.parentStartNs
  marked : b'.marked = b.marked
  marksAtStart : b'.marksAtStart = b.marksAtStart

/-- What stays as it is while a file is visited. -/
structure SameVisit (b b' : Backup) : Prop extends SameSetup b b' where
  trees : b'.repo.store.trees = b.repo.store.trees
  treeReplicas : b'.repo.store.treeReplicas = b.repo.store.treeReplicas
  seenTrees : b'.seenTrees = b.seenTrees

/-- What stays as it is while the chunks of a file are stored. -/
structure SameRun (b b' : Backup) : Prop extends SameVisit b b' where
  hardlinks : b'.hardlinks = b.hardlinks
  tick : b'.tick = b.tick

section Same

variable {b b' b'' : Backup}

@[refl] theorem SameSetup.refl (b : Backup) : SameSetup b b := ⟨rfl, rfl, rfl, rfl, rfl, rfl⟩

theorem SameSetup.trans (h : SameSetup b b') (h' : SameSetup b' b'') : SameSetup b b'' where
  keys := h'.keys.trans h.keys
  config := h'.config.trans h.config
  chunker := h'.chunker.trans h.chunker
  parentStartNs := h'.parentStartNs.trans h.parentStartNs
  marked := h'.marked.trans h.marked
  marksAtStart := h'.marksAtStart.trans h.marksAtStart

@[refl] theorem SameVisit.refl (b : Backup) : SameVisit b b := ⟨.refl b, rfl, rfl, rfl⟩

theorem SameVisit.trans (h : SameVisit b b') (h' : SameVisit b' b'') : SameVisit b b'' where
  toSameSetup := h.toSameSetup.trans h'.toSameSetup
  trees := h'.trees.trans h.trees
  treeReplicas := h'.treeReplicas.trans h.treeReplicas
  seenTrees := h'.seenTrees.trans h.seenTrees

@[refl] theorem SameRun.refl (b : Backup) : SameRun b b := ⟨.refl b, rfl, rfl⟩

theorem SameRun.trans (h : SameRun b b') (h' : SameRun b' b'') : SameRun b b'' where
  toSameVisit := h.toSameVisit.trans h'.toSameVisit
  hardlinks := h'.hardlinks.trans h.hardlinks
  tick := h'.tick.trans h.tick

/-- A backup that differs in the counts, the packs, the index and the references alone. -/
theorem sameRun_of_eq {packs : Dict ObjectId Pack} {packer : PackWriter} {index : ChunkIndex}
    {newPacks : List IndexPack} {stats : SnapshotStats} {report : BackupReport} {nonce : ℕ}
    {referenced : Dict ObjectId (List ChunkId)} {counted : List InodeKey} :
    SameRun b { b with
      repo.store.packs := packs, packer, index, newPacks, stats, report, nonce, referenced,
      countedHardlinks := counted } :=
  ⟨⟨⟨rfl, rfl, rfl, rfl, rfl, rfl⟩, rfl, rfl, rfl⟩, rfl, rfl⟩

end Same

theorem sameRun_flushPack : SameRun b b.flushPack := by
  unfold flushPack
  split
  · rfl
  · exact sameRun_of_eq

theorem sameRun_storeChunk (st : ChunkState) (id : ChunkId) (chunk : Bytes) (m : Bool) :
    SameRun b (b.storeChunk st id chunk m).1 := by
  unfold storeChunk
  dsimp only
  split
  · exact SameRun.trans sameRun_of_eq (sameRun_flushPack _)
  · exact sameRun_of_eq

theorem sameRun_addChunk (st : ChunkState) (chunk : Bytes) :
    SameRun b (b.addChunk st chunk).1 := by
  unfold addChunk
  dsimp only
  split
  · split
    · exact sameRun_storeChunk b _ _ _ _
    · exact sameRun_of_eq
  · exact sameRun_storeChunk b _ _ _ _

/-- One chunk adds its identifier and its length to the counts. -/
theorem addChunk_counts (st : ChunkState) (chunk : Bytes) :
    (b.addChunk st chunk).2.ids = st.ids ++ [b.repo.keys.chunkId chunk] ∧
      (b.addChunk st chunk).2.bytesTotal = st.bytesTotal + chunk.length := by
  unfold addChunk
  dsimp only
  split
  · split <;> exact ⟨rfl, rfl⟩
  · exact ⟨rfl, rfl⟩

/-- The chunks of a file add their identifiers in order and their lengths in sum. -/
theorem addChunks_spec : ∀ (chunks : List Bytes) (b : Backup) (st : ChunkState),
    SameRun b (b.addChunks st chunks).1 ∧
      (b.addChunks st chunks).2.ids = st.ids ++ chunks.map b.repo.keys.chunkId ∧
      (b.addChunks st chunks).2.bytesTotal = st.bytesTotal + chunks.flatten.length
  | [], b, st => ⟨.refl b, by simp [addChunks], by simp [addChunks]⟩
  | chunk :: chunks, b, st => by
    obtain ⟨hs, hi, ht⟩ := addChunks_spec chunks (b.addChunk st chunk).1 (b.addChunk st chunk).2
    obtain ⟨hi', ht'⟩ := b.addChunk_counts st chunk
    have hsame := b.sameRun_addChunk st chunk
    rw [hi', hsame.keys] at hi
    rw [ht'] at ht
    refine ⟨hsame.trans hs, ?_, ?_⟩
    · simpa [addChunks] using hi
    · simpa [addChunks, Nat.add_assoc] using ht

/-- Cutting an input yields the identifiers of its chunks and its length. -/
theorem chunkBytes_spec (hp : b.chunker.params.Valid) (content : Bytes) :
    SameRun b (b.chunkBytes content).2 ∧
      (b.chunkBytes content).1.chunks = (b.chunker.cut content).map b.repo.keys.chunkId ∧
      (b.chunkBytes content).1.bytesTotal = content.length := by
  obtain ⟨hs, hi, ht⟩ := addChunks_spec (b.chunker.cut content) b {}
  refine ⟨hs.trans sameRun_of_eq, by simpa [chunkBytes] using hi, ?_⟩
  rw [Chunking.flatten_cut hp] at ht
  simpa [chunkBytes] using ht

end Backup
end Kist
