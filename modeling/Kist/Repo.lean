import Kist.Storage

/-!
# Reading a repository

The functions of `kist-core::repo` and `kist-core::pack` that read an object: each opens the sealed
value under the name it was asked for, compares the hash of what comes out, and checks the
structure. A tree that cannot be read is looked for in its replica.
-/

namespace Kist

/-- `MAX_TREE_DEPTH`. -/
def maxTreeDepth : ℕ := 256

/-- The sealed content of an object that has one. -/
def Storage.getSealed (s : Storage) : ObjectKey → Option Sealed
  | .index id => s.indexes.lookup id
  | .tree id => s.trees.lookup id
  | .treeReplica id => s.treeReplicas.lookup id
  | .snapshot key => s.snapshots.lookup key
  | .snapshotReplica key => s.snapshotReplicas.lookup key
  | _ => none

namespace Repository

variable (repo : Repository)

/-- `read_index_blob`. -/
def readIndexBlob (id : ObjectId) : Except CoreError IndexBlob :=
  match repo.store.getSealed (.index id) with
  | none => .error (.notFound (.index id))
  | some bytes =>
    if repo.keys.objectId bytes ≠ id then
      .error (.corrupt (.index id) "content hash does not match its name")
    else match bytes.openIndexBlob with
      | none => .error (.corrupt (.index id) "decryption failed")
      | some blob =>
        if blob.version ≠ formatVersion then
          .error (.corrupt (.index id) s!"index blob declares version {blob.version}")
        else .ok blob

/-- `read_tree_once`. -/
def readTreeOnce (key : ObjectKey) (id : TreeId) : Except CoreError Tree :=
  match repo.store.getSealed key with
  | none => .error (.notFound key)
  | some bytes =>
    match bytes.openTree id with
    | none => .error (.corrupt key "decryption failed")
    | some plain =>
      if repo.keys.treeId plain ≠ id then
        .error (.corrupt key "content hash does not match its name")
      else match plain.validate with
        | .error _ => .error (.corrupt key "invalid tree")
        | .ok () => .ok plain

/-- `read_tree`: the tree, or its replica where the tree is missing or corrupt. -/
def readTree (id : TreeId) : Except CoreError Tree :=
  match repo.readTreeOnce (.tree id) id with
  | .ok t => .ok t
  | .error (.notFound key) =>
    match repo.readTreeOnce (.treeReplica id) id with
    | .ok t => .ok t
    | .error _ => .error (.notFound key)
  | .error (.corrupt key reason) =>
    match repo.readTreeOnce (.treeReplica id) id with
    | .ok t => .ok t
    | .error _ => .error (.corrupt key reason)
  | .error e => .error e

/-- The loop of `read_tree_chain`. `n` bounds the trees still to be read: each round reads another
stored one. -/
def readChain : ℕ → List TreeId → TreeId → Except CoreError (List Entry)
  | 0, _, id => .error (.corrupt (.tree id) "tree chain loops")
  | n + 1, seen, id =>
    if id ∈ seen then .error (.corrupt (.tree id) "tree chain loops")
    else do
      let tree ← repo.readTree id
      match tree.prev with
      | none => return tree.entries
      | some prev =>
        let before ← readChain n (id :: seen) prev
        return before ++ tree.entries

/-- `read_tree_chain`: the entries of a directory, given its last tree. -/
def readTreeChain (last : TreeId) : Except CoreError (List Entry) :=
  repo.readChain (repo.store.trees.entries.length + repo.store.treeReplicas.entries.length + 1) []
    last

/-- `decode_chunk`: what opens under the chunk's name, of the recorded length and hash. The
payload is the plaintext; decompression stops beyond the largest chunk. -/
def decodeChunk (id : ChunkId) (bytes : Sealed) (rawLen : ℕ) (key : ObjectKey) :
    Except CoreError Bytes :=
  match bytes.openChunk id with
  | none => .error (.corrupt key "decryption failed")
  | some plain =>
    if plain.length > repo.config.chunker.max then
      .error (.corrupt key "chunk decompresses over the limit")
    else if plain.length ≠ rawLen then
      .error (.corrupt key s!"length {plain.length} does not match index ({rawLen})")
    else if repo.keys.chunkId plain ≠ id then
      .error (.corrupt key "content hash mismatch")
    else .ok plain

/-- `read_chunk`, at the place the index gives for it. -/
def readChunk (id : ChunkId) (index : ChunkIndex) : Except CoreError Bytes :=
  match index.get id with
  | none => .error (.chunkMissing id)
  | some loc =>
    match repo.store.packs.lookup loc.pack with
    | none => .error (.notFound (.pack loc.pack))
    | some pack =>
      match pack.getRange loc.offset loc.length with
      | none => .error (.corrupt (.pack loc.pack) "no chunk in this range")
      | some bytes => repo.decodeChunk id bytes loc.rawLen (.pack loc.pack)

/-- The chunks of a list one after the other, concatenated. -/
def readChunks (index : ChunkIndex) : List ChunkId → Except CoreError Bytes
  | [] => .ok []
  | id :: ids => do
    let head ← repo.readChunk id index
    let tail ← readChunks index ids
    return head ++ tail

/-- `chunk_ids_of`: the decoded chunk list, of the version this build reads. -/
def chunkIdsOf (list : Bytes) : Except CoreError (List ChunkId) :=
  match repo.keys.decodeList list with
  | none => .error (.corrupt (.other "<chunk list>") "invalid chunk list")
  | some l =>
    if l.version ≠ formatVersion then
      .error (.corrupt (.other "<chunk list>") s!"chunk list of version {l.version}")
    else .ok l.chunks

/-- `resolve_chunks`: the list itself, or the list that the chunks of an indirect entry spell. -/
def resolveChunks (chunks : List ChunkId) (content : ContentType) (index : ChunkIndex) :
    Except CoreError (List ChunkId) :=
  match content with
  | .direct => .ok chunks
  | .indirect => do
    let bytes ← repo.readChunks index chunks
    repo.chunkIdsOf bytes

/-- `seal_tree`: the name and the sealed bytes of a valid tree. -/
def sealTree (tree : Tree) : Except CoreError (TreeId × Sealed) :=
  match tree.validate with
  | .error e => .error (.format e)
  | .ok () => .ok (repo.keys.treeId tree, .tree (repo.keys.treeId tree) tree)

/-! ### Index blobs, marks and snapshots -/

/-- `index_load_error`: what a client is told when an index blob cannot be used. -/
def indexLoadError : CoreError → CoreError
  | .notFound key => .notFound key
  | _ => .corrupt (.other "index") "run `kist rebuild-index`"

/-- The loop of `load_index_blobs`, which stops at the first blob that cannot be read. -/
def readIndexBlobs : List ObjectId → Except CoreError (List (ObjectId × IndexBlob))
  | [] => .ok []
  | id :: ids =>
    match repo.readIndexBlob id with
    | .error e => .error (indexLoadError e)
    | .ok blob => do
      let rest ← readIndexBlobs ids
      return (id, blob) :: rest

/-- `load_index_blobs`. -/
def loadIndexBlobs : Except CoreError (List (ObjectId × IndexBlob)) :=
  repo.readIndexBlobs repo.store.indexes.keys

/-- `load_index_for_backup`. -/
def loadIndexForBackup (marked : List ObjectId) : Except CoreError ChunkIndex := do
  let all ← repo.loadIndexBlobs
  return loadIndexRanked (fun id => id ∈ marked) all

/-- `load_index` without a cache. -/
def loadIndexUncached : Except CoreError ChunkIndex := do
  let all ← repo.loadIndexBlobs
  return loadIndex all

/-- `write_index`. `nonce` stands for the nonce the blob is sealed with. -/
def writeIndex (nonce : ℕ) (blob : IndexBlob) : Repository :=
  let bytes := Sealed.indexBlob nonce blob
  { repo with store.indexes := repo.store.indexes.insert (repo.keys.objectId bytes) bytes }

/-- `read_snapshot`: the snapshot, or its replica where the snapshot is missing. -/
def readSnapshot (key : SnapshotKey) : Except CoreError Snapshot :=
  match (repo.store.snapshots.lookup key).or (repo.store.snapshotReplicas.lookup key) with
  | none => .error (.snapshotNotFound key)
  | some bytes =>
    match bytes.openSnapshot key with
    | none => .error (.corrupt (.snapshot key) "decryption failed")
    | some snapshot =>
      match snapshot.validate with
      | .error _ => .error (.corrupt (.snapshot key) "invalid snapshot")
      | .ok () =>
        if snapshot.key ≠ key then
          .error (.corrupt (.snapshot key) "snapshot content does not belong under this key")
        else .ok snapshot

/-- The replica of a snapshot: put unless one is there. -/
def putSnapshotReplica (key : SnapshotKey) (bytes : Sealed) : Repository :=
  if repo.config.replicas > 0 ∧ (repo.store.snapshotReplicas.lookup key).isNone then
    { repo with store.snapshotReplicas := repo.store.snapshotReplicas.insert key bytes }
  else repo

/-- `write_snapshot`: the replica first, where replicas are kept, and then the snapshot, which must
not be there yet. -/
def writeSnapshot (key : SnapshotKey) (snapshot : Snapshot) : Except CoreError Unit × Repository :=
  match snapshot.validate with
  | .error _ => (.error (.corrupt (.snapshot key) "invalid snapshot"), repo)
  | .ok () =>
    let bytes := Sealed.snapshot key snapshot
    let repo := repo.putSnapshotReplica key bytes
    if (repo.store.snapshots.lookup key).isSome then
      (.error (.alreadyExists (.snapshot key)), repo)
    else (.ok (), { repo with store.snapshots := repo.store.snapshots.insert key bytes })

section Snapshots

variable {repo} {key : SnapshotKey} {s : Snapshot} {repo' : Repository}

theorem putSnapshotReplica_eq (repo : Repository) (key : SnapshotKey) (bytes : Sealed) :
    ∃ replicas, repo.putSnapshotReplica key bytes = { repo with
      store.snapshotReplicas := replicas } := by
  unfold putSnapshotReplica
  split_ifs
  · exact ⟨_, rfl⟩
  · exact ⟨repo.store.snapshotReplicas, rfl⟩

/-- A snapshot that was written belongs under its key and is there; nothing else but its replica
has changed. -/
theorem writeSnapshot_ok (h : repo.writeSnapshot key s = (.ok (), repo')) :
    s.validate = .ok () ∧ repo'.store.snapshots.lookup key = some (.snapshot key s) ∧
      ∃ snapshots replicas, repo' = { repo with
        store.snapshots := snapshots, store.snapshotReplicas := replicas } := by
  unfold writeSnapshot at h
  split at h
  · cases h
  · next hv =>
    obtain ⟨replicas, hr⟩ := repo.putSnapshotReplica_eq key (.snapshot key s)
    dsimp only at h
    rw [hr] at h
    split_ifs at h
    · cases h
    · cases h
      exact ⟨hv, AList.lookup_insert _, _, _, rfl⟩

/-- A snapshot that was not written leaves at most its replica. -/
theorem writeSnapshot_error {e : CoreError} (h : repo.writeSnapshot key s = (.error e, repo')) :
    ∃ replicas, repo' = { repo with store.snapshotReplicas := replicas } := by
  unfold writeSnapshot at h
  split at h
  · cases h
    exact ⟨_, rfl⟩
  · obtain ⟨replicas, hr⟩ := repo.putSnapshotReplica_eq key (.snapshot key s)
    dsimp only at h
    rw [hr] at h
    split_ifs at h
    · cases h
      exact ⟨_, rfl⟩
    · cases h

/-- A stored snapshot that belongs under its key reads back. -/
theorem readSnapshot_of_lookup (h : repo.store.snapshots.lookup key = some (.snapshot key s))
    (hv : s.validate = .ok ()) (hkey : s.key = key) : repo.readSnapshot key = .ok s := by
  simp [readSnapshot, h, Sealed.openSnapshot, hv, hkey]

end Snapshots

end Repository
end Kist
