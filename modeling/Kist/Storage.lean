import Kist.Format.Snapshot
import Kist.Index

/-!
# The storage of a repository

The objects a backend holds, one map for each prefix of `kist-format::keys`. The content of an
object is a sealed value: what a client with the keys encrypted, with the associated data it was
bound to, or bytes that no client sealed. Opening a sealed value under other associated data
fails, as it does for an ideal cipher.
-/

namespace Kist

/-- Times in nanoseconds. -/
abbrev Time := ℤ

/-- A path below the root of a source or below a target, by its components. -/
abbrev RelPath := List Bytes

instance RelPath.lawfulBEq : LawfulBEq RelPath := inferInstance

/-- The names of objects, in the errors that mention one. -/
inductive ObjectKey
  | pack (id : ObjectId)
  | index (id : ObjectId)
  | tree (id : TreeId)
  | treeReplica (id : TreeId)
  | touch (id : TreeId)
  | snapshot (key : SnapshotKey)
  | snapshotReplica (key : SnapshotKey)
  | other (name : String)
  deriving DecidableEq, Repr

/-- `CoreError`, the cases that the modelled functions raise. -/
inductive CoreError
  | snapshotNotFound (key : SnapshotKey)
  | chunkMissing (id : ChunkId)
  | packMissing (pack : ObjectId) (chunk : Option ChunkId)
  | corrupt (key : ObjectKey) (reason : String)
  | io (path : List Bytes) (reason : String)
  | restoreBlocked (path : List Bytes) (reason : String)
  | usage (msg : String)
  | unsafe_ (msg : String)
  | backupTooLong (elapsed grace : Time)
  | treeMarked (id : ObjectId)
  | notFound (key : ObjectKey)
  | alreadyExists (key : ObjectKey)
  | format (e : FormatError)
  deriving DecidableEq, Repr

/-- What a client seals, with the data it is bound to, and bytes that no client sealed. `nonce`
tells apart the objects that are named by their ciphertext. -/
inductive Sealed
  | chunk (aad : ChunkId) (payload : Bytes)
  | tree (aad : TreeId) (plain : Tree)
  | indexBlob (nonce : ℕ) (plain : IndexBlob)
  | snapshot (aad : SnapshotKey) (plain : Snapshot)
  | junk (n : ℕ)
  deriving DecidableEq

/-- `open_chunk`. -/
def Sealed.openChunk (id : ChunkId) : Sealed → Option Bytes
  | .chunk aad payload => if aad = id then some payload else none
  | _ => none

/-- `open_tree`. -/
def Sealed.openTree (id : TreeId) : Sealed → Option Tree
  | .tree aad plain => if aad = id then some plain else none
  | _ => none

/-- `open_index_blob`. -/
def Sealed.openIndexBlob : Sealed → Option IndexBlob
  | .indexBlob _ plain => some plain
  | _ => none

/-- `open_snapshot`. -/
def Sealed.openSnapshot (key : SnapshotKey) : Sealed → Option Snapshot
  | .snapshot aad plain => if aad = key then some plain else none
  | _ => none

/-- A pack: its size, and the sealed chunks at their ranges. -/
structure Pack where
  size : ℕ
  chunks : List (PackEntry × Sealed)
  deriving DecidableEq

/-- `get_range` on a pack: what lies at exactly this range. -/
def Pack.getRange (p : Pack) (offset length : ℕ) : Option Sealed :=
  (p.chunks.find? fun c => c.1.offset = offset ∧ c.1.length = length).map Prod.snd

/-- The objects of a repository. -/
structure Storage where
  packs : Dict ObjectId Pack
  indexes : Dict ObjectId Sealed
  trees : Dict TreeId Sealed
  treeReplicas : Dict TreeId Sealed
  touches : Dict TreeId Time
  marks : Dict ObjectId Time
  snapshots : Dict SnapshotKey Sealed
  snapshotReplicas : Dict SnapshotKey Sealed

/-- `RepoKeys`, the names that depend on the keys or on a hash: the keyed hash of a chunk and of a
tree, the hash of a stored object, the lengths of a sealed chunk and of a whole pack, and the
encoding of a chunk list as bytes. -/
structure RepoKeys where
  chunkId : Bytes → ChunkId
  treeId : Tree → TreeId
  packId : ℕ → List (PackEntry × Sealed) → ObjectId
  objectId : Sealed → ObjectId
  sealedLen : Bytes → ℕ
  packLen : List PackEntry → ℕ
  encodeList : ChunkList → Bytes
  decodeList : Bytes → Option ChunkList

/-- `RepoConfig`, the values that the modelled functions read. -/
structure RepoConfig where
  chunker : ChunkerParams
  packTargetSize : ℕ
  replicas : ℕ

/-- `Repository`. -/
structure Repository where
  keys : RepoKeys
  config : RepoConfig
  store : Storage

end Kist
