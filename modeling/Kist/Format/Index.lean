import Kist.Format.Config

/-!
# Packs and index blobs

The records of `kist-format::pack` and `kist-format::index` that say where a chunk lies. Object
names and chunk identifiers are 32-byte values of which the program uses the equality and the byte
order; here they are numbers, a name being the number its bytes spell.
-/

namespace Kist

/-- `ObjectId`. -/
abbrev ObjectId := ℕ

/-- `ChunkId`. -/
abbrev ChunkId := ℕ

/-- `PackEntry`: where a chunk lies in its pack. -/
structure PackEntry where
  id : ChunkId
  offset : ℕ
  length : ℕ
  rawLen : ℕ
  deriving DecidableEq, Repr

/-- `IndexPack`: a pack, its size, and its entries. -/
structure IndexPack where
  pack : ObjectId
  size : ℕ
  entries : List PackEntry
  deriving DecidableEq, Repr

/-- `IndexBlob`: packs, and the older index blobs this one replaces. -/
structure IndexBlob where
  version : ℕ
  packs : List IndexPack
  supersedes : List ObjectId
  deriving DecidableEq, Repr

/-- `IndexBlob::new`. -/
def IndexBlob.new (packs : List IndexPack) : IndexBlob := ⟨formatVersion, packs, []⟩

end Kist
