import Kist.Repo
import Mathlib.Tactic.DeriveEncodable

/-!
# Names without collisions

Keys whose names are told apart by what they name: an instance of the assumptions under which the
results about trees and chunks are stated.
-/

namespace Kist

instance encodableUInt8 : Encodable UInt8 :=
  Encodable.ofEquiv (Fin 256) ⟨UInt8.toFin, UInt8.ofFin, fun _ => rfl, fun _ => rfl⟩

deriving instance Encodable for NodeType, MetaKind, ContentType
deriving instance Encodable for Entry
deriving instance Encodable for Tree
deriving instance Encodable for ChunkList
deriving instance Encodable for PackEntry
deriving instance Encodable for IndexPack
deriving instance Encodable for IndexBlob

namespace RepoKeys

/-- Names that enumerate what they name. A sealed chunk is 40 bytes longer than the chunk, and packs
are told apart by their nonces. -/
def ideal : RepoKeys where
  chunkId bytes := Encodable.encode bytes + 1
  treeId tree := Encodable.encode tree + 1
  packId nonce _ := nonce + 1
  objectId
    | .indexBlob nonce blob => Encodable.encode (nonce, blob) + 1
    | _ => 0
  sealedLen bytes := bytes.length + 40
  packLen entries := packHeader + (entries.map PackEntry.length).sum
  encodeList l := List.replicate (Encodable.encode l) 0
  decodeList bytes := Encodable.decode bytes.length
where
  /-- The length of the header of a pack. -/
  packHeader : ℕ := 8

theorem treeId_ideal_injective : Function.Injective ideal.treeId := fun _ _ h =>
  Encodable.encode_injective (Nat.succ_injective h)

theorem chunkId_ideal_injective : Function.Injective ideal.chunkId := fun _ _ h =>
  Encodable.encode_injective (Nat.succ_injective h)

theorem decodeList_ideal (l : ChunkList) : ideal.decodeList (ideal.encodeList l) = some l := by
  simp [ideal]

end RepoKeys
end Kist
