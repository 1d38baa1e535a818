import Kist.Format.Tree

/-!
# Snapshots

`kist-format::snapshot`: the commit point of a backup. A snapshot lies under a key made of its
client and its time, which its content repeats.
-/

namespace Kist

/-- The client identifier, 16 random bytes in the source. -/
abbrev ClientId := ℕ

/-- `Root`: a source by its opaque locator, and the tree of its content. -/
structure Root where
  path : Bytes
  tree : TreeId
  deriving DecidableEq, Repr

/-- `SnapshotStats`. -/
structure SnapshotStats where
  files : ℕ := 0
  dirs : ℕ := 0
  symlinks : ℕ := 0
  bytes : ℕ := 0
  deriving DecidableEq, Repr

/-- `keys::snapshot`: the client and the timestamp of a snapshot's key. -/
structure SnapshotKey where
  client : ClientId
  timeNs : ℤ
  deriving DecidableEq, Repr

/-- `Snapshot`. -/
structure Snapshot where
  version : ℕ
  roots : List Root
  timeNs : ℤ
  host : String
  user : String
  clientId : ClientId
  parent : Option SnapshotKey
  stats : SnapshotStats
  deriving DecidableEq, Repr

namespace Snapshot

/-- The loop of `Snapshot::validate`. -/
def validateRoots : Option Bytes → List Root → Except FormatError Unit
  | _, [] => .ok ()
  | prev, r :: rs => do
    if r.path = [] then throw (.invalidSnapshot "empty root path")
    if r.tree = TreeId.zero then throw (.invalidSnapshot "root tree id must not be zero")
    if ∃ p ∈ prev, r.path ≤ p then
      throw (.invalidSnapshot "roots must be sorted by path with no duplicates")
    validateRoots (some r.path) rs

/-- `Snapshot::validate`. -/
def validate (s : Snapshot) : Except FormatError Unit := do
  if s.version ≠ formatVersion then throw (.unsupportedVersion "snapshot" s.version)
  if s.roots = [] then throw (.invalidSnapshot "snapshot must carry at least one root")
  validateRoots none s.roots

/-- The key that the content of a snapshot belongs under. -/
def key (s : Snapshot) : SnapshotKey := ⟨s.clientId, s.timeNs⟩

end Snapshot
end Kist
