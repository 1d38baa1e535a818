import Kist.Format.Tree

/-!
# File metadata

`kist-core::fsmeta` and the posix metadata of `kist-backend::fsmeta`: what `lstat` reveals of a
file, what of it an entry records, and when a file counts as unchanged since its entry was
written.
-/

namespace Kist

/-- `PosixMeta`: what `capture` takes from `lstat`. The time 0 stands for a platform without it. -/
structure PosixMeta where
  mode : ℕ
  uid : ℕ
  gid : ℕ
  mtimeNs : ℤ
  ctimeNs : ℤ
  inode : ℕ
  dev : ℕ
  nlink : ℕ
  deriving DecidableEq, Repr

/-- `FsMeta`: the same fields, as the comparison of the fast path sees them. -/
structure FsMeta where
  mode : ℕ
  uid : ℕ
  gid : ℕ
  mtimeNs : ℤ
  ctimeNs : ℤ
  inode : ℕ
  dev : ℕ
  nlink : ℕ
  deriving DecidableEq, Repr

/-- The metadata of a file found now, as `try_reuse` copies it. -/
def FsMeta.ofPosix (posix : PosixMeta) : FsMeta :=
  ⟨posix.mode, posix.uid, posix.gid, posix.mtimeNs, posix.ctimeNs, posix.inode, posix.dev,
    posix.nlink⟩

/-- `meta_of_entry`: an absent field reads as 0. -/
def metaOfEntry (entry : Entry) : FsMeta where
  mode := entry.mode.getD 0
  uid := entry.uid.getD 0
  gid := entry.gid.getD 0
  mtimeNs := entry.mtimeNs.getD 0
  ctimeNs := entry.ctimeNs.getD 0
  inode := entry.inode.getD 0
  dev := entry.dev.getD 0
  nlink := entry.nlink.getD 0

/-- `owner_of_entry`: the recorded owner, if both halves are recorded. -/
def ownerOfEntry (entry : Entry) : Option (ℕ × ℕ) :=
  entry.uid.bind fun uid => entry.gid.map fun gid => (uid, gid)

/-- `unchanged`: equal times and inode, and no time that reaches the start of the parent. -/
def unchanged (previous now : FsMeta) (parentStartNs : ℤ) : Bool :=
  if previous.mtimeNs ≠ now.mtimeNs then false
  else if previous.ctimeNs ≠ 0 ∧ previous.ctimeNs ≠ now.ctimeNs then false
  else if previous.inode ≠ 0 ∧ previous.inode ≠ now.inode then false
  else if now.mtimeNs ≥ parentStartNs then false
  else if previous.ctimeNs ≠ 0 ∧ now.ctimeNs ≥ parentStartNs then false
  else true

/-- `file_unchanged`. -/
def fileUnchanged (previous : FsMeta) (previousSize : ℕ) (now : FsMeta) (nowSize : ℕ)
    (parentStartNs : ℤ) : Bool :=
  previousSize = nowSize && unchanged previous now parentStartNs

/-- `fill_posix_meta`: what an entry records of a file found now. A `ctime` of 0 is left out, and
the identity of the inode is recorded only for a file with several names. -/
def fillPosixMeta (entry : Entry) (posix : PosixMeta) (isFile : Bool) : Entry :=
  let linked := isFile && decide (posix.nlink > 1)
  { entry with
    mode := some posix.mode
    uid := some posix.uid
    gid := some posix.gid
    mtimeNs := some posix.mtimeNs
    ctimeNs := if posix.ctimeNs ≠ 0 then some posix.ctimeNs else none
    dev := if linked then some posix.dev else entry.dev
    inode := if linked then some posix.inode else entry.inode
    nlink := if linked then some posix.nlink else entry.nlink }

/-- What the comparison establishes. -/
theorem unchanged_iff {previous now : FsMeta} {start : ℤ} :
    unchanged previous now start = true ↔
      previous.mtimeNs = now.mtimeNs ∧ (previous.ctimeNs ≠ 0 → previous.ctimeNs = now.ctimeNs) ∧
      (previous.inode ≠ 0 → previous.inode = now.inode) ∧ now.mtimeNs < start ∧
      (previous.ctimeNs ≠ 0 → now.ctimeNs < start) := by
  unfold unchanged
  split_ifs with h1 h2 h3 h4 h5
  all_goals grind

section Fill

variable (entry : Entry) (posix : PosixMeta) (isFile : Bool)

@[simp] theorem fillPosixMeta_name : (fillPosixMeta entry posix isFile).name = entry.name := rfl

@[simp] theorem fillPosixMeta_kind : (fillPosixMeta entry posix isFile).kind = entry.kind := rfl

@[simp] theorem fillPosixMeta_metaKind :
    (fillPosixMeta entry posix isFile).metaKind = entry.metaKind := rfl

@[simp] theorem fillPosixMeta_size : (fillPosixMeta entry posix isFile).size = entry.size := rfl

@[simp] theorem fillPosixMeta_target :
    (fillPosixMeta entry posix isFile).target = entry.target := rfl

@[simp] theorem fillPosixMeta_chunks :
    (fillPosixMeta entry posix isFile).chunks = entry.chunks := rfl

@[simp] theorem fillPosixMeta_content :
    (fillPosixMeta entry posix isFile).content = entry.content := rfl

@[simp] theorem fillPosixMeta_subtree :
    (fillPosixMeta entry posix isFile).subtree = entry.subtree := rfl

@[simp] theorem metaOfEntry_fill_mtimeNs :
    (metaOfEntry (fillPosixMeta entry posix isFile)).mtimeNs = posix.mtimeNs := rfl

/-- A time of 0 reads back as 0, recorded or not. -/
@[simp] theorem metaOfEntry_fill_ctimeNs :
    (metaOfEntry (fillPosixMeta entry posix isFile)).ctimeNs = posix.ctimeNs := by
  change (if posix.ctimeNs ≠ 0 then some posix.ctimeNs else none).getD 0 = posix.ctimeNs
  split_ifs with h
  · rfl
  · rw [not_not] at h; simp [h]

end Fill

end Kist
