import Kist.Backup.State

/-!
# The content of a file

`process_file` of `kist-core::backup`: the content of a file is taken from its entry in the parent
snapshot, from another name of the same inode that this backup has read, or from the file itself.
-/

namespace Kist
namespace Backup

/-- The device and the inode of a file with several names. -/
def hardlinkKey (f : FileFacts) : Option InodeKey :=
  (f.posix.filter fun p => p.nlink > 1).map fun p => (p.dev, p.inode)

/-- What `try_reuse` accepts as proof that a file is the one its parent entry describes. -/
def proven (f : FileFacts) (pentry : Entry) (parentStartNs : ℤ) : Bool :=
  match f.posix, pentry.metaKind with
  | some posix, .posix =>
    fileUnchanged (metaOfEntry pentry) pentry.size (.ofPosix posix) f.size parentStartNs
  | none, .s3 =>
    match f.etag, pentry.etag with
    | some etag, some petag => petag = etag && pentry.size = f.size
    | _, _ => false
  | _, _ => false

/-- The chunks of an index with their packs, where none is missing or in a marked pack. -/
def unmarkedPlaces (index : ChunkIndex) (marked : List ObjectId) :
    List ChunkId → Option (List (ChunkId × ObjectId))
  | [] => some []
  | id :: ids => do
    let loc ← index.get id
    if loc.pack ∈ marked then none
    let rest ← unmarkedPlaces index marked ids
    return (id, loc.pack) :: rest

/-- The data chunks of a parent entry and the places of all its chunks, if they can be taken over.
-/
def reusable (b : Backup) (pentry : Entry) : Option (List ChunkId × List (ChunkId × ObjectId)) := do
  let (dataIds, listIds) ← match pentry.content with
    | .direct => some (pentry.chunks, [])
    | .indirect =>
      if pentry.chunks.all b.index.contains then
        match b.repo.resolveChunks pentry.chunks .indirect b.index with
        | .ok ids => some (ids, pentry.chunks)
        | .error _ => none
      else none
  let places ← unmarkedPlaces b.index b.marked (dataIds ++ listIds)
  return (dataIds, places)

/-- Count the bytes of a file, once for all the names of an inode. -/
def countBytes (b : Backup) (f : FileFacts) (size : ℕ) : Backup :=
  match hardlinkKey f with
  | some key =>
    if key ∈ b.countedHardlinks then b
    else { b with
      countedHardlinks := key :: b.countedHardlinks
      stats.bytes := b.stats.bytes + size }
  | none => { b with stats.bytes := b.stats.bytes + size }

/-- `try_reuse`: take over the chunk list of the parent entry. -/
def tryReuse (b : Backup) (f : FileFacts) (parent : Option Entry) : Option FileContent × Backup :=
  match parent with
  | none => (none, b)
  | some pentry =>
    if pentry.kind = .file ∧ proven f pentry b.parentStartNs then
      match b.reusable pentry with
      | none => (none, b)
      | some (dataIds, places) =>
        let b := (b.recordReferenced places).countBytes f pentry.size
        (some ⟨pentry.size, pentry.chunks, pentry.content⟩,
          { b with report.chunksRead := b.report.chunksRead + dataIds.length })
    else (none, b)

/-- The content of a file that was cut: a long chunk list is stored as data of its own. -/
def storeContent (b : Backup) (result : FileResult) : FileContent × Backup :=
  if result.chunks.length ≤ maxInlineChunks then
    (⟨result.bytesTotal, result.chunks, .direct⟩, b)
  else
    let (list, b) := b.chunkBytes (b.repo.keys.encodeList (.new result.chunks))
    (⟨result.bytesTotal, list.chunks, .indirect⟩, { b with
      report.chunksNew := b.report.chunksNew + list.chunksNew
      report.bytesStored := b.report.bytesStored + list.bytesNew })

/-- The part of `process_file` that reads the file. -/
def readFile (b : Backup) (f : FileFacts) (read : FileRead) : Option FileContent × Backup :=
  match b.chunkReader read with
  | (none, b) => (none, b)
  | (some result, b) =>
    let b := b.countBytes f result.bytesTotal
    let b := { b with
      report.bytesStored := b.report.bytesStored + result.bytesNew
      report.chunksNew := b.report.chunksNew + result.chunksNew }
    let (out, b) := b.storeContent result
    (some out,
      match hardlinkKey f with
      | some key => { b with hardlinks := b.hardlinks.insert key out }
      | none => b)

/-- A regular file by its mode. -/
def isRegular (mode : ℕ) : Bool := mode &&& 0o170000 = 0o100000

/-- `process_file`: `none` for a file that could not be read. -/
def processFile (b : Backup) (source : Source) (rel : RelPath) (f : FileFacts)
    (parent : Option Entry) : Option FileContent × Backup :=
  if f.posix.any fun p => !isRegular p.mode then (none, b.skip)
  else match b.tryReuse f parent with
    | (some reused, b) => (some reused, { b with report.filesReused := b.report.filesReused + 1 })
    | (none, b) =>
      match (hardlinkKey f).bind b.hardlinks.lookup with
      | some hit => (some hit, b)
      | none => b.ask.readFile f (source.read b.tick rel)

/-! ### What a file records -/

/-- The content that an entry records of a file with the given bytes. -/
def contentOf (keys : RepoKeys) (chunker : Chunking.Chunker) (bytes : Bytes) : FileContent :=
  let ids := (chunker.cut bytes).map keys.chunkId
  if ids.length ≤ maxInlineChunks then ⟨bytes.length, ids, .direct⟩
  else ⟨bytes.length, (chunker.cut (keys.encodeList (.new ids))).map keys.chunkId, .indirect⟩

variable (b : Backup)

theorem sameRun_countBytes (f : FileFacts) (size : ℕ) : SameRun b (b.countBytes f size) := by
  unfold countBytes
  split
  · split
    · rfl
    · exact sameRun_of_eq
  · exact sameRun_of_eq

theorem sameRun_recordReferenced (chunks : List (ChunkId × ObjectId)) :
    SameRun b (b.recordReferenced chunks) := by exact sameRun_of_eq

theorem sameRun_tryReuse (f : FileFacts) (parent : Option Entry) :
    SameRun b (b.tryReuse f parent).2 := by
  unfold tryReuse
  cases parent with
  | none => rfl
  | some pentry =>
    dsimp only
    split_ifs
    · split
      · rfl
      · next dataIds places _ =>
        exact ((b.sameRun_recordReferenced places).trans (sameRun_countBytes _ f pentry.size)).trans
          sameRun_of_eq
    · rfl

/-- What is taken over is what the parent entry records, and the entry was proven current. -/
theorem tryReuse_eq_some {f : FileFacts} {parent : Option Entry} {c : FileContent}
    (h : (b.tryReuse f parent).1 = some c) :
    ∃ pentry, parent = some pentry ∧ pentry.kind = .file ∧ proven f pentry b.parentStartNs ∧
      (b.reusable pentry).isSome ∧ c = ⟨pentry.size, pentry.chunks, pentry.content⟩ := by
  unfold tryReuse at h
  cases parent with
  | none => cases h
  | some pentry =>
    dsimp only at h
    split_ifs at h with h1
    cases hr : b.reusable pentry with
    | none => simp [hr] at h
    | some r =>
      simp only [hr, Option.some.injEq] at h
      exact ⟨pentry, rfl, h1.1, h1.2, by simp [hr], h.symm⟩

theorem storeContent_spec (hp : b.chunker.params.Valid) {bytes : Bytes} {result : FileResult}
    (hc : result.chunks = (b.chunker.cut bytes).map b.repo.keys.chunkId)
    (ht : result.bytesTotal = bytes.length) :
    SameRun b (b.storeContent result).2 ∧
      (b.storeContent result).1 = contentOf b.repo.keys b.chunker bytes := by
  unfold storeContent contentOf
  rw [hc, ht]
  split_ifs with hlen
  · exact ⟨.refl b, by simp only [hlen, if_true]⟩
  · obtain ⟨hs, hi, -⟩ := b.chunkBytes_spec hp
      (b.repo.keys.encodeList (.new ((b.chunker.cut bytes).map b.repo.keys.chunkId)))
    exact ⟨hs.trans sameRun_of_eq, by simp only [hi, hlen, if_false]⟩

/-- **Reading a file.** A file that is read to its end records the content of its bytes; a name of
an inode with several names leaves that content for the others. -/
theorem readFile_bytes (hp : b.chunker.params.Valid) (f : FileFacts) (bytes : Bytes) :
    (b.readFile f (.bytes bytes)).1 = some (contentOf b.repo.keys b.chunker bytes) ∧
      (b.readFile f (.bytes bytes)).2.hardlinks =
        match hardlinkKey f with
        | some key => b.hardlinks.insert key (contentOf b.repo.keys b.chunker bytes)
        | none => b.hardlinks := by
  obtain ⟨hs, hi, ht⟩ := b.chunkBytes_spec hp bytes
  set r := b.chunkBytes bytes with hr
  have hs1 : SameRun b { r.2.countBytes f r.1.bytesTotal with
      report.bytesStored := (r.2.countBytes f r.1.bytesTotal).report.bytesStored + r.1.bytesNew
      report.chunksNew := (r.2.countBytes f r.1.bytesTotal).report.chunksNew + r.1.chunksNew } :=
    (hs.trans (sameRun_countBytes _ _ _)).trans sameRun_of_eq
  obtain ⟨hs2, ho⟩ := storeContent_spec _ (hs1.chunker ▸ hp)
    (by rw [hi, hs1.chunker, hs1.keys]) ht
  rw [hs1.keys, hs1.chunker] at ho
  have hh := (hs1.trans hs2).hardlinks
  unfold readFile
  simp only [chunkReader, ← hr]
  refine ⟨congrArg some ho, ?_⟩
  cases hardlinkKey f with
  | none => exact hh
  | some key => simp only [ho, hh]

/-- A file that cannot be read to its end records nothing. -/
theorem readFile_none (f : FileFacts) (read : FileRead) (h : ∀ bytes, read ≠ .bytes bytes) :
    (b.readFile f read).1 = none ∧ (b.readFile f read).2.hardlinks = b.hardlinks := by
  unfold readFile
  cases read with
  | unreadable reason => exact ⟨rfl, rfl⟩
  | broken delivered reason => exact ⟨rfl, (addChunks_spec _ b {}).1.hardlinks⟩
  | bytes content => exact absurd rfl (h content)

theorem sameRun_chunkBytes (content : Bytes) : SameRun b (b.chunkBytes content).2 :=
  (addChunks_spec _ b {}).1.trans sameRun_of_eq

theorem sameRun_chunkReader (read : FileRead) : SameRun b (b.chunkReader read).2 := by
  cases read with
  | unreadable reason => exact sameRun_of_eq
  | broken delivered reason => exact (addChunks_spec _ b {}).1.trans sameRun_of_eq
  | bytes content => exact b.sameRun_chunkBytes content

theorem sameRun_storeContent (result : FileResult) : SameRun b (b.storeContent result).2 := by
  unfold storeContent
  split_ifs
  · rfl
  · exact (b.sameRun_chunkBytes _).trans sameRun_of_eq

theorem sameVisit_readFile (f : FileFacts) (read : FileRead) :
    SameVisit b (b.readFile f read).2 := by
  have hs := (b.sameRun_chunkReader read).toSameVisit
  unfold readFile
  split
  · next heq => exact (congrArg Prod.snd heq) ▸ hs
  · next result b' heq =>
    rw [show (b.chunkReader read).2 = b' from congrArg Prod.snd heq] at hs
    refine hs.trans <| (sameRun_countBytes b' f result.bytesTotal).toSameVisit.trans ?_
    refine .trans sameRun_of_eq.toSameVisit (.trans (sameRun_storeContent
      { b'.countBytes f result.bytesTotal with
        report.bytesStored := (b'.countBytes f result.bytesTotal).report.bytesStored +
          result.bytesNew
        report.chunksNew := (b'.countBytes f result.bytesTotal).report.chunksNew +
          result.chunksNew } result).toSameVisit ?_)
    dsimp only
    split <;> exact ⟨⟨rfl, rfl, rfl, rfl, rfl, rfl⟩, rfl, rfl, rfl⟩

/-- What a visit of a file can yield, and what it leaves in the table of hard links. -/
inductive Processed (b : Backup) (read : FileRead) (f : FileFacts) (parent : Option Entry) :
    Option FileContent → Dict InodeKey FileContent → Prop
  | skipped (h : (f.posix.any fun p => !isRegular p.mode) = true ∨ ∀ bytes, read ≠ .bytes bytes) :
    Processed b read f parent none b.hardlinks
  | reused {c : FileContent} (h : (b.tryReuse f parent).1 = some c) :
    Processed b read f parent (some c) b.hardlinks
  | shared {key : InodeKey} {c : FileContent} (hnot : (b.tryReuse f parent).1 = none)
    (hkey : hardlinkKey f = some key) (h : b.hardlinks.lookup key = some c) :
    Processed b read f parent (some c) b.hardlinks
  | read {bytes : Bytes} (hnot : (b.tryReuse f parent).1 = none)
    (hnew : (hardlinkKey f).bind b.hardlinks.lookup = none) (h : read = .bytes bytes) :
    Processed b read f parent (some (contentOf b.repo.keys b.chunker bytes))
      (match hardlinkKey f with
        | some key => b.hardlinks.insert key (contentOf b.repo.keys b.chunker bytes)
        | none => b.hardlinks)

theorem sameVisit_processFile (source : Source) (rel : RelPath) (f : FileFacts)
    (parent : Option Entry) : SameVisit b (b.processFile source rel f parent).2 := by
  have hs := (b.sameRun_tryReuse f parent).toSameVisit
  unfold processFile
  split_ifs
  · exact sameRun_of_eq.toSameVisit
  rcases ht : b.tryReuse f parent with ⟨_ | c, b'⟩
  · rw [ht] at hs
    have hask : SameVisit b' b'.ask := ⟨⟨rfl, rfl, rfl, rfl, rfl, rfl⟩, rfl, rfl, rfl⟩
    dsimp only
    split
    · exact hs
    · exact hs.trans (hask.trans (b'.ask.sameVisit_readFile f _))
  · rw [ht] at hs
    exact hs.trans sameRun_of_eq.toSameVisit

/-- A regular file that is read to its end is not skipped. -/
theorem isSome_processFile {source : Source} {rel : RelPath} {f : FileFacts}
    {parent : Option Entry} (hr : (f.posix.any fun p => !isRegular p.mode) = false) {bytes : Bytes}
    (hb : source.read b.tick rel = .bytes bytes) :
    (b.processFile source rel f parent).1.isSome := by
  have htick := (b.sameRun_tryReuse f parent).tick
  unfold processFile
  rw [if_neg (by simp [hr])]
  rcases ht : b.tryReuse f parent with ⟨_ | c, b'⟩
  · rw [ht] at htick
    dsimp only at htick ⊢
    rw [htick, hb]
    split <;> rfl
  · rfl

/-- **A visit of a file.** It takes the content over, shares it with another name, reads it, or
skips the file. -/
theorem processFile_cases (hp : b.chunker.params.Valid) (source : Source) (rel : RelPath)
    (f : FileFacts) (parent : Option Entry) :
    Processed b (source.read b.tick rel) f parent (b.processFile source rel f parent).1
      (b.processFile source rel f parent).2.hardlinks := by
  have hs := b.sameRun_tryReuse f parent
  unfold processFile
  split_ifs with hirregular
  · exact .skipped (.inl hirregular)
  rcases ht : b.tryReuse f parent with ⟨_ | c, b'⟩
  · rw [ht] at hs
    have hnot : (b.tryReuse f parent).1 = none := by rw [ht]
    dsimp only
    rcases hk : (hardlinkKey f).bind b'.hardlinks.lookup with _ | c
    · have hkeys : b'.ask.repo.keys = b.repo.keys := hs.keys
      have hchunker : b'.ask.chunker = b.chunker := hs.chunker
      have hlinks : b'.ask.hardlinks = b.hardlinks := hs.hardlinks
      dsimp only
      rw [hs.tick]
      rw [hs.hardlinks] at hk
      cases hread : source.read b.tick rel with
      | bytes bytes =>
        obtain ⟨h1, h2⟩ := readFile_bytes b'.ask (hchunker ▸ hp) f bytes
        rw [h1, h2, hkeys, hchunker, hlinks]
        exact .read hnot hk rfl
      | unreadable reason =>
        obtain ⟨h1, h2⟩ := b'.ask.readFile_none f (.unreadable reason) (by simp)
        rw [h1, h2]
        exact hs.hardlinks ▸ .skipped (.inr (by simp))
      | broken delivered reason =>
        obtain ⟨h1, h2⟩ := b'.ask.readFile_none f (.broken delivered reason) (by simp)
        rw [h1, h2]
        exact hs.hardlinks ▸ .skipped (.inr (by simp))
    · obtain ⟨key, hkey, hc⟩ := Option.bind_eq_some_iff.1 hk
      rw [hs.hardlinks] at hc
      exact hs.hardlinks ▸ .shared hnot hkey hc
  · rw [ht] at hs
    exact hs.hardlinks ▸ .reused (by rw [ht])

/-! ### Entries of local files -/

/-- The entry of a local file, with the metadata that was found before its content was. -/
def posixFileEntry (name : Bytes) (c : FileContent) (posix : PosixMeta)
    (xattrs : Option (List (Bytes × Bytes))) : Entry :=
  { fillPosixMeta
      { name, kind := .file, metaKind := .posix, size := c.size, content := c.content,
        chunks := c.chunks } posix true with xattrs }

end Backup
end Kist
