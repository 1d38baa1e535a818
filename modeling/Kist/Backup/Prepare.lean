import Kist.Backup.Plan
import Kist.Backup.Walk

/-!
# A whole backup

`backup_prepare` and `commit_at` of `kist-core::backup`: plan the sources, load the index, walk each
source, finish the last pack, write the index blob, and then, once the references are verified, the
snapshot.

Between the two halves other clients may change the repository: `commitAt` is given the repository
as it is at the time of the commit.
-/

namespace Kist

/-! ### Sources and options -/

/-- The type of a local path, with what `read_link` tells of a symlink. -/
inductive LocalKind
  | dir
  | file (size : ℕ)
  | symlink (target : Bytes)
  | other
  deriving DecidableEq, Repr

/-- What `symlink_metadata` tells of a local path. -/
structure LocalMeta where
  kind : LocalKind
  posix : PosixMeta

/-- The local file system by absolute paths: `canonicalize`, `symlink_metadata` at each moment, and
`LocalSource::new`. -/
structure LocalFs where
  canonicalize : Bytes → Except String RelPath
  symlinkMetadata : ℕ → RelPath → Except String LocalMeta
  source : RelPath → Source

/-- `SourceSpec`, with the paths that are to be backed up. -/
inductive SourceSpec
  | localPaths (fs : LocalFs) (paths : List Bytes)
  | url (url : Bytes) (paths : List Bytes) (source : Except CoreError Source)
  | injected (source : Source) (locator : Bytes)

/-- `BackupOptions`, the values that the modelled functions read. -/
structure BackupOptions where
  source : SourceSpec
  clientId : ClientId
  hostname : String
  username : String
  gcGrace : Time
  parity : ℕ
  exclude : Exclusions

/-- `RootPlan`. -/
inductive RootPlan
  | localDir (fs : LocalFs) (path : RelPath) (named : List RelPath)
  | localFile (fs : LocalFs) (path : RelPath)
  | remote (source : Source)

/-- `MAX_PARITY_SHARDS`. -/
def maxParityShards : ℕ := 8

/-- The absolute paths of the local sources. -/
def LocalFs.canonicalPaths (fs : LocalFs) : List Bytes → Except CoreError (List RelPath)
  | [] => .ok []
  | p :: ps =>
    match fs.canonicalize p with
    | .error e => .error (.io [p] e)
    | .ok abs => do
      let rest ← canonicalPaths fs ps
      return abs :: rest

/-- A source that is kept is walked as a directory, or recorded as a single entry. -/
def LocalFs.planRoot (fs : LocalFs) (path : RelPath) (named : List RelPath) :
    Except CoreError RootPlan :=
  match fs.symlinkMetadata 0 path with
  | .error e => .error (.io path e)
  | .ok found => .ok (if found.kind = .dir then .localDir fs path named else .localFile fs path)

/-- The plans of the sources that are kept. -/
def LocalFs.planRoots (fs : LocalFs) :
    List (RelPath × List RelPath) → Except CoreError (List (Bytes × RootPlan))
  | [] => .ok []
  | (path, named) :: kept => do
    let plan ← fs.planRoot path named
    let rest ← planRoots fs kept
    return (pathBytes path, plan) :: rest

/-- The planning of `backup_prepare`. -/
def SourceSpec.plan : SourceSpec → Except CoreError (List (Bytes × RootPlan))
  | .localPaths fs paths => do
    let abs ← fs.canonicalPaths paths
    fs.planRoots (planSources abs)
  | .url locator paths source =>
    if paths ≠ [locator] then
      .error (.usage ("a remote source URL backs up exactly one root: " ++
        s!"pass only {locator} as the path"))
    else do
      let source ← source
      return [(locator, .remote source)]
  | .injected source locator => .ok [(locator, .remote source)]

/-- The sources are local paths. -/
def SourceSpec.isLocal : SourceSpec → Bool
  | .localPaths .. => true
  | _ => false

/-! ### The walk of the sources -/

namespace Backup

/-- `root_state`. -/
def rootState (patterns : PathFilter) (locator : Bytes) : Except CoreError FilterState := do
  let comps ← locatorComponents locator
  return patterns.walk patterns.start comps

/-- `parent_file_entry`. -/
def parentFileEntry (b : Backup) (parentSubtree : Option TreeId) (name : Bytes) : Option Entry := do
  let id ← parentSubtree
  let s ← (b.repo.openParent id).toOption
  (b.repo.takeName name s.parts s.current).1

/-- `local_file_item`. -/
def localFileItem (fs : LocalFs) (tick : ℕ) (path : RelPath) (name : Bytes) :
    Except CoreError SourceItem :=
  match fs.symlinkMetadata tick path with
  | .error e => .error (.io path e)
  | .ok found =>
    match found.kind with
    | .symlink target => .ok ⟨name, .symlink target⟩
    | .file size => .ok ⟨name, .file size found.posix.mtimeNs none none⟩
    | _ => .error (.usage s!"{path}: not a regular file (fifo/socket/device); cannot back up")

/-- A source that is a single file or symlink: a tree of one entry. -/
def fileRoot (ctx : SourceCtx) (b : Backup) (rel : RelPath) (item : SourceItem)
    (parentSubtree : Option TreeId) : Except CoreError (TreeId × Backup) := do
  let parent := b.parentFileEntry parentSubtree item.name
  let (entry, b) ← processEntry ctx none b rel item parent (.root {} none)
  match entry with
  | none => .error (.usage s!"{rel}: source could not be read")
  | some entry => b.writeTree (.new [entry] none)

/-- A remote source that is a single file: the only item of its listing bears the last component of
its locator. -/
def remoteFile (items : List (Except String SourceItem)) (locator : Bytes) : Option SourceItem :=
  match items.head?, (locator.splitOn 47).getLast? with
  | some (.ok item), some last =>
    match item.kind with
    | .file .. => if last ≠ [] ∧ item.name = last then some item else none
    | _ => none
  | _, _ => none

/-- The walk of a source that is a directory. -/
def dirRoot (ctx : SourceCtx) (b : Backup) (locator : Bytes) (dev : Option ℕ)
    (parentSubtree : Option TreeId) : Except CoreError (TreeId × Backup) := do
  let state ← rootState ctx.exclude.patterns locator
  walkDir ctx (maxTreeDepth - 1) b [] parentSubtree (.root state dev)

/-- One round of the loop over the sources. -/
def prepareRoot (exclude : Exclusions) (b : Backup) (locator : Bytes)
    (parentSubtree : Option TreeId) : RootPlan → Except CoreError (TreeId × Backup)
  | .localDir fs path named => do
    let ctx : SourceCtx := ⟨fs.source path, .new named, exclude⟩
    if exclude.oneFileSystem then
      match fs.symlinkMetadata b.tick path with
      | .error e => .error (.io path e)
      | .ok found => dirRoot ctx b.ask locator (some found.posix.dev) parentSubtree
    else dirRoot ctx b locator none parentSubtree
  | .localFile fs path =>
    match path.getLast? with
    | none => .error (.usage s!"cannot derive a name for source path {path}")
    | some name => do
      let ctx : SourceCtx := ⟨fs.source path.dropLast, .new [], exclude⟩
      let item ← localFileItem fs b.tick path name
      fileRoot ctx b.ask [name] item parentSubtree
  | .remote source => do
    let ctx : SourceCtx := ⟨source, .new [], exclude⟩
    match source.list b.tick [] with
    | .error e => .error (.io [locator] e)
    | .ok items =>
      match remoteFile items locator with
      | some item => fileRoot ctx b.ask [] item parentSubtree
      | none => dirRoot ctx b.ask locator none parentSubtree

/-- The loop over the sources. `parentRoots` are the roots of the parent snapshot. -/
def prepareRoots (exclude : Exclusions) (parentRoots : List Root) :
    List (Bytes × RootPlan) → Backup → Except CoreError (List Root × Backup)
  | [], b => .ok ([], b)
  | (locator, plan) :: plans, b => do
    let parent := (parentRoots.find? fun r => r.path = locator).map Root.tree
    let (tree, b) ← b.prepareRoot exclude locator parent plan
    let (roots, b) ← prepareRoots exclude parentRoots plans b
    return (⟨locator, tree⟩ :: roots, b)

end Backup

/-! ### The first half -/

/-- `PreparedBackup`: all but the snapshot is written. -/
structure PreparedBackup where
  repo : Repository
  opts : BackupOptions
  started : Time
  roots : List Root
  parentKey : Option SnapshotKey
  stats : SnapshotStats
  report : BackupReport
  referenced : Dict ObjectId (List ChunkId)
  seenTrees : List TreeId
  marksAtStart : Dict ObjectId Time
  ownPacks : List ObjectId

namespace Repository

variable (repo : Repository)

/-- The latest of the keys. -/
def latestKey : List SnapshotKey → Option SnapshotKey
  | [] => none
  | key :: keys =>
    match latestKey keys with
    | some other => if key.timeNs < other.timeNs then some other else some key
    | none => some key

/-- `find_parent`: the latest snapshot of the client, if it has the same sources. -/
def findParent (clientId : ClientId) (paths : List Bytes) : Option (SnapshotKey × Snapshot) := do
  let latest ← latestKey (repo.store.snapshots.keys.filter fun key => key.client = clientId)
  let snap ← (repo.readSnapshot latest).toOption
  if snap.roots.map Root.path = paths then some (latest, snap) else none

/-- The state in which the walk starts. `nonce` stands for the nonces of the packs. -/
def startBackup (chunker : Chunking.Chunker) (nonce : ℕ) (now : Time) (index : ChunkIndex)
    (parentStartNs : ℤ) : Backup where
  repo := repo
  chunker := chunker
  packer := .new
  index := index
  seenTrees := []
  newPacks := []
  stats := {}
  report := {}
  parentStartNs := parentStartNs
  marked := repo.store.marks.keys
  marksAtStart := repo.store.marks
  referenced := ∅
  hardlinks := ∅
  countedHardlinks := []
  tick := 1
  nonce := nonce
  now := now

end Repository

namespace Backup

/-- The index blob of the packs of this run, and what the commit needs. -/
def finish (b : Backup) (opts : BackupOptions) (started : Time) (roots : List Root)
    (parentKey : Option SnapshotKey) : PreparedBackup :=
  let b := b.flushPack
  { repo := if b.newPacks = [] then b.repo else b.repo.writeIndex b.nonce (.new b.newPacks)
    opts, started, roots, parentKey
    stats := b.stats
    report := b.report
    referenced := b.referenced
    seenTrees := b.seenTrees
    marksAtStart := b.marksAtStart
    ownPacks := b.newPacks.map IndexPack.pack }

end Backup

/-- `Chunker::new` on the parameters of the repository, which are valid in one that is open. -/
def Repository.newChunker (repo : Repository) : Except CoreError Chunking.Chunker :=
  match Chunking.Chunker.new repo.config.chunker with
  | .error _ => .error (.format (.invalidParams "chunker"))
  | .ok chunker => .ok chunker

/-- `backup_prepare`. `started` is the time at which it starts, `now` the time of the backend. -/
def Repository.backupPrepare (repo : Repository) (opts : BackupOptions) (nonce : ℕ)
    (started now : Time) : Except CoreError PreparedBackup := do
  if opts.parity > maxParityShards then
    throw (.usage s!"parity must be 0..={maxParityShards}, got {opts.parity}")
  if opts.exclude.oneFileSystem ∧ ¬opts.source.isLocal then
    throw (.usage ("one-file-system compares local device numbers; " ++
      "it works on local source paths only"))
  let plans ← opts.source.plan
  let index ← repo.loadIndexForBackup repo.store.marks.keys
  let parent := repo.findParent opts.clientId (plans.map Prod.fst)
  let chunker ← repo.newChunker
  let b := repo.startBackup chunker nonce now index (parent.elim 0 fun p => p.2.timeNs)
  let (roots, b) ← b.prepareRoots opts.exclude (parent.elim [] fun p => p.2.roots) plans
  return b.finish opts started roots (parent.map Prod.fst)

/-! ### The commit -/

/-- `GRACE_SAFETY_MARGIN`: one hour. -/
def graceSafetyMargin : Time := 3600 * 10 ^ 9

namespace Repository

variable (repo : Repository)

/-- A mark that has outlived the grace. -/
def expired (marks : Dict ObjectId Time) (grace now : Time) (id : ObjectId) : Bool :=
  (marks.lookup id).any fun m => m + grace ≤ now

/-- One chunk of `verify_referenced_chunks`. -/
def verifyChunk (fresh : ChunkIndex) (marks : Dict ObjectId Time) (grace now : Time)
    (oldPack : ObjectId) (chunk : ChunkId) : Except CoreError Unit :=
  match fresh.get chunk with
  | none => .error (.packMissing oldPack (some chunk))
  | some loc =>
    if ¬expired marks grace now loc.pack ∧ (repo.store.packs.lookup loc.pack).isSome then .ok ()
    else .error (.packMissing loc.pack (some chunk))

/-- `verify_referenced_chunks`. -/
def verifyReferencedChunks (referenced : Dict ObjectId (List ChunkId)) (ownPacks : List ObjectId)
    (marks : Dict ObjectId Time) (grace now : Time) : Except CoreError Unit :=
  if referenced.entries = [] then .ok ()
  else do
    let fresh ← repo.loadIndexForBackup marks.keys
    referenced.entries.forM fun r =>
      if r.1 ∈ ownPacks then .ok ()
      else r.2.forM (repo.verifyChunk fresh marks grace now r.1)

/-- `head_tree_and_touch`. -/
def headTreeAndTouch (id : TreeId) (markedAt : Time) : Except CoreError Unit :=
  if (repo.store.trees.lookup id).isNone then .error (.treeMarked id)
  else match repo.store.touches.lookup id with
    | none => .error (.treeMarked id)
    | some touched => if touched < markedAt then .error (.treeMarked id) else .ok ()

/-- `verify_touched_trees`. -/
def verifyTouchedTrees (seen : List TreeId) (marksAtStart marks : Dict ObjectId Time)
    (grace now : Time) : Except CoreError Unit := do
  marks.entries.forM fun m =>
    if m.2 + grace > now ∨ m.1 ∉ seen then .ok () else repo.headTreeAndTouch m.1 m.2
  marksAtStart.entries.forM fun m =>
    if m.1 ∉ seen then .ok () else repo.headTreeAndTouch m.1 m.2

/-- `commit_snapshot`: the snapshot under the first of some times at which no other one lies. -/
def commitSnapshot (make : Time → Snapshot) : ℕ → Time → Repository →
    Except CoreError SnapshotKey × Repository
  | 0, now, repo => (.error (.alreadyExists (.snapshot (make now).key)), repo)
  | attempts + 1, now, repo =>
    let key := (make now).key
    if ¬(-2 ^ 63 ≤ now ∧ now < 2 ^ 63) then
      (.error (.corrupt (.snapshot key) "timestamp out of range"), repo)
    else match repo.writeSnapshot key (make now) with
      | (.ok (), repo) => (.ok key, repo)
      | (.error (.alreadyExists _), repo) => commitSnapshot make attempts (now + 1) repo
      | (.error e, repo) => (.error e, repo)

end Repository

namespace PreparedBackup

variable (p : PreparedBackup)

/-- The snapshot, under the time that is tried. -/
def snapshotAt (timeNs : Time) : Snapshot where
  version := formatVersion
  roots := p.roots
  timeNs := timeNs
  host := p.opts.hostname
  user := p.opts.username
  clientId := p.opts.clientId
  parent := p.parentKey
  stats := p.stats

/-- The checks of `commit_at`. -/
def verify (repo : Repository) (now : Time) : Except CoreError Unit := do
  let elapsed := now - p.started
  let margin := min graceSafetyMargin (p.opts.gcGrace / 2)
  if elapsed + margin ≥ p.opts.gcGrace then throw (.backupTooLong elapsed p.opts.gcGrace)
  let marks := repo.store.marks
  repo.verifyReferencedChunks p.referenced p.ownPacks marks p.opts.gcGrace now
  repo.verifyTouchedTrees p.seenTrees p.marksAtStart marks p.opts.gcGrace now

/-- `commit_at`. -/
def commitAt (repo : Repository) (now : Time) : Except CoreError SnapshotKey × Repository :=
  match p.verify repo now with
  | .error e => (.error e, repo)
  | .ok () => Repository.commitSnapshot p.snapshotAt 3 p.started repo

end PreparedBackup

/-- `backup`, where no other client comes between the two halves. -/
def Repository.backup (repo : Repository) (opts : BackupOptions) (nonce : ℕ)
    (started now commitNow : Time) : Except CoreError SnapshotKey × Repository :=
  match repo.backupPrepare opts nonce started now with
  | .error e => (.error e, repo)
  | .ok p => p.commitAt p.repo commitNow

end Kist
