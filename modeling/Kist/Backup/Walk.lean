import Kist.Backup.File
import Kist.Filter

/-!
# The walk of a backup

`walk_dir` and `process_entry` of `kist-core::backup`: which items of a directory are admitted, the
entry of an item, the segments of a directory, and the entries of the parent snapshot that the walk
looks up by increasing names.

The depth of a visit is not kept as a number: `walkDir` recurses on the number of levels of
directories that may still lie below, `MAX_TREE_DEPTH` less the depth.
-/

namespace Kist

/-! ### Exclusions -/

/-- `Marker`: the name of a marker file, and the bytes it has to begin with. -/
structure Marker where
  name : Bytes
  header : Bytes
  deriving DecidableEq, Repr

/-- `Exclusions`. -/
structure Exclusions where
  patterns : PathFilter
  ifPresent : List Marker
  largerThan : Option ℕ
  oneFileSystem : Bool

/-- `Named`: the paths below a root that are sources themselves, and the directories on the way to
them. -/
structure Named where
  paths : List RelPath
  toward : List RelPath

/-- `Named::new`. -/
def Named.new (paths : List RelPath) : Named :=
  ⟨paths, paths.flatMap fun path => path.dropLast.inits.tail⟩

/-- `Visit`: the position of an item in the rules of exclusion. -/
structure Visit where
  filter : FilterState
  devBound : Option ℕ
  passThrough : Bool
  named : Bool
  towardNamed : Bool
  deriving DecidableEq, Repr

/-- `Visit::root`. -/
def Visit.root (filter : FilterState) (devBound : Option ℕ) : Visit :=
  ⟨filter, devBound, false, true, false⟩

/-- `SourceCtx`, with the exclusions of the backup. -/
structure SourceCtx where
  source : Source
  named : Named
  exclude : Exclusions

namespace SourceCtx

variable (ctx : SourceCtx)

/-- A file over the size limit. -/
def tooLarge : SourceItemKind → Bool
  | .file size .. => ctx.exclude.largerThan.any fun limit => size > limit
  | _ => false

/-- The visit of an item of a directory, or `none` for an item that is excluded. `markers` are the
marker files found in the directory. -/
def admitted (markers : Option (List Bytes)) (visit : Visit) (childRel : RelPath)
    (item : SourceItem) :
    Option Visit :=
  let named := decide (childRel ∈ ctx.named.paths)
  let towardNamed := !named && decide (childRel ∈ ctx.named.toward)
  if visit.passThrough && !named && !towardNamed then none
  else
    let childFilter := ctx.exclude.patterns.descend visit.filter item.name
    let besideMarker := markers.any fun names => decide (item.name ∉ names)
    let excluded := !named && (childFilter.isMatch || ctx.tooLarge item.kind || besideMarker)
    if excluded && !towardNamed then none
    else some
      { filter := childFilter
        devBound := visit.devBound
        passThrough := !named && (visit.passThrough || excluded)
        named
        towardNamed }

end SourceCtx

namespace Visit

variable (visit : Visit) (posix : Option PosixMeta)

/-- The item is on a device other than the one the visit is bound to. -/
def otherFs : Bool :=
  match visit.devBound, posix with
  | some bound, some p => p.dev ≠ bound && !visit.named
  | _, _ => false

/-- The visit of the content of a directory. -/
def inside : Visit where
  filter := visit.filter
  devBound :=
    match visit.named, visit.devBound, posix with
    | true, some _, some p => some p.dev
    | _, _, _ => visit.devBound
  passThrough := visit.passThrough || visit.otherFs posix
  named := false
  towardNamed := false

/-- The visit of the content of a directory, or `none` for a directory that is kept empty. -/
def enter : Option Visit :=
  if visit.otherFs posix && !visit.towardNamed then none else some (visit.inside posix)

end Visit

/-! ### The entries of the parent -/

/-- `ParentStream`: the segments not read yet, and the entries left of the segment being read. -/
structure ParentStream where
  parts : List TreeId
  current : List Entry

namespace Repository

variable (repo : Repository)

/-- The loop of `ParentStream::open`: the segments of a directory, the first one first. -/
def chainIds : ℕ → List TreeId → Option TreeId → Except CoreError (List TreeId)
  | _, seen, none => .ok seen
  | 0, _, some id => .error (.corrupt (.tree id) "tree chain loops")
  | n + 1, seen, some id =>
    if id ∈ seen then .error (.corrupt (.tree id) "tree chain loops")
    else do
      let tree ← repo.readTree id
      chainIds n (id :: seen) tree.prev

/-- `ParentStream::open`. Each round of the loop reads another stored tree. -/
def openParent (last : TreeId) : Except CoreError ParentStream := do
  let n := repo.store.trees.entries.length + repo.store.treeReplicas.entries.length + 1
  let parts ← repo.chainIds n [] (some last)
  return ⟨parts, []⟩

/-- `ParentStream::take_name`, with the segments and the entries that are left. -/
def takeName (name : Bytes) : List TreeId → List Entry → Option Entry × ParentStream
  | parts, current =>
    match current.dropWhile fun e => e.name < name with
    | e :: rest => if e.name = name then (some e, ⟨parts, rest⟩) else (none, ⟨parts, e :: rest⟩)
    | [] =>
      match parts with
      | [] => (none, ⟨[], []⟩)
      | id :: ids =>
        match repo.readTree id with
        | .ok tree => takeName name ids tree.entries
        | .error _ => (none, ⟨[], []⟩)

end Repository

namespace Backup

variable (ctx : SourceCtx)

/-- The source has a file by the name of the marker in the directory, which begins with the bytes of
the marker. -/
def findsMarker (tick : ℕ) (dirRel : RelPath) (marker : Marker) : Bool :=
  match ctx.source.probe tick (dirRel ++ [marker.name]) marker.header.length with
  | .ok (some head) => head = marker.header
  | _ => false

/-- `markers_in`. -/
def markersIn (b : Backup) (dirRel : RelPath) : Option (List Bytes) × Backup :=
  let (found, b) := ctx.exclude.ifPresent.foldl (fun (r : List Bytes × Backup) marker =>
    (if findsMarker ctx r.2.tick dirRel marker then r.1 ++ [marker.name] else r.1, r.2.ask)) ([], b)
  (if found = [] then none else some found, b)

/-- The extended attributes of an item of a local source. -/
def withXattrs (b : Backup) (rel : RelPath) (entry : Entry) : Entry × Backup :=
  if ctx.source.metaKind = .posix then
    ({ entry with xattrs := ctx.source.xattrs b.tick rel }, b.ask)
  else (entry, b)

/-- Walk the content of a directory: the backup, the directory, its tree in the parent snapshot, and
its visit. -/
abbrev Walk := Backup → RelPath → Option TreeId → Visit → Except CoreError (TreeId × Backup)

/-- The entry of a symlink. -/
def processSymlink (b : Backup) (rel : RelPath) (name target : Bytes) (posix : Option PosixMeta) :
    Entry × Backup :=
  let b := { b with stats.symlinks := b.stats.symlinks + 1 }
  let entry : Entry := { name, kind := .symlink, metaKind := ctx.source.metaKind, target }
  withXattrs ctx b rel (posix.elim entry fun p => fillPosixMeta entry p false)

/-- The tree of a directory: of its content, or an empty one on another device. -/
def walkSubtree (walk : Walk) (b : Backup) (rel : RelPath) (posix : Option PosixMeta)
    (parent : Option Entry) (visit : Visit) : Except CoreError (TreeId × Backup) :=
  match visit.enter posix with
  | none => { b with report.excluded := b.report.excluded + 1 }.writeTree (.new [] none)
  | some inside =>
    walk b rel (parent.bind fun e =>
      if e.kind = .dir ∧ e.subtree ≠ TreeId.zero then some e.subtree else none) inside

/-- The entry of a directory. -/
def processDir (walk : Walk) (b : Backup) (rel : RelPath) (name : Bytes) (posix : Option PosixMeta)
    (parent : Option Entry) (visit : Visit) : Except CoreError (Entry × Backup) := do
  let (subtree, b) ← walkSubtree walk b rel posix parent visit
  let b := { b with stats.dirs := b.stats.dirs + 1 }
  let entry : Entry := { name, kind := .dir, metaKind := ctx.source.metaKind, subtree }
  let entry := match ctx.source.metaKind with
    | .posix => posix.elim entry fun p => fillPosixMeta entry p false
    -- a prefix of an object store has no time, which an entry of this kind needs
    | .sftp => { entry with metaKind := .generic }
    | _ => entry
  return withXattrs ctx b rel entry

/-- The entry of a file, or `none` where it could not be read. -/
def processRegular (b : Backup) (rel : RelPath) (name : Bytes) (size : ℕ) (mtimeNs : ℤ)
    (etag vern : Option Bytes) (posix : Option PosixMeta) (parent : Option Entry) :
    Option Entry × Backup :=
  match b.processFile ctx.source rel ⟨size, posix, etag⟩ parent with
  | (none, b) => (none, b)
  | (some c, b) =>
    let b := { b with stats.files := b.stats.files + 1 }
    let mk := ctx.source.metaKind
    let entry : Entry :=
      { name, kind := .file, metaKind := mk, size := c.size, content := c.content,
        chunks := c.chunks, mtimeNs := some mtimeNs,
        etag := if mk = .s3 then etag else none, vern := if mk = .s3 then vern else none }
    match mk, posix with
    | .posix, some p =>
      let (entry, b) := withXattrs ctx b rel (fillPosixMeta entry p true)
      (some entry, b)
    | .posix, none => (none, b.skip)
    | .sftp, some p =>
      (some { entry with mode := some p.mode, uid := some p.uid, gid := some p.gid }, b)
    | _, _ => (some entry, b)

/-- `process_entry`. `walk` is missing below the last level of directories. -/
def processEntry (walk : Option Walk) (b : Backup) (rel : RelPath) (item : SourceItem)
    (parent : Option Entry) (visit : Visit) : Except CoreError (Option Entry × Backup) :=
  let posix := if ctx.source.metaKind = .posix then ctx.source.lstat b.tick rel else none
  let b := b.ask
  match item.kind with
  | .symlink target =>
    let (entry, b) := processSymlink ctx b rel item.name target posix
    .ok (some entry, b)
  | .dir =>
    match walk with
    | none => .ok (none, b.skip)
    | some walk => do
      let (entry, b) ← processDir ctx walk b rel item.name posix parent visit
      return (some entry, b)
  | .file size mtimeNs etag vern =>
    if visit.otherFs posix then
      .ok (none, { b with report.excluded := b.report.excluded + 1 })
    else .ok (processRegular ctx b rel item.name size mtimeNs etag vern posix parent)

/-- The loop of `walk_dir` over the items of a directory. `children` are the entries of the segment
being filled, `prev` is the segment before it. -/
def walkItems (walk : Option Walk) (dirRel : RelPath) (markers : Option (List Bytes))
    (visit : Visit) : List (Except String SourceItem) → Backup → Option ParentStream →
    List Entry → Option TreeId → Except CoreError (TreeId × Backup)
  | [], b, _, children, prev => b.writeTree (.new children prev)
  | .error _ :: items, b, parents, children, prev =>
    walkItems walk dirRel markers visit items b.skip parents children prev
  | .ok item :: items, b, parents, children, prev =>
    match ctx.admitted markers visit (dirRel ++ [item.name]) item with
    | none =>
      let b := { b with report.excluded := b.report.excluded + 1 }
      walkItems walk dirRel markers visit items b parents children prev
    | some child =>
      -- a directory deeper than what the reading side accepts
      if item.kind = .dir ∧ walk.isNone then
        walkItems walk dirRel markers visit items b.skip parents children prev
      else do
        let (parent, parents) := match parents with
          | some s =>
            let (e, s) := b.repo.takeName item.name s.parts s.current
            (e, some s)
          | none => (none, none)
        let (entry, b) ← processEntry ctx walk b (dirRel ++ [item.name]) item parent child
        let children := children ++ entry.toList
        if children.length ≥ maxNodesPerTree then
          let (id, b) ← b.writeTree (.new children prev)
          walkItems walk dirRel markers visit items b parents [] (some id)
        else walkItems walk dirRel markers visit items b parents children prev

/-- The body of `walk_dir`. -/
def walkDirWith (walk : Option Walk) (b : Backup) (dirRel : RelPath)
    (parentSubtree : Option TreeId) (visit : Visit) : Except CoreError (TreeId × Backup) :=
  let parents := parentSubtree.bind fun id => (b.repo.openParent id).toOption
  match ctx.source.list b.tick dirRel with
  | .error _ => b.ask.skip.writeTree (.new [] none)
  | .ok items =>
    let b := b.ask
    let (markers, b) :=
      if ctx.exclude.ifPresent = [] ∨ visit.passThrough then (none, b)
      else markersIn ctx b dirRel
    walkItems ctx walk dirRel markers visit items b parents [] none

/-- `walk_dir`, with the levels of directories that may lie below. -/
def walkDir : ℕ → Walk
  | 0 => walkDirWith ctx none
  | levels + 1 => walkDirWith ctx (some (walkDir levels))

end Backup
end Kist
