import Kist.Backup.Plan
import Kist.Repo
import Kist.Restore.Select
import Kist.Restore.Target

/-!
# Restoring a snapshot

`Repository::restore` of `kist-core::restore`: the place of each root below the target, the selected
entries of each root, and the directories that are made when something is first written into them.
-/

namespace Kist

/-! ### Reading -/

/-- What the loads of the index yield, one after the other, and whether a reload that is asked for
is due. -/
structure IndexLoads where
  load : ℕ → Except CoreError ChunkIndex
  due : ℕ → Bool

/-- `ReloadableIndex`: the index, the loads so far and the reloads that were asked for. -/
structure ReloadableIndex where
  index : ChunkIndex
  loads : ℕ
  asked : ℕ

namespace ReloadableIndex

variable (env : IndexLoads) (repo : Repository)

/-- `reload`. -/
def reload (r : ReloadableIndex) : Except CoreError Unit × ReloadableIndex :=
  if env.due r.asked then
    match env.load r.loads with
    | .error e => (.error e, { r with loads := r.loads + 1, asked := r.asked + 1 })
    | .ok index => (.ok (), ⟨index, r.loads + 1, r.asked + 1⟩)
  else (.ok (), { r with asked := r.asked + 1 })

/-- The chunk, or its pack, is not where the index says. -/
def moved : CoreError → Bool
  | .chunkMissing _ | .notFound _ => true
  | _ => false

/-- `read_chunk_reloading`. -/
def readChunk (r : ReloadableIndex) (id : ChunkId) : Except CoreError Bytes × ReloadableIndex :=
  match repo.readChunk id r.index with
  | .ok bytes => (.ok bytes, r)
  | .error e =>
    if moved e then
      match r.reload env with
      | (.error e, r) => (.error e, r)
      | (.ok (), r) => (repo.readChunk id r.index, r)
    else (.error e, r)

/-- The chunks of a list one after the other, concatenated. -/
def readChunks : List ChunkId → ReloadableIndex → Except CoreError Bytes × ReloadableIndex
  | [], r => (.ok [], r)
  | id :: ids, r =>
    match r.readChunk env repo id with
    | (.error e, r) => (.error e, r)
    | (.ok head, r) =>
      match readChunks ids r with
      | (.error e, r) => (.error e, r)
      | (.ok tail, r) => (.ok (head ++ tail), r)

/-- `resolve_chunks_reloading`. -/
def resolveChunks (chunks : List ChunkId) (content : ContentType) (r : ReloadableIndex) :
    Except CoreError (List ChunkId) × ReloadableIndex :=
  match content with
  | .direct => (.ok chunks, r)
  | .indirect =>
    match readChunks env repo chunks r with
    | (.error e, r) => (.error e, r)
    | (.ok bytes, r) => (repo.chunkIdsOf bytes, r)

end ReloadableIndex

/-- `validate_child_name`. -/
def validateChildName (name : Bytes) : Except CoreError Unit :=
  let bad (why : String) : Except CoreError Unit :=
    .error (.corrupt (.other s!"tree entry {name}") s!"invalid file name: {why}")
  if name = [] then bad "empty"
  else if name = [46] ∨ name = [46, 46] then bad "directory reference"
  else if 47 ∈ name then bad "contains '/'"
  else if 0 ∈ name then bad "contains NUL"
  else .ok ()

/-- `is_file_root`: the tree of a root that is a file or a symlink holds one entry, called like the
last component of the locator. -/
def isFileRoot (last : Bytes) : List Entry → Bool
  | [e] => e.kind ≠ .dir && e.name = last
  | _ => false

/-! ### The places of the roots -/

/-- `Content`: the entries of a root, read in the first round or left for the second one. -/
inductive RootContent
  | tree (id : TreeId)
  | read (entries : List Entry)

/-- `Placement`: where a root goes below the target, and its position in the selection. For a root
that may turn out to be a file, also its last component and the position above. -/
structure Placement where
  rel : RelPath
  pos : Pos
  fileRoot : Option (Bytes × Pos)
  content : RootContent

/-- `Placed`. -/
inductive Placed
  | elsewhere
  | pruned
  | here (placement : Placement)

/-- `not_a_directory`. -/
def notADirectory (subtree : List Bytes) : CoreError :=
  .usage s!"{subtree} is not a directory in this snapshot"

namespace Repository

variable (repo : Repository)

/-- The loop of `place_inside` along the rest of the subtree: the directory at its end, or `none` if
the path leads nowhere. `unread` is the directory reached, whose entries are not read yet. -/
def descendInto (subtree : List Bytes) : List Bytes → List Entry → Option TreeId →
    Except CoreError (Option RootContent)
  | [], entries, unread => .ok (some (unread.elim (.read entries) .tree))
  | wanted :: rest, entries, unread => do
    let entries ← match unread with
      | some id => repo.readTreeChain id
      | none => .ok entries
    match entries.find? fun e => e.name = wanted with
    | none => return none
    | some entry =>
      if entry.kind ≠ .dir ∨ entry.subtree = TreeId.zero then throw (notADirectory subtree)
      descendInto subtree rest entries (some entry.subtree)

/-- `place_inside`: the subtree is the root or lies in it. -/
def placeInside (root : Root) (names subtree : List Bytes) (select : Select) :
    Except CoreError Placed := do
  let entries ← repo.readTreeChain root.tree
  if names.getLast?.any fun last => isFileRoot last entries then throw (notADirectory subtree)
  match ← repo.descendInto subtree (subtree.drop names.length) entries none with
  | none => return .elsewhere
  | some content =>
    match select.walk select.start subtree with
    | none => return .pruned
    | some pos =>
      if Select.worthWalking pos then return .here ⟨[], pos, none, content⟩
      else return .pruned

/-- `place_root`. -/
def placeRoot (root : Root) (subtree : List Bytes) (select : Select) : Except CoreError Placed := do
  let names ← locatorComponents root.path
  -- one of the two paths has to begin with the other one
  if names.take subtree.length ≠ subtree.take names.length then return .elsewhere
  if subtree.length < names.length then
    match select.walk select.start names.dropLast with
    | none => return .pruned
    | some parent =>
      match select.child parent (names.getLastD []) with
      | none => return .pruned
      | some pos =>
        if Select.worthWalking pos then
          return .here ⟨names.drop subtree.length, pos, some (names.getLastD [], parent),
            .tree root.tree⟩
        else return .pruned
  else repo.placeInside root names subtree select

/-- The loop of `place_roots`: the places, and whether the subtree was met. -/
def placeEach (subtree : List Bytes) (select : Select) :
    List Root → Except CoreError (List Placement × Bool)
  | [] => .ok ([], false)
  | root :: roots => do
    let placed ← repo.placeRoot root subtree select
    let (placements, found) ← placeEach subtree select roots
    match placed with
    | .elsewhere => return (placements, found)
    | .pruned => return (placements, true)
    | .here placement => return (placement :: placements, true)

/-- `place_roots`. -/
def placeRoots (roots : List Root) (subtree : List Bytes) (select : Select) :
    Except CoreError (List Placement) := do
  let (placements, found) ← repo.placeEach subtree select roots
  if subtree ≠ [] ∧ ¬found then throw (.usage s!"{subtree} is not in this snapshot")
  return placements

/-- `open_placement`: the place, the position and the entries of a root. The entry of a root that is
a file goes one level up. -/
def openPlacement (placement : Placement) (select : Select) :
    Except CoreError (RelPath × Pos × List Entry × Select) := do
  let entries ← match placement.content with
    | .tree id => repo.readTreeChain id
    | .read entries => .ok entries
  let (rel, pos) := match placement.fileRoot with
    | some (name, parent) =>
      if isFileRoot name entries then (placement.rel.dropLast, parent)
      else (placement.rel, placement.pos)
    | none => (placement.rel, placement.pos)
  return (rel, pos, entries, select.credit pos)

end Repository

/-! ### Directories that are still to be made -/

/-- `PendingDir`: a directory on the way from the target to what is restored now. `make` are its
components below the level above; `handle` says that it is open, and whether for reading. -/
structure PendingDir where
  make : List Bytes
  path : RelPath
  loosen : Bool
  handle : Option Bool := none
  prepared : Bool := false
  loosened : Option ℕ := none
  createFailed : Bool := false

namespace PendingDir

/-- `PendingDir::base`. -/
def base (rel : RelPath) : PendingDir := { make := rel, path := rel, loosen := false }

/-- `PendingDir::child`. -/
def child (location : RelPath) (entry : Entry) : PendingDir :=
  { make := [entry.name], path := location ++ [entry.name], loosen := modeWillBeApplied entry }

/-- The part of `ensure` before the first write into the directory. -/
def prepare (l : PendingDir) (forWriting : Bool) (t : Target) : PendingDir × Target :=
  if forWriting && !l.prepared then
    if l.loosen then
      let (loosened, t) := t.makeOwnerWritable l.path (l.handle.getD false)
      ({ l with prepared := true, loosened }, t)
    else ({ l with prepared := true }, t)
  else (l, t)

end PendingDir

/-- The path of the deepest level. -/
def levelPath : List PendingDir → RelPath
  | [] => []
  | l :: _ => l.path

/-- Whether the deepest level could be opened for reading. -/
def levelReadable (t : Target) : List PendingDir → Bool
  | [] => t.permits [] 0o400
  | l :: _ => l.handle.getD false

/-- `ensure` of the deepest level; the levels above are made first, and are written into. -/
def ensure (forWriting : Bool) : List PendingDir → Target →
    Except CoreError Unit × List PendingDir × Target
  | [], t => (.ok (), [], t)
  | l :: ls, t =>
    match l.handle with
    | some _ =>
      let (l, t) := l.prepare forWriting t
      (.ok (), l :: ls, t)
    | none =>
      match ensure true ls t with
      | (.error e, ls, t) => (.error e, l :: ls, t)
      | (.ok (), ls, t) =>
        match Target.createDirs (levelPath ls) (levelReadable t ls) l.make t with
        | (.error e, t) => (.error e, { l with createFailed := true } :: ls, t)
        | (.ok readable, t) =>
          let (l, t) := { l with handle := some readable, createFailed := false }.prepare
            forWriting t
          (.ok (), l :: ls, t)

/-! ### The walk -/

/-- `RestoreSummary`. An error is kept with the path it is reported for. -/
structure RestoreSummary where
  files : ℕ := 0
  dirs : ℕ := 0
  symlinks : ℕ := 0
  errors : List (RelPath × CoreError) := []
  unmatchedIncludes : List String := []
  deriving DecidableEq, Repr

/-- `Walk`, with the target and the open levels, the deepest one first. -/
structure RestoreWalk where
  target : Target
  levels : List PendingDir
  index : ReloadableIndex
  summary : RestoreSummary
  hardlinks : Dict (ℕ × ℕ) RelPath
  select : Select

/-- The `(dev, inode)` by which a file of several names is known. -/
def Entry.hardlinkKey (e : Entry) : Option (ℕ × ℕ) :=
  if e.nlink.getD 0 > 1 ∧ e.inode.getD 0 ≠ 0 then some (e.dev.getD 0, e.inode.getD 0) else none

namespace RestoreWalk

variable (w : RestoreWalk)

/-- `create` of the deepest level. -/
def create : Except CoreError Unit × RestoreWalk :=
  let (result, levels, target) := ensure false w.levels w.target
  (result, { w with levels, target })

/-- `open` of the deepest level. -/
def open_ : Except CoreError Unit × RestoreWalk :=
  let (result, levels, target) := ensure true w.levels w.target
  (result, { w with levels, target })

/-- The deepest level is made right away where it is selected itself. -/
def createIf (selected : Bool) : Except CoreError Unit × RestoreWalk :=
  if selected then w.create else (.ok (), w)

/-- The deepest level is opened before something that is selected is restored into it. -/
def openIf (selected : Bool) : Except CoreError Unit × RestoreWalk :=
  if selected then w.open_ else (.ok (), w)

/-- An error of one entry, which ends nothing else. -/
def note (path : RelPath) (e : CoreError) : RestoreWalk :=
  { w with summary.errors := w.summary.errors ++ [(path, e)] }

/-- A level below the deepest one. -/
def push (l : PendingDir) : RestoreWalk := { w with levels := l :: w.levels }

/-- Back to the level above. -/
def pop : RestoreWalk := { w with levels := w.levels.tail }

variable (env : IndexLoads) (repo : Repository)

/-- `restore_file`: the content of a file, in a temporary file in the directory. -/
def restoreFile (dir : RelPath) (node : Entry) : Except CoreError Bytes × RestoreWalk :=
  match w.target.refuseInTheWay dir node.name with
  | .error e => (.error e, w)
  | .ok () =>
    match w.index.resolveChunks env repo node.chunks node.content with
    | (.error e, index) => (.error e, { w with index })
    | (.ok ids, index) =>
      if !w.target.mayWrite dir then
        (.error (.io (dir ++ [node.name]) "permission denied"), { w with index })
      else
        let w := { w with target := w.target.touch dir }
        match index.readChunks env repo ids with
        | (.error e, index) => (.error e, { w with index })
        | (.ok bytes, index) =>
          if bytes.length ≠ node.size then
            (.error (.corrupt (.other "<restored path>")
              s!"restored {bytes.length} bytes but snapshot says {node.size}"), { w with index })
          else (.ok bytes, { w with index })

/-- `temp_file_mode`. -/
def tempFileMode (dir : RelPath) (node : Entry) : ℕ :=
  if modeWillBeApplied node then 0o600
  else match w.target.node (dir ++ [node.name]) with
    | some (.file _ _ m) => m.mode &&& 0o777
    | _ => 0o666

/-- The second half of `restore_file_entry`: a file of its own. -/
def restoreCopy (dir : RelPath) (node : Entry) : Except CoreError Unit × RestoreWalk :=
  let path := dir ++ [node.name]
  let mode := w.target.umask (w.tempFileMode dir node)
  match w.restoreFile env repo dir node with
  | (.error e, w) => (.error e, w)
  | (.ok bytes, w) =>
    let ((applied, owner), m) :=
      TargetMeta.applyMeta { mode } w.target.asRoot path node
    match w.target.commit dir node.name (.file w.target.nextIno bytes m) with
    | (.error e, target) => (.error e, { w with target })
    | (.ok (), target) =>
      (applied.bind fun _ => owner, { w with
        target := { target with nextIno := target.nextIno + 1 }
        summary.files := w.summary.files + 1
        hardlinks := node.hardlinkKey.elim w.hardlinks fun key => w.hardlinks.insert key path })

/-- `restore_file_entry`: a further name of a file that was restored before is linked to it, and
copied where it cannot be linked. -/
def restoreFileEntry (dir : RelPath) (node : Entry) : Except CoreError Unit × RestoreWalk :=
  match node.hardlinkKey.bind w.hardlinks.lookup with
  | none => w.restoreCopy env repo dir node
  | some first =>
    match w.target.linkToFirst first dir node.name with
    | (.ok (), target) =>
      (.ok (), { w with target, summary.files := w.summary.files + 1 })
    | (.error _, target) => { w with target }.restoreCopy env repo dir node

/-- `restore_symlink`. -/
def restoreSymlink (dir : RelPath) (node : Entry) : Except CoreError Unit × RestoreWalk :=
  match w.target.replaceWithSymlink dir node.name node.target with
  | (.error e, target) => (.error e, { w with target })
  | (.ok (), target) =>
    let (result, target) := target.applySymlinkMeta (dir ++ [node.name]) node
    (result, { w with target, summary.symlinks := w.summary.symlinks + 1 })

/-- Restore the content of a directory entry, below the deepest level. -/
abbrev RestoreDir := RestoreWalk → Entry → Pos → Except CoreError Unit × RestoreWalk

/-- The cases of `restore_node`. `dir` is missing below the last level of directories. -/
def restoreKind (dir : Option RestoreDir) (node : Entry) (pos : Pos) :
    Except CoreError Unit × RestoreWalk :=
  match node.kind with
  | .dir =>
    if node.subtree = TreeId.zero then
      (.error (.corrupt (.other "<restored path>") "unknown node type 1"), w)
    else match dir with
      | none =>
        (.error (.corrupt (.other "<restored path>") (s!"tree nesting deeper than " ++
          s!"{maxTreeDepth} levels (corrupt or hostile repository)")), w)
      | some dir => dir w node pos
  | .file =>
    match w.open_ with
    | (.error e, w) => (.error e, w)
    | (.ok (), w) => w.restoreFileEntry env repo (levelPath w.levels) node
  | .symlink =>
    match w.open_ with
    | (.error e, w) => (.error e, w)
    | (.ok (), w) => w.restoreSymlink (levelPath w.levels) node

/-- `restore_node`: the error of an entry goes into the summary. -/
def restoreNode (dir : Option RestoreDir) (node : Entry) (pos : Pos) : RestoreWalk :=
  let path := levelPath w.levels ++ [node.name]
  match w.restoreKind env repo dir node pos with
  | (.ok (), w) => w
  | (.error e, w) => w.note path e

/-- The loop over the entries of a directory. `after` is what follows each entry that was
restored. -/
def restoreEntries (dir : Option RestoreDir)
    (after : RestoreWalk → Except CoreError Unit × RestoreWalk) (pos : Pos) :
    List Entry → RestoreWalk → Except CoreError Unit × RestoreWalk
  | [], w => (.ok (), w)
  | entry :: entries, w =>
    match validateChildName entry.name with
    | .error e => restoreEntries dir after pos entries (w.note (levelPath w.levels) e)
    | .ok () =>
      match w.select.visit pos entry with
      | (none, select) => restoreEntries dir after pos entries { w with select }
      | (some child, select) =>
        let w := { w with select }
        match w.openIf child.selected with
        | (.error e, w) => (.error e, w)
        | (.ok (), w) =>
          match after (w.restoreNode env repo dir entry child) with
          | (.error e, w) => (.error e, w)
          | (.ok (), w) => restoreEntries dir after pos entries w

/-- The end of `restore_dir`: a directory that was made is counted and gets its metadata. -/
def finishDir (node : Entry) : Except CoreError Unit × RestoreWalk :=
  match w.levels with
  | [] => (.ok (), w)
  | l :: _ =>
    let w := { w with summary.dirs := w.summary.dirs + 1 }
    if node.xattrs.isNone ∧ node.mtimeNs.isNone then (.ok (), w)
    else match w.target.metaHandle l.path (l.handle.getD false) with
      | .error e => (.error e, w)
      | .ok () =>
        let ((applied, owner), m) :=
          (w.target.dirMeta l.path).applyMeta w.target.asRoot l.path node
        -- the mode that was loosened is put back where the recorded one was not applied
        let m := match applied, l.loosened with
          | .error _, some mode => { m with mode }
          | _, _ => m
        (applied.bind fun _ => owner, { w with target := w.target.put l.path (.dir m) })

/-- The body of `restore_dir`, with the directory as the deepest level. -/
def restoreContent (dir : Option RestoreDir) (node : Entry) (pos : Pos) :
    Except CoreError Unit × RestoreWalk :=
  match w.createIf pos.selected with
  | (.error e, w) => (.error e, w)
  | (.ok (), w) =>
    match repo.readTreeChain node.subtree with
    | .error e => (.error e, w)
    | .ok children =>
      match restoreEntries env repo dir (fun w => (.ok (), w)) pos children w with
      | (.error e, w) => (.error e, w)
      | (.ok (), w) =>
        if (w.levels.head?.bind PendingDir.handle).isNone then (.ok (), w)
        else match w.open_ with
          | (.error e, w) => (.error e, w)
          | (.ok (), w) => w.finishDir node

/-- `restore_dir`. -/
def restoreDirWith (dir : Option RestoreDir) : RestoreDir := fun w node pos =>
  let (result, w) :=
    (w.push (.child (levelPath w.levels) node)).restoreContent env repo dir node pos
  (result, w.pop)

/-- `restore_dir`, with the levels of directories that may lie below. -/
def restoreDirs : ℕ → Option RestoreDir
  | 0 => none
  | levels + 1 => some (restoreDirWith env repo (restoreDirs levels))

/-- A place that could not be made deeper down fails the whole restore. -/
def recheckBase (w : RestoreWalk) : Except CoreError Unit × RestoreWalk :=
  if w.levels.head?.any PendingDir.createFailed then w.create else (.ok (), w)

/-- One root. -/
def restorePlacement (placement : Placement) : Except CoreError Unit × RestoreWalk :=
  match repo.openPlacement placement w.select with
  | .error e => (.error e, w)
  | .ok (rel, pos, entries, select) =>
    let w := { w with select, levels := [.base rel] }
    match w.createIf pos.selected with
    | (.error e, w) => (.error e, w)
    | (.ok (), w) =>
      let (result, w) :=
        restoreEntries env repo (restoreDirs env repo (maxTreeDepth - 1)) recheckBase pos entries w
      (result, w.pop)

/-- The roots one after the other. -/
def restorePlacements : List Placement → RestoreWalk → Except CoreError Unit × RestoreWalk
  | [], w => (.ok (), w)
  | placement :: placements, w =>
    match w.restorePlacement env repo placement with
    | (.error e, w) => (.error e, w)
    | (.ok (), w) => restorePlacements placements w

end RestoreWalk

/-- `Repository::restore` onto an open target. -/
def Repository.restore (repo : Repository) (env : IndexLoads) (key : SnapshotKey) (target : Target)
    (opts : RestoreOptions) : Except CoreError RestoreSummary × Target :=
  match (do
    let select ← Select.new opts
    let snapshot ← repo.readSnapshot key
    let placements ← repo.placeRoots snapshot.roots opts.subtree select
    let index ← env.load 0
    return (select, placements, index)) with
  | .error e => (.error e, target)
  | .ok (select, placements, index) =>
    match RestoreWalk.restorePlacements env repo placements
        ⟨target, [], ⟨index, 1, 0⟩, {}, ∅, select⟩ with
    | (.error e, w) => (.error e, w.target)
    | (.ok (), w) =>
      (.ok { w.summary with unmatchedIncludes := w.select.unmatched }, w.target)

end Kist
