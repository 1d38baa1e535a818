import Kist.Restore.Walk

/-!
# The dry run of a restore

`Repository::plan_restore` of `kist-core::restore`: a traversal of its own that writes nothing,
counts what the restore would count and reports the nodes that it would create, by their paths below
the target.
-/

namespace Kist

/-- `Planned`. -/
inductive PlannedNode
  | dir
  | file
  | symlink
  deriving DecidableEq, Repr

/-- `PlanLevel`. The place of a root is no directory of the snapshot, and is not reported. -/
structure PlanLevel where
  path : RelPath
  snapshotDir : Bool
  created : Bool
  deriving DecidableEq, Repr

/-- The levels and the reports after the deepest level was opened, the levels above it first. -/
def openLevels : List PlanLevel → List (RelPath × PlannedNode) →
    List PlanLevel × List (RelPath × PlannedNode)
  | [], log => ([], log)
  | l :: ls, log =>
    let (ls, log) := openLevels ls log
    if l.created then (l :: ls, log)
    else
      ({ l with created := true } :: ls, if l.snapshotDir then log ++ [(l.path, .dir)] else log)

/-- `Plan`: the levels, the deepest one first, and what `on_node` was told. -/
structure Plan where
  select : Select
  summary : RestoreSummary
  onNode : List (RelPath × PlannedNode)
  levels : List PlanLevel

namespace Plan

variable (p : Plan)

/-- `Plan::open`. -/
def open_ : Plan :=
  let (levels, onNode) := openLevels p.levels p.onNode
  { p with levels, onNode }

/-- The deepest level counts as made where it is selected itself, or something in it is. -/
def openIf (selected : Bool) : Plan := if selected then p.open_ else p

/-- An error of one entry, which ends nothing else. -/
def note (path : RelPath) (e : CoreError) : Plan :=
  { p with summary.errors := p.summary.errors ++ [(path, e)] }

/-- A level below the deepest one. -/
def push (l : PlanLevel) : Plan := { p with levels := l :: p.levels }

/-- Back to the level above. -/
def pop : Plan := { p with levels := p.levels.tail }

/-- A file or a symlink is reported and counted. -/
def leaf (path : RelPath) (kind : PlannedNode) : Plan :=
  let p := p.open_
  let p := match kind with
    | .symlink => { p with summary.symlinks := p.summary.symlinks + 1 }
    | _ => { p with summary.files := p.summary.files + 1 }
  { p with onNode := p.onNode ++ [(path, kind)] }

variable (repo : Repository)

/-- Plan a directory entry at a path, below the deepest level. -/
abbrev PlanDir := Plan → Entry → RelPath → Pos → Except CoreError Unit × Plan

/-- The cases of `plan_node`. `dir` is missing below the last level of directories. -/
def planKind (dir : Option PlanDir) (node : Entry) (path : RelPath) (pos : Pos) :
    Except CoreError Unit × Plan :=
  match node.kind with
  | .dir =>
    if node.subtree = TreeId.zero then
      (.error (.corrupt (.other "<restored path>") "unknown node type 1"), p)
    else match dir with
      | none =>
        (.error (.corrupt (.other "<restored path>") (s!"tree nesting deeper than " ++
          s!"{maxTreeDepth} levels (corrupt or hostile repository)")), p)
      | some dir => dir p node path pos
  | .file => (.ok (), p.leaf path .file)
  | .symlink => (.ok (), p.leaf path .symlink)

/-- `plan_node`. -/
def planNode (dir : Option PlanDir) (node : Entry) (path : RelPath) (pos : Pos) : Plan :=
  match p.planKind dir node path pos with
  | (.ok (), p) => p
  | (.error e, p) => p.note path e

/-- The loop over the entries of the directory at a path. -/
def planEntries (dir : Option PlanDir) (path : RelPath) (pos : Pos) : List Entry → Plan → Plan
  | [], p => p
  | entry :: entries, p =>
    match validateChildName entry.name with
    | .error e => planEntries dir path pos entries (p.note path e)
    | .ok () =>
      match p.select.visit pos entry with
      | (none, select) => planEntries dir path pos entries { p with select }
      | (some child, select) =>
        let p := ({ p with select } : Plan).openIf child.selected
        planEntries dir path pos entries (p.planNode dir entry (path ++ [entry.name]) child)

/-- `plan_dir`, with `plan_children`: a directory is counted at its end, if it was made. -/
def planDirWith (dir : Option PlanDir) : PlanDir := fun p node path pos =>
  let p := (p.push ⟨path, true, false⟩).openIf pos.selected
  match repo.readTreeChain node.subtree with
  | .error e => (.error e, p.pop)
  | .ok children =>
    let p := planEntries dir path pos children p
    let created := p.levels.head?.any PlanLevel.created
    let p := p.pop
    (.ok (), if created then { p with summary.dirs := p.summary.dirs + 1 } else p)

/-- `plan_dir`, with the levels of directories that may lie below. -/
def planDirs : ℕ → Option PlanDir
  | 0 => none
  | levels + 1 => some (planDirWith repo (planDirs levels))

/-- One root. -/
def planPlacement (placement : Placement) : Except CoreError Unit × Plan :=
  match repo.openPlacement placement p.select with
  | .error e => (.error e, p)
  | .ok (rel, pos, entries, select) =>
    let p := ({ p with select }.push ⟨rel, false, false⟩).openIf pos.selected
    (.ok (), (planEntries (planDirs repo (maxTreeDepth - 1)) rel pos entries p).pop)

/-- The roots one after the other. -/
def planPlacements : List Placement → Plan → Except CoreError Unit × Plan
  | [], p => (.ok (), p)
  | placement :: placements, p =>
    match p.planPlacement repo placement with
    | (.error e, p) => (.error e, p)
    | (.ok (), p) => planPlacements placements p

end Plan

/-- `Repository::plan_restore`, with what it reported. -/
def Repository.planRestore (repo : Repository) (key : SnapshotKey) (opts : RestoreOptions) :
    Except CoreError RestoreSummary × List (RelPath × PlannedNode) :=
  match (do
    let select ← Select.new opts
    let snapshot ← repo.readSnapshot key
    let placements ← repo.placeRoots snapshot.roots opts.subtree select
    return (select, placements)) with
  | .error e => (.error e, [])
  | .ok (select, placements) =>
    match Plan.planPlacements repo placements ⟨select, {}, [], []⟩ with
    | (.error e, p) => (.error e, p.onNode)
    | (.ok (), p) => (.ok { p.summary with unmatchedIncludes := p.select.unmatched }, p.onNode)

end Kist
