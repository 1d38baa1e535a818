import Kist.FsMeta
import Kist.Storage

/-!
# The target of a restore

The file system below the target directory, the operations of `kist-core::dirhandle` on it, and the
application of metadata in `kist-core::fsmeta`. No other program changes the target and no operation
fails without a reason: an object in the way, or the permissions of a directory.

A directory that was opened is known by its path, since nothing moves it. The temporary file in
which the content of a file is gathered has no name here: it appears under its final name when it is
renamed.
-/

namespace Kist

/-! ### Objects -/

/-- The metadata of a file or of a directory. `owner` is missing for the restoring user, `mtimeNs`
for a time that nobody set. -/
structure TargetMeta where
  mode : ℕ
  owner : Option (ℕ × ℕ) := none
  mtimeNs : Option ℤ := none
  xattrs : List (Bytes × Bytes) := []
  deriving DecidableEq, Repr

/-- An object below the target. Names of one file share its inode number. -/
inductive TargetNode
  | dir (m : TargetMeta)
  | file (ino : ℕ) (content : Bytes) (m : TargetMeta)
  | symlink (ino : ℕ) (target : Bytes) (owner : Option (ℕ × ℕ)) (mtimeNs : Option ℤ)
  | special (ino : ℕ)
  deriving DecidableEq, Repr

namespace TargetNode

/-- `Kind`. -/
inductive Kind
  | file
  | dir
  | symlink
  | special
  deriving DecidableEq, Repr

/-- The kind of an object. -/
def kind : TargetNode → Kind
  | .dir _ => .dir
  | .file .. => .file
  | .symlink .. => .symlink
  | .special _ => .special

/-- The inode number of an object that may have several names. -/
def ino? : TargetNode → Option ℕ
  | .dir _ => none
  | .file ino .. | .symlink ino .. | .special ino => some ino

end TargetNode

/-- The target: its objects by their paths, whether root restores, what the umask leaves of a mode,
and the next inode number. The empty path is the target itself. -/
structure Target where
  node : RelPath → Option TargetNode
  asRoot : Bool
  umask : ℕ → ℕ
  nextIno : ℕ

/-! ### Metadata -/

/-- What a file or directory shows of an entry: `apply_xattrs` sets the attributes of users. -/
def TargetMeta.setXattrs (m : TargetMeta) (xattrs : Option (List (Bytes × Bytes))) : TargetMeta :=
  (xattrs.getD []).foldl (fun m x =>
    if "user.".toUTF8.toList <+: x.1 then
      { m with xattrs := m.xattrs.filter (fun y => y.1 ≠ x.1) ++ [x] }
    else m) m

/-- The id that means no change to `chown`. -/
def unchangedId : ℕ := 2 ^ 32 - 1

/-- `owner_error`, for the ids that `check_owner_ids` refuses. -/
def checkOwnerIds (path : RelPath) (owner : ℕ × ℕ) : Except CoreError Unit :=
  if owner.1 = unchangedId ∨ owner.2 = unchangedId then
    .error (.io path s!"restoring owner uid {owner.1} gid {owner.2}")
  else .ok ()

/-- `apply_owner`, and whether the owner was set. -/
def TargetMeta.applyOwner (m : TargetMeta) (asRoot : Bool) (path : RelPath)
    (owner : Option (ℕ × ℕ)) : Except CoreError Bool × TargetMeta :=
  match asRoot, owner with
  | true, some owner =>
    match checkOwnerIds path owner with
    | .error e => (.error e, m)
    | .ok () => (.ok true, { m with owner := some owner })
  | _, _ => (.ok false, m)

/-- `mode_to_apply`: without its owner a file of root loses the set-id bits. -/
def modeToApply (recorded : ℕ) (asRoot ownerRestored : Bool) : ℕ :=
  if asRoot && !ownerRestored then recorded &&& (2 ^ 32 - 1 ^^^ 0o6000) else recorded

/-- `apply_mode`; a mode of 0 comes from a platform without one. -/
def TargetMeta.applyMode (m : TargetMeta) (mode : ℕ) : TargetMeta :=
  if mode = 0 then m else { m with mode := mode &&& 0o7777 }

/-- `apply_meta`: what became of the attributes, times and mode, and of the owner. -/
def TargetMeta.applyMeta (m : TargetMeta) (asRoot : Bool) (path : RelPath) (entry : Entry) :
    (Except CoreError Unit × Except CoreError Unit) × TargetMeta :=
  let m := m.setXattrs entry.xattrs
  let (owner, m) := m.applyOwner asRoot path (ownerOfEntry entry)
  let restored := match owner with
    | .ok restored => restored
    | .error _ => false
  let m := match entry.mtimeNs with
    | none => m
    | some mtimeNs =>
      { m with mtimeNs := some mtimeNs }.applyMode
        (modeToApply (metaOfEntry entry).mode asRoot restored)
  ((.ok (), owner.map fun _ => ()), m)

/-- `mode_will_be_applied`. -/
def modeWillBeApplied (entry : Entry) : Bool :=
  entry.mtimeNs.isSome && entry.mode.any fun mode => mode ≠ 0

namespace Target

variable (t : Target)

/-- The user may use a directory in this way. -/
def permits (dir : RelPath) (bits : ℕ) : Bool :=
  t.asRoot || match t.node dir with
    | some (.dir m) => m.mode &&& bits = bits
    | _ => false

/-- To look something up in a directory. -/
def maySearch (dir : RelPath) : Bool := t.permits dir 0o100

/-- To change the names in a directory. -/
def mayWrite (dir : RelPath) : Bool := t.permits dir 0o300

/-- An object at a path, new or in the place of another one. -/
def put (path : RelPath) (node : TargetNode) : Target :=
  { t with node := Function.update t.node path (some node) }

/-- The names in a directory have changed, and with them its time. -/
def touch (dir : RelPath) : Target :=
  match t.node dir with
  | some (.dir m) => t.put dir (.dir { m with mtimeNs := none })
  | _ => t

/-- The metadata of a directory. -/
def dirMeta (dir : RelPath) : TargetMeta :=
  match t.node dir with
  | some (.dir m) => m
  | _ => ⟨0, none, none, []⟩

/-! ### Directories -/

/-- `open_child_dir`, and whether the directory could be opened for reading. -/
def openChildDir (dir : RelPath) (name : Bytes) : Except CoreError Bool :=
  let path := dir ++ [name]
  if !t.maySearch dir then .error (.io path "permission denied")
  else match t.node path with
    | some (.dir _) => .ok (t.permits path 0o400)
    | some (.symlink ..) =>
      .error (.restoreBlocked path "a symlink is in the way of a restored directory")
    | some _ =>
      .error (.restoreBlocked path "a non-directory is in the way of a restored directory")
    | none => .error (.io path "no such file or directory")

/-- `create_child_dir`: make the directory unless its name is taken, and open it. -/
def createChildDir (dir : RelPath) (name : Bytes) : Except CoreError Bool × Target :=
  let path := dir ++ [name]
  if !t.maySearch dir then (.error (.io path "permission denied"), t)
  else match t.node path with
    | some _ => (t.openChildDir dir name, t)
    | none =>
      if !t.mayWrite dir then (.error (.io path "permission denied"), t)
      else
        let t := (t.put path (.dir { mode := t.umask 0o777 })).touch dir
        (t.openChildDir dir name, t)

/-- `create_dirs`, one component after the other; `readable` is about the directory itself. -/
def createDirs (dir : RelPath) (readable : Bool) : List Bytes → Target →
    Except CoreError Bool × Target
  | [], t => (.ok readable, t)
  | name :: names, t =>
    match t.createChildDir dir name with
    | (.error e, t) => (.error e, t)
    | (.ok readable, t) => createDirs (dir ++ [name]) readable names t

/-- `open_rel`: whether the directory at this path opens. -/
def openRel : RelPath → List Bytes → Except CoreError Unit
  | _, [] => .ok ()
  | dir, name :: names => do
    let _ ← t.openChildDir dir name
    openRel (dir ++ [name]) names

/-- `meta_handle`: the handle itself, or the directory opened once more. -/
def metaHandle (dir : RelPath) (readable : Bool) : Except CoreError Unit :=
  if readable || t.permits dir 0o500 then .ok () else .error (.io dir "permission denied")

/-- `make_owner_writable`: the mode before, if the owner may write only from now on. -/
def makeOwnerWritable (dir : RelPath) (readable : Bool) : Option ℕ × Target :=
  let m := t.dirMeta dir
  if m.mode &&& 0o200 ≠ 0 then (none, t)
  else match t.metaHandle dir readable with
    | .error _ => (none, t)
    | .ok () => (some m.mode, t.put dir (.dir { m with mode := (m.mode &&& 0o7777) ||| 0o200 }))

/-! ### Files and symlinks -/

/-- `kind_of`. -/
def kindOf (dir : RelPath) (name : Bytes) : Except CoreError (Option TargetNode.Kind) :=
  if !t.maySearch dir then .error (.io (dir ++ [name]) "permission denied")
  else .ok ((t.node (dir ++ [name])).map TargetNode.kind)

/-- `refuse_in_the_way`: only a file may lie where a file goes. -/
def refuseInTheWay (dir : RelPath) (name : Bytes) : Except CoreError Unit := do
  match ← t.kindOf dir name with
  | none | some .file => .ok ()
  | some .symlink =>
    .error (.restoreBlocked (dir ++ [name]) "a symlink is in the way of a restored file")
  | some .dir =>
    .error (.restoreBlocked (dir ++ [name]) "a directory is in the way of a restored file")
  | some .special =>
    .error (.restoreBlocked (dir ++ [name]) "a special file is in the way of a restored file")

/-- `TempPath::commit`: the object takes its final name. -/
def commit (dir : RelPath) (name : Bytes) (node : TargetNode) : Except CoreError Unit × Target :=
  match t.refuseInTheWay dir name with
  | .error e => (.error e, t)
  | .ok () =>
    if !t.mayWrite dir then (.error (.io (dir ++ [name]) "permission denied"), t)
    else (.ok (), (t.put (dir ++ [name]) node).touch dir)

/-- `link_over`: a link where something lies already. -/
def linkOver (dir : RelPath) (name : Bytes) (node : TargetNode) : Except CoreError Unit × Target :=
  if ((t.node (dir ++ [name])).bind TargetNode.ino?) = node.ino? then (.ok (), t)
  else t.commit dir name node

/-- `link_to_first`: a further name of a file that was restored at `first`. -/
def linkToFirst (first : RelPath) (dir : RelPath) (name : Bytes) :
    Except CoreError Unit × Target :=
  let path := dir ++ [name]
  if first = [] then (.error (.corrupt (.other "<restored path>") "empty hard-link source"), t)
  else match t.openRel [] first.dropLast with
    | .error e => (.error e, t)
    | .ok () =>
      if !t.maySearch first.dropLast then (.error (.io path "permission denied"), t)
      else match t.node first with
        | none => (.error (.io path "no such file or directory"), t)
        | some node =>
          if node.ino? = none then (.error (.io path "operation not permitted"), t)
          else if (t.node path).isSome then t.linkOver dir name node
          else if !t.mayWrite dir then (.error (.io path "permission denied"), t)
          else (.ok (), (t.put path node).touch dir)

/-- `create_symlink`. -/
def createSymlink (dir : RelPath) (name target : Bytes) : Except CoreError Unit × Target :=
  let path := dir ++ [name]
  if 0 ∈ target then (.error (.io path "invalid argument"), t)
  else if !t.mayWrite dir then (.error (.io path "permission denied"), t)
  else
    (.ok (), { (t.put path (.symlink t.nextIno target none none)).touch dir with
      nextIno := t.nextIno + 1 })

/-- `replace_with_symlink`: a file or symlink that lies there is removed first. -/
def replaceWithSymlink (dir : RelPath) (name target : Bytes) : Except CoreError Unit × Target :=
  let path := dir ++ [name]
  match t.kindOf dir name with
  | .ok (some .dir) =>
    (.error (.restoreBlocked path "a directory is in the way of a symlink"), t)
  | .ok (some _) =>
    if !t.mayWrite dir then (.error (.io path "permission denied"), t)
    else
      { t with node := Function.update t.node path none }.touch dir |>.createSymlink dir name target
  | _ => t.createSymlink dir name target

/-- `apply_symlink_meta`: the owner, which only root sets, and the time of the link itself. -/
def applySymlinkMeta (path : RelPath) (entry : Entry) : Except CoreError Unit × Target :=
  match t.node path with
  | some (.symlink ino target owner mtimeNs) =>
    let recorded := if t.asRoot then ownerOfEntry entry else none
    let result := recorded.elim (.ok ()) (checkOwnerIds path)
    let owner := if result = .ok () then recorded.or owner else owner
    (result, t.put path (.symlink ino target owner (entry.mtimeNs.or mtimeNs)))
  | _ => (.ok (), t)

end Target
end Kist
