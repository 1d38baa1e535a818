import Kist.Restore.Walk

/-!
# The calls of a restore

What `kist-core::restore` does for one entry, call by call: the temporary names under which a file
or a further name of a file is made, the calls of `kist-core::dirhandle`, and what is undone after a
call that failed. `Restore.Walk` has the same functions without temporary names, where a call fails
for a reason found in the target only; here any one call may fail.

A write goes to the temporary file at once, since nothing looks at it before the rename.
-/

namespace Kist

/-! ### Calls -/

/-- What befalls the calls made for one entry, which are counted from 0: the call that fails, if one
does, how much was written if it is a write, and the random digits that a call draws. -/
structure CallFaults where
  fault : Option ℕ
  written : ℕ
  random : ℕ → Bytes

/-- A restore, and the number of calls made for the entry. -/
structure CallState extends RestoreWalk where
  calls : ℕ

/-- A part of a restore: what it has changed stays when it fails. -/
abbrev Calls := EStateM CoreError CallState

namespace Target

variable (t : Target)

/-- No object lies at a path. -/
def remove (path : RelPath) : Target := { t with node := Function.update t.node path none }

/-- `fstatat`: what tells whether two names are names of one object. -/
def identity (path : RelPath) : Option (RelPath ⊕ ℕ) :=
  (t.node path).map fun n => n.ino?.elim (.inl path) .inr

/-- `create_new_file`: an empty file under a name that is free. -/
def createNewFile (dir : RelPath) (name : Bytes) (mode : ℕ) : Except CoreError (Unit × Target) :=
  let path := dir ++ [name]
  if !t.mayWrite dir then .error (.io path "permission denied")
  else if (t.node path).isSome then .error (.io path "file exists")
  else .ok ((), { (t.put path (.file t.nextIno [] { mode := t.umask mode })).touch dir with
    nextIno := t.nextIno + 1 })

/-- A write at the end of a file. -/
def append (path : RelPath) (bytes : Bytes) : Target :=
  match t.node path with
  | some (.file ino content m) => t.put path (.file ino (content ++ bytes) m)
  | _ => t

/-- The metadata of a file. -/
def fileMeta (path : RelPath) : TargetMeta :=
  match t.node path with
  | some (.file _ _ m) => m
  | _ => ⟨0, none, none, []⟩

/-- The metadata of a file is changed through its handle. -/
def setMeta (path : RelPath) (m : TargetMeta) : Target :=
  match t.node path with
  | some (.file ino content _) => t.put path (.file ino content m)
  | _ => t

/-- `rename`: nothing happens where both are names of one object. -/
def rename (dir : RelPath) (source dest : Bytes) : Except CoreError (Unit × Target) :=
  let path := dir ++ [dest]
  if !t.mayWrite dir then .error (.io path "permission denied")
  else match t.node (dir ++ [source]) with
    | none => .error (.io path "no such file or directory")
    | some node =>
      match t.node path with
      | some (.dir _) => .error (.io path "is a directory")
      | _ =>
        if t.identity (dir ++ [source]) = t.identity path then .ok ((), t)
        else .ok ((), ((t.remove (dir ++ [source])).put path node).touch dir)

/-- `remove_file`. -/
def removeFile (dir : RelPath) (name : Bytes) : Except CoreError (Unit × Target) :=
  let path := dir ++ [name]
  if !t.mayWrite dir then .error (.io path "permission denied")
  else match t.node path with
    | none => .error (.io path "no such file or directory")
    | some (.dir _) => .error (.io path "is a directory")
    | some _ => .ok ((), (t.remove path).touch dir)

/-- `hard_link`: whether the new name was free. -/
def hardLink (first dir : RelPath) (name : Bytes) : Except CoreError (Bool × Target) :=
  let path := dir ++ [name]
  if !t.maySearch first.dropLast then .error (.io path "permission denied")
  else match t.node first with
    | none => .error (.io path "no such file or directory")
    | some node =>
      if !t.maySearch dir then .error (.io path "permission denied")
      else if (t.node path).isSome then .ok (false, t)
      else if !t.mayWrite dir then .error (.io path "permission denied")
      else if node.ino? = none then .error (.io path "operation not permitted")
      else .ok (true, (t.put path node).touch dir)

/-- `symlink`. -/
def symlink (dir : RelPath) (name target : Bytes) : Except CoreError (Unit × Target) :=
  let path := dir ++ [name]
  if 0 ∈ target then .error (.io path "invalid argument")
  else if !t.mayWrite dir then .error (.io path "permission denied")
  else if (t.node path).isSome then .error (.io path "file exists")
  else .ok ((), { (t.put path (.symlink t.nextIno target none none)).touch dir with
    nextIno := t.nextIno + 1 })

/-- `mkdirat`: whether the name was free. -/
def makeDir (dir : RelPath) (name : Bytes) : Except CoreError (Bool × Target) :=
  let path := dir ++ [name]
  if !t.maySearch dir then .error (.io path "permission denied")
  else if (t.node path).isSome then .ok (false, t)
  else if !t.mayWrite dir then .error (.io path "permission denied")
  else .ok (true, (t.put path (.dir { mode := t.umask 0o777 })).touch dir)

/-- The metadata of a directory is changed through its handle. -/
def setDirMeta (path : RelPath) (m : TargetMeta) : Target :=
  match t.node path with
  | some (.dir _) => t.put path (.dir m)
  | _ => t

/-- The owner of a symlink is set. -/
def chownSymlink (path : RelPath) (owner : ℕ × ℕ) : Target :=
  match t.node path with
  | some (.symlink ino target _ mtimeNs) => t.put path (.symlink ino target (some owner) mtimeNs)
  | _ => t

/-- The time of a symlink is set. -/
def timeSymlink (path : RelPath) (mtimeNs : ℤ) : Target :=
  match t.node path with
  | some (.symlink ino target owner _) => t.put path (.symlink ino target owner (some mtimeNs))
  | _ => t

end Target

namespace Calls

variable (faults : CallFaults) {α : Type}

/-- One call, which is refused by the target or carried out. -/
def perform (path : RelPath) (op : Target → Except CoreError (α × Target)) : Calls α := do
  let s ← get
  set { s with calls := s.calls + 1 }
  if faults.fault = some s.calls then throw (.io path "input/output error")
  else match op s.target with
    | .error e => throw e
    | .ok (a, target) =>
      modify fun s => { s with target }
      return a

/-- A call that only looks at the target. -/
def ask (path : RelPath) (op : Target → Except CoreError α) : Calls α :=
  perform faults path fun t => (op t).map fun a => (a, t)

/-- A call that the target never refuses. -/
def alter (path : RelPath) (op : Target → Target) : Calls Unit :=
  perform faults path fun t => .ok ((), op t)

/-- The result of a part, whose failure ends nothing else. -/
def attempt (x : Calls α) : Calls (Except CoreError α) :=
  tryCatch (do return .ok (← x)) fun e => return .error e

/-- `Drop` of `TempPath`: a temporary name is removed when what follows fails. -/
def dropping (temp : RelPath) (x : Calls α) : Calls α :=
  tryCatch x fun e => do
    modify fun s => { s with target := s.target.remove temp }
    throw e

/-- A part of the restore that reads the repository. -/
def reading (x : ReloadableIndex → Except CoreError α × ReloadableIndex) : Calls α := do
  let (result, index) := x (← get).index
  modify fun s => { s with index }
  match result with
  | .error e => throw e
  | .ok a => return a

/-! ### Names -/

/-- `temp_name`. -/
def tempName : Calls Bytes := do
  let s ← get
  set { s with calls := s.calls + 1 }
  if faults.fault = some s.calls then throw (.io [] "no random bytes")
  else return ".kist-restore-".toUTF8.toList ++ faults.random s.calls

/-- `refuse_in_the_way`. -/
def refuseInTheWay (dir : RelPath) (name : Bytes) : Calls Unit :=
  ask faults (dir ++ [name]) fun t => t.refuseInTheWay dir name

/-- `TempPath::commit`. -/
def commit (dir : RelPath) (temp dest : Bytes) : Calls Unit := do
  refuseInTheWay faults dir dest
  perform faults (dir ++ [dest]) fun t => t.rename dir temp dest

/-- `open_rel`. -/
def openRel : RelPath → List Bytes → Calls Unit
  | _, [] => pure ()
  | dir, name :: names => do
    ask faults (dir ++ [name]) fun t => (t.openChildDir dir name).map fun _ => ()
    openRel (dir ++ [name]) names

/-- `same_file`: a name that cannot be looked at is another one. -/
def sameFile (first path : RelPath) : Calls Bool := do
  let a ← attempt (ask faults path fun t => .ok (t.identity first))
  let b ← attempt (ask faults path fun t => .ok (t.identity path))
  match a, b with
  | .ok (some a), .ok (some b) => return a = b
  | _, _ => return false

/-- `link_over`. -/
def linkOver (first dir : RelPath) (name : Bytes) : Calls Unit := do
  if ← sameFile faults first (dir ++ [name]) then return
  else
    let temp ← tempName faults
    if ← perform faults (dir ++ [temp]) fun t => t.hardLink first dir temp then
      dropping (dir ++ [temp]) (commit faults dir temp name)
    else throw (.io (dir ++ [temp]) "file exists")

/-- `link_to_first`. -/
def linkToFirst (first dir : RelPath) (name : Bytes) : Calls Unit := do
  if first = [] then throw (.corrupt (.other "<restored path>") "empty hard-link source")
  else
    openRel faults [] first.dropLast
    if ← perform faults (dir ++ [name]) fun t => t.hardLink first dir name then return
    else linkOver faults first dir name

/-! ### Metadata -/

/-- `apply_xattrs`: the attributes set before the one that could not be set stay. -/
def applyXattrs (path : RelPath) : List (Bytes × Bytes) → TargetMeta →
    Calls (Except CoreError Unit × TargetMeta)
  | [], m => return (.ok (), m)
  | x :: xs, m =>
    if "user.".toUTF8.toList <+: x.1 then do
      match ← attempt (alter faults path id) with
      | .error e => return (.error e, m)
      | .ok () =>
        applyXattrs path xs { m with xattrs := m.xattrs.filter (fun y => y.1 ≠ x.1) ++ [x] }
    else applyXattrs path xs m

/-- `apply_owner`, and whether the owner was set. -/
def applyOwner (path : RelPath) (owner : Option (ℕ × ℕ)) (m : TargetMeta) :
    Calls (Except CoreError Bool × TargetMeta) := do
  match (← get).target.asRoot, owner with
  | true, some owner =>
    match checkOwnerIds path owner with
    | .error e => return (.error e, m)
    | .ok () =>
      match ← attempt (alter faults path id) with
      | .error e => return (.error e, m)
      | .ok () => return (.ok true, { m with owner := some owner })
  | _, _ => return (.ok false, m)

/-- `apply_mode`; a mode of 0 comes from a platform without one. -/
def applyMode (path : RelPath) (mode : ℕ) (m : TargetMeta) :
    Calls (Except CoreError Unit × TargetMeta) := do
  if mode = 0 then return (.ok (), m)
  else match ← attempt (alter faults path id) with
    | .error e => return (.error e, m)
    | .ok () => return (.ok (), m.applyMode mode)

/-- `apply`: the times, and then the mode. -/
def applyTimesAndMode (path : RelPath) (mtimeNs : ℤ) (mode : ℕ) (m : TargetMeta) :
    Calls (Except CoreError Unit × TargetMeta) := do
  match ← attempt (alter faults path id) with
  | .error e => return (.error e, m)
  | .ok () => applyMode faults path mode { m with mtimeNs := some mtimeNs }

/-- `apply_meta`: what became of the attributes, times and mode, and of the owner. -/
def applyMeta (path : RelPath) (entry : Entry) (m : TargetMeta) :
    Calls ((Except CoreError Unit × Except CoreError Unit) × TargetMeta) := do
  match ← applyXattrs faults path (entry.xattrs.getD []) m with
  | (.error e, m) => return ((.error e, .ok ()), m)
  | (.ok (), m) =>
    let (owner, m) ← applyOwner faults path (ownerOfEntry entry) m
    let restored := match owner with
      | .ok restored => restored
      | .error _ => false
    let (applied, m) ← match entry.mtimeNs with
      | none => pure (.ok (), m)
      | some mtimeNs =>
        applyTimesAndMode faults path mtimeNs
          (modeToApply (metaOfEntry entry).mode (← get).target.asRoot restored) m
    return ((applied, owner.map fun _ => ()), m)

/-- The first error of the two results of `apply_meta`. -/
def both (applied owner : Except CoreError Unit) : Calls Unit :=
  match applied, owner with
  | .error e, _ => throw e
  | .ok (), .error e => throw e
  | .ok (), .ok () => return

/-! ### Files -/

variable (env : IndexLoads) (repo : Repository)

/-- A write at the end of the temporary file; one that fails has written a part. -/
def write (path temp : RelPath) (data : Bytes) : Calls Unit := do
  let s ← get
  if faults.fault = some s.calls then
    set { s with calls := s.calls + 1, target := s.target.append temp (data.take faults.written) }
    throw (.io path "input/output error")
  else set { s with calls := s.calls + 1, target := s.target.append temp data }

/-- The loop of `restore_file`: each chunk is read and written. The result is the number of
bytes. -/
def writeChunks (path temp : RelPath) : List ChunkId → ℕ → Calls ℕ
  | [], written => return written
  | id :: ids, written => do
    let data ← reading fun index => index.readChunk env repo id
    write faults path temp data
    writeChunks path temp ids (written + data.length)

/-- `file_mode`: the permissions of a file that lies at the name. -/
def fileMode (dir : RelPath) (name : Bytes) : Calls (Option ℕ) :=
  ask faults (dir ++ [name]) fun t =>
    if !t.maySearch dir then .error (.io (dir ++ [name]) "permission denied")
    else match t.node (dir ++ [name]) with
      | some (.file _ _ m) => .ok (some (m.mode &&& 0o777))
      | _ => .ok none

/-- `temp_file_mode`. -/
def tempFileMode (dir : RelPath) (node : Entry) : Calls ℕ := do
  if modeWillBeApplied node then return 0o600
  else return (← fileMode faults dir node.name).getD 0o666

/-- The content of the temporary file of `restore_file`. -/
def writeContent (path temp : RelPath) (ids : List ChunkId) (node : Entry) : Calls Unit := do
  let written ← writeChunks faults env repo path temp ids 0
  ask faults path fun _ => .ok ()
  if written = node.size then return
  else throw (.corrupt (.other "<restored path>")
    s!"restored {written} bytes but snapshot says {node.size}")

/-- `restore_file`: the name of the temporary file that holds the content. -/
def restoreFile (dir : RelPath) (node : Entry) : Calls Bytes := do
  refuseInTheWay faults dir node.name
  let ids ← reading fun index => index.resolveChunks env repo node.chunks node.content
  let mode ← tempFileMode faults dir node
  let temp ← tempName faults
  perform faults (dir ++ [temp]) fun t => t.createNewFile dir temp mode
  dropping (dir ++ [temp])
    (writeContent faults env repo (dir ++ [node.name]) (dir ++ [temp]) ids node)
  return temp

/-- The temporary file gets its metadata and its final name. -/
def finishFile (dir : RelPath) (temp : Bytes) (node : Entry) :
    Calls (Except CoreError Unit × Except CoreError Unit) := do
  let m := (← get).target.fileMeta (dir ++ [temp])
  let (result, m) ← applyMeta faults (dir ++ [node.name]) node m
  modify fun s => { s with target := s.target.setMeta (dir ++ [temp]) m }
  commit faults dir temp node.name
  return result

/-- The second half of `restore_file_entry`: a file of its own. -/
def restoreCopy (dir : RelPath) (node : Entry) : Calls Unit := do
  let temp ← restoreFile faults env repo dir node
  let (applied, owner) ← dropping (dir ++ [temp]) (finishFile faults dir temp node)
  modify fun s => { s with
    summary.files := s.summary.files + 1
    hardlinks := node.hardlinkKey.elim s.hardlinks fun key =>
      s.hardlinks.insert key (dir ++ [node.name]) }
  both applied owner

/-- `restore_file_entry`. -/
def restoreFileEntry (dir : RelPath) (node : Entry) : Calls Unit := do
  match node.hardlinkKey.bind (← get).hardlinks.lookup with
  | none => restoreCopy faults env repo dir node
  | some first =>
    match ← attempt (linkToFirst faults first dir node.name) with
    | .ok () => modify fun s => { s with summary.files := s.summary.files + 1 }
    | .error _ => restoreCopy faults env repo dir node

/-! ### Symlinks -/

/-- `replace_with_symlink`. -/
def replaceWithSymlink (dir : RelPath) (name target : Bytes) : Calls Unit := do
  let path := dir ++ [name]
  match ← attempt (ask faults path fun t => t.kindOf dir name) with
  | .ok (some .dir) =>
    throw (.restoreBlocked path "a directory is in the way of a symlink")
  | .ok (some _) => perform faults path fun t => t.removeFile dir name
  | _ => pure ()
  perform faults path fun t => t.symlink dir name target

/-- `apply_symlink_meta`: only the failure to set the owner counts. -/
def applySymlinkMeta (path : RelPath) (entry : Entry) : Calls Unit := do
  let result ← match (← get).target.asRoot, ownerOfEntry entry with
    | true, some owner =>
      match checkOwnerIds path owner with
      | .error e => pure (.error e)
      | .ok () => attempt (alter faults path fun t => t.chownSymlink path owner)
    | _, _ => pure (.ok ())
  match entry.mtimeNs with
  | none => pure ()
  | some mtimeNs =>
    let _ ← attempt (alter faults path fun t => t.timeSymlink path mtimeNs)
  match result with
  | .error e => throw e
  | .ok () => return

/-- `restore_symlink`. -/
def restoreSymlink (dir : RelPath) (node : Entry) : Calls Unit := do
  replaceWithSymlink faults dir node.name node.target
  modify fun s => { s with summary.symlinks := s.summary.symlinks + 1 }
  applySymlinkMeta faults (dir ++ [node.name]) node

/-! ### Directories -/

/-- `meta_handle`: the handle itself, or the directory opened once more. -/
def metaHandle (path : RelPath) (readable : Bool) : Calls Unit :=
  if readable then return else ask faults path fun t => t.metaHandle path readable

/-- `make_owner_writable`: the mode before, if the owner may write only from now on. -/
def makeOwnerWritable (path : RelPath) (readable : Bool) : Calls (Option ℕ) := do
  ask faults path fun _ => .ok ()
  let m := (← get).target.dirMeta path
  if m.mode &&& 0o200 ≠ 0 then return none
  else
    let chmod ← attempt do
      metaHandle faults path readable
      alter faults path fun t => t.setDirMeta path { m with mode := (m.mode &&& 0o7777) ||| 0o200 }
    match chmod with
    | .error _ => return none
    | .ok () => return some m.mode

/-- `PendingDir::open`: a directory whose mode will be applied may be written until then. -/
def openForWriting (path : RelPath) (node : Entry) (readable : Bool) : Calls (Option ℕ) :=
  if modeWillBeApplied node then makeOwnerWritable faults path readable else return none

/-- The directory gets its metadata, and where the recorded mode was not applied, the mode it had
before it might be written. -/
def applyDirMeta (path : RelPath) (node : Entry) (readable : Bool) (loosened : Option ℕ) :
    Calls Unit := do
  metaHandle faults path readable
  let ((applied, owner), m) ← applyMeta faults path node ((← get).target.dirMeta path)
  modify fun s => { s with target := s.target.setDirMeta path m }
  match applied, loosened with
  | .error _, some mode =>
    let _ ← attempt (alter faults path fun t => t.setDirMeta path { m with mode })
  | _, _ => pure ()
  both applied owner

/-- The beginning of `restore_dir`: the directory is there and open, and its tree was read. The
result is whether it may be read. -/
def enterDir (dir : RelPath) (node : Entry) : Calls Bool := do
  let path := dir ++ [node.name]
  let _ ← perform faults path fun t => t.makeDir dir node.name
  let readable ← ask faults path fun t => t.openChildDir dir node.name
  let _ ← reading fun index => (repo.readTreeChain node.subtree, index)
  return readable

/-- The end of `restore_dir`, after the children. -/
def finishDir (path : RelPath) (node : Entry) (readable : Bool) : Calls Unit := do
  let loosened ← openForWriting faults path node readable
  modify fun s => { s with summary.dirs := s.summary.dirs + 1 }
  if node.xattrs.isNone ∧ node.mtimeNs.isNone then return
  else applyDirMeta faults path node readable loosened

/-- What `restore_dir` does with the directory itself. Its children are entries of their own. -/
def restoreDirItself (dir : RelPath) (node : Entry) : Calls Unit := do
  let readable ← enterDir faults repo dir node
  finishDir faults (dir ++ [node.name]) node readable

/-- `restore_node`, in a directory that is open. -/
def restoreNode (dir : RelPath) (node : Entry) : Calls Unit :=
  match node.kind with
  | .dir =>
    if node.subtree = TreeId.zero then
      throw (.corrupt (.other "<restored path>") "unknown node type 1")
    else restoreDirItself faults repo dir node
  | .file => restoreFileEntry faults env repo dir node
  | .symlink => restoreSymlink faults dir node

end Calls
end Kist
