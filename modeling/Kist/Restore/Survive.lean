import Mathlib
import Kist.Backup.Outcome
import Kist.Restore.DirCalls
import Kist.Restore.FileCalls

/-!
# What lay under a name when its restore failed

An entry is restored over what lies under its name, and any one call fails.

* `Survives`: the old object is there, or the restored one, and nothing else has changed.
* `LosesOld`, `LeavesTemp`, `HalfSet`: the three kinds of restores after which this is not so.
-/

namespace Kist

open Std.Do

set_option mvcgen.warning false

namespace Target

variable {t t' : Target} {dir : RelPath} {name : Bytes} {n : TargetNode}

/-! ### Removed names -/

/-- A name fewer in a directory leaves its permissions as they are. -/
theorem permits_remove_touch (t : Target) (dir : RelPath) (name : Bytes) (bits : ℕ) :
    ((t.remove (dir ++ [name])).touch dir).permits dir bits = t.permits dir bits := by
  have hnode : (t.remove (dir ++ [name])).node dir = t.node dir :=
    t.node_remove_of_ne (concat_ne_dir dir name).symm
  unfold touch permits
  rw [hnode]
  cases hd : t.node dir with
  | none => simp [hd, remove]
  | some d =>
    cases d with
    | dir m => simp [put, remove]
    | file | symlink | special => simp [hd, remove]

/-- What is no directory can be removed from a directory that may be written. -/
theorem removeFile_of_mayWrite (hw : t.mayWrite dir = true) (hn : t.node (dir ++ [name]) = some n)
    (hkind : n.kind ≠ .dir) :
    t.removeFile dir name = .ok ((), (t.remove (dir ++ [name])).touch dir) := by
  cases n with
  | dir m => exact absurd rfl hkind
  | file | symlink | special => simp [removeFile, hw, hn]

theorem mayWrite_of_removeFile (h : t.removeFile dir name = .ok ((), t')) :
    t.mayWrite dir = true := by
  simp only [removeFile] at h
  grind

/-- Where a name was removed, a symlink to anything that is a name can be made. -/
theorem symlink_removed_error {target : Bytes} {e : CoreError} (hw : t.mayWrite dir = true)
    (h : ((t.remove (dir ++ [name])).touch dir).symlink dir name target = .error e) :
    0 ∈ target := by
  by_contra hno
  have hw' : ((t.remove (dir ++ [name])).touch dir).mayWrite dir = true :=
    (permits_remove_touch t dir name _).trans hw
  simp [symlink, hno, hw', node_touch] at h

theorem kindOf_ok {k : Option TargetNode.Kind} (h : t.kindOf dir name = .ok k) :
    (t.node (dir ++ [name])).map TargetNode.kind = k := by
  unfold kindOf at h
  split_ifs at h
  exact Except.ok.inj h

end Target

namespace Calls

variable {faults : CallFaults} {env : IndexLoads} {repo : Repository} {path : RelPath}
  {s₀ : CallState}

/-! ### Symlinks -/

/-- The object under the name was removed, and the symlink was not made. -/
structure LosesOld (faults : CallFaults) (t : Target) (calls : ℕ) (dir : RelPath)
    (node : Entry) : Prop where
  old : ∃ n, t.node (dir ++ [node.name]) = some n ∧ n.kind ≠ .dir
  write : t.mayWrite dir
  fails : faults.fault = some (calls + 2) ∨
    0 ∈ node.target ∧ faults.fault ≠ some calls ∧ faults.fault ≠ some (calls + 1)

theorem replaceWithSymlink_spec {dir : RelPath} {node : Entry} :
    ⦃fun s => ⌜s = s₀⌝⦄ replaceWithSymlink faults dir node.name node.target
    ⦃post⟨fun _ s => ⌜s₀.target.OnlyAt s.target dir (dir ++ [node.name]) ∧
        (∀ n, s₀.target.node (dir ++ [node.name]) = some n → n.kind ≠ .dir) ∧
        ∃ ino, s.target.node (dir ++ [node.name]) = some (.symlink ino node.target none none)⌝,
      fun _ s => ⌜s₀.target.Intact s.target dir ∨ LosesOld faults s₀.target s₀.calls
        dir node⌝⟩⦄ := by
  mvcgen [replaceWithSymlink]
  case vc1.post.success.h_1 s hs k _ _ s₁ h₁ =>
    subst hs
    obtain ⟨-, -, rfl⟩ := h₁
    exact .inl (.refl _)
  case vc2.post.success.h_2.post.success.post.success s hs k _ kind hkind hk s₁ h₁ _ s₂ h₂ _ s₃ =>
    subst hs
    obtain ⟨-, hkindOf, rfl⟩ := h₁
    obtain ⟨-, t, hremove, rfl⟩ := h₂
    obtain ⟨hnone, honly⟩ := Target.removeFile_ok hremove
    rintro - ⟨t', hsymlink, rfl⟩
    have hadded := Target.symlink_ok hsymlink
    refine ⟨honly.trans hadded.only, fun n hn hd => hkind ?_, _, hadded.at_path⟩
    have hkinds := Target.kindOf_ok hkindOf
    rw [hn, Except.ok.inj hk, Option.map_some, hd] at hkinds
    exact (Option.some.inj hkinds).symm
  -- the old object is gone and the link could not be made
  case vc3.post.success.h_2.post.success.post.except.handle
      s hs k _ kind hkind hk s₁ h₁ _ s₂ h₂ e s₃ =>
    subst hs
    obtain ⟨h0, hkindOf, rfl⟩ := h₁
    obtain ⟨h1, t, hremove, rfl⟩ := h₂
    rintro hfail rfl
    have hkinds := Target.kindOf_ok hkindOf
    rw [Except.ok.inj hk] at hkinds
    obtain ⟨n, hn, hnk⟩ := Option.map_eq_some_iff.1 hkinds
    have hdir : n.kind ≠ .dir := fun hd => hkind (hnk.symm.trans hd)
    have hw := Target.mayWrite_of_removeFile hremove
    refine .inr ⟨⟨n, hn, hdir⟩, hw, hfail.imp id fun hsymlink => ⟨?_, h0, h1⟩⟩
    have hremoved : t = (s.target.remove (dir ++ [node.name])).touch dir := by
      have := (Target.removeFile_of_mayWrite hw hn hdir).symm.trans hremove
      exact (Prod.mk.inj (Except.ok.inj this)).2.symm
    exact Target.symlink_removed_error hw (hremoved ▸ hsymlink)
  case vc4.post.success.h_2.post.except.handle s hs k _ kind hkind hk s₁ h₁ e s₂ =>
    subst hs
    obtain ⟨-, -, rfl⟩ := h₁
    rintro - rfl
    exact .inl (.refl _)
  -- nothing was there, so nothing is removed
  case vc5.post.success.h_3.post.success s hs k _ r hdir hnone hk s₁ h₁ _ s₂ =>
    subst hs
    obtain ⟨-, -, rfl⟩ := h₁
    rintro - ⟨t, hsymlink, rfl⟩
    have hadded := Target.symlink_ok hsymlink
    exact ⟨hadded.only, fun n hn => absurd (hadded.free.symm.trans hn) nofun, _, hadded.at_path⟩
  case vc6.post.success.h_3.post.except.handle s hs k _ r hdir hnone hk s₁ h₁ e s₂ =>
    subst hs
    obtain ⟨-, -, rfl⟩ := h₁
    rintro - rfl
    exact .inl (.refl _)
  case vc7.post.except.handle.post.success s hs e _ s₁ h₁ _ s₂ =>
    subst hs
    obtain ⟨-, rfl⟩ := h₁
    rintro - ⟨t, hsymlink, rfl⟩
    have hadded := Target.symlink_ok hsymlink
    exact ⟨hadded.only, fun n hn => absurd (hadded.free.symm.trans hn) nofun, _, hadded.at_path⟩
  case vc8.post.except.handle.post.except.handle s hs e _ s₁ h₁ e' s₂ =>
    subst hs
    obtain ⟨-, rfl⟩ := h₁
    rintro - rfl
    exact .inl (.refl _)

/-- A symlink has come to the path. -/
structure SymlinkAt (t t' : Target) (dir path : RelPath) (target : Bytes) (owner : Option (ℕ × ℕ)) :
    Prop where
  at_path : ∃ ino mtimeNs, t'.node path = some (.symlink ino target owner mtimeNs)
  only : t.OnlyAt t' dir path

theorem SymlinkAt.chown {t t' : Target} {dir : RelPath} {target : Bytes} {owner : Option (ℕ × ℕ)}
    (h : SymlinkAt t t' dir path target owner) (owner' : ℕ × ℕ) :
    SymlinkAt t (t'.chownSymlink path owner') dir path target (some owner') := by
  obtain ⟨⟨ino, mtimeNs, hat⟩, honly⟩ := h
  have hput : t'.chownSymlink path owner' =
    t'.put path (.symlink ino target (some owner') mtimeNs) := by
    simp [Target.chownSymlink, hat]
  rw [hput]
  exact ⟨⟨ino, mtimeNs, t'.node_put_self path _⟩, honly.trans (t'.onlyAt_put dir path _)⟩

theorem SymlinkAt.time {t t' : Target} {dir : RelPath} {target : Bytes} {owner : Option (ℕ × ℕ)}
    (h : SymlinkAt t t' dir path target owner) (mtimeNs : ℤ) :
    SymlinkAt t (t'.timeSymlink path mtimeNs) dir path target owner := by
  obtain ⟨⟨ino, mtimeNs', hat⟩, honly⟩ := h
  have hput : t'.timeSymlink path mtimeNs =
    t'.put path (.symlink ino target owner (some mtimeNs)) := by
    simp [Target.timeSymlink, hat]
  rw [hput]
  exact ⟨⟨ino, some mtimeNs, t'.node_put_self path _⟩, honly.trans (t'.onlyAt_put dir path _)⟩

/-- The symlink stays, and its owner is set unless an error is reported. -/
@[spec]
theorem applySymlinkMeta_spec {node : Entry} :
    ⦃fun s => ⌜s = s₀⌝⦄ applySymlinkMeta faults path node
    ⦃post⟨fun _ s => ⌜∀ (t : Target) dir target, SymlinkAt t s₀.target dir path target none →
        SymlinkAt t s.target dir path target
          (if s₀.target.asRoot then ownerOfEntry node else none)⌝,
      fun _ s => ⌜∀ (t : Target) dir target, SymlinkAt t s₀.target dir path target none →
        SymlinkAt t s.target dir path target none⌝⟩⦄ := by
  cases howner : ownerOfEntry node
  all_goals mvcgen [applySymlinkMeta] with grind [SymlinkAt.chown, SymlinkAt.time]

/-- The symlink takes the place of what is no directory. An error is reported for it where only its
owner could not be set. -/
theorem restoreSymlink_spec {dir : RelPath} {node : Entry} :
    ⦃fun s => ⌜s = s₀⌝⦄ restoreSymlink faults dir node
    ⦃post⟨fun _ s => ⌜¬s₀.target.IsDir (dir ++ [node.name]) ∧
        SymlinkAt s₀.target s.target dir (dir ++ [node.name]) node.target
          (if s₀.target.asRoot then ownerOfEntry node else none)⌝,
      fun _ s => ⌜s₀.target.Intact s.target dir ∨
        ¬s₀.target.IsDir (dir ++ [node.name]) ∧
          SymlinkAt s₀.target s.target dir (dir ++ [node.name]) node.target none ∨
        LosesOld faults s₀.target s₀.calls dir node⌝⟩⦄ := by
  mvcgen [restoreSymlink, replaceWithSymlink_spec]
  case vc1.post.success.post.success s hs _ s₁ h₁ _ _ s₂ =>
    subst hs
    obtain ⟨honly, hdir, ino, hat⟩ := h₁
    intro hmeta
    refine ⟨fun ⟨m, hm⟩ => hdir _ hm rfl, ?_⟩
    rw [← honly.user.asRoot]
    exact hmeta s.target dir node.target ⟨⟨ino, none, hat⟩, honly⟩
  case vc2.post.success.post.except.handle s hs _ s₁ h₁ _ e s₂ =>
    subst hs
    obtain ⟨honly, hdir, ino, hat⟩ := h₁
    intro hmeta
    exact .inr (.inl ⟨fun ⟨m, hm⟩ => hdir _ hm rfl,
      hmeta s.target dir node.target ⟨⟨ino, none, hat⟩, honly⟩⟩)
  case vc3.post.except.handle s hs e s₁ =>
    subst hs
    exact fun h => h.imp_right .inr

/-- What the calls for one entry report and leave. -/
def outcome {α : Type} (x : Calls α) (w : RestoreWalk) : Except CoreError α × Target :=
  match x { toRestoreWalk := w, calls := 0 } with
  | .ok a s => (.ok a, s.target)
  | .error e s => (.error e, s.target)

/-- An object of this kind is not replaced by the entry. -/
def InTheWay : NodeType → TargetNode.Kind → Prop
  | .file, kind => kind ≠ .file
  | .symlink, kind => kind = .dir
  | .dir, kind => kind ≠ .dir

/-- What an entry restores to at its path. The metadata of a new object is there unless an error is
reported, the time of a symlink apart, and so is the mode of a new directory where one is recorded;
the metadata of a directory that was there is set as recorded. -/
inductive Complete (keys : RepoKeys) (w : RestoreWalk) (dir : RelPath) (node : Entry)
    (result : Except CoreError Unit × Target) : Prop
  | copy (kind : node.kind = .file) (ino : ℕ) (bytes : Bytes) (m : TargetMeta)
      (at_path : result.2.node (dir ++ [node.name]) = some (.file ino bytes m))
      (holds : node.fileContent.Holds keys bytes)
      (applied : result.1 = .ok () →
        m = (TargetMeta.applyMeta { mode := w.target.umask (w.tempFileMode dir node) }
          w.target.asRoot (dir ++ [node.name]) node).2)
  | link (kind : node.kind = .file) (first : RelPath) (n : TargetNode)
      (restored : node.hardlinkKey.bind w.hardlinks.lookup = some first)
      (at_first : w.target.node first = some n)
      (at_path : result.2.node (dir ++ [node.name]) = some n)
  | symlink (kind : node.kind = .symlink) (ino : ℕ) (owner : Option (ℕ × ℕ)) (mtimeNs : Option ℤ)
      (at_path : result.2.node (dir ++ [node.name]) = some (.symlink ino node.target owner mtimeNs))
      (applied : result.1 = .ok () → owner = if w.target.asRoot then ownerOfEntry node else none)
  | made (kind : node.kind = .dir) (free : w.target.node (dir ++ [node.name]) = none)
      (m : TargetMeta)
      (at_path : result.2.node (dir ++ [node.name]) = some (.dir m))
      (applied : result.1 = .ok () →
        ∃ mode, m = TargetMeta.restored { mode } w.target.asRoot node)
  | dir (kind : node.kind = .dir) (m : TargetMeta)
      (old : w.target.node (dir ++ [node.name]) = some (.dir m))
      (at_path : result.2.node (dir ++ [node.name]) =
        some (.dir (m.restored w.target.asRoot node)))

/-- The old object is there, or what the entry restores to; what is in the way is there; and nothing
else has changed, so that no temporary name is left. -/
structure Survives (keys : RepoKeys) (w : RestoreWalk) (dir : RelPath) (node : Entry)
    (result : Except CoreError Unit × Target) : Prop where
  kept : result.2.node (dir ++ [node.name]) = w.target.node (dir ++ [node.name]) ∨
    Complete keys w dir node result
  blocked : ∀ n, w.target.node (dir ++ [node.name]) = some n → InTheWay node.kind n.kind →
    result.2.node (dir ++ [node.name]) = some n
  others : ∀ q, q ≠ dir ++ [node.name] → w.target.Kept result.2 dir q

theorem Survives.intact {keys : RepoKeys} {w : RestoreWalk} {dir : RelPath} {node : Entry}
    {result : Except CoreError Unit × Target} (h : w.target.Intact result.2 dir) :
    Survives keys w dir node result where
  kept := .inl (h.node _).eq_concat
  blocked _ hn _ := (h.node _).eq_concat.trans hn
  others _ _ := h.node _

theorem Survives.same {keys : RepoKeys} {w : RestoreWalk} {dir : RelPath} {node : Entry}
    {result : Except CoreError Unit × Target} (h : result.2 = w.target) :
    Survives keys w dir node result :=
  .intact (h ▸ .refl _)

end Calls
end Kist
