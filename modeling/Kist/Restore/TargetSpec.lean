import Kist.Restore.Target

/-!
# What the operations on a target do

Each operation that succeeds puts one object at one path; everywhere else the target keeps what it
had, but for the metadata of directories.

* `Put`: an object was put at a path.
* `createChildDir_spec`, `commit_spec`, `linkToFirst_spec`, `replaceWithSymlink_spec`: what an
  operation did, and when it succeeds.
-/

namespace Kist

/-- The same object, or a directory before and after. -/
def SameObject (n n' : Option TargetNode) : Prop :=
  n = n' ∨ ∃ m m', n = some (.dir m) ∧ n' = some (.dir m')

theorem SameObject.refl (n : Option TargetNode) : SameObject n n := .inl rfl

theorem SameObject.trans {n n' n'' : Option TargetNode} (h : SameObject n n')
    (h' : SameObject n' n'') : SameObject n n'' := by
  rcases h with rfl | ⟨m, m', rfl, rfl⟩
  · exact h'
  · rcases h' with rfl | ⟨_, m'', _, rfl⟩
    · exact .inr ⟨m, m', rfl, rfl⟩
    · exact .inr ⟨m, m'', rfl, rfl⟩

namespace Target

variable {t t' t'' : Target} {dir path q : RelPath} {name : Bytes} {n : TargetNode}

/-- A directory lies at this path. -/
def IsDir (t : Target) (q : RelPath) : Prop := ∃ m, t.node q = some (.dir m)

/-- A file, a symlink or a special file lies at this path. -/
def IsLeaf (t : Target) (q : RelPath) : Prop := ∃ n, t.node q = some n ∧ n.kind ≠ .dir

/-- The restoring user may do everything in the directory at this path. -/
def Ready (t : Target) (q : RelPath) : Prop :=
  ∃ m, t.node q = some (.dir m) ∧ m.mode &&& 0o700 = 0o700

/-- The umask leaves the owner of a new directory its permissions. -/
def OwnerMask (t : Target) : Prop := t.umask 0o777 &&& 0o700 = 0o700

theorem Ready.isDir (h : t.Ready q) : t.IsDir q := h.imp fun _ h => h.1

theorem IsLeaf.not_isDir (h : t.IsLeaf q) : ¬t.IsDir q := by
  rintro ⟨m, hm⟩
  obtain ⟨n, hn, hkind⟩ := h
  rw [hm] at hn
  cases hn
  exact hkind rfl

theorem isDir_of_kind (h : t.node q = some n) (hkind : n.kind = .dir) : t.IsDir q := by
  cases n with
  | dir m => exact ⟨m, h⟩
  | file | symlink | special => cases hkind

/-! ### Frames -/

/-- Two states of the target of one restore. -/
structure SameUser (t t' : Target) : Prop where
  asRoot : t'.asRoot = t.asRoot
  umask : t'.umask = t.umask

theorem SameUser.refl (t : Target) : t.SameUser t := ⟨rfl, rfl⟩

theorem SameUser.trans (h : t.SameUser t') (h' : t'.SameUser t'') : t.SameUser t'' :=
  ⟨h'.asRoot.trans h.asRoot, h'.umask.trans h.umask⟩

/-- Nothing but the metadata of directories has changed, and what the user may do in one is not
less. -/
structure Same (t t' : Target) : Prop where
  user : t.SameUser t'
  node : ∀ q, SameObject (t.node q) (t'.node q)
  ready : ∀ q, t.Ready q → t'.Ready q

/-- An object was put at a path. -/
structure Put (t t' : Target) (path : RelPath) (n : TargetNode) : Prop where
  user : t.SameUser t'
  at_path : t'.node path = some n
  node : ∀ q, q ≠ path → SameObject (t.node q) (t'.node q)
  ready : ∀ q, q ≠ path → t.Ready q → t'.Ready q

theorem Same.refl (t : Target) : t.Same t := ⟨.refl t, fun _ => .refl _, fun _ => id⟩

theorem Same.trans (h : t.Same t') (h' : t'.Same t'') : t.Same t'' :=
  ⟨h.user.trans h'.user, fun q => (h.node q).trans (h'.node q),
    fun q hq => h'.ready q (h.ready q hq)⟩

theorem Same.put (h : t.Same t') (h' : t'.Put t'' path n) : t.Put t'' path n :=
  ⟨h.user.trans h'.user, h'.at_path, fun q hq => (h.node q).trans (h'.node q hq),
    fun q hq hr => h'.ready q hq (h.ready q hr)⟩

theorem Put.put (h : t.Put t' path n) {n' : TargetNode} (h' : t'.Put t'' path n') :
    t.Put t'' path n' :=
  ⟨h.user.trans h'.user, h'.at_path, fun q hq => (h.node q hq).trans (h'.node q hq),
    fun q hq hr => h'.ready q hq (h.ready q hq hr)⟩

@[simp] theorem node_put_self (t : Target) (path : RelPath) (n : TargetNode) :
    (t.put path n).node path = some n := Function.update_self ..

theorem node_put_of_ne (t : Target) (n : TargetNode) (h : q ≠ path) :
    (t.put path n).node q = t.node q := Function.update_of_ne h ..

theorem put_put (t : Target) (path : RelPath) (n : TargetNode) : t.Put (t.put path n) path n where
  user := ⟨rfl, rfl⟩
  at_path := t.node_put_self path n
  node q hq := by
    rw [t.node_put_of_ne n hq]
    exact .refl _
  ready q hq := fun ⟨m, hm, hmode⟩ => ⟨m, (t.node_put_of_ne n hq).trans hm, hmode⟩

/-- The metadata of a directory that the user may use as before. -/
theorem same_put_dir {m m' : TargetMeta} (hm : t.node dir = some (.dir m))
    (hmode : m.mode &&& 0o700 = 0o700 → m'.mode &&& 0o700 = 0o700) :
    t.Same (t.put dir (.dir m')) where
  user := ⟨rfl, rfl⟩
  node q := by
    by_cases hq : q = dir
    · rw [hq, hm, node_put_self]
      exact .inr ⟨m, m', rfl, rfl⟩
    · rw [t.node_put_of_ne _ hq]
      exact .refl _
  ready q := by
    rintro ⟨m₀, hm₀, hmode₀⟩
    by_cases hq : q = dir
    · rw [hq, hm] at hm₀
      cases hm₀
      exact ⟨m', by rw [hq, node_put_self], hmode hmode₀⟩
    · exact ⟨m₀, by rw [t.node_put_of_ne _ hq, hm₀], hmode₀⟩

theorem same_touch (t : Target) (dir : RelPath) : t.Same (t.touch dir) := by
  unfold touch
  split
  · next m hm => exact same_put_dir hm id
  · exact .refl t

/-- A path below a directory is not the directory. -/
theorem concat_ne_dir (dir : RelPath) (name : Bytes) : dir ++ [name] ≠ dir := fun h => by
  have := congrArg List.length h
  simp at this

/-- The time of the directory changes with the names in it. -/
theorem put_touch (t : Target) (dir : RelPath) (name : Bytes) (n : TargetNode) :
    t.Put ((t.put (dir ++ [name]) n).touch dir) (dir ++ [name]) n := by
  have hput := t.put_put (dir ++ [name]) n
  have hsame := (t.put (dir ++ [name]) n).same_touch dir
  refine ⟨hput.user.trans hsame.user, ?_, fun q hq => (hput.node q hq).trans (hsame.node q),
    fun q hq hr => hsame.ready q (hput.ready q hq hr)⟩
  unfold touch
  split
  · rw [node_put_of_ne _ _ (concat_ne_dir dir name)]
    exact hput.at_path
  · exact hput.at_path

theorem isDir_congr (h : SameObject (t.node q) (t'.node q)) : t'.IsDir q ↔ t.IsDir q := by
  rcases h with h | ⟨m, m', hm, hm'⟩
  · rw [IsDir, IsDir, h]
  · exact iff_of_true ⟨m', hm'⟩ ⟨m, hm⟩

theorem leaf_congr (h : SameObject (t.node q) (t'.node q)) (hn : n.kind ≠ .dir) :
    t'.node q = some n ↔ t.node q = some n := by
  rcases h with h | ⟨m, m', hm, hm'⟩
  · rw [h]
  · rw [hm, hm']
    constructor <;> (intro h; cases h; exact absurd rfl hn)

theorem isLeaf_congr (h : SameObject (t.node q) (t'.node q)) : t'.IsLeaf q ↔ t.IsLeaf q := by
  constructor <;> rintro ⟨n, hn, hkind⟩
  · exact ⟨n, (leaf_congr h hkind).1 hn, hkind⟩
  · exact ⟨n, (leaf_congr h hkind).2 hn, hkind⟩

theorem none_congr (h : SameObject (t.node q) (t'.node q)) :
    t'.node q = none ↔ t.node q = none := by
  rcases h with h | ⟨m, m', hm, hm'⟩
  · rw [h]
  · rw [hm, hm']
    exact iff_of_false (nofun) (nofun)

/-! ### Permissions -/

theorem Ready.permits (h : t.Ready dir) {bits : ℕ} (hbits : 0o700 &&& bits = bits) :
    t.permits dir bits = true := by
  obtain ⟨m, hm, hmode⟩ := h
  have : m.mode &&& bits = bits := by
    rw [← hbits, ← Nat.and_assoc, hmode]
  simp [Target.permits, hm, this]

theorem Ready.maySearch (h : t.Ready dir) : t.maySearch dir = true := h.permits (by decide)

theorem Ready.mayWrite (h : t.Ready dir) : t.mayWrite dir = true := h.permits (by decide)

/-! ### Directories -/

theorem openChildDir_ok {b : Bool} (h : t.openChildDir dir name = .ok b) :
    t.IsDir (dir ++ [name]) := by
  unfold openChildDir at h
  dsimp only at h
  by_cases hs : t.maySearch dir = true
  · rw [hs] at h
    cases hn : t.node (dir ++ [name]) with
    | none => rw [hn] at h; cases h
    | some n =>
      rw [hn] at h
      cases n with
      | dir m => exact ⟨m, hn⟩
      | file | symlink | special => cases h
  · rw [Bool.not_eq_true] at hs
    rw [hs] at h
    cases h

theorem openChildDir_of_isDir (h : t.maySearch dir = true) (hd : t.IsDir (dir ++ [name])) :
    ∃ b, t.openChildDir dir name = .ok b := by
  obtain ⟨m, hm⟩ := hd
  unfold openChildDir
  simp [h, hm]

/-- A directory that was made or was there. -/
theorem createChildDir_spec (t : Target) (dir : RelPath) (name : Bytes) :
    (∀ b, (t.createChildDir dir name).1 = .ok b →
      t.IsDir (dir ++ [name]) ∧ (t.createChildDir dir name).2 = t ∨
      t.node (dir ++ [name]) = none ∧ t.Put (t.createChildDir dir name).2 (dir ++ [name])
        (.dir { mode := t.umask 0o777 })) ∧
    (t.Ready dir → ¬t.IsLeaf (dir ++ [name]) → ∃ b, (t.createChildDir dir name).1 = .ok b) := by
  unfold createChildDir
  dsimp only
  by_cases hs : t.maySearch dir = true
  · rw [hs, Bool.not_true, if_neg Bool.false_ne_true]
    cases hn : t.node (dir ++ [name]) with
    | some n =>
      refine ⟨fun b hb => .inl ⟨openChildDir_ok hb, rfl⟩, fun hready hleaf => ?_⟩
      refine openChildDir_of_isDir hs (isDir_of_kind hn ?_)
      by_contra hkind
      exact hleaf ⟨n, hn, hkind⟩
    | none =>
      have hput := t.put_touch dir name (.dir { mode := t.umask 0o777 })
      by_cases hw : t.mayWrite dir = true
      · rw [hw, Bool.not_true, if_neg Bool.false_ne_true]
        refine ⟨fun b _ => .inr ⟨rfl, hput⟩, fun hready _ => ?_⟩
        exact openChildDir_of_isDir (hput.ready _ (concat_ne_dir dir name).symm hready).maySearch
          ⟨_, hput.at_path⟩
      · rw [Bool.not_eq_true] at hw
        rw [hw, Bool.not_false, if_pos rfl]
        refine ⟨nofun, fun hready _ => ?_⟩
        rw [hready.mayWrite] at hw
        cases hw
  · rw [Bool.not_eq_true] at hs
    rw [hs, Bool.not_false, if_pos rfl]
    refine ⟨nofun, fun hready _ => ?_⟩
    rw [hready.maySearch] at hs
    cases hs

theorem same_makeOwnerWritable (hd : t.IsDir dir) (readable : Bool) :
    t.Same (t.makeOwnerWritable dir readable).2 := by
  obtain ⟨m, hm⟩ := hd
  have hmeta : t.dirMeta dir = m := by rw [dirMeta, hm]
  unfold makeOwnerWritable
  rw [hmeta]
  dsimp only
  split_ifs with hmode
  · exact .refl t
  · split
    · exact .refl t
    · refine same_put_dir hm fun hready => absurd ?_ hmode
      have h : m.mode &&& 0o200 = (m.mode &&& 0o700) &&& 0o200 := by
        rw [Nat.and_assoc]
        rfl
      rw [h, hready]
      decide

theorem metaHandle_of_ready (h : t.Ready dir) (readable : Bool) :
    t.metaHandle dir readable = .ok () := by
  rw [metaHandle, h.permits (by decide), Bool.or_true, if_pos rfl]

/-! ### Files and symlinks -/

theorem kindOf_of_ready (h : t.Ready dir) :
    t.kindOf dir name = .ok ((t.node (dir ++ [name])).map TargetNode.kind) := by
  simp [kindOf, h.maySearch]

theorem refuseInTheWay_ok (h : t.refuseInTheWay dir name = .ok ()) : ¬t.IsDir (dir ++ [name]) := by
  rintro ⟨m, hm⟩
  rw [refuseInTheWay, kindOf] at h
  by_cases hs : t.maySearch dir = true
  · rw [hs, hm] at h
    cases h
  · rw [Bool.not_eq_true] at hs
    rw [hs] at h
    cases h

theorem refuseInTheWay_of_none (h : t.Ready dir) (hn : t.node (dir ++ [name]) = none) :
    t.refuseInTheWay dir name = .ok () := by
  rw [refuseInTheWay, kindOf_of_ready h, hn]
  rfl

/-- The object has its final name. -/
theorem commit_spec (t : Target) (dir : RelPath) (name : Bytes) (n : TargetNode) :
    ((t.commit dir name n).1 = .ok () →
      ¬t.IsDir (dir ++ [name]) ∧ t.Put (t.commit dir name n).2 (dir ++ [name]) n) ∧
    (∀ e, (t.commit dir name n).1 = .error e → (t.commit dir name n).2 = t) ∧
    (t.Ready dir → t.node (dir ++ [name]) = none → (t.commit dir name n).1 = .ok ()) := by
  unfold commit
  cases hr : t.refuseInTheWay dir name with
  | error e =>
    refine ⟨nofun, fun _ _ => rfl, fun hready hnone => ?_⟩
    rw [refuseInTheWay_of_none hready hnone] at hr
    cases hr
  | ok u =>
    by_cases hw : t.mayWrite dir = true
    · rw [hw]
      exact ⟨fun _ => ⟨refuseInTheWay_ok hr, t.put_touch dir name n⟩, nofun, fun _ _ => rfl⟩
    · rw [Bool.not_eq_true] at hw
      rw [hw]
      refine ⟨nofun, fun _ _ => rfl, fun hready => ?_⟩
      rw [hready.mayWrite] at hw
      cases hw

theorem kind_of_ino (h : n.ino? ≠ none) : n.kind ≠ .dir := by
  cases n with
  | dir m => exact absurd rfl h
  | file | symlink | special => nofun

/-- A link over an object is made in its place, unless it is there. -/
theorem linkOver_spec (t : Target) (dir : RelPath) (name : Bytes) (hino : n.ino? ≠ none)
    (hsome : t.node (dir ++ [name]) ≠ none) :
    ((t.linkOver dir name n).1 = .ok () → ¬t.IsDir (dir ++ [name]) ∧
      ∃ n', n'.kind ≠ .dir ∧ t.Put (t.linkOver dir name n).2 (dir ++ [name]) n') ∧
    (∀ e, (t.linkOver dir name n).1 = .error e → (t.linkOver dir name n).2 = t) := by
  unfold linkOver
  by_cases hsame : ((t.node (dir ++ [name])).bind TargetNode.ino?) = n.ino?
  · rw [if_pos hsame]
    obtain ⟨n', hn'⟩ := Option.ne_none_iff_exists'.1 hsome
    have hkind' : n'.kind ≠ .dir := kind_of_ino (by
      rw [hn', Option.bind_some] at hsame
      rwa [hsame])
    have hleaf : t.IsLeaf (dir ++ [name]) := ⟨n', hn', hkind'⟩
    exact ⟨fun _ => ⟨hleaf.not_isDir, n', hkind', .refl _, hn', fun _ _ => .refl _, fun _ _ => id⟩,
      nofun⟩
  · rw [if_neg hsame]
    obtain ⟨hok, herr, -⟩ := t.commit_spec dir name n
    exact ⟨fun h => ⟨(hok h).1, n, kind_of_ino hino, (hok h).2⟩, herr⟩

/-- A link that was made shares the object of the first name, or was there. -/
theorem linkToFirst_spec (t : Target) (first dir : RelPath) (name : Bytes) :
    ((t.linkToFirst first dir name).1 = .ok () → ¬t.IsDir (dir ++ [name]) ∧
      ∃ n, n.kind ≠ .dir ∧ t.Put (t.linkToFirst first dir name).2 (dir ++ [name]) n ∧
        (t.node (dir ++ [name]) = none → t.node first = some n)) ∧
    (∀ e, (t.linkToFirst first dir name).1 = .error e → (t.linkToFirst first dir name).2 = t) := by
  unfold linkToFirst
  dsimp only
  by_cases h1 : first = []
  · rw [if_pos h1]
    exact ⟨nofun, fun _ _ => rfl⟩
  rw [if_neg h1]
  cases t.openRel [] first.dropLast with
  | error e => exact ⟨nofun, fun _ _ => rfl⟩
  | ok u =>
    dsimp only
    by_cases h2 : (!t.maySearch first.dropLast) = true
    · rw [if_pos h2]
      exact ⟨nofun, fun _ _ => rfl⟩
    rw [if_neg h2]
    cases hn : t.node first with
    | none => exact ⟨nofun, fun _ _ => rfl⟩
    | some n =>
      dsimp only
      by_cases hino : n.ino? = none
      · rw [if_pos hino]
        exact ⟨nofun, fun _ _ => rfl⟩
      rw [if_neg hino]
      -- a name that is taken is replaced, a free one is linked at once
      by_cases hsome : (t.node (dir ++ [name])).isSome
      · rw [if_pos hsome]
        have hne : t.node (dir ++ [name]) ≠ none := Option.isSome_iff_ne_none.1 hsome
        obtain ⟨hok, herr⟩ := t.linkOver_spec dir name hino hne
        refine ⟨fun h => ?_, herr⟩
        obtain ⟨hno, n', hkind, hput⟩ := hok h
        exact ⟨hno, n', hkind, hput, fun hnone => absurd hnone hne⟩
      · rw [if_neg hsome]
        have hnone : t.node (dir ++ [name]) = none := by simpa using hsome
        by_cases hw : t.mayWrite dir = true
        · rw [hw]
          refine ⟨fun _ => ⟨?_, n, kind_of_ino hino, t.put_touch dir name n, fun _ => rfl⟩, nofun⟩
          rintro ⟨m, hm⟩
          rw [hnone] at hm
          cases hm
        · rw [Bool.not_eq_true] at hw
          rw [hw]
          exact ⟨nofun, fun _ _ => rfl⟩

theorem createSymlink_spec (t : Target) (dir : RelPath) (name target : Bytes) :
    ((t.createSymlink dir name target).1 = .ok () → ∃ ino,
      t.Put (t.createSymlink dir name target).2 (dir ++ [name]) (.symlink ino target none none)) ∧
    (t.Ready dir → 0 ∉ target → (t.createSymlink dir name target).1 = .ok ()) := by
  unfold createSymlink
  dsimp only
  by_cases hnul : 0 ∈ target
  · rw [if_pos hnul]
    exact ⟨nofun, fun _ h => absurd hnul h⟩
  · rw [if_neg hnul]
    by_cases hw : t.mayWrite dir = true
    · rw [hw]
      have hput := t.put_touch dir name (.symlink t.nextIno target none none)
      exact ⟨fun _ => ⟨t.nextIno, ⟨hput.user.asRoot, hput.user.umask⟩, hput.at_path, hput.node,
        hput.ready⟩, fun _ _ => rfl⟩
    · rw [Bool.not_eq_true] at hw
      rw [hw]
      refine ⟨nofun, fun hready => ?_⟩
      rw [hready.mayWrite] at hw
      cases hw

/-- What is removed was at this path. -/
theorem put_of_removed
    (hput : Target.Put ({ t with node := Function.update t.node path none }.touch dir)
    t' path n) : t.Put t' path n := by
  have hsame := same_touch { t with node := Function.update t.node path none } dir
  have hnode : ∀ q, q ≠ path → (Function.update t.node path none) q = t.node q := fun q hq =>
    Function.update_of_ne hq ..
  have huser := hsame.user.trans hput.user
  refine ⟨⟨huser.asRoot, huser.umask⟩, hput.at_path, fun q hq => ?_, fun q hq hr => ?_⟩
  · have h := (hsame.node q).trans (hput.node q hq)
    rwa [show Target.node _ q = t.node q from hnode q hq] at h
  · refine hput.ready q hq (hsame.ready q ?_)
    obtain ⟨m, hm, hmode⟩ := hr
    exact ⟨m, (hnode q hq).trans hm, hmode⟩

theorem permits_of_permits {bits bits' : ℕ} (hbits : bits &&& bits' = bits')
    (h : t.permits dir bits = true) : t.permits dir bits' = true := by
  unfold permits at h ⊢
  rw [Bool.or_eq_true] at h ⊢
  refine h.imp_right fun h => ?_
  cases hn : t.node dir with
  | none => rw [hn] at h; cases h
  | some n =>
    rw [hn] at h
    cases n with
    | file | symlink | special => cases h
    | dir m =>
      simp only [decide_eq_true_eq] at h ⊢
      calc m.mode &&& bits' = (m.mode &&& bits) &&& bits' := by rw [Nat.and_assoc, hbits]
        _ = bits' := by rw [h, hbits]

theorem maySearch_of_mayWrite (h : t.mayWrite dir = true) : t.maySearch dir = true :=
  permits_of_permits (by decide) h

theorem createSymlink_error {target : Bytes} (h : t.mayWrite dir = false) :
    (t.createSymlink dir name target).1 ≠ .ok () := by
  unfold createSymlink
  dsimp only
  rw [h]
  split_ifs
  · nofun
  · nofun
  · next hb => exact absurd rfl hb

/-- A symlink takes the place of a file or of another symlink. -/
theorem replaceWithSymlink_spec (t : Target) (dir : RelPath) (name target : Bytes) :
    ((t.replaceWithSymlink dir name target).1 = .ok () → ¬t.IsDir (dir ++ [name]) ∧ ∃ ino,
      t.Put (t.replaceWithSymlink dir name target).2 (dir ++ [name])
        (.symlink ino target none none)) ∧
    (t.Ready dir → t.node (dir ++ [name]) = none → 0 ∉ target →
      (t.replaceWithSymlink dir name target).1 = .ok ()) := by
  obtain ⟨hok, hready⟩ := t.createSymlink_spec dir name target
  unfold replaceWithSymlink
  dsimp only
  by_cases hw : t.mayWrite dir = true
  · have hs := maySearch_of_mayWrite hw
    simp only [kindOf, hs, hw, Bool.not_true, Bool.false_eq_true, if_false]
    cases hn : t.node (dir ++ [name]) with
    | none =>
      refine ⟨fun h => ⟨?_, hok h⟩, fun hr _ => hready hr⟩
      rintro ⟨m, hm⟩
      rw [hn] at hm
      cases hm
    | some n =>
      refine ⟨?_, nofun⟩
      cases hkind : n.kind with
      | dir =>
        simp only [Option.map_some, hkind]
        nofun
      | file | symlink | special =>
        simp only [Option.map_some, hkind]
        intro h
        have hleaf : t.IsLeaf (dir ++ [name]) := ⟨n, hn, by rw [hkind]; nofun⟩
        obtain ⟨ino, hput⟩ := (createSymlink_spec _ dir name target).1 h
        exact ⟨hleaf.not_isDir, ino, put_of_removed hput⟩
  · -- without the right to write nothing is made
    rw [Bool.not_eq_true] at hw
    refine ⟨fun h => ?_, fun hr => ?_⟩
    · rw [hw] at h
      split at h
      · cases h
      · cases h
      · exact absurd h (createSymlink_error hw)
    · rw [hr.mayWrite] at hw
      cases hw

/-! ### Metadata -/

/-- The recorded owner can be set by a user who sets owners at all. -/
def OwnerOk (asRoot : Bool) (e : Entry) : Prop :=
  asRoot = true → ∀ o, ownerOfEntry e = some o → o.1 ≠ unchangedId ∧ o.2 ≠ unchangedId

theorem checkOwnerIds_ok {owner : ℕ × ℕ} (h : owner.1 ≠ unchangedId ∧ owner.2 ≠ unchangedId) :
    checkOwnerIds path owner = .ok () := by
  rw [checkOwnerIds, if_neg (by tauto)]

theorem applyMeta_fst (m : TargetMeta) (asRoot : Bool) (path : RelPath) (e : Entry) :
    (m.applyMeta asRoot path e).1.1 = .ok () := rfl

theorem applyMeta_owner (m : TargetMeta) {asRoot : Bool} (path : RelPath) {e : Entry}
    (h : OwnerOk asRoot e) : (m.applyMeta asRoot path e).1.2 = .ok () := by
  have howner : ∀ m : TargetMeta, ∃ b, (m.applyOwner asRoot path (ownerOfEntry e)).1 = .ok b := by
    intro m
    unfold TargetMeta.applyOwner
    split
    · next o ho =>
      rw [checkOwnerIds_ok (h rfl o ho)]
      exact ⟨true, rfl⟩
    · exact ⟨false, rfl⟩
  obtain ⟨b, hb⟩ := howner (m.setXattrs e.xattrs)
  unfold TargetMeta.applyMeta
  dsimp only
  rw [hb]
  rfl

/-- The metadata of a symlink changes neither its target nor anything else. Without an error it is
what the entry records. -/
theorem applySymlinkMeta_spec {ino : ℕ} {target : Bytes}
    (hn : t.node path = some (.symlink ino target none none)) (e : Entry) :
    (∃ owner mtimeNs, t.Put (t.applySymlinkMeta path e).2 path
        (.symlink ino target owner mtimeNs) ∧
      ((t.applySymlinkMeta path e).1 = .ok () → mtimeNs = e.mtimeNs ∧
        owner = if t.asRoot then ownerOfEntry e else none)) ∧
    (OwnerOk t.asRoot e → (t.applySymlinkMeta path e).1 = .ok ()) := by
  unfold applySymlinkMeta
  rw [hn]
  refine ⟨⟨_, _, t.put_put path _, fun hok => ⟨Option.or_none, ?_⟩⟩, fun howner => ?_⟩
  · dsimp only at hok ⊢
    rw [if_pos hok, Option.or_none]
  · dsimp only
    cases hroot : t.asRoot with
    | false => rfl
    | true =>
      rw [if_pos rfl]
      cases ho : ownerOfEntry e with
      | none => rfl
      | some o => exact checkOwnerIds_ok (howner hroot o ho)

end Target

/-! ### What is recorded -/

namespace TargetMeta

variable {m : TargetMeta} {asRoot : Bool} {path : RelPath} {e : Entry}

/-- The metadata shows what an entry records: the attributes of users, the one that stands last
under each name, the time, the mode, and for root the owner. -/
structure Shows (m : TargetMeta) (asRoot : Bool) (e : Entry) : Prop where
  xattrs : ∀ name, m.xattrs.lookup name =
    if "user.".toUTF8.toList <+: name then (e.xattrs.getD []).reverse.lookup name else none
  owner : m.owner = if asRoot then ownerOfEntry e else none
  mtimeNs : m.mtimeNs = e.mtimeNs
  mode : e.mtimeNs.isSome →
    modeToApply (metaOfEntry e).mode asRoot (ownerOfEntry e).isSome ≠ 0 →
      m.mode = modeToApply (metaOfEntry e).mode asRoot (ownerOfEntry e).isSome &&& 0o7777

theorem lookup_filter_ne (xs : List (Bytes × Bytes)) (a name : Bytes) :
    (xs.filter fun y : Bytes × Bytes => y.1 ≠ a).lookup name =
      if name = a then none else xs.lookup name := by
  induction xs with
  | nil => simp
  | cons x xs ih =>
    obtain ⟨k, v⟩ := x
    by_cases hk : k = a
    · subst hk
      rw [List.filter_cons_of_neg (by simp), ih, List.lookup_cons]
      by_cases hname : name = k
      · rw [if_pos hname, if_pos hname]
      · rw [if_neg hname, if_neg hname, beq_false_of_ne hname]
    · rw [List.filter_cons_of_pos (by simpa using hk), List.lookup_cons, List.lookup_cons, ih]
      by_cases hname : name = k
      · subst hname
        simp [hk]
      · rw [beq_false_of_ne hname]

theorem lookup_setXattrs (name : Bytes) (xs : List (Bytes × Bytes)) :
    ∀ m : TargetMeta, (m.setXattrs (some xs)).xattrs.lookup name =
      if "user.".toUTF8.toList <+: name then (xs.reverse.lookup name).or (m.xattrs.lookup name)
      else m.xattrs.lookup name := by
  induction xs with
  | nil => simp [setXattrs]
  | cons x xs ih =>
    intro m
    obtain ⟨k, v⟩ := x
    have hstep : m.setXattrs (some ((k, v) :: xs)) =
        (m.setXattrs (some [(k, v)])).setXattrs (some xs) := rfl
    rw [hstep, ih, List.reverse_cons, List.lookup_append, List.lookup_singleton]
    have hone : m.setXattrs (some [(k, v)]) = if "user.".toUTF8.toList <+: k then
        { m with xattrs := m.xattrs.filter (fun y : Bytes × Bytes => y.1 ≠ k) ++ [(k, v)] }
          else m :=
      rfl
    rw [hone]
    by_cases hname : name = k
    · subst hname
      by_cases hk : "user.".toUTF8.toList <+: name
      · simp only [if_pos hk, List.lookup_append, List.lookup_singleton, lookup_filter_ne, if_true,
          beq_self_eq_true, Option.or_some, Option.some_or, Option.getD_none]
      · simp only [if_neg hk]
    · have hne : (name == k) = false := beq_false_of_ne hname
      by_cases hk : "user.".toUTF8.toList <+: k
      · simp only [if_pos hk, List.lookup_append, List.lookup_singleton, lookup_filter_ne,
          if_neg hname,
          hne, Bool.false_eq_true, if_false, Option.or_none]
      · simp only [if_neg hk, hne, Bool.false_eq_true, if_false, Option.or_none]

theorem setXattrs_eq (m : TargetMeta) (xattrs : Option (List (Bytes × Bytes))) :
    ∃ xs, m.setXattrs xattrs = { m with xattrs := xs } := by
  unfold setXattrs
  induction xattrs.getD [] generalizing m with
  | nil => exact ⟨m.xattrs, rfl⟩
  | cons x xs ih =>
    rw [List.foldl_cons]
    split_ifs
    · exact ih _
    · exact ih m

theorem applyOwner_ok {restored : Bool} {owner : Option (ℕ × ℕ)} (hnone : m.owner = none)
    (h : (m.applyOwner asRoot path owner).1 = .ok restored) :
    (m.applyOwner asRoot path owner).2 = { m with owner := if asRoot then owner else none } ∧
      ∀ mode, modeToApply mode asRoot restored = modeToApply mode asRoot owner.isSome := by
  have hm : { m with owner := none } = m := by rw [← hnone]
  unfold applyOwner at h ⊢
  cases asRoot with
  | false => exact ⟨hm.symm, fun _ => rfl⟩
  | true =>
    cases owner with
    | none =>
      cases h
      exact ⟨hm.symm, fun _ => rfl⟩
    | some owner =>
      dsimp only at h ⊢
      cases hids : checkOwnerIds path owner with
      | error err =>
        rw [hids] at h
        cases h
      | ok u =>
        rw [hids] at h
        cases h
        exact ⟨rfl, fun _ => rfl⟩

/-- Onto an object without an owner, a time and attributes, all is set that the entry records. -/
theorem applyMeta_shows (howner : m.owner = none) (htime : m.mtimeNs = none)
    (hxattrs : m.xattrs = [])
    (hok : (m.applyMeta asRoot path e).1.2 = .ok ()) :
    (m.applyMeta asRoot path e).2.Shows asRoot e := by
  obtain ⟨xs, hxs⟩ := m.setXattrs_eq e.xattrs
  -- the node had no attributes before, so it shows those of the entry that restore may set
  have hlookup : ∀ name, xs.lookup name = if "user.".toUTF8.toList <+: name then
      (e.xattrs.getD []).reverse.lookup name else none := fun name => by
    have h := lookup_setXattrs name (e.xattrs.getD []) m
    rw [show m.setXattrs (some (e.xattrs.getD [])) = m.setXattrs e.xattrs from rfl, hxs, hxattrs,
      List.lookup_nil, Option.or_none] at h
    exact h
  unfold applyMeta at hok ⊢
  rw [hxs] at hok ⊢
  dsimp only at hok ⊢
  have hset := @applyOwner_ok { m with xattrs := xs } asRoot path
  rcases ho : ({ m with xattrs := xs } : TargetMeta).applyOwner asRoot path (ownerOfEntry e) with
    ⟨err | restored, m'⟩
  · rw [ho] at hok
    cases hok
  · obtain ⟨hm', hmode⟩ := hset howner (by rw [ho])
    rw [ho] at hm'
    dsimp only at hm' ⊢
    subst hm'
    rw [hmode]
    cases hrecorded : e.mtimeNs with
    | none =>
      refine ⟨hlookup, rfl, htime.trans hrecorded.symm, fun h => ?_⟩
      rw [hrecorded] at h
      cases h
    | some mtimeNs =>
      dsimp only
      unfold applyMode
      -- a mode of zero is not applied
      by_cases hzero : modeToApply (metaOfEntry e).mode asRoot (ownerOfEntry e).isSome = 0
      · rw [if_pos hzero]
        exact ⟨hlookup, rfl, hrecorded.symm, fun _ h => absurd hzero h⟩
      · rw [if_neg hzero]
        exact ⟨hlookup, rfl, hrecorded.symm, fun _ _ => rfl⟩

end TargetMeta
end Kist
