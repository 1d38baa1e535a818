import Kist.Restore.Outcome

/-!
# A restore stays below its target

Whatever a snapshot says, and whatever symlinks lie below the target, a restore changes one object
after the other, each of them under a clean name in a directory that is reached from the target
through directories only. A directory stays a directory.

* `Target.Change`, `Target.Confined`: one such change, and any number of them.
* `RestoreWalk.Held`: the open levels of a walk are such directories.
* `restore_confined`: the whole restore, and the paths that a dry run reports.
-/

namespace Kist

namespace Target

variable {t t' t'' : Target} {dir path q : RelPath} {name : Bytes} {n : TargetNode}

/-! ### Changes below directories -/

/-- The objects of a target form a tree: what lies at a path lies in a directory. -/
structure Tree (t : Target) : Prop where
  root : t.IsDir []
  parent : ∀ q name, t.node (q ++ [name]) ≠ none → t.IsDir q

/-- One object was made, replaced or removed, or its metadata changed. The names on its path are
clean, and lead through directories. -/
structure Change (t t' : Target) (path : RelPath) : Prop where
  clean : ∀ c ∈ path, Entry.cleanName c
  through : ∀ q, q <+: path → q ≠ path → t.IsDir q
  frame : ∀ q, q ≠ path → t'.node q = t.node q
  isDir : t.IsDir path → t'.IsDir path

/-- Any number of changes, one after the other. -/
def Confined (t t' : Target) : Prop :=
  Relation.ReflTransGen (fun t t' => ∃ path, t.Change t' path) t t'

theorem Change.confined (h : t.Change t' path) : t.Confined t' := .single ⟨path, h⟩

theorem Confined.trans (h : t.Confined t') (h' : t'.Confined t'') : t.Confined t'' :=
  Relation.ReflTransGen.trans h h'

theorem Change.isDir_mono (h : t.Change t' path) (hq : t.IsDir q) : t'.IsDir q := by
  by_cases hp : q = path
  · subst hp
    exact h.isDir hq
  · rwa [IsDir, h.frame q hp]

/-- A directory that is there stays. -/
theorem Confined.isDir (h : t.Confined t') (hq : t.IsDir q) : t'.IsDir q := by
  induction h with
  | refl => exact hq
  | tail _ hs ih =>
    obtain ⟨path, hs⟩ := hs
    exact hs.isDir_mono ih

theorem Change.tree (h : t.Change t' path) (ht : t.Tree) : t'.Tree where
  root := h.isDir_mono ht.root
  parent q name hn := by
    refine h.isDir_mono ?_
    by_cases hp : q ++ [name] = path
    · exact h.through q (hp ▸ List.prefix_append q [name]) (hp ▸ (concat_ne_dir q name).symm)
    · rw [h.frame _ hp] at hn
      exact ht.parent q name hn

theorem Confined.tree (h : t.Confined t') (ht : t.Tree) : t'.Tree := by
  induction h with
  | refl => exact ht
  | tail _ hs ih =>
    obtain ⟨path, hs⟩ := hs
    exact hs.tree ih

/-- What has changed lies, at the end as at the time of its change, under clean names below
directories. -/
theorem Confined.changed (h : t.Confined t') (hq : t'.node q ≠ t.node q) :
    (∀ c ∈ q, Entry.cleanName c) ∧ ∀ p, p <+: q → p ≠ q → t'.IsDir p := by
  induction h with
  | refl => exact absurd rfl hq
  | @tail t₁ t₂ h hs ih =>
    obtain ⟨path, hs⟩ := hs
    by_cases hp : q = path
    · subst hp
      exact ⟨hs.clean, fun p hp hne => hs.isDir_mono (hs.through p hp hne)⟩
    · rw [hs.frame q hp] at hq
      obtain ⟨hclean, hdirs⟩ := ih hq
      exact ⟨hclean, fun p hp hne => hs.isDir_mono (hdirs p hp hne)⟩

/-- All of a path to a directory are directories. -/
theorem Tree.isDir_of_prefix (ht : t.Tree) (hd : t.IsDir path) (hq : q <+: path) : t.IsDir q := by
  induction path using List.reverseRecOn with
  | nil => rwa [List.prefix_nil.1 hq]
  | append_singleton path name ih =>
    rcases List.prefix_concat_iff.1 hq with rfl | hq
    · exact hd
    · obtain ⟨m, hm⟩ := hd
      exact ih (ht.parent path name (by rw [hm]; nofun)) hq

/-! ### Directories that may be changed -/

/-- A directory below the target, reached through directories by clean names. -/
structure Inside (t : Target) (dir : RelPath) : Prop where
  tree : t.Tree
  isDir : t.IsDir dir
  clean : ∀ c ∈ dir, Entry.cleanName c

theorem Inside.mono (h : t.Inside dir) (hc : t.Confined t') : t'.Inside dir :=
  ⟨hc.tree h.tree, hc.isDir h.isDir, h.clean⟩

theorem Tree.inside (h : t.Tree) : t.Inside [] := ⟨h, h.root, nofun⟩

section Inside

variable (h : t.Inside dir)

include h

/-- What happens to one name in the directory. -/
theorem Inside.change (hname : Entry.cleanName name)
    (hframe : ∀ q, q ≠ dir ++ [name] → t'.node q = t.node q)
    (hkeep : t.IsDir (dir ++ [name]) → t'.IsDir (dir ++ [name])) : t.Confined t' := by
  refine Change.confined ⟨fun c hc => ?_, fun q hq hne => ?_, hframe, hkeep⟩
  · rcases List.mem_append.1 hc with hc | hc
    · exact h.clean c hc
    · rwa [List.mem_singleton.1 hc]
  · rcases List.prefix_concat_iff.1 hq with rfl | hq
    · exact absurd rfl hne
    · exact h.tree.isDir_of_prefix h.isDir hq

theorem Inside.put (hname : Entry.cleanName name)
    (hn : t.IsDir (dir ++ [name]) → n.kind = .dir) : t.Confined (t.put (dir ++ [name]) n) :=
  h.change hname (fun _ hq => t.node_put_of_ne n hq) fun hd =>
    isDir_of_kind (t.node_put_self _ n) (hn hd)

theorem Inside.putMeta (m : TargetMeta) : t.Confined (t.put dir (.dir m)) :=
  Change.confined ⟨h.clean, fun _ hq _ => h.tree.isDir_of_prefix h.isDir hq,
    fun _ hq => t.node_put_of_ne _ hq, fun _ => ⟨m, t.node_put_self _ _⟩⟩

theorem Inside.touch : t.Confined (t.touch dir) := by
  unfold Target.touch
  split
  · exact h.putMeta _
  · exact .refl

/-- A name in the directory, and with it the time of the directory. -/
theorem Inside.putTouch (hname : Entry.cleanName name)
    (hn : t.IsDir (dir ++ [name]) → n.kind = .dir) :
    t.Confined ((t.put (dir ++ [name]) n).touch dir) :=
  (h.put hname hn).trans (h.mono (h.put hname hn)).touch

omit h in
theorem confined_nextIno (t : Target) (ino : ℕ) : t.Confined { t with nextIno := ino } :=
  @Change.confined _ _ [] ⟨nofun, fun _ hq hne => absurd (List.prefix_nil.1 hq) hne,
    fun _ _ => rfl, id⟩

/-! ### Operations -/

theorem Inside.createChildDir (hname : Entry.cleanName name) :
    t.Confined (t.createChildDir dir name).2 ∧ ∀ b, (t.createChildDir dir name).1 = .ok b →
      (t.createChildDir dir name).2.Inside (dir ++ [name]) := by
  have hclean : ∀ c ∈ dir ++ [name], Entry.cleanName c := by
    simpa [or_imp, forall_and] using ⟨h.clean, hname⟩
  have hmk : t.Confined (t.createChildDir dir name).2 := by
    unfold Target.createChildDir
    dsimp only
    split
    · exact .refl
    · split
      · exact .refl
      · split
        · exact .refl
        · exact h.putTouch hname fun _ => rfl
  refine ⟨hmk, fun b hb => ⟨hmk.tree h.tree, ?_, hclean⟩⟩
  rcases (t.createChildDir_spec dir name).1 b hb with ⟨hd, heq⟩ | ⟨-, hput⟩
  · rwa [heq]
  · exact ⟨_, hput.at_path⟩

theorem Inside.createDirs {names : List Bytes} (hnames : ∀ c ∈ names, Entry.cleanName c)
    (readable : Bool) :
    t.Confined (Target.createDirs dir readable names t).2 ∧
      ∀ b, (Target.createDirs dir readable names t).1 = .ok b →
        (Target.createDirs dir readable names t).2.Inside (dir ++ names) := by
  induction names generalizing dir readable t with
  | nil => exact ⟨.refl, fun _ _ => by rwa [List.append_nil]⟩
  | cons name names ih =>
    obtain ⟨hc, hin⟩ := h.createChildDir (hnames name List.mem_cons_self)
    unfold Target.createDirs
    rcases hr : t.createChildDir dir name with ⟨_ | b, t₁⟩ <;> rw [hr] at hc hin
    · exact ⟨hc, fun b hb => by cases hb⟩
    · obtain ⟨hc', hin'⟩ := ih (hin b rfl) (fun c hc => hnames c (List.mem_cons_of_mem _ hc)) b
      refine ⟨hc.trans hc', fun b' hb' => ?_⟩
      have := hin' b' hb'
      rwa [List.append_assoc] at this

theorem Inside.makeOwnerWritable (readable : Bool) :
    t.Confined (t.makeOwnerWritable dir readable).2 := by
  unfold Target.makeOwnerWritable
  dsimp only
  split_ifs
  · exact .refl
  · split
    · exact .refl
    · exact h.putMeta _

theorem Inside.commit (hname : Entry.cleanName name) (n : TargetNode) :
    t.Confined (t.commit dir name n).2 := by
  unfold Target.commit
  split
  · exact .refl
  · next hr =>
    split_ifs
    · exact .refl
    · exact h.putTouch hname fun hd => absurd hd (refuseInTheWay_ok hr)

theorem Inside.linkToFirst (hname : Entry.cleanName name) (first : RelPath) :
    t.Confined (t.linkToFirst first dir name).2 := by
  unfold Target.linkToFirst
  dsimp only
  split
  · exact .refl
  split
  · exact .refl
  split
  · exact .refl
  split
  · exact .refl
  · next node hn =>
    split_ifs with _ hsome
    · exact .refl
    · unfold Target.linkOver
      split_ifs
      · exact .refl
      · exact h.commit hname node
    · exact .refl
    · refine h.putTouch hname fun ⟨m, hm⟩ => ?_
      rw [hm] at hsome
      exact absurd rfl hsome

theorem Inside.createSymlink (hname : Entry.cleanName name) (target : Bytes)
    (hno : ¬t.IsDir (dir ++ [name])) : t.Confined (t.createSymlink dir name target).2 := by
  have hput := h.putTouch hname (n := .symlink t.nextIno target none none) fun hd => absurd hd hno
  unfold Target.createSymlink
  dsimp only
  split_ifs
  · exact .refl
  · exact .refl
  · exact hput.trans (confined_nextIno _ _)

/-- Nothing lies at the path between the two steps. -/
theorem Inside.replaceWithSymlink (hname : Entry.cleanName name) (target : Bytes) :
    t.Confined (t.replaceWithSymlink dir name target).2 := by
  unfold Target.replaceWithSymlink
  dsimp only
  split
  · exact .refl
  · next k hnd hk =>
    split_ifs
    · exact .refl
    · have hkind : (t.node (dir ++ [name])).map TargetNode.kind = some k := by
        unfold Target.kindOf at hk
        split_ifs at hk
        exact Except.ok.inj hk
      have hno : ¬t.IsDir (dir ++ [name]) := by
        rintro ⟨m, hm⟩
        rw [hm] at hkind
        cases hkind
        exact hnd rfl
      have hrem : t.Confined { t with node := Function.update t.node (dir ++ [name]) none } :=
        h.change hname (fun q hq => Function.update_of_ne hq ..) fun hd => absurd hd hno
      have htouch := (h.mono hrem).touch
      refine (hrem.trans htouch).trans
        (((h.mono hrem).mono htouch).createSymlink hname target ?_)
      rw [isDir_congr ((same_touch _ dir).node _)]
      rintro ⟨m, hm⟩
      rw [show Target.node _ _ = _ from Function.update_self ..] at hm
      cases hm
  · next hk hn =>
    by_cases hd : t.IsDir (dir ++ [name])
    · -- the directory could not even be looked at, and so nothing is written
      have hs : t.maySearch dir = false := by
        by_contra hs
        rw [Bool.not_eq_false] at hs
        obtain ⟨m, hm⟩ := hd
        refine hk ?_
        rw [Target.kindOf, hs, hm]
        rfl
      have hw : t.mayWrite dir = false := by
        by_contra hw
        rw [Bool.not_eq_false] at hw
        rw [maySearch_of_mayWrite hw] at hs
        cases hs
      unfold Target.createSymlink
      dsimp only
      rw [hw, Bool.not_false, if_pos rfl]
      split_ifs
      · exact .refl
      · exact .refl
    · exact h.createSymlink hname target hd

theorem Inside.applySymlinkMeta (hname : Entry.cleanName name) (e : Entry) :
    t.Confined (t.applySymlinkMeta (dir ++ [name]) e).2 := by
  unfold Target.applySymlinkMeta
  split
  · next hn =>
    refine h.put hname fun ⟨m, hm⟩ => ?_
    rw [hn] at hm
    cases hm
  · exact .refl

end Inside
end Target

open Target

/-! ### Levels -/

/-- The paths of the levels are clean, and the open ones are directories. -/
def LevelsHeld (t : Target) : List PendingDir → Prop
  | [] => True
  | l :: ls => l.path = levelPath ls ++ l.make ∧ (∀ c ∈ l.make, Entry.cleanName c) ∧
      (l.handle.isSome → t.IsDir l.path) ∧ LevelsHeld t ls

section Levels

variable {t t' : Target} {l : PendingDir} {ls : List PendingDir}

theorem LevelsHeld.mono (h : LevelsHeld t ls) (hc : t.Confined t') : LevelsHeld t' ls := by
  induction ls with
  | nil => exact trivial
  | cons l ls ih =>
    obtain ⟨hpath, hmake, hopen, hls⟩ := h
    exact ⟨hpath, hmake, fun ho => hc.isDir (hopen ho), ih hls⟩

theorem LevelsHeld.clean (h : LevelsHeld t ls) : ∀ c ∈ levelPath ls, Entry.cleanName c := by
  induction ls with
  | nil => nofun
  | cons l ls ih =>
    obtain ⟨hpath, hmake, -, hls⟩ := h
    intro c hc
    rw [levelPath, hpath] at hc
    exact (List.mem_append.1 hc).elim (ih hls c) (hmake c)

theorem LevelsHeld.tail (h : LevelsHeld t ls) : LevelsHeld t ls.tail := by
  cases ls with
  | nil => exact trivial
  | cons l ls => exact h.2.2.2

/-- A level that is prepared is the same directory. -/
theorem held_prepare (h : LevelsHeld t (l :: ls)) (hin : t.Inside l.path) (forWriting : Bool) :
    t.Confined (l.prepare forWriting t).2 ∧
      LevelsHeld (l.prepare forWriting t).2 ((l.prepare forWriting t).1 :: ls) ∧
      (l.prepare forWriting t).1.path = l.path := by
  have hmk := hin.makeOwnerWritable (l.handle.getD false)
  unfold PendingDir.prepare
  split
  · split
    · exact ⟨hmk, h.mono hmk, rfl⟩
    · exact ⟨.refl, h, rfl⟩
  · exact ⟨.refl, h, rfl⟩

/-- The directories on the way are made one below the other. -/
theorem held_ensure (ht : t.Tree) (h : LevelsHeld t ls) (forWriting : Bool) :
    t.Confined (ensure forWriting ls t).2.2 ∧
      LevelsHeld (ensure forWriting ls t).2.2 (ensure forWriting ls t).2.1 ∧
      levelPath (ensure forWriting ls t).2.1 = levelPath ls ∧
      ((ensure forWriting ls t).1 = .ok () → (ensure forWriting ls t).2.2.Inside
        (levelPath ls)) := by
  induction ls generalizing forWriting with
  | nil => exact ⟨.refl, h, rfl, fun _ => ht.inside⟩
  | cons l ls ih =>
    unfold ensure
    cases hl : l.handle with
    | some b =>
      have hin : t.Inside l.path := ⟨ht, h.2.2.1 (by rw [hl]; rfl), h.clean⟩
      obtain ⟨hc, hls, hpath⟩ := held_prepare h hin forWriting
      exact ⟨hc, hls, hpath, fun _ => hin.mono hc⟩
    | none =>
      obtain ⟨hpath, hmake, hopen, hls⟩ := h
      obtain ⟨hc, hls', hpath', hin⟩ := ih hls true
      dsimp only
      rcases he : ensure true ls t with ⟨_ | u, ls', t₁⟩ <;> rw [he] at hc hls' hpath' hin
      · exact ⟨hc, ⟨hpath'.symm ▸ hpath, hmake, fun ho => hc.isDir (hopen ho), hls'⟩, rfl,
          fun h => by cases h⟩
      · dsimp only at hc hls' hpath' hin
        dsimp only
        obtain ⟨hc', hin'⟩ := (hpath' ▸ hin rfl : t₁.Inside (levelPath ls')).createDirs hmake
          (levelReadable t₁ ls')
        rcases hd : Target.createDirs (levelPath ls') (levelReadable t₁ ls') l.make t₁ with
          ⟨_ | readable, t₂⟩ <;> rw [hd] at hc' hin' <;> dsimp only at hc' hin' ⊢
        · refine ⟨hc.trans hc', ⟨hpath'.symm ▸ hpath, hmake, fun ho => ?_, hls'.mono hc'⟩, rfl,
            fun h => by cases h⟩
          cases ho
        · have hlevel : t₂.Inside l.path := by
            rw [hpath, ← hpath']
            exact hin' readable rfl
          obtain ⟨hc'', hls'', hpath''⟩ := held_prepare
            (l := { l with handle := some readable, createFailed := false })
            ⟨hpath'.symm ▸ hpath, hmake, fun _ => hlevel.isDir, hls'.mono hc'⟩ hlevel forWriting
          exact ⟨(hc.trans hc').trans hc'', hls'', hpath'', fun _ => hlevel.mono hc''⟩

/-- What is open stays open. -/
theorem handle_ensure (h : (ls.head?.bind PendingDir.handle).isSome) (forWriting : Bool)
    (t : Target) :
    ((ensure forWriting ls t).2.1.head?.bind PendingDir.handle).isSome := by
  cases ls with
  | nil => exact h
  | cons l ls =>
    obtain ⟨b, hb⟩ := Option.isSome_iff_exists.1 h
    rw [List.head?_cons, Option.bind_some] at hb
    unfold ensure
    rw [hb]
    dsimp only
    unfold PendingDir.prepare
    split
    · split
      · exact h
      · exact h
    · exact h

end Levels

/-! ### The walk -/

namespace RestoreWalk

variable {w w' w'' : RestoreWalk}

/-- The levels of a walk on a target are held. -/
def Held (w : RestoreWalk) : Prop := w.target.Tree ∧ LevelsHeld w.target w.levels

/-- A step of a walk. -/
def Keeps (w w' : RestoreWalk) : Prop := w.Held → w.target.Confined w'.target ∧ w'.Held

theorem Keeps.refl (w : RestoreWalk) : w.Keeps w := fun h => ⟨.refl, h⟩

theorem Keeps.trans (h : w.Keeps w') (h' : w'.Keeps w'') : w.Keeps w'' := fun hw =>
  have ⟨hc, hw'⟩ := h hw
  have ⟨hc', hw''⟩ := h' hw'
  ⟨hc.trans hc', hw''⟩

/-- A step that has to do with neither the target nor the levels. -/
theorem Keeps.of_eq (ht : w'.target = w.target) (hl : w'.levels = w.levels) : w.Keeps w' := by
  intro h
  rw [Held, ht, hl]
  exact ⟨.refl, h⟩

/-- A step on the target below levels that stay as they are. -/
theorem keeps_of_confined (hl : w'.levels = w.levels)
    (hc : w.Held → w.target.Confined w'.target) : w.Keeps w' := fun h =>
  ⟨hc h, (hc h).tree h.1, hl ▸ h.2.mono (hc h)⟩

theorem keeps_pop (w : RestoreWalk) : w.Keeps w.pop := fun h => ⟨.refl, h.1, h.2.tail⟩

theorem keeps_ensure (w : RestoreWalk) (forWriting : Bool) :
    w.Keeps { w with
      levels := (ensure forWriting w.levels w.target).2.1
      target := (ensure forWriting w.levels w.target).2.2 } := fun h =>
  have ⟨hc, hls, _, _⟩ := held_ensure h.1 h.2 forWriting
  ⟨hc, hc.tree h.1, hls⟩

theorem keeps_create (w : RestoreWalk) : w.Keeps w.create.2 := w.keeps_ensure false

theorem keeps_open (w : RestoreWalk) : w.Keeps w.open_.2 := w.keeps_ensure true

theorem keeps_createIf (w : RestoreWalk) (b : Bool) : w.Keeps (w.createIf b).2 := by
  cases b
  · exact .refl w
  · exact w.keeps_create

theorem keeps_openIf (w : RestoreWalk) (b : Bool) : w.Keeps (w.openIf b).2 := by
  cases b
  · exact .refl w
  · exact w.keeps_open

/-- The deepest level is a directory once it is open. -/
theorem inside_open (h : w.Held) (ho : w.open_.1 = .ok ()) :
    w.open_.2.target.Inside (levelPath w.open_.2.levels) := by
  obtain ⟨-, -, hpath, hin⟩ := held_ensure h.1 h.2 true
  rw [show levelPath w.open_.2.levels = levelPath w.levels from hpath]
  exact hin ho

/-! ### Entries -/

section Entries

variable (env : IndexLoads) (repo : Repository) {dir : RelPath} {node : Entry}

theorem confined_restoreFile (h : w.target.Inside dir) :
    w.target.Confined (w.restoreFile env repo dir node).2.target ∧
      (w.restoreFile env repo dir node).2.levels = w.levels := by
  have htouch := h.touch
  unfold restoreFile
  repeat' split
  all_goals first | exact ⟨.refl, rfl⟩ | exact ⟨htouch, rfl⟩

theorem confined_restoreCopy (h : w.target.Inside dir) (hname : Entry.cleanName node.name) :
    w.target.Confined (w.restoreCopy env repo dir node).2.target ∧
      (w.restoreCopy env repo dir node).2.levels = w.levels := by
  obtain ⟨hc, hl⟩ := @confined_restoreFile w env repo dir node h
  unfold restoreCopy
  dsimp only
  rcases hf : w.restoreFile env repo dir node with ⟨_ | bytes, w₁⟩ <;> rw [hf] at hc hl
  · exact ⟨hc, hl⟩
  · dsimp only at hc hl ⊢
    generalize TargetMeta.applyMeta _ _ _ _ = applied
    have hcommit := (h.mono hc).commit hname (.file w₁.target.nextIno bytes applied.2)
    rcases hm : w₁.target.commit dir node.name (.file w₁.target.nextIno bytes applied.2) with
      ⟨_ | u, t'⟩ <;> rw [hm] at hcommit
    · exact ⟨hc.trans hcommit, hl⟩
    · exact ⟨(hc.trans hcommit).trans (confined_nextIno _ _), hl⟩

theorem confined_restoreFileEntry (h : w.target.Inside dir) (hname : Entry.cleanName node.name) :
    w.target.Confined (w.restoreFileEntry env repo dir node).2.target ∧
      (w.restoreFileEntry env repo dir node).2.levels = w.levels := by
  unfold restoreFileEntry
  split
  · exact confined_restoreCopy env repo h hname
  · next first _ =>
    have hl := h.linkToFirst hname first
    rcases hr : w.target.linkToFirst first dir node.name with ⟨_ | u, t'⟩ <;> rw [hr] at hl
    · obtain ⟨hc, hlevels⟩ := confined_restoreCopy env repo (w := { w with target := t' })
        (h.mono hl) hname
      exact ⟨hl.trans hc, hlevels⟩
    · exact ⟨hl, rfl⟩

theorem confined_restoreSymlink (h : w.target.Inside dir) (hname : Entry.cleanName node.name) :
    w.target.Confined (w.restoreSymlink dir node).2.target ∧
      (w.restoreSymlink dir node).2.levels = w.levels := by
  have hr := h.replaceWithSymlink hname node.target
  unfold restoreSymlink
  rcases hl : w.target.replaceWithSymlink dir node.name node.target with ⟨_ | u, t'⟩ <;>
    rw [hl] at hr
  · exact ⟨hr, rfl⟩
  · exact ⟨hr.trans ((h.mono hr).applySymlinkMeta hname node), rfl⟩

end Entries

/-! ### Directories -/

section Walk

variable (env : IndexLoads) (repo : Repository) {dir : Option RestoreDir}

/-- What goes down into directories keeps to them. -/
def DirKeeps (dir : Option RestoreDir) : Prop :=
  ∀ f ∈ dir, ∀ w e pos, Entry.cleanName e.name → Keeps w (f w e pos).2

theorem cleanName_of_validateChildName {name : Bytes} (h : validateChildName name = .ok ()) :
    Entry.cleanName name := by
  unfold validateChildName at h
  dsimp only at h
  split_ifs at h with h₁ h₂ h₃ h₄
  exact ⟨h₁, h₃, h₄, fun h => h₂ (.inl h), fun h => h₂ (.inr h)⟩

theorem keeps_restoreKind (hdir : DirKeeps dir) (w : RestoreWalk) {e : Entry}
    (hname : Entry.cleanName e.name) (pos : Pos) :
    w.Keeps (w.restoreKind env repo dir e pos).2 := by
  have hopen := w.keeps_open
  unfold restoreKind
  split
  · split_ifs
    · exact .refl w
    · split
      · exact .refl w
      · next f => exact hdir f rfl w e pos hname
  · intro hw
    have hin := inside_open hw
    rcases ho : w.open_ with ⟨_ | _, w₁⟩ <;> rw [ho] at hopen hin
    · exact hopen hw
    · obtain ⟨hc, hl⟩ := confined_restoreFileEntry env repo (hin rfl) hname
      exact (hopen.trans (keeps_of_confined hl fun _ => hc)) hw
  · intro hw
    have hin := inside_open hw
    rcases ho : w.open_ with ⟨_ | _, w₁⟩ <;> rw [ho] at hopen hin
    · exact hopen hw
    · obtain ⟨hc, hl⟩ := confined_restoreSymlink (hin rfl) hname
      exact (hopen.trans (keeps_of_confined hl fun _ => hc)) hw

theorem keeps_restoreNode (hdir : DirKeeps dir) (w : RestoreWalk) {e : Entry}
    (hname : Entry.cleanName e.name) (pos : Pos) :
    w.Keeps (w.restoreNode env repo dir e pos) := by
  have h := keeps_restoreKind env repo hdir w hname pos
  unfold restoreNode
  dsimp only
  rcases hk : w.restoreKind env repo dir e pos with ⟨_ | _, w₁⟩ <;> rw [hk] at h
  · exact h.trans (.of_eq rfl rfl)
  · exact h

theorem keeps_restoreEntries (hdir : DirKeeps dir)
    (after : RestoreWalk → Except CoreError Unit × RestoreWalk) (hafter : ∀ w, Keeps w (after w).2)
    (pos : Pos) (es : List Entry) :
    ∀ w : RestoreWalk, w.Keeps (restoreEntries env repo dir after pos es w).2 := by
  induction es with
  | nil => exact .refl
  | cons e es ih =>
    intro w
    unfold restoreEntries
    split
    · next err _ => exact Keeps.trans (.of_eq rfl rfl) (ih (w.note (levelPath w.levels) err))
    · next hname =>
      split
      · next select _ => exact Keeps.trans (.of_eq rfl rfl) (ih { w with select })
      · next child select _ =>
        have hopen := ({ w with select } : RestoreWalk).keeps_openIf child.selected
        have hsel : w.Keeps { w with select } := .of_eq rfl rfl
        rcases ho : ({ w with select } : RestoreWalk).openIf child.selected with ⟨_ | _, w₁⟩ <;>
          rw [ho] at hopen
        · dsimp only
          rw [ho]
          exact hsel.trans hopen
        · have hnode :=
            keeps_restoreNode env repo hdir w₁ (cleanName_of_validateChildName hname) child
          have haft := hafter (w₁.restoreNode env repo dir e child)
          dsimp only
          rw [ho]
          dsimp only
          rcases ha : after (w₁.restoreNode env repo dir e child) with ⟨_ | _, w₂⟩ <;>
            rw [ha] at haft
          · exact ((hsel.trans hopen).trans hnode).trans haft
          · exact (((hsel.trans hopen).trans hnode).trans haft).trans (ih _)

/-- The metadata goes to the directory that is open. -/
theorem keeps_finishDir (w : RestoreWalk) (e : Entry)
    (hopen : (w.levels.head?.bind PendingDir.handle).isSome) : w.Keeps (w.finishDir e).2 := by
  unfold finishDir
  split
  · exact .refl w
  · next l ls hl =>
    dsimp only
    split_ifs
    · exact .of_eq rfl rfl
    · split
      · exact .of_eq rfl rfl
      · refine keeps_of_confined rfl fun hw => ?_
        have hls := hw.2
        rw [hl] at hls hopen
        exact Inside.putMeta ⟨hw.1, hls.2.2.1 hopen, hls.clean⟩ _

theorem keeps_restoreContent (hdir : DirKeeps dir) (w : RestoreWalk) (e : Entry) (pos : Pos) :
    w.Keeps (w.restoreContent env repo dir e pos).2 := by
  have hcreate := w.keeps_createIf pos.selected
  unfold restoreContent
  rcases hc : w.createIf pos.selected with ⟨_ | _, w₁⟩ <;> rw [hc] at hcreate
  · exact hcreate
  · dsimp only
    split
    · exact hcreate
    · next children _ =>
      have hes := keeps_restoreEntries env repo hdir (fun w => (.ok (), w))
        Keeps.refl pos children w₁
      rcases hr : restoreEntries env repo dir (fun w => (.ok (), w)) pos children
        w₁ with ⟨_ | _, w₂⟩ <;>
        rw [hr] at hes
      · exact hcreate.trans hes
      · dsimp only
        split_ifs with hsome
        · exact hcreate.trans hes
        · have hopen := w₂.keeps_open
          rcases ho : w₂.open_ with ⟨_ | _, w₃⟩ <;> rw [ho] at hopen
          · exact (hcreate.trans hes).trans hopen
          · refine ((hcreate.trans hes).trans hopen).trans (w₃.keeps_finishDir e ?_)
            have hstill := handle_ensure
              (Option.isSome_iff_ne_none.2 fun hn => hsome (by rw [hn]; rfl)) true w₂.target
            have hlevels : (ensure true w₂.levels w₂.target).2.1 = w₃.levels :=
              congrArg (fun x => x.2.levels) ho
            rwa [hlevels] at hstill

/-- A directory entry of a clean name is a level of a clean path. -/
theorem keeps_restoreDirs : ∀ n, DirKeeps (restoreDirs env repo n)
  | 0 => nofun
  | n + 1 => by
    intro f hf w e pos hname
    cases hf
    have hpush : w.Keeps (w.push (.child (levelPath w.levels) e)) := fun h =>
      ⟨.refl, h.1, rfl, fun c hc => by rwa [List.mem_singleton.1 hc], nofun, h.2⟩
    exact (hpush.trans (keeps_restoreContent env repo (keeps_restoreDirs n) _ e pos)).trans
      (keeps_pop _)

theorem keeps_recheckBase (w : RestoreWalk) : w.Keeps w.recheckBase.2 := by
  unfold recheckBase
  split_ifs
  · exact w.keeps_create
  · exact .refl w

theorem clean_settle {placement : Placement} {entries : List Entry} {rel : RelPath} {pos : Pos}
    (hclean : ∀ c ∈ placement.rel, Entry.cleanName c) (h : placement.settle entries = (rel, pos)) :
    ∀ c ∈ rel, Entry.cleanName c := by
  unfold Placement.settle at h
  split at h
  · split_ifs at h <;> cases h
    · exact fun c hc => hclean c (List.mem_of_mem_dropLast hc)
    · exact hclean
  · cases h
    exact hclean

theorem keeps_restorePlacement (w : RestoreWalk) {placement : Placement}
    (hclean : ∀ c ∈ placement.rel, Entry.cleanName c) :
    w.Keeps (w.restorePlacement env repo placement).2 := by
  unfold restorePlacement
  split
  · exact .refl w
  · next rel pos entries select ho =>
    have hrel := clean_settle hclean (Repository.openPlacement_eq_ok.1 ho).2.1
    have hbase : w.Keeps { w with select, levels := [.base rel] } := fun h =>
      ⟨.refl, h.1, rfl, hrel, nofun, trivial⟩
    dsimp only
    have hcreate :=
      ({ w with select, levels := [.base rel] } : RestoreWalk).keeps_createIf pos.selected
    rcases hc : ({ w with select, levels := [.base rel] } : RestoreWalk).createIf pos.selected with
      ⟨_ | _, w₁⟩ <;> rw [hc] at hcreate
    · exact hbase.trans hcreate
    · have hes := keeps_restoreEntries env repo
        (keeps_restoreDirs env repo (maxTreeDepth - 1)) recheckBase keeps_recheckBase pos entries w₁
      exact ((hbase.trans hcreate).trans hes).trans (keeps_pop _)

theorem keeps_restorePlacements {placements : List Placement}
    (hclean : ∀ p ∈ placements, ∀ c ∈ p.rel, Entry.cleanName c) :
    ∀ w : RestoreWalk, w.Keeps (restorePlacements env repo placements w).2 := by
  induction placements with
  | nil => exact .refl
  | cons placement placements ih =>
    intro w
    have h := keeps_restorePlacement env repo w (hclean _ List.mem_cons_self)
    unfold restorePlacements
    rcases hp : w.restorePlacement env repo placement with ⟨_ | _, w₁⟩ <;> rw [hp] at h
    · exact h
    · exact h.trans (ih (fun p hp => hclean p (List.mem_cons_of_mem _ hp)) w₁)

end Walk
end RestoreWalk

/-! ### The places of the roots -/

theorem notMem_of_mem_splitOn {α : Type*} [BEq α] [LawfulBEq α] {a : α} {c : List α} :
    ∀ {xs : List α}, c ∈ xs.splitOn a → a ∉ c
  | [], h => by
    rw [List.splitOn_nil, List.mem_singleton] at h
    rw [h]
    exact List.not_mem_nil
  | x :: xs, h => by
    rw [List.splitOn_eq_splitOnP, List.splitOnP_cons_eq_if_modifyHead] at h
    split_ifs at h with hx
    · rcases List.mem_cons.1 h with rfl | h
      · exact List.not_mem_nil
      · exact notMem_of_mem_splitOn h
    · cases hs : List.splitOnP (· == a) xs with
      | nil => exact absurd hs (List.splitOnP_ne_nil _ _)
      | cons d ds =>
        rw [hs, List.modifyHead_cons] at h
        have hall : ∀ d' ∈ d :: ds, a ∉ d' := fun d' hd' => by
          refine @notMem_of_mem_splitOn _ _ _ a d' xs ?_
          rwa [List.splitOn_eq_splitOnP, hs]
        rcases List.mem_cons.1 h with rfl | h
        · rw [List.mem_cons, not_or]
          exact ⟨fun ha => hx (by rw [← ha, BEq.rfl]), hall d List.mem_cons_self⟩
        · exact hall c (List.mem_cons_of_mem _ h)

theorem cleanName_locatorComponent {c c' : Bytes} (hne : c ≠ []) (hdot : c ≠ [46])
    (hslash : (47 : UInt8) ∉ c) (h : locatorComponent c = .ok c') : Entry.cleanName c' := by
  unfold locatorComponent at h
  split_ifs at h with hparent hnul
  · cases h
    decide +kernel
  · cases h
    exact ⟨hne, hslash, hnul, hdot, hparent⟩

/-- Whatever bytes a locator has, its components are clean. -/
theorem cleanName_locatorComponents {bytes : Bytes} {names : List Bytes}
    (h : locatorComponents bytes = .ok names) : ∀ c ∈ names, Entry.cleanName c := by
  have hsplit : ∀ c ∈ ((stripScheme bytes).splitOn 47).filter fun c => c ≠ [] ∧ c ≠ [46],
      c ≠ [] ∧ c ≠ [46] ∧ (47 : UInt8) ∉ c := by
    intro c hc
    obtain ⟨hc, hne⟩ := List.mem_filter.1 hc
    rw [decide_eq_true_eq] at hne
    exact ⟨hne.1, hne.2, notMem_of_mem_splitOn hc⟩
  unfold locatorComponents at h
  generalize ((stripScheme bytes).splitOn 47).filter (fun c => c ≠ [] ∧ c ≠ [46]) =
    comps at h hsplit
  induction comps generalizing names with
  | nil =>
    cases h
    nofun
  | cons c comps ih =>
    rw [List.mapM_cons] at h
    obtain ⟨c', hc', h⟩ := Checked.bind_eq_ok.1 h
    obtain ⟨names', hnames, h⟩ := Checked.bind_eq_ok.1 h
    cases h
    obtain ⟨hne, hdot, hslash⟩ := hsplit c List.mem_cons_self
    intro d hd
    rcases List.mem_cons.1 hd with rfl | hd
    · exact cleanName_locatorComponent hne hdot hslash hc'
    · exact ih hnames (fun c hc => hsplit c (List.mem_cons_of_mem _ hc)) d hd

section Places

variable {repo : Repository} {select : Select} {subtree : List Bytes} {root : Root}
  {roots : List Root} {placement : Placement}

theorem rel_placeInside {names : List Bytes}
    (h : repo.placeInside root names subtree select = .ok (.here placement)) :
    placement.rel = [] := by
  unfold Repository.placeInside at h
  obtain ⟨entries, -, h⟩ := Checked.bind_eq_ok.1 h
  split_ifs at h
  · cases h
  · obtain ⟨content, -, h⟩ := Checked.bind_eq_ok.1 h
    repeat' split at h
    all_goals cases h
    rfl

theorem clean_placeRoot (h : repo.placeRoot root subtree select = .ok (.here placement)) :
    ∀ c ∈ placement.rel, Entry.cleanName c := by
  unfold Repository.placeRoot at h
  obtain ⟨names, hnames, h⟩ := Checked.bind_eq_ok.1 h
  have hclean := cleanName_locatorComponents hnames
  split_ifs at h
  · cases h
  · repeat' split at h
    all_goals cases h
    exact fun c hc => hclean c (List.mem_of_mem_drop hc)
  · rw [rel_placeInside h]
    nofun

/-- A root goes to a path of clean names. -/
theorem clean_placeRoots {placements : List Placement}
    (h : repo.placeRoots roots subtree select = .ok placements) :
    ∀ p ∈ placements, ∀ c ∈ p.rel, Entry.cleanName c := by
  unfold Repository.placeRoots at h
  obtain ⟨⟨placements', found⟩, hes, h⟩ := Checked.bind_eq_ok.1 h
  dsimp only at h
  split_ifs at h
  · cases h
  · cases h
    intro p hp
    obtain ⟨root, -, h⟩ := Repository.exists_root_of_placeEach hes p hp
    exact clean_placeRoot h

end Places

/-! ### The dry run -/

namespace Plan

variable {p : Plan}

/-- A report is about a path of clean names, and not about the target itself. -/
def Below (path : RelPath) : Prop := path ≠ [] ∧ ∀ c ∈ path, Entry.cleanName c

/-- So are all reports of a dry run, and the directories that it may still report. -/
structure Clean (p : Plan) : Prop where
  levels : ∀ l ∈ p.levels, l.snapshotDir → Below l.path
  onNode : ∀ r ∈ p.onNode, Below r.1

theorem below_concat {path : RelPath} {name : Bytes} (hpath : ∀ c ∈ path, Entry.cleanName c)
    (hname : Entry.cleanName name) : Below (path ++ [name]) :=
  ⟨by simp, by simpa [or_imp, forall_and] using ⟨hpath, hname⟩⟩

theorem clean_openLevels {ls : List PlanLevel} {log : List (RelPath × PlannedNode)}
    (hls : ∀ l ∈ ls, l.snapshotDir → Below l.path) (hlog : ∀ r ∈ log, Below r.1) :
    (∀ l ∈ (openLevels ls log).1, l.snapshotDir → Below l.path) ∧
      ∀ r ∈ (openLevels ls log).2, Below r.1 := by
  induction ls with
  | nil => exact ⟨hls, hlog⟩
  | cons l ls ih =>
    obtain ⟨hl, hls⟩ := List.forall_mem_cons.1 hls
    obtain ⟨hls', hlog'⟩ := ih hls
    unfold openLevels
    dsimp only
    split_ifs with hc hdir
    · exact ⟨List.forall_mem_cons.2 ⟨hl, hls'⟩, hlog'⟩
    · refine ⟨List.forall_mem_cons.2 ⟨hl, hls'⟩, fun r hr => ?_⟩
      rcases List.mem_append.1 hr with hr | hr
      · exact hlog' r hr
      · rw [List.mem_singleton.1 hr]
        exact hl hdir
    · exact ⟨List.forall_mem_cons.2 ⟨hl, hls'⟩, hlog'⟩

theorem Clean.open_ (h : p.Clean) : p.open_.Clean :=
  have ⟨hls, hlog⟩ := clean_openLevels h.levels h.onNode
  ⟨hls, hlog⟩

theorem Clean.openIf (h : p.Clean) (b : Bool) : (p.openIf b).Clean := by
  cases b
  · exact h
  · exact h.open_

theorem Clean.pop (h : p.Clean) : p.pop.Clean :=
  ⟨fun l hl => h.levels l (List.mem_of_mem_tail hl), h.onNode⟩

/-- A step that has to do with neither the levels nor the reports. -/
theorem Clean.of_eq {p' : Plan} (h : p.Clean) (hl : p'.levels = p.levels)
    (hn : p'.onNode = p.onNode) : p'.Clean := ⟨hl ▸ h.levels, hn ▸ h.onNode⟩

theorem Clean.leaf (h : p.Clean) {path : RelPath} (hpath : Below path) (kind : PlannedNode) :
    (p.leaf path kind).Clean := by
  have hnode : ∀ r ∈ p.open_.onNode ++ [(path, kind)], Below r.1 := by
    intro r hr
    rcases List.mem_append.1 hr with hr | hr
    · exact h.open_.onNode r hr
    · rw [List.mem_singleton.1 hr]
      exact hpath
  cases kind <;> exact ⟨h.open_.levels, hnode⟩

section Walk

variable (repo : Repository) {dir : Option PlanDir}

/-- What goes down into directories reports clean paths. -/
def DirClean (dir : Option PlanDir) : Prop :=
  ∀ g ∈ dir, ∀ p node path pos, Clean p → Below path → (g p node path pos).2.Clean

theorem clean_planNode (hdir : DirClean dir) (h : p.Clean) (node : Entry) {path : RelPath}
    (hpath : Below path) (pos : Pos) : (p.planNode dir node path pos).Clean := by
  have hkind : (p.planKind dir node path pos).2.Clean := by
    unfold planKind
    split
    · split_ifs
      · exact h
      · split
        · exact h
        · next g => exact hdir g rfl p node path pos h hpath
    · exact h.leaf hpath .file
    · exact h.leaf hpath .symlink
  unfold planNode
  rcases hk : p.planKind dir node path pos with ⟨_ | _, p₁⟩ <;> rw [hk] at hkind
  · exact hkind.of_eq rfl rfl
  · exact hkind

theorem clean_planEntries (hdir : DirClean dir) {path : RelPath}
    (hpath : ∀ c ∈ path, Entry.cleanName c) (pos : Pos) (es : List Entry) :
    ∀ p : Plan, p.Clean → (planEntries dir path pos es p).Clean := by
  induction es with
  | nil => exact fun _ h => h
  | cons e es ih =>
    intro p h
    unfold planEntries
    split
    · exact ih _ (h.of_eq rfl rfl)
    · next hname =>
      have hclean := RestoreWalk.cleanName_of_validateChildName hname
      split
      · exact ih _ (h.of_eq rfl rfl)
      · next child select _ =>
        exact ih _ (clean_planNode hdir
          (Clean.openIf (p := { p with select }) (h.of_eq rfl rfl) _) e
          (below_concat hpath hclean) child)

theorem clean_planDirs : ∀ n, DirClean (planDirs repo n)
  | 0 => nofun
  | n + 1 => by
    intro g hg p node path pos h hpath
    cases hg
    have hpush : (p.push ⟨path, true, false⟩).Clean :=
      ⟨List.forall_mem_cons.2 ⟨fun _ => hpath, h.levels⟩, h.onNode⟩
    have hopen := hpush.openIf pos.selected
    unfold planDirWith
    dsimp only
    split
    · exact hopen.pop
    · next children _ =>
      have hes := clean_planEntries (clean_planDirs n) hpath.2 pos children _ hopen
      split_ifs
      · exact hes.pop.of_eq rfl rfl
      · exact hes.pop

theorem clean_planPlacement (h : p.Clean) {placement : Placement}
    (hclean : ∀ c ∈ placement.rel, Entry.cleanName c) :
    (p.planPlacement repo placement).2.Clean := by
  unfold planPlacement
  split
  · exact h
  · next rel pos entries select ho =>
    have hrel := RestoreWalk.clean_settle hclean (Repository.openPlacement_eq_ok.1 ho).2.1
    have hpush : (({ p with select } : Plan).push ⟨rel, false, false⟩).Clean :=
      ⟨List.forall_mem_cons.2 ⟨nofun, h.levels⟩, h.onNode⟩
    exact (clean_planEntries (clean_planDirs repo _) hrel pos entries _
      (hpush.openIf pos.selected)).pop

theorem clean_planPlacements {placements : List Placement}
    (hclean : ∀ p ∈ placements, ∀ c ∈ p.rel, Entry.cleanName c) :
    ∀ p : Plan, p.Clean → (planPlacements repo placements p).2.Clean := by
  induction placements with
  | nil => exact fun _ h => h
  | cons placement placements ih =>
    intro p h
    have hp := clean_planPlacement repo h (hclean _ List.mem_cons_self)
    unfold planPlacements
    rcases hr : p.planPlacement repo placement with ⟨_ | _, p₁⟩ <;> rw [hr] at hp
    · exact hp
    · exact ih (fun q hq => hclean q (List.mem_cons_of_mem _ hq)) p₁ hp

end Walk
end Plan

/-! ### The whole restore -/

section Confined

variable (repo : Repository) (env : IndexLoads) (key : SnapshotKey) (opts : RestoreOptions)

/-- **Confinement.** A restore of any snapshot onto any target, however it ends, changes one object
after the other, each under a clean name in a directory that is reached through directories only. At
the end, too, only directories lie above what has changed. A dry run reports such paths alone. -/
theorem restore_confined {t : Target} (ht : t.Tree) :
    t.Confined (repo.restore env key t opts).2 ∧
      (∀ q, (repo.restore env key t opts).2.node q ≠ t.node q →
        (∀ c ∈ q, Entry.cleanName c) ∧
          ∀ p, p <+: q → p ≠ q → (repo.restore env key t opts).2.IsDir p) ∧
      ∀ r ∈ (repo.planRestore key opts).2, r.1 ≠ [] ∧ ∀ c ∈ r.1, Entry.cleanName c := by
  have hrestore : t.Confined (repo.restore env key t opts).2 := by
    unfold Repository.restore
    split
    · exact .refl
    · next select placements index hok =>
      obtain ⟨select', -, hok⟩ := Checked.bind_eq_ok.1 hok
      obtain ⟨snapshot, -, hok⟩ := Checked.bind_eq_ok.1 hok
      obtain ⟨placements', hplaces, hok⟩ := Checked.bind_eq_ok.1 hok
      obtain ⟨index', -, hok⟩ := Checked.bind_eq_ok.1 hok
      cases hok
      have hkeeps := (RestoreWalk.keeps_restorePlacements env repo (clean_placeRoots hplaces)
        ⟨t, [], ⟨index, 1, 0⟩, {}, ∅, select⟩ ⟨ht, trivial⟩).1
      rcases hr : RestoreWalk.restorePlacements env repo placements
        ⟨t, [], ⟨index, 1, 0⟩, {}, ∅, select⟩ with ⟨_ | _, w⟩ <;> rw [hr] at hkeeps
      · exact hkeeps
      · exact hkeeps
  refine ⟨hrestore, fun q => hrestore.changed, ?_⟩
  unfold Repository.planRestore
  split
  · nofun
  · next select placements hok =>
    obtain ⟨select', -, hok⟩ := Checked.bind_eq_ok.1 hok
    obtain ⟨snapshot, -, hok⟩ := Checked.bind_eq_ok.1 hok
    obtain ⟨placements', hplaces, hok⟩ := Checked.bind_eq_ok.1 hok
    cases hok
    have hclean := (Plan.clean_planPlacements repo (clean_placeRoots hplaces) ⟨select, {}, [], []⟩
      ⟨nofun, nofun⟩).onNode
    rcases hr : Plan.planPlacements repo placements ⟨select, {}, [], []⟩ with ⟨_ | _, p⟩ <;>
      rw [hr] at hclean
    · exact hclean
    · exact hclean

end Confined

/-- A target in which a symlink lies where the root of a snapshot goes. -/
def linkInTheWay : Target where
  node q := if q = [] then some (.dir { mode := 0o755 })
    else if q = [[114]] then some (.symlink 1 [47] none none) else none
  asRoot := false
  umask mode := mode
  nextIno := 2

/-- Nothing is restored through it: what the snapshot has below the root is not there. -/
theorem restore_confined_linkInTheWay :
    (Repository.twoLinks.restore ⟨fun _ => .ok .new, fun _ => false⟩ ⟨1, 100⟩ linkInTheWay
      (.everything keepCase)).2.node [[114], [107]] = none := by
  have ht : linkInTheWay.Tree := by
    refine ⟨⟨_, rfl⟩, fun q name hn => ?_⟩
    have hq : q ++ [name] = [[114]] := by
      by_contra hq
      exact hn ((if_neg (by simp)).trans (if_neg hq))
    obtain rfl : q = [] := (List.append_eq_singleton_iff.1 hq).elim And.left fun h => by cases h.2
    exact ⟨_, rfl⟩
  have hnone : linkInTheWay.node [[114], [107]] = none := rfl
  by_contra hne
  obtain ⟨m, hm⟩ :=
    ((restore_confined Repository.twoLinks ⟨fun _ => .ok .new, fun _ => false⟩ ⟨1, 100⟩
    (.everything keepCase) ht).2.1 [[114], [107]] (by rwa [hnone])).2 [[114]] (by simp) (by simp)
  have hlink : ((Repository.twoLinks.restore ⟨fun _ => .ok .new, fun _ => false⟩
    ⟨1, 100⟩ linkInTheWay
      (.everything keepCase)).2.node [[114]]).map TargetNode.kind =
        some .symlink := by decide +kernel
  rw [hm] at hlink
  cases hlink

end Kist
