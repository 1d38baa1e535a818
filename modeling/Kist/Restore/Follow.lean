import Kist.Restore.Mirror

/-!
# The restore follows its dry run

The restore and the dry run are two traversals of the same trees. Step by step the restore does what
the dry run reports, counts the same and notes the same errors, or else something outside the
snapshot is in its way and it reports an error.

* `Sim`: the two traversals are at the same point.
* `placements_follow`: they stay so.
-/

namespace Kist

/-! ### Errors stay -/

namespace RestoreWalk

/-- No error is taken back. -/
def Noted (w w' : RestoreWalk) : Prop := w.summary.errors <+: w'.summary.errors

section Noted

variable (env : IndexLoads) (repo : Repository) {w w' w'' : RestoreWalk} {dir : Option RestoreDir}

theorem Noted.refl (w : RestoreWalk) : w.Noted w := List.prefix_rfl

theorem Noted.trans (h : w.Noted w') (h' : w'.Noted w'') : w.Noted w'' := List.IsPrefix.trans h h'

theorem Noted.ne_nil (h : w.Noted w') (hne : w.summary.errors ≠ []) : w'.summary.errors ≠ [] :=
  fun hnil => hne (List.prefix_nil.1 (hnil ▸ h))

theorem Noted.of_eq (h : w'.summary.errors = w.summary.errors) : w.Noted w' := by
  rw [Noted, h]

theorem noted_note (w : RestoreWalk) (path : RelPath) (e : CoreError) : w.Noted (w.note path e) :=
  List.prefix_append _ _

theorem errors_note (w : RestoreWalk) (path : RelPath) (e : CoreError) :
    (w.note path e).summary.errors ≠ [] := by simp [note]

theorem noted_create (w : RestoreWalk) : w.Noted w.create.2 := .refl w

theorem noted_open (w : RestoreWalk) : w.Noted w.open_.2 := .refl w

theorem noted_createIf (w : RestoreWalk) (b : Bool) : w.Noted (w.createIf b).2 := by
  cases b
  · exact .refl w
  · exact w.noted_create

theorem noted_openIf (w : RestoreWalk) (b : Bool) : w.Noted (w.openIf b).2 := by
  cases b
  · exact .refl w
  · exact w.noted_open

theorem noted_restoreKind (hdir : ∀ f ∈ dir, ∀ w e pos, Noted w (f w e pos).2) (w : RestoreWalk)
    (e : Entry) (pos : Pos) : w.Noted (w.restoreKind env repo dir e pos).2 := by
  have hopen := w.noted_open
  unfold restoreKind
  split
  · split_ifs
    · exact .refl w
    · split
      · exact .refl w
      · next f => exact hdir f rfl w e pos
  · rcases ho : w.open_ with ⟨_ | _, w₁⟩ <;> rw [ho] at hopen
    · exact hopen
    · exact hopen.trans (.of_eq (restoreFileEntry_spec w₁ _ e).1.errors)
  · rcases ho : w.open_ with ⟨_ | _, w₁⟩ <;> rw [ho] at hopen
    · exact hopen
    · exact hopen.trans (.of_eq (restoreSymlink_spec w₁ _ e).1.errors)

theorem noted_restoreNode (hdir : ∀ f ∈ dir, ∀ w e pos, Noted w (f w e pos).2) (w : RestoreWalk)
    (e : Entry) (pos : Pos) : w.Noted (w.restoreNode env repo dir e pos) := by
  have h := noted_restoreKind env repo hdir w e pos
  unfold restoreNode
  dsimp only
  rcases hk : w.restoreKind env repo dir e pos with ⟨_ | _, w₁⟩ <;> rw [hk] at h
  · exact h.trans (w₁.noted_note _ _)
  · exact h

theorem noted_restoreEntries (hdir : ∀ f ∈ dir, ∀ w e pos, Noted w (f w e pos).2)
    (after : RestoreWalk → Except CoreError Unit × RestoreWalk) (hafter : ∀ w, Noted w (after w).2)
      (pos : Pos) (es : List Entry) :
    ∀ w : RestoreWalk, w.Noted (restoreEntries env repo dir after pos es w).2 := by
  induction es with
  | nil => exact .refl
  | cons e es ih =>
    intro w
    unfold restoreEntries
    split
    · exact (w.noted_note _ _).trans (ih _)
    · split
      · next select _ => exact Noted.trans (.of_eq rfl) (ih { w with select })
      · next child select _ =>
        have hopen := ({ w with select } : RestoreWalk).noted_openIf child.selected
        rcases ho : ({ w with select } : RestoreWalk).openIf child.selected with ⟨_ | _, w₁⟩ <;>
          rw [ho] at hopen
        · dsimp only
          rw [ho]
          exact hopen
        · have hnode := noted_restoreNode env repo hdir w₁ e child
          have haft := hafter (w₁.restoreNode env repo dir e child)
          dsimp only
          rw [ho]
          dsimp only
          rcases ha : after (w₁.restoreNode env repo dir e child) with ⟨_ | _, w₂⟩ <;>
            rw [ha] at haft
          · exact (Noted.trans hopen hnode).trans haft
          · exact ((Noted.trans hopen hnode).trans haft).trans (ih _)

theorem noted_finishDir (w : RestoreWalk) (e : Entry) : w.Noted (w.finishDir e).2 := by
  unfold finishDir
  split
  · exact .refl w
  · dsimp only
    split_ifs
    · exact .of_eq rfl
    · split
      · exact .of_eq rfl
      · exact .of_eq rfl

theorem noted_restoreContent (hdir : ∀ f ∈ dir, ∀ w e pos, Noted w (f w e pos).2) (w : RestoreWalk)
    (e : Entry) (pos : Pos) : w.Noted (w.restoreContent env repo dir e pos).2 := by
  have hcreate := w.noted_createIf pos.selected
  unfold restoreContent
  rcases hc : w.createIf pos.selected with ⟨_ | _, w₁⟩ <;> rw [hc] at hcreate
  · exact hcreate
  · dsimp only
    split
    · exact hcreate
    · next children _ =>
      have hes := noted_restoreEntries env repo hdir (fun w => (.ok (), w))
        Noted.refl pos children w₁
      rcases hr : restoreEntries env repo dir (fun w => (.ok (), w)) pos children
        w₁ with ⟨_ | _, w₂⟩ <;>
        rw [hr] at hes
      · exact hcreate.trans hes
      · dsimp only
        split_ifs
        · exact hcreate.trans hes
        · have hopen := w₂.noted_open
          rcases ho : w₂.open_ with ⟨_ | _, w₃⟩ <;> rw [ho] at hopen
          · exact (hcreate.trans hes).trans hopen
          · exact ((hcreate.trans hes).trans hopen).trans (w₃.noted_finishDir e)

theorem noted_restoreDirs : ∀ n, ∀ f ∈ restoreDirs env repo n, ∀ w e pos, Noted w (f w e pos).2
  | 0, f, hf => nomatch hf
  | n + 1, f, hf => by
    cases hf
    intro w e pos
    have hpush : w.Noted (w.push (.child (levelPath w.levels) e)) := .of_eq rfl
    exact (hpush.trans (noted_restoreContent env repo (noted_restoreDirs n) _ e pos)).trans
      (.of_eq rfl)

theorem noted_recheckBase (w : RestoreWalk) : w.Noted w.recheckBase.2 := by
  unfold recheckBase
  split_ifs
  · exact w.noted_create
  · exact .refl w

theorem noted_restorePlacement (w : RestoreWalk) (placement : Placement) :
    w.Noted (w.restorePlacement env repo placement).2 := by
  unfold restorePlacement
  split
  · exact .refl w
  · next rel pos entries select _ =>
    dsimp only
    have hcreate :=
      ({ w with select, levels := [.base rel] } : RestoreWalk).noted_createIf pos.selected
    rcases hc : ({ w with select, levels := [.base rel] } : RestoreWalk).createIf pos.selected with
      ⟨_ | _, w₁⟩ <;> rw [hc] at hcreate
    · exact hcreate
    · have hes := noted_restoreEntries env repo
        (noted_restoreDirs env repo (maxTreeDepth - 1)) recheckBase noted_recheckBase pos entries w₁
      exact (Noted.trans hcreate hes).trans (.of_eq rfl)

theorem noted_restorePlacements (placements : List Placement) :
    ∀ w : RestoreWalk, w.Noted (restorePlacements env repo placements w).2 := by
  induction placements with
  | nil => exact .refl
  | cons placement placements ih =>
    intro w
    have h := noted_restorePlacement env repo w placement
    unfold restorePlacements
    rcases hp : w.restorePlacement env repo placement with ⟨_ | _, w₁⟩ <;> rw [hp] at h
    · exact h
    · exact h.trans (ih w₁)

end Noted
end RestoreWalk
/-! ### The two traversals -/

namespace RestoreSetting

open RestoreWalk Target

variable {c : RestoreSetting}

variable (c) in
/-- The restore and the dry run are at the same point. -/
structure Sim (w : RestoreWalk) (p : Plan) : Prop where
  select : w.select = p.select
  summary : w.summary = p.summary
  mirrors : c.Mirrors w.target w.hardlinks p.onNode w.levels p.levels
  index : c.Fine → w.index.index = c.index

variable (c) in
/-- What the dry run has reported is part of the whole report, and the places that it counts as made
are among those of the setting. -/
structure Allows (p : Plan) : Prop where
  report : p.onNode <+: c.report
  place : ∀ m ∈ p.levels, m.snapshotDir = false → m.created = true →
    ∀ q, q <+: m.path → c.AtPlace q

/-- The restore ended with an error, or has noted one. -/
def Broken (x : Except CoreError Unit × RestoreWalk) : Prop :=
  x.1 ≠ .ok () ∨ x.2.summary.errors ≠ []

variable (c) in
/-- A step of the restore from `w` on follows a step of the dry run, or something that is not in the
snapshot is in its way. -/
def Follows (w : RestoreWalk) (x : Except CoreError Unit × RestoreWalk)
    (y : Except CoreError Unit × Plan) : Prop :=
  (x.1 = y.1 ∧ c.Sim x.2 y.2 ∧ x.2.levels.map PendingDir.path = w.levels.map PendingDir.path) ∨
    ¬c.Fine ∧ Broken x

section Steps

variable (env : IndexLoads) {w w' : RestoreWalk} {p p' : Plan} {e : Entry} {pos : Pos}

theorem Sim.noted (h : c.Sim w p) (path : RelPath) (err : CoreError) :
    c.Sim (w.note path err) (p.note path err) :=
  ⟨h.select, by rw [RestoreWalk.note, Plan.note, h.summary], h.mirrors, h.index⟩

theorem Sim.selected (h : c.Sim w p) (select : Select) :
    c.Sim { w with select } { p with select } := ⟨rfl, h.summary, h.mirrors, h.index⟩

theorem Allows.mono (h : c.Allows p') (hg : p.Grows p') : c.Allows p := by
  refine ⟨hg.onNode.trans h.report, fun m hm hs hc q hq => ?_⟩
  obtain ⟨m', hm', hsame⟩ := Plan.exists_sameLevel hg.levels hm
  exact h.place m' hm' (hsame.snapshotDir.trans hs) (hsame.created hc) q (hsame.path ▸ hq)

/-- A directory of the snapshot is no place of a root. -/
theorem Allows.of_pop (h : c.Allows p.pop)
    (hhead : ∃ m ms, p.levels = m :: ms ∧ m.snapshotDir = true) : c.Allows p := by
  obtain ⟨m, ms, hlevels, hsnap⟩ := hhead
  refine ⟨h.report, fun m' hm' hs => ?_⟩
  rw [hlevels] at hm'
  rcases List.mem_cons.1 hm' with rfl | hm'
  · rw [hsnap] at hs
    cases hs
  · refine h.place m' ?_ hs
    rw [Plan.pop, hlevels]
    exact hm'

/-- The deepest level is made, and prepared or not. -/
theorem Sim.ensure (h : c.Sim w p) (forWriting : Bool) (hlog : c.Allows p.open_)
    {x : Except CoreError Unit × RestoreWalk}
    (hx : x = ((Kist.ensure forWriting w.levels w.target).1, { w with
      levels := (Kist.ensure forWriting w.levels w.target).2.1,
      target := (Kist.ensure forWriting w.levels w.target).2.2 })) :
    (x.1 = .ok () ∧ c.Sim x.2 p.open_ ∧
      x.2.levels.map PendingDir.path = w.levels.map PendingDir.path ∧
      (∀ l ∈ x.2.levels, l.handle.isSome) ∧ x.2.summary = w.summary) ∨ ¬c.Fine ∧ Broken x := by
  subst hx
  have hlevels : p.open_.levels = allCreated p.levels := by rw [Plan.open_, Kist.openLevels_eq]
  have hat : ∀ m ∈ p.levels, m.snapshotDir = false → ∀ q, q <+: m.path → c.AtPlace q :=
    fun m hm hs => hlog.place { m with created := true } (hlevels ▸ List.mem_map_of_mem hm) hs rfl
  rcases ensure_mirrors forWriting h.mirrors hlog.report hat with ⟨hok, hpaths, hopen, hm⟩ |
    ⟨hfine, hne⟩
  · exact .inl ⟨hok, ⟨h.select, h.summary, hm, h.index⟩, hpaths, hopen, rfl⟩
  · exact .inr ⟨hfine, .inl hne⟩

theorem create_follows (h : c.Sim w p) (selected : Bool)
    (hlog : c.Allows (p.openIf selected)) :
    c.Follows w (w.createIf selected) (.ok (), p.openIf selected) := by
  cases selected with
  | false => exact .inl ⟨rfl, h, rfl⟩
  | true =>
    rcases h.ensure false hlog (x := w.create) rfl with ⟨hok, hsim, hpaths, -⟩ | hb
    · exact .inl ⟨hok, hsim, hpaths⟩
    · exact .inr hb

theorem open_follows (h : c.Sim w p) (selected : Bool)
    (hlog : c.Allows (p.openIf selected)) :
    c.Follows w (w.openIf selected) (.ok (), p.openIf selected) := by
  cases selected with
  | false => exact .inl ⟨rfl, h, rfl⟩
  | true =>
    rcases h.ensure true hlog (x := w.open_) rfl with ⟨hok, hsim, hpaths, -⟩ | hb
    · exact .inl ⟨hok, hsim, hpaths⟩
    · exact .inr hb

/-! ### Files and symlinks -/

variable {t t' : Target} {links links' : Dict (ℕ × ℕ) RelPath}
  {log : List (RelPath × PlannedNode)} {ls : List PendingDir} {ms : List PlanLevel}
  {path : RelPath} {k : PlannedNode} {n : TargetNode}

/-- A file or a symlink was put at the path of an entry, which is reported. -/
theorem Mirrors.putLeaf (h : c.Mirrors t links log ls ms) (hput : t.Put t' path n)
    (hn : n.kind ≠ .dir) (hno : ¬t.IsDir path) (hk : k ≠ .dir)
    (hlog : log ++ [(path, k)] <+: c.report) (hitem : c.Item path e) (hof : .of e.kind = k)
    (hwritten : c.Tidy → t.node path = none → KeepsLeaves t t' → c.Contents t' links log →
      c.Written t' (log ++ [(path, k)]) path e)
    (hlinks : c.Tidy → ∀ key q, links'.lookup key = some q → links.lookup key = some q ∨
      q = path ∧ k = .file ∧ e.hardlinkKey = some key ∧ c.Copied t' path e) :
    c.Mirrors t' links' (log ++ [(path, k)]) ls ms := by
  have hsub : log ⊆ log ++ [(path, k)] := List.subset_append_left _ _
  refine ⟨h.levels.put hput hno hsub, h.shows.putLeaf hput hn hno hk, fun ht => ?_⟩
  have hnone := h.shows.free ht hlog
  have hkeeps : KeepsLeaves t t' := keepsLeaves_put hput fun hleaf => by
    obtain ⟨n', hn', -⟩ := hleaf
    rw [hnone] at hn'
    cases hn'
  have hc := (h.contents ht).keep hkeeps
  refine ⟨fun q k' hq hk' => ?_, fun key q hl => ?_⟩
  · rcases List.mem_append.1 hq with hq | hq
    · obtain ⟨e', hi, hof', hw⟩ := hc.written q k' hq hk'
      exact ⟨e', hi, hof', hw.keep (fun _ _ _ => id) hsub⟩
    · cases List.mem_singleton.1 hq
      exact ⟨e, hitem, hof, hwritten ht hnone hkeeps hc⟩
  · rcases hlinks ht key q hl with hold | ⟨rfl, rfl, hkey, hcopied⟩
    · exact (hc.links key q hold).imp_left fun hq => hsub hq
    · exact ⟨by simp, e, hitem, hkey, hcopied⟩

theorem copied_of_put {ino : ℕ} {bytes : Bytes} {m : TargetMeta}
    (hput : t.Put t' path (.file ino bytes m)) (hkind : e.kind = .file)
    (hholds : e.fileContent.Holds c.repo.keys bytes) (hshows : m.Shows c.start.asRoot e) :
    c.Copied t' path e :=
  ⟨hkind, ino, bytes, m, hput.at_path, hholds, hshows⟩

/-- A file is restored where the dry run reports it. -/
theorem file_follows (h : c.Sim w p) (hopen : ∀ l ∈ w.levels, l.handle.isSome)
    (hpath : path = levelPath w.levels ++ [e.name]) (hkind : e.kind = .file)
    (hitem : c.Item path e) (hlog : p.onNode ++ [(path, .file)] <+: c.report) :
    c.Follows w (w.restoreFileEntry env c.repo (levelPath w.levels) e)
      (.ok (), { p with
        summary.files := p.summary.files + 1, onNode := p.onNode ++ [(path, .file)] }) := by
  obtain ⟨hsame, hok, hprogress⟩ := @restoreFileEntry_spec env c.repo w (levelPath w.levels) e
  rw [← hpath] at hok hprogress
  have hmem : (path, PlannedNode.file) ∈ c.report := hlog.subset (by simp)
  -- in a fine run the parent is ready, the place is free, every chunk reads and the owner may be
  -- set, so the entry does not fail
  have hfine : c.Fine → (w.restoreFileEntry env c.repo (levelPath w.levels) e).1 = .ok () ∧
      (w.restoreFileEntry env c.repo (levelPath w.levels) e).2.index = w.index := fun hf => by
    refine hprogress (levelPath_ready h.mirrors.levels h.mirrors.shows hf hopen)
      (h.mirrors.shows.free hf.toTidy hlog) ?_ ?_
    · rw [h.index hf]
      exact hf.reads path e hitem hkind hmem
    · rw [h.mirrors.shows.user.asRoot]
      exact hf.owners path e hitem (by rwa [hkind])
  rcases hx : w.restoreFileEntry env c.repo (levelPath w.levels) e with ⟨err | u, w'⟩
  · rw [hx] at hfine
    exact .inr ⟨(fun hf => by cases (hfine hf).1), .inl (by simp)⟩
  · rw [hx] at hsame hok hfine
    obtain ⟨hno, hwrote, hsummary⟩ := hok rfl
    have hpaths : w'.levels.map PendingDir.path =
      w.levels.map PendingDir.path := by rw [hsame.levels]
    refine .inl ⟨rfl, ⟨hsame.select.trans h.select, by rw [hsummary, h.summary], ?_, fun hf => ?_⟩,
      hpaths⟩
    · rw [hsame.levels]
      cases hwrote with
      -- a file written out: its copy is the target of the links that come after it, under the
      -- entry's hard-link key
      | copied holds shows put links =>
        rw [h.mirrors.shows.user.asRoot] at shows
        have hcopied := copied_of_put put hkind holds shows
        refine Mirrors.putLeaf h.mirrors put (by simp [TargetNode.kind]) hno (by simp) hlog hitem
          (by rw [hkind]; rfl) (fun _ _ _ _ => .copied hcopied)
          fun _ key q hl => ?_
        rw [links] at hl
        cases hkey : e.hardlinkKey with
        | none =>
          rw [hkey] at hl
          exact .inl hl
        | some key' =>
          rw [hkey, Option.elim_some, Dict.lookup_insert'] at hl
          split_ifs at hl with heq
          · cases hl
            exact .inr ⟨rfl, rfl, by rw [heq], hcopied⟩
          · exact .inl hl
      -- a second link: the first one is in the log and was copied, and both names show one inode
      | linked hkey hfirst hkind' put links shares =>
        refine Mirrors.putLeaf h.mirrors put hkind' hno (by simp) hlog hitem (by rw [hkind]; rfl)
          (fun ht hnone hkeeps hc => ?_) fun _ key q hl => .inl (links ▸ hl)
        obtain ⟨hfirstLog, e', hitem', hkey', hcopied⟩ := hc.links _ _ hfirst
        refine .linked hkind hkey hkey' hitem' (List.mem_append_left _ hfirstLog) hcopied ?_
        rw [put.at_path]
        exact (hkeeps _ _ hkind' (shares hnone)).symm
    · rw [(hfine hf).2]
      exact h.index hf

/-- A symlink is restored where the dry run reports it. -/
theorem symlink_follows (h : c.Sim w p) (hopen : ∀ l ∈ w.levels, l.handle.isSome)
    (hpath : path = levelPath w.levels ++ [e.name]) (hkind : e.kind = .symlink)
    (hitem : c.Item path e) (hlog : p.onNode ++ [(path, .symlink)] <+: c.report) :
    c.Follows w (w.restoreSymlink (levelPath w.levels) e)
      (.ok (), { p with
        summary.symlinks := p.summary.symlinks + 1
        onNode := p.onNode ++ [(path, .symlink)] }) := by
  obtain ⟨hsame, hok, hindex, hprogress⟩ := restoreSymlink_spec w (levelPath w.levels) e
  rw [← hpath] at hok hprogress
  have hmem : (path, PlannedNode.symlink) ∈ c.report := hlog.subset (by simp)
  have hfine : c.Fine → (w.restoreSymlink (levelPath w.levels) e).1 = .ok () := fun hf => by
    refine hprogress (levelPath_ready h.mirrors.levels h.mirrors.shows hf hopen)
      (h.mirrors.shows.free hf.toTidy hlog) (hf.targets path e hitem hkind hmem) ?_
    rw [h.mirrors.shows.user.asRoot]
    exact hf.owners path e hitem (by rwa [hkind])
  rcases hx : w.restoreSymlink (levelPath w.levels) e with ⟨err | u, w'⟩
  · rw [hx] at hfine
    exact .inr ⟨(fun hf => by cases hfine hf), .inl (by simp)⟩
  · rw [hx] at hsame hok hindex
    obtain ⟨hno, ⟨ino, hput⟩, hsummary, hlinks⟩ := hok rfl
    rw [h.mirrors.shows.user.asRoot] at hput
    have hpaths : w'.levels.map PendingDir.path =
      w.levels.map PendingDir.path := by rw [hsame.levels]
    refine .inl ⟨rfl, ⟨hsame.select.trans h.select, by rw [hsummary, h.summary], ?_, fun hf => ?_⟩,
      hpaths⟩
    · rw [hsame.levels]
      exact Mirrors.putLeaf h.mirrors hput (by simp [TargetNode.kind]) hno (by simp) hlog hitem
        (by rw [hkind]; rfl) (fun _ _ _ _ => .symlink hkind hput.at_path)
        fun _ key q hl => .inl (hlinks ▸ hl)
    · rw [hindex]
      exact h.index hf

/-! ### Directories -/

variable (c) in
/-- What `restore_dir` does with a directory follows what `plan_dir` does. -/
def DirFollows (f : RestoreDir) (g : Plan.PlanDir) : Prop :=
  ∀ w p e pos path, c.Sim w p → path = levelPath w.levels ++ [e.name] → e.kind = .dir →
    (∀ rel x, c.repo.Item [e] rel x → c.Item (levelPath w.levels ++ rel) x) →
    c.Allows (g p e path pos).2 → c.Follows w (f w e pos) (g p e path pos)

variable (c) in
/-- Both go down into directories in this way, or both not at all. -/
def DirsFollow (dir : Option RestoreDir) (dir' : Option Plan.PlanDir) : Prop :=
  match dir, dir' with
  | none, none => True
  | some f, some g => c.DirFollows f g
  | _, _ => False

variable {dir : Option RestoreDir} {dir' : Option Plan.PlanDir}

/-- A step after a step that was followed. -/
theorem Follows.congr {x : Except CoreError Unit × RestoreWalk} {y : Except CoreError Unit × Plan}
    (h : c.Follows w' x y) (hpaths : w'.levels.map PendingDir.path = w.levels.map PendingDir.path) :
    c.Follows w x y :=
  h.imp_left fun ⟨hr, hs, hp⟩ => ⟨hr, hs, hp.trans hpaths⟩

theorem kind_follows (h : c.Sim w p) (hdir : c.DirsFollow dir dir')
    (hpath : path = levelPath w.levels ++ [e.name])
    (hitem : ∀ rel x, c.repo.Item [e] rel x → c.Item (levelPath w.levels ++ rel) x)
    (hlog : c.Allows (p.planKind dir' e path pos).2) :
    c.Follows w (w.restoreKind env c.repo dir e pos) (p.planKind dir' e path pos) := by
  have hhere : c.Item path e := hpath ▸ hitem [e.name] e (.here List.mem_cons_self)
  unfold restoreKind
  unfold Plan.planKind at hlog ⊢
  cases hkind : e.kind with
  | dir =>
    rw [hkind] at hlog
    dsimp only at hlog ⊢
    split_ifs at hlog ⊢ with hz
    · exact .inl ⟨rfl, h, rfl⟩
    · cases dir with
      | none =>
        cases dir' with
        | none => exact .inl ⟨rfl, h, rfl⟩
        | some g => exact hdir.elim
      | some f =>
        cases dir' with
        | none => exact hdir.elim
        | some g => exact hdir w p e pos path h hpath hkind hitem hlog
  -- A file and a symlink first open the directory they stand in. Where it opens, the plan and the
  -- run are at the same place and the entry's own lemma goes on from there; where it does not, the
  -- run is not a fine one and an error is on record.
  | file =>
    rw [hkind] at hlog
    have hopenLog : c.Allows p.open_ :=
      ⟨(List.prefix_append _ _).trans hlog.report, hlog.place⟩
    dsimp only
    rcases h.ensure true hopenLog (x := w.open_) rfl with ⟨hok, hsim, hpaths, hopen, -⟩ | ⟨hf, hb⟩
    · rcases ho : w.open_ with ⟨r, w₁⟩
      rw [ho] at hok hsim hpaths hopen
      dsimp only at hok hsim hpaths hopen
      subst hok
      have hlevel := levelPath_congr hpaths
      exact (file_follows env hsim hopen (by rw [hlevel, hpath]) hkind hhere hlog.report).congr
        hpaths
    · rcases ho : w.open_ with ⟨e' | u, w₁⟩
      · rw [ho] at hb
        exact .inr ⟨hf, hb⟩
      · rw [ho] at hb
        refine .inr ⟨hf, .inr ?_⟩
        have hne := hb.resolve_left (fun hne => hne rfl)
        exact (Noted.of_eq (@restoreFileEntry_spec env c.repo w₁ _ e).1.errors).ne_nil hne
  -- as for a file, with the symlink's own lemma
  | symlink =>
    rw [hkind] at hlog
    have hopenLog : c.Allows p.open_ :=
      ⟨(List.prefix_append _ _).trans hlog.report, hlog.place⟩
    dsimp only
    rcases h.ensure true hopenLog (x := w.open_) rfl with ⟨hok, hsim, hpaths, hopen, -⟩ | ⟨hf, hb⟩
    · rcases ho : w.open_ with ⟨r, w₁⟩
      rw [ho] at hok hsim hpaths hopen
      dsimp only at hok hsim hpaths hopen
      subst hok
      have hlevel := levelPath_congr hpaths
      exact (symlink_follows hsim hopen (by rw [hlevel, hpath]) hkind hhere hlog.report).congr
        hpaths
    · rcases ho : w.open_ with ⟨e' | u, w₁⟩
      · rw [ho] at hb
        exact .inr ⟨hf, hb⟩
      · rw [ho] at hb
        refine .inr ⟨hf, .inr ?_⟩
        have hne := hb.resolve_left (fun hne => hne rfl)
        exact (Noted.of_eq (restoreSymlink_spec w₁ _ e).1.errors).ne_nil hne

/-- The error of an entry is noted for the same path. -/
theorem node_follows (h : c.Sim w p) (hdir : c.DirsFollow dir dir')
    (hpath : path = levelPath w.levels ++ [e.name])
    (hitem : ∀ rel x, c.repo.Item [e] rel x → c.Item (levelPath w.levels ++ rel) x)
    (hlog : c.Allows (p.planNode dir' e path pos)) :
    c.Follows w (.ok (), w.restoreNode env c.repo dir e pos)
      (.ok (), p.planNode dir' e path pos) := by
  have hkindLog : c.Allows (p.planKind dir' e path pos).2 := by
    unfold Plan.planNode at hlog
    rcases hk : p.planKind dir' e path pos with ⟨_ | _, p'⟩ <;> rw [hk] at hlog <;>
      exact ⟨hlog.report, hlog.place⟩
  have hk := kind_follows env h hdir hpath hitem hkindLog
  unfold restoreNode Plan.planNode
  dsimp only
  rw [← hpath]
  rcases hk with ⟨hr, hsim, hpaths⟩ | ⟨hf, hb⟩
  · rcases hx : w.restoreKind env c.repo dir e pos with ⟨r, w'⟩
    rcases hy : p.planKind dir' e path pos with ⟨r', p'⟩
    rw [hx, hy] at hr hsim
    rw [hx] at hpaths
    dsimp only at hr hsim hpaths
    subst hr
    cases r with
    | error err => exact .inl ⟨rfl, hsim.noted _ _, hpaths⟩
    | ok u => exact .inl ⟨rfl, hsim, hpaths⟩
  · refine .inr ⟨hf, .inr ?_⟩
    rcases hx : w.restoreKind env c.repo dir e pos with ⟨err | u, w'⟩
    · exact w'.errors_note _ _
    · rw [hx] at hb
      exact hb.resolve_left fun hne => hne rfl

/-- An error that is noted stays to the end of the loop. -/
theorem broken_entries (hnoted : ∀ f ∈ dir, ∀ w e pos, Noted w (f w e pos).2)
    {after : RestoreWalk → Except CoreError Unit × RestoreWalk}
    (hafterNoted : ∀ w, Noted w (after w).2) (pos : Pos) (es : List Entry)
    (hne : w.summary.errors ≠ []) :
    Broken (match after w with
      | (.error e, w) => (.error e, w)
      | (.ok (), w) => restoreEntries env c.repo dir after pos es w) := by
  have ha := (hafterNoted w).ne_nil hne
  rcases hx : after w with ⟨err | u, w'⟩
  · exact .inl nofun
  · rw [hx] at ha
    exact .inr ((noted_restoreEntries env c.repo hnoted after hafterNoted pos es w').ne_nil ha)

/-- The loop over the entries of a directory. -/
theorem entries_follow (hdir : c.DirsFollow dir dir')
    (hnoted : ∀ f ∈ dir, ∀ w e pos, Noted w (f w e pos).2)
    (hgrows : ∀ f ∈ dir', ∀ p e path pos, Plan.Grows p (f p e path pos).2)
    (after : RestoreWalk → Except CoreError Unit × RestoreWalk)
    (hafter : ∀ w, (∀ l ∈ w.levels.head?, l.createFailed = false) → after w = (.ok (), w))
    (hafterNoted : ∀ w, Noted w (after w).2) (pos : Pos) (d : RelPath) (es : List Entry) :
    ∀ {w : RestoreWalk} {p : Plan}, c.Sim w p → levelPath w.levels = d →
      (∀ rel x, c.repo.Item es rel x → c.Item (d ++ rel) x) →
      c.Allows (Plan.planEntries dir' d pos es p) →
      c.Follows w (restoreEntries env c.repo dir after pos es w)
        (.ok (), Plan.planEntries dir' d pos es p) := by
  induction es with
  | nil => exact fun h _ _ _ => .inl ⟨rfl, h, rfl⟩
  | cons e es ih =>
    intro w p h hd hitem hlog
    have hitems : ∀ rel x, c.repo.Item es rel x → c.Item (d ++ rel) x := fun rel x hi =>
      hitem rel x (item_cons.2 (.inr hi))
    have hitem₁ : ∀ rel x, c.repo.Item [e] rel x → c.Item (d ++ rel) x := fun rel x hi =>
      hitem rel x (item_cons.2 (.inl hi))
    unfold restoreEntries
    unfold Plan.planEntries at hlog ⊢
    cases hv : validateChildName e.name with
    | error err =>
      rw [hv] at hlog
      dsimp only at hlog ⊢
      rw [hd]
      exact (ih (h.noted d err) hd hitems hlog).congr rfl
    | ok u =>
      rw [hv] at hlog
      dsimp only at hlog ⊢
      rw [h.select]
      rcases hs : p.select.visit pos e with ⟨_ | child, select⟩ <;> rw [hs] at hlog
      · exact (ih (h.selected select) hd hitems hlog).congr rfl
      · dsimp only at hlog ⊢
        generalize hp₁ : ({ p with select } : Plan).openIf child.selected = p₁ at hlog ⊢
        have hgrow := Plan.grows_planEntries hgrows d pos es
          (p₁.planNode dir' e (d ++ [e.name]) child)
        have hnodeLog := hlog.mono hgrow
        have hopenLog := hnodeLog.mono (Plan.grows_planNode hgrows p₁ e (d ++ [e.name]) child)
        have hopen := open_follows (h.selected select) child.selected (hp₁ ▸ hopenLog)
        rw [hp₁] at hopen
        rcases ho : ({ w with select } : RestoreWalk).openIf child.selected with ⟨err | u', w₁⟩
        · rw [ho] at hopen
          rcases hopen with ⟨hr, -⟩ | hb
          · cases hr
          · exact .inr hb
        · rw [ho] at hopen
          dsimp only
          rcases hopen with ⟨-, hsim, hpaths⟩ | ⟨hf, hb⟩
          · -- the entry, and what follows it
            have hd₁ : levelPath w₁.levels = d := (levelPath_congr hpaths).trans hd
            rcases node_follows env hsim hdir (by rw [hd₁]) (by rwa [hd₁]) hnodeLog with
              ⟨-, hsim₂, hpaths₂⟩ | ⟨hf, hb⟩
            · dsimp only at hsim₂ hpaths₂
              rw [hafter _ hsim₂.mirrors.levels.head_notFailed]
              have hd₂ := (levelPath_congr hpaths₂).trans hd₁
              exact (ih hsim₂ hd₂ hitems hlog).congr (hpaths₂.trans hpaths)
            · exact .inr ⟨hf, broken_entries env hnoted hafterNoted pos es
                (hb.resolve_left fun h => h rfl)⟩
          · refine .inr ⟨hf, broken_entries env hnoted hafterNoted pos es ?_⟩
            exact (noted_restoreNode env c.repo hnoted w₁ e child).ne_nil
              (hb.resolve_left fun h => h rfl)

/-- A level below the deepest one, for a directory of the snapshot. -/
theorem Sim.push (h : c.Sim w p) (hpath : path = levelPath w.levels ++ [e.name]) :
    c.Sim (w.push (.child (levelPath w.levels) e)) (p.push ⟨path, true, false⟩) := by
  refine ⟨h.select, h.summary, ⟨.cons ?_ h.mirrors.levels, h.mirrors.shows, h.mirrors.contents⟩,
    h.index⟩
  exact
    { path := rfl
      plan := hpath
      created := rfl
      notFailed := rfl
      above := nofun
      place := nofun
      child := fun _ => ⟨e.name, rfl⟩
      isDir := nofun
      ready := nofun
      logged := nofun }

theorem Sim.pop (h : c.Sim w p) : c.Sim w.pop p.pop :=
  ⟨h.select, h.summary, ⟨h.mirrors.levels.tail, h.mirrors.shows, h.mirrors.contents⟩, h.index⟩

/-- The metadata of a directory that is finished, seen from the level above. -/
theorem Mirrors.finish {l : PendingDir} {m : PlanLevel} {meta' : TargetMeta}
    (h : c.Mirrors t links log (l :: ls) (m :: ms)) (hopen : l.handle.isSome)
    (hsnap : m.snapshotDir = true) (hlog : log <+: c.report) :
    c.Mirrors (t.put l.path (.dir meta')) links log ls ms := by
  obtain ⟨hlevels, hshows, hcontents⟩ := h
  cases hlevels with
  | cons hl above =>
    have hput := t.put_put l.path (.dir meta')
    have hdir := hl.isDir hopen
    have hleaf : ¬t.IsLeaf l.path := fun hleaf => hleaf.not_isDir hdir
    have hlogged := hl.logged hopen hsnap
    -- the levels above have shorter paths
    have hne : ∀ l' ∈ ls, l'.path ≠ l.path := by
      intro l' hl' heq
      have hle := (above.isPrefix l' hl').length_le
      obtain ⟨name, hname⟩ := hl.child hsnap
      rw [heq, hl.path, hname, List.length_append, List.length_singleton] at hle
      omega
    refine ⟨above.keep (fun l' hl' hd => (isDir_congr (hput.node _ (hne l' hl'))).2 hd)
      (fun l' hl' => hput.ready _ (hne l' hl')) (List.Subset.refl _),
      hshows.putDir hput hleaf (.inr ⟨rfl, .inl hlogged⟩) fun hf hp => ?_,
      fun ht => (hcontents ht).keep (keepsLeaves_put hput hleaf)⟩
    exact absurd hp (hf.apart _ (hlog.subset hlogged))

/-- The end of a directory that was made: it is counted and gets its metadata. -/
theorem finishDir_follows (h : c.Sim w p) {l : PendingDir} {m : PlanLevel}
    {ls : List PendingDir} {ms : List PlanLevel} (hl : w.levels = l :: ls)
    (hm : p.levels = m :: ms) (hopen : l.handle.isSome) (hsnap : m.snapshotDir = true)
    (hkind : e.kind = .dir) (hitem : c.Item l.path e) (hlog : p.onNode <+: c.report) :
    ((w.finishDir e).1 = .ok () ∧ c.Sim (w.finishDir e).2.pop
        { p.pop with summary.dirs := p.summary.dirs + 1 } ∧
        (w.finishDir e).2.levels = w.levels) ∨ ¬c.Fine ∧ Broken (w.finishDir e) := by
  have hmirrors := h.mirrors
  rw [hl, hm] at hmirrors
  have hhead : c.LevelMatch w.target p.onNode l m ls := by
    cases hmirrors.levels with
    | cons hl _ => exact hl
  have hready : c.Fine → w.target.Ready l.path := fun hf => hhead.ready hf hopen
  have howner : c.Fine → OwnerOk w.target.asRoot e := fun hf => by
    rw [h.mirrors.shows.user.asRoot]
    refine hf.owners l.path e hitem ?_
    rw [hkind]
    exact hlog.subset (hhead.logged hopen hsnap)
  have hsummary : ({ w.summary with dirs := w.summary.dirs + 1 } : RestoreSummary) =
      { p.summary with dirs := p.summary.dirs + 1 } := by rw [h.summary]
  unfold finishDir
  rw [hl]
  dsimp only
  -- an entry without attributes leaves the directory as it was made
  split_ifs with hnone
  · refine .inl ⟨rfl, ⟨h.select, hsummary, ?_, h.index⟩, rfl⟩
    have hpopped := h.pop.mirrors
    rw [RestoreWalk.pop, hl] at hpopped
    exact hpopped
  · split
    · next err herr =>
      -- the metadata handle fails only where the directory is not ready
      refine .inr ⟨fun hf => ?_, .inl nofun⟩
      rw [metaHandle_of_ready (hready hf)] at herr
      cases herr
    · generalize hx : (w.target.dirMeta l.path).applyMeta w.target.asRoot l.path e = x
      have hfst : x.1.1 = .ok () := by rw [← hx]; exact applyMeta_fst ..
      have hsnd : c.Fine → x.1.2 = .ok () := fun hf => by
        rw [← hx]
        exact applyMeta_owner _ _ (howner hf)
      obtain ⟨⟨applied, owner⟩, meta'⟩ := x
      dsimp only at hfst hsnd ⊢
      subst hfst
      cases owner with
      -- a refused owner is an error of the run, and no fine run meets one
      | error err => exact .inr ⟨(fun hf => by cases hsnd hf), .inl nofun⟩
      | ok u =>
        refine .inl ⟨rfl, ⟨h.select, hsummary, ?_, h.index⟩, rfl⟩
        have hfinish : c.Mirrors (w.target.put l.path (.dir meta')) w.hardlinks p.onNode ls ms :=
          hmirrors.finish hopen hsnap hlog
        show c.Mirrors _ _ _ ls p.levels.tail
        rw [hm]
        exact hfinish

/-- Above a level that is open, and at it, opening is nothing new for the dry run. -/
theorem open_of_isOpen (h : c.Sim w p) (hopen : ∀ l ∈ w.levels, l.handle.isSome) : p.open_ = p := by
  rw [Plan.open_, h.mirrors.levels.openLevels_eq hopen]

variable (w e) in
/-- The end of `restore_dir`, after the entries of the directory. -/
def dirEnd : Except CoreError Unit × RestoreWalk :=
  if (w.levels.head?.bind PendingDir.handle).isNone then (.ok (), w)
  else match w.open_ with
    | (.error e, w) => (.error e, w)
    | (.ok (), w) => w.finishDir e

theorem noted_dirEnd (w : RestoreWalk) (e : Entry) : w.Noted (dirEnd w e).2 := by
  unfold dirEnd
  split_ifs
  · exact .refl w
  · have hopen := w.noted_open
    rcases ho : w.open_ with ⟨_ | _, w₁⟩ <;> rw [ho] at hopen
    · exact hopen
    · exact hopen.trans (w₁.noted_finishDir e)

variable (p) in
/-- The end of `plan_dir`. -/
def planDirEnd : Plan :=
  if p.levels.head?.any PlanLevel.created then { p.pop with summary.dirs := p.summary.dirs + 1 }
  else p.pop

/-- The ends of the two. -/
theorem dirEnd_follows (h : c.Sim w p) {paths : List RelPath}
    (hpaths : w.levels.map PendingDir.path = path :: paths)
    (hsnap : ∃ m ms, p.levels = m :: ms ∧ m.snapshotDir = true) (hkind : e.kind = .dir)
    (hitem : c.Item path e) (hlog : c.Allows p) :
    ((dirEnd w e).1 = .ok () ∧ c.Sim (dirEnd w e).2.pop (planDirEnd p) ∧
      (dirEnd w e).2.levels.map PendingDir.path = path :: paths) ∨ ¬c.Fine ∧
        Broken (dirEnd w e) := by
  rcases hl : w.levels with _ | ⟨l, ls⟩
  · rw [hl] at hpaths
    cases hpaths
  obtain ⟨m, ms, hm, hsnap⟩ := hsnap
  have hhead : c.LevelMatch w.target p.onNode l m ls := by
    have hmatch := h.mirrors.levels
    rw [hl, hm] at hmatch
    cases hmatch with
    | cons hl _ => exact hl
  have hhandle : w.levels.head?.bind PendingDir.handle = l.handle := by rw [hl]; rfl
  have hcreated : p.levels.head?.any PlanLevel.created = l.handle.isSome := by
    rw [hm, ← hhead.created]
    rfl
  unfold dirEnd planDirEnd
  rw [hhandle, hcreated]
  cases hr : l.handle with
  -- a directory that was never opened got nothing, and the plan has not counted it either
  | none => exact .inl ⟨rfl, h.pop, hpaths⟩
  | some r =>
    have hsome : l.handle.isSome := by rw [hr]; rfl
    -- opening an open directory again changes nothing in the plan
    have hopenAll : ∀ l' ∈ w.levels, l'.handle.isSome := by
      rw [hl]
      intro l' hl'
      rcases List.mem_cons.1 hl' with rfl | hl'
      · exact hsome
      · exact hhead.above hsome l' hl'
    have hsame := open_of_isOpen h hopenAll
    rw [if_neg (by simp), if_pos (by simp)]
    rcases h.ensure true (by rwa [hsame]) (x := w.open_)
      rfl with ⟨hok, hsim, hps, hopen, -⟩ | ⟨hf, hb⟩
    · rcases ho : w.open_ with ⟨r', w'⟩
      rw [ho] at hok hsim hps hopen
      dsimp only at hok hsim hps hopen
      subst hok
      rw [hsame] at hsim
      rw [hpaths] at hps
      rcases hl' : w'.levels with _ | ⟨l', ls'⟩
      · rw [hl'] at hps
        cases hps
      have hpath' : l'.path = path := by
        rw [hl'] at hps
        exact (List.cons.inj hps).1
      rcases finishDir_follows hsim hl' hm (hopen l' (hl' ▸ List.mem_cons_self)) hsnap hkind
        (hpath' ▸ hitem) hlog.report with ⟨hr, hsim', hlv⟩ | hb
      · exact .inl ⟨hr, hsim', by rw [hlv, hps]⟩
      · exact .inr hb
    · rcases ho : w.open_ with ⟨err | u, w'⟩
      · exact .inr ⟨hf, .inl nofun⟩
      · rw [ho] at hb
        exact .inr ⟨hf, .inr ((w'.noted_finishDir e).ne_nil (hb.resolve_left fun h => h rfl))⟩

/-- `restore_dir` follows `plan_dir`. -/
theorem dir_follows (hdir : c.DirsFollow dir dir')
    (hnoted : ∀ f ∈ dir, ∀ w e pos, Noted w (f w e pos).2)
    (hgrows : ∀ f ∈ dir', ∀ p e path pos, Plan.Grows p (f p e path pos).2) :
    c.DirFollows (restoreDirWith env c.repo dir) (Plan.planDirWith c.repo dir') := by
  intro w p e pos path h hpath hkind hitem hlog
  have hpush := h.push (e := e) hpath
  generalize hw₀ : w.push (.child (levelPath w.levels) e) = w₀ at hpush
  have hlevels₀ : w₀.levels.map PendingDir.path = path :: w.levels.map PendingDir.path := by
    rw [← hw₀, hpath]
    rfl
  have hlevel₀ : levelPath w₀.levels = path := by
    rw [← hw₀, hpath]
    rfl
  have hlast : ∀ {w' : RestoreWalk},
      w'.levels.map PendingDir.path = path :: w.levels.map PendingDir.path →
      w'.pop.levels.map PendingDir.path = w.levels.map PendingDir.path := fun hw' => by
    rw [RestoreWalk.pop, List.map_tail, hw']
    rfl
  unfold restoreDirWith restoreContent
  unfold Plan.planDirWith at hlog ⊢
  dsimp only at hlog ⊢
  rw [hw₀]
  generalize hp₁ : (p.push ⟨path, true, false⟩).openIf pos.selected = p₁ at hlog ⊢
  have hgrow₁ : (p.push ⟨path, true, false⟩).Grows p₁ := hp₁ ▸ Plan.grows_openIf _ _
  have hhead : ∀ {p' : Plan}, (p.push ⟨path, true, false⟩).Grows p' →
      ∃ m ms, p'.levels = m :: ms ∧ m.snapshotDir = true := fun hg => by
    obtain ⟨m, ms, hm, hsame⟩ := hg.head
    exact ⟨m, ms, hm, hsame.snapshotDir⟩
  have hcreate : c.Allows p₁ → c.Follows w₀ (w₀.createIf pos.selected) (.ok (), p₁) :=
    fun hlog₁ => hp₁ ▸ create_follows hpush pos.selected (hp₁ ▸ hlog₁)
  rcases hc : w₀.createIf pos.selected with ⟨err | u, w₁⟩ <;> rw [hc] at hcreate
  · -- the directory could not be made
    have hlog₁ : c.Allows p₁ := by
      split at hlog
      · exact hlog.of_pop (hhead hgrow₁)
      · next children _ =>
        have hgrow₂ := Plan.grows_planEntries hgrows path pos children p₁
        have hpop : c.Allows (Plan.planEntries dir' path pos children p₁).pop := by
          dsimp only at hlog
          split_ifs at hlog <;> exact ⟨hlog.report, hlog.place⟩
        exact (hpop.of_pop (hhead (hgrow₁.trans hgrow₂))).mono hgrow₂
    rcases hcreate hlog₁ with ⟨hr, -⟩ | ⟨hf, -⟩
    · cases hr
    · exact .inr ⟨hf, .inl nofun⟩
  cases hsub : c.repo.readTreeChain e.subtree with
  | error err =>
    rw [hsub] at hlog
    rcases hcreate (hlog.of_pop (hhead hgrow₁)) with ⟨-, hsim, hpaths⟩ | ⟨hf, -⟩
    · exact .inl ⟨rfl, hsim.pop, hlast (hpaths.trans hlevels₀)⟩
    · exact .inr ⟨hf, .inl nofun⟩
  | ok children =>
    rw [hsub] at hlog
    dsimp only at hlog ⊢
    generalize hp₂ : Plan.planEntries dir' path pos children p₁ = p₂ at hlog ⊢
    have hgrow₂ : p₁.Grows p₂ := hp₂ ▸ Plan.grows_planEntries hgrows _ _ _ _
    have hpop : c.Allows p₂.pop := by split_ifs at hlog <;> exact ⟨hlog.report, hlog.place⟩
    have hlog₂ := hpop.of_pop (hhead (hgrow₁.trans hgrow₂))
    have hend : ∀ w₂, w₂.summary.errors ≠ [] → Broken (dirEnd w₂ e) := fun w₂ hne =>
      .inr ((noted_dirEnd w₂ e).ne_nil hne)
    rcases hcreate (hlog₂.mono hgrow₂) with ⟨-, hsim, hpaths⟩ | ⟨hf, hb⟩
    · have hitems : ∀ rel x, c.repo.Item children rel x → c.Item (path ++ rel) x := by
        intro rel x hi
        have := hitem (e.name :: rel) x (.deeper List.mem_cons_self hkind hsub hi)
        rw [hpath]
        simpa using this
      have hentries := entries_follow env hdir hnoted hgrows (fun w => (.ok (), w))
        (fun _ _ => rfl) Noted.refl pos path children hsim
        ((levelPath_congr hpaths).trans hlevel₀) hitems (by rwa [hp₂])
      rw [hp₂] at hentries
      rcases hx : restoreEntries env c.repo dir (fun w => (.ok (), w)) pos children w₁ with
        ⟨err | u', w₂⟩ <;> rw [hx] at hentries
      · rcases hentries with ⟨hr, -⟩ | ⟨hf, -⟩
        · cases hr
        · exact .inr ⟨hf, .inl nofun⟩
      · rcases hentries with ⟨-, hsim₂, hpaths₂⟩ | ⟨hf, hb⟩
        · have hps := (hpaths₂.trans hpaths).trans hlevels₀
          have hsnap := hhead (hgrow₁.trans hgrow₂)
          have hhere : c.Item path e := hpath ▸ hitem [e.name] e (.here List.mem_cons_self)
          rcases dirEnd_follows hsim₂ hps hsnap hkind hhere hlog₂ with ⟨hr, hsim₃, hps₃⟩ | hb
          · exact .inl ⟨hr, hsim₃, hlast hps₃⟩
          · exact .inr hb
        · exact .inr ⟨hf, hend w₂ (hb.resolve_left fun h => h rfl)⟩
    · refine .inr ⟨hf, ?_⟩
      have hne := (noted_restoreEntries env c.repo hnoted (fun w => (.ok (), w))
        Noted.refl pos children
        w₁).ne_nil (hb.resolve_left fun h => h rfl)
      rcases hx : restoreEntries env c.repo dir (fun w => (.ok (), w)) pos children w₁ with
        ⟨err | u', w₂⟩ <;> rw [hx] at hne
      · exact .inl nofun
      · exact hend w₂ hne

theorem dirs_follow : ∀ n, c.DirsFollow (restoreDirs env c.repo n) (Plan.planDirs c.repo n)
  | 0 => trivial
  | n + 1 =>
    dir_follows env (dirs_follow n) (noted_restoreDirs env c.repo n) (Plan.grows_planDirs n)

/-! ### The roots -/

variable (p) in
/-- The dry run of a root, before its place is left. -/
def planRoot (repo : Repository) (rel : RelPath) (pos : Pos) (entries : List Entry)
    (select : Select) : Plan :=
  Plan.planEntries (Plan.planDirs repo (maxTreeDepth - 1)) rel pos entries
    ((({ p with select } : Plan).push ⟨rel, false, false⟩).openIf pos.selected)

variable (c) in
/-- The items of a root lie at its place, which is a place of the setting if the dry run counts it
as made. -/
def Places (p : Plan) (placement : Placement) : Prop :=
  ∀ rel pos entries select,
    c.repo.openPlacement placement p.select = .ok (rel, pos, entries, select) →
      ((planRoot p c.repo rel pos entries select).levels.head?.any PlanLevel.created = true →
        ∀ q, q <+: rel → c.AtPlace q) ∧
      ∀ rel' x, c.repo.Item entries rel' x → c.Item (rel ++ rel') x

variable (c) in
/-- So it is with one root after the other. -/
def AllPlaces : List Placement → Plan → Prop
  | [], _ => True
  | placement :: placements, p => c.Places p placement ∧
    ∀ p', p.planPlacement c.repo placement = (.ok (), p') → AllPlaces placements p'

/-- The place of a root, with nothing above it. -/
theorem Sim.base (h : c.Sim w p) (hnil : w.levels = []) (rel : RelPath) :
    c.Sim { w with levels := [.base rel] } (p.push ⟨rel, false, false⟩) := by
  have habove := h.mirrors.levels
  rw [hnil] at habove
  refine ⟨h.select, h.summary, ⟨.cons ?_ habove, h.mirrors.shows, h.mirrors.contents⟩, h.index⟩
  exact
    { path := rfl
      plan := rfl
      created := rfl
      notFailed := rfl
      above := nofun
      place := fun _ => rfl
      child := nofun
      isDir := nofun
      ready := nofun
      logged := nofun }

/-- A root is restored as the dry run says. -/
theorem placement_follows (h : c.Sim w p) (hnil : w.levels = []) {placement : Placement}
    (hplace : c.Places p placement)
    (hlog : (p.planPlacement c.repo placement).2.onNode <+: c.report) :
    c.Follows w (w.restorePlacement env c.repo placement) (p.planPlacement c.repo placement) := by
  unfold restorePlacement
  unfold Plan.planPlacement at hlog ⊢
  rw [h.select]
  cases ho : c.repo.openPlacement placement p.select with
  | error err => exact .inl ⟨rfl, h, rfl⟩
  | ok x =>
    obtain ⟨rel, pos, entries, select⟩ := x
    rw [ho] at hlog
    dsimp only at hlog ⊢
    obtain ⟨hat, hitem⟩ := hplace _ _ _ _ ho
    have hbase := (h.selected select).base hnil rel
    have hnilp : p.levels = [] := by
      have hlevels := h.mirrors.levels
      rw [hnil] at hlevels
      generalize p.levels = ms at hlevels
      cases hlevels
      rfl
    -- the place is the only level that is no directory of the snapshot
    have hallow : c.Allows (planRoot p c.repo rel pos entries select) := by
      refine ⟨hlog, fun m hm _ hcreated q hq => ?_⟩
      have hgrow := (Plan.grows_openIf (({ p with select } : Plan).push ⟨rel, false, false⟩)
        pos.selected).trans (Plan.grows_planEntries (@Plan.grows_planDirs c.repo (maxTreeDepth - 1))
          rel pos entries _)
      obtain ⟨m', ms, hlevels, hsame⟩ := hgrow.head
      have hms : ms = [] := by
        have hlen := hgrow.levels.length_eq
        rw [hlevels] at hlen
        have hone : (({ p with select } : Plan).push ⟨rel, false, false⟩).levels.length = 1 := by
          show p.levels.length + 1 = 1
          rw [hnilp]
          rfl
        rw [hone, List.length_cons] at hlen
        exact List.length_eq_zero_iff.1 (by omega)
      have hlevels' : (planRoot p c.repo rel pos entries select).levels = [m'] := hms ▸ hlevels
      rw [hlevels', List.mem_singleton] at hm
      subst hm
      have hpath : m.path = rel := hsame.path
      rw [hpath] at hq
      refine hat ?_ q hq
      rw [hlevels']
      exact hcreated
    unfold planRoot at hallow
    generalize hp₁ : (({ p with select } : Plan).push ⟨rel, false, false⟩).openIf pos.selected = p₁
      at hlog hallow ⊢
    have hgrow := Plan.grows_planEntries (@Plan.grows_planDirs c.repo (maxTreeDepth - 1)) rel pos
      entries p₁
    have hcreate := create_follows hbase pos.selected (hp₁ ▸ hallow.mono hgrow)
    rw [hp₁] at hcreate
    rcases hc : ({ w with select, levels := [.base rel] } : RestoreWalk).createIf pos.selected with
      ⟨err | u, w₁⟩
    · rw [hc] at hcreate
      rcases hcreate with ⟨hr, -⟩ | hb
      · cases hr
      · exact .inr hb
    · rw [hc] at hcreate
      dsimp only
      rcases hcreate with ⟨-, hsim, hpaths⟩ | ⟨hf, hb⟩
      · have hlevel : levelPath w₁.levels = rel := levelPath_congr hpaths
        have hentries := entries_follow env (dirs_follow env _) (noted_restoreDirs env c.repo _)
          (Plan.grows_planDirs _) recheckBase (fun w hw => ?_) noted_recheckBase pos
            rel entries hsim
          hlevel hitem hallow
        · rcases hentries with ⟨hr, hsim₂, hpaths₂⟩ | ⟨hf, hb⟩
          · refine .inl ⟨hr, hsim₂.pop, ?_⟩
            rw [RestoreWalk.pop, List.map_tail, hpaths₂, hpaths, hnil]
            rfl
          · exact .inr ⟨hf, hb⟩
        · unfold recheckBase
          cases hw' : w.levels.head? with
          | none => rfl
          | some l =>
            rw [Option.any_some, hw l hw']
            rfl
      · refine .inr ⟨hf, .inr ?_⟩
        exact (noted_restoreEntries env c.repo (noted_restoreDirs env c.repo _) recheckBase
          noted_recheckBase pos entries w₁).ne_nil (hb.resolve_left fun h => h rfl)

/-- **The restore follows its dry run.** It ends with the same result, selection and summary, and
shows what the dry run reports; or something is not as it should be, and it reports an error. -/
theorem placements_follow (placements : List Placement) :
    ∀ {w : RestoreWalk} {p : Plan}, c.Sim w p → w.levels = [] → c.AllPlaces placements p →
      (Plan.planPlacements c.repo placements p).2.onNode <+: c.report →
      c.Follows w (restorePlacements env c.repo placements w)
        (Plan.planPlacements c.repo placements p) := by
  induction placements with
  | nil => exact fun h _ _ _ => .inl ⟨rfl, h, rfl⟩
  | cons placement placements ih =>
    intro w p h hnil hplaces hlog
    obtain ⟨hplace, hrest⟩ := hplaces
    unfold restorePlacements
    unfold Plan.planPlacements at hlog ⊢
    rcases hy : p.planPlacement c.repo placement with ⟨r, p₁⟩
    rw [hy] at hlog
    have hgrow := @Plan.grows_planPlacements c.repo placements p₁
    have hlog₁ : p₁.onNode <+: c.report := by
      cases r with
      | error err => exact hlog
      | ok u => exact hgrow.onNode.trans hlog
    have hfirst := placement_follows env h hnil hplace (by rwa [hy])
    rw [hy] at hfirst
    rcases hx : w.restorePlacement env c.repo placement with ⟨r', w₁⟩
    rw [hx] at hfirst
    -- the plan and the run stop together at an error of the whole restore; after a hindrance the
    -- error list stays nonempty whatever follows
    rcases hfirst with ⟨hr, hsim, hpaths⟩ | ⟨hf, hb⟩
    · dsimp only at hr hsim hpaths
      subst hr
      cases r' with
      | error err => exact .inl ⟨rfl, hsim, hpaths⟩
      | ok u =>
        have hnil₁ : w₁.levels = [] := by
          rw [hnil] at hpaths
          exact List.map_eq_nil_iff.1 hpaths
        exact (ih hsim hnil₁ (hrest p₁ hy) hlog).congr hpaths
    · cases r' with
      | error err => exact .inr ⟨hf, .inl (by simp)⟩
      | ok u =>
        refine .inr ⟨hf, .inr ?_⟩
        exact (noted_restorePlacements env c.repo placements w₁).ne_nil
          (hb.resolve_left fun h => h rfl)

end Steps
end RestoreSetting
end Kist
