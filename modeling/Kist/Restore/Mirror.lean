import Kist.Restore.Items
import Kist.Restore.Leaf

/-!
# The target of a restore and the report of its dry run

While a restore and its dry run go over the same snapshot, the target shows what the dry run has
reported: an object for each report, and besides them only what was there at the start and the
directories on the way to the roots.

* `Shows`, `Contents`, `LevelsMatch`: what holds of the target, of the files in it and of the open
  levels.
* `ensure_mirrors`: the levels are made where the dry run counts them as made.
-/

namespace Kist

/-- A restore and its dry run: the target at the start, the paths at or above the place of a root,
the items of the snapshot by their paths below the target, all that the dry run reports, and the
index that the restore starts with. -/
structure RestoreSetting where
  repo : Repository
  start : Target
  AtPlace : RelPath → Prop
  Item : RelPath → Entry → Prop
  report : List (RelPath × PlannedNode)
  index : ChunkIndex
  isDir : start.IsDir []
  atPlace_nil : AtPlace []

namespace RestoreSetting

variable (c : RestoreSetting)

/-- No path is reported twice, and none on the way to a root; the target is empty. -/
structure Tidy : Prop where
  nodup : (c.report.map Prod.fst).Nodup
  apart : ∀ x ∈ c.report, ¬c.AtPlace x.1
  empty : ∀ q, q ≠ [] → c.start.node q = none

/-- Nothing is in the way of the restore: the user may write below the target, and what is reported
can be read and has an owner that can be set and a target that a symlink can have. -/
structure Fine : Prop extends c.Tidy where
  ready : c.start.Ready []
  mask : c.start.OwnerMask
  reads : ∀ q e, c.Item q e → e.kind = .file → (q, .file) ∈ c.report → c.repo.Reads c.index e
  targets : ∀ q e, c.Item q e → e.kind = .symlink → (q, .symlink) ∈ c.report → 0 ∉ e.target
  owners : ∀ q e, c.Item q e → (q, .of e.kind) ∈ c.report → Target.OwnerOk c.start.asRoot e

variable {c} {t t' : Target} {links : Dict (ℕ × ℕ) RelPath}
  {log log' : List (RelPath × PlannedNode)}
  {q path : RelPath} {k : PlannedNode} {n : TargetNode}

open Target

/-! ### The objects -/

variable (c t log) in
/-- The target after these reports. -/
structure Shows : Prop where
  user : c.start.SameUser t
  leaf : ∀ q k, (q, k) ∈ log → k ≠ .dir → t.IsLeaf q
  dir : ∀ q, (q, .dir) ∈ log → t.IsDir q
  kept : ∀ q, (∀ k, (q, k) ∈ log → k = .dir) → ∀ n, n.kind ≠ .dir →
    (t.node q = some n ↔ c.start.node q = some n)
  dirNew : ∀ q, t.IsDir q → c.start.IsDir q ∨ (q, .dir) ∈ log ∨ c.AtPlace q
  dirKept : ∀ q, c.start.IsDir q → t.IsDir q
  ready : c.Fine → ∀ q, c.AtPlace q → t.IsDir q → t.Ready q

theorem shows_start : c.Shows c.start [] where
  user := .refl _
  leaf _ _ h := nomatch h
  dir _ h := nomatch h
  kept _ _ _ _ := Iff.rfl
  dirNew _ h := .inl h
  dirKept _ h := h
  ready hfine q _ hd := by
    by_cases hq : q = []
    · exact hq ▸ hfine.ready
    · obtain ⟨m, hm⟩ := hd
      rw [hfine.empty q hq] at hm
      cases hm

theorem Shows.same (h : c.Shows t log) (hs : t.Same t') : c.Shows t' log where
  user := h.user.trans hs.user
  leaf q k hq hk := (isLeaf_congr (hs.node q)).2 (h.leaf q k hq hk)
  dir q hq := (isDir_congr (hs.node q)).2 (h.dir q hq)
  kept q hq n hn := (leaf_congr (hs.node q) hn).trans (h.kept q hq n hn)
  dirNew q hq := h.dirNew q ((isDir_congr (hs.node q)).1 hq)
  dirKept q hq := (isDir_congr (hs.node q)).2 (h.dirKept q hq)
  ready hfine q hq hd := hs.ready q (h.ready hfine q hq ((isDir_congr (hs.node q)).1 hd))

theorem not_isDir_of_put (hput : t.Put t' path n) (hn : n.kind ≠ .dir) : ¬t'.IsDir path :=
  IsLeaf.not_isDir ⟨n, hput.at_path, hn⟩

/-- A file or a symlink, where no directory lies. -/
theorem Shows.putLeaf (h : c.Shows t log) (hput : t.Put t' path n) (hn : n.kind ≠ .dir)
    (hno : ¬t.IsDir path) (hk : k ≠ .dir) : c.Shows t' (log ++ [(path, k)]) where
  user := h.user.trans hput.user
  leaf q k' hq hk' := by
    by_cases heq : q = path
    · exact heq ▸ ⟨n, hput.at_path, hn⟩
    · rcases List.mem_append.1 hq with hq | hq
      · exact (isLeaf_congr (hput.node q heq)).2 (h.leaf q k' hq hk')
      · cases List.mem_singleton.1 hq
        exact absurd rfl heq
  dir q hq := by
    rcases List.mem_append.1 hq with hq | hq
    · have hd := h.dir q hq
      have heq : q ≠ path := fun heq => hno (heq ▸ hd)
      exact (isDir_congr (hput.node q heq)).2 hd
    · cases List.mem_singleton.1 hq
      exact absurd rfl hk
  kept q hq n' hn' := by
    have heq : q ≠ path := fun heq => hk (hq k (by simp [heq]))
    exact (leaf_congr (hput.node q heq) hn').trans
      (h.kept q (fun k' hk' => hq k' (List.mem_append_left _ hk')) n' hn')
  dirNew q hq := by
    have heq : q ≠ path := fun heq => not_isDir_of_put hput hn (heq ▸ hq)
    exact (h.dirNew q ((isDir_congr (hput.node q heq)).1 hq)).imp_right
      (Or.imp_left (List.mem_append_left _))
  dirKept q hq := by
    have hd := h.dirKept q hq
    exact (isDir_congr (hput.node q fun heq => hno (heq ▸ hd))).2 hd
  ready hfine q hq hd := by
    have heq : q ≠ path := fun heq => not_isDir_of_put hput hn (heq ▸ hd)
    exact hput.ready q heq (h.ready hfine q hq ((isDir_congr (hput.node q heq)).1 hd))

/-- A directory, where nothing or a directory lies: one that is reported, or one on the way to a
root. -/
theorem Shows.putDir {m : TargetMeta} (h : c.Shows t log) (hput : t.Put t' path (.dir m))
    (hno : ¬t.IsLeaf path) (hlog : log' = log ++ [(path, .dir)] ∨ log' = log ∧
      ((path, .dir) ∈ log ∨ c.AtPlace path))
    (hmode : c.Fine → c.AtPlace path → m.mode &&& 0o700 = 0o700) : c.Shows t' log' := by
  have hsub : ∀ x ∈ log, x ∈ log' := by
    rcases hlog with rfl | ⟨rfl, -⟩
    · exact fun x => List.mem_append_left _
    · exact fun x => id
  have hinv : ∀ x ∈ log', x ∈ log ∨ x = (path, .dir) := by
    rcases hlog with rfl | ⟨rfl, -⟩
    · exact fun x hx => (List.mem_append.1 hx).imp_right List.mem_singleton.1
    · exact fun x => .inl
  have hdir : t'.IsDir path := ⟨m, hput.at_path⟩
  refine ⟨h.user.trans hput.user, fun q k hq hk => ?_, fun q hq => ?_, fun q hq n hn => ?_,
    fun q hq => ?_, fun q hq => ?_, fun hfine q hq hd => ?_⟩
  · rcases hinv _ hq with hq | hq
    · have hleaf := h.leaf q k hq hk
      exact (isLeaf_congr (hput.node q fun heq => hno (heq ▸ hleaf))).2 hleaf
    · cases hq
      exact absurd rfl hk
  · by_cases heq : q = path
    · exact heq ▸ hdir
    · rcases hinv _ hq with hq | hq
      · exact (isDir_congr (hput.node q heq)).2 (h.dir q hq)
      · cases hq
        exact absurd rfl heq
  · have hold := h.kept q (fun k hk => hq k (hsub _ hk)) n hn
    by_cases heq : q = path
    · subst heq
      refine iff_of_false (fun hq' => ?_) fun hs => hno ⟨n, hold.2 hs, hn⟩
      rw [hput.at_path] at hq'
      cases hq'
      exact hn rfl
    · exact (leaf_congr (hput.node q heq) hn).trans hold
  · by_cases heq : q = path
    · rcases hlog with rfl | ⟨rfl, hp | hp⟩
      · exact .inr (.inl (by simp [heq]))
      · exact .inr (.inl (heq ▸ hp))
      · exact .inr (.inr (heq ▸ hp))
    · exact (h.dirNew q ((isDir_congr (hput.node q heq)).1 hq)).imp_right (Or.imp_left (hsub _))
  · by_cases heq : q = path
    · exact heq ▸ hdir
    · exact (isDir_congr (hput.node q heq)).2 (h.dirKept q hq)
  · by_cases heq : q = path
    · exact ⟨m, heq ▸ hput.at_path, hmode hfine (heq ▸ hq)⟩
    · exact hput.ready q heq (h.ready hfine q hq ((isDir_congr (hput.node q heq)).1 hd))

/-- A directory that was there is reported. -/
theorem Shows.logDir (h : c.Shows t log) (hd : t.IsDir path) :
    c.Shows t (log ++ [(path, .dir)]) := by
  obtain ⟨m, hm⟩ := hd
  have hput : t.Put t path (.dir m) := ⟨.refl t, hm, fun _ _ => .refl _, fun _ _ => id⟩
  refine h.putDir hput (fun hleaf => hleaf.not_isDir ⟨m, hm⟩) (.inl rfl) fun hfine hp => ?_
  obtain ⟨m', hm', hmode⟩ := h.ready hfine path hp ⟨m, hm⟩
  rw [hm] at hm'
  cases hm'
  exact hmode

/-- Where something is reported next, nothing lies yet. -/
theorem Shows.free (h : c.Shows t log) (htidy : c.Tidy) (hlog : log ++ [(path, k)] <+: c.report) :
    t.node path = none := by
  have hmem : (path, k) ∈ c.report := hlog.subset (by simp)
  have hapart := htidy.apart _ hmem
  have hne : path ≠ [] := fun heq => hapart (heq ▸ c.atPlace_nil)
  have hnew : ∀ k', (path, k') ∉ log := fun k' hk' => by
    have hnodup := htidy.nodup.sublist (hlog.sublist.map Prod.fst)
    rw [List.map_append, List.nodup_append] at hnodup
    exact hnodup.2.2 path (List.mem_map_of_mem hk') path (by simp) rfl
  cases hn : t.node path with
  | none => rfl
  | some n =>
    by_cases hkind : n.kind = .dir
    · rcases h.dirNew path (isDir_of_kind hn hkind) with ⟨m, hm⟩ | hd | hp
      · rw [htidy.empty path hne] at hm
        cases hm
      · exact absurd hd (hnew _)
      · exact absurd hp hapart
    · have := (h.kept path (fun k' hk' => absurd hk' (hnew k')) n hkind).1 hn
      rw [htidy.empty path hne] at this
      cases this

/-! ### The contents -/

variable (c t) in
/-- A file of its own, with the content and the metadata of the entry. -/
def Copied (q : RelPath) (e : Entry) : Prop :=
  e.kind = .file ∧ ∃ ino bytes m, t.node q = some (.file ino bytes m) ∧
    e.fileContent.Holds c.repo.keys bytes ∧ m.Shows c.start.asRoot e

variable (c t log) in
/-- What lies at the path of an entry that was restored. -/
inductive Written (q : RelPath) (e : Entry) : Prop
  | copied (h : c.Copied t q e)
  | linked {key : ℕ × ℕ} {first : RelPath} {e' : Entry} (hkind : e.kind = .file)
    (hkey : e.hardlinkKey = some key) (hkey' : e'.hardlinkKey = some key) (hitem : c.Item first e')
    (hlog : (first, .file) ∈ log) (hfirst : c.Copied t first e') (same : t.node q = t.node first)
  | symlink {ino : ℕ} (hkind : e.kind = .symlink) (h : t.node q = some
      (.symlink ino e.target (if c.start.asRoot then ownerOfEntry e else none) e.mtimeNs))

variable (c t links log) in
/-- The files and symlinks of the reports, and the names to which further ones are linked. -/
structure Contents : Prop where
  written : ∀ q k, (q, k) ∈ log → k ≠ .dir → ∃ e, c.Item q e ∧ .of e.kind = k ∧ c.Written t log q e
  links : ∀ key q, links.lookup key = some q → (q, .file) ∈ log ∧
    ∃ e, c.Item q e ∧ e.hardlinkKey = some key ∧ c.Copied t q e

/-- Files, symlinks and special files stay. -/
def KeepsLeaves (t t' : Target) : Prop :=
  ∀ q n, n.kind ≠ .dir → t.node q = some n → t'.node q = some n

theorem keepsLeaves_same (hs : t.Same t') : KeepsLeaves t t' := fun q _ hn hq =>
  (leaf_congr (hs.node q) hn).2 hq

theorem keepsLeaves_put (hput : t.Put t' path n) (hno : ¬t.IsLeaf path) : KeepsLeaves t t' :=
  fun q n hn hq => (leaf_congr (hput.node q fun heq => hno ⟨n, heq ▸ hq, hn⟩) hn).2 hq

theorem Copied.keep {e : Entry} (h : c.Copied t q e) (hk : KeepsLeaves t t') : c.Copied t' q e := by
  obtain ⟨hkind, ino, bytes, m, hn, hb⟩ := h
  exact ⟨hkind, ino, bytes, m, hk q _ (by simp [TargetNode.kind]) hn, hb⟩

theorem Written.keep {e : Entry} (h : c.Written t log q e) (hk : KeepsLeaves t t')
    (hlog : log ⊆ log') : c.Written t' log' q e := by
  cases h with
  | copied h => exact .copied (h.keep hk)
  | linked hkind hkey hkey' hitem hl hfirst same =>
    obtain ⟨ino, bytes, m, hn, -⟩ := hfirst.2
    have hnode := hk _ _ (by simp [TargetNode.kind]) hn
    refine .linked hkind hkey hkey' hitem (hlog hl) (hfirst.keep hk) ?_
    rw [hnode]
    exact hk q _ (by simp [TargetNode.kind]) (same.trans hn)
  | symlink hkind h => exact .symlink hkind (hk q _ (by simp [TargetNode.kind]) h)

theorem Contents.keep (h : c.Contents t links log) (hk : KeepsLeaves t t') :
    c.Contents t' links log where
  written q k hq hkind := by
    obtain ⟨e, hitem, hof, hw⟩ := h.written q k hq hkind
    exact ⟨e, hitem, hof, hw.keep hk (List.Subset.refl _)⟩
  links key q hl := by
    obtain ⟨hlog, e, hitem, hkey, hc⟩ := h.links key q hl
    exact ⟨hlog, e, hitem, hkey, hc.keep hk⟩

/-- More reports of directories. -/
theorem Contents.more (h : c.Contents t links log) (hsub : log ⊆ log')
    (hnew : ∀ q k, (q, k) ∈ log' → k ≠ .dir → (q, k) ∈ log) : c.Contents t links log' where
  written q k hq hkind := by
    obtain ⟨e, hitem, hof, hw⟩ := h.written q k (hnew q k hq hkind) hkind
    exact ⟨e, hitem, hof, hw.keep (fun _ _ _ => id) hsub⟩
  links key q hl := (h.links key q hl).imp_left fun hq => hsub hq

/-! ### The levels -/

variable {l : PendingDir} {m : PlanLevel} {ls : List PendingDir} {ms : List PlanLevel}

variable (c t log) in
/-- A level of the restore and of the dry run, below the levels `ls`. -/
structure LevelMatch (l : PendingDir) (m : PlanLevel) (ls : List PendingDir) : Prop where
  path : l.path = levelPath ls ++ l.make
  plan : m.path = l.path
  created : m.created = l.handle.isSome
  notFailed : l.createFailed = false
  above : l.handle.isSome → ∀ l' ∈ ls, l'.handle.isSome
  place : m.snapshotDir = false → ls = []
  child : m.snapshotDir = true → ∃ name, l.make = [name]
  isDir : l.handle.isSome → t.IsDir l.path
  ready : c.Fine → l.handle.isSome → t.Ready l.path
  logged : l.handle.isSome → m.snapshotDir = true → (l.path, .dir) ∈ log

variable (c t log) in
/-- The levels of the restore and of the dry run. -/
inductive LevelsMatch : List PendingDir → List PlanLevel → Prop
  | nil : LevelsMatch [] []
  | cons {l : PendingDir} {m : PlanLevel} {ls : List PendingDir} {ms : List PlanLevel}
    (h : LevelMatch c t log l m ls) (above : LevelsMatch ls ms) : LevelsMatch (l :: ls) (m :: ms)

theorem LevelMatch.keep (h : c.LevelMatch t log l m ls) (hdir : t.IsDir l.path → t'.IsDir l.path)
    (hready : t.Ready l.path → t'.Ready l.path) (hlog : log ⊆ log') : c.LevelMatch t' log' l m ls :=
  { h with
    isDir := fun hl => hdir (h.isDir hl)
    ready := fun hf hl => hready (h.ready hf hl)
    logged := fun hl hm => hlog (h.logged hl hm) }

theorem LevelsMatch.keep (h : c.LevelsMatch t log ls ms)
    (hdir : ∀ l ∈ ls, t.IsDir l.path → t'.IsDir l.path)
    (hready : ∀ l ∈ ls, t.Ready l.path → t'.Ready l.path) (hlog : log ⊆ log') :
    c.LevelsMatch t' log' ls ms := by
  induction h with
  | nil => exact .nil
  | cons h _ ih =>
    exact .cons (h.keep (hdir _ List.mem_cons_self) (hready _ List.mem_cons_self) hlog)
      (ih (fun l hl => hdir l (List.mem_cons_of_mem _ hl))
        fun l hl => hready l (List.mem_cons_of_mem _ hl))

theorem LevelsMatch.same (h : c.LevelsMatch t log ls ms) (hs : t.Same t') :
    c.LevelsMatch t' log ls ms :=
  h.keep (fun l _ => (isDir_congr (hs.node l.path)).2) (fun l _ => hs.ready l.path)
    (List.Subset.refl _)

/-- Levels that are open stay so where nothing is put in the place of a directory. -/
theorem LevelsMatch.put (h : c.LevelsMatch t log ls ms) (hput : t.Put t' path n)
    (hno : ¬t.IsDir path) (hlog : log ⊆ log') : c.LevelsMatch t' log' ls ms :=
  h.keep (fun _ _ hq => (isDir_congr (hput.node _ fun heq => hno (heq ▸ hq))).2 hq)
    (fun _ _ hq => hput.ready _ (fun heq => hno (heq ▸ hq.isDir)) hq) hlog

theorem LevelsMatch.tail (h : c.LevelsMatch t log ls ms) : c.LevelsMatch t log ls.tail ms.tail := by
  cases h with
  | nil => exact .nil
  | cons _ above => exact above

/-- Above a level that is open all levels are. -/
theorem LevelsMatch.openLevels_eq (h : c.LevelsMatch t log ls ms)
    (hopen : ∀ l ∈ ls, l.handle.isSome) (log' : List (RelPath × PlannedNode)) :
    openLevels ms log' = (ms, log') := by
  induction h with
  | nil => rfl
  | @cons l m ls ms h _ ih =>
    rw [openLevels, ih fun l' hl' => hopen l' (List.mem_cons_of_mem _ hl')]
    dsimp only
    rw [h.created, hopen l List.mem_cons_self, if_pos rfl]

/-- The path of each level lies above the path of the deepest one. -/
theorem LevelsMatch.isPrefix (h : c.LevelsMatch t log ls ms) :
    ∀ l ∈ ls, l.path <+: levelPath ls := by
  induction h with
  | nil => nofun
  | @cons l m ls ms h _ ih =>
    intro l' hl'
    rcases List.mem_cons.1 hl' with rfl | hl'
    · exact List.prefix_rfl
    · show l'.path <+: l.path
      rw [h.path]
      exact (ih l' hl').trans (List.prefix_append _ _)

theorem LevelsMatch.head_notFailed (h : c.LevelsMatch t log ls ms) :
    ∀ l ∈ ls.head?, l.createFailed = false := by
  cases h with
  | nil => nofun
  | cons h _ =>
    intro l hl
    cases hl
    exact h.notFailed

variable (c t links log ls ms) in
/-- The target and the levels of a restore, after these reports and with these levels of the dry
run. -/
structure Mirrors : Prop where
  levels : c.LevelsMatch t log ls ms
  shows : c.Shows t log
  contents : c.Tidy → c.Contents t links log

theorem Mirrors.same (h : c.Mirrors t links log ls ms) (hs : t.Same t') :
    c.Mirrors t' links log ls ms :=
  ⟨h.levels.same hs, h.shows.same hs, fun ht => (h.contents ht).keep (keepsLeaves_same hs)⟩

/-! ### Making directories -/

theorem levelPath_isDir (hm : c.LevelsMatch t log ls ms) (hs : c.Shows t log)
    (hopen : ∀ l ∈ ls, l.handle.isSome) : t.IsDir (levelPath ls) := by
  cases hm with
  | nil => exact hs.dirKept _ c.isDir
  | @cons l m ls ms h _ => exact h.isDir (hopen l List.mem_cons_self)

theorem levelPath_ready (hm : c.LevelsMatch t log ls ms) (hs : c.Shows t log) (hfine : c.Fine)
    (hopen : ∀ l ∈ ls, l.handle.isSome) : t.Ready (levelPath ls) := by
  cases hm with
  | nil => exact hs.ready hfine [] c.atPlace_nil (hs.dirKept _ c.isDir)
  | @cons l m ls ms h _ => exact h.ready hfine (hopen l List.mem_cons_self)

/-- No file lies on the way to a root. -/
theorem Shows.not_isLeaf (h : c.Shows t log) (htidy : c.Tidy) (hlog : log ⊆ c.report)
    (hp : c.AtPlace path) (hne : path ≠ []) : ¬t.IsLeaf path := by
  rintro ⟨n, hn, hkind⟩
  have hold := (h.kept path (fun k hk => absurd hp (htidy.apart _ (hlog hk))) n hkind).1 hn
  rw [htidy.empty path hne] at hold
  cases hold

/-- The way to a root is made, one directory after the other. -/
theorem createDirs_place (hlog : log ⊆ c.report) (names : List Bytes) :
    ∀ {dir : RelPath} (readable : Bool) {t : Target}, c.Shows t log →
      (∀ q, q <+: dir ++ names → c.AtPlace q) → t.IsDir dir →
      (c.Tidy → c.Contents t links log) →
      (∀ b, (Target.createDirs dir readable names t).1 = .ok b →
        c.Shows (Target.createDirs dir readable names t).2 log ∧
        (c.Tidy → c.Contents (Target.createDirs dir readable names t).2 links log) ∧
        (Target.createDirs dir readable names t).2.IsDir (dir ++ names)) ∧
      (c.Fine → ∃ b, (Target.createDirs dir readable names t).1 = .ok b) := by
  induction names with
  | nil =>
    intro dir readable t hs _ hd hc
    exact ⟨fun b _ => ⟨hs, hc, by rwa [List.append_nil]⟩, fun _ => ⟨_, rfl⟩⟩
  | cons name names ih =>
    intro dir readable t hs hp hd hc
    have hassoc : dir ++ name :: names = dir ++ [name] ++ names := by simp
    rw [hassoc] at hp ⊢
    have hpath : c.AtPlace (dir ++ [name]) := hp _ (List.prefix_append _ _)
    have hnil : dir ++ [name] ≠ [] := by simp
    have hparent : c.Fine → t.Ready dir := fun hfine => hs.ready hfine dir
      (hp dir ((List.prefix_append dir [name]).trans (List.prefix_append _ _))) hd
    obtain ⟨hok, hprogress⟩ := t.createChildDir_spec dir name
    unfold Target.createDirs
    rcases hr : t.createChildDir dir name with ⟨e | readable', t₁⟩
    · rw [hr] at hprogress
      refine ⟨nofun, fun hfine => ?_⟩
      obtain ⟨b, hb⟩ := hprogress (hparent hfine) (hs.not_isLeaf hfine.toTidy hlog hpath hnil)
      cases hb
    · rw [hr] at hok
      dsimp only at hok ⊢
      rcases hok readable' rfl with ⟨hdir, rfl⟩ | ⟨hnone, hput⟩
      · exact ih readable' hs hp hdir hc
      · have hleaf : ¬t.IsLeaf (dir ++ [name]) := by
          rintro ⟨n, hn, -⟩
          rw [hnone] at hn
          cases hn
        refine ih readable' (hs.putDir hput hleaf (.inr ⟨rfl, .inr hpath⟩) fun hfine _ => ?_) hp
          ⟨_, hput.at_path⟩ fun ht => (hc ht).keep (keepsLeaves_put hput hleaf)
        show t.umask 0o777 &&& 0o700 = 0o700
        rw [hs.user.umask]
        exact hfine.mask

theorem levelPath_congr {ls ls' : List PendingDir}
    (h : ls'.map PendingDir.path = ls.map PendingDir.path) :
    levelPath ls' = levelPath ls := by
  cases ls <;> cases ls' <;> simp_all [levelPath]

/-- One level is made, below levels that are open. -/
theorem createDirs_mirrors (h : c.Mirrors t links log ls ms) (hopen : ∀ l ∈ ls, l.handle.isSome)
    {make : List Bytes} {snapshotDir : Bool} (readable : Bool)
    (hplace : snapshotDir = false → ls = [] ∧ ∀ q, q <+: levelPath ls ++ make → c.AtPlace q)
    (hchild : snapshotDir = true → ∃ name, make = [name])
    (hlog : log' = if snapshotDir then log ++ [(levelPath ls ++ make, .dir)] else log)
    (hreport : log' <+: c.report) :
    ((∃ b, (Target.createDirs (levelPath ls) readable make t).1 = .ok b) ∧
      c.Mirrors (Target.createDirs (levelPath ls) readable make t).2 links log' ls ms ∧
      (Target.createDirs (levelPath ls) readable make t).2.IsDir (levelPath ls ++ make) ∧
      (c.Fine → (Target.createDirs (levelPath ls) readable make t).2.Ready
        (levelPath ls ++ make))) ∨
    ¬c.Fine ∧ ∃ e, (Target.createDirs (levelPath ls) readable make t).1 = .error e := by
  have hdir := levelPath_isDir h.levels h.shows hopen
  cases hsnap : snapshotDir with
  | false =>
    -- the place of a root
    rw [hsnap, if_neg Bool.false_ne_true] at hlog
    subst hlog
    obtain ⟨rfl, hp⟩ := hplace hsnap
    obtain ⟨hok, hprogress⟩ :=
      createDirs_place hreport.subset make readable h.shows hp hdir h.contents
    cases hr : (Target.createDirs (levelPath []) readable make t).1 with
    | error e =>
      refine .inr ⟨fun hfine => ?_, e, rfl⟩
      obtain ⟨b, hb⟩ := hprogress hfine
      rw [hr] at hb
      cases hb
    | ok b =>
      obtain ⟨hs, hc, hd⟩ := hok b hr
      cases h.levels
      exact .inl ⟨⟨b, rfl⟩, ⟨.nil, hs, hc⟩, hd, fun hfine =>
        hs.ready hfine _ (hp _ List.prefix_rfl) hd⟩
  | true =>
    rw [hsnap, if_pos rfl] at hlog
    subst hlog
    obtain ⟨name, rfl⟩ := hchild hsnap
    obtain ⟨hok, hprogress⟩ := t.createChildDir_spec (levelPath ls) name
    have hlogs : log ⊆ log ++ [(levelPath ls ++ [name], .dir)] := List.subset_append_left _ _
    have hold : ∀ q k, (q, k) ∈ log ++ [(levelPath ls ++ [name], .dir)] → k ≠ .dir →
      (q, k) ∈ log := by
      intro q k hq hk
      rcases List.mem_append.1 hq with hq | hq
      · exact hq
      · cases List.mem_singleton.1 hq
        exact absurd rfl hk
    unfold Target.createDirs
    rcases hr : t.createChildDir (levelPath ls) name with ⟨e | b, t₁⟩
    · rw [hr] at hprogress
      refine .inr ⟨fun hfine => ?_, e, rfl⟩
      have hnone := h.shows.free hfine.toTidy hreport
      obtain ⟨b, hb⟩ := hprogress (levelPath_ready h.levels h.shows hfine hopen) fun hleaf => by
        obtain ⟨n, hn, -⟩ := hleaf
        rw [hnone] at hn
        cases hn
      cases hb
    · rw [hr] at hok
      dsimp only [Target.createDirs] at hok ⊢
      rcases hok b rfl with ⟨hd, rfl⟩ | ⟨hnone, hput⟩
      · -- under fair conditions the directory is new
        refine .inl ⟨⟨b, rfl⟩,
          ⟨h.levels.keep (fun _ _ => id) (fun _ _ => id) hlogs, h.shows.logDir hd,
          fun ht => (h.contents ht).more hlogs hold⟩, hd, fun hfine => ?_⟩
        obtain ⟨m, hm⟩ := hd
        rw [h.shows.free hfine.toTidy hreport] at hm
        cases hm
      · have hno : ¬t.IsDir (levelPath ls ++ [name]) := by
          rintro ⟨m, hm⟩
          rw [hnone] at hm
          cases hm
        have hleaf : ¬t.IsLeaf (levelPath ls ++ [name]) := by
          rintro ⟨n, hn, -⟩
          rw [hnone] at hn
          cases hn
        have hmode : c.Fine → t.umask 0o777 &&& 0o700 = 0o700 := fun hfine => by
          rw [h.shows.user.umask]
          exact hfine.mask
        exact .inl ⟨⟨b, rfl⟩, ⟨h.levels.put hput hno hlogs,
          h.shows.putDir hput hleaf (.inl rfl) fun hfine _ => hmode hfine,
          fun ht => ((h.contents ht).keep (keepsLeaves_put hput hleaf)).more hlogs hold⟩,
          ⟨_, hput.at_path⟩, fun hfine => ⟨_, hput.at_path, hmode hfine⟩⟩

theorem prepare_spec (l : PendingDir) (forWriting : Bool) (hd : t.IsDir l.path) :
    (l.prepare forWriting t).1.path = l.path ∧ (l.prepare forWriting t).1.make = l.make ∧
      (l.prepare forWriting t).1.handle = l.handle ∧
      (l.prepare forWriting t).1.createFailed = l.createFailed ∧
      t.Same (l.prepare forWriting t).2 := by
  unfold PendingDir.prepare
  split_ifs
  · exact ⟨rfl, rfl, rfl, rfl, same_makeOwnerWritable hd _⟩
  · exact ⟨rfl, rfl, rfl, rfl, .refl t⟩
  · exact ⟨rfl, rfl, rfl, rfl, .refl t⟩

/-- Whether a level matches depends on what it is, not on whether it was prepared. -/
theorem LevelMatch.congr {l' : PendingDir} (h : c.LevelMatch t log l m ls)
    (hpath : l'.path = l.path) (hmake : l'.make = l.make) (hhandle : l'.handle = l.handle)
    (hfailed : l'.createFailed = l.createFailed) : c.LevelMatch t log l' m ls where
  path := by rw [hpath, hmake, h.path]
  plan := h.plan.trans hpath.symm
  created := by rw [h.created, hhandle]
  notFailed := hfailed.trans h.notFailed
  above := by rw [hhandle]; exact h.above
  place := h.place
  child := by rw [hmake]; exact h.child
  isDir := by rw [hpath, hhandle]; exact h.isDir
  ready := by rw [hpath, hhandle]; exact h.ready
  logged := by rw [hpath, hhandle]; exact h.logged

/-- **Making the levels.** The deepest level and those above it are made, and the dry run counts
them as made; under fair conditions nothing prevents it. -/
theorem ensure_mirrors {links : Dict (ℕ × ℕ) RelPath} {log : List (RelPath × PlannedNode)} :
    ∀ {ls : List PendingDir} {ms : List PlanLevel} {t : Target} (forWriting : Bool),
      c.Mirrors t links log ls ms → (openLevels ms log).2 <+: c.report →
      (∀ m ∈ ms, m.snapshotDir = false → ∀ q, q <+: m.path → c.AtPlace q) →
      ((ensure forWriting ls t).1 = .ok () ∧
        (ensure forWriting ls t).2.1.map PendingDir.path = ls.map PendingDir.path ∧
        (∀ l ∈ (ensure forWriting ls t).2.1, l.handle.isSome) ∧
        c.Mirrors (ensure forWriting ls t).2.2 links (openLevels ms log).2
          (ensure forWriting ls t).2.1 (openLevels ms log).1) ∨
      ¬c.Fine ∧ (ensure forWriting ls t).1 ≠ .ok () := by
  intro ls
  induction ls with
  | nil =>
    intro ms t forWriting h _ _
    cases h.levels
    exact .inl ⟨rfl, rfl, List.forall_mem_nil _, h⟩
  | cons l ls ih =>
    intro ms t forWriting h hlog hat
    obtain ⟨hlevels, hshows, hcontents⟩ := h
    cases hlevels with
    | @cons _ m _ ms hl habove =>
      unfold ensure
      cases hhandle : l.handle with
      | some r =>
        -- the level is open, and those above it are
        have hopen : l.handle.isSome := by rw [hhandle]; rfl
        have heq : openLevels (m :: ms) log = (m :: ms, log) := by
          rw [openLevels, habove.openLevels_eq (hl.above hopen)]
          dsimp only
          rw [hl.created, hopen, if_pos rfl]
        obtain ⟨hpath, hmake, hhandle', hfailed, hsame⟩ :=
          prepare_spec l forWriting (hl.isDir hopen)
        rw [heq]
        refine .inl ⟨rfl, ?_, ?_, ?_⟩
        · simp [hpath]
        · intro l' hl'
          rcases List.mem_cons.1 hl' with rfl | hl'
          · rw [hhandle']
            exact hopen
          · exact hl.above hopen l' hl'
        · have h' : c.Mirrors t links log ((l.prepare forWriting t).1 :: ls) (m :: ms) :=
            ⟨.cons (hl.congr hpath hmake hhandle' hfailed) habove, hshows, hcontents⟩
          exact h'.same hsame
      | none =>
        have hcreated : m.created = false := by rw [hl.created, hhandle]; rfl
        have heq : openLevels (m :: ms) log = ({ m with created := true } :: (openLevels ms log).1,
            if m.snapshotDir then (openLevels ms log).2 ++ [(m.path, .dir)]
            else (openLevels ms log).2) := by
          conv_lhs => rw [openLevels]
          dsimp only
          rw [hcreated, if_neg Bool.false_ne_true]
        have hpre : (openLevels ms log).2 <+: (openLevels (m :: ms) log).2 := by
          rw [heq]
          dsimp only
          split_ifs
          · exact List.prefix_append _ _
          · exact List.prefix_rfl
        dsimp only
        rcases ih true ⟨habove, hshows, hcontents⟩ (hpre.trans hlog)
          (fun m' hm' => hat m' (List.mem_cons_of_mem _ hm')) with
          ⟨hok, hpaths, hopen, hm⟩ | ⟨hfine, hne⟩
        · rcases hx : ensure true ls t with ⟨r₁, ls₁, t₁⟩
          rw [hx] at hok hpaths hopen hm
          dsimp only at hok hpaths hopen hm
          subst hok
          dsimp only
          have hpath : levelPath ls₁ ++ l.make = l.path := by
            rw [levelPath_congr hpaths, ← hl.path]
          have hplace : m.snapshotDir = false →
              ls₁ = [] ∧ ∀ q, q <+: levelPath ls₁ ++ l.make → c.AtPlace q := fun hs => by
            obtain rfl := hl.place hs
            refine ⟨List.map_eq_nil_iff.1 hpaths, ?_⟩
            rw [hpath, ← hl.plan]
            exact hat m List.mem_cons_self hs
          rcases createDirs_mirrors hm hopen (levelReadable t₁ ls₁) hplace hl.child
            (by rw [heq, hl.plan, hpath]) hlog with ⟨⟨b, hb⟩, hm₂, hd, hready⟩ | ⟨hfine, e, he⟩
          · rcases hy : Target.createDirs (levelPath ls₁) (levelReadable t₁ ls₁) l.make
              t₁ with ⟨r₂, t₂⟩
            rw [hy] at hb hm₂ hd hready
            dsimp only at hb hm₂ hd hready
            subst hb
            dsimp only
            rw [hpath] at hplace hd hready
            generalize hl' : ({ l with handle := some b, createFailed := false } : PendingDir) = l'
            have hpath' : l'.path = l.path := by rw [← hl']
            obtain ⟨hp, hmake, hhandle', hfailed, hsame⟩ :=
              prepare_spec (t := t₂) l' forWriting (by rwa [hpath'])
            have hsome : l'.handle.isSome := by rw [← hl']; rfl
            have hmatch : c.LevelMatch t₂ (openLevels (m :: ms) log).2 l'
                { m with created := true } ls₁ :=
              { path := by rw [hpath', hpath.symm, ← hl']
                plan := by rw [hpath']; exact hl.plan
                created := hsome.symm
                notFailed := by rw [← hl']
                above := fun _ => hopen
                place := fun hs => (hplace hs).1
                child := by rw [← hl']; exact hl.child
                isDir := fun _ => by rwa [hpath']
                ready := fun hf _ => by rw [hpath']; exact hready hf
                logged := fun _ hs => by
                  rw [heq, hpath']
                  dsimp only at hs ⊢
                  rw [hs, if_pos rfl, hl.plan]
                  simp }
            refine .inl ⟨rfl, ?_, ?_, ?_⟩
            · simp [hp, hpath', hpaths]
            · intro l'' hl''
              rcases List.mem_cons.1 hl'' with rfl | hl''
              · rw [hhandle']
                exact hsome
              · exact hopen l'' hl''
            · have h' : c.Mirrors t₂ links (openLevels (m :: ms) log).2
                  ((l'.prepare forWriting t₂).1 :: ls₁) (openLevels (m :: ms) log).1 := by
                refine ⟨?_, hm₂.shows, hm₂.contents⟩
                have := hm₂.levels
                rw [heq] at this ⊢
                exact .cons ((heq ▸ hmatch).congr hp hmake hhandle' hfailed) this
              exact h'.same hsame
          · refine .inr ⟨hfine, ?_⟩
            rcases hy : Target.createDirs (levelPath ls₁) (levelReadable t₁ ls₁) l.make
              t₁ with ⟨r₂, t₂⟩
            rw [hy] at he
            dsimp only at he
            subst he
            simp
        · refine .inr ⟨hfine, ?_⟩
          rcases hx : ensure true ls t with ⟨e | u, ls₁, t₁⟩
          · simp
          · rw [hx] at hne
            exact absurd rfl hne

end RestoreSetting
end Kist
