import Kist.Backup.Prepare
import Kist.Backup.Selection

/-!
# What a whole backup writes

The backup of local sources that do not change: every source gets a tree that records what the walk
admits, the snapshot that is committed has these trees as its roots, and it reads back.
-/

namespace Kist

open Checked (bind_eq_ok)

namespace SourceTree

variable (tree : SourceTree)

/-- The type of an item, as `symlink_metadata` tells it. -/
def localKind : SourceNode → LocalKind
  | .dir _ => .dir
  | .file _ content => .file content.length
  | .symlink _ target => .symlink target

/-- The local file system. `canonicalize` resolves what the caller was given. -/
def localFs (canonicalize : Bytes → Except String RelPath) : LocalFs where
  canonicalize := canonicalize
  symlinkMetadata _ path :=
    match tree.node path with
    | some node => .ok ⟨localKind node, node.posix⟩
    | none => .error "not found"
  source path := (tree.below path).source

section Root

variable (R : TreeId → Tree → Prop) (fileOk : RelPath → FileContent → Prop)
  (exclude : Exclusions)

/-- The visit in which the walk of the source `a` starts. -/
def rootVisit (a : RelPath) : Visit :=
  .root (exclude.patterns.walk exclude.patterns.start a)
    (if exclude.oneFileSystem then tree.dev a else none)

/-- What the tree of the source `a` records, where `named` are the paths named below it. -/
def RootHolds (a : RelPath) (named : List RelPath) (id : TreeId) : Prop :=
  match tree.node a with
  | some (.dir _) =>
    (tree.below a).Holds R (fun path => fileOk (a ++ path))
      ⟨(tree.below a).source, .new named, exclude⟩ (maxTreeDepth - 1) []
        (tree.rootVisit exclude a) id
  | some node => ∃ n e, a.getLast? = some n ∧ Written R id [e] ∧
      tree.EntryHolds R fileOk (fun _ _ _ => False) a n (.root {} none) e node
  | none => False

variable {R} {R' : TreeId → Tree → Prop} {fileOk exclude tree}

theorem RootHolds.mono (hR : ∀ id t, R id t → R' id t) {a : RelPath} {named : List RelPath}
    {id : TreeId} (h : tree.RootHolds R fileOk exclude a named id) :
    tree.RootHolds R' fileOk exclude a named id := by
  unfold RootHolds at h ⊢
  split
  · next hd =>
    rw [hd] at h
    exact Holds.mono hR h
  · next node hne hn =>
    rw [hn] at h
    cases node with
    | dir p => exact absurd rfl (hne p)
    | _ =>
      obtain ⟨n, e, hlast, hw, he⟩ := h
      exact ⟨n, e, hlast, hw.mono hR, he.mono hR fun _ _ _ h => h⟩
  · next hn => rw [hn] at h; exact h

end Root
end SourceTree

namespace Backup

variable {keys : RepoKeys} {tree : SourceTree} {P : Backup → Prop}
  {fileOk : RelPath → FileContent → Prop} {parentOk : RelPath → Entry → Prop}
  {exclude : Exclusions} {b : Backup}

/-- Reading a file asks for nothing but its bytes. -/
theorem processFile_congr (s s' : Source) (rel rel' : RelPath) (f : FileFacts)
    (parent : Option Entry) (h : ∀ tick, s.read tick rel = s'.read tick rel') :
    b.processFile s rel f parent = b.processFile s' rel' f parent := by
  unfold processFile
  simp only [h]

/-- The rule for a file system holds for each of its directories. -/
theorem WalkRule.below (hr : WalkRule tree P fileOk parentOk) (a : RelPath) :
    WalkRule (tree.below a) P (fun path => fileOk (a ++ path)) fun path =>
      parentOk (a ++ path) where
  counts := hr.counts
  writeTree := hr.writeTree
  file b path posix content parent hb hn hparent := by
    rw [processFile_congr (tree.below a).source tree.source path (a ++ path) _ _ fun _ => rfl]
    exact hr.file b (a ++ path) posix content parent hb hn hparent

/-- Everything below the roots of the parent snapshot is as `parentOk` says. -/
def ParentRootsOk (keys : RepoKeys) (parentOk : RelPath → Entry → Prop)
    (roots : List Root) : Prop :=
  ∀ r ∈ roots, ∀ a, r.path = pathBytes a →
    (∀ path e, Contains (Hashes keys) r.tree path e → parentOk (a ++ path) e) ∧
      ∀ n e, a.getLast? = some n → Contains (Hashes keys) r.tree [n] e → parentOk a e

theorem parentFileEntry_ok (hkeys : b.repo.keys = keys) {d : RelPath} {n : Bytes}
    {parent : Option TreeId}
    (hp : ∀ id ∈ parent, ∀ e, Contains (Hashes keys) id [n] e → parentOk (d ++ [n]) e) :
    ∀ e ∈ b.parentFileEntry parent n, parentOk (d ++ [n]) e := by
  intro e he
  obtain ⟨id, hid, he⟩ := Option.bind_eq_some_iff.1 he
  obtain ⟨s, hs, he⟩ := Option.bind_eq_some_iff.1 he
  -- only the entry of the name matters
  have htree : ParentTree keys (fun p e => p = d ++ [n] → parentOk p e) d id := by
    intro path e hc hpath
    obtain rfl := List.append_cancel_left hpath
    exact hp id hid e hc
  have hstream : StreamOk keys (fun p e => p = d ++ [n] → parentOk p e) d s := by
    refine streamOk_openParent hkeys htree ?_
    cases hopen : b.repo.openParent id with
    | error e => rw [hopen] at hs; cases hs
    | ok s' => rw [hopen] at hs; cases hs; rfl
  obtain ⟨hname, hok⟩ := (takeName_ok hkeys n hstream).2 e he
  have := hok.ok
  rw [hname] at this
  exact this rfl

/-- A source that is a file or a symlink gets a tree of its entry. -/
theorem fileRoot_holds (hr : WalkRule tree P fileOk parentOk)
    (hinj : Function.Injective keys.treeId) {d : RelPath} {n : Bytes} {node : SourceNode}
    {ctx : SourceCtx} (hsource : ctx.source = (tree.below d).source)
    (hb : Good keys P b) (hn : tree.node (d ++ [n]) = some node) (hdir : node.isDir = false)
    {parent : Option TreeId}
    (hp : ∀ id ∈ parent, ∀ e, Contains (Hashes keys) id [n] e → parentOk (d ++ [n]) e)
    {r : TreeId × Backup} (h : fileRoot ctx b [n] ⟨n, node.kind⟩ parent = .ok r) :
    Good keys P r.2 ∧ Grows b r.2 ∧ ∃ e, Written r.2.repo.HasTree r.1 [e] ∧
      tree.EntryHolds r.2.repo.HasTree fileOk (fun _ _ _ => False) (d ++ [n]) n (.root {} none) e
        node := by
  have hparent := parentFileEntry_ok hb.keys hp
  obtain ⟨⟨entry, b₁⟩, hentry, h⟩ := bind_eq_ok.1 h
  obtain ⟨hb', hg'⟩ : Good keys P b.ask ∧ Grows b b.ask :=
    hb.counts hr b.stats b.report (b.tick + 1)
  have hn' : (tree.below d).node [n] = some node := hn
  have hposix : (if ctx.source.metaKind = .posix then ctx.source.lstat b.tick [n] else none) =
      some node.posix := by
    simp [hsource, SourceTree.source, hn']
  -- the single entry, whose name is the file's own; a symlink is not followed
  have hone : Good keys P b₁ ∧ Grows b b₁ ∧ ∃ e, entry = some e ∧
      ∀ R, tree.EntryHolds R fileOk (fun _ _ _ => False) (d ++ [n]) n (.root {} none) e node := by
    unfold processEntry at hentry
    rw [hposix] at hentry
    cases node with
    | dir p => cases hdir
    | symlink p target =>
      simp only [SourceNode.kind, SourceNode.posix, processSymlink, withXattrs, hsource,
        SourceTree.source, if_true, Except.ok.injEq, Prod.mk.injEq] at hentry
      obtain ⟨rfl, rfl⟩ := hentry
      obtain ⟨hb₂, hg₂⟩ := hb'.counts hr { b.stats with symlinks := b.stats.symlinks + 1 } b.report
        (b.tick + 1 + 1)
      exact ⟨hb₂, hg'.trans hg₂, _, rfl, fun R => rfl⟩
    | file p content =>
      have hfs : (Visit.root {} none).otherFs (some p) = false := rfl
      simp only [SourceNode.kind, SourceNode.posix, hfs, Bool.false_eq_true, if_false,
        Except.ok.injEq] at hentry
      obtain ⟨h1, h2, e, he, hholds⟩ := processRegular_holds (n := n) (hr.below d) hsource hb' hn'
        hparent
      rw [hentry] at h1 h2 he
      exact ⟨h1, hg'.trans h2, e, he, fun R =>
        hholds R (fun _ _ _ => False) (.root {} none)⟩
  obtain ⟨hb₁, hg₁, e, rfl, he⟩ := hone
  obtain ⟨h1, h2, h3⟩ := hb₁.writeTree hr hinj h
  exact ⟨h1, hg₁.trans h2, e, .last .none h3 (by simp [maxNodesPerTree]), he _⟩

/-- A source that is a directory gets the trees of its walk. -/
theorem dirRoot_holds (hr : WalkRule tree P fileOk parentOk)
    (hinj : Function.Injective keys.treeId) {a : RelPath} {named : List RelPath}
    (hclean : ∀ c ∈ a, Entry.cleanName c) (hb : Good keys P b)
    (hdir : ∃ posix, tree.node a = some (.dir posix)) {parent : Option TreeId}
    (hp : ∀ id ∈ parent, ParentTree keys (fun path => parentOk (a ++ path)) [] id)
    {dev : Option ℕ} {r : TreeId × Backup}
    (h : dirRoot ⟨(tree.below a).source, .new named, exclude⟩ b (pathBytes a) dev parent = .ok r) :
    Good keys P r.2 ∧ Grows b r.2 ∧ (tree.below a).Holds r.2.repo.HasTree
      (fun path => fileOk (a ++ path)) ⟨(tree.below a).source, .new named, exclude⟩
      (maxTreeDepth - 1) [] (.root (exclude.patterns.walk exclude.patterns.start a) dev) r.1 := by
  unfold dirRoot rootState at h
  rw [locatorComponents_pathBytes hclean] at h
  refine walkDir_holds (hr.below a) hinj rfl _ b [] parent _ r hb hp ?_ h
  simpa [SourceTree.below] using hdir

/-- A local source that is not a directory. -/
theorem localFile_holds (hr : WalkRule tree P fileOk parentOk)
    (hinj : Function.Injective keys.treeId) {canonicalize : Bytes → Except String RelPath}
    {a : RelPath} {locator : Bytes} {node : SourceNode} (hnode : tree.node a = some node)
    (hdir : node.isDir = false) (hb : Good keys P b) {parent : Option TreeId}
    (hp : ∀ id ∈ parent, ∀ n e, a.getLast? = some n → Contains (Hashes keys) id [n] e →
      parentOk a e) {r : TreeId × Backup}
    (h : b.prepareRoot exclude locator parent (.localFile (tree.localFs canonicalize) a) = .ok r) :
    Good keys P r.2 ∧ Grows b r.2 ∧ ∃ n e, a.getLast? = some n ∧ Written r.2.repo.HasTree r.1 [e] ∧
      tree.EntryHolds r.2.repo.HasTree fileOk (fun _ _ _ => False) a n (.root {} none) e node := by
  unfold prepareRoot at h
  dsimp only at h
  cases hlast : a.getLast? with
  | none => rw [hlast] at h; cases h
  | some n =>
    rw [hlast] at h
    obtain ⟨item, hitem, h⟩ := bind_eq_ok.1 h
    obtain ⟨d, rfl⟩ := List.getLast?_eq_some_iff.1 hlast
    have hkind : item = ⟨n, node.kind⟩ := by
      unfold localFileItem at hitem
      simp only [SourceTree.localFs, hnode] at hitem
      cases node with
      | dir p => cases hdir
      | file p c => cases hitem; rfl
      | symlink p t => cases hitem; rfl
    subst hkind
    obtain ⟨hb', hg'⟩ : Good keys P b.ask ∧ Grows b b.ask :=
      hb.counts hr b.stats b.report (b.tick + 1)
    rw [List.dropLast_concat] at h
    obtain ⟨h1, h2, e, hw, he⟩ := fileRoot_holds hr hinj rfl hb' hnode hdir
      (fun id hid e => hp id hid n e hlast) h
    exact ⟨h1, hg'.trans h2, n, e, rfl, hw, he⟩

/-- One source. -/
theorem prepareRoot_holds (hr : WalkRule tree P fileOk parentOk)
    (hinj : Function.Injective keys.treeId) {canonicalize : Bytes → Except String RelPath}
    {a : RelPath} {named : List RelPath} (hclean : ∀ c ∈ a, Entry.cleanName c) {plan : RootPlan}
    (hplan : (tree.localFs canonicalize).planRoot a named = .ok plan) (hb : Good keys P b)
    {parentRoots : List Root} (hparents : ParentRootsOk keys parentOk parentRoots)
    {r : TreeId × Backup} (h : b.prepareRoot exclude (pathBytes a)
      ((parentRoots.find? fun r => r.path = pathBytes a).map Root.tree) plan = .ok r) :
    Good keys P r.2 ∧ Grows b r.2 ∧
      tree.RootHolds r.2.repo.HasTree fileOk exclude a named r.1 := by
  have hparent : ∀ id ∈ (parentRoots.find? fun r => r.path = pathBytes a).map Root.tree,
      ParentTree keys (fun path => parentOk (a ++ path)) [] id ∧
        ∀ n e, a.getLast? = some n → Contains (Hashes keys) id [n] e → parentOk a e := by
    intro id hid
    obtain ⟨r, hfind, rfl⟩ := Option.map_eq_some_iff.1 hid
    have hpath := List.find?_some hfind
    exact hparents r (List.mem_of_find?_eq_some hfind) a (by simpa using hpath)
  unfold LocalFs.planRoot at hplan
  cases hnode : tree.node a with
  | none => simp [SourceTree.localFs, hnode] at hplan
  | some node =>
  have hmeta : ∀ tick, (tree.localFs canonicalize).symlinkMetadata tick a =
      .ok ⟨SourceTree.localKind node, node.posix⟩ := fun tick => by
    simp [SourceTree.localFs, hnode]
  rw [hmeta] at hplan
  cases hplan
  unfold SourceTree.RootHolds
  cases node with
  | dir p =>
    rw [hnode]
    have hp := fun id hid => (hparent id hid).1
    have hdev : tree.dev a = some p.dev := by rw [SourceTree.dev, hnode]; rfl
    unfold prepareRoot at h
    simp only [SourceTree.localKind, if_true, hmeta] at h
    unfold SourceTree.rootVisit
    -- with one file system the root's own device is asked for first
    split_ifs at h with hone
    · obtain ⟨hb', hg'⟩ : Good keys P b.ask ∧ Grows b b.ask :=
        hb.counts hr b.stats b.report (b.tick + 1)
      obtain ⟨h1, h2, h3⟩ := dirRoot_holds hr hinj hclean hb' ⟨p, hnode⟩ hp h
      rw [if_pos hone, hdev]
      exact ⟨h1, hg'.trans h2, h3⟩
    · obtain ⟨h1, h2, h3⟩ := dirRoot_holds hr hinj hclean hb ⟨p, hnode⟩ hp h
      rw [if_neg hone]
      exact ⟨h1, h2, h3⟩
  | file p content =>
    rw [hnode]
    exact localFile_holds hr hinj hnode rfl hb (fun id hid => (hparent id hid).2) h
  | symlink p target =>
    rw [hnode]
    exact localFile_holds hr hinj hnode rfl hb (fun id hid => (hparent id hid).2) h

/-- **The sources.** Each gets a tree that records what the walk admits. -/
theorem prepareRoots_holds (hr : WalkRule tree P fileOk parentOk)
    (hinj : Function.Injective keys.treeId) {canonicalize : Bytes → Except String RelPath}
    {parentRoots : List Root} (hparents : ParentRootsOk keys parentOk parentRoots) :
    ∀ (kept : List (RelPath × List RelPath)), (∀ k ∈ kept, ∀ c ∈ k.1, Entry.cleanName c) →
    ∀ (plans : List (Bytes × RootPlan)) (b : Backup) (r : List Root × Backup),
      (tree.localFs canonicalize).planRoots kept = .ok plans → Good keys P b →
      b.prepareRoots exclude parentRoots plans = .ok r →
        Good keys P r.2 ∧ Grows b r.2 ∧ List.Forall₂ (fun k root => root.path = pathBytes k.1 ∧
          tree.RootHolds r.2.repo.HasTree fileOk exclude k.1 k.2 root.tree) kept r.1 := by
  intro kept
  induction kept with
  | nil =>
    intro _ plans b r hplans hb h
    cases hplans
    cases h
    exact ⟨hb, .refl b, .nil⟩
  | cons k kept ih =>
    intro hclean plans b r hplans hb h
    obtain ⟨plan, hplan, hplans⟩ := bind_eq_ok.1 hplans
    obtain ⟨rest, hrest, hplans⟩ := bind_eq_ok.1 hplans
    cases hplans
    obtain ⟨⟨id, b₁⟩, hroot, h⟩ := bind_eq_ok.1 h
    obtain ⟨⟨roots, b₂⟩, hroots, h⟩ := bind_eq_ok.1 h
    cases h
    obtain ⟨hb₁, hg₁, hholds⟩ := prepareRoot_holds hr hinj (hclean k List.mem_cons_self) hplan hb
      hparents hroot
    obtain ⟨hb₂, hg₂, hall⟩ := ih (fun k hk => hclean k (List.mem_cons_of_mem _ hk)) rest b₁ _ hrest
      hb₁ hroots
    exact ⟨hb₂, hg₁.trans hg₂, .cons ⟨rfl, hholds.mono hg₂.trees⟩ hall⟩

theorem grows_flushPack : Grows b b.flushPack := b.sameRun_flushPack.toSameVisit.grows

end Backup

/-! ### The first half -/

section Prepare

variable {repo : Repository} {opts : BackupOptions} {nonce : ℕ} {started now : Time}
  {p : PreparedBackup} {keys : RepoKeys} {tree : SourceTree} {P : Backup → Prop}
  {fileOk : RelPath → FileContent → Prop} {parentOk : RelPath → Entry → Prop}

/-- What `backup_prepare` goes through. -/
structure Prepared (repo : Repository) (opts : BackupOptions) (nonce : ℕ) (started now : Time)
    (p : PreparedBackup) where
  plans : List (Bytes × RootPlan)
  plan : opts.source.plan = .ok plans
  index : ChunkIndex
  loaded : repo.loadIndexForBackup repo.store.marks.keys = .ok index
  chunker : Chunking.Chunker
  new : repo.newChunker = .ok chunker
  parent : Option (SnapshotKey × Snapshot)
  found : parent = repo.findParent opts.clientId (plans.map Prod.fst)
  walked : List Root × Backup
  walk : (repo.startBackup chunker nonce now index (parent.elim 0 fun p => p.2.timeNs)).prepareRoots
    opts.exclude (parent.elim [] fun p => p.2.roots) plans = .ok walked
  eq : p = walked.2.finish opts started walked.1 (parent.map Prod.fst)

theorem backupPrepare_ok (h : repo.backupPrepare opts nonce started now = .ok p) :
    Nonempty (Prepared repo opts nonce started now p) := by
  unfold Repository.backupPrepare at h
  dsimp only at h
  split_ifs at h with h1 h2
  · cases h
  · cases h
  · cases h
  obtain ⟨plans, hplan, h⟩ := bind_eq_ok.1 h
  obtain ⟨index, hindex, h⟩ := bind_eq_ok.1 h
  obtain ⟨chunker, hchunker, h⟩ := bind_eq_ok.1 h
  obtain ⟨walked, hwalk, h⟩ := bind_eq_ok.1 h
  cases h
  exact ⟨plans, hplan, index, hindex, chunker, hchunker, _, rfl, walked, hwalk, rfl⟩

/-- The chunker of a backup has the parameters of the repository. -/
theorem Prepared.chunker_valid (h : Prepared repo opts nonce started now p)
    (hvalid : repo.config.chunker.Valid) : h.chunker.params.Valid := by
  obtain ⟨c, hc, hparams⟩ := Chunking.new_ok hvalid
  have hnew := h.new
  unfold Repository.newChunker at hnew
  rw [hc] at hnew
  rw [← Except.ok.inj hnew, hparams]
  exact hvalid

/-- The trees are as the walk has left them. -/
theorem hasTree_finish {b : Backup} {roots : List Root} {parentKey : Option SnapshotKey}
    {id : TreeId} {t : Tree} (h : b.repo.HasTree id t) :
    (b.finish opts started roots parentKey).repo.HasTree id t := by
  have hflush := Backup.grows_flushPack.trees id t h
  unfold Backup.finish
  dsimp only
  split_ifs
  · exact hflush
  · exact hflush

/-- The walk starts without a tree. -/
theorem good_startBackup {chunker : Chunking.Chunker} {index : ChunkIndex} {start : ℤ}
    (hkeys : repo.keys = keys) (hP : P (repo.startBackup chunker nonce now index start)) :
    Backup.Good keys P (repo.startBackup chunker nonce now index start) :=
  ⟨hkeys, List.forall_mem_nil _, hP⟩

/-- The parent snapshot, if there is one. -/
def Prepared.parentRoots (h : Prepared repo opts nonce started now p) : List Root :=
  h.parent.elim [] fun p => p.2.roots

/-- The state in which the walk starts. -/
def Prepared.start (h : Prepared repo opts nonce started now p) : Backup :=
  repo.startBackup h.chunker nonce now h.index (h.parent.elim 0 fun p => p.2.timeNs)

/-- **The first half.** Every source that is kept gets a root whose tree records what the walk
admits. -/
theorem Prepared.holds (h : Prepared repo opts nonce started now p)
    {canonicalize : Bytes → Except String RelPath} {paths : List Bytes} {given : List RelPath}
    (hsource : opts.source = .localPaths (tree.localFs canonicalize) paths)
    (hgiven : (tree.localFs canonicalize).canonicalPaths paths = .ok given)
    (hclean : ∀ a ∈ given, ∀ c ∈ a, Entry.cleanName c)
    (hr : Backup.WalkRule tree P fileOk parentOk) (hinj : Function.Injective repo.keys.treeId)
    (hP : P h.start) (hparents : Backup.ParentRootsOk repo.keys parentOk h.parentRoots) :
    Backup.Good repo.keys P h.walked.2 ∧ List.Forall₂ (fun k root => root.path = pathBytes k.1 ∧
      tree.RootHolds p.repo.HasTree fileOk opts.exclude k.1 k.2 root.tree)
        (planSources given) p.roots := by
  have hplan := h.plan
  rw [hsource] at hplan
  obtain ⟨abs, habs, hplan⟩ := bind_eq_ok.1 hplan
  obtain rfl := Except.ok.inj (habs.symm.trans hgiven)
  have hroot := (planned_planSources hclean).root
  obtain ⟨hb, -, hall⟩ := Backup.prepareRoots_holds hr hinj hparents (planSources abs)
    (fun k hk => hclean k.1 (hroot k hk).mem) h.plans _ h.walked hplan (good_startBackup rfl hP)
    h.walk
  rw [congrArg PreparedBackup.repo h.eq, congrArg PreparedBackup.roots h.eq]
  exact ⟨hb, hall.imp fun k root hk => ⟨hk.1, hk.2.mono fun id t => hasTree_finish⟩⟩

end Prepare

/-! ### The second half -/

section Commit

variable {p : PreparedBackup} {repo repo' : Repository} {now : Time} {key : SnapshotKey}

theorem commitSnapshot_ok {make : Time → Snapshot} :
    ∀ {attempts : ℕ} {now : Time} {repo : Repository},
      Repository.commitSnapshot make attempts now repo = (.ok key, repo') →
        ∃ t snapshots replicas, key = (make t).key ∧ repo'.readSnapshot key = .ok (make t) ∧
          repo' = { repo with
            store.snapshots := snapshots, store.snapshotReplicas := replicas } := by
  intro attempts
  induction attempts with
  | zero => intro now repo h; cases h
  | succ attempts ih =>
    intro now repo h
    unfold Repository.commitSnapshot at h
    dsimp only at h
    split_ifs at h
    · split at h
      · next repo₁ hw =>
        cases h
        obtain ⟨hv, hl, snapshots, replicas, rfl⟩ := Repository.writeSnapshot_ok hw
        exact ⟨now, snapshots, replicas, rfl, Repository.readSnapshot_of_lookup hl hv rfl, rfl⟩
      · next repo₁ hw =>
        obtain ⟨replicas, rfl⟩ := Repository.writeSnapshot_error hw
        obtain ⟨t, snapshots, replicas', hkey, hread, heq⟩ := ih h
        exact ⟨t, snapshots, replicas', hkey, hread, heq⟩
      · cases h
    · cases h

/-- **The second half.** A snapshot that was committed has the roots of the backup, it reads back,
and nothing but snapshots has changed. -/
theorem commitAt_ok (h : p.commitAt repo now = (.ok key, repo')) :
    p.verify repo now = .ok () ∧ ∃ t snapshots replicas,
      repo'.readSnapshot key = .ok (p.snapshotAt t) ∧
        repo' = { repo with store.snapshots := snapshots, store.snapshotReplicas := replicas } := by
  unfold PreparedBackup.commitAt at h
  split at h
  · cases h
  · next hv =>
    obtain ⟨t, snapshots, replicas, -, hread, heq⟩ := commitSnapshot_ok h
    exact ⟨hv, t, snapshots, replicas, hread, heq⟩

end Commit
end Kist
