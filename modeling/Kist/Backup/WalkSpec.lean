import Kist.Backup.SourceTree
import Kist.Lib.Checked

/-!
# What the walk writes

The walk of a source that does not change. Names of trees are taken to be free of collisions.

* `writeTree_spec`: a tree that was written reads back, and every tree that read back before still
  does.
* `walkDir_holds`: the trees that the walk of a directory leaves behind record the items that it
  admits. The contents of files are left to the caller: an invariant of the backup that visits of
  files and writes of trees keep, and what a visit of a file establishes under it.
-/

namespace Kist

open Checked (bind_eq_ok)

namespace Repository

variable {repo repo' : Repository} {id : TreeId} {t : Tree} {key : ObjectKey}

/-- The trees that can be read. -/
def HasTree (repo : Repository) (id : TreeId) (t : Tree) : Prop := repo.readTree id = .ok t

theorem readTreeOnce_ok (h : repo.readTreeOnce key id = .ok t) :
    repo.keys.treeId t = id ∧ t.validate = .ok () := by
  unfold readTreeOnce at h
  split at h
  · cases h
  · split at h
    · cases h
    · next plain _ =>
      split_ifs at h with hid
      split at h
      · cases h
      · next hv =>
        cases h
        exact ⟨not_not.1 hid, hv⟩

/-- A tree that was read has the name under which it was read. -/
theorem HasTree.treeId_eq (h : repo.HasTree id t) : repo.keys.treeId t = id := by
  unfold HasTree readTree at h
  split at h
  · next ht => cases h; exact (readTreeOnce_ok ht).1
  · split at h
    · next ht => cases h; exact (readTreeOnce_ok ht).1
    · cases h
  · split at h
    · next ht => cases h; exact (readTreeOnce_ok ht).1
    · cases h
  · cases h

theorem HasTree.unique {t' : Tree} (h : repo.HasTree id t) (h' : repo.HasTree id t') : t = t' :=
  Except.ok.inj (h.symm.trans h')

theorem hasTree_of_once (h : repo.readTreeOnce (.tree id) id = .ok t) : repo.HasTree id t := by
  unfold HasTree readTree
  rw [h]

/-- Reading a tree depends on the objects under its name alone. -/
theorem readTreeOnce_congr (hk : repo'.keys = repo.keys)
    (h : repo'.store.getSealed key = repo.store.getSealed key) :
    repo'.readTreeOnce key id = repo.readTreeOnce key id := by
  unfold readTreeOnce
  rw [hk, h]

theorem hasTree_congr (hk : repo'.keys = repo.keys)
    (ht : repo'.store.trees.lookup id = repo.store.trees.lookup id)
    (hr : repo'.store.treeReplicas.lookup id = repo.store.treeReplicas.lookup id) :
    repo'.HasTree id t ↔ repo.HasTree id t := by
  have h1 : repo'.readTreeOnce (.tree id) id = repo.readTreeOnce (.tree id) id :=
    readTreeOnce_congr hk ht
  have h2 : repo'.readTreeOnce (.treeReplica id) id = repo.readTreeOnce (.treeReplica id) id :=
    readTreeOnce_congr hk hr
  unfold HasTree readTree
  rw [h1, h2]

end Repository

namespace Backup

/-- Every tree that this backup has written or taken over reads back. -/
def SeenOk (b : Backup) : Prop :=
  ∀ id ∈ b.seenTrees, ∃ t, b.repo.readTreeOnce (.tree id) id = .ok t

/-- The trees of the repository stay and become more. -/
structure Grows (b b' : Backup) : Prop where
  keys : b'.repo.keys = b.repo.keys
  trees : ∀ id t, b.repo.HasTree id t → b'.repo.HasTree id t

section Trees

variable {b b' b'' : Backup} {tree : Tree} {id : TreeId} {bytes : Sealed}

@[refl] theorem Grows.refl (b : Backup) : Grows b b := ⟨rfl, fun _ _ h => h⟩

theorem Grows.trans (h : Grows b b') (h' : Grows b' b'') : Grows b b'' :=
  ⟨h'.keys.trans h.keys, fun id t ht => h'.trees id t (h.trees id t ht)⟩

theorem SameVisit.grows (h : SameVisit b b') : Grows b b' :=
  ⟨h.keys, fun id t ht => (Repository.hasTree_congr h.keys (by rw [h.trees])
    (by rw [h.treeReplicas])).2 ht⟩

theorem SameVisit.seenOk (h : SameVisit b b') (hs : SeenOk b) : SeenOk b' := by
  intro id hid
  rw [h.seenTrees] at hid
  obtain ⟨t, ht⟩ := hs id hid
  exact ⟨t, (Repository.readTreeOnce_congr h.keys
    (by simp [Storage.getSealed, h.trees])).trans ht⟩

/-- The primary object that is written or found under the name of a tree is that tree. -/
theorem readTreeOnce_putTree (hid : b.repo.keys.treeId tree = id) (hv : tree.validate = .ok ())
    (hinj : Function.Injective b.repo.keys.treeId) :
    (b.putTree id (.tree id tree)).repo.readTreeOnce (.tree id) id = .ok tree := by
  unfold putTree
  cases ht : b.repo.readTreeOnce (.tree id) id with
  | ok t =>
    dsimp only
    rw [ht, hinj ((Repository.readTreeOnce_ok ht).1.trans hid.symm)]
  | error e =>
    simp [Repository.readTreeOnce, Storage.getSealed, Sealed.openTree, hid, hv]

theorem lookup_putTree {k : TreeId} (hk : k ≠ id) :
    (b.putTree id bytes).repo.store.trees.lookup k = b.repo.store.trees.lookup k := by
  unfold putTree
  split
  · rfl
  · exact AList.lookup_insert_ne hk

theorem lookup_putTreeReplica {k : TreeId} (hk : k ≠ id) :
    (b.putTreeReplica id bytes).repo.store.treeReplicas.lookup k =
      b.repo.store.treeReplicas.lookup k := by
  unfold putTreeReplica
  split_ifs
  · exact AList.lookup_insert_ne hk
  · rfl

@[simp] theorem keys_putTree : (b.putTree id bytes).repo.keys = b.repo.keys := by
  unfold putTree; split <;> rfl

@[simp] theorem config_putTree : (b.putTree id bytes).repo.config = b.repo.config := by
  unfold putTree; split <;> rfl

@[simp] theorem seenTrees_putTree : (b.putTree id bytes).seenTrees = b.seenTrees := by
  unfold putTree; split <;> rfl

@[simp] theorem treeReplicas_putTree :
    (b.putTree id bytes).repo.store.treeReplicas = b.repo.store.treeReplicas := by
  unfold putTree; split <;> rfl

@[simp] theorem keys_putTreeReplica : (b.putTreeReplica id bytes).repo.keys = b.repo.keys := by
  unfold putTreeReplica; split_ifs <;> rfl

@[simp] theorem seenTrees_putTreeReplica :
    (b.putTreeReplica id bytes).seenTrees = b.seenTrees := by
  unfold putTreeReplica; split_ifs <;> rfl

@[simp] theorem trees_putTreeReplica :
    (b.putTreeReplica id bytes).repo.store.trees = b.repo.store.trees := by
  unfold putTreeReplica; split_ifs <;> rfl

theorem sealTree_ok {repo : Repository} {r : TreeId × Sealed} (h : repo.sealTree tree = .ok r) :
    r = (repo.keys.treeId tree, .tree (repo.keys.treeId tree) tree) ∧ tree.validate = .ok () := by
  unfold Repository.sealTree at h
  split at h
  · cases h
  · next hv => cases h; exact ⟨rfl, hv⟩

/-- The two ways in which a tree is written: it was before in this run, or its objects are put and
perhaps touched. -/
theorem writeTree_cases (h : b.writeTree tree = .ok (id, b')) :
    id = b.repo.keys.treeId tree ∧ tree.validate = .ok () ∧ ((id ∈ b.seenTrees ∧ b' = b) ∨
      ∃ b₁, b₁ = (({ b with seenTrees := id :: b.seenTrees } : Backup).putTree id
          (.tree id tree)).putTreeReplica id (.tree id tree) ∧
        (b' = b₁ ∨ b' = b₁.touchTree id)) := by
  obtain ⟨r, hr, h⟩ := bind_eq_ok.1 h
  obtain ⟨rfl, hv⟩ := sealTree_ok hr
  dsimp only at h
  split_ifs at h with hseen htouch
  · cases h
    exact ⟨rfl, hv, .inl ⟨hseen, rfl⟩⟩
  · cases h
    exact ⟨rfl, hv, .inr ⟨_, rfl, .inr rfl⟩⟩
  · cases h
    exact ⟨rfl, hv, .inr ⟨_, rfl, .inl rfl⟩⟩

/-- **Writing a tree.** The tree reads back under its name, and what read back before still does. -/
theorem writeTree_spec (hinj : Function.Injective b.repo.keys.treeId) (hs : SeenOk b)
    (h : b.writeTree tree = .ok (id, b')) :
    Grows b b' ∧ SeenOk b' ∧ b'.repo.HasTree id tree := by
  obtain ⟨hid, hv, ⟨hseen, rfl⟩ | ⟨b₁, hb₁, hb'⟩⟩ := writeTree_cases h
  · obtain ⟨t, ht⟩ := hs id hseen
    rw [hinj ((Repository.readTreeOnce_ok ht).1.trans hid)] at ht
    exact ⟨.refl _, hs, Repository.hasTree_of_once ht⟩
  have hkeys : b₁.repo.keys = b.repo.keys := by rw [hb₁]; simp
  have hread : b₁.repo.readTreeOnce (.tree id) id = .ok tree := by
    rw [hb₁, ← readTreeOnce_putTree (b := { b with seenTrees := id :: b.seenTrees })
      hid.symm hv hinj]
    exact Repository.readTreeOnce_congr (by simp) (by simp [Storage.getSealed])
  have hother : ∀ k, k ≠ id → b₁.repo.store.trees.lookup k = b.repo.store.trees.lookup k ∧
      b₁.repo.store.treeReplicas.lookup k = b.repo.store.treeReplicas.lookup k := by
    intro k hk
    rw [hb₁]
    exact ⟨by rw [trees_putTreeReplica, lookup_putTree hk], by
      rw [lookup_putTreeReplica hk, treeReplicas_putTree]⟩
  have hgrows : Grows b b₁ := by
    refine ⟨hkeys, fun k t ht => ?_⟩
    by_cases hk : k = id
    · subst hk
      rw [hinj (ht.treeId_eq.trans hid)]
      exact Repository.hasTree_of_once hread
    · exact (Repository.hasTree_congr hkeys (hother k hk).1 (hother k hk).2).2 ht
  have hseen : SeenOk b₁ := by
    intro k hmem
    by_cases hk : k = id
    · exact ⟨tree, hk ▸ hread⟩
    · rw [hb₁, seenTrees_putTreeReplica, seenTrees_putTree] at hmem
      obtain ⟨t, ht⟩ := hs k ((List.mem_cons.1 hmem).resolve_left hk)
      exact ⟨t, (Repository.readTreeOnce_congr hkeys
        (show b₁.repo.store.getSealed (.tree k) = _ from (hother k hk).1)).trans ht⟩
  rcases hb' with rfl | rfl
  · exact ⟨hgrows, hseen, Repository.hasTree_of_once hread⟩
  · exact ⟨hgrows.trans ⟨rfl, fun _ _ h => h⟩, hseen, Repository.hasTree_of_once hread⟩

end Trees

/-! ### The entries of the parent -/

section Parent

variable (keys : RepoKeys) (parentOk : RelPath → Entry → Prop)

/-- The trees that hash to names. -/
def Hashes (id : TreeId) (t : Tree) : Prop := keys.treeId t = id

/-- Everything below a directory of the parent snapshot is as `parentOk` says. -/
def ParentTree (d : RelPath) (id : TreeId) : Prop :=
  ∀ path e, Contains (Hashes keys) id path e → parentOk (d ++ path) e

/-- An entry of a directory of the parent snapshot, and everything below it, is as `parentOk` says.
-/
structure ParentEntry (d : RelPath) (e : Entry) : Prop where
  ok : parentOk (d ++ [e.name]) e
  below : e.kind = .dir → ParentTree keys parentOk (d ++ [e.name]) e.subtree

/-- What a stream of entries of the parent may still yield. -/
structure StreamOk (d : RelPath) (s : ParentStream) : Prop where
  parts : ∀ id ∈ s.parts, ∀ t, Hashes keys id t → ∀ e ∈ t.entries, ParentEntry keys parentOk d e
  current : ∀ e ∈ s.current, ParentEntry keys parentOk d e

variable {keys parentOk} {repo : Repository} {d : RelPath} {id : TreeId}

theorem ParentTree.entry (h : ParentTree keys parentOk d id) {t : Tree} {e : Entry}
    (hs : Segment (Hashes keys) id t) (he : e ∈ t.entries) : ParentEntry keys parentOk d e where
  ok := h _ e (.here hs he)
  below hkind path e' hc := by
    have := h _ e' (.deeper hs he hkind hc)
    rwa [← List.singleton_append, ← List.append_assoc] at this

theorem chainIds_ok (hkeys : repo.keys = keys) {n : ℕ} {seen parts : List TreeId}
    {next : Option TreeId} (h : repo.chainIds n seen next = .ok parts)
    (hseen : ∀ id ∈ seen, ∀ t, Hashes keys id t → ∀ e ∈ t.entries, ParentEntry keys parentOk d e)
    (hnext : ∀ id ∈ next, ∀ t, Segment (Hashes keys) id t → ∀ e ∈ t.entries,
      ParentEntry keys parentOk d e) :
    ∀ id ∈ parts, ∀ t, Hashes keys id t → ∀ e ∈ t.entries, ParentEntry keys parentOk d e := by
  induction n generalizing seen next with
  | zero =>
    cases next with
    | none => cases h; exact hseen
    | some id => cases h
  | succ n ih =>
    cases next with
    | none => cases h; exact hseen
    | some id =>
      unfold Repository.chainIds at h
      split_ifs at h
      obtain ⟨tree, htree, h⟩ := bind_eq_ok.1 h
      have hid : Hashes keys id tree := by
        rw [Hashes, ← hkeys]
        exact Repository.HasTree.treeId_eq htree
      refine ih h (fun id' hid' t ht e he => ?_) fun p hp t ht e he =>
        hnext id rfl t (.prev hid hp ht) e he
      rcases List.mem_cons.1 hid' with rfl | hmem
      · exact hnext id' rfl t (.last ht) e he
      · exact hseen id' hmem t ht e he

theorem streamOk_openParent (hkeys : repo.keys = keys) (hp : ParentTree keys parentOk d id)
    {s : ParentStream} (h : repo.openParent id = .ok s) : StreamOk keys parentOk d s := by
  obtain ⟨parts, hparts, h⟩ := bind_eq_ok.1 h
  cases h
  refine ⟨chainIds_ok hkeys hparts (List.forall_mem_nil _) fun i hi t hs e he => ?_,
    List.forall_mem_nil _⟩
  cases hi
  exact hp.entry hs he

theorem streamOk_nil : StreamOk keys parentOk d ⟨[], []⟩ :=
  ⟨List.forall_mem_nil _, List.forall_mem_nil _⟩

/-- The first entry that is not before the name is yielded if it has the name. -/
theorem StreamOk.take {name : Bytes} {parts : List TreeId} {current rest : List Entry} {e : Entry}
    (hs : StreamOk keys parentOk d ⟨parts, current⟩)
    (hdrop : current.dropWhile (fun e => decide (e.name < name)) = e :: rest)
    {r : Option Entry × ParentStream}
    (hr : r = if e.name = name then (some e, ⟨parts, rest⟩) else (none, ⟨parts, e :: rest⟩)) :
    StreamOk keys parentOk d r.2 ∧
      ∀ e' ∈ r.1, e'.name = name ∧ ParentEntry keys parentOk d e' := by
  have hsub : ∀ e' ∈ e :: rest, ParentEntry keys parentOk d e' := fun e' he' =>
    hs.current e' ((List.dropWhile_suffix _).subset (hdrop ▸ he'))
  subst hr
  split_ifs with hname
  · refine ⟨⟨hs.parts, fun e' he' => hsub e' (List.mem_cons_of_mem _ he')⟩, fun e' he' => ?_⟩
    cases he'
    exact ⟨hname, hsub e List.mem_cons_self⟩
  · exact ⟨⟨hs.parts, hsub⟩, fun e' he' => by cases he'⟩

/-- What a stream yields has the name it was asked for and lies in the directory. -/
theorem takeName_ok (hkeys : repo.keys = keys) (name : Bytes) {parts : List TreeId}
    {current : List Entry} (hs : StreamOk keys parentOk d ⟨parts, current⟩) :
    StreamOk keys parentOk d (repo.takeName name parts current).2 ∧
      ∀ e ∈ (repo.takeName name parts current).1,
        e.name = name ∧ ParentEntry keys parentOk d e := by
  induction parts generalizing current with
  | nil =>
    unfold Repository.takeName
    split
    · next e rest hdrop => exact hs.take hdrop rfl
    · exact ⟨streamOk_nil, fun e he => by cases he⟩
  | cons id ids ih =>
    unfold Repository.takeName
    split
    · next e rest hdrop => exact hs.take hdrop rfl
    · dsimp only
      split
      · next tree htree =>
        refine ih ⟨fun i hi => hs.parts i (List.mem_cons_of_mem _ hi), ?_⟩
        refine hs.parts id List.mem_cons_self tree ?_
        rw [Hashes, ← hkeys]
        exact Repository.HasTree.treeId_eq htree
      · exact ⟨streamOk_nil, fun e he => by cases he⟩

end Parent

/-! ### The walk -/

section Walk

variable (keys : RepoKeys) (tree : SourceTree) (P : Backup → Prop)
  (fileOk : RelPath → FileContent → Prop) (parentOk : RelPath → Entry → Prop)

/-- What a caller has to show of its invariant `P`: the counts do not matter to it, writing a tree
and visiting a file keep it, and a visited file records a content that is `fileOk`. -/
structure WalkRule : Prop where
  counts : ∀ b stats report tick, P b → P { b with stats, report, tick }
  writeTree : ∀ b t r, P b → b.writeTree t = .ok r → P r.2
  file : ∀ b path posix content parent, P b → tree.node path = some (.file posix content) →
    (∀ e ∈ parent, parentOk path e) →
      P (b.processFile tree.source path ⟨content.length, some posix, none⟩ parent).2 ∧
      ∀ c ∈ (b.processFile tree.source path ⟨content.length, some posix, none⟩ parent).1,
        fileOk path c

/-- What holds of the backup all along the walk. -/
structure Good (b : Backup) : Prop where
  keys : b.repo.keys = keys
  seen : SeenOk b
  inv : P b

variable {keys tree P fileOk parentOk} {ctx : SourceCtx} {b b' : Backup} {d path : RelPath}
  {visit child : Visit} {n : Bytes} {id : TreeId} {node : SourceNode}

theorem Good.counts (hr : WalkRule tree P fileOk parentOk) (hb : Good keys P b)
    (stats : SnapshotStats) (report : BackupReport) (tick : ℕ) :
    Good keys P { b with stats, report, tick } ∧ Grows b { b with stats, report, tick } :=
  ⟨⟨hb.keys, hb.seen, hr.counts b stats report tick hb.inv⟩, rfl, fun _ _ h => h⟩

theorem Good.writeTree (hr : WalkRule tree P fileOk parentOk)
    (hinj : Function.Injective keys.treeId) (hb : Good keys P b) {t : Tree}
    (h : b.writeTree t = .ok (id, b')) :
    Good keys P b' ∧ Grows b b' ∧ b'.repo.HasTree id t := by
  obtain ⟨hg, hs, ht⟩ := writeTree_spec (hb.keys ▸ hinj) hb.seen h
  exact ⟨⟨hg.keys.trans hb.keys, hs, hr.writeTree b t _ hb.inv h⟩, hg, ht⟩

theorem findsMarker_eq (hsource : ctx.source = tree.source) (tick : ℕ) (m : Marker) :
    findsMarker ctx tick d m = tree.validMarker d m := by
  unfold findsMarker SourceTree.validMarker
  rw [hsource]
  simp only [SourceTree.source]
  cases tree.node (d ++ [m.name]) with
  | none => rfl
  | some node =>
    cases node with
    | file p content => rfl
    | dir p => simp [eq_comm]
    | symlink p t => simp [eq_comm]

/-- The markers that are found are the valid ones. -/
theorem markersIn_eq (hsource : ctx.source = tree.source) :
    markersIn ctx b d =
      (let found := (ctx.exclude.ifPresent.filter (tree.validMarker d)).map Marker.name
        if found = [] then none else some found,
        { b with tick := b.tick + ctx.exclude.ifPresent.length }) := by
  have aux : ∀ (ms : List Marker) (found : List Bytes) (b : Backup),
      ms.foldl (fun (r : List Bytes × Backup) marker =>
        (if findsMarker ctx r.2.tick d marker then r.1 ++ [marker.name] else r.1, r.2.ask))
          (found, b) =
        (found ++ (ms.filter (tree.validMarker d)).map Marker.name,
          { b with tick := b.tick + ms.length }) := by
    intro ms
    induction ms with
    | nil => simp
    | cons m ms ih =>
      intro found b
      rw [List.foldl_cons, ih, findsMarker_eq hsource]
      by_cases hv : tree.validMarker d m <;>
        simp [hv, ask, Nat.add_assoc, Nat.add_comm 1]
  unfold markersIn
  rw [aux]
  simp

/-- What the trees of the directories below have to record, read from the storage of a backup. -/
def below (sub : Option ((TreeId → Tree → Prop) → SourceTree.DirHolds)) (b : Backup) :
    SourceTree.DirHolds :=
  (sub.map fun s => s b.repo.HasTree).getD fun _ _ _ => False

variable (keys tree P parentOk) in
/-- What the recursive call has to do for the directories below. -/
structure Recurses (walk : Option Walk)
    (sub : Option ((TreeId → Tree → Prop) → SourceTree.DirHolds)) :
    Prop where
  isSome : walk.isSome = sub.isSome
  mono : ∀ s ∈ sub, ∀ R R' : TreeId → Tree → Prop, (∀ id t, R id t → R' id t) →
    ∀ d v id, s R d v id → s R' d v id
  walk : ∀ w ∈ walk, ∀ s ∈ sub, ∀ b d parent v r, Good keys P b →
    (∀ id ∈ parent, ParentTree keys parentOk d id) →
      (∃ posix, tree.node d = some (.dir posix)) → w b d parent v = .ok r →
        Good keys P r.2 ∧ Grows b r.2 ∧ s r.2.repo.HasTree d v r.1

variable {walk : Option Walk} {sub : Option ((TreeId → Tree → Prop) → SourceTree.DirHolds)}

/-- The entry of a directory records what the walk of it admits. -/
theorem processDir_holds (hr : WalkRule tree P fileOk parentOk)
    (hinj : Function.Injective keys.treeId) (hsource : ctx.source = tree.source)
    (hrec : Recurses keys tree P parentOk walk sub)
    {w : Walk} (hw : w ∈ walk) (hb : Good keys P b) {p : PosixMeta}
    (hn : tree.node path = some (.dir p)) {parent : Option Entry}
    (hparent : ∀ e ∈ parent, e.kind = .dir → ParentTree keys parentOk path e.subtree)
    {r : Entry × Backup} (h : processDir ctx w b path n (some p) parent visit = .ok r) :
    Good keys P r.2 ∧ Grows b r.2 ∧
      tree.EntryHolds r.2.repo.HasTree fileOk (below sub r.2) path n visit r.1 (.dir p) := by
  obtain ⟨⟨subtree, b₁⟩, hsub, h⟩ := bind_eq_ok.1 h
  unfold walkSubtree at hsub
  obtain ⟨s, hs⟩ : ∃ s, sub = some s := Option.isSome_iff_exists.1 (by
    rw [← hrec.isSome, Option.mem_def.1 hw]; rfl)
  have hwritten : Good keys P b₁ ∧ Grows b b₁ ∧
      (visit.enter (some p)).elim (Written b₁.repo.HasTree subtree [])
        fun inside => s b₁.repo.HasTree path inside subtree := by
    cases hv : visit.enter (some p) with
    | none =>
      rw [hv] at hsub
      obtain ⟨hb', hg⟩ := hb.counts hr b.stats { b.report with excluded := b.report.excluded + 1 }
        b.tick
      obtain ⟨h1, h2, h3⟩ := hb'.writeTree hr hinj hsub
      exact ⟨h1, hg.trans h2, .last .none h3 (by decide)⟩
    | some inside =>
      rw [hv] at hsub
      refine hrec.walk w hw s hs b path _ inside _ hb (fun id hid => ?_) ⟨p, hn⟩ hsub
      obtain ⟨e, he, hid⟩ := Option.bind_eq_some_iff.1 hid
      split_ifs at hid with hkind
      cases hid
      exact hparent e he hkind.1
  obtain ⟨hb₁, hg₁, hholds⟩ := hwritten
  simp only [hsource, withXattrs, SourceTree.source, Option.elim_some, if_true, pure, Except.pure,
    Except.ok.injEq] at h
  subst h
  obtain ⟨hb₂, hg₂⟩ := hb₁.counts hr { b₁.stats with dirs := b₁.stats.dirs + 1 } b₁.report
    (b₁.tick + 1)
  refine ⟨hb₂, hg₁.trans hg₂, subtree, rfl, ?_⟩
  rw [hs]
  cases hv : visit.enter (some p) with
  | none | some =>
    rw [hv] at hholds
    exact hholds

/-- The entry of a file records what the visit of the file yields. -/
theorem processRegular_holds (hr : WalkRule tree P fileOk parentOk)
    (hsource : ctx.source = tree.source) (hb : Good keys P b) {p : PosixMeta} {content : Bytes}
    (hn : tree.node path = some (.file p content)) {parent : Option Entry}
    (hparent : ∀ e ∈ parent, parentOk path e) :
    Good keys P (processRegular ctx b path n content.length p.mtimeNs none none (some p) parent).2 ∧
      Grows b (processRegular ctx b path n content.length p.mtimeNs none none (some p) parent).2 ∧
      ∃ e, (processRegular ctx b path n content.length p.mtimeNs none none (some p) parent).1 =
          some e ∧
        ∀ (R : TreeId → Tree → Prop) (sub : SourceTree.DirHolds) (child : Visit),
          tree.EntryHolds R fileOk sub path n child e (.file p content) := by
  have hread : tree.source.read b.tick path = .bytes content := by
    simp [SourceTree.source, hn]
  have hreg := tree.regular path p content hn
  obtain ⟨hP, hok⟩ := hr.file b path p content parent hb.inv hn hparent
  have hsame := b.sameVisit_processFile tree.source path ⟨content.length, some p, none⟩ parent
  have hsome : (b.processFile tree.source path ⟨content.length, some p, none⟩ parent).1.isSome :=
    b.isSome_processFile (by simp [hreg]) hread
  obtain ⟨c, hc⟩ := Option.isSome_iff_exists.1 hsome
  unfold processRegular
  rw [hsource]
  rcases hpf : b.processFile tree.source path ⟨content.length, some p, none⟩ parent with ⟨_, b₁⟩
  rw [hpf] at hc hsame hP hok
  cases hc
  have hb₁ : Good keys P b₁ := ⟨hsame.keys.trans hb.keys, hsame.seenOk hb.seen, hP⟩
  obtain ⟨hb₂, hg₂⟩ := hb₁.counts hr { b₁.stats with files := b₁.stats.files + 1 } b₁.report
    (b₁.tick + 1)
  simp only [withXattrs, SourceTree.source, hsource, if_true]
  exact ⟨hb₂, hsame.grows.trans hg₂, _, rfl, fun R sub child => ⟨c, hok c rfl, rfl⟩⟩

/-- **One item.** An item that the walk records gets an entry that records it; the others get none.
-/
theorem processEntry_holds (hr : WalkRule tree P fileOk parentOk)
    (hinj : Function.Injective keys.treeId) (hsource : ctx.source = tree.source)
    (hrec : Recurses keys tree P parentOk walk sub)
    (hb : Good keys P b) (hn : tree.node (d ++ [n]) = some node) {parent : Option Entry}
    (hparent : ∀ e ∈ parent, e.name = n ∧ ParentEntry keys parentOk d e)
    (hadmitted : ctx.admitted (tree.markers ctx.exclude d visit) visit (d ++ [n]) ⟨n, node.kind⟩ =
      some child) (hdeep : ¬(node.kind = .dir ∧ walk.isNone)) {r : Option Entry × Backup}
    (h : processEntry ctx walk b (d ++ [n]) ⟨n, node.kind⟩ parent child = .ok r) :
    Good keys P r.2 ∧ Grows b r.2 ∧
      ((r.1 = none ∧ tree.kept ctx walk.isSome d visit n = none) ∨
        ∃ e, r.1 = some e ∧ tree.kept ctx walk.isSome d visit n = some (node, child) ∧
          tree.EntryHolds r.2.repo.HasTree fileOk (below sub r.2) (d ++ [n]) n child e node) := by
  obtain ⟨hb₁, hg₁⟩ := hb.counts hr b.stats b.report (b.tick + 1)
  have hposix : (if ctx.source.metaKind = .posix then ctx.source.lstat b.tick
    (d ++ [n]) else none) =
      some node.posix := by
    simp [hsource, SourceTree.source, hn]
  unfold processEntry at h
  rw [hposix] at h
  cases node with
  | symlink p target =>
    simp only [SourceNode.kind, SourceNode.posix, Except.ok.injEq, processSymlink, withXattrs,
      hsource, SourceTree.source, if_true] at h
    subst h
    obtain ⟨hb₂, hg₂⟩ := hb₁.counts hr { b.stats with symlinks := b.stats.symlinks + 1 } b.report
      (b.tick + 1 + 1)
    refine ⟨hb₂, hg₁.trans hg₂, .inr ⟨_, rfl, ?_, rfl⟩⟩
    simp [SourceTree.kept, hn, hadmitted]
  | dir p =>
    cases hw : walk with
    | none => exact absurd ⟨rfl, by rw [hw]; rfl⟩ hdeep
    | some w =>
      subst hw
      simp only [SourceNode.kind, SourceNode.posix] at h
      obtain ⟨⟨e, b₂⟩, hdir, h⟩ := bind_eq_ok.1 h
      cases h
      have hbelow : ∀ e ∈ parent, e.kind = .dir →
          ParentTree keys parentOk (d ++ [n]) e.subtree := fun e he hkind => by
        obtain ⟨rfl, hp⟩ := hparent e he
        exact hp.below hkind
      obtain ⟨hb₂, hg₂, hholds⟩ := processDir_holds hr hinj hsource hrec rfl hb₁ hn hbelow hdir
      refine ⟨hb₂, hg₁.trans hg₂, .inr ⟨e, rfl, ?_, hholds⟩⟩
      simp [SourceTree.kept, hn, hadmitted]
  | file p content =>
    change (if child.otherFs (some p) = true then _ else _) = _ at h
    by_cases hfs : child.otherFs (some p) = true
    · rw [if_pos hfs] at h
      cases h
      obtain ⟨hb₂, hg₂⟩ := hb₁.counts hr b.stats
        { b.report with excluded := b.report.excluded + 1 } (b.tick + 1)
      refine ⟨hb₂, hg₁.trans hg₂, .inl ⟨rfl, ?_⟩⟩
      simp [SourceTree.kept, hn, hadmitted, hfs]
    · rw [if_neg hfs] at h
      cases h
      obtain ⟨h1, h2, e, he, hholds⟩ := processRegular_holds (n := n) hr hsource hb₁ hn
        (fun e he => by obtain ⟨rfl, hp⟩ := hparent e he; exact hp.ok)
      refine ⟨h1, hg₁.trans h2, .inr ⟨e, he, ?_, hholds _ _ _⟩⟩
      simp [SourceTree.kept, hn, hadmitted, hfs]

/-- **The items of a directory.** The chain of trees that the loop ends with has the entries from
before, and then one for each item that the walk records. -/
theorem walkItems_holds (hr : WalkRule tree P fileOk parentOk)
    (hinj : Function.Injective keys.treeId) (hsource : ctx.source = tree.source)
    (hrec : Recurses keys tree P parentOk walk sub) :
    ∀ (ns : List Bytes), (∀ n ∈ ns, (tree.node (d ++ [n])).isSome) →
    ∀ (b : Backup) (parents : Option ParentStream) (children es₀ : List Entry)
      (prev : Option TreeId) (r : TreeId × Backup), Good keys P b →
      (∀ s ∈ parents, StreamOk keys parentOk d s) → FullBefore b.repo.HasTree prev es₀ →
      children.length < maxNodesPerTree →
      walkItems ctx walk d (tree.markers ctx.exclude d visit) visit
          ((ns.filterMap (tree.item d)).map .ok) b parents children prev = .ok r →
        Good keys P r.2 ∧ Grows b r.2 ∧ ∃ es, Written r.2.repo.HasTree r.1 (es₀ ++ children ++ es) ∧
          tree.ItemsHold r.2.repo.HasTree fileOk (below sub r.2) d
            (tree.keptItems ctx walk.isSome d visit ns) es := by
  intro ns
  induction ns with
  | nil =>
    intro _ b parents children es₀ prev r hb _ hbefore hlen h
    obtain ⟨h1, h2, h3⟩ := hb.writeTree hr hinj h
    exact ⟨h1, h2, [], by simpa using .last (hbefore.mono h2.trees) h3 hlen, .nil⟩
  | cons n ns ih =>
    intro hns b parents children es₀ prev r hb hparents hbefore hlen h
    obtain ⟨node, hn⟩ := Option.isSome_iff_exists.1 (hns n List.mem_cons_self)
    have hns' : ∀ n ∈ ns, (tree.node (d ++ [n])).isSome := fun n hn =>
      hns n (List.mem_cons_of_mem _ hn)
    have hitem : tree.item d n = some ⟨n, node.kind⟩ := by simp [SourceTree.item, hn]
    rw [List.filterMap_cons_some hitem, List.map_cons] at h
    unfold walkItems at h
    -- an item that is left out leaves the loop where it was
    have hskip : ∀ {b₁}, Good keys P b₁ → Grows b b₁ → tree.kept ctx walk.isSome d visit n = none →
        walkItems ctx walk d (tree.markers ctx.exclude d visit) visit
          ((ns.filterMap (tree.item d)).map .ok) b₁ parents children prev = .ok r →
        Good keys P r.2 ∧ Grows b r.2 ∧ ∃ es, Written r.2.repo.HasTree r.1 (es₀ ++ children ++ es) ∧
          tree.ItemsHold r.2.repo.HasTree fileOk (below sub r.2) d
            (tree.keptItems ctx walk.isSome d visit (n :: ns)) es := by
      intro b₁ hb₁ hg hkept h
      obtain ⟨h1, h2, es, hc, hes⟩ := ih hns' b₁ parents children es₀ prev r hb₁ hparents
        (hbefore.mono hg.trees) hlen h
      refine ⟨h1, hg.trans h2, es, hc, ?_⟩
      rw [SourceTree.keptItems, List.filterMap_cons_none (by simp [hkept])]
      exact hes
    cases hadmitted : ctx.admitted (tree.markers ctx.exclude d visit) visit
      (d ++ [n]) ⟨n, node.kind⟩ with
    | none =>
      rw [hadmitted] at h
      obtain ⟨hb₁, hg₁⟩ := hb.counts hr b.stats { b.report with excluded := b.report.excluded + 1 }
        b.tick
      exact hskip hb₁ hg₁ (by simp [SourceTree.kept, hn, hadmitted]) h
    | some child =>
      rw [hadmitted] at h
      dsimp only at h
      by_cases hdeep : node.kind = .dir ∧ walk.isNone = true
      · rw [if_pos hdeep] at h
        obtain ⟨hb₁, hg₁⟩ := hb.counts hr b.stats { b.report with errors := b.report.errors + 1 }
          b.tick
        refine hskip hb₁ hg₁ ?_ h
        have hw : walk.isSome = false := by
          rw [← Option.not_isNone, hdeep.2]; rfl
        cases node with
        | dir p => simp [SourceTree.kept, hn, hadmitted, hw]
        | file p c => cases hdeep.1
        | symlink p t => cases hdeep.1
      · rw [if_neg hdeep] at h
        -- the parent entry that goes with the item
        obtain ⟨pe, ps, hps, hpe, hstream, h⟩ : ∃ (pe : Option Entry) (ps : Option ParentStream),
            (ps = none ∨ ps.isSome) ∧
            (∀ e ∈ pe, e.name = n ∧ ParentEntry keys parentOk d e) ∧
            (∀ s ∈ ps, StreamOk keys parentOk d s) ∧
            (processEntry ctx walk b (d ++ [n]) ⟨n, node.kind⟩ pe child >>= fun x =>
              if (children ++ x.1.toList).length ≥ maxNodesPerTree then
                x.2.writeTree (.new (children ++ x.1.toList) prev) >>= fun y =>
                  walkItems ctx walk d (tree.markers ctx.exclude d visit) visit
                    ((ns.filterMap (tree.item d)).map .ok) y.2 ps [] (some y.1)
              else walkItems ctx walk d (tree.markers ctx.exclude d visit) visit
                ((ns.filterMap (tree.item d)).map .ok) x.2 ps (children ++ x.1.toList) prev) =
                  .ok r := by
          cases parents with
          | none => exact ⟨none, none, .inl rfl, by simp, by simp, h⟩
          | some s =>
            obtain ⟨hs, he⟩ := takeName_ok hb.keys n (hparents s rfl)
            exact ⟨_, some _, .inr rfl, he, fun s' hs' => by cases hs'; exact hs, h⟩
        obtain ⟨⟨entry, b₁⟩, hentry, h⟩ := bind_eq_ok.1 h
        obtain ⟨hb₁, hg₁, hcase⟩ :=
          processEntry_holds hr hinj hsource hrec hb hn hpe hadmitted hdeep
          hentry
        -- the rest of the loop, from the segments and the children that the entry leaves
        have hrest : ∀ {b₂ es₁ children' prev'}, Good keys P b₂ → Grows b₁ b₂ →
            FullBefore b₂.repo.HasTree prev' es₁ → children'.length < maxNodesPerTree →
            es₁ ++ children' = es₀ ++ (children ++ entry.toList) →
            walkItems ctx walk d (tree.markers ctx.exclude d visit) visit
              ((ns.filterMap (tree.item d)).map .ok) b₂ ps children' prev' = .ok r →
            Good keys P r.2 ∧ Grows b r.2 ∧
              ∃ es, Written r.2.repo.HasTree r.1 (es₀ ++ children ++ es) ∧
                tree.ItemsHold r.2.repo.HasTree fileOk (below sub r.2) d
                  (tree.keptItems ctx walk.isSome d visit (n :: ns)) es := by
          intro b₂ es₁ children' prev' hb₂ hg₂ hbefore₂ hlen₂ heq h
          obtain ⟨h1, h2, es, hc, hes⟩ := ih hns' b₂ ps children' es₁ prev' r hb₂ hstream hbefore₂
            hlen₂ h
          rw [heq] at hc
          refine ⟨h1, hg₁.trans (hg₂.trans h2), ?_⟩
          rcases hcase with ⟨rfl, hkept⟩ | ⟨e, rfl, hkept, hholds⟩
          · refine ⟨es, by simpa using hc, ?_⟩
            rw [SourceTree.keptItems, List.filterMap_cons_none (by simp [hkept])]
            exact hes
          · refine ⟨e :: es, by simpa using hc, ?_⟩
            rw [SourceTree.keptItems, List.filterMap_cons_some (b := (n, node, child))
              (by simp [hkept])]
            refine .cons ?_ hes
            refine hholds.mono (hg₂.trans h2).trees fun d v id hsub => ?_
            cases hs : sub with
            | none => rw [hs] at hsub; exact hsub
            | some s =>
              rw [hs] at hsub
              exact hrec.mono s hs _ _ (hg₂.trans h2).trees d v id hsub
        dsimp only at h
        split_ifs at h with hfull
        · obtain ⟨⟨p, b₂⟩, hwrite, h⟩ := bind_eq_ok.1 h
          obtain ⟨hb₂, hg₂, ht₂⟩ := hb₁.writeTree hr hinj hwrite
          have hentry : entry.toList.length ≤ 1 := by cases entry <;> simp
          have hmax : (children ++ entry.toList).length = maxNodesPerTree := by
            rw [List.length_append] at hfull ⊢
            omega
          exact hrest hb₂ hg₂ (.some (hbefore.mono (hg₁.trans hg₂).trees) ht₂ hmax) (by decide)
            (by simp) h
        · exact hrest hb₁ (.refl _) (hbefore.mono hg₁.trees) (not_le.1 hfull) rfl h

/-- The body of `walk_dir`, over what the directories below do. -/
theorem walkDirWith_holds (hr : WalkRule tree P fileOk parentOk)
    (hinj : Function.Injective keys.treeId) (hsource : ctx.source = tree.source)
    (hrec : Recurses keys tree P parentOk walk sub) (hb : Good keys P b)
    {parent : Option TreeId} (hparent : ∀ id ∈ parent, ParentTree keys parentOk d id)
    (hd : ∃ posix, tree.node d = some (.dir posix)) {r : TreeId × Backup}
    (h : walkDirWith ctx walk b d parent visit = .ok r) :
    Good keys P r.2 ∧ Grows b r.2 ∧ tree.HoldsWith r.2.repo.HasTree fileOk ctx
      (sub.map fun s => s r.2.repo.HasTree) d visit r.1 := by
  obtain ⟨posix, hd⟩ := hd
  have hns : ∀ n ∈ tree.names d, (tree.node (d ++ [n])).isSome := fun n hn =>
    (tree.mem_names d n).1 hn
  have hparents : ∀ s ∈ parent.bind fun id => (b.repo.openParent id).toOption,
      StreamOk keys parentOk d s := fun s hs => by
    obtain ⟨id, hid, hs⟩ := Option.bind_eq_some_iff.1 hs
    cases hopen : b.repo.openParent id with
    | error e => rw [hopen] at hs; cases hs
    | ok s' => rw [hopen] at hs; cases hs; exact streamOk_openParent hb.keys (hparent id hid) hopen
  have hlist : ctx.source.list b.tick d = .ok
    (((tree.names d).filterMap (tree.item d)).map .ok) := by
    simp [hsource, SourceTree.source, hd]
  unfold walkDirWith at h
  rw [hlist] at h
  dsimp only at h
  -- the questions about markers change no more than the clock
  have hmarkers : (if ctx.exclude.ifPresent = [] ∨ visit.passThrough = true then (none, b.ask)
      else markersIn ctx b.ask d) = (tree.markers ctx.exclude d visit, { b with tick :=
        (if ctx.exclude.ifPresent = [] ∨ visit.passThrough = true then (none, b.ask)
          else markersIn ctx b.ask d).2.tick }) := by
    unfold SourceTree.markers
    split_ifs
    · rfl
    · rw [markersIn_eq hsource]; rfl
  rw [hmarkers] at h
  obtain ⟨hb₁, hg₁⟩ := hb.counts hr b.stats b.report
    (if ctx.exclude.ifPresent = [] ∨ visit.passThrough = true
      then ((none : Option (List Bytes)), b.ask)
      else markersIn ctx b.ask d).2.tick
  obtain ⟨h1, h2, es, hc, hes⟩ :=
    walkItems_holds hr hinj hsource hrec _ hns _ _ _ [] none r hb₁ hparents
    .none (by decide) h
  refine ⟨h1, hg₁.trans h2, es, by simpa using hc, ?_⟩
  rw [Option.isSome_map, ← hrec.isSome]
  exact hes

/-- **The walk of a directory.** The trees that the walk leaves behind record the items that it
admits, and the trees that were there before are still there. -/
theorem walkDir_holds (hr : WalkRule tree P fileOk parentOk)
    (hinj : Function.Injective keys.treeId) (hsource : ctx.source = tree.source) :
    ∀ (levels : ℕ) (b : Backup) (d : RelPath) (parent : Option TreeId) (visit : Visit)
      (r : TreeId × Backup), Good keys P b → (∀ id ∈ parent, ParentTree keys parentOk d id) →
      (∃ posix, tree.node d = some (.dir posix)) → walkDir ctx levels b d parent visit = .ok r →
        Good keys P r.2 ∧ Grows b r.2 ∧ tree.Holds r.2.repo.HasTree fileOk ctx levels d visit r.1
  | 0, b, d, parent, visit, r, hb, hparent, hd, h => by
    have hrec : Recurses keys tree P parentOk none none :=
      ⟨rfl, (fun s hs => by cases hs), (fun w hw => by cases hw)⟩
    exact walkDirWith_holds hr hinj hsource hrec hb hparent hd h
  | levels + 1, b, d, parent, visit, r, hb, hparent, hd, h => by
    have hrec : Recurses keys tree P parentOk (some (walkDir ctx levels))
        (some fun R => tree.Holds R fileOk ctx levels) := by
      refine ⟨rfl, fun s hs R R' hR d v id hh => ?_, fun w hw s hs b d parent v r hb hp hd h => ?_⟩
      · cases hs
        exact SourceTree.Holds.mono hR hh
      · cases hw
        cases hs
        exact walkDir_holds hr hinj hsource levels b d parent v r hb hp hd h
    exact walkDirWith_holds hr hinj hsource hrec hb hparent hd h

end Walk

end Backup
end Kist
