import Kist.Backup.LocalPlan
import Kist.Backup.Segments
import Kist.Backup.Steady
import Kist.Restore.Tidy

/-!
# What a snapshot records of its sources

The trees that a backup of an unchanged source leaves behind, seen the way a restore sees them: as
the items below the entries that are read back.

* `SourceTree.item_records`: every item below a directory is that of an item of the source.
* `SourceTree.item_of_contains`: what the trees contain can be read.
* `SourceTree.distinct_of_holds`: the names in each directory are distinct.
* `Prepared.records`: the roots of a backup, with contents that stand for the bytes of the files.
-/

namespace Kist

open Checked (bind_eq_ok)

/-! ### The bytes of a file -/

/-- The content that is recorded of a file stands for its bytes. -/
theorem Backup.contentOf_holds {keys : RepoKeys} {chunker : Chunking.Chunker}
    (hdecode : ∀ l, keys.decodeList (keys.encodeList l) = some l) (hp : chunker.params.Valid)
    (bytes : Bytes) : (contentOf keys chunker bytes).Holds keys bytes := by
  have hnames : keys.Names ((chunker.cut bytes).map keys.chunkId) bytes :=
    ⟨_, rfl, Chunking.flatten_cut hp bytes⟩
  unfold contentOf
  dsimp only
  split_ifs
  · exact ⟨⟨_, rfl, hnames⟩, rfl⟩
  · refine ⟨⟨(chunker.cut bytes).map keys.chunkId, ⟨_, rfl, ?_⟩, hnames⟩, rfl⟩
    rw [Chunking.flatten_cut hp, hdecode]

/-! ### The items of a directory -/

namespace SourceTree

variable (tree : SourceTree) (fileOk : RelPath → FileContent → Prop)

/-- The entry is that of the item at this path, with a content that `fileOk` allows. -/
def Records (path : RelPath) (node : SourceNode) (e : Entry) : Prop :=
  ∃ content subtree, e = tree.entryOf path (path.getLastD []) content subtree node ∧
    ∀ posix bytes, node = .file posix bytes → fileOk path content

variable {tree fileOk} {R : TreeId → Tree → Prop} {ctx : SourceCtx} {repo : Repository}
  {path d p : RelPath} {node : SourceNode} {e : Entry} {visit : Visit} {id : TreeId}
  {es : List Entry}

theorem EntryHolds.records {sub : DirHolds} {child : Visit} {n : Bytes}
    (h : tree.EntryHolds R fileOk sub path n child e node) (hn : path.getLastD [] = n) :
    tree.Records fileOk path node e := by
  subst hn
  cases node with
  | dir posix =>
    obtain ⟨subtree, rfl, -⟩ := h
    exact ⟨_, subtree, rfl, fun _ _ h => by cases h⟩
  | file posix bytes =>
    obtain ⟨content, hok, rfl⟩ := h
    exact ⟨content, _, rfl, fun _ _ _ => hok⟩
  | symlink posix target =>
    cases h
    exact ⟨_, _, rfl, fun _ _ h => by cases h⟩

theorem Records.kind (h : tree.Records fileOk path node e) : e.kind = .dir ↔ node.isDir := by
  obtain ⟨content, subtree, rfl, -⟩ := h
  cases node <;> simp [entryOf, Backup.posixFileEntry, SourceNode.isDir]

/-- What is recorded seen from a directory is recorded. -/
theorem Records.of_below {a : RelPath}
    (h : (tree.below a).Records (fun path => fileOk (a ++ path)) p node e) (hp : p ≠ []) :
    tree.Records fileOk (a ++ p) node e := by
  obtain ⟨content, subtree, rfl, hok⟩ := h
  refine ⟨content, subtree, ?_, hok⟩
  rw [Repository.getLastD_append hp]
  cases node <;> rfl

/-- A subdirectory that is recorded is empty, or the walk went into it. -/
theorem EntryHolds.subdir {levels : ℕ} {child : Visit} {n : Bytes}
    (h : tree.EntryHolds repo.HasTree fileOk (tree.subHolds repo.HasTree fileOk ctx levels) path n
      child e node) (hkind : e.kind = .dir) :
    Chain repo.HasTree e.subtree [] ∨ ∃ levels' inside,
      tree.Holds repo.HasTree fileOk ctx levels' path inside e.subtree := by
  cases node with
  | dir posix =>
    obtain ⟨subtree, rfl, hbelow⟩ := h
    cases henter : child.enter (some posix) with
    | none =>
      rw [henter] at hbelow
      exact .inl hbelow.chain
    | some inside =>
      rw [henter] at hbelow
      cases levels with
      | zero => exact hbelow.elim
      | succ levels => exact .inr ⟨levels, inside, hbelow⟩
  | file | symlink => cases h.kind.1 hkind

theorem node_of_kept {deeper : Bool} {n : Bytes} {child : Visit}
    (h : tree.kept ctx deeper d visit n = some (node, child)) :
    tree.node (d ++ [n]) = some node := by
  obtain ⟨node', hnode', h⟩ := Option.bind_eq_some_iff.1 h
  obtain ⟨child', -, h⟩ := Option.bind_eq_some_iff.1 h
  rw [hnode']
  cases node' with
  | dir posix | file posix bytes =>
    dsimp only at h
    split_ifs at h
    cases h
    rfl
  | symlink posix target =>
    cases h
    rfl

theorem keptItems_sublist (deeper : Bool) (ns : List Bytes) :
    ((tree.keptItems ctx deeper d visit ns).map Prod.fst).Sublist ns := by
  induction ns with
  | nil => exact .slnil
  | cons n ns ih =>
    unfold keptItems at ih ⊢
    rw [List.filterMap_cons]
    cases tree.kept ctx deeper d visit n with
    | none => exact ih.cons n
    | some r => exact ih.cons_cons n

theorem ItemsHold.names {sub : DirHolds} {xs : List (Bytes × SourceNode × Visit)}
    (h : tree.ItemsHold R fileOk sub d xs es) : es.map Entry.name = xs.map Prod.fst := by
  induction h with
  | nil => rfl
  | cons hx _ ih => rw [List.map_cons, List.map_cons, hx.name, ih]

/-- What the trees of a directory hold, entry by entry. -/
theorem Holds.spell {levels : ℕ} (h : tree.Holds repo.HasTree fileOk ctx levels d visit id) :
    ∃ es, Chain repo.HasTree id es ∧ (es.map Entry.name).Nodup ∧
      ∀ e ∈ es, ∃ node child, tree.node (d ++ [e.name]) = some node ∧
        tree.EntryHolds repo.HasTree fileOk (tree.subHolds repo.HasTree fileOk ctx levels)
          (d ++ [e.name]) e.name child e node := by
  obtain ⟨es, hwritten, hitems⟩ : ∃ es, Written repo.HasTree id es ∧
      tree.ItemsHold repo.HasTree fileOk (tree.subHolds repo.HasTree fileOk ctx levels) d
        (tree.keptItems ctx (decide (0 < levels)) d visit (tree.names d)) es := by
    cases levels <;> exact h
  refine ⟨es, hwritten.chain, ?_, fun e he => ?_⟩
  · rw [ItemsHold.names hitems]
    exact (keptItems_sublist _ _).nodup ((tree.sorted d).imp fun hlt => hlt.ne)
  · obtain ⟨⟨n, node, child⟩, hx, hholds⟩ := Related.exists_left hitems e he
    rw [hholds.name]
    exact ⟨node, child, node_of_kept (mem_keptItems.1 hx), hholds⟩

theorem readTreeChain_of_chain (h : Chain repo.HasTree id es) : repo.readTreeChain id = .ok es :=
  Repository.readTreeChain_ok_iff.2 (Repository.trail_of_chain h)

/-- The entries of a directory that was read, each with what it holds. -/
theorem Holds.entries_of_read {levels : ℕ}
    (h : tree.Holds repo.HasTree fileOk ctx levels d visit id)
    (hread : repo.readTreeChain id = .ok es) :
    Chain repo.HasTree id es ∧ (es.map Entry.name).Nodup ∧
      ∀ e ∈ es, ∃ node child, tree.node (d ++ [e.name]) = some node ∧
        tree.EntryHolds repo.HasTree fileOk (tree.subHolds repo.HasTree fileOk ctx levels)
          (d ++ [e.name]) e.name child e node := by
  obtain ⟨es', hchain, hnodup, hes⟩ := h.spell
  cases hread.symm.trans (readTreeChain_of_chain hchain)
  exact ⟨hchain, hnodup, hes⟩

/-- A subdirectory of a directory that was read is empty, or its trees hold as well. -/
theorem Holds.subdir {levels : ℕ} (h : tree.Holds repo.HasTree fileOk ctx levels d visit id)
    (hread : repo.readTreeChain id = .ok es) {f : Entry} (hf : f ∈ es) (hkind : f.kind = .dir) :
    Chain repo.HasTree f.subtree [] ∨ ∃ levels' inside,
      tree.Holds repo.HasTree fileOk ctx levels' (d ++ [f.name]) inside f.subtree := by
  obtain ⟨node, child, -, hentry⟩ := (h.entries_of_read hread).2.2 f hf
  exact hentry.subdir hkind

/-- The same of a subdirectory in which there is something. -/
theorem Holds.subdir_of_item {levels : ℕ} {sub : List Entry}
    (h : tree.Holds repo.HasTree fileOk ctx levels d visit id)
    (hread : repo.readTreeChain id = .ok es) {f : Entry} (hf : f ∈ es) (hkind : f.kind = .dir)
    (hsub : repo.readTreeChain f.subtree = .ok sub) (hitem : repo.Item sub p e) :
    ∃ levels' inside, tree.Holds repo.HasTree fileOk ctx levels' (d ++ [f.name]) inside
      f.subtree := by
  refine (h.subdir hread hf hkind).resolve_left fun hempty => ?_
  cases hsub.symm.trans (readTreeChain_of_chain hempty)
  cases hitem <;> contradiction

/-- What lies below a directory that was read is recorded of an item of the source. -/
theorem item_records (h : repo.Item es p e) : ∀ {levels : ℕ} {d : RelPath} {visit : Visit}
    {id : TreeId}, tree.Holds repo.HasTree fileOk ctx levels d visit id →
      repo.readTreeChain id = .ok es →
        ∃ node, tree.node (d ++ p) = some node ∧ tree.Records fileOk (d ++ p) node e := by
  induction h with
  | @here es e he =>
    intro levels d visit id hholds hread
    obtain ⟨node, child, hnode, hentry⟩ := (hholds.entries_of_read hread).2.2 e he
    exact ⟨node, hnode, hentry.records (Repository.getLastD_append (by simp) _)⟩
  | deeper hf hkind hsub hitem ih =>
    intro levels d visit id hholds hread
    obtain ⟨levels', inside, hinside⟩ := hholds.subdir_of_item hread hf hkind hsub hitem
    have := ih hinside hsub
    rwa [List.append_assoc, List.singleton_append] at this

/-- What the trees of a directory contain is read with it. -/
theorem item_of_contains (h : Contains repo.HasTree id p e) : ∀ {levels : ℕ} {d : RelPath}
    {visit : Visit} {es : List Entry}, tree.Holds repo.HasTree fileOk ctx levels d visit id →
      repo.readTreeChain id = .ok es → repo.Item es p e := by
  have hR : ∀ id t t', repo.HasTree id t → repo.HasTree id t' → t = t' :=
    fun _ _ _ => Repository.HasTree.unique
  induction h with
  | @here id t e hs he =>
    intro levels d visit es hholds hread
    exact .here (((hholds.entries_of_read hread).1.mem_iff hR).2 ⟨t, hs, he⟩)
  | @deeper id t f e path hs hf hkind hc ih =>
    intro levels d visit es hholds hread
    have hf := ((hholds.entries_of_read hread).1.mem_iff hR).2 ⟨t, hs, hf⟩
    obtain ⟨levels', inside, hinside⟩ := (hholds.subdir hread hf hkind).resolve_left
      fun hempty => not_contains_nil hR hempty hc
    obtain ⟨sub, hsub, -⟩ := hinside.spell
    have hsub := readTreeChain_of_chain hsub
    exact .deeper hf hkind hsub (ih hinside hsub)

/-- What is read below a directory is contained in its trees. -/
theorem contains_of_item (h : repo.Item es p e) : ∀ {levels : ℕ} {d : RelPath} {visit : Visit}
    {id : TreeId}, tree.Holds repo.HasTree fileOk ctx levels d visit id →
      repo.readTreeChain id = .ok es → Contains repo.HasTree id p e := by
  have hR : ∀ id t t', repo.HasTree id t → repo.HasTree id t' → t = t' :=
    fun _ _ _ => Repository.HasTree.unique
  induction h with
  | here he =>
    intro levels d visit id hholds hread
    obtain ⟨t, hs, he⟩ := ((hholds.entries_of_read hread).1.mem_iff hR).1 he
    exact .here hs he
  | deeper hf hkind hsub hitem ih =>
    intro levels d visit id hholds hread
    obtain ⟨t, hs, hmem⟩ := ((hholds.entries_of_read hread).1.mem_iff hR).1 hf
    obtain ⟨levels', inside, hinside⟩ := hholds.subdir_of_item hread hf hkind hsub hitem
    exact .deeper hs hmem hkind (ih hinside hsub)

/-- The names in each directory of a tree are distinct. -/
theorem distinct_of_holds {levels : ℕ} (h : tree.Holds repo.HasTree fileOk ctx levels d visit id)
    (hread : repo.readTreeChain id = .ok es) : repo.Distinct es := by
  refine ⟨(h.entries_of_read hread).2.1, fun rel f sub hitem => ?_⟩
  induction hitem generalizing levels d visit id sub with
  | here hf =>
    intro hkind hsub
    rcases h.subdir hread hf hkind with hempty | ⟨levels', inside, hinside⟩
    · cases hsub.symm.trans (readTreeChain_of_chain hempty)
      exact List.nodup_nil
    · exact (hinside.entries_of_read hsub).2.1
  | deeper hg hgkind hgsub hitem ih =>
    obtain ⟨levels', inside, hinside⟩ := h.subdir_of_item hread hg hgkind hgsub hitem
    exact ih hinside hgsub sub

end SourceTree

/-! ### Contents that are true -/

section Truth

variable (tree : SourceTree) (keys : RepoKeys) (chunker : Chunking.Chunker)

/-- A content is the one that is recorded of the bytes of the file at this path. -/
def SourceTree.TrueContent (path : RelPath) (c : FileContent) : Prop :=
  ∀ posix bytes, tree.node path = some (.file posix bytes) →
    c = Backup.contentOf keys chunker bytes

/-- An entry of the parent snapshot was made from some bytes, and these are the bytes of the file at
this path if `try_reuse` accepts the entry for it. -/
def SourceTree.TrueEntry (start : ℤ) (path : RelPath) (e : Entry) : Prop :=
  ∀ posix bytes, tree.node path = some (.file posix bytes) →
    Backup.EntryTrue keys chunker start tree.source path ⟨bytes.length, some posix, none⟩ e

/-- The parent snapshot that a backup finds, if any, is true of the files. -/
def SourceTree.TrueParent (repo : Repository) (clientId : ClientId) (given : List RelPath) : Prop :=
  ∀ key snap,
    repo.findParent clientId ((planSources given).map fun k => pathBytes k.1) = some (key, snap) →
      Backup.ParentRootsOk repo.keys (tree.TrueEntry repo.keys chunker snap.timeNs) snap.roots

variable {tree keys chunker} {inode : InodeKey → Option Bytes} {start : ℤ}

/-- The files of a source that does not change get contents that are true. -/
theorem walkRule_true (hp : chunker.params.Valid) (hshares : tree.source.Shares inode) :
    Backup.WalkRule tree (Backup.RunOk keys chunker inode start) (tree.TrueContent keys chunker)
      (tree.TrueEntry keys chunker start) where
  counts b stats report tick hb := hb.counts stats report tick
  writeTree b t r hb h := (hb.writeTree h).1
  file b path posix bytes parent hb hnode hparent := by
    have hposix : some posix = tree.source.posix path := by
      simp [Source.posix, SourceTree.source, hnode, SourceNode.posix]
    obtain ⟨hrun, hcontent⟩ := Backup.processFile_steady hp tree.steady_source hshares hb
      (f := ⟨bytes.length, some posix, none⟩) hposix fun e he => hparent e he posix bytes hnode
    refine ⟨hrun, fun c hc posix' bytes' hnode' => ?_⟩
    cases hnode.symm.trans hnode'
    have hread : tree.source.read 0 path = .bytes bytes := by
      simp [SourceTree.source, hnode]
    rw [hcontent, Backup.steadyContent, hread] at hc
    split_ifs at hc
    · cases hc
    · exact (Option.some.inj hc).symm

theorem map_fst_planRoots {fs : LocalFs} : ∀ {kept : List (RelPath × List RelPath)}
    {plans : List (Bytes × RootPlan)}, fs.planRoots kept = .ok plans →
      plans.map Prod.fst = kept.map fun k => pathBytes k.1
  | [], _, h => by
    cases h
    rfl
  | k :: kept, plans, h => by
    obtain ⟨plan, -, h⟩ := bind_eq_ok.1 h
    obtain ⟨rest, hrest, h⟩ := bind_eq_ok.1 h
    cases h
    exact congrArg (_ :: ·) (map_fst_planRoots hrest)

theorem keys_finish (b : Backup) (opts : BackupOptions) (started : Time) (roots : List Root)
    (parentKey : Option SnapshotKey) :
    (b.finish opts started roots parentKey).repo.keys = b.repo.keys := by
  have hflush := (@Backup.grows_flushPack b).keys
  unfold Backup.finish
  dsimp only
  split_ifs
  · exact hflush
  · exact hflush

/-- **What is recorded.** The roots of a backup of sources that do not change record the items that
the walks admit, with contents that are true. -/
theorem Prepared.records {repo : Repository} {opts : BackupOptions} {nonce : ℕ} {started now : Time}
    {p : PreparedBackup} (h : Prepared repo opts nonce started now p)
    {canonicalize : Bytes → Except String RelPath} {paths : List Bytes} {given : List RelPath}
    (hsource : opts.source = .localPaths (tree.localFs canonicalize) paths)
    (hgiven : (tree.localFs canonicalize).canonicalPaths paths = .ok given)
    (hclean : ∀ a ∈ given, ∀ c ∈ a, Entry.cleanName c) (hinj : Function.Injective repo.keys.treeId)
    (hvalid : repo.config.chunker.Valid) (hshares : tree.source.Shares inode)
    (hparent : tree.TrueParent h.chunker repo opts.clientId given) :
    p.repo.keys = repo.keys ∧ List.Forall₂ (fun k root => root.path = pathBytes k.1 ∧
      tree.RootHolds p.repo.HasTree (tree.TrueContent repo.keys h.chunker) opts.exclude k.1 k.2
        root.tree) (planSources given) p.roots := by
  have hpaths : h.plans.map Prod.fst = (planSources given).map fun k => pathBytes k.1 := by
    have hplan := h.plan
    rw [hsource] at hplan
    obtain ⟨abs, habs, hplan⟩ := bind_eq_ok.1 hplan
    obtain rfl := Except.ok.inj (habs.symm.trans hgiven)
    exact map_fst_planRoots hplan
  have hrule := @walkRule_true tree repo.keys h.chunker inode (h.parent.elim 0 fun p => p.2.timeNs)
    (h.chunker_valid hvalid) hshares
  have hparents : Backup.ParentRootsOk repo.keys
      (tree.TrueEntry repo.keys h.chunker (h.parent.elim 0 fun p => p.2.timeNs)) h.parentRoots := by
    unfold Prepared.parentRoots
    cases hfound : h.parent with
    | none => exact fun _ hroot => by cases hroot
    | some found =>
      have := h.found
      rw [hfound, hpaths] at this
      exact hparent found.1 found.2 this.symm
  obtain ⟨hgood, hroots⟩ :=
    h.holds hsource hgiven hclean hrule hinj (h.runOk_start inode) hparents
  refine ⟨?_, hroots⟩
  rw [h.eq, keys_finish]
  exact hgood.keys

end Truth

end Kist
