import Kist.Backup.Outcome
import Kist.Restore.Outcome
import Kist.RoundTrip.Recorded

/-!
# Backup and restore

Restoring what a backup of an unchanged source has committed onto an empty target gives back the
selected items of the source.

* `SourceTree.Saved`: the items that have an entry in the snapshot.
* `MirrorsSource`: the nodes of a snapshot are these items.
* `backup_restore`: the restore of a backup is the identity.
-/

namespace Kist

open Checked (bind_eq_ok)

namespace SourceTree

variable (tree : SourceTree) (exclude : Exclusions) (given : List RelPath)

/-- The item has an entry in the snapshot: it is selected and lies below a source, or it is a source
that is not a directory. -/
structure Saved (q : RelPath) (node : SourceNode) : Prop where
  here : tree.node q = some node
  selected : tree.Selected exclude given q
  root : ∃ a, IsRoot given a ∧ a <+: q ∧ (q = a → node.isDir = false)

/-- The only item that is selected in this directory is not a directory and is called like it. -/
def LooksLikeFile (a : RelPath) : Prop :=
  ∃ n node, a.getLast? = some n ∧ tree.node (a ++ [n]) = some node ∧ node.isDir = false ∧
    ∀ x, (tree.node (a ++ [x])).isSome → tree.Selected exclude given (a ++ [x]) → x = n

variable {tree exclude given} {p q : RelPath} {node : SourceNode}

/-- What lies above a selected item is selected. -/
theorem Selected.above (h : tree.Selected exclude given q) (hle : p <+: q) :
    tree.Selected exclude given p := by
  by_cases heq : p = q
  · exact heq ▸ h
  rcases h with hq | ⟨g, hg, hqg⟩ | ⟨n, hn, hfree⟩
  · exact .inr (.inl ⟨q, hq, hle, heq⟩)
  · exact .inr (.inl ⟨g, hg, Below.trans ⟨hle, heq⟩ hqg.1⟩)
  · rcases List.prefix_or_prefix_of_prefix hle hn.above with hpn | hnp
    · by_cases hp : p = n
      · exact .inl (hp ▸ hn.mem)
      · exact .inr (.inl ⟨n, hn.mem, hpn, hp⟩)
    · exact .inr (.inr ⟨n, ⟨hn.mem, hnp, fun m hm hmp => hn.last m hm (hmp.trans hle)⟩,
        fun e hne hep => hfree e hne (hep.trans hle)⟩)

/-- What lies above a saved item is saved, or lies at or above a source. -/
theorem Saved.above (h : tree.Saved exclude given q node) (hle : p <+: q) :
    (∃ node, tree.Saved exclude given p node) ∨ ∃ a, IsRoot given a ∧ p <+: a := by
  obtain ⟨a, ha, haq, hnot⟩ := h.root
  rcases List.prefix_or_prefix_of_prefix hle haq with hpa | hap
  · exact .inr ⟨a, ha, hpa⟩
  · by_cases hp : p = a
    · exact .inr ⟨a, ha, hp ▸ List.prefix_rfl⟩
    left
    by_cases heq : p = q
    · exact ⟨node, heq ▸ h⟩
    · obtain ⟨posix, hdir⟩ := dir_of_below (by rw [h.here]; rfl) ⟨hle, heq⟩
      exact ⟨_, hdir, h.selected.above hle, a, ha, hap, fun h => absurd h hp⟩

end SourceTree

/-! ### The nodes of a committed snapshot -/

/-- The nodes of a snapshot are the saved items of its sources. -/
structure MirrorsSource (tree : SourceTree) (fileOk : RelPath → FileContent → Prop)
    (exclude : Exclusions)
    (given : List RelPath) (repo : Repository) (roots : List Root) : Prop where
  apart : RootsApart roots
  distinct : repo.DistinctRoots roots []
  sound : ∀ q e, repo.Node roots [] q e →
    ∃ node, tree.Saved exclude given q node ∧ tree.Records fileOk q node e
  complete : ∀ q node, tree.Saved exclude given q node → ∃ e, repo.Node roots [] q e
  place : ∀ rel es, repo.Brings roots [] rel es → ∃ a, IsRoot given a ∧ rel <+: a

section Nodes

variable {tree : SourceTree} {fileOk : RelPath → FileContent → Prop} {exclude : Exclusions}
  {given : List RelPath} {repo : Repository} {root : Root} {a rel q : RelPath} {es : List Entry}
  {e : Entry} {node : SourceNode}

/-- The place of a root in a full restore. -/
theorem brings_whole (hnames : locatorComponents root.path = .ok a) :
    repo.Brings [root] [] rel es ↔ repo.readTreeChain root.tree = .ok es ∧
      rel = if isFileRoot (a.getLastD []) es then a.dropLast else a := by
  constructor
  · intro h
    obtain ⟨names, es', hnames', hread, rfl, hes⟩ := h.place
    cases hnames.symm.trans hnames'
    have heq : es = es' := by
      rcases eq_or_ne a [] with rfl | hne
      · cases hes
        rfl
      · rwa [if_pos (show ([] : List Bytes).length < a.length from List.length_pos_of_ne_nil hne)]
          at hes
    exact ⟨heq ▸ hread, by rw [heq]; rfl⟩
  · rintro ⟨hread, rfl⟩
    rcases eq_or_ne a [] with rfl | hne
    · rw [List.dropLast_nil, ite_self]
      exact .within List.mem_cons_self hnames rfl hread (.here es)
    · split_ifs with hfile
      · exact .file List.mem_cons_self hnames hne hread hfile
      · exact .dir List.mem_cons_self hnames hne hread (Bool.eq_false_iff.2 hfile)

/-- What a source that is a file or a symlink brings: itself. -/
theorem brings_fileRoot (hnames : locatorComponents root.path = .ok a)
    (hread : repo.readTreeChain root.tree = .ok [e]) (hkind : e.kind ≠ .dir)
    (hname : a.getLast? = some e.name) :
    repo.Brings [root] [] rel es ↔ es = [e] ∧ rel = a.dropLast := by
  have hlast : a.getLastD [] = e.name := by rw [List.getLastD_eq_getLast?, hname, Option.getD_some]
  have hfile : isFileRoot (a.getLastD []) [e] = true := by 
    rw [hlast]
    simp [isFileRoot, hkind]
  rw [brings_whole hnames, hread]
  constructor
  · rintro ⟨hes, rfl⟩
    cases hes
    exact ⟨rfl, if_pos hfile⟩
  · rintro ⟨rfl, rfl⟩
    exact ⟨rfl, (if_pos hfile).symm⟩

/-- What a source that is a directory brings. -/
theorem brings_dirRoot (hnames : locatorComponents root.path = .ok a)
    (hread : repo.readTreeChain root.tree = .ok es)
    (hitems : ∀ x, (∃ e, repo.Item es [x] e) ↔
      (tree.node (a ++ [x])).isSome ∧ tree.Selected exclude given (a ++ [x]))
    (hkinds : ∀ x e, repo.Item es [x] e → ∃ node, tree.node (a ++ [x]) = some node ∧
      (e.kind = .dir ↔ node.isDir))
    (halone : ¬tree.LooksLikeFile exclude given a) {es' : List Entry} :
    repo.Brings [root] [] rel es' ↔ es' = es ∧ rel = a := by
  -- a root that reads as a file root would have one item alone, of the name of the root
  have hfile : isFileRoot (a.getLastD []) es = true → a = [] := by
    intro h
    by_contra hne
    obtain ⟨e, rfl, hkind, hname⟩ : ∃ e, es = [e] ∧ e.kind ≠ .dir ∧ e.name = a.getLastD [] := by
      unfold isFileRoot at h
      split at h
      · next e =>
        rw [Bool.and_eq_true, decide_eq_true_eq, decide_eq_true_eq] at h
        exact ⟨e, rfl, h.1, h.2⟩
      · cases h
    obtain ⟨node, hnode, hdir⟩ := hkinds e.name e (.here List.mem_cons_self)
    have hlast : a.getLast? = some e.name := by
      rw [hname, List.getLastD_eq_getLast?, List.getLast?_eq_some_getLast hne, Option.getD_some]
    refine halone ⟨e.name, node, hlast, hnode, ?_, fun x hx hsel => ?_⟩
    · rw [← Bool.not_eq_true, ← hdir]
      exact hkind
    · obtain ⟨e', hitem⟩ := (hitems x).2 ⟨hx, hsel⟩
      obtain ⟨hx, -⟩ := (item_leaf hkind).1 hitem
      simpa using hx
  have hplace : (if isFileRoot (a.getLastD []) es then a.dropLast else a) = a := by
    split_ifs with h
    · rw [hfile h, List.dropLast_nil]
    · rfl
  rw [brings_whole hnames, hread]
  constructor
  · rintro ⟨hes, rfl⟩
    cases hes
    exact ⟨rfl, hplace⟩
  · rintro ⟨rfl, rfl⟩
    exact ⟨rfl, hplace.symm⟩

/-- What a root brings are the saved items at and below its source. -/
structure MirrorsRoot (tree : SourceTree) (fileOk : RelPath → FileContent → Prop)
    (exclude : Exclusions) (given : List RelPath) (repo : Repository) (root : Root)
    (a place : RelPath)
    (es : List Entry) : Prop where
  brings : ∀ rel es', repo.Brings [root] [] rel es' ↔ es' = es ∧ rel = place
  above : place <+: a
  distinct : repo.Distinct es
  sound : ∀ p e, repo.Item es p e →
    ∃ node, tree.Saved exclude given (place ++ p) node ∧ tree.Records fileOk (place ++ p) node e
  complete : ∀ q node, tree.Saved exclude given q node → a <+: q → ∃ p e,
    repo.Item es p e ∧ q = place ++ p

/-- A source that is a directory. -/
theorem mirrorsRoot_dir {named : List RelPath} (ha : IsRoot given a)
    (hnamed : ∀ rel, rel ∈ named ↔ rel ≠ [] ∧ a ++ rel ∈ given)
    (hpresent : ∀ g ∈ given, (tree.node g).isSome) (hnames : locatorComponents root.path = .ok a)
    {posix : PosixMeta} (hdir : tree.node a = some (.dir posix))
    (hdepth : ∀ p posix, tree.node (a ++ p) = some (.dir posix) → p.length < maxTreeDepth)
    (halone : ¬tree.LooksLikeFile exclude given a)
    (hholds : (tree.below a).Holds repo.HasTree (fun path => fileOk (a ++ path))
      ⟨(tree.below a).source, .new named, exclude⟩ (maxTreeDepth - 1) [] (tree.rootVisit exclude a)
      root.tree) :
    ∃ es, MirrorsRoot tree fileOk exclude given repo root a a es := by
  have hR : ∀ id t t', repo.HasTree id t → repo.HasTree id t' → t = t' :=
    fun _ _ _ => Repository.HasTree.unique
  have hw : SourceTree.WalkOf tree exclude given a ⟨(tree.below a).source, .new named, exclude⟩ :=
    ⟨ha.mem, ⟨named, rfl, hnamed⟩, rfl, hpresent⟩
  obtain ⟨es, hchain, -⟩ := hholds.spell
  have hread := SourceTree.readTreeChain_of_chain hchain
  have hne : ∀ {p e}, repo.Item es p e → p ≠ [] := fun h => by cases h <;> simp
  -- what the walk contains is what was selected, and it is read back as the items of the chain
  have hitems : ∀ p, p ≠ [] → ((∃ e, repo.Item es p e) ↔
      (tree.node (a ++ p)).isSome ∧ tree.Selected exclude given (a ++ p)) := fun p hp => by
    have := SourceTree.contains_iff hR hw hdepth p (maxTreeDepth - 1) [] _ root.tree
      (by rw [List.append_nil]; exact inside_rootVisit ha.mem) hholds rfl hp
    rw [List.append_nil] at this
    rw [← this]
    exact ⟨fun ⟨e, h⟩ => ⟨e, SourceTree.contains_of_item h hholds hread⟩,
      fun ⟨e, h⟩ => ⟨e, SourceTree.item_of_contains h hholds hread⟩⟩
  have hrecords : ∀ p e, repo.Item es p e →
      ∃ node, tree.node (a ++ p) = some node ∧ tree.Records fileOk (a ++ p) node e := by
    intro p e hitem
    obtain ⟨node, hnode, hrec⟩ := SourceTree.item_records hitem hholds hread
    exact ⟨node, hnode, hrec.of_below (hne hitem)⟩
  refine ⟨es, ?_, List.prefix_rfl, SourceTree.distinct_of_holds hholds hread, fun p e hitem => ?_,
    fun q node hsaved haq => ?_⟩
  · intro rel es'
    refine brings_dirRoot hnames hread (fun x => hitems [x] (by simp)) (fun x e hitem => ?_) halone
    obtain ⟨node, hnode, hrec⟩ := hrecords _ _ hitem
    exact ⟨node, hnode, hrec.kind⟩
  · obtain ⟨node, hnode, hrec⟩ := hrecords p e hitem
    refine ⟨node, ⟨hnode, ((hitems p (hne hitem)).1 ⟨e, hitem⟩).2, a, ha, List.prefix_append _ _,
      fun h => ?_⟩, hrec⟩
    exact absurd (List.append_right_eq_self.1 h) (hne hitem)
  · obtain ⟨p, rfl⟩ := haq
    have hp : p ≠ [] := by
      rintro rfl
      obtain ⟨a', ha', hle, hnot⟩ := hsaved.root
      rw [List.append_nil] at hle hnot
      have heq : a = a' := by
        by_contra hne
        exact ha.outermost a' ha'.mem ⟨hle, Ne.symm hne⟩
      have hnode := hsaved.here
      rw [List.append_nil, hdir] at hnode
      cases hnode
      cases hnot heq
    obtain ⟨e, hitem⟩ := (hitems p hp).2 ⟨by rw [hsaved.here]; rfl, hsaved.selected⟩
    exact ⟨p, e, hitem, rfl⟩

/-- A source that is a file or a symlink. -/
theorem mirrorsRoot_file (ha : IsRoot given a) (hnames : locatorComponents root.path = .ok a)
    (hnode : tree.node a = some node) (hfile : node.isDir = false) {n : Bytes}
    (hlast : a.getLast? = some n) (hwritten : Written repo.HasTree root.tree [e])
    (hentry : tree.EntryHolds repo.HasTree fileOk (fun _ _ _ => False) a n (.root {} none) e node) :
    MirrorsRoot tree fileOk exclude given repo root a a.dropLast [e] := by
  have hread := SourceTree.readTreeChain_of_chain hwritten.chain
  have hkind : e.kind ≠ .dir := fun h => by
    rw [hentry.kind, hfile] at h
    cases h
  have hname : e.name = n := hentry.name
  obtain ⟨d, rfl⟩ := List.getLast?_eq_some_iff.1 hlast
  rw [List.dropLast_concat]
  refine ⟨fun rel es' => ?_, List.prefix_append _ _, ⟨by simp, ?_⟩, fun p e' hitem => ?_,
    fun q node' hsaved haq => ?_⟩
  · have := @brings_fileRoot repo root (d ++ [n]) rel es' e hnames hread hkind (by simp [hname])
    rwa [List.dropLast_concat] at this
  · intro rel f sub hitem hdir
    obtain ⟨-, rfl⟩ := (item_leaf hkind).1 hitem
    exact absurd hdir hkind
  · obtain ⟨rfl, rfl⟩ := (item_leaf hkind).1 hitem
    rw [hname]
    exact ⟨node, ⟨hnode, .inl ha.mem, _, ha, List.prefix_rfl, fun _ => hfile⟩,
      hentry.records (by simp)⟩
  · have hq : q = d ++ [n] := by
      by_contra hne
      obtain ⟨posix, hdir⟩ := SourceTree.dir_of_below (by rw [hsaved.here]; rfl) ⟨haq, Ne.symm hne⟩
      rw [hnode] at hdir
      cases hdir
      cases hfile
    exact ⟨[e.name], e, .here List.mem_cons_self, by rw [hname]; exact hq⟩

/-- **The nodes of the snapshot.** They are the saved items of the sources. -/
theorem mirrorsSource_of_records {roots : List Root}
    (hclean : ∀ a ∈ given, ∀ c ∈ a, Entry.cleanName c)
    (hpresent : ∀ g ∈ given, (tree.node g).isSome)
    (hdepth : ∀ a, IsRoot given a → ∀ p posix, tree.node (a ++ p) = some (.dir posix) →
      p.length < maxTreeDepth)
    (halone : ∀ a, IsRoot given a → ¬tree.LooksLikeFile exclude given a)
    (h : List.Forall₂ (fun k root => root.path = pathBytes k.1 ∧
      tree.RootHolds repo.HasTree fileOk exclude k.1 k.2 root.tree) (planSources given) roots) :
    MirrorsSource tree fileOk exclude given repo roots := by
  have hplanned := planned_planSources hclean
  have hnames : ∀ k ∈ planSources given, ∀ root : Root, root.path = pathBytes k.1 →
      locatorComponents root.path = .ok k.1 := fun k hk root hpath => by
    rw [hpath]
    exact locatorComponents_pathBytes (hclean _ (hplanned.root k hk).mem)
  have hroot : ∀ k ∈ planSources given, ∀ root : Root, root.path = pathBytes k.1 ∧
      tree.RootHolds repo.HasTree fileOk exclude k.1 k.2 root.tree →
        ∃ place es, MirrorsRoot tree fileOk exclude given repo root k.1 place es := by
    rintro k hk root ⟨hpath, hholds⟩
    have ha := hplanned.root k hk
    unfold SourceTree.RootHolds at hholds
    cases hnode : tree.node k.1 with
    | none =>
      rw [hnode] at hholds
      exact hholds.elim
    | some node =>
      rw [hnode] at hholds
      cases node with
      | dir posix =>
        exact ⟨_, mirrorsRoot_dir ha (hplanned.named k hk) hpresent (hnames k hk root hpath) hnode
          (hdepth k.1 ha) (halone k.1 ha) hholds⟩
      | file | symlink =>
        obtain ⟨n, e, hlast, hwritten, hentry⟩ := hholds
        exact ⟨_, _, mirrorsRoot_file ha (hnames k hk root hpath) hnode rfl hlast hwritten hentry⟩
  have hmirror : ∀ root ∈ roots, ∃ k ∈ planSources given, ∃ place es,
      MirrorsRoot tree fileOk exclude given repo root k.1 place es := fun root hr => by
    obtain ⟨k, hk, hholds⟩ := Related.exists_left h root hr
    exact ⟨k, hk, hroot k hk root hholds⟩
  refine ⟨?_, fun rel es hb => ?_, ?_, fun q node hsaved => ?_, fun rel es hb => ?_⟩
  · -- no source lies at or below another one
    have hpairs : (planSources given).Pairwise fun k k' =>
        locatorComponents (pathBytes k.1) = .ok k.1 ∧ locatorComponents
          (pathBytes k'.1) = .ok k'.1 ∧
          ¬k.1 <+: k'.1 ∧ ¬k'.1 <+: k.1 := by
      refine List.Pairwise.imp_of_mem (fun {k k'} hk hk' hlt => ?_)
        (List.pairwise_map.1 (sorted_planSources given))
      have hne : k.1 ≠ k'.1 := fun heq => by
        rw [heq] at hlt
        exact lt_irrefl _ hlt
      have ha := hplanned.root k hk
      have ha' := hplanned.root k' hk'
      exact ⟨locatorComponents_pathBytes (hclean _ ha.mem),
        locatorComponents_pathBytes (hclean _ ha'.mem),
          fun hle => ha'.outermost _ ha.mem ⟨hle, hne⟩,
        fun hle => ha.outermost _ ha'.mem ⟨hle, hne.symm⟩⟩
    refine Related.pairwise_right (fun k k' root root' hr hr' hp names names' hn hn' => ?_) h hpairs
    rw [hr.1, hp.1] at hn
    rw [hr'.1, hp.2.1] at hn'
    cases hn
    cases hn'
    exact hp.2.2
  · obtain ⟨root, hr, hb⟩ := hb.single
    obtain ⟨k, -, place, es', hm⟩ := hmirror root hr
    obtain ⟨rfl, -⟩ := (hm.brings rel es).1 hb
    exact hm.distinct
  · rintro q e ⟨rel, es, p, hb, hitem, rfl⟩
    obtain ⟨root, hr, hb⟩ := hb.single
    obtain ⟨k, -, place, es', hm⟩ := hmirror root hr
    obtain ⟨rfl, rfl⟩ := (hm.brings rel es).1 hb
    exact hm.sound p e hitem
  · obtain ⟨a, ha, haq, -⟩ := hsaved.root
    obtain ⟨k, hk, rfl⟩ := hplanned.exists_of_root a ha
    obtain ⟨root, hr, hholds⟩ := Related.exists_right h k hk
    obtain ⟨place, es, hm⟩ := hroot k hk root hholds
    obtain ⟨p, e, hitem, rfl⟩ := hm.complete q node hsaved haq
    have hb := (hm.brings place es).2 ⟨rfl, rfl⟩
    exact ⟨e, place, es, p, hb.of_mem hr, hitem, rfl⟩
  · obtain ⟨root, hr, hb⟩ := hb.single
    obtain ⟨k, hk, place, es', hm⟩ := hmirror root hr
    obtain ⟨-, rfl⟩ := (hm.brings rel es).1 hb
    exact ⟨k.1, hplanned.root k hk, hm.above⟩

end Nodes

/-! ### Contents -/

section Contents

variable {tree : SourceTree} {fileOk : RelPath → FileContent → Prop} {keys : RepoKeys}
  {chunker : Chunking.Chunker} {inode : InodeKey → Option Bytes} {q q' : RelPath}
  {node node' : SourceNode} {e e' : Entry} {bytes : Bytes} {posix : PosixMeta}

/-- An entry that stands for a further name is that of a file with several names. -/
theorem SourceTree.Records.hardlinkKey {key : ℕ × ℕ} (h : tree.Records fileOk q node e)
    (hkey : e.hardlinkKey = some key) :
    ∃ posix bytes, node = .file posix bytes ∧ posix.nlink > 1 ∧ key = (posix.dev, posix.inode) := by
  obtain ⟨content, subtree, rfl, -⟩ := h
  unfold Entry.hardlinkKey at hkey
  cases node with
  | dir | symlink => simp [SourceTree.entryOf, fillPosixMeta] at hkey
  | file posix bytes =>
    refine ⟨posix, bytes, rfl, ?_⟩
    by_cases hlink : posix.nlink > 1
    · simp only [SourceTree.entryOf, Backup.posixFileEntry, fillPosixMeta, hlink, decide_true,
        Bool.and_true, if_true, Option.getD_some] at hkey
      split_ifs at hkey
      cases hkey
      exact ⟨hlink, rfl⟩
    · simp [SourceTree.entryOf, Backup.posixFileEntry, fillPosixMeta, hlink] at hkey

/-- The content of the entry of a file stands for the bytes of the file. -/
theorem SourceTree.Records.holds (hdecode : ∀ l, keys.decodeList (keys.encodeList l) = some l)
    (hp : chunker.params.Valid)
    (h : tree.Records (tree.TrueContent keys chunker) q (.file posix bytes) e)
    (hnode : tree.node q = some (.file posix bytes)) : e.fileContent.Holds keys bytes := by
  obtain ⟨content, subtree, rfl, hok⟩ := h
  have htrue := hok posix bytes rfl posix bytes hnode
  have heq : (tree.entryOf q (q.getLastD []) content subtree (.file posix bytes)).fileContent =
      content := rfl
  rw [heq, htrue]
  exact Backup.contentOf_holds hdecode hp bytes

/-- Names of one inode have the same bytes. -/
theorem SourceTree.bytes_eq_of_shares {posix' : PosixMeta} {bytes' : Bytes}
    (hshares : tree.source.Shares inode) (hnode : tree.node q = some (.file posix bytes))
    (hnode' : tree.node q' = some (.file posix' bytes')) (hlink : posix.nlink > 1)
    (hlink' : posix'.nlink > 1) (hkey : (posix.dev, posix.inode) = (posix'.dev, posix'.inode)) :
    bytes = bytes' := by
  have hinode : ∀ {q posix bytes}, tree.node q = some (.file posix bytes) → posix.nlink > 1 →
      inode (posix.dev, posix.inode) = some bytes := by
    intro q posix bytes hnode hlink
    refine (hshares q posix ?_ hlink bytes).1 ?_
    · simp [Source.posix, SourceTree.source, hnode, SourceNode.posix]
    · simp [SourceTree.source, hnode]
  have h := hinode hnode hlink
  rw [hkey, hinode hnode' hlink'] at h
  exact (Option.some.inj h).symm

/-- An object of a target is a copy of an item: of the same kind, with the same bytes or the same
target. -/
def TargetNode.Copies : TargetNode → SourceNode → Prop
  | .dir _, .dir _ => True
  | .file _ bytes _, .file _ bytes' => bytes = bytes'
  | .symlink _ target _ _, .symlink _ target' => target = target'
  | _, _ => False

/-- What a restore leaves at the path of a saved item that is not a directory. -/
theorem Leaves.copies {repo : Repository} {exclude : Exclusions} {given : List RelPath}
    {roots : List Root} {target : Target} (hchunk : Function.Injective repo.keys.chunkId)
    (hdecode : ∀ l, repo.keys.decodeList (repo.keys.encodeList l) = some l)
    (hp : chunker.params.Valid) (hshares : tree.source.Shares inode)
    (hmirrors : MirrorsSource tree (tree.TrueContent repo.keys chunker) exclude given repo roots)
    (h : Leaves repo roots [] target q e) (hsaved : tree.Saved exclude given q node)
    (hrec : tree.Records (tree.TrueContent repo.keys chunker) q node e) :
    ∃ n, target.node q = some n ∧ n.Copies node := by
  cases h with
  | file hkind hnode hholds =>
    refine ⟨_, hnode, ?_⟩
    cases node with
    | dir | symlink =>
      obtain ⟨content, subtree, rfl, -⟩ := hrec
      cases hkind
    | file posix bytes => exact hholds.unique hchunk (hrec.holds hdecode hp hsaved.here)
  | linked hkind hnode hkey hfirst hkey' same hholds =>
    refine ⟨_, hnode, ?_⟩
    obtain ⟨node', hsaved', hrec'⟩ := hmirrors.sound _ _ hfirst
    obtain ⟨posix, bytes, rfl, hlink, rfl⟩ := hrec.hardlinkKey hkey
    obtain ⟨posix', bytes', rfl, hlink', heq⟩ := hrec'.hardlinkKey hkey'
    have hbytes := hholds.unique hchunk (hrec'.holds hdecode hp hsaved'.here)
    rw [← SourceTree.bytes_eq_of_shares hshares hsaved.here hsaved'.here hlink hlink' heq] at hbytes
    exact hbytes
  | symlink hkind hnode =>
    refine ⟨_, hnode, ?_⟩
    cases node with
    | dir | file =>
      obtain ⟨content, subtree, rfl, -⟩ := hrec
      cases hkind
    | symlink posix target =>
      obtain ⟨content, subtree, rfl, -⟩ := hrec
      rfl

end Contents

/-! ### A restore of a backup -/

/-- What a backup of an unchanged source needs for its files and directories to be recorded as they
are. -/
structure Recordable (tree : SourceTree) (repo : Repository) (opts : BackupOptions)
    (given : List RelPath) (inode : InodeKey → Option Bytes) : Prop where
  params : repo.config.chunker.Valid
  depth : ∀ a, IsRoot given a → ∀ p posix, tree.node (a ++ p) = some (.dir posix) →
    p.length < maxTreeDepth
  alone : ∀ a, IsRoot given a → ¬tree.LooksLikeFile opts.exclude given a
  shares : tree.source.Shares inode
  parent : ∀ chunker, repo.newChunker = .ok chunker →
    tree.TrueParent chunker repo opts.clientId given

section Identity

variable {tree : SourceTree} {repo repo' : Repository} {opts : BackupOptions} {nonce : ℕ}
  {started now commitNow : Time} {canonicalize : Bytes → Except String RelPath} {paths : List Bytes}
  {given : List RelPath} {key : SnapshotKey} {inode : InodeKey → Option Bytes}

/-- The snapshot that a backup has committed. -/
theorem mirrorsSource_backup (hinj : Function.Injective repo.keys.treeId)
    (hsource : opts.source = .localPaths (tree.localFs canonicalize) paths)
    (hcanon : ∀ path a, canonicalize path = .ok a → (tree.node a).isSome)
    (hgiven : (tree.localFs canonicalize).canonicalPaths paths = .ok given)
    (hrec : Recordable tree repo opts given inode)
    (h : repo.backup opts nonce started now commitNow = (.ok key, repo')) :
    repo'.keys = repo.keys ∧ ∃ chunker snapshot, chunker.params.Valid ∧
      repo'.readSnapshot key = .ok snapshot ∧
        MirrorsSource tree (tree.TrueContent repo.keys chunker) opts.exclude given repo'
          snapshot.roots := by
  unfold Repository.backup at h
  split at h
  · cases h
  next prep hp =>
  obtain ⟨-, t, snapshots, replicas, hread, rfl⟩ := commitAt_ok h
  obtain ⟨hprep⟩ := backupPrepare_ok hp
  have hpresent : ∀ a ∈ given, (tree.node a).isSome := fun a ha => by
    obtain ⟨path, -, hc⟩ := mem_canonicalPaths hgiven a ha
    exact hcanon path a hc
  have hclean : ∀ a ∈ given, ∀ c ∈ a, Entry.cleanName c := fun a ha =>
    tree.clean_of_node (hpresent a ha)
  obtain ⟨hkeys, hrecords⟩ := hprep.records hsource hgiven hclean hinj hrec.params hrec.shares
    (hrec.parent _ hprep.new)
  refine ⟨hkeys, hprep.chunker, _, hprep.chunker_valid hrec.params, hread, ?_⟩
  exact mirrorsSource_of_records hclean hpresent hrec.depth hrec.alone hrecords

/-- **Backup, then restore.** What a backup of an unchanged source has committed is restored onto an
empty target as it was: every saved item of the source is there, a directory as a directory, a file
with its bytes and a symlink with its target; and nothing else is but the directories that lead to a
source. -/
theorem backup_restore (hinj : Function.Injective repo.keys.treeId)
    (hchunk : Function.Injective repo.keys.chunkId)
    (hdecode : ∀ l, repo.keys.decodeList (repo.keys.encodeList l) = some l)
    (hsource : opts.source = .localPaths (tree.localFs canonicalize) paths)
    (hcanon : ∀ path a, canonicalize path = .ok a → (tree.node a).isSome)
    (hgiven : (tree.localFs canonicalize).canonicalPaths paths = .ok given)
    (hrec : Recordable tree repo opts given inode)
    (h : repo.backup opts nonce started now commitNow = (.ok key, repo')) {env : IndexLoads}
    {target target' : Target} {cases : CaseMap} {summary : RestoreSummary}
    (hdir : target.IsDir []) (hempty : ∀ q, q ≠ [] → target.node q = none)
    (hrestore : repo'.restore env key target (.everything cases) = (.ok summary, target'))
    (hno : summary.errors = []) :
    (∀ q node, tree.Saved opts.exclude given q node →
      ∃ n, target'.node q = some n ∧ n.Copies node) ∧
    ∀ q n, target'.node q = some n →
      (∃ node, tree.Saved opts.exclude given q node ∧ n.Copies node) ∨
      n.kind = .dir ∧ (q = [] ∨ ∃ a, IsRoot given a ∧ q <+: a) := by
  obtain ⟨hkeys, chunker, snapshot, hvalid, hread, hmirrors⟩ :=
    mirrorsSource_backup hinj hsource hcanon hgiven hrec h
  obtain ⟨snapshot', hread', hnodes, hkept, hdirs⟩ := restore_nodes hdir hrestore hno
  cases hread.symm.trans hread'
  rw [← hkeys] at hchunk hdecode hmirrors
  have hchosen : ∀ q, (RestoreOptions.everything cases).Chosen q :=
    RestoreOptions.chosen_everything cases
  -- an item that was saved has an entry, and the entry is restored to its path
  have hcopies : ∀ q node, tree.Saved opts.exclude given q node →
      ∃ n, target'.node q = some n ∧ n.Copies node := by
    intro q node hsaved
    obtain ⟨e, hnode⟩ := hmirrors.complete q node hsaved
    obtain ⟨node', hsaved', hrecords⟩ := hmirrors.sound q e hnode
    cases hsaved.here.symm.trans hsaved'.here
    by_cases hkind : e.kind = .dir
    · have := hnodes q e hnode (hchosen q)
      rw [if_pos hkind] at this
      obtain ⟨m, hm⟩ := this
      have hisDir := hrecords.kind.1 hkind
      cases node with
      | dir posix => exact ⟨_, hm, trivial⟩
      | file | symlink => cases hisDir
    · exact (restore_leaves hdir hempty hread hmirrors.apart hmirrors.distinct hrestore hno hnode
        hkind (hchosen q)).copies hchunk hdecode hvalid hrec.shares hmirrors hsaved hrecords
  refine ⟨hcopies, fun q n hn => ?_⟩
  by_cases hkind : n.kind = .dir
  · -- a directory was there, or it belongs to an item, or it leads to a root
    rcases hdirs q (Target.isDir_of_kind hn hkind) with ⟨m, hm⟩ |
      ⟨q', hle, -, ⟨e, hnode⟩ | ⟨es, hb⟩⟩
    · by_cases hq : q = []
      · exact .inr ⟨hkind, .inl hq⟩
      · rw [hempty q hq] at hm
        cases hm
    · obtain ⟨node', hsaved', -⟩ := hmirrors.sound q' e hnode
      rcases hsaved'.above hle with ⟨node, hsaved⟩ | habove
      · obtain ⟨n', hn', hcopy⟩ := hcopies q node hsaved
        cases hn.symm.trans hn'
        exact .inl ⟨node, hsaved, hcopy⟩
      · exact .inr ⟨hkind, .inr habove⟩
    · obtain ⟨a, ha, hplace⟩ := hmirrors.place q' es hb
      exact .inr ⟨hkind, .inr ⟨a, ha, hle.trans hplace⟩⟩
  · -- what is no directory and at no path of an entry would have been in the empty target
    left
    by_contra hnone
    have := (hkept q (fun e hnode hfile _ => hnone ?_) n hkind).1 hn
    · by_cases hq : q = []
      · obtain ⟨m, hm⟩ := hdir
        rw [hq, hm] at this
        cases this
        exact hkind rfl
      · rw [hempty q hq] at this
        cases this
    · obtain ⟨node, hsaved, -⟩ := hmirrors.sound q e hnode
      obtain ⟨n', hn', hcopy⟩ := hcopies q node hsaved
      cases hn.symm.trans hn'
      exact ⟨node, hsaved, hcopy⟩

end Identity

/-! ### A small source and back -/

/-- No two names of `r` are of one inode. -/
theorem shares_oneByte : oneByte.source.Shares fun _ => none := by
  intro rel p hp hlink bytes
  refine ⟨fun hread => ?_, fun h => by cases h⟩
  replace hp : (oneByte.node rel).map SourceNode.posix = some p := hp
  cases hnode : oneByte.node rel with
  | none => rw [hnode] at hp; cases hp
  | some node =>
    rw [hnode] at hp
    cases node with
    | dir | symlink =>
      dsimp only [SourceTree.source] at hread
      rw [hnode] at hread
      cases hread
    | file posix content =>
      obtain rfl : posix = p := Option.some.inj hp
      have honce := SourceTree.forall_of_ofItems
        (P := fun _ node => ∀ posix content, node = .file posix content → posix.nlink = 1)
        (by simp) hnode posix content rfl
      omega

theorem backup_restore_oneByte :
    ∃ key repo', Repository.emptyIdeal.backup oneByteOptions 0 100 100 100 = (.ok key, repo') ∧
      ∃ summary target', repo'.restore ⟨fun _ => repo'.loadIndexUncached, fun _ => false⟩ key .empty
          (.everything keepCase) = (.ok summary, target') ∧
        ∃ n, target'.node [[114], [102]] = some n ∧
          n.Copies (.file ⟨0o100644, 0, 0, 5, 5, 3, 1, 1⟩ [7]) := by
  have h : Repository.emptyIdeal.backup oneByteOptions 0 100 100 100 =
      (.ok ⟨1, 100⟩, (Repository.emptyIdeal.backup oneByteOptions 0 100 100 100).2) :=
    Prod.ext (by decide +kernel) rfl
  generalize hrepo : (Repository.emptyIdeal.backup oneByteOptions 0 100 100 100).2 = repo' at h
  have herrors : (repo'.restore ⟨fun _ => repo'.loadIndexUncached, fun _ => false⟩ ⟨1, 100⟩
      .empty (.everything keepCase)).1.toOption.map RestoreSummary.errors = some [] := by
    rw [← hrepo]
    decide +kernel
  rcases hrestore : repo'.restore ⟨fun _ => repo'.loadIndexUncached, fun _ => false⟩ ⟨1, 100⟩
      .empty (.everything keepCase) with ⟨err | summary, target'⟩
  · rw [hrestore] at herrors
    cases herrors
  rw [hrestore] at herrors
  have hroot : ∀ a, IsRoot [[[114]]] a → a = [[114]] := fun a ha => List.mem_singleton.1 ha.mem
  have hrec : Recordable oneByte .emptyIdeal oneByteOptions [[[114]]] fun _ => none := by
    refine ⟨ChunkerParams.valid_of_validate ChunkerParams.validate_default,
      fun a _ p posix hp => ?_,
      fun a ha => ?_, shares_oneByte, ?_⟩
    · have : (a ++ p).length ≤ 2 := SourceTree.length_le_of_ofItems (by decide) hp
      rw [List.length_append] at this
      unfold maxTreeDepth
      omega
    · rw [hroot a ha]
      rintro ⟨n, node, hlast, hnode, -⟩
      cases hlast
      have hnone : oneByte.node ([[114]] ++ [[114]]) = none := by decide
      cases hnode.symm.trans hnone
    · intro chunker _ key snap hfound
      rw [show Repository.emptyIdeal.findParent _ _ = none from rfl] at hfound
      cases hfound
  obtain ⟨hcopies, -⟩ := backup_restore RepoKeys.treeId_ideal_injective
    RepoKeys.chunkId_ideal_injective RepoKeys.decodeList_ideal rfl
    (fun path a ha => by cases ha; rfl)
    rfl hrec h ⟨_, rfl⟩ (fun q hq => if_neg hq) hrestore (Option.some.inj herrors)
  refine ⟨_, _, h, summary, target', hrestore, hcopies [[114], [102]] _ ⟨rfl, ?_, ?_⟩⟩
  · refine .inr (.inr ⟨[[114]], ⟨by decide, by decide, ?_⟩, ?_⟩)
    · intro m hm _
      exact List.mem_singleton.1 hm ▸ List.prefix_rfl
    · intro e _ _ hex
      cases hex with
      | rule hrule =>
        cases hrule with
        | pattern h =>
          obtain ⟨i, pattern, hi, -⟩ := h
          cases hi
        | large _ hlimit => cases hlimit
        | marker hmem => cases hmem
      | file hone | behind hone => cases hone
  · exact ⟨[[114]], ⟨by decide, by decide⟩, by decide, fun _ => rfl⟩

end Kist
