import Kist.Backup.Walk
import Kist.Lib.Related

/-!
# A source that does not change

A directory of files, directories and symlinks that stays as it is while it is backed up, and the
answers of the local source on it.

`Holds` says what the walk records of such a directory: the entries of a chain of trees agree, one
by one, with the items that the walk admits.
-/

namespace Kist

/-- An item of a file system. -/
inductive SourceNode
  | dir (posix : PosixMeta)
  | file (posix : PosixMeta) (content : Bytes)
  | symlink (posix : PosixMeta) (target : Bytes)
  deriving DecidableEq, Repr

namespace SourceNode

/-- The metadata of an item. -/
def posix : SourceNode → PosixMeta
  | .dir p | .file p _ | .symlink p _ => p

/-- What the listing tells of an item. -/
def kind : SourceNode → SourceItemKind
  | .dir _ => .dir
  | .file p content => .file content.length p.mtimeNs none none
  | .symlink _ target => .symlink target

/-- The item is a directory. -/
def isDir : SourceNode → Bool
  | .dir _ => true
  | _ => false

end SourceNode

/-- A file system: the items by their paths, and the sorted names in each directory. -/
structure SourceTree where
  node : RelPath → Option SourceNode
  names : RelPath → List Bytes
  xattrs : RelPath → Option (List (Bytes × Bytes))
  sorted : ∀ d, (names d).Pairwise (· < ·)
  mem_names : ∀ d n, n ∈ names d ↔ (node (d ++ [n])).isSome
  parent_dir : ∀ d n, (node (d ++ [n])).isSome → ∃ posix, node d = some (.dir posix)
  clean : ∀ d n, (node (d ++ [n])).isSome → Entry.cleanName n
  regular : ∀ path posix content, node path = some (.file posix content) →
    Backup.isRegular posix.mode

namespace SourceTree

variable (tree : SourceTree)

/-- The item that a listing yields for a name. -/
def item (d : RelPath) (n : Bytes) : Option SourceItem :=
  (tree.node (d ++ [n])).map fun node => ⟨n, node.kind⟩

/-- `LocalSource`, at the root of the file system. -/
def source : Source where
  metaKind := .posix
  list _ d :=
    match tree.node d with
    | some (.dir _) => .ok (((tree.names d).filterMap (tree.item d)).map .ok)
    | _ => .error "not a directory"
  read _ path :=
    match tree.node path with
    | some (.file _ content) => .bytes content
    | _ => .unreadable "not a file"
  probe _ path limit :=
    .ok ((tree.node path).map fun node =>
      match node with
      | .file _ content => content.take limit
      | _ => [])
  lstat _ path := (tree.node path).map SourceNode.posix
  xattrs _ path := tree.xattrs path

/-- The file system as seen from one of its directories. -/
def below (root : RelPath) : SourceTree where
  node path := tree.node (root ++ path)
  names d := tree.names (root ++ d)
  xattrs path := tree.xattrs (root ++ path)
  sorted d := tree.sorted (root ++ d)
  mem_names d n := by rw [tree.mem_names, List.append_assoc]
  parent_dir d n h := tree.parent_dir (root ++ d) n (by rwa [List.append_assoc])
  clean d n h := tree.clean (root ++ d) n (by rwa [List.append_assoc])
  regular path := tree.regular (root ++ path)

/-! ### Finite trees -/

/-- Items that make up a file system, each directory's in the order of their names. -/
structure WellOrdered (items : List (RelPath × SourceNode)) : Prop where
  sorted : items.Pairwise fun i j => i.1.dropLast = j.1.dropLast → i.1.getLastD [] < j.1.getLastD []
  parent : ∀ i ∈ items, i.1 ≠ [] → ∃ j ∈ items, j.1 = i.1.dropLast ∧ j.2.isDir
  clean : ∀ i ∈ items, i.1 ≠ [] → Entry.cleanName (i.1.getLastD [])
  regular : ∀ i ∈ items, ∀ posix content, i.2 = .file posix content → Backup.isRegular posix.mode

/-- An item is the only one at its path. -/
theorem WellOrdered.lookup_eq_some {items : List (RelPath × SourceNode)} (h : WellOrdered items)
    {p : RelPath} {node : SourceNode} :
    items.lookup p = some node ↔ (p, node) ∈ items := by
  refine ⟨fun hl => ?_, fun hmem => ?_⟩
  · obtain ⟨l, r, rfl, -⟩ := List.lookup_eq_some_iff.1 hl
    simp
  · obtain ⟨l, r, rfl⟩ := List.append_of_mem hmem
    refine List.lookup_eq_some_iff.2 ⟨l, r, rfl, fun i hi => ?_⟩
    have hlt := (List.pairwise_append.1 h.sorted).2.2 i hi _ List.mem_cons_self
    rw [bne_iff_ne]
    rintro rfl
    exact lt_irrefl _ (hlt rfl)

/-- The file system with exactly these items. -/
def ofItems (items : List (RelPath × SourceNode)) (h : WellOrdered items) : SourceTree where
  node p := items.lookup p
  names d := (items.filter fun i => i.1 ≠ [] ∧ i.1.dropLast = d).map fun i => i.1.getLastD []
  xattrs _ := none
  sorted d := by
    refine List.pairwise_map.2 (List.Pairwise.imp_of_mem ?_ (h.sorted.filter _))
    intro i j hi hj hij
    obtain ⟨-, hi⟩ := List.mem_filter.1 hi
    obtain ⟨-, hj⟩ := List.mem_filter.1 hj
    simp only [ne_eq, decide_eq_true_eq] at hi hj
    exact hij (hi.2.trans hj.2.symm)
  mem_names d n := by
    simp only [List.mem_map, List.mem_filter, ne_eq, decide_eq_true_eq, Option.isSome_iff_exists,
      h.lookup_eq_some]
    constructor
    · rintro ⟨⟨p, node⟩, ⟨hmem, hp, rfl⟩, rfl⟩
      refine ⟨node, ?_⟩
      rwa [List.getLastD_eq_getLast?, List.getLast?_eq_some_getLast hp, Option.getD_some,
        List.dropLast_append_getLast hp]
    · rintro ⟨node, hmem⟩
      exact ⟨_, ⟨hmem, by simp, by simp⟩, by simp⟩
  parent_dir d n hn := by
    obtain ⟨node, hnode⟩ := Option.isSome_iff_exists.1 hn
    obtain ⟨⟨p, dir⟩, hj, hp, hdir⟩ := h.parent _ (h.lookup_eq_some.1 hnode) (by simp)
    rw [List.dropLast_concat] at hp
    cases dir with
    | dir posix => exact ⟨posix, h.lookup_eq_some.2 (hp ▸ hj)⟩
    | file | symlink => cases hdir
  clean d n hn := by
    obtain ⟨node, hnode⟩ := Option.isSome_iff_exists.1 hn
    simpa using h.clean _ (h.lookup_eq_some.1 hnode) (by simp)
  regular path posix content hp := h.regular _ (h.lookup_eq_some.1 hp) posix content rfl

/-- What holds of the given items holds of every item of the file system. -/
theorem forall_of_ofItems {items : List (RelPath × SourceNode)} {h : WellOrdered items}
    {P : RelPath → SourceNode → Prop} (hP : ∀ i ∈ items, P i.1 i.2) {p : RelPath}
      {node : SourceNode}
    (hp : (ofItems items h).node p = some node) : P p node :=
  hP _ (h.lookup_eq_some.1 hp)

theorem length_le_of_ofItems {items : List (RelPath × SourceNode)} {h : WellOrdered items} {k : ℕ}
    (hk : ∀ i ∈ items, i.1.length ≤ k) {p : RelPath} {node : SourceNode}
    (hp : (ofItems items h).node p = some node) : p.length ≤ k :=
  forall_of_ofItems (P := fun p _ => p.length ≤ k) hk hp

/-! ### What the walk admits -/

/-- The directory has an item by the name of the marker; a marker with a header has to be a file
that begins with it. -/
def validMarker (d : RelPath) (marker : Marker) : Bool :=
  match tree.node (d ++ [marker.name]) with
  | some (.file _ content) => content.take marker.header.length = marker.header
  | some _ => marker.header = []
  | none => false

/-- The names of the markers found in a directory. -/
def markers (exclude : Exclusions) (d : RelPath) (visit : Visit) : Option (List Bytes) :=
  if exclude.ifPresent = [] ∨ visit.passThrough then none
  else
    let found := (exclude.ifPresent.filter (tree.validMarker d)).map Marker.name
    if found = [] then none else some found

/-- An item that the walk records, with its visit. A directory below the last level is left out, and
so is a file on another device. -/
def kept (ctx : SourceCtx) (deeper : Bool) (d : RelPath) (visit : Visit) (n : Bytes) :
    Option (SourceNode × Visit) := do
  let node ← tree.node (d ++ [n])
  let child ← ctx.admitted (tree.markers ctx.exclude d visit) visit (d ++ [n]) ⟨n, node.kind⟩
  match node with
  | .dir _ => if deeper then some (node, child) else none
  | .file posix _ => if child.otherFs (some posix) then none else some (node, child)
  | .symlink .. => some (node, child)

/-- The entry of an item whose content is `content` and whose subtree is `subtree`. -/
def entryOf (path : RelPath) (n : Bytes) (content : FileContent) (subtree : TreeId) :
    SourceNode → Entry
  | .dir p => { fillPosixMeta { name := n, kind := .dir, metaKind := .posix, subtree } p false with
      xattrs := tree.xattrs path }
  | .file p _ => Backup.posixFileEntry n content p (tree.xattrs path)
  | .symlink p target =>
    { fillPosixMeta { name := n, kind := .symlink, metaKind := .posix, target } p false with
      xattrs := tree.xattrs path }

/-- The items by these names that the walk records, with their names and visits. -/
def keptItems (ctx : SourceCtx) (deeper : Bool) (d : RelPath) (visit : Visit) (ns : List Bytes) :
    List (Bytes × SourceNode × Visit) :=
  ns.filterMap fun n => (tree.kept ctx deeper d visit n).map fun r => (n, r)

section Holds

variable (R : TreeId → Tree → Prop) (fileOk : RelPath → FileContent → Prop) (ctx : SourceCtx)

/-- What the trees of a directory record, given its path, its visit and its last tree. -/
abbrev DirHolds := RelPath → Visit → TreeId → Prop

/-- The entry of an item. `fileOk` says which contents the entry of a file may record, `sub` what
the trees of a subdirectory have to record. -/
def EntryHolds (sub : DirHolds) (path : RelPath) (n : Bytes) (child : Visit) (e : Entry) :
    SourceNode → Prop
  | .dir p => ∃ subtree, e = tree.entryOf path n ⟨0, [], .direct⟩ subtree (.dir p) ∧
      match child.enter (some p) with
      | none => Written R subtree []
      | some inside => sub path inside subtree
  | .file p c => ∃ content, fileOk path content ∧
      e = tree.entryOf path n content TreeId.zero (.file p c)
  | .symlink p target =>
      e = tree.entryOf path n ⟨0, [], .direct⟩ TreeId.zero (.symlink p target)

/-- The entries of a directory agree, one by one, with the items. -/
def ItemsHold (sub : DirHolds) (d : RelPath) :
    List (Bytes × SourceNode × Visit) → List Entry → Prop :=
  List.Forall₂ fun x e => tree.EntryHolds R fileOk sub (d ++ [x.1]) x.1 x.2.2 e x.2.1

/-- The trees of a directory have an entry for each item that the walk records. -/
def HoldsWith (sub : Option DirHolds) : DirHolds := fun d visit id =>
  ∃ es, Written R id es ∧ tree.ItemsHold R fileOk (sub.getD fun _ _ _ => False) d
    (tree.keptItems ctx sub.isSome d visit (tree.names d)) es

/-- The trees under a name record what the walk of a directory admits. -/
def Holds : ℕ → DirHolds
  | 0 => tree.HoldsWith R fileOk ctx none
  | levels + 1 => tree.HoldsWith R fileOk ctx (some (Holds levels))

variable {R} {R' : TreeId → Tree → Prop} {fileOk ctx}

theorem EntryHolds.mono {tree : SourceTree} {sub sub' : DirHolds} {path : RelPath} {n : Bytes}
    {child : Visit} {e : Entry} {node : SourceNode} (hR : ∀ id t, R id t → R' id t)
    (hsub : ∀ d v id, sub d v id → sub' d v id)
    (h : tree.EntryHolds R fileOk sub path n child e node) :
    tree.EntryHolds R' fileOk sub' path n child e node := by
  cases node with
  | dir p =>
    obtain ⟨subtree, he, hs⟩ := h
    refine ⟨subtree, he, ?_⟩
    cases hv : child.enter (some p) with
    | none => rw [hv] at hs; exact hs.mono hR
    | some inside => rw [hv] at hs; exact hsub _ _ _ hs
  | file p c => exact h
  | symlink p t => exact h

theorem EntryHolds.name {tree : SourceTree} {sub : DirHolds} {path : RelPath} {n : Bytes}
    {child : Visit} {e : Entry} {node : SourceNode}
    (h : tree.EntryHolds R fileOk sub path n child e node) : e.name = n := by
  cases node with
  | dir p => obtain ⟨_, rfl, -⟩ := h; rfl
  | file p c => obtain ⟨_, -, rfl⟩ := h; rfl
  | symlink p t => cases h; rfl

theorem EntryHolds.kind {tree : SourceTree} {sub : DirHolds} {path : RelPath} {n : Bytes}
    {child : Visit} {e : Entry} {node : SourceNode}
    (h : tree.EntryHolds R fileOk sub path n child e node) : e.kind = .dir ↔ node.isDir := by
  cases node with
  | dir p => obtain ⟨_, rfl, -⟩ := h; simp [entryOf, SourceNode.isDir]
  | file p c => obtain ⟨_, -, rfl⟩ := h; simp [entryOf, Backup.posixFileEntry, SourceNode.isDir]
  | symlink p t => cases h; simp [entryOf, SourceNode.isDir]

theorem mem_keptItems {tree : SourceTree} {deeper : Bool} {d : RelPath} {visit : Visit} {n : Bytes}
    {r : SourceNode × Visit} : (n, r) ∈ tree.keptItems ctx deeper d visit (tree.names d) ↔
      tree.kept ctx deeper d visit n = some r := by
  have hnode : tree.kept ctx deeper d visit n = some r → n ∈ tree.names d := fun h => by
    rw [tree.mem_names]
    unfold kept at h
    obtain ⟨node, hn, -⟩ := Option.bind_eq_some_iff.1 h
    rw [hn]
    rfl
  simp only [keptItems, List.mem_filterMap, Option.map_eq_some_iff, Prod.mk.injEq]
  constructor
  · rintro ⟨_, -, _, h, rfl, rfl⟩
    exact h
  · exact fun h => ⟨n, hnode h, r, h, rfl, rfl⟩

/-- What the trees of the subdirectories hold where `Holds` is about so many levels. -/
def subHolds (tree : SourceTree) (R : TreeId → Tree → Prop) (fileOk : RelPath → FileContent → Prop)
    (ctx : SourceCtx) : ℕ → DirHolds
  | 0 => fun _ _ _ => False
  | levels + 1 => tree.Holds R fileOk ctx levels

/-- The entries of a directory are those of the items that the walk records. -/
theorem Holds.entries {tree : SourceTree} {levels : ℕ} {d : RelPath} {visit : Visit} {id : TreeId}
    (h : tree.Holds R fileOk ctx levels d visit id) :
    ∃ es, Written R id es ∧
      (∀ e ∈ es, ∃ node child, tree.kept ctx (decide (0 < levels)) d visit e.name =
        some (node, child) ∧
        tree.EntryHolds R fileOk (tree.subHolds R fileOk ctx levels) (d ++ [e.name]) e.name child e
          node) ∧
      ∀ n node child, tree.kept ctx (decide (0 < levels)) d visit n = some (node, child) →
        ∃ e ∈ es, e.name = n ∧ tree.EntryHolds R fileOk
          (tree.subHolds R fileOk ctx levels) (d ++ [n])
          n child e node := by
  obtain ⟨es, hc, hes⟩ : ∃ es, Written R id es ∧ tree.ItemsHold R fileOk
      (tree.subHolds R fileOk ctx levels) d
      (tree.keptItems ctx (decide (0 < levels)) d visit (tree.names d)) es := by
    cases levels <;> exact h
  refine ⟨es, hc, fun e he => ?_, fun n node child hk => ?_⟩
  · obtain ⟨⟨n, node, child⟩, hx, h⟩ := Related.exists_left hes e he
    rw [h.name]
    exact ⟨node, child, mem_keptItems.1 hx, h⟩
  · obtain ⟨e, he, h⟩ := Related.exists_right hes (n, node, child) (mem_keptItems.2 hk)
    exact ⟨e, he, h.name, h⟩

/-- What trees record stays recorded while more trees come. -/
theorem Holds.mono {tree : SourceTree} (hR : ∀ id t, R id t → R' id t) :
    ∀ {levels : ℕ} {d : RelPath} {visit : Visit} {id : TreeId},
      tree.Holds R fileOk ctx levels d visit id → tree.Holds R' fileOk ctx levels d visit id
  | 0, _, _, _, ⟨es, hc, hes⟩ =>
    ⟨es, hc.mono hR, hes.imp fun _ _ h => h.mono hR fun _ _ _ h => h⟩
  | _ + 1, _, _, _, ⟨es, hc, hes⟩ =>
    ⟨es, hc.mono hR, hes.imp fun _ _ h => h.mono hR fun _ _ _ h => Holds.mono hR h⟩

end Holds

end SourceTree
end Kist
