import Kist.Mount.FsCore

/-!
# The identity of inodes

The table of inodes of a mount only grows. A name in a directory has one number, which is given out
again at every lookup of it, except where the tree of a root could not be read: such a view gets a
number of its own each time, which no other lookup gives out.

* `InodeTable.Grows`: what happens to a table.
* `Session.Sound`: what holds of every reply that was given, kept by every request.
* `Session.answers_stay`: what a number is answered with from then on.
* `inode_identity`: the replies of a whole session.
-/

namespace Kist

/-! ### The table -/

namespace InodeTable

/-- No number is beyond the last one, and what a name stands for is there and has no other name. -/
structure Sound (t : InodeTable) : Prop where
  le_next : ∀ ⦃ino inode⦄, t.map.lookup ino = some inode → ino ≤ t.next
  named : ∀ ⦃key ino⦄, t.names.lookup key = some ino → ∃ inode, t.map.lookup ino = some inode
  inj : ∀ ⦃key key' ino⦄, t.names.lookup key = some ino →
    t.names.lookup key' = some ino → key = key'

/-- What a table holds stays as it is, and a name that is added stands for a number that is new. -/
structure Grows (t t' : InodeTable) : Prop where
  map : ∀ ⦃ino inode⦄, t.map.lookup ino = some inode → t'.map.lookup ino = some inode
  names : ∀ ⦃key ino⦄, t.names.lookup key = some ino → t'.names.lookup key = some ino
  fresh : ∀ ⦃key ino⦄, t'.names.lookup key = some ino →
    t.names.lookup key = some ino ∨ t.map.lookup ino = none

variable {t t' t'' : InodeTable} {inode : Inode} {parent : Ino} {name : Bytes}

theorem Grows.refl (t : InodeTable) : t.Grows t := ⟨fun _ _ h => h, fun _ _ h => h, fun _ _ => .inl⟩

theorem Grows.trans (h : t.Grows t') (h' : t'.Grows t'') : t.Grows t'' where
  map _ _ hino := h'.map (h.map hino)
  names _ _ hkey := h'.names (h.names hkey)
  fresh _ ino hkey := by
    rcases h'.fresh hkey with hkey | hnone
    · exact h.fresh hkey
    · refine .inr (Option.eq_none_iff_forall_ne_some.2 fun inode hino => ?_)
      rw [h.map hino] at hnone
      cases hnone

/-- The next number is not taken. -/
theorem Sound.lookup_insert (h : t.Sound) (inode : Inode) :
    t.map.lookup (t.insert inode).1 = none := by
  refine Option.eq_none_iff_forall_ne_some.2 fun inode' hino => ?_
  exact absurd (h.le_next hino) (Nat.not_succ_le_self t.next)

theorem lookup_map_insert (ino : Ino) : (t.insert inode).2.map.lookup ino =
    if ino = (t.insert inode).1 then some inode else t.map.lookup ino :=
  Dict.lookup_insert' _ _ _ _

theorem Sound.grows_insert (h : t.Sound) (inode : Inode) : t.Grows (t.insert inode).2 where
  map ino inode' hino := by
    rw [lookup_map_insert, if_neg, hino]
    rintro rfl
    rw [h.lookup_insert] at hino
    cases hino
  names _ _ hkey := hkey
  fresh _ _ hkey := .inl hkey

theorem Sound.insert (h : t.Sound) (inode : Inode) : (t.insert inode).2.Sound where
  le_next ino inode' hino := by
    rw [lookup_map_insert] at hino
    split_ifs at hino with heq
    · exact heq.le
    · exact (h.le_next hino).trans (Nat.le_succ _)
  named _ _ hkey := by
    obtain ⟨inode', hino⟩ := h.named hkey
    exact ⟨inode', (h.grows_insert inode).map hino⟩
  inj := h.inj

theorem sound_withRoot : withRoot.Sound := by
  have hempty : (⟨0, ∅, ∅⟩ : InodeTable).Sound := by
    refine ⟨fun ino inode h => ?_, fun key ino h => ?_, fun key key' ino h => ?_⟩
    all_goals cases h
  exact hempty.insert _

/-- **A name.** It is given the number that it has, or a new one. -/
theorem Sound.insertNamed (h : t.Sound) (parent : Ino) (name : Bytes) (inode : Inode) :
    (t.insertNamed parent name inode).2.Sound ∧ t.Grows (t.insertNamed parent name inode).2 ∧
      (t.insertNamed parent name inode).2.known parent name =
        some (t.insertNamed parent name inode).1 ∧
      ∀ ⦃key ino⦄, (t.insertNamed parent name inode).2.names.lookup key = some ino →
        t.names.lookup key = some ino ∨ key = (parent, name) ∧
          (t.insertNamed parent name inode).2.map.lookup ino = some inode := by
  unfold InodeTable.insertNamed
  cases hknown : t.known parent name with
  | some ino => exact ⟨h, .refl t, hknown, fun _ _ => .inl⟩
  | none =>
    dsimp only
    have hlookup : ∀ key, ((t.insert inode).2.names.insert (parent, name)
        (t.insert inode).1).lookup key =
          if key = (parent, name) then some (t.insert inode).1 else t.names.lookup key :=
      fun key => Dict.lookup_insert' _ _ key _
    have hsound := h.insert inode
    have hgrows := h.grows_insert inode
    have hnew : (t.insert inode).2.map.lookup (t.insert inode).1 = some inode := by
      rw [lookup_map_insert, if_pos rfl]
    -- A number that an old name stands for is there already, so it is not the new one.
    have hold : ∀ ⦃key ino⦄, t.names.lookup key = some ino → ino ≠ (t.insert inode).1 := by
      rintro key ino hkey rfl
      obtain ⟨inode', hino⟩ := h.named hkey
      rw [h.lookup_insert] at hino
      cases hino
    refine ⟨⟨hsound.le_next, fun key ino hkey => ?_, fun key key' ino hkey hkey' => ?_⟩,
      ⟨hgrows.map, fun key ino hkey => ?_, fun key ino hkey => ?_⟩, ?_, fun key ino hkey => ?_⟩
    · rw [hlookup] at hkey
      split_ifs at hkey
      · cases hkey
        exact ⟨inode, hnew⟩
      · exact hsound.named hkey
    · rw [hlookup] at hkey hkey'
      split_ifs at hkey hkey' with hk hk' hk'
      · rw [hk, hk']
      · cases hkey
        exact absurd rfl (hold hkey')
      · cases hkey'
        exact absurd rfl (hold hkey)
      · exact h.inj hkey hkey'
    · rw [hlookup, if_neg, hkey]
      rintro rfl
      have hnone : t.names.lookup (parent, name) = none := hknown
      rw [hkey] at hnone
      cases hnone
    · rw [hlookup] at hkey
      split_ifs at hkey
      · cases hkey
        exact .inr (h.lookup_insert inode)
      · exact .inl hkey
    · exact (hlookup _).trans (if_pos rfl)
    · rw [hlookup] at hkey
      split_ifs at hkey with hk
      · cases hkey
        exact .inr ⟨hk, hnew⟩
      · exact .inl hkey

end InodeTable

/-! ### What a name stands for -/

section Names

variable {keys : RepoKeys} (ops : UtcOps)

/-- A lookup of this name below the node meets a root whose tree cannot be read. -/
def Node.Degrades (node : Node) (w : Look keys) (name : Bytes) : Prop :=
  ∃ client snapshot, node = .client client ∧
    (w.repo 0).readSnapshotByKey ops (snapshotNameOf client name) = .ok snapshot ∧
    ∃ i root e, snapshot.roots[i]? = some root ∧
      (w.repo (i + 1)).readTreeChain root.tree = .error e

/-- The attributes that belong to a name below a node. -/
def Node.childAttr (node : Node) (name : Bytes) : Option Attr :=
  match node with
  | .root => some (.dir 0)
  | .client c => (parseKeyTimestamp ops (timestampOf (snapshotNameOf c name))).map Attr.dir
  | .syntheticDir vroot levelKey =>
    (VirtualRoot.lookup (vroot.level levelKey) name).map fun v => v.entry.elim (.dir 0) entryAttr
  | .dir entries => (lookupEntry entries name).map entryAttr
  | .file .. | .symlink _ => none

/-- **What is listed is found.** The listing of a directory of the upper levels has exactly the
names that a lookup finds in it, each as what it is. -/
theorem FsCore.listed_syntheticDir {vroot : VirtualRoot} {roots : List (Root × RootContents)}
    (h : VirtualRoot.build roots = .ok vroot) (levelKey : Bytes) (core : FsCore) (w : Look keys) :
    ∃ listing, core.listingOf w (.syntheticDir vroot levelKey) = (.ok listing, core) ∧
      ∀ d, d ∈ listing ↔
        ((Node.syntheticDir vroot levelKey).childAttr ops d.name).map Attr.kind = some d.kind := by
  refine ⟨_, rfl, fun ⟨name, kind⟩ => ?_⟩
  have hkind : ∀ v : VEntry, (v.entry.elim (Attr.dir 0) entryAttr).kind =
      v.entry.elim .dir fun e => kindOf e.kind := fun v => by cases v.entry <;> rfl
  simp only [listingOfVlevel, List.mem_map, Node.childAttr, Option.map_eq_some_iff,
    VirtualRoot.lookup_level h, DirEntryData.mk.injEq]
  constructor
  · rintro ⟨v, hv, rfl, rfl⟩
    exact ⟨_, ⟨v, ⟨hv, rfl⟩, rfl⟩, hkind v⟩
  · rintro ⟨_, ⟨v, ⟨hv, rfl⟩, rfl⟩, rfl⟩
    exact ⟨v, hv, rfl, (hkind v).symm⟩

/-- So has the listing of a directory of the snapshot, whose entries are sorted. -/
theorem FsCore.listed_dir {entries : List Entry} (h : SortedTable.Sorted Entry.name entries)
    (core : FsCore) (w : Look keys) :
    ∃ listing, core.listingOf w (.dir entries) = (.ok listing, core) ∧
      ∀ d, d ∈ listing ↔
        ((Node.dir entries).childAttr ops d.name).map Attr.kind = some d.kind := by
  refine ⟨_, rfl, fun ⟨name, kind⟩ => ?_⟩
  simp only [List.mem_map, dirEntryData, Node.childAttr, lookupEntry, Option.map_eq_some_iff,
    SortedTable.find_eq_some_iff Entry.name h, DirEntryData.mk.injEq]
  constructor
  · rintro ⟨e, he, rfl, rfl⟩
    exact ⟨_, ⟨e, ⟨he, rfl⟩, rfl⟩, rfl⟩
  · rintro ⟨_, ⟨e, ⟨he, rfl⟩, rfl⟩, rfl⟩
    exact ⟨e, he, rfl, rfl⟩

/-- What a lookup of the name below the node reads where every tree of a root can be read. -/
def Node.Shows (keys : RepoKeys) (node : Node) (name : Bytes) (inode : Inode) : Prop :=
  ∃ (core : FsCore) (w : Look keys) (parent : Ino) (p : PendingLookup),
    (core.node parent).map Inode.node = some node ∧
      (core.lookupRead ops w parent name).1 = .pending p ∧ ¬node.Degrades ops w name ∧
      p.inode = inode

variable {ops}

theorem Node.not_degrades {node : Node} (h : ∀ client, node ≠ .client client) (w : Look keys)
    (name : Bytes) : ¬node.Degrades ops w name := by
  rintro ⟨client, snapshot, rfl, -⟩
  exact h client rfl

/-- Whether the loop over the roots has met a tree that cannot be read. -/
theorem readRoots_degraded {w : Look keys} : ∀ {roots : List Root} {n : ℕ}
    {pairs : List (Root × RootContents)} {degraded : Bool},
      readRoots w n roots = .ok (pairs, degraded) →
        (degraded = true ↔ ∃ i root e, roots[i]? = some root ∧
          (w.repo (i + n)).readTreeChain root.tree = .error e)
  | [], n, pairs, degraded, h => by
    cases h
    exact iff_of_false Bool.false_ne_true fun ⟨i, root, e, hroot, _⟩ => by cases hroot
  | root :: roots, n, pairs, degraded, h => by
    unfold readRoots at h
    cases hcomps : locatorComponents root.path with
    | error e =>
      rw [hcomps] at h
      cases h
    | ok comps =>
      rw [hcomps] at h
      obtain ⟨⟨rest, more⟩, hrest, h⟩ := Checked.bind_eq_ok.1 h
      have ih := readRoots_degraded hrest
      cases h
      rw [Bool.or_eq_true, ih]
      constructor
      · rintro (hfirst | ⟨i, root', e, hroot, he⟩)
        · cases hread : (w.repo n).readTreeChain root.tree with
          | error e => exact ⟨0, root, e, rfl, by rw [Nat.zero_add, hread]⟩
          | ok entries =>
            rw [hread] at hfirst
            cases hfirst
        · refine ⟨i + 1, root', e, hroot, ?_⟩
          rwa [Nat.add_right_comm]
      · rintro ⟨_ | i, root', e, hroot, he⟩
        · cases hroot
          rw [Nat.zero_add] at he
          exact .inl (by rw [he])
        · exact .inr ⟨i, root', e, hroot, by rwa [Nat.add_right_comm] at he⟩

/-- A snapshot that was read has the time of its name. -/
theorem timeNs_of_readSnapshotByKey {repo : Repository} {name : List Char} {snapshot : Snapshot}
    (h : repo.readSnapshotByKey ops name = .ok snapshot) :
    parseKeyTimestamp ops (timestampOf name) = some snapshot.timeNs := by
  unfold Repository.readSnapshotByKey at h
  split at h
  · cases h
  · split at h
    · cases h
    · cases h
    · next snapshot' hread =>
      cases hbelongs : belongsUnder ops name snapshot' with
      | error e =>
        rw [hbelongs] at h
        cases h
      | ok u =>
        rw [hbelongs] at h
        cases h
        unfold belongsUnder at hbelongs
        cases htime : parseKeyTimestamp ops (timestampOf name) with
        | none =>
          rw [htime] at hbelongs
          cases hbelongs
        | some t =>
          rw [htime] at hbelongs
          dsimp only at hbelongs
          split_ifs at hbelongs with hrange hbad
          rw [not_or, not_or, not_not] at hbad
          rw [not_not.1 hbad.2.2]

/-- The case of the directory of a client. -/
theorem lookupSnapshot_ok {w : Look keys} {client : List Char} {parent : Ino} {name : Bytes}
    {p : PendingLookup} (h : lookupSnapshot ops w client parent name = .ok p) :
    p.parent = parent ∧ p.name = name ∧
      (Node.client client).childAttr ops name = some p.inode.attr ∧
      (p.degraded = true ↔ (Node.client client).Degrades ops w name) := by
  unfold lookupSnapshot at h
  split_ifs at h
  obtain ⟨snapshot, hsnapshot, h⟩ := Checked.bind_eq_ok.1 h
  obtain ⟨⟨pairs, degraded⟩, hroots, h⟩ := Checked.bind_eq_ok.1 h
  dsimp only at h
  cases hbuild : VirtualRoot.build pairs with
  | error e =>
    rw [hbuild] at h
    cases h
  | ok vroot =>
    rw [hbuild] at h
    cases h
    refine ⟨rfl, rfl, ?_, ?_⟩
    · rw [Node.childAttr, timeNs_of_readSnapshotByKey hsnapshot, Option.map_some]
    · rw [readRoots_degraded hroots]
      constructor
      · exact fun hex => ⟨client, snapshot, rfl, hsnapshot, hex⟩
      · rintro ⟨client', snapshot', hclient, hsnapshot', hex⟩
        cases hclient
        have heq : Except.ok snapshot = Except.ok snapshot' := hsnapshot.symm.trans hsnapshot'
        cases heq
        exact hex

end Names

namespace FsCore

variable {keys : RepoKeys} {ops : UtcOps} {core : FsCore}

/-! ### What leaves the table alone -/

/-- Browsing may load the index anew, and changes neither the table nor what reads have left. -/
structure Browses (w : Look keys) (core core' : FsCore) : Prop where
  inodes : core'.inodes = core.inodes
  lru : core'.lru = core.lru
  resolved : core'.resolved = core.resolved
  index : core'.index.index = core.index.index ∨ w.fresh = .ok core'.index.index

theorem Browses.refl (w : Look keys) (core : FsCore) : core.Browses w core :=
  ⟨rfl, rfl, rfl, .inl rfl⟩

theorem browses_refreshIfUnseen (core : FsCore) (w : Look keys) (names : List (List Char)) :
    core.Browses w (core.refreshIfUnseen w names) := by
  unfold refreshIfUnseen
  dsimp only
  split_ifs
  · exact .refl w core
  · split
    · next index h => exact ⟨rfl, rfl, rfl, .inr h⟩
    · exact ⟨rfl, rfl, rfl, .inl rfl⟩
  · exact ⟨rfl, rfl, rfl, .inl rfl⟩

theorem browses_snapshotKeysFor (core : FsCore) (w : Look keys) (c : Option (List Char)) :
    core.Browses w (core.snapshotKeysFor w c).2 := by
  unfold snapshotKeysFor
  cases w.listing with
  | none => exact .refl w core
  | some listing => exact core.browses_refreshIfUnseen w _

theorem browses_listClients (core : FsCore) (w : Look keys) :
    core.Browses w (core.listClients w).2 := by
  have h := core.browses_snapshotKeysFor w none
  unfold listClients
  rcases hs : core.snapshotKeysFor w none with ⟨_ | names, core'⟩
  all_goals
    rw [hs] at h
    exact h

theorem browses_listingOf (core : FsCore) (w : Look keys) (node : Node) :
    core.Browses w (core.listingOf w node).2 := by
  cases node with
  | root =>
    have h := core.browses_listClients w
    unfold listingOf
    rcases hs : core.listClients w with ⟨_ | names, core'⟩
    all_goals
      rw [hs] at h
      exact h
  | client c =>
    have h := core.browses_snapshotKeysFor w (some c)
    unfold listingOf
    dsimp only
    rcases hs : core.snapshotKeysFor w (some c) with ⟨_ | names, core'⟩
    all_goals
      rw [hs] at h
      exact h
  | syntheticDir | dir | file | symlink => exact .refl w core

theorem browses_opendir (core : FsCore) (w : Look keys) (ino : Ino) :
    core.Browses w (core.opendir w ino).2 := by
  unfold opendir
  cases core.node ino with
  | none => exact .refl w core
  | some inode =>
    have h := core.browses_listingOf w inode.node
    dsimp only
    rcases hs : core.listingOf w inode.node with ⟨_ | listing, core'⟩
    all_goals rw [hs] at h
    · exact h
    · exact ⟨h.inodes, h.lru, h.resolved, h.index⟩

theorem browses_lookupRead (core : FsCore) (w : Look keys) (parent : Ino) (name : Bytes) :
    core.Browses w (core.lookupRead ops w parent name).2 := by
  unfold lookupRead
  split
  · exact .refl w core
  · split
    · split
      · exact .refl w core
      · have h := core.browses_listClients w
        rcases hs : core.listClients w with ⟨_ | clients, core'⟩
        · rw [hs] at h
          exact h
        · rw [hs] at h
          dsimp only
          split_ifs
          · exact h
          · exact h
    · split <;> exact .refl w core
    · split <;> exact .refl w core
    · split <;> exact .refl w core
    · exact .refl w core
    · exact .refl w core

@[simp] theorem inodes_after (core : FsCore) (events : List Meanwhile) :
    (core.after keys events).inodes = core.inodes := by
  induction events generalizing core with
  | nil => rfl
  | cons event events ih =>
    refine (ih (core.meanwhile keys event)).trans ?_
    cases event <;> rfl

@[simp] theorem inodes_chunkOf (core : FsCore) (w : Look keys) (n : ℕ) (id : ChunkId) :
    (core.chunkOf w n id).2.inodes = core.inodes := by
  have h := @inodes_after keys core (w.meanwhile (2 * n))
  unfold chunkOf
  dsimp only
  split
  · exact h
  · split
    · exact h
    · exact (inodes_after _ _).trans h

@[simp] theorem inodes_readLoop (w : Look keys) (r : ResolvedFile) (stop pos n : ℕ) (buf : Bytes)
    (core : FsCore) : (readLoop w r stop pos n buf core).2.inodes = core.inodes := by
  have hchunk : ∀ {core core' : FsCore} {n : ℕ} {id : ChunkId} {x : Except ReadStop Bytes},
      core.chunkOf w n id = (x, core') → core'.inodes = core.inodes :=
        fun {core} {_} {n} {id} _ h =>
    (congrArg (fun x => x.2.inodes) h).symm.trans (core.inodes_chunkOf w n id)
  fun_induction readLoop w r stop pos n buf core with
  | case1 | case2 | case3 | case8 => rfl
  | case4 pos n buf core hlt i inChunk hl id hid e core' h => exact hchunk h
  | case5 pos n buf core hlt i inChunk hl id hid data core' h => exact hchunk h
  | case6 pos n buf core hlt i inChunk hl id hid data core' h => exact hchunk h
  | case7 pos n buf core hlt i inChunk hl id hid data core' h avail take ht piece hp ih =>
    exact ih.trans (hchunk h)

@[simp] theorem inodes_readAt (core : FsCore) (w : Look keys) (r : ResolvedFile)
    (offset size : ℕ) : (core.readAt w r offset size).2.inodes = core.inodes := by
  unfold readAt
  dsimp only
  split_ifs
  · rfl
  · exact inodes_readLoop w r _ _ _ _ core

@[simp] theorem inodes_resolveFile (core : FsCore) (w : Look keys) (chunks : List ChunkId)
    (content : ContentType) : (core.resolveFile w chunks content).2.inodes = core.inodes := by
  unfold resolveFile
  split
  · rfl
  · split <;> rfl

@[simp] theorem inodes_readFile (core : FsCore) (w : Look keys) (ino : Ino) (offset size : ℕ) :
    (core.readFile w ino offset size).2.inodes = core.inodes := by
  unfold readFile
  cases core.node ino with
  | none => rfl
  | some inode =>
    dsimp only
    cases inode.node with
    | file chunks content =>
      dsimp only
      cases core.resolved.lookup ino with
      | some r => exact core.inodes_readAt w r offset size
      | none =>
        have h := core.inodes_resolveFile w chunks content
        rcases hr : core.resolveFile w chunks content with ⟨e | r, core'⟩
        all_goals rw [hr] at h
        · exact h
        · exact (inodes_readAt _ w _ _ _).trans h
    | root | client | syntheticDir | dir | symlink => rfl

end FsCore

/-! ### A lookup -/

section Lookups

variable {keys : RepoKeys} (ops : UtcOps)

/-- What the first half of a lookup comes to has the attributes of its name, and says whether the
tree of a root could not be read. -/
def FsCore.Reads (core : FsCore) (w : Look keys) (parent : Ino) (name : Bytes) :
    LookupRead → Prop
  | .failed _ => True
  | .known reply => ∃ dir, core.node parent = some dir ∧
      core.inodes.known parent name = some reply.ino ∧
      dir.node.childAttr ops name = some reply.attr ∧ ¬dir.node.Degrades ops w name
  | .pending p => p.parent = parent ∧ p.name = name ∧ ∃ dir, core.node parent = some dir ∧
      dir.node.childAttr ops name = some p.inode.attr ∧
      (p.degraded = true ↔ dir.node.Degrades ops w name)

variable {ops}

theorem FsCore.reads_realInode {core : FsCore} {w : Look keys} {parent : Ino} {name : Bytes}
    {dir : Inode} {e : Entry} (hdir : core.node parent = some dir)
    (hclient : ∀ c, dir.node ≠ .client c) (he : dir.node.childAttr ops name = some (entryAttr e)) :
    core.Reads ops w parent name (core.realInode w parent name e) := by
  have hnot := @Node.not_degrades keys ops _ hclient w name
  unfold realInode
  cases hknown : core.inodes.known parent name with
  | some ino => exact ⟨dir, hdir, hknown, he, hnot⟩
  | none =>
    dsimp only
    cases realNode w e with
    | error err => trivial
    | ok node => exact ⟨rfl, rfl, dir, hdir, he, iff_of_false Bool.false_ne_true hnot⟩

/-- **The first half of a lookup.** -/
theorem FsCore.reads_lookupRead (core : FsCore) (w : Look keys) (parent : Ino) (name : Bytes) :
    core.Reads ops w parent name (core.lookupRead ops w parent name).1 := by
  unfold lookupRead
  cases hdir : core.node parent with
  | none => trivial
  | some dir =>
    dsimp only
    cases hnode : dir.node with
    | root =>
      have hclient : ∀ c, dir.node ≠ .client c := fun c h => by rw [hnode] at h; cases h
      dsimp only
      cases fromUtf8 name with
      | none => trivial
      | some c =>
        dsimp only
        rcases hs : core.listClients w with ⟨_ | clients, core'⟩
        · trivial
        · dsimp only
          split_ifs
          · exact ⟨rfl, rfl, dir, hdir, by rw [hnode]; rfl,
              iff_of_false Bool.false_ne_true (Node.not_degrades hclient w name)⟩
          · trivial
    -- only below a client can a lookup be degraded
    | client c =>
      dsimp only
      cases hs : lookupSnapshot ops w c parent name with
      | error e => trivial
      | ok p =>
        obtain ⟨hparent, hname, hattr, hdegraded⟩ := lookupSnapshot_ok hs
        refine ⟨hparent, hname, dir, hdir, ?_⟩
        rw [hnode]
        exact ⟨hattr, hdegraded⟩
    | syntheticDir vroot levelKey =>
      have hclient : ∀ c, dir.node ≠ .client c := fun c h => by rw [hnode] at h; cases h
      dsimp only
      cases hv : VirtualRoot.lookup (vroot.level levelKey) name with
      | none => trivial
      | some v =>
        have hattr : dir.node.childAttr ops name = some (v.entry.elim (.dir 0) entryAttr) := by
          rw [hnode, Node.childAttr, hv, Option.map_some]
        cases v with
        | synthetic name' =>
          exact ⟨rfl, rfl, dir, hdir, hattr,
            iff_of_false Bool.false_ne_true (Node.not_degrades hclient w name)⟩
        | real e => exact reads_realInode hdir hclient hattr
    | dir entries =>
      have hclient : ∀ c, dir.node ≠ .client c := fun c h => by rw [hnode] at h; cases h
      dsimp only
      cases he : lookupEntry entries name with
      | none => trivial
      | some e =>
        refine reads_realInode hdir hclient ?_
        rw [hnode, Node.childAttr, he, Option.map_some]
    | file | symlink => trivial

/-- What is read below a node has the attributes of its name. -/
theorem Node.Shows.attr {node : Node} {name : Bytes} {inode : Inode}
    (h : node.Shows ops keys name inode) : node.childAttr ops name = some inode.attr := by
  obtain ⟨core, w, parent, p, hnode, hread, -, rfl⟩ := h
  have hreads := @FsCore.reads_lookupRead keys ops core w parent name
  rw [hread] at hreads
  obtain ⟨-, -, dir, hdir, hattr, -⟩ := hreads
  rw [hdir, Option.map_some] at hnode
  cases hnode
  exact hattr

end Lookups

/-! ### Sessions -/

section Sessions

variable {keys : RepoKeys} (ops : UtcOps)

/-- The lookup of a reply met a root whose tree could not be read. -/
def Given.Degraded (core : FsCore) (g : Given keys) : Prop :=
  ∃ dir, core.node g.parent = some dir ∧ dir.node.Degrades ops g.look g.name

/-- A reply is what the table says, and its number stands for its name unless it is degraded. -/
structure FsCore.Stands (core : FsCore) (g : Given keys) : Prop where
  parent : ∃ dir, core.node g.parent = some dir
  ino : ∃ inode, core.node g.reply.ino = some inode ∧ inode.attr = g.reply.attr
  named : ¬g.Degraded ops core → core.inodes.known g.parent g.name = some g.reply.ino
  nameless : g.Degraded ops core → ∀ key, core.inodes.names.lookup key ≠ some g.reply.ino

/-- What a name stands for is what is read under this name below the node of its directory. -/
def FsCore.Shows (keys : RepoKeys) (core : FsCore) : Prop :=
  ∀ ⦃parent name ino⦄, core.inodes.names.lookup (parent, name) = some ino →
    ∃ dir inode, core.node parent = some dir ∧ core.node ino = some inode ∧
      dir.node.Shows ops keys name inode

/-- A lookup that is under way has read what belongs to its name. -/
def FsCore.Expects (core : FsCore) (w : Look keys) (p : PendingLookup) : Prop :=
  ∃ dir, core.node p.parent = some dir ∧ dir.node.childAttr ops p.name = some p.inode.attr ∧
    (p.degraded = true ↔ dir.node.Degrades ops w p.name) ∧
    (p.degraded = false → dir.node.Shows ops keys p.name p.inode)

/-- What holds of every session. -/
structure Session.Sound (s : Session keys) : Prop where
  table : s.core.inodes.Sound
  shows : s.core.Shows ops keys
  waiting : ∀ x ∈ s.waiting, s.core.Expects ops x.1 x.2
  given : ∀ g ∈ s.given, s.core.Stands ops g
  distinct : s.given.Pairwise fun g g' => g.reply.ino = g'.reply.ino →
    ¬g.Degraded ops s.core ∧ ¬g'.Degraded ops s.core

variable {ops} {core core' : FsCore} {g : Given keys}

theorem FsCore.node_grows (hgrows : core.inodes.Grows core'.inodes) {ino : Ino} {inode : Inode}
    (h : core.node ino = some inode) : core'.node ino = some inode := hgrows.map h

/-- Whether a reply is degraded does not change. -/
theorem Given.degraded_grows (hgrows : core.inodes.Grows core'.inodes)
    (h : ∃ dir, core.node g.parent = some dir) :
    g.Degraded ops core' ↔ g.Degraded ops core := by
  obtain ⟨dir, hdir⟩ := h
  have hdir' := FsCore.node_grows hgrows hdir
  unfold Given.Degraded
  rw [hdir, hdir']

/-- What was given out goes on standing. -/
theorem FsCore.Stands.mono (h : core.Stands ops g) (hgrows : core.inodes.Grows core'.inodes) :
    core'.Stands ops g where
  parent := h.parent.imp fun _ => node_grows hgrows
  ino := h.ino.imp fun _ hino => ⟨node_grows hgrows hino.1, hino.2⟩
  named hnot := hgrows.names (h.named fun hd => hnot ((Given.degraded_grows hgrows h.parent).2 hd))
  nameless hd key hkey := by
    rcases hgrows.fresh hkey with hkey | hnone
    · exact h.nameless ((Given.degraded_grows hgrows h.parent).1 hd) key hkey
    · obtain ⟨inode, hino, -⟩ := h.ino
      rw [FsCore.node, hnone] at hino
      cases hino

theorem FsCore.Expects.mono {w : Look keys} {p : PendingLookup} (h : core.Expects ops w p)
    (hgrows : core.inodes.Grows core'.inodes) : core'.Expects ops w p :=
  h.imp fun _ hp => ⟨node_grows hgrows hp.1, hp.2⟩

/-- A session of which only the table and the waiting lookups change. -/
theorem Session.Sound.mono {s s' : Session keys} (h : s.Sound ops)
    (hgrows : s.core.inodes.Grows s'.core.inodes) (htable : s'.core.inodes.Sound)
    (hshows : s'.core.Shows ops keys) (hwaiting : ∀ x ∈ s'.waiting, s'.core.Expects ops x.1 x.2)
    (hgiven : s'.given = s.given) : s'.Sound ops where
  table := htable
  shows := hshows
  waiting := hwaiting
  given g hg := (h.given g (hgiven ▸ hg)).mono hgrows
  distinct := by
    rw [hgiven]
    refine h.distinct.imp_of_mem fun {g g'} hg hg' hne heq => ?_
    rw [Given.degraded_grows hgrows (h.given g hg).parent,
      Given.degraded_grows hgrows (h.given g' hg').parent]
    exact hne heq

/-- A reply is given. -/
theorem Session.Sound.give {s : Session keys} (h : s.Sound ops)
    (hgrows : s.core.inodes.Grows core'.inodes) (htable : core'.inodes.Sound)
    (hshows : core'.Shows ops keys) {waiting : List (Look keys × PendingLookup)}
    (hwaiting : ∀ x ∈ waiting, core'.Expects ops x.1 x.2) (hstands : core'.Stands ops g)
    (hnew : g.Degraded ops core' → s.core.node g.reply.ino = none) :
    (⟨core', waiting, s.given ++ [g]⟩ : Session keys).Sound ops := by
  have hkeep : (⟨core', waiting, s.given⟩ : Session keys).Sound ops :=
    h.mono hgrows htable hshows hwaiting rfl
  refine ⟨htable, hshows, hwaiting, ?_, ?_⟩
  · rw [List.forall_mem_append, List.forall_mem_singleton]
    exact ⟨hkeep.given, hstands⟩
  · refine List.pairwise_append.2 ⟨hkeep.distinct, List.pairwise_singleton _ _, ?_⟩
    intro g₀ hg₀ g' hg' heq
    rw [List.mem_singleton.1 hg'] at heq ⊢
    have hnot : ¬g.Degraded ops core' := fun hd => by
      obtain ⟨inode, hino, -⟩ := (h.given g₀ hg₀).ino
      rw [heq, hnew hd] at hino
      cases hino
    refine ⟨fun hd => ?_, hnot⟩
    have hnamed := hstands.named hnot
    rw [← heq] at hnamed
    exact (hkeep.given g₀ hg₀).nameless hd _ hnamed

/-- A state with the same table. -/
theorem Session.Sound.same {s s' : Session keys} (h : s.Sound ops)
    (hinodes : s'.core.inodes = s.core.inodes) (hwaiting : s'.waiting = s.waiting)
    (hgiven : s'.given = s.given) : s'.Sound ops := by
  have hgrows : s.core.inodes.Grows s'.core.inodes := hinodes ▸ .refl _
  refine h.mono hgrows (hinodes ▸ h.table) ?_ ?_ hgiven
  · intro parent name ino hkey
    rw [hinodes] at hkey
    obtain ⟨dir, inode, hdir, hino, hshows⟩ := h.shows hkey
    exact ⟨dir, inode, FsCore.node_grows hgrows hdir, FsCore.node_grows hgrows hino, hshows⟩
  · rw [hwaiting]
    exact fun x hx => (h.waiting x hx).mono hgrows

/-- **The end of a lookup.** -/
theorem Session.Sound.enter {s : Session keys} (h : s.Sound ops) {w : Look keys} {p : PendingLookup}
    (hp : s.core.Expects ops w p) {waiting : List (Look keys × PendingLookup)}
    (hwaiting : ∀ x ∈ waiting, s.core.Expects ops x.1 x.2) :
    (⟨(s.core.lookupEnter p).2, waiting,
      s.given ++ [⟨w, p.parent, p.name, (s.core.lookupEnter p).1⟩]⟩ : Session keys).Sound ops := by
  obtain ⟨dir, hdir, hattr, hdegraded, hread⟩ := hp
  cases hd : p.degraded with
  | true =>
    -- a degraded reply gets a number of its own, under no name
    -- any other one is entered under its name, which may have a number by now
    have hinodes : (s.core.lookupEnter p).2.inodes = (s.core.inodes.insert p.inode).2 := by
      rw [FsCore.lookupEnter, hd]
      rfl
    have hino : (s.core.lookupEnter p).1 =
        ⟨(s.core.inodes.insert p.inode).1, p.inode.attr, ttlOf p.inode.isVolatile⟩ := by
      rw [FsCore.lookupEnter, hd]
      rfl
    have hgrows : s.core.inodes.Grows (s.core.lookupEnter p).2.inodes := by
      rw [hinodes]
      exact h.table.grows_insert _
    have hnew := h.table.lookup_insert p.inode
    have hdir' := FsCore.node_grows hgrows hdir
    refine h.give hgrows (hinodes ▸ h.table.insert _) ?_ (fun x hx => (hwaiting x hx).mono hgrows)
      ⟨⟨dir, hdir'⟩, ⟨p.inode, ?_, ?_⟩, ?_, ?_⟩ fun _ => ?_
    · intro parent name ino hkey
      rw [hinodes] at hkey
      obtain ⟨dir', inode, hdir', hino', hshows⟩ := h.shows hkey
      exact ⟨dir', inode, FsCore.node_grows hgrows hdir', FsCore.node_grows hgrows hino', hshows⟩
    · rw [hino, FsCore.node, hinodes, InodeTable.lookup_map_insert, if_pos rfl]
    · rw [hino]
    · exact fun hnot => absurd ⟨dir, hdir', hdegraded.1 hd⟩ hnot
    · intro _ key hkey
      rw [hinodes, hino] at hkey
      obtain ⟨inode, hino'⟩ := h.table.named hkey
      rw [hnew] at hino'
      cases hino'
    · rw [hino]
      exact hnew
  | false =>
    have hinodes : (s.core.lookupEnter p).2.inodes =
        (s.core.inodes.insertNamed p.parent p.name p.inode).2 := by
      rw [FsCore.lookupEnter, hd]
      rfl
    have hino : (s.core.lookupEnter p).1 =
        ⟨(s.core.inodes.insertNamed p.parent p.name p.inode).1, p.inode.attr,
          ttlOf p.inode.isVolatile⟩ := by
      rw [FsCore.lookupEnter, hd]
      rfl
    obtain ⟨htable, hgrows, hknown, hadded⟩ := h.table.insertNamed p.parent p.name p.inode
    rw [← hinodes] at htable hgrows hknown hadded
    have hdir' := FsCore.node_grows hgrows hdir
    have hshows : (s.core.lookupEnter p).2.Shows ops keys := by
      intro parent name ino hkey
      rcases hadded hkey with hkey | ⟨hname, hmap⟩
      · obtain ⟨dir', inode, hdir', hino', hshows⟩ := h.shows hkey
        exact ⟨dir', inode, FsCore.node_grows hgrows hdir', FsCore.node_grows hgrows hino', hshows⟩
      · cases hname
        exact ⟨dir, p.inode, hdir', hmap, hread hd⟩
    have hnot : ¬(⟨w, p.parent, p.name, (s.core.lookupEnter p).1⟩ : Given keys).Degraded ops
        (s.core.lookupEnter p).2 := by
      rintro ⟨dir', hdir'', hdeg⟩
      cases hdir'.symm.trans hdir''
      rw [hdegraded.2 hdeg] at hd
      cases hd
    obtain ⟨dir₁, inode, hdir₁, hino', hshown⟩ := hshows hknown
    refine h.give hgrows htable hshows (fun x hx => (hwaiting x hx).mono hgrows)
      ⟨⟨dir, hdir'⟩, ⟨inode, ?_, ?_⟩, ?_, fun hdeg => absurd hdeg hnot⟩ fun hdeg => absurd hdeg hnot
    · rw [hino]
      exact hino'
    · cases hdir'.symm.trans hdir₁
      have hsame := hshown.attr
      rw [hattr] at hsame
      rw [hino]
      exact (Option.some.inj hsame).symm
    · intro _
      rw [hino]
      exact hknown

/-- **A request.** -/
theorem Session.Sound.step {s : Session keys} (h : s.Sound ops) (request : Request keys) :
    (s.step ops request).Sound ops := by
  cases request with
  | lookup w parent name =>
    have hinodes := (@FsCore.browses_lookupRead keys ops s.core w parent name).inodes
    have hreads := @FsCore.reads_lookupRead keys ops s.core w parent name
    unfold Session.step
    dsimp only
    rcases hr : s.core.lookupRead ops w parent name with ⟨e | reply | p, core'⟩
    -- an error, an answer from the table, or a lookup that waits to be entered
    all_goals
      rw [hr] at hinodes hreads
      have hsame : s.core.inodes.Grows core'.inodes := hinodes ▸ .refl _
    · exact h.same hinodes rfl rfl
    · obtain ⟨dir, hdir, hknown, hattr, hnot⟩ := hreads
      have hcore : (⟨core', s.waiting, s.given⟩ : Session keys).Sound ops := h.same hinodes rfl rfl
      obtain ⟨dir', inode, hdir', hino, hshows⟩ := h.shows hknown
      cases hdir.symm.trans hdir'
      have hundegraded : ¬(⟨w, parent, name, reply⟩ : Given keys).Degraded ops core' := by
        rintro ⟨dir', hdir', hdeg⟩
        cases (FsCore.node_grows hsame hdir).symm.trans hdir'
        exact hnot hdeg
      refine h.give hsame hcore.table hcore.shows hcore.waiting
        ⟨⟨dir, FsCore.node_grows hsame hdir⟩, ⟨inode, FsCore.node_grows hsame hino, ?_⟩, ?_,
          fun hdeg => absurd hdeg hundegraded⟩ fun hdeg => absurd hdeg hundegraded
      · have hsame := hshows.attr
        rw [hattr] at hsame
        exact (Option.some.inj hsame).symm
      · exact fun _ => hsame.names hknown
    · obtain ⟨hparent, hname, dir, hdir, hattr, hdegraded⟩ := hreads
      have hcore : (⟨core', s.waiting, s.given⟩ : Session keys).Sound ops := h.same hinodes rfl rfl
      refine h.mono hsame hcore.table hcore.shows ?_ rfl
      rw [List.forall_mem_append, List.forall_mem_singleton]
      subst hparent hname
      refine ⟨hcore.waiting, dir, FsCore.node_grows hsame hdir, hattr, hdegraded, fun hd => ?_⟩
      refine ⟨s.core, w, p.parent, p, ?_, by rw [hr], fun hdeg => ?_, rfl⟩
      · rw [hdir, Option.map_some]
      · rw [hdegraded.2 hdeg] at hd
        cases hd
  | enter i =>
    unfold Session.step
    dsimp only
    cases hi : s.waiting[i]? with
    | none => exact h
    | some x =>
      exact h.enter (h.waiting x (List.mem_of_getElem? hi)) fun y hy =>
        h.waiting y (List.mem_of_mem_eraseIdx hy)
  | opendir w ino => exact h.same (s.core.browses_opendir w ino).inodes rfl rfl
  | releasedir fh => exact h.same rfl rfl rfl
  | read w ino offset size => exact h.same (s.core.inodes_readFile w ino offset size) rfl rfl

theorem Session.sound_new (index : ChunkIndex) (chunkCache : ℕ) :
    (Session.new index chunkCache : Session keys).Sound ops where
  table := InodeTable.sound_withRoot
  shows _ _ _ h := by cases h
  waiting := List.forall_mem_nil _
  given := List.forall_mem_nil _
  distinct := .nil

/-- The end of a lookup adds to the table. -/
theorem FsCore.grows_lookupEnter (h : core.inodes.Sound) (p : PendingLookup) :
    core.inodes.Grows (core.lookupEnter p).2.inodes := by
  unfold lookupEnter
  dsimp only
  cases p.degraded with
  | true => exact h.grows_insert _
  | false => exact (h.insertNamed _ _ _).2.1

theorem Session.grows_step {s : Session keys} (h : s.Sound ops) (request : Request keys) :
    s.core.inodes.Grows (s.step ops request).core.inodes := by
  have hsame : ∀ {t : InodeTable}, t = s.core.inodes → s.core.inodes.Grows t := fun heq =>
    heq ▸ .refl _
  cases request with
  | lookup w parent name =>
    have hinodes := (@FsCore.browses_lookupRead keys ops s.core w parent name).inodes
    unfold Session.step
    dsimp only
    rcases hr : s.core.lookupRead ops w parent name with ⟨e | reply | p, core'⟩
    all_goals
      rw [hr] at hinodes
      exact hsame hinodes
  | enter i =>
    unfold Session.step
    dsimp only
    cases s.waiting[i]? with
    | none => exact .refl _
    | some x => exact FsCore.grows_lookupEnter h.table x.2
  | opendir w ino => exact hsame (s.core.browses_opendir w ino).inodes
  | releasedir fh => exact .refl _
  | read w ino offset size => exact hsame (s.core.inodes_readFile w ino offset size)

/-- **A run.** What is true of the replies stays true, and the table has grown. -/
theorem Session.Sound.run {s : Session keys} (h : s.Sound ops) (requests : List (Request keys)) :
    (s.run ops requests).Sound ops ∧ s.core.inodes.Grows (s.run ops requests).core.inodes :=
  Session.run_induction (P := fun s' => s'.Sound ops ∧ s.core.inodes.Grows s'.core.inodes)
    (fun _ request hs' => ⟨hs'.1.step request, hs'.2.trans (Session.grows_step hs'.1 request)⟩)
    requests ⟨h, .refl _⟩

/-- **What is said of an inode stays.** Whatever comes between, a number that is known is answered
as before: its attributes, the target of a symlink, and the extended attributes. -/
theorem Session.answers_stay {s : Session keys} (h : s.Sound ops) (requests : List (Request keys))
    {ino : Ino} {inode : Inode} (hino : s.core.node ino = some inode) :
    (s.run ops requests).core.getattr ino = s.core.getattr ino ∧
      (s.run ops requests).core.readlink ino = s.core.readlink ino ∧
      (∀ name, (s.run ops requests).core.getXattr ino name = s.core.getXattr ino name) ∧
      (s.run ops requests).core.listXattrs ino = s.core.listXattrs ino := by
  have hstays : (s.run ops requests).core.node ino = some inode :=
    FsCore.node_grows (h.run requests).2 hino
  simp only [FsCore.getattr, FsCore.readlink, FsCore.getXattr, FsCore.listXattrs, hino, hstays,
    implies_true, and_self]

/-- **Pages.** Two pages of a listing that follow each other are one page, and a page that is long
enough is the whole listing: read page by page, each entry comes once. -/
theorem FsCore.readdir_pages {core : FsCore} {fh : ℕ} {listing : List DirEntryData}
    (h : core.listings.lookup fh = some listing) (offset m n : ℕ) :
    core.readdir fh offset (m + n) =
        .ok (((core.readdir fh offset m).toOption.getD []) ++
          ((core.readdir fh (offset + m) n).toOption.getD [])) ∧
      (listing.length ≤ n → core.readdir fh 0 n = .ok listing) := by
  simp only [FsCore.readdir, h, Except.toOption, Option.getD_some, List.take_add, List.drop_drop]
  exact ⟨trivial, fun hlen => congrArg Except.ok (List.take_of_length_le hlen)⟩

/-- A lookup with nothing between its halves is a request and the end of it. -/
theorem FsCore.lookup_eq_run (s : Session keys) (w : Look keys) (parent : Ino) (name : Bytes) :
    (s.core.lookup ops w parent name).2 =
      (s.run ops [.lookup w parent name, .enter s.waiting.length]).core := by
  have hnone : s.waiting[s.waiting.length]? = none := List.getElem?_eq_none le_rfl
  simp only [Session.run, List.foldl_cons, List.foldl_nil, Session.step, FsCore.lookup]
  rcases s.core.lookupRead ops w parent name with ⟨e | reply | p, core'⟩
  · dsimp only
    rw [hnone]
  · dsimp only
    rw [hnone]
  · dsimp only
    rw [List.getElem?_append_right le_rfl, Nat.sub_self]
    rfl

/-! ### The identity of inodes -/

/-- Numbers as the replies of a session give them out.

* `attr`: a number has the attributes with which it was given out.
* `name`: a number stands for one name in one directory.
* `again`: a name has one number, except where a tree could not be read.
* `apart`: a number given out where a tree could not be read is given out once.
* `shown`: any other number stands for what is read where every tree can be read. -/
structure Session.Identified (ops : UtcOps) (s : Session keys) : Prop where
  attr : ∀ g ∈ s.given, ∃ ttl, s.core.getattr g.reply.ino = .ok (g.reply.attr, ttl)
  name : ∀ g ∈ s.given, ∀ g' ∈ s.given, g.reply.ino = g'.reply.ino →
    g.parent = g'.parent ∧ g.name = g'.name
  again : ∀ g ∈ s.given, ∀ g' ∈ s.given, g.parent = g'.parent → g.name = g'.name →
    ¬g.Degraded ops s.core → ¬g'.Degraded ops s.core → g.reply.ino = g'.reply.ino
  apart : s.given.Pairwise fun g g' => g.Degraded ops s.core ∨ g'.Degraded ops s.core →
    g.reply.ino ≠ g'.reply.ino
  shown : ∀ g ∈ s.given, ¬g.Degraded ops s.core → ∃ dir inode, s.core.node g.parent = some dir ∧
    s.core.node g.reply.ino = some inode ∧ dir.node.Shows ops keys g.name inode

theorem Session.Sound.identified {s : Session keys} (h : s.Sound ops) : s.Identified ops where
  attr g hg := by
    obtain ⟨inode, hino, hattr⟩ := (h.given g hg).ino
    refine ⟨ttlOf inode.isVolatile, ?_⟩
    rw [FsCore.getattr, hino, ← hattr]
  name g hg g' hg' heq := by
    by_cases hsame : g = g'
    · rw [hsame]
      exact ⟨rfl, rfl⟩
    · have hsymm : Std.Symm fun g g' : Given keys => g.reply.ino = g'.reply.ino →
          ¬g.Degraded ops s.core ∧ ¬g'.Degraded ops s.core :=
        ⟨fun _ _ hne heq => (hne heq.symm).symm⟩
      obtain ⟨hd, hd'⟩ := h.distinct.forall hg hg' hsame heq
      have hkey := (h.given g hg).named hd
      rw [heq] at hkey
      exact Prod.mk.inj (h.table.inj hkey ((h.given g' hg').named hd'))
  again g hg g' hg' hparent hname hd hd' := by
    have hkey := (h.given g hg).named hd
    rw [hparent, hname, (h.given g' hg').named hd'] at hkey
    exact (Option.some.inj hkey).symm
  apart := h.distinct.imp fun hne hor heq => hor.elim (hne heq).1 (hne heq).2
  shown g hg hd := h.shows ((h.given g hg).named hd)

end Sessions

/-- **The identity of inodes.** In every session, whatever the requests and whatever they meet, the
replies give out numbers as they should, and a number goes on denoting the same node. -/
theorem inode_identity {keys : RepoKeys} (ops : UtcOps) (index : ChunkIndex) (chunkCache : ℕ)
    (requests more : List (Request keys)) :
    ((Session.new index chunkCache).run ops requests).Identified ops ∧
      ∀ ino inode, ((Session.new index chunkCache).run ops requests).core.node ino = some inode →
        ((Session.new index chunkCache).run ops (requests ++ more)).core.node ino = some inode := by
  have hsound := (@Session.Sound.run keys ops _ (Session.sound_new index chunkCache) requests).1
  refine ⟨hsound.identified, fun ino inode hino => ?_⟩
  rw [Session.run, List.foldl_append]
  exact (hsound.run more).2.map hino

end Kist
