import Kist.Format.Index
import Kist.Lib.Bytes

/-!
# Trees

`kist-format::tree`: the entries of a directory. A directory of more than `MAX_NODES_PER_TREE`
entries is a chain of trees in which each one names the one before it.

The node type, the metadata kind and the content type are one byte each in the source, where the
reader refuses any other value; here they are enumerations.
-/

namespace Kist

/-- `TreeId`. -/
abbrev TreeId := ℕ

/-- `TreeId::ZERO`. -/
def TreeId.zero : TreeId := 0

/-- `MAX_NODES_PER_TREE`. -/
def maxNodesPerTree : ℕ := 10000

/-- `MAX_ETAG_VER_BYTES`. -/
def maxEtagVerBytes : ℕ := 1024

/-- `MAX_INLINE_CHUNKS`. -/
def maxInlineChunks : ℕ := 256

/-- `node_type`. -/
inductive NodeType
  | file
  | dir
  | symlink
  deriving DecidableEq, Repr

/-- `meta_kind`. -/
inductive MetaKind
  | posix
  | sftp
  | s3
  | generic
  deriving DecidableEq, Repr

/-- `content_type`. -/
inductive ContentType
  | direct
  | indirect
  deriving DecidableEq, Repr

/-- `Entry`: one name in a directory. -/
structure Entry where
  name : Bytes
  kind : NodeType
  metaKind : MetaKind
  size : ℕ := 0
  target : Bytes := []
  content : ContentType := .direct
  chunks : List ChunkId := []
  subtree : TreeId := TreeId.zero
  mode : Option ℕ := none
  uid : Option ℕ := none
  gid : Option ℕ := none
  mtimeNs : Option ℤ := none
  ctimeNs : Option ℤ := none
  dev : Option ℕ := none
  inode : Option ℕ := none
  nlink : Option ℕ := none
  xattrs : Option (List (Bytes × Bytes)) := none
  etag : Option Bytes := none
  vern : Option Bytes := none
  deriving DecidableEq, Repr

namespace Entry

/-- The name is a single clean path component. -/
def cleanName (name : Bytes) : Prop :=
  name ≠ [] ∧ (47 : UInt8) ∉ name ∧ (0 : UInt8) ∉ name ∧ name ≠ [46] ∧ name ≠ [46, 46]

instance (name : Bytes) : Decidable (cleanName name) := by unfold cleanName; infer_instance

/-- The checks of `Entry::validate` on the content fields of a node type. -/
def validateContent (e : Entry) : Except FormatError Unit :=
  match e.kind with
  | .file =>
    if e.target ≠ [] ∨ e.subtree ≠ TreeId.zero then
      .error (.invalidEntry "file entry must not carry target/subtree")
    else .ok ()
  | .dir =>
    if e.size ≠ 0 ∨ e.target ≠ [] ∨ e.chunks ≠ [] ∨ e.subtree = TreeId.zero then
      .error (.invalidEntry "dir entry must carry subtree only")
    else .ok ()
  | .symlink =>
    if e.target = [] ∨ e.size ≠ 0 ∨ e.chunks ≠ [] ∨ e.subtree ≠ TreeId.zero then
      .error (.invalidEntry "symlink entry must carry target only")
    else .ok ()

/-- The checks of `Entry::validate` on the metadata fields of a metadata kind. -/
def validateMeta (e : Entry) : Except FormatError Unit :=
  match e.metaKind with
  | .posix =>
    if e.mode.isNone ∨ e.uid.isNone ∨ e.gid.isNone ∨ e.mtimeNs.isNone then
      .error (.invalidEntry "posix entry requires mode/uid/gid/mtime")
    else .ok ()
  | .sftp =>
    if e.mtimeNs.isNone then .error (.invalidEntry "sftp entry requires mtime")
    else if e.ctimeNs.isSome ∨ e.dev.isSome ∨ e.inode.isSome ∨ e.nlink.isSome ∨ e.xattrs.isSome ∨
        e.etag.isSome ∨ e.vern.isSome then
      .error (.invalidEntry "sftp entry must not carry posix/s3 fields")
    else .ok ()
  | .s3 =>
    if (e.etag.getD []).length > maxEtagVerBytes then
      .error (.invalidEntry s!"s3 etag exceeds {maxEtagVerBytes} bytes")
    else if (e.vern.getD []).length > maxEtagVerBytes then
      .error (.invalidEntry s!"s3 vern exceeds {maxEtagVerBytes} bytes")
    else if e.mode.isSome ∨ e.uid.isSome ∨ e.gid.isSome ∨ e.ctimeNs.isSome ∨ e.dev.isSome ∨
        e.inode.isSome ∨ e.nlink.isSome ∨ e.xattrs.isSome then
      .error (.invalidEntry "s3 entry must not carry posix fields")
    else .ok ()
  | .generic =>
    if e.mode.isSome ∨ e.uid.isSome ∨ e.gid.isSome ∨ e.ctimeNs.isSome ∨ e.dev.isSome ∨
        e.inode.isSome ∨ e.nlink.isSome ∨ e.xattrs.isSome ∨ e.etag.isSome ∨ e.vern.isSome then
      .error (.invalidEntry "generic entry carries mtime only")
    else .ok ()

/-- `Entry::validate`. -/
def validate (e : Entry) : Except FormatError Unit := do
  if ¬cleanName e.name then
    throw (.invalidEntry s!"name must be a single clean path component, got {e.name}")
  e.validateContent
  if e.content = .direct ∧ e.chunks.length > maxInlineChunks then
    throw (.invalidEntry (s!"file {e.name} has {e.chunks.length} inline chunks, " ++
      s!"over the {maxInlineChunks} limit (must be indirect)"))
  if e.kind ≠ .file ∧ e.chunks ≠ [] then
    throw (.invalidEntry "chunks only on file entries")
  e.validateMeta

end Entry

/-- `Tree`: the entries of a directory, or of one segment of it. -/
structure Tree where
  version : ℕ
  entries : List Entry
  prev : Option TreeId
  deriving DecidableEq, Repr

namespace Tree

/-- `Tree::new`. -/
def new (entries : List Entry) (prev : Option TreeId) : Tree := ⟨formatVersion, entries, prev⟩

/-- The loop of `Tree::validate`: every entry is valid and the names increase. -/
def validateEntries : Option Bytes → List Entry → Except FormatError Unit
  | _, [] => .ok ()
  | prevName, e :: es => do
    e.validate
    if ∃ p ∈ prevName, e.name ≤ p then
      throw (.invalidEntry "entries must be sorted by name with no duplicates")
    validateEntries (some e.name) es

/-- `Tree::validate`. -/
def validate (t : Tree) : Except FormatError Unit := do
  if t.version ≠ formatVersion then throw (.unsupportedVersion "tree" t.version)
  validateEntries none t.entries

end Tree

/-! ### Directories as chains of trees

`R id t` says which tree a name stands for: the tree that storage has under it, or the one that
hashes to it. -/

section Chain

variable (R : TreeId → Tree → Prop)

/-- The trees of the directory whose last tree is `id` hold these entries, in order. -/
inductive Chain : TreeId → List Entry → Prop
  | first {id : TreeId} {t : Tree} (h : R id t) (hprev : t.prev = none) : Chain id t.entries
  | next {id prev : TreeId} {t : Tree} {es : List Entry} (h : R id t) (hprev : t.prev = some prev)
    (hc : Chain prev es) : Chain id (es ++ t.entries)

/-- A tree of the directory whose last tree is `id`. -/
inductive Segment : TreeId → Tree → Prop
  | last {id : TreeId} {t : Tree} (h : R id t) : Segment id t
  | prev {id prev : TreeId} {t t' : Tree} (h : R id t) (hprev : t.prev = some prev)
    (hs : Segment prev t') : Segment id t'

/-- Below the directory `id` there is this entry, under this path of names. -/
inductive Contains : TreeId → List Bytes → Entry → Prop
  | here {id : TreeId} {t : Tree} {e : Entry} (hs : Segment R id t) (he : e ∈ t.entries) :
    Contains id [e.name] e
  | deeper {id : TreeId} {t : Tree} {e e' : Entry} {path : List Bytes} (hs : Segment R id t)
    (he : e ∈ t.entries) (hkind : e.kind = .dir) (hc : Contains e.subtree path e') :
    Contains id (e.name :: path) e'

variable {R} {R' : TreeId → Tree → Prop} {id : TreeId} {es : List Entry} {e : Entry}
  {path : List Bytes}

theorem Chain.mono (h : ∀ id t, R id t → R' id t) (hc : Chain R id es) : Chain R' id es := by
  induction hc with
  | first ht hprev => exact .first (h _ _ ht) hprev
  | next ht hprev _ ih => exact .next (h _ _ ht) hprev ih

/-- The entries of a chain are those of its trees. -/
theorem Chain.mem_iff (hR : ∀ id t t', R id t → R id t' → t = t') (hc : Chain R id es) :
    e ∈ es ↔ ∃ t, Segment R id t ∧ e ∈ t.entries := by
  induction hc with
  | @first id t ht hprev =>
    constructor
    · exact fun he => ⟨t, .last ht, he⟩
    · rintro ⟨t', hs, he⟩
      cases hs with
      | last h => rwa [hR _ _ _ ht h]
      | prev h hp => rw [← hR _ _ _ ht h, hprev] at hp; cases hp
  | @next id p t es ht hprev _ ih =>
    rw [List.mem_append, ih]
    constructor
    · rintro (⟨t', hs, he⟩ | he)
      · exact ⟨t', .prev ht hprev hs, he⟩
      · exact ⟨t, .last ht, he⟩
    · rintro ⟨t', hs, he⟩
      cases hs with
      | last h => rw [hR _ _ _ ht h]; exact .inr he
      | prev h hp hs =>
        rw [← hR _ _ _ ht h, hprev] at hp
        cases hp
        exact .inl ⟨t', hs, he⟩

theorem Contains.ne_nil (h : Contains R id path e) : path ≠ [] := by cases h <;> simp

/-- What lies under a single name in a directory. -/
theorem contains_singleton_iff (hR : ∀ id t t', R id t → R id t' → t = t') (hc : Chain R id es)
    {n : Bytes} : Contains R id [n] e ↔ e ∈ es ∧ e.name = n := by
  rw [hc.mem_iff hR]
  constructor
  · intro h
    cases h with
    | here hs he => exact ⟨⟨_, hs, he⟩, rfl⟩
    | deeper _ _ _ h => exact absurd rfl h.ne_nil
  · rintro ⟨⟨t, hs, he⟩, rfl⟩
    exact .here hs he

/-- What lies deeper in a directory lies in one of its subdirectories. -/
theorem contains_cons_iff (hR : ∀ id t t', R id t → R id t' → t = t') (hc : Chain R id es)
    {n : Bytes} (hpath : path ≠ []) : Contains R id (n :: path) e ↔
      ∃ d ∈ es, d.name = n ∧ d.kind = .dir ∧ Contains R d.subtree path e := by
  constructor
  · intro h
    cases h with
    | here => exact absurd rfl hpath
    | deeper hs he hkind h => exact ⟨_, (hc.mem_iff hR).2 ⟨_, hs, he⟩, rfl, hkind, h⟩
  · rintro ⟨d, hd, rfl, hkind, h⟩
    obtain ⟨t, hs, he⟩ := (hc.mem_iff hR).1 hd
    exact .deeper hs he hkind h

/-- The segments of a directory before the last one: each of them is full. -/
inductive FullBefore (R : TreeId → Tree → Prop) : Option TreeId → List Entry → Prop
  | none : FullBefore R none []
  | some {prev : Option TreeId} {id : TreeId} {es children : List Entry}
    (hb : FullBefore R prev es) (ht : R id (.new children prev))
    (hlen : children.length = maxNodesPerTree) : FullBefore R (some id) (es ++ children)

/-- The trees of a directory as a backup writes them: full segments, and a last one that is not. -/
inductive Written (R : TreeId → Tree → Prop) : TreeId → List Entry → Prop
  | last {prev : Option TreeId} {id : TreeId} {es children : List Entry}
    (hb : FullBefore R prev es) (ht : R id (.new children prev))
    (hlen : children.length < maxNodesPerTree) : Written R id (es ++ children)

theorem FullBefore.mono {prev : Option TreeId} (h : ∀ id t, R id t → R' id t)
    (hb : FullBefore R prev es) : FullBefore R' prev es := by
  induction hb with
  | none => exact .none
  | some _ ht hlen ih => exact .some ih (h _ _ ht) hlen

theorem Written.mono (h : ∀ id t, R id t → R' id t) (hw : Written R id es) : Written R' id es := by
  cases hw with
  | last hb ht hlen => exact .last (hb.mono h) (h _ _ ht) hlen

theorem FullBefore.chain {prev : Option TreeId} {children : List Entry}
    (hb : FullBefore R prev es) (ht : R id (.new children prev)) : Chain R id (es ++ children) := by
  induction hb generalizing id children with
  | none => exact .first ht rfl
  | some _ ht' _ ih => exact .next ht rfl (ih ht')

theorem Written.chain (h : Written R id es) : Chain R id es := by
  cases h with
  | last hb ht _ => exact hb.chain ht

/-- Full segments have as many entries as their number says. -/
theorem FullBefore.dvd {prev : Option TreeId} (hb : FullBefore R prev es) :
    maxNodesPerTree ∣ es.length := by
  induction hb with
  | none => simp
  | some _ _ hlen ih =>
    rw [List.length_append, hlen]
    exact Dvd.dvd.add ih dvd_rfl

/-- The entries before and in a segment are told by their number. -/
theorem segments_unique {es' children children' : List Entry} (hd : maxNodesPerTree ∣ es.length)
    (hd' : maxNodesPerTree ∣ es'.length) (h : es ++ children = es' ++ children')
    (hlen : children.length < maxNodesPerTree) (hlen' : children'.length < maxNodesPerTree) :
    es = es' ∧ children = children' := by
  have hl := congrArg List.length h
  rw [List.length_append, List.length_append] at hl
  obtain ⟨a, ha⟩ := hd
  obtain ⟨b, hb⟩ := hd'
  refine List.append_inj h ?_
  have hmod : ∀ x c, c < maxNodesPerTree → (maxNodesPerTree * x + c) / maxNodesPerTree = x := by
    intro x c hc
    rw [Nat.mul_add_div (by decide), Nat.div_eq_of_lt hc, Nat.add_zero]
  rw [ha, hb] at hl ⊢
  rw [← hmod a _ hlen, ← hmod b _ hlen', hl]

theorem FullBefore.unique {treeId : Tree → TreeId} (hR : ∀ id t, R id t → treeId t = id)
    (hR' : ∀ id t, R' id t → treeId t = id) {prev prev' : Option TreeId}
    (hb : FullBefore R prev es) (hb' : FullBefore R' prev' es) : prev = prev' := by
  induction hb generalizing prev' with
  | none =>
    generalize he : ([] : List Entry) = es at hb'
    cases hb' with
    | none => rfl
    | some _ _ hlen =>
      have := congrArg List.length he
      rw [List.length_append, hlen] at this
      simp [maxNodesPerTree] at this
  | @some prev id es children hb ht hlen ih =>
    generalize he : es ++ children = es' at hb'
    cases hb' with
    | none =>
      have := congrArg List.length he
      rw [List.length_append, hlen] at this
      simp [maxNodesPerTree] at this
    | some hb₂ ht₂ hlen₂ =>
      obtain ⟨rfl, rfl⟩ := List.append_inj' he (hlen.trans hlen₂.symm)
      obtain rfl := ih hb₂
      rw [← hR _ _ ht, ← hR' _ _ ht₂]

/-- **The name of a directory.** It is told by the entries of the directory. -/
theorem Written.unique {treeId : Tree → TreeId} (hR : ∀ id t, R id t → treeId t = id)
    (hR' : ∀ id t, R' id t → treeId t = id) {id' : TreeId} (h : Written R id es)
    (h' : Written R' id' es) : id = id' := by
  cases h with
  | @last prev _ es children hb ht hlen =>
    generalize he : es ++ children = es' at h'
    cases h' with
    | last hb' ht' hlen' =>
      obtain ⟨rfl, rfl⟩ := segments_unique hb.dvd hb'.dvd he hlen hlen'
      obtain rfl := hb.unique hR hR' hb'
      rw [← hR _ _ ht, ← hR' _ _ ht']

/-- There is nothing below an empty directory. -/
theorem not_contains_nil (hR : ∀ id t t', R id t → R id t' → t = t') (hc : Chain R id []) :
    ¬Contains R id path e := by
  intro h
  cases h with
  | here hs he => exact absurd ((hc.mem_iff hR).2 ⟨_, hs, he⟩) List.not_mem_nil
  | deeper hs he => exact absurd ((hc.mem_iff hR).2 ⟨_, hs, he⟩) List.not_mem_nil

end Chain

/-- `ChunkList`: the chunks of a large file, stored as a file of its own. -/
structure ChunkList where
  version : ℕ
  chunks : List ChunkId
  deriving DecidableEq, Repr

/-- `ChunkList::new`. -/
def ChunkList.new (chunks : List ChunkId) : ChunkList := ⟨formatVersion, chunks⟩

end Kist
