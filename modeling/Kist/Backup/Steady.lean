import Kist.Backup.Covered
import Kist.Backup.Loop
import Kist.Backup.PrepareSpec

/-!
# The trees of a source do not depend on the repository

Two backups of a source that does not change, into repositories with the same keys and chunker
parameters. They may find other indexes, marks and parent snapshots, and so take over contents that
the other run reads. The walks run in step: every visit of a file yields the same content in both,
and so every directory gets the same tree.

* `Source.Steady`: the answers do not depend on the moment.
* `Source.Shares`: the names of an inode share their content.
* `EntryTrue`: an entry of the parent snapshot that `try_reuse` accepts was made from the content.
* `backupPrepare_roots_eq`: the roots of two runs are the same.
-/

namespace Kist

open Checked (bind_eq_ok)

/-! ### Sources that do not change -/

/-- A source whose answers do not depend on the moment. -/
structure Source.Steady (source : Source) : Prop where
  list : ∀ tick d, source.list tick d = source.list 0 d
  read : ∀ tick rel, source.read tick rel = source.read 0 rel
  probe : ∀ tick rel n, source.probe tick rel n = source.probe 0 rel n
  lstat : ∀ tick rel, source.lstat tick rel = source.lstat 0 rel
  xattrs : ∀ tick rel, source.xattrs tick rel = source.xattrs 0 rel

/-- What `lstat` tells of an item of a local source. -/
def Source.posix (source : Source) (rel : RelPath) : Option PosixMeta :=
  if source.metaKind = .posix then source.lstat 0 rel else none

/-- The names of an inode share its content. -/
def Source.Shares (source : Source) (inode : InodeKey → Option Bytes) : Prop :=
  ∀ rel p, source.posix rel = some p → p.nlink > 1 →
    ∀ bytes, source.read 0 rel = .bytes bytes ↔ inode (p.dev, p.inode) = some bytes

namespace Backup

variable (keys : RepoKeys) (chunker : Chunking.Chunker) (inode : InodeKey → Option Bytes)

/-- An entry of the parent snapshot was made from some bytes, and these are the content of the file
for which `try_reuse` accepts the entry. -/
def EntryTrue (start : ℤ) (source : Source) (rel : RelPath) (f : FileFacts) (e : Entry) : Prop :=
  e.kind = .file → ∃ bytes, e.fileContent = contentOf keys chunker bytes ∧
    (proven f e start → source.read 0 rel = .bytes bytes)

/-- An entry of the parent snapshot is true of an item, if the item is a file. -/
def ItemTrue (start : ℤ) (source : Source) (rel : RelPath) (item : SourceItem) (e : Entry) : Prop :=
  ∀ size mtimeNs etag vern, item.kind = .file size mtimeNs etag vern →
    EntryTrue keys chunker start source rel ⟨size, source.posix rel, etag⟩ e

/-- An entry of the parent snapshot is true of what the source lists at its path. -/
def ParentTrue (start : ℤ) (source : Source) (rel : RelPath) (e : Entry) : Prop :=
  ∀ d items item, source.list 0 d = .ok items → .ok item ∈ items → rel = d ++ [item.name] →
    ItemTrue keys chunker start source rel item e

/-- What holds of a backup all along: the contents left for other names are those of their inodes.
-/
structure RunOk (start : ℤ) (b : Backup) : Prop where
  keys_eq : b.repo.keys = keys
  chunker_eq : b.chunker = chunker
  start_eq : b.parentStartNs = start
  links : ∀ key c, b.hardlinks.lookup key = some c →
    ∃ bytes, inode key = some bytes ∧ c = contentOf keys chunker bytes

/-- The content that a file records. -/
def steadyContent (source : Source) (rel : RelPath) (f : FileFacts) : Option FileContent :=
  if f.posix.any fun p => !isRegular p.mode then none
  else match source.read 0 rel with
    | .bytes bytes => some (contentOf keys chunker bytes)
    | _ => none

section Files

variable {keys chunker inode} {start : ℤ} {b b' : Backup} {source : Source}

theorem RunOk.of_same (h : RunOk keys chunker inode start b) (hs : SameSetup b b')
    (hl : b'.hardlinks = b.hardlinks) : RunOk keys chunker inode start b' :=
  ⟨hs.keys.trans h.keys_eq, hs.chunker.trans h.chunker_eq, hs.parentStartNs.trans h.start_eq,
    fun key c hc => h.links key c (hl ▸ hc)⟩

theorem RunOk.counts (h : RunOk keys chunker inode start b) (stats : SnapshotStats)
    (report : BackupReport) (tick : ℕ) : RunOk keys chunker inode start
      { b with stats, report, tick } :=
  ⟨h.1, h.2, h.3, h.4⟩

theorem RunOk.writeTree (h : RunOk keys chunker inode start b) {t : Tree} {id : TreeId}
    (hw : b.writeTree t = .ok (id, b')) :
    RunOk keys chunker inode start b' ∧ id = keys.treeId t := by
  obtain ⟨hid, -, ⟨-, rfl⟩ | ⟨b₁, hb₁, hb'⟩⟩ := writeTree_cases hw
  · exact ⟨h, by rw [hid, h.keys_eq]⟩
  · refine ⟨?_, by rw [hid, h.keys_eq]⟩
    have hsame : SameSetup b b₁ ∧ b₁.hardlinks = b.hardlinks := by
      rw [hb₁]
      unfold putTreeReplica putTree
      split_ifs <;> split <;> exact ⟨⟨rfl, rfl, rfl, rfl, rfl, rfl⟩, rfl⟩
    have h₁ := h.of_same hsame.1 hsame.2
    rcases hb' with rfl | rfl
    · exact h₁
    · exact h₁.of_same ⟨rfl, rfl, rfl, rfl, rfl, rfl⟩ rfl

/-- **A visit of a file.** Whether it takes the content over, shares it with another name or reads
it, the content is that of the file. -/
theorem processFile_steady (hp : chunker.params.Valid) (hsteady : source.Steady)
    (hshares : source.Shares inode) (h : RunOk keys chunker inode start b) {rel : RelPath}
    {f : FileFacts} (hf : f.posix = source.posix rel) {parent : Option Entry}
    (hparent : ∀ e ∈ parent, EntryTrue keys chunker start source rel f e) :
    RunOk keys chunker inode start (b.processFile source rel f parent).2 ∧
      (b.processFile source rel f parent).1 = steadyContent keys chunker source rel f := by
  unfold steadyContent
  by_cases hirregular : (f.posix.any fun p => !isRegular p.mode) = true
  · unfold processFile
    rw [if_pos hirregular, if_pos hirregular]
    exact ⟨h.counts _ _ _, rfl⟩
  rw [if_neg hirregular]
  have hsame := (b.sameVisit_processFile source rel f parent).toSameSetup
  have hcases := b.processFile_cases (h.chunker_eq ▸ hp) source rel f parent
  rw [hsteady.read] at hcases
  revert hcases
  generalize hlinks : (b.processFile source rel f parent).2.hardlinks = links
  generalize (b.processFile source rel f parent).1 = content
  intro hcases
  cases hcases with
  -- nothing was read: the steady read has no bytes here either
  | skipped hskip =>
    refine ⟨h.of_same hsame hlinks, ?_⟩
    cases hread : source.read 0 rel with
    | bytes bytes => exact absurd hread ((hskip.resolve_left hirregular) bytes)
    | unreadable reason => rfl
    | broken delivered reason => rfl
  -- taken over from the parent, whose entry is made from the bytes of a read at an unchanged stamp
  | reused hc =>
    obtain ⟨pentry, hpe, hkind, hproven, -, rfl⟩ := b.tryReuse_eq_some hc
    rw [h.start_eq] at hproven
    obtain ⟨bytes, hcontent, hread⟩ := hparent pentry hpe hkind
    rw [hread hproven]
    exact ⟨h.of_same hsame hlinks, congrArg some hcontent⟩
  -- a further link of an inode read earlier in this run
  | @shared key c _ hkey hc =>
    obtain ⟨bytes, hinode, rfl⟩ := h.links key c hc
    unfold hardlinkKey at hkey
    obtain ⟨p, hpf, rfl⟩ := Option.map_eq_some_iff.1 hkey
    obtain ⟨hposix, hnlink⟩ := Option.filter_eq_some_iff.1 hpf
    rw [(hshares rel p (hf ▸ hposix) (by simpa using hnlink) bytes).2 hinode]
    exact ⟨h.of_same hsame hlinks, rfl⟩
  -- read now; the new hard-link entry keeps the invariant, since all paths of one inode read alike
  | @read bytes _ hnew hread =>
    rw [hread, h.keys_eq, h.chunker_eq]
    refine ⟨⟨hsame.keys.trans h.keys_eq, hsame.chunker.trans h.chunker_eq,
      hsame.parentStartNs.trans h.start_eq, fun key c hc => ?_⟩, rfl⟩
    rw [hlinks] at hc
    cases hkey : hardlinkKey f with
    | none =>
      rw [hkey] at hc
      exact h.links key c hc
    | some k =>
      rw [hkey, h.keys_eq, h.chunker_eq] at hc
      dsimp only at hc
      rw [Dict.lookup_insert'] at hc
      split_ifs at hc with hk
      · cases hc
        unfold hardlinkKey at hkey
        obtain ⟨p, hpf, rfl⟩ := Option.map_eq_some_iff.1 hkey
        obtain ⟨hposix, hnlink⟩ := Option.filter_eq_some_iff.1 hpf
        exact ⟨bytes, hk ▸ (hshares rel p (hf ▸ hposix) (by simpa using hnlink) bytes).1 hread, rfl⟩
      · exact h.links key c hc

end Files

/-! ### Two walks in step -/

section Walks

variable {keys chunker inode} {start₁ start₂ : ℤ} {b₁ b₂ : Backup} {ctx : SourceCtx}

/-- Two results are the same, of backups that are both as they should be. -/
structure Twins {α : Type} (keys : RepoKeys) (chunker : Chunking.Chunker)
    (inode : InodeKey → Option Bytes) (start₁ start₂ : ℤ) (r₁ r₂ : α × Backup) : Prop where
  same : r₁.1 = r₂.1
  run₁ : RunOk keys chunker inode start₁ r₁.2
  run₂ : RunOk keys chunker inode start₂ r₂.2

theorem withXattrs_steady (hsteady : ctx.source.Steady) (rel : RelPath) (e : Entry) :
    (withXattrs ctx b₁ rel e).1 = (withXattrs ctx b₂ rel e).1 := by
  unfold withXattrs
  split_ifs
  · rw [hsteady.xattrs b₁.tick, hsteady.xattrs b₂.tick]
  · rfl

theorem RunOk.withXattrs {start : ℤ} {b : Backup} (h : RunOk keys chunker inode start b)
    (rel : RelPath) (e : Entry) : RunOk keys chunker inode start (withXattrs ctx b rel e).2 := by
  obtain ⟨xattrs, tick, heq⟩ := withXattrs_eq ctx b rel e
  rw [heq]
  exact h.counts b.stats b.report tick

theorem processRegular_twins (hp : chunker.params.Valid) (hsteady : ctx.source.Steady)
    (hshares : ctx.source.Shares inode) (h₁ : RunOk keys chunker inode start₁ b₁)
    (h₂ : RunOk keys chunker inode start₂ b₂) {rel : RelPath} {name : Bytes} {size : ℕ}
    {mtimeNs : ℤ} {etag vern : Option Bytes} {parent₁ parent₂ : Option Entry}
    (hp₁ : ∀ e ∈ parent₁, EntryTrue keys chunker start₁ ctx.source rel
      ⟨size, ctx.source.posix rel, etag⟩ e)
    (hp₂ : ∀ e ∈ parent₂, EntryTrue keys chunker start₂ ctx.source rel
      ⟨size, ctx.source.posix rel, etag⟩ e) :
    Twins keys chunker inode start₁ start₂
      (processRegular ctx b₁ rel name size mtimeNs etag vern (ctx.source.posix rel) parent₁)
      (processRegular ctx b₂ rel name size mtimeNs etag vern (ctx.source.posix rel) parent₂) := by
  obtain ⟨hr₁, hc₁⟩ := processFile_steady hp hsteady hshares h₁ rfl hp₁
  obtain ⟨hr₂, hc₂⟩ := processFile_steady hp hsteady hshares h₂ rfl hp₂
  rw [← hc₁] at hc₂
  unfold processRegular
  rcases hf₁ : b₁.processFile ctx.source rel ⟨size, ctx.source.posix rel, etag⟩
    parent₁ with ⟨c, b₁'⟩
  rcases hf₂ : b₂.processFile ctx.source rel ⟨size, ctx.source.posix rel, etag⟩
    parent₂ with ⟨c', b₂'⟩
  rw [hf₁] at hr₁ hc₂
  rw [hf₂] at hr₂ hc₂
  dsimp only at hr₁ hr₂ hc₂
  subst hc₂
  cases c' with
  | none => exact ⟨rfl, hr₁, hr₂⟩
  | some c =>
    dsimp only
    cases hm : ctx.source.metaKind <;> cases ctx.source.posix rel
    case posix.none => exact ⟨rfl, hr₁.counts _ _ _, hr₂.counts _ _ _⟩
    case posix.some posix =>
      exact ⟨congrArg some (withXattrs_steady hsteady _ _),
        (hr₁.counts _ b₁'.report b₁'.tick).withXattrs _ _,
        (hr₂.counts _ b₂'.report b₂'.tick).withXattrs _ _⟩
    all_goals exact ⟨rfl, hr₁.counts _ _ _, hr₂.counts _ _ _⟩

/-- What two walks of a directory below have to do. -/
def WalkTwins (keys : RepoKeys) (chunker : Chunking.Chunker) (inode : InodeKey → Option Bytes)
    (start₁ start₂ : ℤ) (source : Source) (walk : Option Walk) : Prop :=
  ∀ w ∈ walk, ∀ b₁ b₂ d parent₁ parent₂ visit r₁ r₂,
    RunOk keys chunker inode start₁ b₁ → RunOk keys chunker inode start₂ b₂ →
    (∀ id ∈ parent₁, ParentTree keys (ParentTrue keys chunker start₁ source) d id) →
    (∀ id ∈ parent₂, ParentTree keys (ParentTrue keys chunker start₂ source) d id) →
    w b₁ d parent₁ visit = .ok r₁ → w b₂ d parent₂ visit = .ok r₂ →
      Twins keys chunker inode start₁ start₂ r₁ r₂

theorem processDir_twins (hsteady : ctx.source.Steady) {walk : Walk}
    (hwalk : WalkTwins keys chunker inode start₁ start₂ ctx.source (some walk))
    (h₁ : RunOk keys chunker inode start₁ b₁) (h₂ : RunOk keys chunker inode start₂ b₂)
    {rel : RelPath} {name : Bytes} {posix : Option PosixMeta} {parent₁ parent₂ : Option Entry}
    (hp₁ : ∀ e ∈ parent₁, e.kind = .dir →
      ParentTree keys (ParentTrue keys chunker start₁ ctx.source) rel e.subtree)
    (hp₂ : ∀ e ∈ parent₂, e.kind = .dir →
      ParentTree keys (ParentTrue keys chunker start₂ ctx.source) rel e.subtree)
    {visit : Visit} {r₁ r₂ : Entry × Backup}
    (hr₁ : processDir ctx walk b₁ rel name posix parent₁ visit = .ok r₁)
    (hr₂ : processDir ctx walk b₂ rel name posix parent₂ visit = .ok r₂) :
    Twins keys chunker inode start₁ start₂ r₁ r₂ := by
  obtain ⟨⟨id₁, b₁'⟩, hsub₁, hr₁⟩ := bind_eq_ok.1 hr₁
  obtain ⟨⟨id₂, b₂'⟩, hsub₂, hr₂⟩ := bind_eq_ok.1 hr₂
  have hsub : Twins keys chunker inode start₁ start₂ (id₁, b₁') (id₂, b₂') := by
    unfold walkSubtree at hsub₁ hsub₂
    -- a mount point gets the empty tree; below any other directory both walks go on with the
    -- subtree their own parent entry records
    cases henter : visit.enter posix with
    | none =>
      rw [henter] at hsub₁ hsub₂
      obtain ⟨hw₁, hid₁⟩ := (h₁.counts _ _ _).writeTree hsub₁
      obtain ⟨hw₂, hid₂⟩ := (h₂.counts _ _ _).writeTree hsub₂
      exact ⟨hid₁.trans hid₂.symm, hw₁, hw₂⟩
    | some inside =>
      rw [henter] at hsub₁ hsub₂
      refine hwalk walk rfl _ _ _ _ _ _ _ _ h₁ h₂ (fun id hid => ?_) (fun id hid => ?_) hsub₁ hsub₂
      · obtain ⟨e, he, hid⟩ := Option.bind_eq_some_iff.1 hid
        split_ifs at hid with hkind
        cases hid
        exact hp₁ e he hkind.1
      · obtain ⟨e, he, hid⟩ := Option.bind_eq_some_iff.1 hid
        split_ifs at hid with hkind
        cases hid
        exact hp₂ e he hkind.1
  obtain ⟨rfl, hb₁, hb₂⟩ : id₁ = id₂ ∧ RunOk keys chunker inode start₁ b₁' ∧
    RunOk keys chunker inode start₂ b₂' := ⟨hsub.same, hsub.run₁, hsub.run₂⟩
  cases hr₁
  cases hr₂
  exact ⟨withXattrs_steady hsteady _ _, (hb₁.counts _ b₁'.report b₁'.tick).withXattrs _ _,
    (hb₂.counts _ b₂'.report b₂'.tick).withXattrs _ _⟩

/-- **One item.** -/
theorem processEntry_twins (hp : chunker.params.Valid) (hsteady : ctx.source.Steady)
    (hshares : ctx.source.Shares inode) {walk : Option Walk}
    (hwalk : WalkTwins keys chunker inode start₁ start₂ ctx.source walk)
    (h₁ : RunOk keys chunker inode start₁ b₁) (h₂ : RunOk keys chunker inode start₂ b₂)
    {rel : RelPath} {item : SourceItem} {parent₁ parent₂ : Option Entry}
    (hf₁ : ∀ e ∈ parent₁, ItemTrue keys chunker start₁ ctx.source rel item e)
    (hf₂ : ∀ e ∈ parent₂, ItemTrue keys chunker start₂ ctx.source rel item e)
    (hp₁ : walk.isSome → ∀ e ∈ parent₁, e.kind = .dir →
      ParentTree keys (ParentTrue keys chunker start₁ ctx.source) rel e.subtree)
    (hp₂ : walk.isSome → ∀ e ∈ parent₂, e.kind = .dir →
      ParentTree keys (ParentTrue keys chunker start₂ ctx.source) rel e.subtree)
    {visit : Visit} {r₁ r₂ : Option Entry × Backup}
    (hr₁ : processEntry ctx walk b₁ rel item parent₁ visit = .ok r₁)
    (hr₂ : processEntry ctx walk b₂ rel item parent₂ visit = .ok r₂) :
    Twins keys chunker inode start₁ start₂ r₁ r₂ := by
  have hposix : ∀ b : Backup,
      (if ctx.source.metaKind = .posix then ctx.source.lstat b.tick rel else none) =
        ctx.source.posix rel := fun b => by
    rw [Source.posix, hsteady.lstat]
  have hask₁ : RunOk keys chunker inode start₁ b₁.ask := h₁.counts _ _ _
  have hask₂ : RunOk keys chunker inode start₂ b₂.ask := h₂.counts _ _ _
  unfold processEntry at hr₁ hr₂
  rw [hposix] at hr₁ hr₂
  cases hkind : item.kind with
  | symlink target =>
    rw [hkind] at hr₁ hr₂
    rw [← Except.ok.inj hr₁, ← Except.ok.inj hr₂]
    exact ⟨congrArg some (withXattrs_steady hsteady _ _),
      (hask₁.counts _ b₁.report b₁.ask.tick).withXattrs _ _,
      (hask₂.counts _ b₂.report b₂.ask.tick).withXattrs _ _⟩
  | dir =>
    rw [hkind] at hr₁ hr₂
    -- a source without a walk has no directories to go into
    cases walk with
    | none =>
      cases hr₁
      cases hr₂
      exact ⟨rfl, hask₁.counts _ _ _, hask₂.counts _ _ _⟩
    | some w =>
      obtain ⟨⟨e₁, b₁'⟩, hd₁, hr₁⟩ := bind_eq_ok.1 hr₁
      obtain ⟨⟨e₂, b₂'⟩, hd₂, hr₂⟩ := bind_eq_ok.1 hr₂
      have hd := processDir_twins hsteady hwalk hask₁ hask₂ (hp₁ rfl) (hp₂ rfl) hd₁ hd₂
      cases hr₁
      cases hr₂
      exact ⟨congrArg some hd.same, hd.run₁, hd.run₂⟩
  | file size mtimeNs etag vern =>
    rw [hkind] at hr₁ hr₂
    dsimp only at hr₁ hr₂
    -- a file on another device is left out in both runs
    by_cases hfs : visit.otherFs (ctx.source.posix rel) = true
    · rw [if_pos hfs] at hr₁ hr₂
      cases hr₁
      cases hr₂
      exact ⟨rfl, hask₁.counts _ _ _, hask₂.counts _ _ _⟩
    · rw [if_neg hfs] at hr₁ hr₂
      rw [← Except.ok.inj hr₁, ← Except.ok.inj hr₂]
      exact processRegular_twins hp hsteady hshares hask₁ hask₂
        (fun e he => hf₁ e he size mtimeNs etag vern hkind)
        (fun e he => hf₂ e he size mtimeNs etag vern hkind)

/-! ### The loop -/

/-- Two loops over the items of a directory, in step. -/
structure LoopTwins (keys : RepoKeys) (chunker : Chunking.Chunker) (inode : InodeKey → Option Bytes)
    (start₁ start₂ : ℤ) (source : Source) (d : RelPath) (s₁ s₂ : Loop) : Prop where
  run₁ : RunOk keys chunker inode start₁ s₁.b
  run₂ : RunOk keys chunker inode start₂ s₂.b
  parents₁ : ∀ ps ∈ s₁.parents, StreamOk keys (ParentTrue keys chunker start₁ source) d ps
  parents₂ : ∀ ps ∈ s₂.parents, StreamOk keys (ParentTrue keys chunker start₂ source) d ps
  children : s₁.children = s₂.children
  prev : s₁.prev = s₂.prev

/-- What the stream of the parent yields for a name is an entry of the directory. -/
theorem parentEntry_ok {start : ℤ} {source : Source} {d : RelPath} {s : Loop}
    (h : RunOk keys chunker inode start s.b)
    (hs : ∀ ps ∈ s.parents, StreamOk keys (ParentTrue keys chunker start source) d ps)
    (name : Bytes) :
    (∀ ps ∈ (s.parentEntry name).2, StreamOk keys (ParentTrue keys chunker start source) d ps) ∧
      ∀ e ∈ (s.parentEntry name).1, ParentTrue keys chunker start source (d ++ [name]) e ∧
        (e.kind = .dir →
          ParentTree keys (ParentTrue keys chunker start source) (d ++ [name]) e.subtree) := by
  unfold Loop.parentEntry
  cases hps : s.parents with
  | none => exact ⟨fun ps hps => (nomatch hps), fun e he => (nomatch he)⟩
  | some ps =>
    obtain ⟨h₁, h₂⟩ := takeName_ok h.keys_eq name (hs ps hps)
    refine ⟨fun ps' hps' => ?_, fun e he => ?_⟩
    · cases hps'
      exact h₁
    · obtain ⟨rfl, hok⟩ := h₂ e he
      exact ⟨hok.ok, hok.below⟩

theorem LoopTwins.counts {source : Source} {d : RelPath} {s₁ s₂ : Loop}
    (h : LoopTwins keys chunker inode start₁ start₂ source d s₁ s₂) (stats₁ stats₂ : SnapshotStats)
    (report₁ report₂ : BackupReport) (tick₁ tick₂ : ℕ) :
    LoopTwins keys chunker inode start₁ start₂ source d
      { s₁ with b := { s₁.b with stats := stats₁, report := report₁, tick := tick₁ } }
      { s₂ with b := { s₂.b with stats := stats₂, report := report₂, tick := tick₂ } } :=
  ⟨h.run₁.counts _ _ _, h.run₂.counts _ _ _, h.parents₁, h.parents₂, h.children, h.prev⟩

/-- **One round.** -/
theorem take_twins (hp : chunker.params.Valid) (hsteady : ctx.source.Steady)
    (hshares : ctx.source.Shares inode) {walk : Option Walk}
    (hwalk : WalkTwins keys chunker inode start₁ start₂ ctx.source walk) {d : RelPath}
    {items : List (Except String SourceItem)} (hitems : ctx.source.list 0 d = .ok items)
    {markers : Option (List Bytes)} {visit : Visit} {x : Except String SourceItem} (hx : x ∈ items)
    {s₁ s₂ s₁' s₂' : Loop} (h : LoopTwins keys chunker inode start₁ start₂ ctx.source d s₁ s₂)
    (h₁ : Loop.take ctx walk d markers visit s₁ x = .ok s₁')
    (h₂ : Loop.take ctx walk d markers visit s₂ x = .ok s₂') :
    LoopTwins keys chunker inode start₁ start₂ ctx.source d s₁' s₂' := by
  cases x with
  | error e =>
    cases h₁
    cases h₂
    exact h.counts _ _ _ _ _ _
  | ok item =>
    by_cases htaken : ∃ child, ctx.admitted markers visit (d ++ [item.name]) item = some child ∧
        (item.kind = .dir → walk.isSome)
    · obtain ⟨child, hadm, hdeep⟩ := htaken
      rw [take_eq hadm hdeep] at h₁ h₂
      obtain ⟨r₁, hr₁, h₁⟩ := bind_eq_ok.1 h₁
      obtain ⟨r₂, hr₂, h₂⟩ := bind_eq_ok.1 h₂
      obtain ⟨hs₁, he₁⟩ := parentEntry_ok h.run₁ h.parents₁ item.name
      obtain ⟨hs₂, he₂⟩ := parentEntry_ok h.run₂ h.parents₂ item.name
      have hr : Twins keys chunker inode start₁ start₂ r₁ r₂ := by
        exact processEntry_twins hp hsteady hshares hwalk h.run₁ h.run₂
          (fun e he => (he₁ e he).1 d items item hitems hx rfl)
          (fun e he => (he₂ e he).1 d items item hitems hx rfl)
          (fun _ e he => (he₁ e he).2) (fun _ e he => (he₂ e he).2) hr₁ hr₂
      rw [h.children, hr.same, h.prev] at h₁
      by_cases hfull : (s₂.children ++ r₂.1.toList).length ≥ maxNodesPerTree
      · -- the segment is full in both walks, and gets the same name
        rw [if_pos hfull] at h₁ h₂
        obtain ⟨y₁, hy₁, h₁⟩ := bind_eq_ok.1 h₁
        obtain ⟨y₂, hy₂, h₂⟩ := bind_eq_ok.1 h₂
        obtain ⟨hw₁, hid₁⟩ := hr.run₁.writeTree hy₁
        obtain ⟨hw₂, hid₂⟩ := hr.run₂.writeTree hy₂
        cases h₁
        cases h₂
        exact ⟨hw₁, hw₂, hs₁, hs₂, rfl, by rw [hid₁, hid₂]⟩
      · rw [if_neg hfull] at h₁ h₂
        cases h₁
        cases h₂
        exact ⟨hr.run₁, hr.run₂, hs₁, hs₂, rfl, rfl⟩
    · have hskip : ∀ child, ctx.admitted markers visit (d ++ [item.name]) item = some child →
          item.kind = .dir ∧ walk = none := fun child hadm => skipped_of_not_taken htaken hadm
      obtain ⟨errors₁, excluded₁, heq₁⟩ := take_skip (s := s₁) hskip
      obtain ⟨errors₂, excluded₂, heq₂⟩ := take_skip (s := s₂) hskip
      rw [heq₁] at h₁
      rw [heq₂] at h₂
      cases h₁
      cases h₂
      exact h.counts _ _ _ _ _ _

/-- The markers that the two walks find in a directory. -/
theorem markersIn_twins (hsteady : ctx.source.Steady) (d : RelPath)
    (h₁ : RunOk keys chunker inode start₁ b₁) (h₂ : RunOk keys chunker inode start₂ b₂) :
    Twins keys chunker inode start₁ start₂ (markersIn ctx b₁ d) (markersIn ctx b₂ d) := by
  have hfound : ∀ tick marker, findsMarker ctx tick d marker = findsMarker ctx 0 d marker :=
    fun tick marker => by
      unfold findsMarker
      rw [hsteady.probe]
  have hfold := List.foldl_rel (l := ctx.exclude.ifPresent)
    (f := fun (r : List Bytes × Backup) marker =>
      (if findsMarker ctx r.2.tick d marker then r.1 ++ [marker.name] else r.1, r.2.ask))
    (g := fun (r : List Bytes × Backup) marker =>
      (if findsMarker ctx r.2.tick d marker then r.1 ++ [marker.name] else r.1, r.2.ask))
    (r := Twins keys chunker inode start₁ start₂) (a := ([], b₁)) (b := ([], b₂))
    ⟨rfl, h₁, h₂⟩ fun marker _ r₁ r₂ hr => by
      refine ⟨?_, hr.run₁.counts _ _ _, hr.run₂.counts _ _ _⟩
      show (if _ then _ else _) = if _ then _ else _
      rw [hfound, hfound r₂.2.tick, hr.same]
  unfold markersIn
  dsimp only
  exact ⟨by rw [hfold.same], hfold.run₁, hfold.run₂⟩

theorem enterDir_twins (hsteady : ctx.source.Steady) {d : RelPath} {parent₁ parent₂ : Option TreeId}
    (visit : Visit) (h₁ : RunOk keys chunker inode start₁ b₁)
    (h₂ : RunOk keys chunker inode start₂ b₂)
    (hp₁ : ∀ id ∈ parent₁, ParentTree keys (ParentTrue keys chunker start₁ ctx.source) d id)
    (hp₂ : ∀ id ∈ parent₂, ParentTree keys (ParentTrue keys chunker start₂ ctx.source) d id) :
    (enterDir ctx b₁ d parent₁ visit).1 = (enterDir ctx b₂ d parent₂ visit).1 ∧
      LoopTwins keys chunker inode start₁ start₂ ctx.source d (enterDir ctx b₁ d parent₁ visit).2
        (enterDir ctx b₂ d parent₂ visit).2 := by
  have hstream : ∀ {start : ℤ} {b : Backup} {parent : Option TreeId},
      RunOk keys chunker inode start b →
      (∀ id ∈ parent, ParentTree keys (ParentTrue keys chunker start ctx.source) d id) →
      ∀ ps ∈ parent.bind fun id => (b.repo.openParent id).toOption,
        StreamOk keys (ParentTrue keys chunker start ctx.source) d ps := by
    intro start b parent h hp ps hps
    obtain ⟨id, hid, hps⟩ := Option.bind_eq_some_iff.1 hps
    cases hopen : b.repo.openParent id with
    | error e => rw [hopen] at hps; cases hps
    | ok ps' => rw [hopen] at hps; cases hps; exact streamOk_openParent h.keys_eq (hp id hid) hopen
  have hask₁ : RunOk keys chunker inode start₁ b₁.ask := h₁.counts _ _ _
  have hask₂ : RunOk keys chunker inode start₂ b₂.ask := h₂.counts _ _ _
  unfold enterDir
  dsimp only
  by_cases hnone : ctx.exclude.ifPresent = [] ∨ visit.passThrough = true
  · rw [if_pos hnone, if_pos hnone]
    exact ⟨rfl, hask₁, hask₂, hstream h₁ hp₁, hstream h₂ hp₂, rfl, rfl⟩
  · rw [if_neg hnone, if_neg hnone]
    have hm := markersIn_twins hsteady d hask₁ hask₂
    exact ⟨hm.same, hm.run₁, hm.run₂, hstream h₁ hp₁, hstream h₂ hp₂, rfl, rfl⟩

/-- **One directory.** -/
theorem walkDirWith_twins (hp : chunker.params.Valid) (hsteady : ctx.source.Steady)
    (hshares : ctx.source.Shares inode) {walk : Option Walk}
    (hwalk : WalkTwins keys chunker inode start₁ start₂ ctx.source walk) :
    WalkTwins keys chunker inode start₁ start₂ ctx.source (some (walkDirWith ctx walk)) := by
  intro w hw b₁ b₂ d parent₁ parent₂ visit r₁ r₂ h₁ h₂ hp₁ hp₂ hr₁ hr₂
  cases hw
  cases hlist : ctx.source.list 0 d with
  | error e =>
    unfold walkDirWith at hr₁ hr₂
    rw [hsteady.list, hlist] at hr₁ hr₂
    obtain ⟨hw₁, hid₁⟩ := (h₁.counts _ _ _).writeTree hr₁
    obtain ⟨hw₂, hid₂⟩ := (h₂.counts _ _ _).writeTree hr₂
    exact ⟨hid₁.trans hid₂.symm, hw₁, hw₂⟩
  | ok items =>
    rw [walkDirWith_eq ctx ((hsteady.list _ d).trans hlist)] at hr₁ hr₂
    obtain ⟨hmarkers, henter⟩ := enterDir_twins hsteady visit h₁ h₂ hp₁ hp₂
    rw [hmarkers] at hr₁
    obtain ⟨s₁, hs₁, hr₁⟩ := bind_eq_ok.1 hr₁
    obtain ⟨s₂, hs₂, hr₂⟩ := bind_eq_ok.1 hr₂
    have hend := Checked.foldlM_relation
      (R := LoopTwins keys chunker inode start₁ start₂ ctx.source d)
      (fun x hx s t s' t' hst => take_twins hp hsteady hshares hwalk hlist hx hst) henter hs₁ hs₂
    obtain ⟨hw₁, hid₁⟩ := hend.run₁.writeTree hr₁
    obtain ⟨hw₂, hid₂⟩ := hend.run₂.writeTree hr₂
    refine ⟨?_, hw₁, hw₂⟩
    rw [hid₁, hid₂, hend.children, hend.prev]

/-- **The walk of a directory.** By induction on the levels of directories below. -/
theorem walkDir_twins (hp : chunker.params.Valid) (hsteady : ctx.source.Steady)
    (hshares : ctx.source.Shares inode) : ∀ levels,
    WalkTwins keys chunker inode start₁ start₂ ctx.source (some (walkDir ctx levels))
  | 0 => walkDirWith_twins hp hsteady hshares nofun
  | levels + 1 => walkDirWith_twins hp hsteady hshares (walkDir_twins hp hsteady hshares levels)

/-! ### The sources -/

/-- What the parent snapshot has under the name of a source that is a single item is true of it. -/
def FileRootTrue (keys : RepoKeys) (chunker : Chunking.Chunker) (start : ℤ) (source : Source)
    (rel : RelPath) (item : SourceItem) (id : TreeId) : Prop :=
  ∀ e, Contains (Hashes keys) id [item.name] e → ItemTrue keys chunker start source rel item e

theorem fileRoot_twins (hp : chunker.params.Valid) (hsteady : ctx.source.Steady)
    (hshares : ctx.source.Shares inode) (h₁ : RunOk keys chunker inode start₁ b₁)
    (h₂ : RunOk keys chunker inode start₂ b₂) {rel : RelPath} {item : SourceItem}
    {parent₁ parent₂ : Option TreeId}
    (hp₁ : ∀ id ∈ parent₁, FileRootTrue keys chunker start₁ ctx.source rel item id)
    (hp₂ : ∀ id ∈ parent₂, FileRootTrue keys chunker start₂ ctx.source rel item id)
    {r₁ r₂ : TreeId × Backup} (hr₁ : fileRoot ctx b₁ rel item parent₁ = .ok r₁)
    (hr₂ : fileRoot ctx b₂ rel item parent₂ = .ok r₂) :
    Twins keys chunker inode start₁ start₂ r₁ r₂ := by
  obtain ⟨⟨e₁, b₁'⟩, he₁, hr₁⟩ := bind_eq_ok.1 hr₁
  obtain ⟨⟨e₂, b₂'⟩, he₂, hr₂⟩ := bind_eq_ok.1 hr₂
  have htrue₁ := @parentFileEntry_ok keys
    (fun _ e => ItemTrue keys chunker start₁ ctx.source rel item e) b₁ h₁.keys_eq [] item.name _ hp₁
  have htrue₂ := @parentFileEntry_ok keys
    (fun _ e => ItemTrue keys chunker start₂ ctx.source rel item e) b₂ h₂.keys_eq [] item.name _ hp₂
  have hentry : Twins keys chunker inode start₁ start₂ (e₁, b₁') (e₂, b₂') :=
    processEntry_twins hp hsteady hshares (by intro _ hw; cases hw) h₁ h₂ htrue₁ htrue₂
      (by intro hw; cases hw) (by intro hw; cases hw) he₁ he₂
  obtain ⟨rfl, hb₁, hb₂⟩ : e₁ = e₂ ∧ RunOk keys chunker inode start₁ b₁' ∧
    RunOk keys chunker inode start₂ b₂' := ⟨hentry.same, hentry.run₁, hentry.run₂⟩
  cases e₁ with
  | none => cases hr₁
  | some e =>
    obtain ⟨hw₁, hid₁⟩ := hb₁.writeTree hr₁
    obtain ⟨hw₂, hid₂⟩ := hb₂.writeTree hr₂
    exact ⟨hid₁.trans hid₂.symm, hw₁, hw₂⟩

theorem dirRoot_twins (hp : chunker.params.Valid) (hsteady : ctx.source.Steady)
    (hshares : ctx.source.Shares inode) (h₁ : RunOk keys chunker inode start₁ b₁)
    (h₂ : RunOk keys chunker inode start₂ b₂) {locator : Bytes} {dev : Option ℕ}
    {parent₁ parent₂ : Option TreeId}
    (hp₁ : ∀ id ∈ parent₁, ParentTree keys (ParentTrue keys chunker start₁ ctx.source) [] id)
    (hp₂ : ∀ id ∈ parent₂, ParentTree keys (ParentTrue keys chunker start₂ ctx.source) [] id)
    {r₁ r₂ : TreeId × Backup} (hr₁ : dirRoot ctx b₁ locator dev parent₁ = .ok r₁)
    (hr₂ : dirRoot ctx b₂ locator dev parent₂ = .ok r₂) :
    Twins keys chunker inode start₁ start₂ r₁ r₂ := by
  obtain ⟨state₁, hs₁, hr₁⟩ := bind_eq_ok.1 hr₁
  obtain ⟨state₂, hs₂, hr₂⟩ := bind_eq_ok.1 hr₂
  obtain rfl : state₁ = state₂ := Except.ok.inj (hs₁.symm.trans hs₂)
  exact walkDir_twins hp hsteady hshares _ _ rfl _ _ _ _ _ _ _ _ h₁ h₂ hp₁ hp₂ hr₁ hr₂

end Walks

end Backup

/-- The source of a plan does not change, and the names of an inode share their content. -/
def RootPlan.Steady (inode : InodeKey → Option Bytes) : RootPlan → Prop
  | .localDir fs path _ =>
    (∀ tick, fs.symlinkMetadata tick path = fs.symlinkMetadata 0 path) ∧
      (fs.source path).Steady ∧ (fs.source path).Shares inode
  | .localFile fs path =>
    (∀ tick, fs.symlinkMetadata tick path = fs.symlinkMetadata 0 path) ∧
      (fs.source path.dropLast).Steady ∧ (fs.source path.dropLast).Shares inode
  | .remote source => source.Steady ∧ source.Shares inode

/-- A tree of the parent snapshot is true of the source of a plan. -/
def RootPlan.TrueParent (keys : RepoKeys) (chunker : Chunking.Chunker) (start : ℤ) (locator : Bytes)
    (id : TreeId) : RootPlan → Prop
  | .localDir fs path _ =>
    Backup.ParentTree keys (Backup.ParentTrue keys chunker start (fs.source path)) [] id
  | .localFile fs path => ∀ name ∈ path.getLast?, ∀ item,
    Backup.localFileItem fs 0 path name = .ok item →
      Backup.FileRootTrue keys chunker start (fs.source path.dropLast) [name] item id
  | .remote source => ∀ items, source.list 0 [] = .ok items →
    match Backup.remoteFile items locator with
    | some item => Backup.FileRootTrue keys chunker start source [] item id
    | none => Backup.ParentTree keys (Backup.ParentTrue keys chunker start source) [] id

namespace Backup

section Roots

variable {keys : RepoKeys} {chunker : Chunking.Chunker} {inode : InodeKey → Option Bytes}
  {start₁ start₂ : ℤ} {b₁ b₂ : Backup} {exclude : Exclusions}

/-- **One source.** -/
theorem prepareRoot_twins (hp : chunker.params.Valid) {plan : RootPlan}
    (hsteady : plan.Steady inode)
    (h₁ : RunOk keys chunker inode start₁ b₁) (h₂ : RunOk keys chunker inode start₂ b₂)
    {locator : Bytes} {parent₁ parent₂ : Option TreeId}
    (hp₁ : ∀ id ∈ parent₁, plan.TrueParent keys chunker start₁ locator id)
    (hp₂ : ∀ id ∈ parent₂, plan.TrueParent keys chunker start₂ locator id)
    {r₁ r₂ : TreeId × Backup} (hr₁ : b₁.prepareRoot exclude locator parent₁ plan = .ok r₁)
    (hr₂ : b₂.prepareRoot exclude locator parent₂ plan = .ok r₂) :
    Twins keys chunker inode start₁ start₂ r₁ r₂ := by
  have hask₁ : RunOk keys chunker inode start₁ b₁.ask := h₁.counts _ _ _
  have hask₂ : RunOk keys chunker inode start₂ b₂.ask := h₂.counts _ _ _
  unfold prepareRoot at hr₁ hr₂
  cases plan with
  -- the metadata of a steady source does not depend on the tick, so both runs enter the root with
  -- the same device
  | localDir fs path named =>
    obtain ⟨hmeta, hsource, hshares⟩ := hsteady
    dsimp only at hr₁ hr₂
    rw [hmeta] at hr₁ hr₂
    by_cases hone : exclude.oneFileSystem = true
    · rw [if_pos hone] at hr₁ hr₂
      cases hfound : fs.symlinkMetadata 0 path with
      | error e => rw [hfound] at hr₁; cases hr₁
      | ok found =>
        rw [hfound] at hr₁ hr₂
        exact dirRoot_twins hp hsource hshares hask₁ hask₂ hp₁ hp₂ hr₁ hr₂
    · rw [if_neg hone] at hr₁ hr₂
      exact dirRoot_twins hp hsource hshares h₁ h₂ hp₁ hp₂ hr₁ hr₂
  | localFile fs path =>
    obtain ⟨hmeta, hsource, hshares⟩ := hsteady
    dsimp only at hr₁ hr₂
    cases hlast : path.getLast? with
    | none => rw [hlast] at hr₁; cases hr₁
    | some name =>
      rw [hlast] at hr₁ hr₂
      obtain ⟨item₁, hitem₁, hr₁⟩ := bind_eq_ok.1 hr₁
      obtain ⟨item₂, hitem₂, hr₂⟩ := bind_eq_ok.1 hr₂
      have hitem : ∀ tick, localFileItem fs tick path name = localFileItem fs 0 path name :=
        fun tick => by
          unfold localFileItem
          rw [hmeta]
      rw [hitem] at hitem₁ hitem₂
      obtain rfl : item₁ = item₂ := Except.ok.inj (hitem₁.symm.trans hitem₂)
      exact fileRoot_twins hp hsource hshares hask₁ hask₂
        (fun id hid => hp₁ id hid name hlast item₁ hitem₁)
        (fun id hid => hp₂ id hid name hlast item₁ hitem₁) hr₁ hr₂
  -- a remote source is a file or a directory by its listing, which is the same for both runs
  | remote source =>
    obtain ⟨hsource, hshares⟩ := hsteady
    dsimp only at hr₁ hr₂
    rw [hsource.list] at hr₁ hr₂
    cases hlist : source.list 0 [] with
    | error e => rw [hlist] at hr₁; cases hr₁
    | ok items =>
      rw [hlist] at hr₁ hr₂
      have htrue₁ := fun id hid => hp₁ id hid items hlist
      have htrue₂ := fun id hid => hp₂ id hid items hlist
      dsimp only at hr₁ hr₂
      cases hfile : remoteFile items locator with
      | none =>
        rw [hfile] at hr₁ hr₂ htrue₁ htrue₂
        exact dirRoot_twins hp hsource hshares hask₁ hask₂ htrue₁ htrue₂ hr₁ hr₂
      | some item =>
        rw [hfile] at hr₁ hr₂ htrue₁ htrue₂
        exact fileRoot_twins hp hsource hshares hask₁ hask₂ htrue₁ htrue₂ hr₁ hr₂

/-- **All sources.** -/
theorem prepareRoots_twins (hp : chunker.params.Valid) {parents₁ parents₂ : List Root} :
    ∀ (plans : List (Bytes × RootPlan)) (b₁ b₂ : Backup) (r₁ r₂ : List Root × Backup),
      (∀ plan ∈ plans, plan.2.Steady inode) →
      (∀ plan ∈ plans, ∀ root ∈ parents₁, root.path = plan.1 →
        plan.2.TrueParent keys chunker start₁ plan.1 root.tree) →
      (∀ plan ∈ plans, ∀ root ∈ parents₂, root.path = plan.1 →
        plan.2.TrueParent keys chunker start₂ plan.1 root.tree) →
      RunOk keys chunker inode start₁ b₁ → RunOk keys chunker inode start₂ b₂ →
      b₁.prepareRoots exclude parents₁ plans = .ok r₁ →
      b₂.prepareRoots exclude parents₂ plans = .ok r₂ →
        r₁.1 = r₂.1
  | [], b₁, b₂, r₁, r₂, _, _, _, _, _, hr₁, hr₂ => by
    cases hr₁
    cases hr₂
    rfl
  | (locator, plan) :: plans, b₁, b₂, r₁, r₂, hsteady, hp₁, hp₂, h₁, h₂, hr₁, hr₂ => by
    obtain ⟨⟨id₁, b₁'⟩, hroot₁, hr₁⟩ := bind_eq_ok.1 hr₁
    obtain ⟨⟨id₂, b₂'⟩, hroot₂, hr₂⟩ := bind_eq_ok.1 hr₂
    obtain ⟨⟨roots₁, b₁''⟩, hroots₁, hr₁⟩ := bind_eq_ok.1 hr₁
    obtain ⟨⟨roots₂, b₂''⟩, hroots₂, hr₂⟩ := bind_eq_ok.1 hr₂
    have hparent : ∀ {start : ℤ} {parents : List Root}, (∀ root ∈ parents, root.path = locator →
          plan.TrueParent keys chunker start locator root.tree) →
        ∀ id ∈ (parents.find? fun r => r.path = locator).map Root.tree,
          plan.TrueParent keys chunker start locator id := by
      intro start parents hp id hid
      obtain ⟨root, hroot, rfl⟩ := Option.map_eq_some_iff.1 hid
      exact hp root (List.mem_of_find?_eq_some hroot) (by simpa using List.find?_some hroot)
    have hroot := prepareRoot_twins hp (hsteady _ List.mem_cons_self) h₁ h₂
      (hparent (hp₁ _ List.mem_cons_self)) (hparent (hp₂ _ List.mem_cons_self)) hroot₁ hroot₂
    have hroots := prepareRoots_twins hp plans b₁' b₂' _ _
      (fun plan h => hsteady plan (List.mem_cons_of_mem _ h))
      (fun plan h => hp₁ plan (List.mem_cons_of_mem _ h))
      (fun plan h => hp₂ plan (List.mem_cons_of_mem _ h)) hroot.run₁ hroot.run₂ hroots₁ hroots₂
    cases hr₁
    cases hr₂
    obtain rfl : id₁ = id₂ := hroot.same
    exact congrArg (⟨locator, id₁⟩ :: ·) hroots

end Roots

end Backup

/-! ### Two runs -/

/-- The parent snapshot that a backup finds, if any, is true of its sources: its files were made
from some bytes, and the fields that tell of a change tell the truth. -/
def Repository.TrueParent (repo : Repository) (chunker : Chunking.Chunker) (clientId : ClientId)
    (plans : List (Bytes × RootPlan)) : Prop :=
  ∀ key snap, repo.findParent clientId (plans.map Prod.fst) = some (key, snap) →
    ∀ plan ∈ plans, ∀ root ∈ snap.roots, root.path = plan.1 →
      plan.2.TrueParent repo.keys chunker snap.timeNs plan.1 root.tree

section Runs

variable {repo : Repository} {opts : BackupOptions} {nonce : ℕ} {started now : Time}
  {p : PreparedBackup}

theorem Prepared.runOk_start (h : Prepared repo opts nonce started now p)
    (inode : InodeKey → Option Bytes) :
    Backup.RunOk repo.keys h.chunker inode (h.parent.elim 0 fun p => p.2.timeNs) h.start :=
  ⟨rfl, rfl, rfl, fun key c hc => by cases hc⟩

/-- The roots of the parent are those of the snapshot that was found, or there are none. -/
theorem Prepared.trueParent (h : Prepared repo opts nonce started now p)
    (hp : repo.TrueParent h.chunker opts.clientId h.plans) :
    ∀ plan ∈ h.plans, ∀ root ∈ h.parentRoots, root.path = plan.1 →
      plan.2.TrueParent repo.keys h.chunker (h.parent.elim 0 fun p => p.2.timeNs) plan.1
        root.tree := by
  intro plan hplan root hroot hpath
  unfold Prepared.parentRoots at hroot
  cases hfound : h.parent with
  | none =>
    rw [hfound] at hroot
    cases hroot
  | some found =>
    rw [hfound] at hroot
    exact hp found.1 found.2 (h.found ▸ hfound) plan hplan root hroot hpath

end Runs

variable {repo₁ repo₂ : Repository} {opts₁ opts₂ : BackupOptions} {nonce₁ nonce₂ : ℕ}
  {started₁ started₂ now₁ now₂ : Time} {p₁ p₂ : PreparedBackup}

/-- **Snapshot content does not depend on the repository.** Two backups of sources that do not
change, into repositories with the same keys and chunker parameters, have the same roots, with the
same trees. -/
theorem backupPrepare_roots_eq (hkeys : repo₁.keys = repo₂.keys)
    (hparams : repo₁.config.chunker = repo₂.config.chunker) (hvalid : repo₁.config.chunker.Valid)
    (hsource : opts₁.source = opts₂.source) (hexclude : opts₁.exclude = opts₂.exclude)
    {inode : InodeKey → Option Bytes} {plans : List (Bytes × RootPlan)}
    (hplans : opts₁.source.plan = .ok plans) (hsteady : ∀ plan ∈ plans, plan.2.Steady inode)
    {chunker : Chunking.Chunker} (hchunker : repo₁.newChunker = .ok chunker)
    (hp₁ : repo₁.TrueParent chunker opts₁.clientId plans)
    (hp₂ : repo₂.TrueParent chunker opts₂.clientId plans)
    (h₁ : repo₁.backupPrepare opts₁ nonce₁ started₁ now₁ = .ok p₁)
    (h₂ : repo₂.backupPrepare opts₂ nonce₂ started₂ now₂ = .ok p₂) : p₁.roots = p₂.roots := by
  obtain ⟨hrun₁⟩ := backupPrepare_ok h₁
  obtain ⟨hrun₂⟩ := backupPrepare_ok h₂
  obtain rfl : hrun₁.plans = plans := Except.ok.inj (hrun₁.plan.symm.trans hplans)
  have hplans₂ : hrun₂.plans = hrun₁.plans :=
    Except.ok.inj (hrun₂.plan.symm.trans (hsource ▸ hplans))
  obtain rfl : hrun₁.chunker = chunker := Except.ok.inj (hrun₁.new.symm.trans hchunker)
  have hchunker₂ : hrun₂.chunker = hrun₁.chunker := by
    refine Except.ok.inj (hrun₂.new.symm.trans (Eq.trans ?_ hchunker))
    unfold Repository.newChunker
    rw [hparams]
  have htrue₂ := hrun₂.trueParent (hplans₂ ▸ hchunker₂ ▸ hp₂)
  have hstart₂ := hrun₂.runOk_start inode
  have hwalk₂ := hrun₂.walk
  rw [hplans₂, hchunker₂, ← hkeys] at htrue₂
  rw [hchunker₂, ← hkeys] at hstart₂
  rw [hplans₂, ← hexclude] at hwalk₂
  have hroots := Backup.prepareRoots_twins (hrun₁.chunker_valid hvalid) hrun₁.plans hrun₁.start
    hrun₂.start _ _ hsteady (hrun₁.trueParent hp₁) htrue₂ (hrun₁.runOk_start inode) hstart₂
    hrun₁.walk hwalk₂
  rw [hrun₁.eq, hrun₂.eq]
  exact hroots

theorem SourceTree.steady_source (tree : SourceTree) : tree.source.Steady :=
  ⟨fun _ _ => rfl, fun _ _ => rfl, fun _ _ _ => rfl, fun _ _ => rfl, fun _ _ => rfl⟩

/-! ### A backup with a parent and one without -/

/-- The entry of the file in `r`, as an earlier backup has written it. -/
def oneByteEntry : Entry where
  name := [102]
  kind := .file
  metaKind := .posix
  size := 1
  chunks := [RepoKeys.ideal.chunkId [7]]
  mode := some 0o100644
  uid := some 0
  gid := some 0
  mtimeNs := some 5
  ctimeNs := some 5

/-- The tree of `r`, as an earlier backup has written it. -/
def oneByteTree : Tree := .new [oneByteEntry] none

/-- The index blob of the earlier backup. -/
def oneByteBlob : Sealed :=
  .indexBlob 0 (.new [⟨1, 49, [⟨RepoKeys.ideal.chunkId [7], 8, 41, 1⟩]⟩])

/-- The snapshot of the earlier backup. -/
def oneByteSnapshot : Snapshot :=
  ⟨formatVersion, [⟨pathBytes [[114]], RepoKeys.ideal.treeId oneByteTree⟩], 50, "host", "user", 1,
    none, {}⟩

/-- A repository with a backup of `r`, which keeps replicas and has a mark. -/
def Repository.oneByteAgain : Repository where
  keys := .ideal
  config := ⟨.default, 2048, 1⟩
  store :=
    { packs := Dict.collect [(1, ⟨49, []⟩)]
      indexes := Dict.collect [(RepoKeys.ideal.objectId oneByteBlob, oneByteBlob)]
      trees := Dict.collect
        [(RepoKeys.ideal.treeId oneByteTree, .tree (RepoKeys.ideal.treeId oneByteTree) oneByteTree)]
      treeReplicas := ∅
      touches := ∅
      marks := Dict.collect [(7, 3)]
      snapshots := Dict.collect
        [(oneByteSnapshot.key, .snapshot oneByteSnapshot.key oneByteSnapshot)]
      snapshotReplicas := ∅ }

/-- The earlier snapshot has no other entry than that of the file. -/
theorem oneByteTree_contains {path : RelPath} {e : Entry}
    (h : Contains (Backup.Hashes .ideal) (RepoKeys.ideal.treeId oneByteTree) path e) :
    path = [[102]] ∧ e.fileContent = ⟨1, [RepoKeys.ideal.chunkId [7]], .direct⟩ := by
  have hsegment : ∀ {t : Tree},
    Segment (Backup.Hashes .ideal) (RepoKeys.ideal.treeId oneByteTree) t →
      t = oneByteTree := by
    intro t ht
    cases ht with
    | last h => exact RepoKeys.treeId_ideal_injective h
    | prev h hprev _ =>
      rw [RepoKeys.treeId_ideal_injective h] at hprev
      exact absurd hprev (by simp [oneByteTree, Tree.new])
  have hentries : ∀ e ∈ oneByteTree.entries, e = oneByteEntry := fun e he =>
    List.mem_singleton.1 he
  cases h with
  | here ht he =>
    rw [hsegment ht] at he
    obtain rfl := hentries _ he
    exact ⟨rfl, rfl⟩
  | deeper ht he hkind _ =>
    rw [hsegment ht] at he
    rw [hentries _ he] at hkind
    cases hkind

/-- The first run finds an empty repository, the second one takes the file over from its parent. -/
theorem backupPrepare_roots_eq_oneByte :
    ∃ p₁ p₂, Repository.emptyIdeal.backupPrepare oneByteOptions 0 100 100 = .ok p₁ ∧
      Repository.oneByteAgain.backupPrepare oneByteOptions 5 200 200 = .ok p₂ ∧
      p₁.report.filesReused = 0 ∧ p₂.report.filesReused = 1 ∧ p₁.roots = p₂.roots := by
  have hreused₁ : (Repository.emptyIdeal.backupPrepare oneByteOptions 0 100 100).toOption.map
      (fun p => p.report.filesReused) = some 0 := by decide +kernel
  have hreused₂ : (Repository.oneByteAgain.backupPrepare oneByteOptions 5 200 200).toOption.map
      (fun p => p.report.filesReused) = some 1 := by decide +kernel
  have hvalid := ChunkerParams.valid_of_validate ChunkerParams.validate_default
  obtain ⟨chunker, hchunker, -⟩ : ∃ chunker,
    Repository.emptyIdeal.newChunker = .ok chunker ∧ True := by
    obtain ⟨c, hc, -⟩ := Chunking.new_ok hvalid
    refine ⟨c, ?_, trivial⟩
    unfold Repository.newChunker
    rw [show Repository.emptyIdeal.config.chunker = .default from rfl, hc]
  have hcontent : (Repository.emptyIdeal.newChunker.toOption.map fun c =>
      Backup.contentOf .ideal c [7]) = some ⟨1, [RepoKeys.ideal.chunkId [7]], .direct⟩ := by
    decide +kernel
  rw [hchunker] at hcontent
  have hshares : (oneByte.below [[114]]).source.Shares fun _ => none := by
    intro rel p hp hlink bytes
    refine ⟨fun hread => ?_, fun h => by cases h⟩
    replace hp : (oneByte.node ([[114]] ++ rel)).map SourceNode.posix = some p := hp
    cases hnode : oneByte.node ([[114]] ++ rel) with
    | none => rw [hnode] at hp; cases hp
    | some node =>
      rw [hnode] at hp
      cases node with
      | dir | symlink =>
        dsimp only [SourceTree.source, SourceTree.below] at hread
        rw [hnode] at hread
        cases hread
      | file posix content =>
        obtain rfl : posix = p := Option.some.inj hp
        have honce := SourceTree.forall_of_ofItems
          (P := fun _ node => ∀ posix content, node = .file posix content → posix.nlink = 1)
          (by simp) hnode posix content rfl
        omega
  have hparent : Repository.oneByteAgain.findParent 1 [pathBytes [[114]]] =
      some (oneByteSnapshot.key, oneByteSnapshot) := by decide +kernel
  have hsteady : RootPlan.Steady (fun _ => none)
      (.localDir (oneByte.localFs fun _ => .ok [[114]]) [[114]] []) :=
    ⟨fun _ => rfl, SourceTree.steady_source _, hshares⟩
  have hkeys : Repository.emptyIdeal.keys = Repository.oneByteAgain.keys := rfl
  have hparams : Repository.emptyIdeal.config.chunker = Repository.oneByteAgain.config.chunker :=
    rfl
  have hplans : oneByteOptions.source.plan = .ok [(pathBytes [[114]],
      .localDir (oneByte.localFs fun _ => .ok [[114]]) [[114]] [])] := rfl
  cases hp₁ : Repository.emptyIdeal.backupPrepare oneByteOptions 0 100 100 with
  | error e => rw [hp₁] at hreused₁; cases hreused₁
  | ok p₁ =>
    cases hp₂ : Repository.oneByteAgain.backupPrepare oneByteOptions 5 200 200 with
    | error e => rw [hp₂] at hreused₂; cases hreused₂
    | ok p₂ =>
      rw [hp₁] at hreused₁
      rw [hp₂] at hreused₂
      have hroots : p₁.roots = p₂.roots := by
        refine backupPrepare_roots_eq hkeys hparams hvalid rfl rfl hplans
          (List.forall_mem_singleton.2 hsteady) hchunker ?_ ?_ hp₁ hp₂
        · intro key snap hfound
          rw [show Repository.emptyIdeal.findParent _ _ = none from rfl] at hfound
          cases hfound
        · intro key snap hfound plan hplan root hroot _
          obtain rfl := List.mem_singleton.1 hplan
          obtain ⟨rfl, rfl⟩ : oneByteSnapshot.key = key ∧ oneByteSnapshot = snap := by
            simpa using hparent.symm.trans hfound
          obtain rfl := List.mem_singleton.1 hroot
          intro path e he
          obtain ⟨rfl, hcontents⟩ := oneByteTree_contains he
          intro d items item _ _ _ size mtimeNs etag vern _ _
          exact ⟨[7], hcontents.trans (Option.some.inj hcontent).symm, fun _ => rfl⟩
      exact ⟨p₁, p₂, rfl, rfl, Option.some.inj hreused₁, Option.some.inj hreused₂, hroots⟩

end Kist
