import Kist.Lifetime.Uploads
import Kist.RoundTrip.Recorded

/-!
# What a backup writes stands for bytes

A backup cuts the files that it reads, or takes contents over from the parent snapshot. So if the
contents of the parent stand for bytes, all of which there are as many as recorded, the new ones do,
whatever the source is and whatever becomes of it meanwhile.

* `Entry.Genuine`: the content of an entry stands for bytes.
* `Backup.Genuine`: those of the trees that a run has written or taken over.
* `prepareRoots_genuine`: what the walk of the sources makes of it.
-/

namespace Kist

open Checked (bind_eq_ok)

/-- If the entry is that of a file, its content stands for some bytes. -/
def Entry.Genuine (keys : RepoKeys) (e : Entry) : Prop :=
  e.kind = .file → ∃ bytes, e.fileContent.Holds keys bytes

/-- The files below a tree have contents that stand for bytes. -/
def RepoKeys.GenuineTree (keys : RepoKeys) (id : TreeId) : Prop :=
  Backup.ParentTree keys (fun _ e => e.Genuine keys) [] id

namespace Backup

/-- The contents that a run has recorded so far stand for bytes. -/
structure Genuine (keys : RepoKeys) (b : Backup) : Prop where
  keys_eq : b.repo.keys = keys
  valid : b.chunker.params.Valid
  links : ∀ key c, b.hardlinks.lookup key = some c → ∃ bytes, c.Holds keys bytes
  trees : ∀ id ∈ b.seenTrees, ∃ t : Tree, keys.treeId t = id ∧ ∀ e ∈ t.entries, e.Genuine keys

section Genuine

variable {keys : RepoKeys} {b b' : Backup} {ctx : SourceCtx} {visit : Visit} {d rel : RelPath}

theorem Genuine.counts (h : Genuine keys b) (stats : SnapshotStats) (report : BackupReport)
    (tick : ℕ) : Genuine keys { b with stats, report, tick } :=
  ⟨h.1, h.2, h.3, h.4⟩

theorem Genuine.writeTree (h : Genuine keys b) {t : Tree} {r : TreeId × Backup}
    (hentries : ∀ e ∈ t.entries, e.Genuine keys) (hw : b.writeTree t = .ok r) :
    Genuine keys r.2 := by
  obtain ⟨id, b'⟩ := r
  have hseen : ∀ k ∈ b'.seenTrees, k ∈ b.seenTrees ∨ keys.treeId t = k := by
    obtain ⟨hid, -, ⟨-, rfl⟩ | ⟨b₁, rfl, hb'⟩⟩ := writeTree_cases hw
    · exact fun k hk => .inl hk
    · intro k hk
      have hk : k ∈ id :: b.seenTrees := by
        rcases hb' with rfl | rfl
        · simpa using hk
        · simpa [touchTree] using hk
      rcases List.mem_cons.1 hk with rfl | hk
      · exact .inr (by rw [hid, h.keys_eq])
      · exact .inl hk
  obtain ⟨trees, replicas, touches, seenTrees, heq⟩ := writeTree_eq hw
  dsimp only at heq ⊢
  subst heq
  refine ⟨h.keys_eq, h.valid, h.links, fun k hk => ?_⟩
  rcases hseen k hk with hk | hk
  · exact h.trees k hk
  · exact ⟨t, hk, hentries⟩

/-- **A visit of a file.** Its content stands for bytes if that of its parent does. -/
theorem Genuine.processFile (hdecode : ∀ l, keys.decodeList (keys.encodeList l) = some l)
    (h : Genuine keys b) (source : Source) (rel : RelPath) (f : FileFacts) {parent : Option Entry}
    (hparent : ∀ e ∈ parent, e.Genuine keys) :
    Genuine keys (b.processFile source rel f parent).2 ∧
      ∀ c ∈ (b.processFile source rel f parent).1, ∃ bytes, c.Holds keys bytes := by
  have hs := b.sameVisit_processFile source rel f parent
  have hcases := b.processFile_cases h.valid source rel f parent
  generalize hr : b.processFile source rel f parent = r at hs hcases
  obtain ⟨c, b'⟩ := r
  dsimp only at hs hcases ⊢
  have hafter : (∀ key c, b'.hardlinks.lookup key = some c → ∃ bytes, c.Holds keys bytes) →
      Genuine keys b' := fun hlinks =>
    ⟨hs.keys.trans h.keys_eq, hs.chunker ▸ h.valid, hlinks, hs.seenTrees ▸ h.trees⟩
  generalize hlinks : b'.hardlinks = links at hcases hafter
  cases hcases with
  | skipped => exact ⟨hafter h.links, fun c hc => by cases hc⟩
  -- the parent's entry is genuine already
  | reused hc =>
    obtain ⟨pentry, rfl, hkind, -, -, rfl⟩ := b.tryReuse_eq_some hc
    refine ⟨hafter h.links, fun c hc => ?_⟩
    cases hc
    exact hparent pentry rfl hkind
  | shared _ _ hc =>
    refine ⟨hafter h.links, fun c' hc' => ?_⟩
    cases hc'
    exact h.links _ _ hc
  | @read bytes =>
    have hholds : (contentOf b.repo.keys b.chunker bytes).Holds keys bytes := by
      rw [h.keys_eq]
      exact contentOf_holds hdecode h.valid bytes
    refine ⟨hafter fun k c hc => ?_, fun c hc => ?_⟩
    · cases hkey : hardlinkKey f with
      | none =>
        rw [hkey] at hc
        exact h.links k c hc
      | some key =>
        rw [hkey] at hc
        dsimp only at hc
        rw [Dict.lookup_insert'] at hc
        split_ifs at hc
        · cases hc
          exact ⟨bytes, hholds⟩
        · exact h.links k c hc
    · cases hc
      exact ⟨bytes, hholds⟩

/-! ### The walk -/

/-- What the walk of a directory below has to keep. -/
def WalkGenuine (keys : RepoKeys) (walk : Option Walk) : Prop :=
  ∀ w ∈ walk, ∀ b d parent visit r, Genuine keys b → (∀ id ∈ parent, keys.GenuineTree id) →
    w b d parent visit = .ok r → Genuine keys r.2

theorem Genuine.withXattrs (h : Genuine keys b) (ctx : SourceCtx) (rel : RelPath) (e : Entry) :
    Genuine keys (withXattrs ctx b rel e).2 ∧ (withXattrs ctx b rel e).1.kind = e.kind ∧
      (withXattrs ctx b rel e).1.fileContent = e.fileContent := by
  obtain ⟨xattrs, tick, heq⟩ := withXattrs_eq ctx b rel e
  rw [heq]
  exact ⟨h.counts _ _ _, rfl, rfl⟩

theorem Genuine.processDir {walk : Walk} (hwalk : WalkGenuine keys (some walk)) (h : Genuine keys b)
    {name : Bytes} {posix : Option PosixMeta} {parent : Option Entry}
    (hparent : ∀ e ∈ parent, e.kind = .dir → keys.GenuineTree e.subtree) {r : Entry × Backup}
    (hr : processDir ctx walk b rel name posix parent visit = .ok r) :
    Genuine keys r.2 ∧ r.1.Genuine keys := by
  obtain ⟨⟨subtree, b₁⟩, hsub, hr⟩ := bind_eq_ok.1 hr
  have h₁ : Genuine keys b₁ := by
    unfold walkSubtree at hsub
    split at hsub
    · exact (h.counts _ _ _).writeTree (List.forall_mem_nil _) hsub
    · refine hwalk walk rfl _ _ _ _ _ h (fun id hid => ?_) hsub
      obtain ⟨e, he, hid⟩ := Option.bind_eq_some_iff.1 hid
      split_ifs at hid with hdir
      cases hid
      exact hparent e he hdir.1
  cases hr
  have hentry : ∀ e : Entry, e.kind = .dir →
      Genuine keys (Backup.withXattrs ctx { b₁ with stats.dirs := b₁.stats.dirs + 1 } rel e).2 ∧
      (Backup.withXattrs ctx { b₁ with stats.dirs := b₁.stats.dirs + 1 } rel e).1.Genuine keys := by
    intro e hkind
    obtain ⟨h₂, hk, -⟩ := (h₁.counts { b₁.stats with dirs := b₁.stats.dirs + 1 } b₁.report
      b₁.tick).withXattrs ctx rel e
    exact ⟨h₂, fun hfile => by rw [hk, hkind] at hfile; cases hfile⟩
  exact hentry _ (by cases ctx.source.metaKind <;> cases posix <;> rfl)

theorem Genuine.processRegular (hdecode : ∀ l, keys.decodeList (keys.encodeList l) = some l)
    (h : Genuine keys b) {name : Bytes} {size : ℕ} {mtimeNs : ℤ} {etag vern : Option Bytes}
    {posix : Option PosixMeta} {parent : Option Entry} (hparent : ∀ e ∈ parent, e.Genuine keys) :
    Genuine keys (processRegular ctx b rel name size mtimeNs etag vern posix parent).2 ∧
      ∀ e ∈ (processRegular ctx b rel name size mtimeNs etag vern posix parent).1,
        e.Genuine keys := by
  obtain ⟨h₁, hc⟩ := h.processFile hdecode ctx.source rel ⟨size, posix, etag⟩ hparent
  unfold Backup.processRegular
  rcases hp : b.processFile ctx.source rel ⟨size, posix, etag⟩ parent with ⟨_ | c, b₁⟩ <;>
    rw [hp] at h₁ hc
  · exact ⟨h₁, fun e he => by cases he⟩
  have h₂ : Genuine keys { b₁ with stats.files := b₁.stats.files + 1 } := h₁.counts _ _ _
  have hgenuine : ∀ e : Entry, e.fileContent = c → e.Genuine keys := fun e he _ => by
    rw [he]
    exact hc c rfl
  dsimp only
  split
  · refine ⟨(h₂.withXattrs ctx rel _).1, fun e hmem => ?_⟩
    cases hmem
    exact hgenuine _ (h₂.withXattrs ctx rel _).2.2
  · exact ⟨h₂.counts _ _ _, fun e he => by cases he⟩
  · refine ⟨h₂, fun e hmem => ?_⟩
    cases hmem
    exact hgenuine _ rfl
  · refine ⟨h₂, fun e hmem => ?_⟩
    cases hmem
    exact hgenuine _ rfl

/-- **One item.** -/
theorem Genuine.processEntry (hdecode : ∀ l, keys.decodeList (keys.encodeList l) = some l)
    {walk : Option Walk} (hwalk : WalkGenuine keys walk) (h : Genuine keys b) {item : SourceItem}
    {parent : Option Entry} (hparent : ∀ e ∈ parent, e.Genuine keys ∧
      (e.kind = .dir → keys.GenuineTree e.subtree)) {r : Option Entry × Backup}
    (hr : processEntry ctx walk b rel item parent visit = .ok r) :
    Genuine keys r.2 ∧ ∀ e ∈ r.1, e.Genuine keys := by
  have hask : Genuine keys b.ask := h.counts _ _ _
  unfold Backup.processEntry at hr
  cases hkind : item.kind with
  | symlink target =>
    rw [hkind] at hr
    dsimp only [processSymlink] at hr
    generalize (if ctx.source.metaKind = .posix then ctx.source.lstat b.tick rel else none) =
      posix at hr
    obtain ⟨h₁, hk, -⟩ := (hask.counts { b.ask.stats with symlinks := b.ask.stats.symlinks + 1 }
      b.ask.report b.ask.tick).withXattrs ctx rel (posix.elim
        { name := item.name, kind := .symlink, metaKind := ctx.source.metaKind, target } fun p =>
          fillPosixMeta {
            name := item.name, kind := .symlink, metaKind := ctx.source.metaKind, target }
            p false)
    cases hr
    refine ⟨h₁, fun e he hfile => ?_⟩
    cases he
    rw [hk] at hfile
    cases posix <;> cases hfile
  | dir =>
    rw [hkind] at hr
    cases walk with
    | none =>
      cases hr
      exact ⟨hask.counts _ _ _, fun e he => by cases he⟩
    | some w =>
      obtain ⟨⟨e, b₁⟩, hdir, hr⟩ := bind_eq_ok.1 hr
      cases hr
      obtain ⟨h₁, he₁⟩ := hask.processDir hwalk (fun e he => (hparent e he).2) hdir
      exact ⟨h₁, fun e' he' => by cases he'; exact he₁⟩
  | file size mtimeNs etag vern =>
    rw [hkind] at hr
    dsimp only at hr
    by_cases hfs : visit.otherFs
        (if ctx.source.metaKind = .posix then ctx.source.lstat b.tick rel else none) = true
    · rw [if_pos hfs] at hr
      cases hr
      exact ⟨hask.counts _ _ _, fun e he => by cases he⟩
    · rw [if_neg hfs] at hr
      cases hr
      exact hask.processRegular hdecode fun e he => (hparent e he).1

/-- What holds of the loop of `walk_dir`. -/
structure LoopGenuine (keys : RepoKeys) (s : Loop) : Prop where
  genuine : Genuine keys s.b
  children : ∀ e ∈ s.children, e.Genuine keys
  parents : ∀ ps ∈ s.parents, StreamOk keys (fun _ e => e.Genuine keys) [] ps

/-- What the parent snapshot has under a name. -/
theorem LoopGenuine.parentEntry {s : Loop} (h : LoopGenuine keys s) (name : Bytes) :
    (∀ ps ∈ (s.parentEntry name).2, StreamOk keys (fun _ e => e.Genuine keys) [] ps) ∧
      ∀ e ∈ (s.parentEntry name).1, e.Genuine keys ∧
        (e.kind = .dir → keys.GenuineTree e.subtree) := by
  unfold Loop.parentEntry
  cases hps : s.parents with
  | none => exact ⟨(fun ps hps => by cases hps), fun e he => by cases he⟩
  | some ps =>
    obtain ⟨h₁, h₂⟩ := takeName_ok h.genuine.keys_eq name (h.parents ps hps)
    refine ⟨fun ps' hps' => ?_, fun e he => ⟨(h₂ e he).2.ok, (h₂ e he).2.below⟩⟩
    cases hps'
    exact h₁

theorem LoopGenuine.take (hdecode : ∀ l, keys.decodeList (keys.encodeList l) = some l)
    {walk : Option Walk} (hwalk : WalkGenuine keys walk) {markers : Option (List Bytes)}
    {s s' : Loop} {x : Except String SourceItem} (h : LoopGenuine keys s)
    (hs : Loop.take ctx walk d markers visit s x = .ok s') : LoopGenuine keys s' := by
  obtain ⟨errors, excluded, rfl⟩ | ⟨item, child, r, -, -, -, hr, hcase⟩ := take_cases hs
  · exact ⟨h.genuine.counts _ _ _, h.children, h.parents⟩
  · obtain ⟨hparents, hentry⟩ := h.parentEntry item.name
    obtain ⟨h₁, he₁⟩ := h.genuine.processEntry hdecode hwalk hentry hr
    have hchildren : ∀ e ∈ s.children ++ r.1.toList, e.Genuine keys :=
      List.forall_mem_append.2 ⟨h.children, fun e he => he₁ e (Option.mem_toList.1 he)⟩
    rcases hcase with ⟨id, b₂, hwrite, rfl⟩ | rfl
    · exact ⟨h₁.writeTree hchildren hwrite, List.forall_mem_nil _, hparents⟩
    · exact ⟨h₁, hchildren, hparents⟩

/-- The state in which the loop starts. -/
theorem enterDir_eq (ctx : SourceCtx) (b : Backup) (d : RelPath) (parent : Option TreeId)
    (visit : Visit) : ∃ tick, (enterDir ctx b d parent visit).2 =
      ⟨{ b with tick }, parent.bind fun id => (b.repo.openParent id).toOption, [], none⟩ := by
  have hmarkers : ∀ (ms : List Marker) (found : List Bytes) (tick : ℕ), ∃ found' tick',
      ms.foldl (fun (r : List Bytes × Backup) marker =>
        (if findsMarker ctx r.2.tick d marker then r.1 ++ [marker.name] else r.1, r.2.ask))
          (found, { b with tick }) = (found', { b with tick := tick' }) := by
    intro ms
    induction ms with
    | nil => exact fun found tick => ⟨found, tick, rfl⟩
    | cons m ms ih => exact fun found tick => ih _ (tick + 1)
  unfold enterDir
  dsimp only
  by_cases hskip : ctx.exclude.ifPresent = [] ∨ visit.passThrough = true
  · rw [if_pos hskip]
    exact ⟨b.tick + 1, rfl⟩
  · rw [if_neg hskip]
    obtain ⟨found, tick, heq⟩ := hmarkers ctx.exclude.ifPresent [] (b.tick + 1)
    exact ⟨tick, congrArg (fun b' : Backup => (⟨b', _, [], none⟩ : Loop)) (congrArg Prod.snd heq)⟩

theorem loopGenuine_enterDir (h : Genuine keys b) (d : RelPath) {parent : Option TreeId}
    (hparent : ∀ id ∈ parent, keys.GenuineTree id) (visit : Visit) :
    LoopGenuine keys (enterDir ctx b d parent visit).2 := by
  have hstream : ∀ ps ∈ parent.bind fun id => (b.repo.openParent id).toOption,
      StreamOk keys (fun _ e => e.Genuine keys) [] ps := by
    intro ps hps
    obtain ⟨id, hid, hps⟩ := Option.bind_eq_some_iff.1 hps
    cases hopen : b.repo.openParent id with
    | error e => rw [hopen] at hps; cases hps
    | ok ps' =>
      rw [hopen] at hps
      cases hps
      exact streamOk_openParent h.keys_eq (hparent id hid) hopen
  obtain ⟨tick, hloop⟩ := enterDir_eq ctx b d parent visit
  rw [hloop]
  exact ⟨h.counts _ _ _, List.forall_mem_nil _, hstream⟩

/-- **One directory.** -/
theorem walkDirWith_genuine (hdecode : ∀ l, keys.decodeList (keys.encodeList l) = some l)
    {walk : Option Walk} (hwalk : WalkGenuine keys walk) :
    WalkGenuine keys (some (walkDirWith ctx walk)) := by
  intro w hw b d parent visit r h hparent hr
  cases hw
  cases hlist : ctx.source.list b.tick d with
  | error e =>
    unfold walkDirWith at hr
    rw [hlist] at hr
    exact (h.counts _ _ _).writeTree (List.forall_mem_nil _) hr
  | ok items =>
    rw [walkDirWith_eq ctx hlist] at hr
    obtain ⟨s, hs, hr⟩ := bind_eq_ok.1 hr
    have hloop : LoopGenuine keys s := Checked.foldlM_invariant
      (fun _ _ _ hs h => hs.take hdecode hwalk h) (loopGenuine_enterDir h d hparent visit) hs
    exact hloop.genuine.writeTree hloop.children hr

theorem walkBelow_genuine (hdecode : ∀ l, keys.decodeList (keys.encodeList l) = some l) :
    ∀ levels, WalkGenuine keys (walkBelow ctx levels)
  | 0 => fun w hw => by cases hw
  | levels + 1 => fun w hw => by
    cases hw
    rw [walkDir_eq]
    exact walkDirWith_genuine hdecode (walkBelow_genuine hdecode levels) _ rfl

/-! ### The sources -/

theorem fileRoot_genuine (hdecode : ∀ l, keys.decodeList (keys.encodeList l) = some l)
    (h : Genuine keys b) {item : SourceItem} {parent : Option TreeId}
    (hparent : ∀ id ∈ parent, keys.GenuineTree id) {r : TreeId × Backup}
    (hr : fileRoot ctx b rel item parent = .ok r) : Genuine keys r.2 := by
  obtain ⟨⟨entry, b₁⟩, hentry, hr⟩ := bind_eq_ok.1 hr
  have hfound : ∀ e ∈ b.parentFileEntry parent item.name, e.Genuine keys ∧
      (e.kind = .dir → keys.GenuineTree e.subtree) := by
    intro e he
    obtain ⟨id, hid, he⟩ := Option.bind_eq_some_iff.1 he
    obtain ⟨s, hs, he⟩ := Option.bind_eq_some_iff.1 he
    have hstream : StreamOk keys (fun _ e => e.Genuine keys) [] s := by
      refine streamOk_openParent h.keys_eq (hparent id hid) ?_
      cases hopen : b.repo.openParent id with
      | error e => rw [hopen] at hs; cases hs
      | ok s' => rw [hopen] at hs; cases hs; rfl
    obtain ⟨-, hok⟩ := (takeName_ok h.keys_eq item.name hstream).2 e he
    exact ⟨hok.ok, hok.below⟩
  obtain ⟨h₁, he₁⟩ := h.processEntry hdecode (fun w hw => by cases hw) hfound hentry
  cases entry with
  | none => cases hr
  | some e =>
    exact h₁.writeTree (List.forall_mem_cons.2 ⟨he₁ e rfl, List.forall_mem_nil _⟩) hr

theorem dirRoot_genuine (hdecode : ∀ l, keys.decodeList (keys.encodeList l) = some l)
    (h : Genuine keys b) {locator : Bytes} {dev : Option ℕ} {parent : Option TreeId}
    (hparent : ∀ id ∈ parent, keys.GenuineTree id) {r : TreeId × Backup}
    (hr : dirRoot ctx b locator dev parent = .ok r) : Genuine keys r.2 := by
  obtain ⟨state, -, hr⟩ := bind_eq_ok.1 hr
  rw [walkDir_eq] at hr
  exact walkDirWith_genuine hdecode (walkBelow_genuine hdecode _) _ rfl _ _ _ _ _ h hparent hr

/-- One source. -/
theorem prepareRoot_genuine (hdecode : ∀ l, keys.decodeList (keys.encodeList l) = some l)
    (h : Genuine keys b) {exclude : Exclusions} {locator : Bytes} {parent : Option TreeId}
    (hparent : ∀ id ∈ parent, keys.GenuineTree id) {plan : RootPlan} {r : TreeId × Backup}
    (hr : b.prepareRoot exclude locator parent plan = .ok r) : Genuine keys r.2 := by
  have hask : Genuine keys b.ask := h.counts _ _ _
  cases plan with
  | localDir fs path named =>
    unfold prepareRoot at hr
    dsimp only at hr
    split_ifs at hr
    · split at hr
      · cases hr
      · exact dirRoot_genuine hdecode hask hparent hr
    · exact dirRoot_genuine hdecode h hparent hr
  | localFile fs path =>
    unfold prepareRoot at hr
    dsimp only at hr
    split at hr
    · cases hr
    · obtain ⟨item, -, hr⟩ := bind_eq_ok.1 hr
      exact fileRoot_genuine hdecode hask hparent hr
  | remote source =>
    unfold prepareRoot at hr
    dsimp only at hr
    split at hr
    · cases hr
    · split at hr
      · exact fileRoot_genuine hdecode hask hparent hr
      · exact dirRoot_genuine hdecode hask hparent hr

/-- **The sources.** Where the contents of the parent snapshot stand for bytes, those of all trees
that the walk writes do. -/
theorem prepareRoots_genuine (hdecode : ∀ l, keys.decodeList (keys.encodeList l) = some l)
    {exclude : Exclusions} {parentRoots : List Root}
    (hparents : ∀ root ∈ parentRoots, keys.GenuineTree root.tree) :
    ∀ (plans : List (Bytes × RootPlan)) (b : Backup) (r : List Root × Backup), Genuine keys b →
      b.prepareRoots exclude parentRoots plans = .ok r → Genuine keys r.2
  | [], b, r, h, hr => by
    cases hr
    exact h
  | (locator, plan) :: plans, b, r, h, hr => by
    obtain ⟨⟨id, b₁⟩, hroot, hr⟩ := bind_eq_ok.1 hr
    obtain ⟨⟨roots, b₂⟩, hroots, hr⟩ := bind_eq_ok.1 hr
    cases hr
    refine prepareRoots_genuine hdecode hparents plans b₁ (roots, b₂) ?_ hroots
    refine prepareRoot_genuine hdecode h (fun id hid => ?_) hroot
    obtain ⟨root, hfind, rfl⟩ := Option.map_eq_some_iff.1 hid
    exact hparents root (List.mem_of_find?_eq_some hfind)

end Genuine

end Backup

end Kist
