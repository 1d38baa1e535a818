import Kist.Backup.Loop
import Kist.Backup.PrepareSpec

/-!
# What a backup does, step by step

Whatever a backup walks, it does three things to its state: it counts and notes, it stores a chunk
or takes it over, and it writes a tree. What all three keep is kept by the whole walk.

* `Advances.invariant`: the rule for what is kept.
* `Along.prepareRoots`: what holds along the parts of a walk holds along the walk of all sources.
* `prepareRoots_advances`: the walk of all sources is a sequence of such steps.
-/

namespace Kist
namespace Backup

open Checked (bind_eq_ok)

/-- One step of a backup. -/
inductive Does : Backup → Backup → Prop
  | note (b : Backup) (stats : SnapshotStats) (report : BackupReport)
    (referenced : Dict ObjectId (List ChunkId)) (hardlinks : Dict InodeKey FileContent)
    (countedHardlinks : List InodeKey) (tick : ℕ) :
    Does b { b with stats, report, referenced, hardlinks, countedHardlinks, tick }
  | chunk (b : Backup) (st : ChunkState) (chunk : Bytes) : Does b (b.addChunk st chunk).1
  | tree (b : Backup) (t : Tree) (r : TreeId × Backup) (h : b.writeTree t = .ok r) : Does b r.2

/-- Any number of steps. -/
abbrev Advances : Backup → Backup → Prop := Relation.ReflTransGen Does

/-! ### Walks -/

/-- The counts of what was uploaded are the same. -/
def SameUploads (r r' : BackupReport) : Prop :=
  r'.chunksNew = r.chunksNew ∧ r'.bytesStored = r.bytesStored

/-- A relation that holds along whatever is counted or noted, but for what was uploaded. -/
structure Notes (R : Backup → Backup → Prop) : Prop where
  refl (b : Backup) : R b b
  trans {b b' b'' : Backup} : R b b' → R b' b'' → R b b''
  note (b : Backup) (stats : SnapshotStats) (report : BackupReport)
    (referenced : Dict ObjectId (List ChunkId)) (hardlinks : Dict InodeKey FileContent)
    (countedHardlinks : List InodeKey) (tick : ℕ) (hsame : SameUploads b.report report) :
    R b { b with stats, report, referenced, hardlinks, countedHardlinks, tick }

/-- A relation that holds along a walk, because it holds along the parts of one. -/
structure Along (R : Backup → Backup → Prop) : Prop extends Notes R where
  tree {b : Backup} {t : Tree} {r : TreeId × Backup} : b.writeTree t = .ok r → R b r.2
  read (b : Backup) (f : FileFacts) (read : FileRead) : R b (b.readFile f read).2

section Walks

variable {ctx : SourceCtx} {b : Backup} {walk : Option Walk} {d : RelPath} {visit : Visit}
  {markers : Option (List Bytes)} {R : Backup → Backup → Prop}

namespace Notes

variable (hR : Notes R)

include hR

theorem counts (b : Backup) (stats : SnapshotStats) (errors excluded tick : ℕ) :
    R b { b with stats, report.errors := errors, report.excluded := excluded, tick } :=
  hR.note b stats { b.report with errors, excluded } b.referenced b.hardlinks b.countedHardlinks
    tick ⟨rfl, rfl⟩

theorem ask : R b b.ask := hR.counts b b.stats b.report.errors b.report.excluded (b.tick + 1)

theorem countBytes (f : FileFacts) (size : ℕ) : R b (b.countBytes f size) := by
  unfold Backup.countBytes
  split
  · split_ifs
    · exact hR.refl b
    · exact hR.note b _ b.report b.referenced b.hardlinks _ b.tick ⟨rfl, rfl⟩
  · exact hR.counts b _ b.report.errors b.report.excluded b.tick

theorem tryReuse (f : FileFacts) (parent : Option Entry) : R b (b.tryReuse f parent).2 := by
  unfold Backup.tryReuse
  split
  · exact hR.refl b
  · split_ifs
    · split
      · exact hR.refl b
      · rename_i places _
        have hnote : R b (b.recordReferenced places) :=
          hR.note b b.stats b.report _ b.hardlinks b.countedHardlinks b.tick ⟨rfl, rfl⟩
        refine hR.trans (hR.trans hnote (hR.countBytes f _)) (hR.note _ _ _ _ _ _ _ ?_)
        exact ⟨rfl, rfl⟩
    · exact hR.refl b

end Notes

/-- The walk of the directories below keeps to the relation. -/
def WalkAlong (R : Backup → Backup → Prop) (walk : Option Walk) : Prop :=
  ∀ w ∈ walk, ∀ b d parent v r, w b d parent v = .ok r → R b r.2

namespace Along

variable (hR : Along R)

include hR

theorem processFile (source : Source) (rel : RelPath) (f : FileFacts) (parent : Option Entry) :
    R b (b.processFile source rel f parent).2 := by
  have hreuse := @Notes.tryReuse b R hR.toNotes f parent
  unfold Backup.processFile
  split_ifs
  · exact hR.counts _ _ _ _ _
  · rcases hr : b.tryReuse f parent with ⟨_ | reused, b₁⟩
    · rw [hr] at hreuse
      dsimp only
      split
      · exact hreuse
      · exact hR.trans hreuse (hR.trans hR.ask (hR.read _ f _))
    · rw [hr] at hreuse
      refine hR.trans hreuse (hR.note _ _ _ _ _ _ _ ?_)
      exact ⟨rfl, rfl⟩

theorem withXattrs {rel : RelPath} {e : Entry} : R b (withXattrs ctx b rel e).2 := by
  unfold Backup.withXattrs
  split_ifs
  · exact hR.ask
  · exact hR.refl b

theorem processDir {walk : Walk} (hwalk : WalkAlong R (some walk)) {rel : RelPath}
    {name : Bytes} {posix : Option PosixMeta} {parent : Option Entry} {r : Entry × Backup}
    (h : processDir ctx walk b rel name posix parent visit = .ok r) : R b r.2 := by
  obtain ⟨⟨subtree, b₁⟩, hsub, h⟩ := bind_eq_ok.1 h
  cases h
  have hb₁ : R b b₁ := by
    unfold walkSubtree at hsub
    split at hsub
    · exact hR.trans (hR.counts b _ _ _ _) (hR.tree hsub)
    · exact hwalk walk rfl _ _ _ _ _ hsub
  exact hR.trans hb₁ (hR.trans (hR.counts _ _ _ _ _) hR.withXattrs)

theorem processRegular {rel : RelPath} {name : Bytes} {size : ℕ} {mtimeNs : ℤ}
    {etag vern : Option Bytes} {posix : Option PosixMeta} {parent : Option Entry} :
    R b (processRegular ctx b rel name size mtimeNs etag vern posix parent).2 := by
  have hfile := @Along.processFile b R hR ctx.source rel ⟨size, posix, etag⟩ parent
  unfold Backup.processRegular
  rcases hr : b.processFile ctx.source rel ⟨size, posix, etag⟩ parent with ⟨_ | c, b₁⟩
  · rw [hr] at hfile
    exact hfile
  · rw [hr] at hfile
    have hcounted : R b { b₁ with stats.files := b₁.stats.files + 1 } :=
      hR.trans hfile (hR.counts b₁ _ b₁.report.errors b₁.report.excluded b₁.tick)
    dsimp only
    split
    · exact hR.trans hcounted hR.withXattrs
    · exact hR.trans hcounted (hR.counts _ _ _ _ _)
    · exact hcounted
    · exact hcounted

/-- One item. -/
theorem processEntry (hwalk : WalkAlong R walk) {rel : RelPath} {item : SourceItem}
    {parent : Option Entry} {r : Option Entry × Backup}
    (h : processEntry ctx walk b rel item parent visit = .ok r) : R b r.2 := by
  refine hR.trans hR.ask ?_
  unfold Backup.processEntry at h
  dsimp only at h
  generalize (if ctx.source.metaKind = .posix then ctx.source.lstat b.tick rel else none) = posix
    at h
  cases hkind : item.kind with
  | symlink target =>
    rw [hkind] at h
    cases h
    exact hR.trans (hR.counts _ _ _ _ _) hR.withXattrs
  | dir =>
    rw [hkind] at h
    cases walk with
    | none =>
      cases h
      exact hR.counts _ _ _ _ _
    | some w =>
      obtain ⟨r', hdir, h⟩ := bind_eq_ok.1 h
      cases h
      exact hR.processDir hwalk hdir
  | file size mtimeNs etag vern =>
    rw [hkind] at h
    dsimp only at h
    split_ifs at h
    · cases h
      exact hR.counts _ _ _ _ _
    · cases h
      exact hR.processRegular

/-- One round. -/
theorem take (hwalk : WalkAlong R walk) {s s' : Loop} {x : Except String SourceItem}
    (h : Loop.take ctx walk d markers visit s x = .ok s') : R s.b s'.b := by
  obtain ⟨errors, excluded, rfl⟩ | ⟨item, child, r, -, -, -, hr, hs'⟩ := take_cases h
  · exact hR.counts s.b s.b.stats errors excluded s.b.tick
  · refine hR.trans (hR.processEntry hwalk hr) ?_
    rcases hs' with ⟨id, b, hwrite, rfl⟩ | rfl
    · exact hR.tree hwrite
    · exact hR.refl _

theorem enterDir {parent : Option TreeId} : R b (enterDir ctx b d parent visit).2.b := by
  have hmarkers : ∀ (ms : List Marker) (r : List Bytes × Backup), R b r.2 →
      R b (ms.foldl (fun (r : List Bytes × Backup) marker =>
        (if findsMarker ctx r.2.tick d marker then r.1 ++ [marker.name] else r.1, r.2.ask))
          r).2 := by
    intro ms
    induction ms with
    | nil => exact fun r h => h
    | cons m ms ih => exact fun r h => ih _ (hR.trans h hR.ask)
  unfold Backup.enterDir
  dsimp only
  split_ifs
  · exact hR.ask
  · exact hmarkers _ ([], b.ask) hR.ask

theorem walkDirWith (hwalk : WalkAlong R walk) {parent : Option TreeId} {r : TreeId × Backup}
    (h : walkDirWith ctx walk b d parent visit = .ok r) : R b r.2 := by
  cases hlist : ctx.source.list b.tick d with
  | error e =>
    unfold Backup.walkDirWith at h
    rw [hlist] at h
    exact hR.trans (hR.counts b b.stats (b.report.errors + 1) b.report.excluded
      (b.tick + 1)) (hR.tree h)
  | ok items =>
    rw [walkDirWith_eq ctx hlist] at h
    obtain ⟨s, hfold, hwrite⟩ := bind_eq_ok.1 h
    have hloop : ∀ (items : List (Except String SourceItem)) (s s' : Loop),
        items.foldlM (Loop.take ctx walk d (Backup.enterDir ctx b d parent visit).1 visit) s =
          .ok s' → R s.b s'.b := by
      intro items
      induction items with
      | nil =>
        intro s s' h
        cases h
        exact hR.refl _
      | cons x items ih =>
        intro s s' h
        rw [List.foldlM_cons] at h
        obtain ⟨s₁, h₁, h⟩ := bind_eq_ok.1 h
        exact hR.trans (hR.take hwalk h₁) (ih s₁ s' h)
    exact hR.trans hR.enterDir (hR.trans (hloop _ _ _ hfold) (hR.tree hwrite))

theorem walkBelow : ∀ levels, WalkAlong R (walkBelow ctx levels)
  | 0 => nofun
  | levels + 1 => fun w hw b d parent visit r h => by
    cases hw
    rw [walkDir_eq] at h
    exact hR.walkDirWith (walkBelow levels) h

theorem walkDir {levels : ℕ} {parent : Option TreeId} {r : TreeId × Backup}
    (h : walkDir ctx levels b d parent visit = .ok r) : R b r.2 := by
  rw [walkDir_eq] at h
  exact hR.walkDirWith (hR.walkBelow levels) h

/-! ### The sources -/

theorem fileRoot {rel : RelPath} {item : SourceItem} {parent : Option TreeId}
    {r : TreeId × Backup} (h : fileRoot ctx b rel item parent = .ok r) : R b r.2 := by
  obtain ⟨⟨entry, b₁⟩, hentry, h⟩ := bind_eq_ok.1 h
  have hb₁ : R b b₁ := hR.processEntry (fun w hw => by cases hw) hentry
  cases entry with
  | none => cases h
  | some e => exact hR.trans hb₁ (hR.tree h)

theorem dirRoot {locator : Bytes} {dev : Option ℕ} {parent : Option TreeId}
    {r : TreeId × Backup} (h : dirRoot ctx b locator dev parent = .ok r) : R b r.2 := by
  obtain ⟨state, -, h⟩ := bind_eq_ok.1 h
  exact hR.walkDir h

theorem prepareRoot {exclude : Exclusions} {locator : Bytes} {parent : Option TreeId}
    {plan : RootPlan} {r : TreeId × Backup}
    (h : b.prepareRoot exclude locator parent plan = .ok r) :
    R b r.2 := by
  cases plan with
  | localDir fs path named =>
    unfold Backup.prepareRoot at h
    dsimp only at h
    split_ifs at h
    · split at h
      · cases h
      · exact hR.trans hR.ask (hR.dirRoot h)
    · exact hR.dirRoot h
  | localFile fs path =>
    unfold Backup.prepareRoot at h
    dsimp only at h
    split at h
    · cases h
    · obtain ⟨item, -, h⟩ := bind_eq_ok.1 h
      exact hR.trans hR.ask (hR.fileRoot h)
  | remote source =>
    unfold Backup.prepareRoot at h
    dsimp only at h
    split at h
    · cases h
    · split at h
      · exact hR.trans hR.ask (hR.fileRoot h)
      · exact hR.trans hR.ask (hR.dirRoot h)

/-- The walk of all sources. -/
theorem prepareRoots {exclude : Exclusions} {parentRoots : List Root} :
    ∀ {plans : List (Bytes × RootPlan)} {b : Backup} {r : List Root × Backup},
      b.prepareRoots exclude parentRoots plans = .ok r → R b r.2
  | [], b, r, h => by
    cases h
    exact hR.refl b
  | (locator, plan) :: plans, b, r, h => by
    obtain ⟨⟨id, b₁⟩, hroot, h⟩ := bind_eq_ok.1 h
    obtain ⟨⟨roots, b₂⟩, hroots, h⟩ := bind_eq_ok.1 h
    cases h
    have hb₁ : R b b₁ := hR.prepareRoot hroot
    have hb₂ : R b₁ b₂ := prepareRoots hroots
    exact hR.trans hb₁ hb₂

end Along

end Walks

section Advance

variable {b b' : Backup} {P : Backup → Prop}

/-- What every step keeps is kept. -/
theorem Advances.invariant (h : Advances b b') (hstep : ∀ b b', Does b b' → P b → P b') (hb : P b) :
    P b' := by
  induction h with
  | refl => exact hb
  | tail _ hdoes ih => exact hstep _ _ hdoes ih

theorem advances_counts (stats : SnapshotStats) (report : BackupReport) (tick : ℕ) :
    Advances b { b with stats, report, tick } :=
  .single (.note b stats report b.referenced b.hardlinks b.countedHardlinks tick)

theorem advances_writeTree {t : Tree} {r : TreeId × Backup} (h : b.writeTree t = .ok r) :
    Advances b r.2 := .single (.tree b t r h)

/-! ### Files -/

theorem advances_addChunks (chunks : List Bytes) (st : ChunkState) :
    Advances b (b.addChunks st chunks).1 := by
  induction chunks generalizing b st with
  | nil => exact .refl
  | cons chunk chunks ih => exact .trans (.single (.chunk b st chunk)) (ih _)

theorem advances_chunkBytes (content : Bytes) : Advances b (b.chunkBytes content).2 :=
  (advances_addChunks _ _).trans (advances_counts _ _ _)

theorem advances_chunkReader (read : FileRead) : Advances b (b.chunkReader read).2 := by
  cases read with
  | unreadable => exact advances_counts _ _ _
  | bytes content => exact advances_chunkBytes content
  | broken delivered => exact (advances_addChunks _ _).trans (advances_counts _ _ _)

theorem notes_advances : Notes Advances :=
  ⟨fun _ => .refl, .trans, fun b stats report referenced hardlinks countedHardlinks tick _ =>
    .single (.note b stats report referenced hardlinks countedHardlinks tick)⟩

theorem advances_storeContent (result : FileResult) : Advances b (b.storeContent result).2 := by
  unfold storeContent
  split_ifs
  · exact .refl
  · exact (advances_chunkBytes _).trans (advances_counts _ _ _)

theorem advances_readFile (f : FileFacts) (read : FileRead) : Advances b (b.readFile f read).2 := by
  have hread := @advances_chunkReader b read
  unfold readFile
  rcases hr : b.chunkReader read with ⟨_ | result, b₁⟩
  · rw [hr] at hread
    exact hread
  · rw [hr] at hread
    let b₂ := b₁.countBytes f result.bytesTotal
    let b₃ : Backup := { b₂ with
      report.bytesStored := b₂.report.bytesStored + result.bytesNew
      report.chunksNew := b₂.report.chunksNew + result.chunksNew }
    have hcounted : Advances b₁ b₃ :=
      .trans (notes_advances.countBytes f result.bytesTotal) (advances_counts b₂.stats _ b₂.tick)
    have hstored : Advances b (b₃.storeContent result).2 :=
      hread.trans (hcounted.trans (advances_storeContent result))
    cases hkey : hardlinkKey f with
    | none => exact hstored
    | some key =>
      dsimp only
      exact hstored.trans (.single (.note _ _ _ _ _ _ _))

/-- The walk of all sources is a sequence of steps. -/
theorem prepareRoots_advances {exclude : Exclusions} {parentRoots : List Root}
    {plans : List (Bytes × RootPlan)} {r : List Root × Backup}
    (h : b.prepareRoots exclude parentRoots plans = .ok r) : Advances b r.2 :=
  Along.prepareRoots ⟨notes_advances, advances_writeTree, fun _ => advances_readFile⟩ h

end Advance

end Backup
end Kist
