import Kist.Content
import Kist.Restore.TargetSpec
import Kist.Restore.Walk

/-!
# Restoring a file or a symlink

What `restore_file_entry` and `restore_symlink` leave at the path of an entry, and when they cannot
fail.

* `ReloadableIndex.readChunks_ok`: what was read is what the names of the chunks stand for.
* `restoreFileEntry_spec`: the file has the content that its entry records, or is a link to one that
  was restored before.
-/

namespace Kist

/-! ### Reading -/

section Reading

variable {env : IndexLoads} {repo : Repository} {r r' : ReloadableIndex} {id : ChunkId}
  {ids : List ChunkId} {bytes : Bytes}

namespace ReloadableIndex

theorem readChunk_ok (h : r.readChunk env repo id = (.ok bytes, r')) :
    repo.keys.chunkId bytes = id := by
  unfold readChunk at h
  split at h
  · next hread =>
    cases h
    exact Repository.chunkId_of_readChunk hread
  · split_ifs at h
    · split at h
      · cases h
      · exact Repository.chunkId_of_readChunk (Prod.mk.inj h).1
    · cases h

theorem readChunks_ok : ∀ {ids : List ChunkId} {r r' : ReloadableIndex} {bytes : Bytes},
    readChunks env repo ids r = (.ok bytes, r') → repo.keys.Names ids bytes
  | [], r, r', bytes, h => by
    cases h
    exact .nil
  | id :: ids, r, r', bytes, h => by
    unfold readChunks at h
    split at h
    · cases h
    · next head r₁ hhead =>
      split at h
      · cases h
      · next tail r₂ htail =>
        cases h
        have h₁ : repo.keys.Names [id] head :=
          ⟨[head], by rw [List.map_singleton, readChunk_ok hhead], List.flatten_singleton⟩
        exact h₁.append (readChunks_ok htail)

theorem resolveChunks_ok {e : Entry}
    (h : r.resolveChunks env repo e.chunks e.content = (.ok ids, r')) :
    e.fileContent.Lists repo.keys ids := by
  unfold resolveChunks at h
  unfold FileContent.Lists
  simp only [Entry.fileContent]
  cases hc : e.content with
  | direct =>
    rw [hc] at h
    cases h
    rfl
  | indirect =>
    rw [hc] at h
    dsimp only at h ⊢
    split at h
    · cases h
    · next list r₁ hlist =>
      obtain ⟨plains, hp, rfl⟩ := readChunks_ok hlist
      refine ⟨plains, hp, ?_⟩
      have hids := (Prod.mk.inj h).1
      unfold Repository.chunkIdsOf at hids
      split at hids
      · cases hids
      · next l hl =>
        split_ifs at hids with hv
        cases hids
        rw [hl, ChunkList.new, ← not_not.1 hv]

/-- Where the index leads to every chunk nothing is reloaded. -/
theorem readChunks_of_reads : ∀ {ids : List ChunkId} {bytes : Bytes},
    repo.readChunks r.index ids = .ok bytes → readChunks env repo ids r = (.ok bytes, r)
  | [], bytes, h => by
    cases h
    rfl
  | id :: ids, bytes, h => by
    obtain ⟨head, hhead, h⟩ := Checked.bind_eq_ok.1 h
    obtain ⟨tail, htail, h⟩ := Checked.bind_eq_ok.1 h
    cases h
    unfold readChunks readChunk
    rw [hhead]
    dsimp only
    rw [readChunks_of_reads htail]

end ReloadableIndex

/-- The content of an entry can be read by an index, and has the recorded size. -/
def Repository.Reads (repo : Repository) (index : ChunkIndex) (e : Entry) : Prop :=
  ∃ ids bytes, repo.resolveChunks e.chunks e.content index = .ok ids ∧
    repo.readChunks index ids = .ok bytes ∧ bytes.length = e.size

theorem ReloadableIndex.resolveChunks_of_reads {chunks : List ChunkId} {content : ContentType}
    (h : repo.resolveChunks chunks content r.index = .ok ids) :
    r.resolveChunks env repo chunks content = (.ok ids, r) := by
  cases content with
  | direct =>
    cases h
    rfl
  | indirect =>
    obtain ⟨bytes, hbytes, h⟩ := Checked.bind_eq_ok.1 h
    unfold resolveChunks
    rw [readChunks_of_reads hbytes]
    exact Prod.ext h rfl

end Reading

namespace RestoreWalk

open Target

variable {env : IndexLoads} {repo : Repository}

/-! ### Files -/

/-- Two states of a walk between which no level and no selection has changed, and no error was
noted. -/
structure SameWalk (w w' : RestoreWalk) : Prop where
  levels : w'.levels = w.levels
  select : w'.select = w.select
  errors : w'.summary.errors = w.summary.errors

theorem SameWalk.refl (w : RestoreWalk) : w.SameWalk w := ⟨rfl, rfl, rfl⟩

theorem restoreFile_spec (w : RestoreWalk) (dir : RelPath) (node : Entry) :
    (∃ target index, (w.restoreFile env repo dir node).2 = { w with target, index } ∧
      w.target.Same target) ∧
    (∀ bytes, (w.restoreFile env repo dir node).1 = .ok bytes →
      node.fileContent.Holds repo.keys bytes) ∧
    (w.target.Ready dir → w.target.node (dir ++ [node.name]) = none →
      repo.Reads w.index.index node →
      (∃ bytes, (w.restoreFile env repo dir node).1 = .ok bytes) ∧
        (w.restoreFile env repo dir node).2.index = w.index) := by
  unfold restoreFile
  cases hr : w.target.refuseInTheWay dir node.name with
  | error e =>
    refine ⟨⟨_, _, rfl, .refl _⟩, nofun, fun hready hnone => ?_⟩
    rw [refuseInTheWay_of_none hready hnone] at hr
    cases hr
  | ok u =>
    dsimp only
    rcases hres : w.index.resolveChunks env repo node.chunks node.content with ⟨_ | ids, index⟩
    · refine ⟨⟨_, _, rfl, .refl _⟩, nofun, fun _ _ hreads => ?_⟩
      obtain ⟨ids, bytes, hids, -⟩ := hreads
      rw [ReloadableIndex.resolveChunks_of_reads hids] at hres
      cases hres
    · dsimp only
      by_cases hw : w.target.mayWrite dir = true
      · rw [hw, Bool.not_true, if_neg Bool.false_ne_true]
        have hsame := w.target.same_touch dir
        rcases hread : ReloadableIndex.readChunks env repo ids index with ⟨_ | bytes, index'⟩
        · refine ⟨⟨_, _, rfl, hsame⟩, nofun, fun _ _ hreads => ?_⟩
          obtain ⟨ids', bytes, hids, hbytes, -⟩ := hreads
          rw [ReloadableIndex.resolveChunks_of_reads hids] at hres
          cases hres
          rw [ReloadableIndex.readChunks_of_reads hbytes] at hread
          cases hread
        · dsimp only
          by_cases hlen : bytes.length = node.size
          · rw [if_neg (not_not.2 hlen)]
            refine ⟨⟨_, _, rfl, hsame⟩, fun bytes' h => ?_, fun _ _ hreads => ⟨⟨_, rfl⟩, ?_⟩⟩
            · cases h
              exact ⟨⟨ids, ReloadableIndex.resolveChunks_ok hres,
                ReloadableIndex.readChunks_ok hread⟩, hlen⟩
            · obtain ⟨ids', bytes', hids, hbytes, -⟩ := hreads
              rw [ReloadableIndex.resolveChunks_of_reads hids] at hres
              cases hres
              rw [ReloadableIndex.readChunks_of_reads hbytes] at hread
              exact (Prod.mk.inj hread).2.symm
          · rw [if_pos hlen]
            refine ⟨⟨_, _, rfl, hsame⟩, nofun, fun _ _ hreads => absurd ?_ hlen⟩
            obtain ⟨ids', bytes', hids, hbytes, hlen'⟩ := hreads
            rw [ReloadableIndex.resolveChunks_of_reads hids] at hres
            cases hres
            rw [ReloadableIndex.readChunks_of_reads hbytes] at hread
            cases hread
            exact hlen'
      · rw [Bool.not_eq_true] at hw
        rw [hw, Bool.not_false, if_pos rfl]
        refine ⟨⟨_, _, rfl, .refl _⟩, nofun, fun hready => ?_⟩
        rw [hready.mayWrite] at hw
        cases hw

/-- How a file came to its path: as a file of its own with the content and the metadata of the
entry, or as a link to a name that was restored before, whose object it shares where nothing lay at
the path. -/
inductive Wrote (keys : RepoKeys) (w w' : RestoreWalk) (path : RelPath) (node : Entry) : Prop
  | copied {ino : ℕ} {bytes : Bytes} {m : TargetMeta} (holds : node.fileContent.Holds keys bytes)
    (shows : m.Shows w.target.asRoot node) (put : w.target.Put w'.target path (.file ino bytes m))
    (links : w'.hardlinks =
      node.hardlinkKey.elim w.hardlinks fun key => w.hardlinks.insert key path)
  | linked {key : ℕ × ℕ} {first : RelPath} {n : TargetNode} (hkey : node.hardlinkKey = some key)
    (hfirst : w.hardlinks.lookup key = some first) (hkind : n.kind ≠ .dir)
    (put : w.target.Put w'.target path n) (links : w'.hardlinks = w.hardlinks)
    (shares : w.target.node path = none → w.target.node first = some n)

/-- A file of its own. -/
theorem restoreCopy_spec (w : RestoreWalk) (dir : RelPath) (node : Entry) :
    w.SameWalk (w.restoreCopy env repo dir node).2 ∧
    ((w.restoreCopy env repo dir node).1 = .ok () → ¬w.target.IsDir (dir ++ [node.name]) ∧
      Wrote repo.keys w (w.restoreCopy env repo dir node).2 (dir ++ [node.name]) node ∧
      (w.restoreCopy env repo dir node).2.summary =
        { w.summary with files := w.summary.files + 1 }) ∧
    (w.target.Ready dir → w.target.node (dir ++ [node.name]) = none →
      repo.Reads w.index.index node → OwnerOk w.target.asRoot node →
      (w.restoreCopy env repo dir node).1 = .ok () ∧
        (w.restoreCopy env repo dir node).2.index = w.index) := by
  obtain ⟨⟨target, index, hw, hsame⟩, hholds, hready⟩ := @restoreFile_spec env repo w dir node
  unfold restoreCopy
  dsimp only
  rcases hf : w.restoreFile env repo dir node with ⟨_ | bytes, w₁⟩
  · rw [hf] at hw hready
    dsimp only at hw
    subst hw
    refine ⟨⟨rfl, rfl, rfl⟩, nofun, fun hr hnone hreads _ => ?_⟩
    obtain ⟨⟨bytes, hb⟩, -⟩ := hready hr hnone hreads
    cases hb
  · rw [hf] at hw hready hholds
    dsimp only at hw
    subst hw
    dsimp only
    generalize hm : TargetMeta.applyMeta { mode := w.target.umask (w.tempFileMode dir node) }
      target.asRoot (dir ++ [node.name]) node = applied
    have howner : OwnerOk target.asRoot node → applied.1.2 = .ok () := fun h => by
      rw [← hm]
      exact applyMeta_owner _ _ h
    have hfst : applied.1.1 = .ok () := by rw [← hm]; exact applyMeta_fst ..
    have hshows : applied.1.2 = .ok () → applied.2.Shows w.target.asRoot node := fun h => by
      rw [← hm] at h ⊢
      rw [← hsame.user.asRoot]
      exact TargetMeta.applyMeta_shows rfl rfl rfl h
    obtain ⟨⟨applied, owner⟩, m⟩ := applied
    dsimp only at howner hfst hshows
    subst hfst
    obtain ⟨hok, -, hcommit⟩ := target.commit_spec dir node.name (.file target.nextIno bytes m)
    dsimp only
    rcases hc : target.commit dir node.name (.file target.nextIno bytes m) with ⟨_ | u, target'⟩
    · refine ⟨⟨rfl, rfl, rfl⟩, nofun, fun hr hnone hreads _ => ?_⟩
      have := hcommit (hsame.ready _ hr) ((none_congr (hsame.node _)).2 hnone)
      rw [hc] at this
      cases this
    · rw [hc] at hok
      obtain ⟨hno, hput⟩ := hok rfl
      have hput' := hsame.put hput
      refine ⟨⟨rfl, rfl, rfl⟩, fun howned => ⟨?_, .copied (hholds bytes rfl) (hshows howned)
        ⟨⟨hput'.user.asRoot, hput'.user.umask⟩, hput'.at_path, hput'.node, hput'.ready⟩ rfl, rfl⟩,
        fun hr hnone hreads ho => ⟨?_, (hready hr hnone hreads).2⟩⟩
      · rwa [isDir_congr (hsame.node _)] at hno
      · rw [howner (hsame.user.asRoot ▸ ho)]
        rfl

/-- **A file.** It is copied, or linked to a name that was restored before. -/
theorem restoreFileEntry_spec (w : RestoreWalk) (dir : RelPath) (node : Entry) :
    w.SameWalk (w.restoreFileEntry env repo dir node).2 ∧
    ((w.restoreFileEntry env repo dir node).1 = .ok () → ¬w.target.IsDir (dir ++ [node.name]) ∧
      Wrote repo.keys w (w.restoreFileEntry env repo dir node).2 (dir ++ [node.name]) node ∧
      (w.restoreFileEntry env repo dir node).2.summary =
        { w.summary with files := w.summary.files + 1 }) ∧
    (w.target.Ready dir → w.target.node (dir ++ [node.name]) = none →
      repo.Reads w.index.index node → OwnerOk w.target.asRoot node →
      (w.restoreFileEntry env repo dir node).1 = .ok () ∧
        (w.restoreFileEntry env repo dir node).2.index = w.index) := by
  unfold restoreFileEntry
  cases hkey : node.hardlinkKey with
  | none => exact w.restoreCopy_spec dir node
  | some key =>
    rw [Option.bind_some]
    cases hfirst : w.hardlinks.lookup key with
    | none => exact w.restoreCopy_spec dir node
    | some first =>
      obtain ⟨hok, herr⟩ := w.target.linkToFirst_spec first dir node.name
      dsimp only
      rcases hl : w.target.linkToFirst first dir node.name with ⟨e | u, target⟩
      · -- what cannot be linked is copied, onto the same target
        rw [hl] at herr
        obtain rfl : target = w.target := herr e rfl
        exact w.restoreCopy_spec dir node
      · rw [hl] at hok
        obtain ⟨hno, n, hkind, hput, hshares⟩ := hok rfl
        exact ⟨⟨rfl, rfl, rfl⟩, fun _ => ⟨hno, .linked hkey hfirst hkind hput rfl hshares, rfl⟩,
          fun _ _ _ _ => ⟨rfl, rfl⟩⟩

/-! ### Symlinks -/

/-- **A symlink.** It leads where the entry says, and has the owner and the time of the entry. -/
theorem restoreSymlink_spec (w : RestoreWalk) (dir : RelPath) (node : Entry) :
    w.SameWalk (w.restoreSymlink dir node).2 ∧
    ((w.restoreSymlink dir node).1 = .ok () → ¬w.target.IsDir (dir ++ [node.name]) ∧
      (∃ ino, w.target.Put (w.restoreSymlink dir node).2.target (dir ++ [node.name])
        (.symlink ino node.target (if w.target.asRoot then ownerOfEntry node else none)
          node.mtimeNs)) ∧
      (w.restoreSymlink dir node).2.summary =
        { w.summary with symlinks := w.summary.symlinks + 1 } ∧
      (w.restoreSymlink dir node).2.hardlinks = w.hardlinks) ∧
    (w.restoreSymlink dir node).2.index = w.index ∧
    (w.target.Ready dir → w.target.node (dir ++ [node.name]) = none → 0 ∉ node.target →
      OwnerOk w.target.asRoot node → (w.restoreSymlink dir node).1 = .ok ()) := by
  obtain ⟨hok, hready⟩ := w.target.replaceWithSymlink_spec dir node.name node.target
  unfold restoreSymlink
  rcases hl : w.target.replaceWithSymlink dir node.name node.target with ⟨_ | u, target⟩
  · rw [hl] at hready
    refine ⟨⟨rfl, rfl, rfl⟩, nofun, rfl, fun hr hnone hnul _ => ?_⟩
    cases hready hr hnone hnul
  · rw [hl] at hok
    obtain ⟨hno, ino, hput⟩ := hok rfl
    obtain ⟨⟨owner, mtimeNs, hput', hrecorded⟩, howner⟩ := applySymlinkMeta_spec hput.at_path node
    refine ⟨⟨rfl, rfl, rfl⟩, fun h => ⟨hno, ⟨ino, ?_⟩, rfl, rfl⟩, rfl,
      fun _ _ _ ho => howner (hput.user.asRoot ▸ ho)⟩
    obtain ⟨rfl, rfl⟩ := hrecorded h
    rw [← hput.user.asRoot]
    exact hput.put hput'

end RestoreWalk
end Kist
