import Mathlib
import Kist.Restore.Leaf
import Kist.Restore.MetaCalls

/-!
# What the calls for a file have done

The specifications of the parts that restore a file by its content, with what is left of each in the
target: for the directories, names and contents, and for the failing call.

* `restoreCopy_spec`: a file of its own.
* `restoreFileEntry_spec`: a file, by a copy or by a further name.
-/

namespace Kist

open Std.Do

set_option mvcgen.warning false

namespace Calls

variable {faults : CallFaults} {env : IndexLoads} {repo : Repository} {α : Type} {path : RelPath}
  {s₀ : CallState}

/-! ### Files -/

theorem append_added {t t' : Target} {dir temp : RelPath} {ino : ℕ} {content : Bytes}
    {m : TargetMeta}
    (h : t.Added t' dir temp (.file ino content m)) (data : Bytes) :
    t.Added (t'.append temp data) dir temp (.file ino (content ++ data) m) := by
  have happend : t'.append temp data = t'.put temp (.file ino (content ++ data) m) := by
    simp [Target.append, h.at_path]
  rw [happend]
  exact h.put _

theorem setMeta_added {t t' : Target} {dir temp : RelPath} {ino : ℕ} {content : Bytes}
    {m : TargetMeta}
    (h : t.Added t' dir temp (.file ino content m)) (m' : TargetMeta) :
    t.Added (t'.setMeta temp m') dir temp (.file ino content m') := by
  have hset : t'.setMeta temp m' = t'.put temp (.file ino content m') := by
    simp [Target.setMeta, h.at_path]
  rw [hset]
  exact h.put _

@[spec]
theorem write_spec {temp : RelPath} {data : Bytes} :
    ⦃fun s => ⌜s = s₀⌝⦄ write faults path temp data
    ⦃post⟨fun _ s => ⌜s = { s₀ with calls := s₀.calls + 1, target := s₀.target.append temp data }⌝,
      fun _ s => ⌜∃ part, s =
        { s₀ with calls := s₀.calls + 1, target := s₀.target.append temp part }⌝⟩⦄ := by
  mvcgen [write]
  all_goals subst_vars
  · exact ⟨_, rfl⟩
  · rfl

/-- What is read is written. -/
@[spec]
theorem writeChunks_spec {temp : RelPath} {ids : List ChunkId} {written : ℕ} :
    ⦃fun s => ⌜s = s₀⌝⦄ writeChunks faults env repo path temp ids written
    ⦃post⟨fun k s => ⌜∀ (t : Target) dir ino content m,
      t.Added s₀.target dir temp (.file ino content m) →
        ∃ t' n index bytes, s = { s₀ with target := t', calls := n, index } ∧
          t.Added t' dir temp (.file ino (content ++ bytes) m) ∧ k = written + bytes.length ∧
          ReloadableIndex.readChunks env repo ids s₀.index = (.ok bytes, index)⌝,
      fun _ s => ⌜∀ (t : Target) dir ino content m,
        t.Added s₀.target dir temp (.file ino content m) →
        ∃ n, t.Added s.target dir temp n⌝⟩⦄ := by
  induction ids generalizing written s₀ with
  | nil =>
    mvcgen [writeChunks]
    case vc1.nil s hs =>
      subst hs
      exact fun t dir ino content m h => ⟨_, _, _, [], rfl, by simpa using h, rfl, rfl⟩
  | cons id ids ih =>
    mvcgen [writeChunks, ih]
    case vc1.cons.post.success.post.success.post.success s hs data s₁ h₁ _ s₂ h₂ k s₃ =>
      subst hs h₂
      obtain ⟨index', hdata, rfl⟩ := h₁
      intro hrest t dir ino content m h
      obtain ⟨t', n, index, bytes, rfl, hadded, hk, hread⟩ :=
        hrest t dir ino _ m (append_added h data)
      refine ⟨t', n, index, data ++ bytes, rfl, by rwa [← List.append_assoc], ?_, ?_⟩
      · rw [hk, List.length_append, Nat.add_assoc]
      · simp only at hread
        simp [ReloadableIndex.readChunks, hdata, hread]
    case vc2.cons.post.success.post.success.post.except.handle s hs data s₁ h₁ _ s₂ h₂ e s₃ =>
      subst hs h₂
      obtain ⟨index', -, rfl⟩ := h₁
      exact fun hrest t dir ino content m h => hrest t dir ino _ m (append_added h data)
    -- a failing append may have written part of the chunk; the name still holds one file, whatever
    -- its bytes
    case vc3.cons.post.success.post.except.handle s hs data s₁ h₁ e s₂ =>
      subst hs
      obtain ⟨index, -, rfl⟩ := h₁
      rintro ⟨written', rfl⟩ t dir ino content m h
      exact ⟨_, append_added h written'⟩
    case vc4.cons.post.except.handle s hs e s₁ =>
      subst hs
      rintro ⟨index, -, rfl⟩ t dir ino content m h
      exact ⟨_, h⟩

/-- The content of the entry is written, or the temporary file is there. -/
@[spec]
theorem writeContent_spec {temp : RelPath} {ids : List ChunkId} {node : Entry} :
    ⦃fun s => ⌜s = s₀⌝⦄ writeContent faults env repo path temp ids node
    ⦃post⟨fun _ s => ⌜∀ (t : Target) dir ino m, t.Added s₀.target dir temp (.file ino [] m) →
        ∃ t' n index bytes, s = { s₀ with target := t', calls := n, index } ∧
          t.Added t' dir temp (.file ino bytes m) ∧ bytes.length = node.size ∧
          ReloadableIndex.readChunks env repo ids s₀.index = (.ok bytes, index)⌝,
      fun _ s => ⌜∀ (t : Target) dir ino m, t.Added s₀.target dir temp (.file ino [] m) →
        ∃ n, t.Added s.target dir temp n⌝⟩⦄ := by
  mvcgen [writeContent]
  case vc1.post.success.post.success.isTrue s hs k s₁ h₁ _ hsize s₂ h₂ =>
    subst hs
    intro t dir ino m h
    obtain ⟨t', n, index, bytes, rfl, hadded, rfl, hread⟩ := h₁ t dir ino [] m h
    obtain ⟨-, -, rfl⟩ := h₂
    exact ⟨t', _, index, bytes, rfl, hadded, by simpa using hsize, hread⟩
  case vc2.post.success.post.success.isFalse s hs k s₁ h₁ _ hsize s₂ h₂ =>
    subst hs
    intro t dir ino m h
    obtain ⟨t', n, index, bytes, rfl, hadded, -⟩ := h₁ t dir ino [] m h
    obtain ⟨-, -, rfl⟩ := h₂
    exact ⟨_, hadded⟩
  case vc3.post.success.post.except.handle s hs k s₁ h₁ e s₂ =>
    subst hs
    rintro - rfl t dir ino m h
    obtain ⟨t', n, index, bytes, rfl, hadded, -⟩ := h₁ t dir ino [] m h
    exact ⟨_, hadded⟩
  case vc4.post.except.handle s hs e s₁ =>
    subst hs
    exact fun hrest t dir ino m h => hrest t dir ino [] m h

@[spec]
theorem tempFileMode_spec {dir : RelPath} {node : Entry} :
    ⦃fun s => ⌜s = s₀⌝⦄ tempFileMode faults dir node
    ⦃post⟨fun mode s => ⌜(∃ n, s = { s₀ with calls := n }) ∧
        mode = s₀.toRestoreWalk.tempFileMode dir node⌝,
      fun _ s => ⌜∃ n, s = { s₀ with calls := n }⌝⟩⦄ := by
  mvcgen [tempFileMode, fileMode]
  case vc1.isTrue h s hs =>
    subst hs
    exact ⟨⟨_, rfl⟩, by rw [RestoreWalk.tempFileMode, if_pos h]⟩
  case vc2.isFalse.post.success h s hs mode s₁ h₁ =>
    subst hs
    obtain ⟨-, hmode, rfl⟩ := h₁
    refine ⟨⟨_, rfl⟩, ?_⟩
    rw [RestoreWalk.tempFileMode, if_neg h]
    split_ifs at hmode
    rcases hnode : s.target.node (dir ++ [node.name]) with _ | ⟨ino, content, m⟩ | n | n
    all_goals
      rw [hnode] at hmode
      cases hmode
      rfl
  case vc3.isFalse.post.except.handle h s hs e s₁ =>
    subst hs
    rintro - rfl
    exact ⟨_, rfl⟩

/-- The content lies in a file under a temporary name. -/
@[spec]
theorem restoreFile_spec {dir : RelPath} {node : Entry} :
    ⦃fun s => ⌜s = s₀⌝⦄ restoreFile faults env repo dir node
    ⦃post⟨fun temp s => ⌜∃ t n index bytes, s = { s₀ with target := t, calls := n, index } ∧
        s₀.target.Added t dir (dir ++ [temp]) (.file s₀.target.nextIno bytes
          { mode := s₀.target.umask (s₀.toRestoreWalk.tempFileMode dir node) }) ∧
        node.fileContent.Holds repo.keys bytes⌝,
      fun _ s => ⌜s₀.target.Intact s.target dir⌝⟩⦄ := by
  mvcgen [restoreFile, refuseInTheWay]
  -- the whole sequence: the chunks are resolved, the mode and a temporary name chosen, the file
  -- made under that name and filled
  case vc1.post.success.post.success.post.success.post.success.post.success.post.success
      s hs _ s₁ h₁ ids s₂ h₂ mode s₃ h₃ temp s₄ h₄ _ s₅ h₅ _ s₆ h₆ =>
    subst hs
    obtain ⟨-, -, rfl⟩ := h₁
    obtain ⟨index, hids, rfl⟩ := h₂
    obtain ⟨⟨n₃, rfl⟩, rfl⟩ := h₃
    obtain ⟨-, -, rfl⟩ := h₄
    obtain ⟨-, t, hcreate, rfl⟩ := h₅
    obtain ⟨t', n, index', bytes, rfl, hadded, hlen, hread⟩ :=
      h₆ _ _ _ _ (Target.createNewFile_ok hcreate)
    exact ⟨t', n, index', bytes, rfl, hadded, ⟨ids, ReloadableIndex.resolveChunks_ok hids,
      ReloadableIndex.readChunks_ok hread⟩, hlen⟩
  -- the write fails: the handler removes the temporary file again
  case vc2.post.success.post.success.post.success.post.success.post.success.post.except.handle
      s hs _ s₁ h₁ ids s₂ h₂ mode s₃ h₃ temp s₄ h₄ _ s₅ h₅ e s₆ =>
    subst hs
    obtain ⟨-, -, rfl⟩ := h₁
    obtain ⟨index, -, rfl⟩ := h₂
    obtain ⟨⟨n₃, rfl⟩, rfl⟩ := h₃
    obtain ⟨-, -, rfl⟩ := h₄
    obtain ⟨-, t, hcreate, rfl⟩ := h₅
    intro hwrite
    obtain ⟨n, hadded⟩ := hwrite _ _ _ _ (Target.createNewFile_ok hcreate)
    exact hadded.removed
  -- before the temporary file is there, a failing call has changed nothing in the directory
  case vc3.post.success.post.success.post.success.post.success.post.except.handle
      s hs _ s₁ h₁ ids s₂ h₂ mode s₃ h₃ temp s₄ h₄ e s₅ =>
    subst hs
    obtain ⟨-, -, rfl⟩ := h₁
    obtain ⟨index, -, rfl⟩ := h₂
    obtain ⟨⟨n₃, rfl⟩, -⟩ := h₃
    obtain ⟨-, -, rfl⟩ := h₄
    rintro - rfl
    exact .refl _
  case vc4.post.success.post.success.post.success.post.except.handle
      s hs _ s₁ h₁ ids s₂ h₂ mode s₃ h₃ e s₄ =>
    subst hs
    obtain ⟨-, -, rfl⟩ := h₁
    obtain ⟨index, -, rfl⟩ := h₂
    obtain ⟨⟨n₃, rfl⟩, -⟩ := h₃
    rintro - rfl
    exact .refl _
  case vc5.post.success.post.success.post.except.handle s hs _ s₁ h₁ ids s₂ h₂ e s₃ =>
    subst hs
    obtain ⟨-, -, rfl⟩ := h₁
    obtain ⟨index, -, rfl⟩ := h₂
    rintro ⟨n, rfl⟩
    exact .refl _
  case vc6.post.success.post.except.handle s hs _ s₁ h₁ e s₂ =>
    subst hs
    obtain ⟨-, -, rfl⟩ := h₁
    rintro ⟨index, -, rfl⟩
    exact .refl _
  case vc7.post.except.handle s hs e s₁ =>
    subst hs
    rintro - rfl
    exact .refl _

/-! ### Copies -/

/-- The temporary file takes the place of a file, or is still there. -/
@[spec]
theorem finishFile_spec {dir : RelPath} {temp : Bytes} {node : Entry} :
    ⦃fun s => ⌜s = s₀⌝⦄ finishFile faults dir temp node
    ⦃post⟨fun r s => ⌜∀ (t : Target) bytes m, t.FreshIno →
        t.Added s₀.target dir (dir ++ [temp]) (.file t.nextIno bytes m) → t.Replaceable
          (dir ++ [node.name]) ∧
        t.OnlyAt s.target dir (dir ++ [node.name]) ∧
        ∃ m', s.target.node (dir ++ [node.name]) = some (.file t.nextIno bytes m') ∧
          (r.1 = .ok () → r.2 = .ok () →
            m' = (m.applyMeta t.asRoot (dir ++ [node.name]) node).2)⌝,
      fun _ s => ⌜∀ (t : Target) ino bytes m,
        t.Added s₀.target dir (dir ++ [temp]) (.file ino bytes m) →
        ∃ n, t.Added s.target dir (dir ++ [temp]) n⌝⟩⦄ := by
  mvcgen [finishFile]
  case vc1.post.success.post.success s hs _ r s₁ h₁ _ _ s₂ h₂ =>
    subst hs
    obtain ⟨hwalk, applied, owner, hmeta, happlied, howner, -⟩ := h₁
    obtain ⟨-, -, hrefuse, t', hrename, rfl⟩ := h₂
    intro t bytes m hfresh hadded
    have hmade : t.Added (s₁.target.setMeta (dir ++ [temp]) r.2) dir (dir ++ [temp])
        (.file t.nextIno bytes r.2) :=
      setMeta_added (congrArg RestoreWalk.target hwalk ▸ hadded) r.2
    obtain ⟨hplace, hat, honly⟩ := Target.copied_of_rename hfresh hmade hrefuse hrename
    refine ⟨hplace, honly, _, hat, fun hok hok' => ?_⟩
    have hm : s.target.fileMeta (dir ++ [temp]) = m := by rw [Target.fileMeta, hadded.at_path]
    refine (hmeta.eq_applyMeta (dir ++ [node.name]) (happlied.1 hok) (howner.1 hok')).trans ?_
    change ((s.target.fileMeta (dir ++ [temp])).applyMeta s.target.asRoot _ node).2 = _
    rw [hm, hadded.only.user.asRoot]
  case vc2.post.success.post.except.handle s hs _ r s₁ h₁ _ e s₂ =>
    subst hs
    rintro - ⟨n, rfl⟩ t ino bytes m hadded
    exact ⟨_, setMeta_added (congrArg RestoreWalk.target h₁.1 ▸ hadded) r.2⟩

/-- A file of its own has come to the path: its content is the one of the entry, and so is its
metadata unless an error is reported. -/
structure Copied (keys : RepoKeys) (w : RestoreWalk) (t' : Target) (dir : RelPath) (node : Entry)
    (reported : Prop) : Prop where
  place : w.target.Replaceable (dir ++ [node.name])
  file : ∃ ino bytes m, t'.node (dir ++ [node.name]) = some (.file ino bytes m) ∧
    node.fileContent.Holds keys bytes ∧
    (reported ∨ m = (TargetMeta.applyMeta { mode := w.target.umask (w.tempFileMode dir node) }
      w.target.asRoot (dir ++ [node.name]) node).2)
  only : w.target.OnlyAt t' dir (dir ++ [node.name])

theorem restoreCopy_spec {dir : RelPath} {node : Entry} (hfresh : s₀.target.FreshIno) :
    ⦃fun s => ⌜s = s₀⌝⦄ restoreCopy faults env repo dir node
    ⦃post⟨fun _ s => ⌜Copied repo.keys s₀.toRestoreWalk s.target dir node False⌝,
      fun _ s => ⌜s₀.target.Intact s.target dir ∨
        Copied repo.keys s₀.toRestoreWalk s.target dir node True⌝⟩⦄ := by
  mvcgen [restoreCopy]
  case vc1.post.success.post.success.post.success s hs temp s₁ h₁ r s₂ h₂ _ _ s₃ =>
    subst hs
    obtain ⟨t, n, index, bytes, rfl, hadded, hholds⟩ := h₁
    obtain ⟨hplace, honly, m, hat, hmeta⟩ := h₂ _ _ _ hfresh hadded
    rintro rfl hok hok'
    exact ⟨hplace, ⟨_, bytes, m, hat, hholds, .inr (hmeta hok hok')⟩, honly⟩
  case vc2.post.success.post.success.post.except.handle s hs temp s₁ h₁ r s₂ h₂ _ e s₃ =>
    subst hs
    obtain ⟨t, n, index, bytes, rfl, hadded, hholds⟩ := h₁
    obtain ⟨hplace, honly, m, hat, -⟩ := h₂ _ _ _ hfresh hadded
    rintro rfl
    exact .inr ⟨hplace, ⟨_, bytes, m, hat, hholds, .inl trivial⟩, honly⟩
  case vc3.post.success.post.except.handle s hs temp s₁ h₁ e s₂ =>
    subst hs
    obtain ⟨t, n, index, bytes, rfl, hadded, -⟩ := h₁
    intro h₂
    obtain ⟨n, hadded'⟩ := h₂ _ _ _ _ hadded
    exact .inl hadded'.removed
  case vc4.post.except.handle s hs e s₁ =>
    subst hs
    exact .inl

theorem Copied.of_intact {keys : RepoKeys} {w : RestoreWalk} {t t' : Target} {dir : RelPath}
    {node : Entry} {reported : Prop} (h : w.target.Intact t dir)
    (hc : Copied keys { w with target := t } t' dir node reported) :
    Copied keys w t' dir node reported := by
  obtain ⟨hplace, ⟨ino, bytes, m, hat, hholds, hm⟩, honly⟩ := hc
  refine ⟨hplace.of_intact h, ⟨ino, bytes, m, hat, hholds, ?_⟩, (h.onlyAt _).trans honly⟩
  have hmode : ({ w with target := t } : RestoreWalk).tempFileMode dir node =
      w.tempFileMode dir node := by
    unfold RestoreWalk.tempFileMode
    simp only [(h.node _).eq_concat]
  rw [hmode] at hm
  simpa only [h.user.umask, h.user.asRoot] using hm

theorem restoreFileEntry_spec {dir : RelPath} {node : Entry} (hfresh : s₀.target.FreshIno) :
    ⦃fun s => ⌜s = s₀⌝⦄ restoreFileEntry faults env repo dir node
    ⦃post⟨fun _ s => ⌜s₀.target.Intact s.target dir ∨
        Copied repo.keys s₀.toRestoreWalk s.target dir node False ∨
        ∃ first, node.hardlinkKey.bind s₀.hardlinks.lookup = some first ∧
          (s₀.target.Linked s.target first dir (dir ++ [node.name]) ∨
            LeavesTemp faults s₀.target s₀.calls first dir node.name)⌝,
      fun _ s => ⌜s₀.target.Intact s.target dir ∨
        Copied repo.keys s₀.toRestoreWalk s.target dir node True⌝⟩⦄ := by
  mvcgen [restoreFileEntry, restoreCopy_spec, linkToFirst_spec]
  case vc1.hfresh s hs _ => exact hs ▸ hfresh
  case vc2.h_1.post.success s hs _ _ s₁ =>
    subst hs
    exact fun h => .inr (.inl h)
  case vc3.h_1.post.except.handle s hs _ e s₁ =>
    subst hs
    exact id
  case vc4.h_2.post.success s hs first hfirst _ s₁ h₁ _ =>
    subst hs
    obtain ⟨t, n, rfl, hintact | h⟩ := h₁
    · exact .inl hintact
    · exact .inr (.inr ⟨first, hfirst, h⟩)
  case vc5.h_2.post.except.handle.post.success s hs first hfirst e s₁ h₁ _ s₂ =>
    subst hs
    obtain ⟨t, n, rfl, hintact, -⟩ := h₁
    exact fun h => .inr (.inl (h.of_intact hintact))
  case vc6.h_2.post.except.handle.post.except.handle s hs first hfirst e s₁ h₁ e' s₂ =>
    subst hs
    obtain ⟨t, n, rfl, hintact, -⟩ := h₁
    exact fun h => h.imp hintact.trans (Copied.of_intact hintact)
  case vc7 s hs first hfirst e =>
    subst hs
    rintro s₁ ⟨t, n, rfl, hintact, hnext⟩
    exact hfresh.of_intact hintact hnext

end Calls
end Kist
