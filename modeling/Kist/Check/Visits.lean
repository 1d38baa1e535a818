import Kist.Reach

/-!
# Which files the walk visits

A walk over the references that reports no error has handed on every file of every tree that it has
found, with the data chunks that its list resolves to.

* `visits_of_walkReferences`: so it is for the walk from all snapshots.
-/

namespace Kist
namespace Repository

section Visits

variable {repo : Repository} {index : ChunkIndex} {id : TreeId} {node : Entry}
  {context : SnapshotKey}
  {reach reach' reach'' : Reachability}
  {sub : TreeId → TreeId → Reachability → Option Reachability}
  {files files' : Set (TreeId × Entry)}

variable (repo index) in
/-- The file of the tree has been handed on. -/
def HandedOn (reach : Reachability) (t : TreeId) (node : Entry) : Prop :=
  ∀ ids, repo.resolveChunks node.chunks node.content index = .ok ids → ⟨t, node, ids⟩ ∈ reach.visits

variable (repo index) in
/-- All files of the tree have been handed on. -/
def Seen (reach : Reachability) (t : TreeId) : Prop :=
  ∀ tree, repo.readTree t = .ok tree → ∀ node ∈ tree.entries, node.kind = .file →
    repo.HandedOn index reach t node

variable (repo index) in
/-- A part of the walk that visits these files, where no error has come up. -/
structure Visits (files : Set (TreeId × Entry)) (reach reach' : Reachability) : Prop where
  errors_grow : reach'.errors = [] → reach.errors = []
  grow : reach'.errors = [] → reach.visits ⊆ reach'.visits
  handedOn : reach'.errors = [] → ∀ f ∈ files, repo.HandedOn index reach' f.1 f.2
  seen : reach'.errors = [] → ∀ t ∈ reach'.liveTrees, t ∈ reach.liveTrees ∨ repo.Seen index reach' t

theorem Seen.mono {t : TreeId} (h : repo.Seen index reach t) (hg : reach.visits ⊆ reach'.visits) :
    repo.Seen index reach' t := fun tree hread node hn hfile ids hids =>
  hg (h tree hread node hn hfile ids hids)

theorem Visits.refl (reach : Reachability) : repo.Visits index ∅ reach reach where
  errors_grow he := he
  grow _ := List.Subset.refl _
  handedOn _ _ hf := hf.elim
  seen _ _ := .inl

theorem visits_fail (reach reach' : Reachability) (e : WalkError) :
    repo.Visits index files reach (reach'.fail e) := by
  have hne : (reach'.fail e).errors ≠ [] := by simp [Reachability.fail]
  exact ⟨fun he => absurd he hne, fun he => absurd he hne, fun he => absurd he hne,
    fun he => absurd he hne⟩

theorem Visits.trans (h : repo.Visits index files reach reach')
    (h' : repo.Visits index files' reach' reach'') :
    repo.Visits index (files ∪ files') reach reach'' where
  errors_grow he := h.errors_grow (h'.errors_grow he)
  grow he := List.Subset.trans (h.grow (h'.errors_grow he)) (h'.grow he)
  handedOn := by
    rintro he f (hf | hf) ids hids
    · exact h'.grow he (h.handedOn (h'.errors_grow he) f hf ids hids)
    · exact h'.handedOn he f hf ids hids
  seen he t ht := by
    rcases h'.seen he t ht with ht | hs
    · exact (h.seen (h'.errors_grow he) t ht).imp_right fun hs => hs.mono (h'.grow he)
    · exact .inr hs

theorem Visits.trans_trees (h : repo.Visits index ∅ reach reach')
    (h' : repo.Visits index ∅ reach' reach'') : repo.Visits index ∅ reach reach'' := by
  simpa only [Set.union_empty] using h.trans h'

theorem visits_visitData {data : List ChunkId}
    (hdata : ∀ ids, repo.resolveChunks node.chunks node.content index = .ok ids → ids = data) :
    repo.Visits index {(id, node)} reach (visitData index id node data reach) where
  errors_grow he := (List.append_eq_nil_iff.1 he).1
  grow _ := List.subset_append_left _ _
  handedOn := by
    rintro _ f rfl ids hids
    rw [hdata ids hids]
    exact List.mem_append_right _ (List.mem_singleton.2 rfl)
  seen _ _ := .inl

theorem visits_visitFile :
    repo.Visits index {(id, node)} reach (repo.visitFile index id node reach) := by
  unfold visitFile
  dsimp only
  split_ifs with hdirect
  · refine visits_visitData fun ids hids => ?_
    rw [hdirect] at hids
    exact (Except.ok.inj hids).symm
  · split
    · exact visits_fail _ _ _
    · split
      · exact visits_fail _ _ _
      · next ids hids =>
        have hdata := @visits_visitData repo index id node (reach.reference node.chunks) ids
          fun ids' hids' => Except.ok.inj (hids'.symm.trans hids)
        exact { hdata with }

theorem visits_visitEntry
    (hsub : ∀ id t reach reach', sub id t reach = some reach' → repo.Visits index ∅ reach reach')
    (h : repo.visitEntry index sub id node reach = some reach') :
    repo.Visits index {f | f = (id, node) ∧ node.kind = .file} reach reach' := by
  rw [visitEntry] at h
  split_ifs at h with hdir hfile
  · have hnone : {f | f = (id, node) ∧ node.kind = .file} = ∅ := by simp [hdir.1]
    rw [hnone]
    exact hsub _ _ _ _ h
  · have hone : {f | f = (id, node) ∧ node.kind = .file} = {(id, node)} := by simp [hfile]
    obtain rfl := Option.some.inj h
    rw [hone]
    exact visits_visitFile
  · have hnone : {f | f = (id, node) ∧ node.kind = .file} = ∅ := by simp [hfile]
    obtain rfl := Option.some.inj h
    rw [hnone]
    exact Visits.refl reach

theorem visits_visitEntries
    (hsub : ∀ id t reach reach', sub id t reach = some reach' → repo.Visits index ∅ reach reach')
    {nodes : List Entry} (h : repo.visitEntries index sub id nodes reach = some reach') :
    repo.Visits index {f | ∃ n ∈ nodes, f = (id, n) ∧ n.kind = .file} reach reach' := by
  induction nodes generalizing reach with
  | nil =>
    obtain rfl : reach = reach' := by simpa [visitEntries] using h
    simpa using Visits.refl reach
  | cons node nodes ih =>
    obtain ⟨reach₁, hentry, hrest⟩ := Option.bind_eq_some_iff.1 h
    have hfiles : {f | ∃ n ∈ node :: nodes, f = (id, n) ∧ n.kind = .file} =
        {f | f = (id, node) ∧ node.kind = .file} ∪
          {f | ∃ n ∈ nodes, f = (id, n) ∧ n.kind = .file} := by
      ext f
      simp
    rw [hfiles]
    exact (visits_visitEntry hsub hentry).trans (ih hrest)

/-- The visit to the entries of a tree is the visit to the tree. -/
theorem Visits.close {tree : Tree} (hread : repo.readTree id = .ok tree)
    (h : repo.Visits index {f | ∃ n ∈ tree.entries, f = (id, n) ∧ n.kind = .file}
      { reach with liveTrees := insert id reach.liveTrees } reach') :
    repo.Visits index ∅ reach reach' where
  errors_grow := h.errors_grow
  grow := h.grow
  handedOn _ _ hf := hf.elim
  seen he t ht := by
    rcases h.seen he t ht with ht | hs
    · rcases Finset.mem_insert.1 ht with rfl | ht
      · refine .inr fun tree' hread' node hn hfile => ?_
        obtain rfl := Except.ok.inj (hread.symm.trans hread')
        exact h.handedOn he (t, node) ⟨node, hn, rfl, hfile⟩
      · exact .inl ht
    · exact .inr hs

theorem visits_walkChain
    (hsub : ∀ id t reach reach', sub id t reach = some reach' → repo.Visits index ∅ reach reach')
    {n : ℕ} (h : repo.walkChain index context sub n id reach = some reach') :
    repo.Visits index ∅ reach reach' := by
  induction n generalizing id reach with
  | zero => cases h
  | succ n ih =>
    rw [walkChain] at h
    split_ifs at h
    · obtain rfl := Option.some.inj h
      exact Visits.refl reach
    · dsimp only at h
      split at h
      · obtain rfl := Option.some.inj h
        exact visits_fail _ _ _
      · next tree hread =>
        obtain ⟨reach₁, hentries, hrest⟩ := Option.bind_eq_some_iff.1 h
        have hprev : repo.Visits index ∅ reach₁ reach' := by
          cases hp : tree.prev with
          | none =>
            obtain rfl : reach₁ = reach' := by simpa [hp] using hrest
            exact Visits.refl reach₁
          | some prev => exact ih (by simpa [hp] using hrest)
        exact ((visits_visitEntries hsub hentries).close hread).trans_trees hprev

theorem visits_walkTree {levels : ℕ}
    (h : repo.walkTree index context levels id reach = some reach') :
    repo.Visits index ∅ reach reach' := by
  induction levels generalizing id reach reach' with
  | zero =>
    refine visits_walkChain (fun id t reach reach' h => ?_) h
    obtain rfl : reach.fail (.tooDeep id) = reach' := by simpa using h
    exact visits_fail _ _ _
  | succ levels ih => exact visits_walkChain (fun _ _ _ _ h => ih h) h

theorem visits_walkRoots {roots : List Root}
    (h : repo.walkRoots index context roots reach = some reach') :
    repo.Visits index ∅ reach reach' := by
  induction roots generalizing reach with
  | nil =>
    obtain rfl : reach = reach' := by simpa [walkRoots] using h
    exact Visits.refl reach
  | cons root roots ih =>
    obtain ⟨reach₁, hroot, hrest⟩ := Option.bind_eq_some_iff.1 h
    exact (visits_walkTree hroot).trans_trees (ih hrest)

theorem visits_walkSnapshots {keys : List SnapshotKey}
    (h : repo.walkSnapshots index keys reach = some reach') :
    repo.Visits index ∅ reach reach' := by
  induction keys generalizing reach with
  | nil =>
    obtain rfl : reach = reach' := by simpa [walkSnapshots] using h
    exact Visits.refl reach
  | cons key keys ih =>
    rw [walkSnapshots] at h
    split at h
    · exact (visits_fail reach reach _).trans_trees (ih h)
    · obtain ⟨reach₁, hroots, hrest⟩ := Option.bind_eq_some_iff.1 h
      have hfirst := visits_walkRoots hroots
      exact Visits.trans_trees { hfirst with } (ih hrest)

/-- Without errors every snapshot has been read. -/
theorem read_of_walkSnapshots {keys : List SnapshotKey}
    (h : repo.walkSnapshots index keys reach = some reach') (he : reach'.errors = []) :
    ∀ key ∈ keys, ∃ snapshot, repo.readSnapshot key = .ok snapshot := by
  induction keys generalizing reach with
  | nil => exact fun key hkey => by cases hkey
  | cons key keys ih =>
    rw [walkSnapshots] at h
    split at h
    · have hfail := (visits_walkSnapshots h).errors_grow he
      simp [Reachability.fail] at hfail
    · next snapshot hread =>
      obtain ⟨reach₁, -, hrest⟩ := Option.bind_eq_some_iff.1 h
      exact List.forall_mem_cons.2 ⟨⟨snapshot, hread⟩, ih hrest⟩

/-- Without errors every file of every tree that was found has been handed on. -/
theorem visits_of_walkReferences (h : repo.walkReferences index = some reach)
    (he : reach.errors = []) : ∀ t ∈ reach.liveTrees, repo.Seen index reach t := fun t ht =>
  ((visits_walkSnapshots h).seen he t ht).resolve_left (Finset.notMem_empty t)

end Visits

end Repository
end Kist
