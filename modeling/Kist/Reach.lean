import Kist.Repo

/-!
# What is referenced

`kist-core::reach`: the walk from all snapshots over all trees, which `check` and `prune` share. It
visits each tree once, goes down the subtrees by recursion and along the earlier segments of a
directory in a loop, and reports what it cannot follow.

* `walkReferences_isSome`: the walk ends, whatever graph the trees form.
* `walkReferences_spec`: without errors it has found what is reachable and what that references.
-/

namespace Kist

/-- What the walk reports. -/
inductive WalkError
  | snapshot (key : SnapshotKey) (e : CoreError)
  | tree (id : TreeId) (context : SnapshotKey) (e : CoreError)
  | tooDeep (id : TreeId)
  | listMissing (id : TreeId) (chunk : ChunkId)
  | list (id : TreeId) (e : CoreError)
  | chunkMissing (id : TreeId) (chunk : ChunkId)
  deriving DecidableEq, Repr

/-- `FileVisit`: what the walk hands on for each file. -/
structure FileVisit where
  treeKey : TreeId
  node : Entry
  dataChunks : List ChunkId
  deriving DecidableEq, Repr

/-- `Reachability`, with the files that have been handed on. -/
structure Reachability where
  snapshots : List (SnapshotKey × Snapshot) := []
  liveTrees : Finset ObjectId := ∅
  referencedChunks : List ChunkId := []
  errors : List WalkError := []
  visits : List FileVisit := []

/-- An error more. -/
def Reachability.fail (reach : Reachability) (e : WalkError) : Reachability :=
  { reach with errors := reach.errors ++ [e] }

/-- Referenced chunks more. -/
def Reachability.reference (reach : Reachability) (chunks : List ChunkId) : Reachability :=
  { reach with referencedChunks := reach.referencedChunks ++ chunks }

namespace Repository

variable (repo : Repository) (index : ChunkIndex)

/-- The end of the visit to a file: its data chunks are referenced and looked for in the index. -/
def visitData (id : TreeId) (node : Entry) (data : List ChunkId) (reach : Reachability) :
    Reachability :=
  { reach with
    referencedChunks := reach.referencedChunks ++ data
    errors := reach.errors ++
      (data.filter fun c => !index.contains c).map (.chunkMissing id)
    visits := reach.visits ++ [⟨id, node, data⟩] }

/-- The visit to a file. -/
def visitFile (id : TreeId) (node : Entry) (reach : Reachability) : Reachability :=
  if node.content = .direct then visitData index id node node.chunks reach
  else
    let reach := reach.reference node.chunks
    match node.chunks.find? fun c => !index.contains c with
    | some missing => reach.fail (.listMissing id missing)
    | none =>
      match repo.resolveChunks node.chunks node.content index with
      | .error e => reach.fail (.list id e)
      | .ok ids => visitData index id node ids reach

/-- The visit to an entry of a tree; `sub` goes down a subtree. -/
def visitEntry (sub : TreeId → TreeId → Reachability → Option Reachability) (id : TreeId)
    (node : Entry) (reach : Reachability) : Option Reachability :=
  if node.kind = .dir ∧ node.subtree ≠ TreeId.zero then sub id node.subtree reach
  else if node.kind = .file then some (repo.visitFile index id node reach)
  else some reach

/-- The visit to the entries of a tree. -/
def visitEntries (sub : TreeId → TreeId → Reachability → Option Reachability) (id : TreeId) :
    List Entry → Reachability → Option Reachability
  | [], reach => some reach
  | node :: nodes, reach => do
    visitEntries sub id nodes (← repo.visitEntry index sub id node reach)

/-- The loop of `walk_tree` along the segments of a directory. `n` bounds the segments still to be
read; `none` is a loop that has not ended within the bound. -/
def walkChain (context : SnapshotKey)
    (sub : TreeId → TreeId → Reachability → Option Reachability) :
    ℕ → TreeId → Reachability → Option Reachability
  | 0, _, _ => none
  | n + 1, id, reach =>
    if id ∈ reach.liveTrees then some reach
    else
      let reach := { reach with liveTrees := insert id reach.liveTrees }
      match repo.readTree id with
      | .error e => some (reach.fail (.tree id context e))
      | .ok tree => do
        let reach ← repo.visitEntries index sub id tree.entries reach
        match tree.prev with
        | none => some reach
        | some prev => walkChain context sub n prev reach

/-- The names under which trees are stored. -/
def storedTrees : Finset TreeId :=
  repo.store.trees.keys.toFinset ∪ repo.store.treeReplicas.keys.toFinset

/-- `walk_tree`, with the levels that are left below the tree instead of its depth. -/
def walkTree (context : SnapshotKey) : ℕ → TreeId → Reachability → Option Reachability
  | 0 => repo.walkChain index context (fun id _ reach => some (reach.fail (.tooDeep id)))
      (repo.storedTrees.card + 1)
  | levels + 1 => repo.walkChain index context (fun _ => walkTree context levels)
      (repo.storedTrees.card + 1)

/-- The walk from the roots of a snapshot. -/
def walkRoots (context : SnapshotKey) : List Root → Reachability → Option Reachability
  | [], reach => some reach
  | root :: roots, reach => do
    walkRoots context roots (← repo.walkTree index context (maxTreeDepth - 1) root.tree reach)

/-- `list_snapshot_keys`: by time, then by client. -/
def listSnapshotKeys : List SnapshotKey :=
  repo.store.snapshots.keys.insertionSort fun a b =>
    toLex (a.timeNs, a.client) ≤ toLex (b.timeNs, b.client)

/-- The walk from these snapshots. -/
def walkSnapshots : List SnapshotKey → Reachability → Option Reachability
  | [], reach => some reach
  | key :: keys, reach =>
    match repo.readSnapshot key with
    | .error e => walkSnapshots keys (reach.fail (.snapshot key e))
    | .ok snapshot => do
      let reach := { reach with snapshots := reach.snapshots ++ [(key, snapshot)] }
      walkSnapshots keys (← repo.walkRoots index key snapshot.roots reach)

/-- `walk_references`. -/
def walkReferences : Option Reachability := repo.walkSnapshots index repo.listSnapshotKeys {}

/-! ### What is reachable -/

/-- A tree has the other one as a subtree or as its earlier segment. -/
def TreeEdge (t t' : TreeId) : Prop :=
  ∃ tree, repo.readTree t = .ok tree ∧ (tree.prev = some t' ∨
    ∃ node ∈ tree.entries, node.kind = .dir ∧ node.subtree ≠ TreeId.zero ∧ node.subtree = t')

/-- The tree is reached from the other one over any number of edges. -/
abbrev TreeReach : TreeId → TreeId → Prop := Relation.ReflTransGen repo.TreeEdge

/-- A file entry references a chunk: as one of its list, or as one that its list spells. -/
def NodeReferences (node : Entry) (c : ChunkId) : Prop :=
  node.kind = .file ∧ (c ∈ node.chunks ∨
    ∃ ids, repo.resolveChunks node.chunks node.content index = .ok ids ∧ c ∈ ids)

/-- A file entry of the tree references the chunk. -/
def TreeReferences (t : TreeId) (c : ChunkId) : Prop :=
  ∃ tree, repo.readTree t = .ok tree ∧ ∃ node ∈ tree.entries, repo.NodeReferences index node c

/-- The tree is reachable from a root of a listed snapshot. -/
def LiveTree (t : TreeId) : Prop :=
  ∃ key ∈ repo.listSnapshotKeys, ∃ s, repo.readSnapshot key = .ok s ∧
    ∃ root ∈ s.roots, repo.TreeReach root.tree t

/-! ### The end of the walk -/

section Total

variable {repo index} {id : TreeId} {node : Entry} {context : SnapshotKey}
  {reach reach' : Reachability} {sub : TreeId → TreeId → Reachability → Option Reachability}

/-- A walk that ends, and keeps the trees that it has seen. -/
def Ends (x : Option Reachability) (reach : Reachability) : Prop :=
  ∃ reach', x = some reach' ∧ reach.liveTrees ⊆ reach'.liveTrees

theorem Ends.bind {x : Option Reachability} {f : Reachability → Option Reachability}
    (h : Ends x reach)
    (hf : ∀ reach', reach.liveTrees ⊆ reach'.liveTrees → Ends (f reach') reach') :
    Ends (x >>= f) reach := by
  obtain ⟨reach₁, rfl, h₁⟩ := h
  obtain ⟨reach₂, he, h₂⟩ := hf reach₁ h₁
  exact ⟨reach₂, he, h₁.trans h₂⟩

theorem liveTrees_visitFile :
    (repo.visitFile index id node reach).liveTrees = reach.liveTrees := by
  unfold visitFile
  dsimp only
  split_ifs
  · rfl
  · split
    · rfl
    · split <;> rfl

theorem ends_visitEntries (hsub : ∀ id t reach, Ends (sub id t reach) reach) (nodes : List Entry) :
    Ends (repo.visitEntries index sub id nodes reach) reach := by
  induction nodes generalizing reach with
  | nil => exact ⟨reach, rfl, subset_rfl⟩
  | cons node nodes ih =>
    have hentry : Ends (repo.visitEntry index sub id node reach) reach := by
      unfold visitEntry
      split_ifs
      · exact hsub _ _ _
      · exact ⟨_, rfl, liveTrees_visitFile.ge⟩
      · exact ⟨reach, rfl, subset_rfl⟩
    exact hentry.bind fun reach' _ => ih

theorem mem_storedTrees {tree : Tree} (h : repo.readTree id = .ok tree) :
    id ∈ repo.storedTrees := by
  have hmem : ∀ {d : Dict TreeId Sealed} {bytes}, d.lookup id = some bytes → id ∈ d.keys.toFinset :=
    fun h => List.mem_toFinset.2 (AList.lookup_isSome.1 (by rw [h]; rfl))
  have honce : ∀ {key tree}, repo.readTreeOnce key id = .ok tree →
      ∃ bytes, repo.store.getSealed key = some bytes := by
    intro key tree h
    unfold readTreeOnce at h
    split at h
    · cases h
    · next bytes hb => exact ⟨bytes, hb⟩
  have hreplica : ∀ {tree}, repo.readTreeOnce (.treeReplica id) id = .ok tree →
      id ∈ repo.storedTrees := by
    intro tree h
    obtain ⟨bytes, hb⟩ := honce h
    exact Finset.mem_union_right _ (hmem hb)
  unfold readTree at h
  split at h
  · next hb =>
    obtain ⟨bytes, hb⟩ := honce hb
    exact Finset.mem_union_left _ (hmem hb)
  · split at h
    · next hr => exact hreplica hr
    · cases h
  · split at h
    · next hr => exact hreplica hr
    · cases h
  · cases h

/-- **A chain ends**: every round but the last reads a stored tree that no round before it has
read. -/
theorem ends_walkChain (hsub : ∀ id t reach, Ends (sub id t reach) reach) {n : ℕ}
    (hn : (repo.storedTrees \ reach.liveTrees).card < n) :
    Ends (repo.walkChain index context sub n id reach) reach := by
  induction n generalizing id reach with
  | zero => omega
  | succ n ih =>
    rw [walkChain]
    split_ifs with hseen
    · exact ⟨reach, rfl, subset_rfl⟩
    · dsimp only
      split
      · exact ⟨_, rfl, Finset.subset_insert _ _⟩
      · next tree hread =>
        obtain ⟨reach₁, he, hgrows⟩ := @ends_visitEntries repo index id
          { reach with liveTrees := insert id reach.liveTrees } sub hsub tree.entries
        have hle : reach.liveTrees ⊆ reach₁.liveTrees :=
          (Finset.subset_insert id _).trans hgrows
        rw [he]
        cases hprev : tree.prev with
        | none => exact ⟨reach₁, by simp, hle⟩
        | some prev =>
          have hlt : (repo.storedTrees \ reach₁.liveTrees).card <
              (repo.storedTrees \ reach.liveTrees).card := by
            refine Finset.card_lt_card ⟨Finset.sdiff_subset_sdiff subset_rfl hle, fun hback => ?_⟩
            have hid := hback (Finset.mem_sdiff.2 ⟨mem_storedTrees hread, hseen⟩)
            exact (Finset.mem_sdiff.1 hid).2 (hgrows (Finset.mem_insert_self _ _))
          obtain ⟨reach₂, he₂, hle₂⟩ := @ih prev reach₁ (by omega)
          exact ⟨reach₂, by simpa [hprev] using he₂, hle.trans hle₂⟩

theorem ends_walkTree (levels : ℕ) : Ends (repo.walkTree index context levels id reach) reach := by
  have hcard : ∀ reach : Reachability,
      (repo.storedTrees \ reach.liveTrees).card < repo.storedTrees.card + 1 := fun reach =>
    Nat.lt_succ_of_le (Finset.card_le_card Finset.sdiff_subset)
  induction levels generalizing id reach with
  | zero =>
    exact ends_walkChain (fun id _ reach => ⟨reach.fail (.tooDeep id), rfl, subset_rfl⟩)
      (hcard reach)
  | succ levels ih => exact ends_walkChain (fun _ _ _ => ih) (hcard reach)

theorem ends_walkRoots (roots : List Root) :
    Ends (repo.walkRoots index context roots reach) reach := by
  induction roots generalizing reach with
  | nil => exact ⟨reach, rfl, subset_rfl⟩
  | cons root roots ih => exact (ends_walkTree _).bind fun reach' _ => ih

theorem ends_walkSnapshots (keys : List SnapshotKey) :
    Ends (repo.walkSnapshots index keys reach) reach := by
  induction keys generalizing reach with
  | nil => exact ⟨reach, rfl, subset_rfl⟩
  | cons key keys ih =>
    rw [walkSnapshots]
    split
    · exact ih
    · exact Ends.bind (ends_walkRoots _) fun reach' _ => ih

/-- **The walk ends**, whatever graph the stored trees form. -/
theorem walkReferences_isSome : (repo.walkReferences index).isSome := by
  obtain ⟨reach', he, -⟩ := @ends_walkSnapshots repo index {} repo.listSnapshotKeys
  rw [walkReferences, he]
  rfl

end Total

/-- What the walk finds. -/
def reachability : Reachability := (repo.walkReferences index).get walkReferences_isSome

theorem walkReferences_eq : repo.walkReferences index = some (repo.reachability index) :=
  (Option.some_get walkReferences_isSome).symm

/-! ### What the walk has found -/

section Exact

variable {repo index} {id : TreeId} {node : Entry} {context : SnapshotKey}
  {reach reach' reach'' : Reachability}
  {sub : TreeId → TreeId → Reachability → Option Reachability}
  {starts starts' : Set TreeId} {refs refs' : Set ChunkId} {files files' : Set Entry}

variable (repo index) in
/-- A tree that the walk has finished: it is readable, what lies next to it has been visited and
what it references has been recorded. -/
structure Done (reach : Reachability) (t : TreeId) : Prop where
  readable : ∃ tree, repo.readTree t = .ok tree
  edges : ∀ t', repo.TreeEdge t t' → t' ∈ reach.liveTrees
  references : ∀ c, repo.TreeReferences index t c → c ∈ reach.referencedChunks
  resolved : ∀ tree, repo.readTree t = .ok tree → ∀ node ∈ tree.entries, node.kind = .file →
    ∃ ids, repo.resolveChunks node.chunks node.content index = .ok ids

variable (repo index) in
/-- What a part of the walk that starts at these trees and at references to these chunks may add to
the sets that it finds. -/
structure Explored (starts : Set TreeId) (refs : Set ChunkId) (reach reach' : Reachability) :
    Prop where
  trees_grow : reach.liveTrees ⊆ reach'.liveTrees
  chunks_grow : reach.referencedChunks ⊆ reach'.referencedChunks
  trees_sound : ∀ t ∈ reach'.liveTrees, t ∈ reach.liveTrees ∨ ∃ s ∈ starts, repo.TreeReach s t
  chunks_sound : ∀ c ∈ reach'.referencedChunks, c ∈ reach.referencedChunks ∨ c ∈ refs ∨
    ∃ s ∈ starts, ∃ t, repo.TreeReach s t ∧ repo.TreeReferences index t c

variable (repo index) in
/-- What it has added where no error has come up. The trees it adds are finished when it ends; those
that were there may still be under way. -/
structure Walked (starts : Set TreeId) (refs : Set ChunkId) (files : Set Entry)
    (reach reach' : Reachability) : Prop extends Explored repo index starts refs reach reach' where
  errors_grow : reach'.errors = [] → reach.errors = []
  starts_found : reach'.errors = [] → starts ⊆ reach'.liveTrees
  refs_found : reach'.errors = [] → ∀ c ∈ refs, c ∈ reach'.referencedChunks
  files_resolved : reach'.errors = [] → ∀ node ∈ files,
    ∃ ids, repo.resolveChunks node.chunks node.content index = .ok ids
  done : reach'.errors = [] → ∀ t ∈ reach'.liveTrees, t ∈ reach.liveTrees ∨ Done repo index reach' t
  indexed : reach'.errors = [] → ∀ c ∈ reach'.referencedChunks,
    c ∈ reach.referencedChunks ∨ index.contains c

theorem Done.mono {t : TreeId} (h : Done repo index reach t)
    (ht : reach.liveTrees ⊆ reach'.liveTrees)
    (hc : reach.referencedChunks ⊆ reach'.referencedChunks) : Done repo index reach' t :=
  ⟨h.readable, fun t' he => ht (h.edges t' he), fun c hr => hc (h.references c hr), h.resolved⟩

theorem Walked.refl (reach : Reachability) : Walked repo index ∅ ∅ ∅ reach reach where
  trees_grow := subset_rfl
  chunks_grow := fun _ hc => hc
  trees_sound := fun _ => .inl
  chunks_sound := fun _ => .inl
  errors_grow := fun he => he
  starts_found := fun _ => Set.empty_subset _
  refs_found := fun _ _ hc => hc.elim
  files_resolved := fun _ _ hn => hn.elim
  done := fun _ _ => .inl
  indexed := fun _ _ => .inl

theorem Explored.trans (h : Explored repo index starts refs reach reach')
    (h' : Explored repo index starts' refs' reach' reach'') :
    Explored repo index (starts ∪ starts') (refs ∪ refs') reach reach'' where
  trees_grow := h.trees_grow.trans h'.trees_grow
  chunks_grow := fun _ hc => h'.chunks_grow (h.chunks_grow hc)
  trees_sound := by
    intro t ht
    rcases h'.trees_sound t ht with ht | ⟨s, hs, hr⟩
    · rcases h.trees_sound t ht with ht | ⟨s, hs, hr⟩
      · exact .inl ht
      · exact .inr ⟨s, .inl hs, hr⟩
    · exact .inr ⟨s, .inr hs, hr⟩
  chunks_sound := by
    intro c hc
    rcases h'.chunks_sound c hc with hc | hc | ⟨s, hs, hr⟩
    · rcases h.chunks_sound c hc with hc | hc | ⟨s, hs, hr⟩
      · exact .inl hc
      · exact .inr (.inl (.inl hc))
      · exact .inr (.inr ⟨s, .inl hs, hr⟩)
    · exact .inr (.inl (.inr hc))
    · exact .inr (.inr ⟨s, .inr hs, hr⟩)

theorem Walked.trans (h : Walked repo index starts refs files reach reach')
    (h' : Walked repo index starts' refs' files' reach' reach'') :
    Walked repo index (starts ∪ starts') (refs ∪ refs') (files ∪ files') reach reach'' where
  toExplored := h.toExplored.trans h'.toExplored
  errors_grow := fun he => h.errors_grow (h'.errors_grow he)
  starts_found := fun he => Set.union_subset
    (fun _ hs => h'.trees_grow (h.starts_found (h'.errors_grow he) hs)) (h'.starts_found he)
  refs_found := by
    rintro he c (hc | hc)
    · exact h'.chunks_grow (h.refs_found (h'.errors_grow he) c hc)
    · exact h'.refs_found he c hc
  files_resolved := by
    rintro he node (hn | hn)
    · exact h.files_resolved (h'.errors_grow he) node hn
    · exact h'.files_resolved he node hn
  done := by
    intro he t ht
    rcases h'.done he t ht with ht | hd
    · rcases h.done (h'.errors_grow he) t ht with ht | hd
      · exact .inl ht
      · exact .inr (hd.mono h'.trees_grow h'.chunks_grow)
    · exact .inr hd
  indexed := by
    intro he c hc
    rcases h'.indexed he c hc with hc | hi
    · exact h.indexed (h'.errors_grow he) c hc
    · exact .inr hi

theorem Walked.trans_trees (h : Walked repo index starts ∅ ∅ reach reach')
    (h' : Walked repo index starts' ∅ ∅ reach' reach'') :
    Walked repo index (starts ∪ starts') ∅ ∅ reach reach'' := by
  simpa only [Set.union_empty] using h.trans h'

/-- A part of the walk that has failed may have missed anything. -/
theorem Explored.fail {e : WalkError} (h : Explored repo index starts refs reach reach')
    (hstarts : starts ⊆ starts') (hrefs : refs ⊆ refs') :
    Walked repo index starts' refs' files reach (reach'.fail e) := by
  have hne : (reach'.fail e).errors ≠ [] := by simp [Reachability.fail]
  exact
    { trees_grow := h.trees_grow
      chunks_grow := h.chunks_grow
      trees_sound := fun t ht =>
        (h.trees_sound t ht).imp_right fun ⟨s, hs, hr⟩ => ⟨s, hstarts hs, hr⟩
      chunks_sound := fun c hc => (h.chunks_sound c hc).imp_right
        (Or.imp (fun hc => hrefs hc) fun ⟨s, hs, hr⟩ => ⟨s, hstarts hs, hr⟩)
      errors_grow := fun he => absurd he hne
      starts_found := fun he => absurd he hne
      refs_found := fun he => absurd he hne
      files_resolved := fun he => absurd he hne
      done := fun he => absurd he hne
      indexed := fun he => absurd he hne }

theorem explored_reference (chunks : List ChunkId) :
    Explored repo index ∅ {c | c ∈ chunks} reach (reach.reference chunks) where
  trees_grow := subset_rfl
  chunks_grow := List.subset_append_left _ _
  trees_sound := fun _ => .inl
  chunks_sound := fun _ hc => (List.mem_append.1 hc).imp_right .inl

theorem walked_reference {chunks : List ChunkId} (h : ∀ c ∈ chunks, index.contains c) :
    Walked repo index ∅ {c | c ∈ chunks} ∅ reach (reach.reference chunks) where
  toExplored := explored_reference chunks
  errors_grow := fun he => he
  starts_found := fun _ => Set.empty_subset _
  refs_found := fun _ _ hc => List.mem_append_right _ hc
  files_resolved := fun _ _ hn => hn.elim
  done := fun _ _ => .inl
  indexed := fun _ c hc => (List.mem_append.1 hc).imp_right (h c)

theorem walked_visitData (data : List ChunkId) :
    Walked repo index ∅ {c | c ∈ data} ∅ reach (visitData index id node data reach) where
  toExplored := { explored_reference data with }
  errors_grow := fun he => (List.append_eq_nil_iff.1 he).1
  starts_found := fun _ => Set.empty_subset _
  refs_found := fun _ _ hc => List.mem_append_right _ hc
  files_resolved := fun _ _ hn => hn.elim
  done := fun _ _ => .inl
  indexed := by
    intro he c hc
    refine (List.mem_append.1 hc).imp_right fun hc => ?_
    have hnil : (data.filter fun c => !index.contains c) = [] :=
      List.map_eq_nil_iff.1 (List.append_eq_nil_iff.1 he).2
    simpa using List.filter_eq_nil_iff.1 hnil c hc

theorem walked_visitFile (hfile : node.kind = .file) :
    Walked repo index ∅ {c | repo.NodeReferences index node c} {node} reach
      (repo.visitFile index id node reach) := by
  have hrefs : {c | repo.NodeReferences index node c} = {c | c ∈ node.chunks} ∪
      {c | ∃ ids, repo.resolveChunks node.chunks node.content index = .ok ids ∧ c ∈ ids} := by
    ext c
    simp [NodeReferences, hfile]
  rw [hrefs, ← Set.union_empty ∅, visitFile]
  dsimp only
  split
  · -- the chunks are the file's own
    next hdirect =>
    have hsame : {c | c ∈ node.chunks} ∪ {c | ∃ ids,
        repo.resolveChunks node.chunks node.content index = .ok ids ∧ c ∈ ids} =
          {c | c ∈ node.chunks} := by
      rw [hdirect]
      exact Set.union_eq_self_of_subset_right fun c ⟨ids, he, hc⟩ => by
        obtain rfl : node.chunks = ids := by simpa [resolveChunks] using he
        exact hc
    rw [hsame, Set.union_empty]
    exact { walked_visitData node.chunks with
      files_resolved := by
        intro _ n hn
        rw [Set.mem_singleton_iff.1 hn]
        exact ⟨node.chunks, by rw [hdirect]; rfl⟩ }
  · split
    · rw [Set.union_empty]
      exact (explored_reference _).fail subset_rfl Set.subset_union_left
    · -- the chunks are lists to be read first, and all of them are in the index
      next hnone =>
      have hall : ∀ c ∈ node.chunks, index.contains c := by
        simpa using List.find?_eq_none.1 hnone
      split
      · rw [Set.union_empty]
        exact (explored_reference _).fail subset_rfl Set.subset_union_left
      · next ids hids =>
        have hset : {c | ∃ ids',
            repo.resolveChunks node.chunks node.content index = .ok ids' ∧ c ∈ ids'} =
              {c | c ∈ ids} := by
          ext c
          simp [hids]
        rw [hset]
        exact { (walked_reference hall).trans (walked_visitData ids) with
          files_resolved := by
            intro _ n hn
            rw [Set.mem_singleton_iff.1 hn]
            exact ⟨ids, hids⟩ }

theorem walked_visitEntry
    (hsub : ∀ id t reach reach', sub id t reach = some reach' →
      Walked repo index {t} ∅ ∅ reach reach')
    (h : repo.visitEntry index sub id node reach = some reach') :
    Walked repo index
      {t | node.kind = .dir ∧ node.subtree ≠ TreeId.zero ∧ node.subtree = t}
      {c | repo.NodeReferences index node c} {n | n = node ∧ n.kind = .file} reach reach' := by
  rw [visitEntry] at h
  split_ifs at h with hdir hfile
  · have hstarts : {t | node.kind = .dir ∧ node.subtree ≠ TreeId.zero ∧ node.subtree = t} =
        {node.subtree} := by
      ext t
      simp [hdir, eq_comm]
    have hrefs : {c | repo.NodeReferences index node c} = ∅ := by
      ext c
      simp [NodeReferences, hdir.1]
    have hfiles : {n | n = node ∧ n.kind = .file} = ∅ := by
      ext n
      simp +contextual [hdir.1]
    rw [hstarts, hrefs, hfiles]
    exact hsub id _ _ _ h
  · have hstarts : {t | node.kind = .dir ∧ node.subtree ≠ TreeId.zero ∧ node.subtree = t} =
        ∅ := by
      ext t
      simp [hfile]
    have hfiles : {n | n = node ∧ n.kind = .file} = {node} := by
      ext n
      simp +contextual [hfile]
    obtain rfl := Option.some.inj h
    rw [hstarts, hfiles]
    exact walked_visitFile hfile
  · have hstarts : {t | node.kind = .dir ∧ node.subtree ≠ TreeId.zero ∧ node.subtree = t} =
        ∅ := by
      ext t
      simp only [Set.mem_ofPred_eq, Set.mem_empty_iff_false, iff_false]
      exact fun ht => hdir ⟨ht.1, ht.2.1⟩
    have hrefs : {c | repo.NodeReferences index node c} = ∅ := by
      ext c
      simp [NodeReferences, hfile]
    have hfiles : {n | n = node ∧ n.kind = .file} = ∅ := by
      ext n
      simp +contextual [hfile]
    obtain rfl := Option.some.inj h
    rw [hstarts, hrefs, hfiles]
    exact Walked.refl reach

theorem walked_visitEntries
    (hsub : ∀ id t reach reach', sub id t reach = some reach' →
      Walked repo index {t} ∅ ∅ reach reach') {nodes : List Entry}
    (h : repo.visitEntries index sub id nodes reach = some reach') :
    Walked repo index
      {t | ∃ node ∈ nodes, node.kind = .dir ∧ node.subtree ≠ TreeId.zero ∧ node.subtree = t}
      {c | ∃ node ∈ nodes, repo.NodeReferences index node c} {n | n ∈ nodes ∧ n.kind = .file}
      reach reach' := by
  induction nodes generalizing reach with
  | nil =>
    obtain rfl : reach = reach' := by simpa [visitEntries] using h
    simpa using Walked.refl reach
  | cons node nodes ih =>
    obtain ⟨reach₁, hentry, hrest⟩ := Option.bind_eq_some_iff.1 h
    have hstarts : {t | ∃ e ∈ node :: nodes,
        e.kind = .dir ∧ e.subtree ≠ TreeId.zero ∧ e.subtree = t} =
          {t | node.kind = .dir ∧ node.subtree ≠ TreeId.zero ∧ node.subtree = t} ∪
          {t | ∃ e ∈ nodes, e.kind = .dir ∧ e.subtree ≠ TreeId.zero ∧ e.subtree = t} := by
      ext t
      simp
    have hrefs : {c | ∃ e ∈ node :: nodes, repo.NodeReferences index e c} =
        {c | repo.NodeReferences index node c} ∪
          {c | ∃ e ∈ nodes, repo.NodeReferences index e c} := by
      ext c
      simp
    have hfiles : {n | n ∈ node :: nodes ∧ n.kind = .file} =
        {n | n = node ∧ n.kind = .file} ∪ {n | n ∈ nodes ∧ n.kind = .file} := by
      ext n
      simp [or_and_right]
    rw [hstarts, hrefs, hfiles]
    exact (walked_visitEntry hsub hentry).trans (ih hrest)

variable (repo index) in
/-- The tree is found, but nothing has been done with it yet. -/
theorem explored_insert (id : TreeId) (reach : Reachability) :
    Explored repo index {id} ∅ reach { reach with liveTrees := insert id reach.liveTrees } where
  trees_grow := Finset.subset_insert _ _
  chunks_grow := fun _ hc => hc
  trees_sound := fun t ht => (Finset.mem_insert.1 ht).symm.imp_right fun he =>
    ⟨id, rfl, by rw [he]⟩
  chunks_sound := fun _ => .inl

/-- A walk over everything next to a tree is a walk over the tree. -/
theorem Walked.close {tree : Tree} (hread : repo.readTree id = .ok tree)
    (h : Walked repo index {t | repo.TreeEdge id t} {c | repo.TreeReferences index id c}
      {n | n ∈ tree.entries ∧ n.kind = .file}
        { reach with liveTrees := insert id reach.liveTrees } reach') :
    Walked repo index {id} ∅ ∅ reach reach' := by
  have hid : id ∈ reach'.liveTrees := h.trees_grow (Finset.mem_insert_self _ _)
  -- a walk from the children with the tree marked beforehand is a walk from the tree: what the
  -- children reach is one step further, and the tree itself is done once its children are
  exact
    { trees_grow := (Finset.subset_insert _ _).trans h.trees_grow
      chunks_grow := h.chunks_grow
      trees_sound := by
        intro t ht
        rcases h.trees_sound t ht with ht | ⟨s, hs, hr⟩
        · exact (explored_insert repo index id reach).trees_sound t ht
        · exact .inr ⟨id, rfl, .head hs hr⟩
      chunks_sound := by
        intro c hc
        rcases h.chunks_sound c hc with hc | hc | ⟨s, hs, t, hr, href⟩
        · exact .inl hc
        · exact .inr (.inr ⟨id, rfl, id, .refl, hc⟩)
        · exact .inr (.inr ⟨id, rfl, t, .head hs hr, href⟩)
      errors_grow := h.errors_grow
      starts_found := fun _ => Set.singleton_subset_iff.2 hid
      refs_found := fun _ _ hc => hc.elim
      files_resolved := fun _ _ hn => hn.elim
      done := by
        intro he t ht
        rcases h.done he t ht with ht | hd
        · rcases Finset.mem_insert.1 ht with rfl | ht
          · refine .inr ⟨⟨tree, hread⟩, fun t' hedge => h.starts_found he hedge,
              fun c href => h.refs_found he c href, fun tree' hread' node hn hfile => ?_⟩
            obtain rfl := Except.ok.inj (hread.symm.trans hread')
            exact h.files_resolved he node ⟨hn, hfile⟩
          · exact .inl ht
        · exact .inr hd
      indexed := h.indexed }

theorem walked_walkChain
    (hsub : ∀ id t reach reach', sub id t reach = some reach' →
      Walked repo index {t} ∅ ∅ reach reach') {n : ℕ}
    (h : repo.walkChain index context sub n id reach = some reach') :
    Walked repo index {id} ∅ ∅ reach reach' := by
  induction n generalizing id reach with
  | zero => cases h
  | succ n ih =>
    rw [walkChain] at h
    split_ifs at h with hseen
    · obtain rfl := Option.some.inj h
      exact { Walked.refl reach with
        trees_sound := fun _ => .inl
        chunks_sound := fun _ => .inl
        starts_found := fun _ => Set.singleton_subset_iff.2 hseen }
    · dsimp only at h
      split at h
      · obtain rfl := Option.some.inj h
        exact (explored_insert repo index id reach).fail subset_rfl subset_rfl
      · next tree hread =>
        obtain ⟨reach₁, hentries, hrest⟩ := Option.bind_eq_some_iff.1 h
        have hw := walked_visitEntries hsub hentries
        have hprev : Walked repo index {t | tree.prev = some t} ∅ ∅ reach₁ reach' := by
          cases hp : tree.prev with
          | none =>
            obtain rfl : reach₁ = reach' := by simpa [hp] using hrest
            simpa using Walked.refl reach₁
          | some prev =>
            have hset : {t | some prev = some t} = {prev} := by
              ext t
              simp [eq_comm]
            rw [hset]
            exact ih (by simpa [hp] using hrest)
        have hedges : {t | repo.TreeEdge id t} =
            {t | ∃ node ∈ tree.entries,
              node.kind = .dir ∧ node.subtree ≠ TreeId.zero ∧ node.subtree = t} ∪
            {t | tree.prev = some t} := by
          ext t
          simp [TreeEdge, hread, or_comm]
        have hrefs : {c | repo.TreeReferences index id c} =
            {c | ∃ node ∈ tree.entries, repo.NodeReferences index node c} ∪ ∅ := by
          ext c
          simp [TreeReferences, hread]
        refine Walked.close hread ?_
        rw [hedges, hrefs, ← Set.union_empty {n | n ∈ tree.entries ∧ n.kind = .file}]
        exact hw.trans hprev

theorem walked_walkTree {levels : ℕ}
    (h : repo.walkTree index context levels id reach = some reach') :
    Walked repo index {id} ∅ ∅ reach reach' := by
  induction levels generalizing id reach reach' with
  | zero =>
    refine walked_walkChain (fun id t reach reach' h => ?_) h
    obtain rfl : reach.fail (.tooDeep id) = reach' := by simpa using h
    exact (Walked.refl reach).fail (Set.empty_subset _) subset_rfl
  | succ levels ih => exact walked_walkChain (fun _ _ _ _ h => ih h) h

theorem walked_walkRoots {roots : List Root}
    (h : repo.walkRoots index context roots reach = some reach') :
    Walked repo index {t | ∃ root ∈ roots, root.tree = t} ∅ ∅ reach reach' := by
  induction roots generalizing reach with
  | nil =>
    obtain rfl : reach = reach' := by simpa [walkRoots] using h
    simpa using Walked.refl reach
  | cons root roots ih =>
    obtain ⟨reach₁, hroot, hrest⟩ := Option.bind_eq_some_iff.1 h
    have hstarts : {t | ∃ r ∈ root :: roots, r.tree = t} =
        {root.tree} ∪ {t | ∃ r ∈ roots, r.tree = t} := by
      ext t
      simp [eq_comm]
    rw [hstarts]
    exact (walked_walkTree hroot).trans_trees (ih hrest)

theorem walked_walkSnapshots {keys : List SnapshotKey}
    (h : repo.walkSnapshots index keys reach = some reach') :
    Walked repo index {t | ∃ key ∈ keys, ∃ s, repo.readSnapshot key = .ok s ∧
      ∃ root ∈ s.roots, root.tree = t} ∅ ∅ reach reach' := by
  induction keys generalizing reach with
  | nil =>
    obtain rfl : reach = reach' := by simpa [walkSnapshots] using h
    simpa using Walked.refl reach
  | cons key keys ih =>
    rw [walkSnapshots] at h
    have hstarts : {t | ∃ k ∈ key :: keys, ∃ s, repo.readSnapshot k = .ok s ∧
        ∃ root ∈ s.roots, root.tree = t} =
          {t | ∃ s, repo.readSnapshot key = .ok s ∧ ∃ root ∈ s.roots, root.tree = t} ∪
          {t | ∃ k ∈ keys, ∃ s, repo.readSnapshot k = .ok s ∧ ∃ root ∈ s.roots, root.tree = t} := by
      ext t
      simp
    rw [hstarts]
    split at h
    · next e hread =>
      have hfail : Walked repo index
          {t | ∃ s, repo.readSnapshot key = .ok s ∧ ∃ root ∈ s.roots, root.tree = t} ∅ ∅ reach
          (reach.fail (.snapshot key e)) :=
        (Walked.refl reach).fail (Set.empty_subset _) subset_rfl
      exact hfail.trans_trees (ih h)
    · next snapshot hread =>
      obtain ⟨reach₁, hroots, hrest⟩ := Option.bind_eq_some_iff.1 h
      have hset : {t | ∃ s, repo.readSnapshot key = .ok s ∧ ∃ root ∈ s.roots, root.tree = t} =
          {t | ∃ root ∈ snapshot.roots, root.tree = t} := by
        ext t
        simp [hread]
      rw [hset]
      have hw := walked_walkRoots hroots
      have hw' : Walked repo index {t | ∃ root ∈ snapshot.roots, root.tree = t} ∅ ∅ reach reach₁ :=
        { hw with }
      exact hw'.trans_trees (ih hrest)

/-- What a finished walk has found is closed under the edges of the trees. -/
theorem mem_liveTrees_of_reach (hdone : ∀ t ∈ reach.liveTrees, Done repo index reach t)
    {s t : TreeId} (hs : s ∈ reach.liveTrees) (h : repo.TreeReach s t) : t ∈ reach.liveTrees := by
  induction h with
  | refl => exact hs
  | tail _ hedge ih => exact (hdone _ ih).edges _ hedge

/-- A walk without errors has finished every tree that it has found. -/
theorem done_of_walkReferences (h : repo.walkReferences index = some reach)
    (he : reach.errors = []) : ∀ t ∈ reach.liveTrees, Done repo index reach t := fun t ht =>
  ((walked_walkSnapshots h).done he t ht).resolve_left (Finset.notMem_empty t)

/-- **A walk without errors has found exactly what is reachable**, and everything it references is
in the index. -/
theorem walkReferences_spec (h : repo.walkReferences index = some reach) (he : reach.errors = []) :
    (∀ t, t ∈ reach.liveTrees ↔ repo.LiveTree t) ∧
      (∀ c, c ∈ reach.referencedChunks ↔ ∃ t, repo.LiveTree t ∧ repo.TreeReferences index t c) ∧
      ∀ c ∈ reach.referencedChunks, index.contains c := by
  have hw := walked_walkSnapshots h
  have hdone := done_of_walkReferences h he
  have hlive : ∀ t, t ∈ reach.liveTrees ↔ repo.LiveTree t := by
    intro t
    constructor
    · intro ht
      obtain ⟨s, ⟨key, hkey, snap, hread, root, hroot, rfl⟩, hr⟩ :=
        (hw.trees_sound t ht).resolve_left (Finset.notMem_empty t)
      exact ⟨key, hkey, snap, hread, root, hroot, hr⟩
    · rintro ⟨key, hkey, snap, hread, root, hroot, hr⟩
      exact mem_liveTrees_of_reach hdone
        (hw.starts_found he ⟨key, hkey, snap, hread, root, hroot, rfl⟩) hr
  refine ⟨hlive, fun c => ⟨fun hc => ?_, ?_⟩, fun c hc =>
    (hw.indexed he c hc).resolve_left List.not_mem_nil⟩
  · rcases hw.chunks_sound c hc with hc | hc | ⟨s, ⟨key, hkey, snap, hread, root, hroot, rfl⟩, t,
      hr, href⟩
    · exact absurd hc List.not_mem_nil
    · exact hc.elim
    · exact ⟨t, ⟨key, hkey, snap, hread, root, hroot, hr⟩, href⟩
  · rintro ⟨t, ht, href⟩
    exact (hdone t ((hlive t).2 ht)).references c href

end Exact

end Repository

end Kist
