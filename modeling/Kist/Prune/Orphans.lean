import Kist.Prune.Crash
import Kist.Replica

/-!
# Replicas without their primary

`kist-core::forget` and `kist-core::prune` delete an object and its replica by two calls. `forget`
deletes the replica first; `execute` deletes a tree first, and a prune that stops between the two
leaves a replica that no later prune deletes, for its tree is no longer listed. So does a prune that
is told of an error when the tree is gone nevertheless: it leaves out the replica and goes on.

* `noneStuck_iff`: a run of forgets and prunes, complete or not, leaves no replica behind for good
  exactly when no prune in it stops between the delete of a tree and the delete of its replica, or
  gets an error for the delete of such a tree that has taken effect.
-/

namespace Kist

/-- The operation leaves the trees and their replicas alone. -/
def PruneOp.Harmless : PruneOp → Prop
  | .delete .tree _ => False
  | .deleteReplica _ => False
  | _ => True

/-- A delete of `forget`. -/
inductive ForgetOp
  | deleteReplica (key : SnapshotKey)
  | deleteSnapshot (key : SnapshotKey)
  deriving DecidableEq

/-- The snapshot that it is about. -/
def ForgetOp.key : ForgetOp → SnapshotKey
  | .deleteReplica key => key
  | .deleteSnapshot key => key

/-- The backend after the delete. -/
def ForgetOp.apply (repo : TimedRepository) : ForgetOp → TimedRepository
  | .deleteReplica key =>
    { repo with store.snapshotReplicas := repo.store.snapshotReplicas.erase key }
  | .deleteSnapshot key => { repo with store.snapshots := repo.store.snapshots.erase key }

/-- `forget`, the deletes of the snapshots that are to go: the replica of each before the
snapshot. -/
def forgetOps (removed : List SnapshotKey) : List ForgetOp :=
  removed.flatMap fun key => [.deleteReplica key, .deleteSnapshot key]

/-- A forget or a prune. It stops after so many of its operations, or is complete. -/
inductive Cleanup
  | forget (removed : List SnapshotKey) (stop : Option ℕ)
  | prune (sorter : SortedTable.UnstableSort TableRecord.sortKey) (opts : PruneOptions)
    (faults : PruneFaults) (now : Time) (nonce : ℕ) (stop : Option ℕ)

/-- The operations that are carried out. -/
def carriedOut {α : Type} (stop : Option ℕ) (ops : List α) : List α :=
  match stop with
  | none => ops
  | some n => ops.take n

namespace Cleanup

/-- It runs to its end. -/
def Complete : Cleanup → Prop
  | forget _ stop => stop = none
  | prune _ _ _ _ _ stop => stop = none

/-- The operations that a prune carries out; a refused prune carries out none. -/
def pruneOps (repo : TimedRepository) (sorter : SortedTable.UnstableSort TableRecord.sortKey)
    (opts : PruneOptions) (faults : PruneFaults) (now : Time) (nonce : ℕ) (stop : Option ℕ) :
    List PruneOp :=
  match repo.prunePlan sorter opts with
  | .error _ => []
  | .ok plan => carriedOut stop (repo.execute faults plan now nonce).1

/-- The repository afterwards. A forget of a snapshot that is not listed is refused. -/
def apply (repo : TimedRepository) : Cleanup → TimedRepository
  | forget removed stop =>
    if ∀ key ∈ removed, key ∈ repo.store.snapshots then
      (carriedOut stop (forgetOps removed)).foldl ForgetOp.apply repo
    else repo
  | prune sorter opts faults now nonce stop =>
    repo.after now (pruneOps repo sorter opts faults now nonce stop)

/-- The repository after each of these, and before the first. -/
def states (repo : TimedRepository) : List Cleanup → List TimedRepository
  | [] => [repo]
  | c :: cs => repo :: states (c.apply repo) cs

/-- It does not stop between the delete of a tree and the delete of its replica, and no error hides
that such a tree was deleted. -/
def Clean (repo : TimedRepository) : Cleanup → Prop
  | forget _ _ => True
  | prune sorter opts faults now nonce stop => ∀ id ∈ repo.store.treeReplicas,
    (pruneOps repo sorter opts faults now nonce stop).getLast? ≠ some (.delete .tree id) ∧
      (faults.deleteError .tree id = some .unconfirmed →
        .delete .tree id ∉ pruneOps repo sorter opts faults now nonce stop)

/-- None of these does. -/
def AllClean (repo : TimedRepository) : List Cleanup → Prop
  | [] => True
  | c :: cs => c.Clean repo ∧ AllClean (c.apply repo) cs

end Cleanup

namespace TimedRepository

/-- A replica is there whose primary object is not. -/
def Orphan (repo : TimedRepository) : Twofold → Prop
  | .tree id => id ∈ repo.store.treeReplicas ∧ id ∉ repo.store.trees
  | .snapshot key => key ∈ repo.store.snapshotReplicas ∧ key ∉ repo.store.snapshots

/-- A replica is without its primary object, and stays so whatever forgets and prunes are still to
run to their end. -/
def Stuck (repo : TimedRepository) (object : Twofold) : Prop :=
  ∀ cs : List Cleanup, (∀ c ∈ cs, c.Complete) → (cs.foldl Cleanup.apply repo).Orphan object

/-! ### Forgets -/

section Forget

variable {repo : TimedRepository}

/-- No replica of a snapshot is left behind by the first few deletes. -/
theorem no_orphan_take_forgetOps (removed : List SnapshotKey) (n : ℕ)
    (h : ∀ key, ¬repo.Orphan (.snapshot key)) :
    ∀ key, ¬(((forgetOps removed).take n).foldl ForgetOp.apply repo).Orphan (.snapshot key) := by
  induction removed generalizing repo n with
  | nil => simpa [forgetOps] using h
  | cons k removed ih =>
    have hreplica : ∀ key, ¬(ForgetOp.apply repo (.deleteReplica k)).Orphan (.snapshot key) :=
      fun key ⟨hr, hs⟩ => h key ⟨(AList.mem_erase.1 hr).2, hs⟩
    have hboth : ∀ key, ¬((ForgetOp.apply repo (.deleteReplica k)).Orphan (.snapshot key)) →
        ¬(ForgetOp.apply (ForgetOp.apply repo (.deleteReplica k)) (.deleteSnapshot k)).Orphan
          (.snapshot key) := by
      rintro key hno ⟨hr, hs⟩
      have hne : key ≠ k := (AList.mem_erase.1 hr).1
      exact hno ⟨hr, fun hmem => hs (AList.mem_erase.2 ⟨hne, hmem⟩)⟩
    match n with
    | 0 => exact h
    | 1 => exact hreplica
    | n + 2 => exact ih n fun key => hboth key (hreplica key)

theorem no_orphan_forgetOps (removed : List SnapshotKey) (stop : Option ℕ)
    (h : ∀ key, ¬repo.Orphan (.snapshot key)) :
    ∀ key, ¬((carriedOut stop (forgetOps removed)).foldl ForgetOp.apply repo).Orphan
      (.snapshot key) := by
  cases stop with
  | none => simpa [carriedOut] using no_orphan_take_forgetOps removed (forgetOps removed).length h
  | some n => exact no_orphan_take_forgetOps removed n h

theorem key_mem_of_mem_forgetOps {removed : List SnapshotKey} {op : ForgetOp}
    (h : op ∈ forgetOps removed) : op.key ∈ removed := by
  obtain ⟨key, hkey, hop⟩ := List.mem_flatMap.1 h
  rcases List.mem_cons.1 hop with rfl | hop
  · exact hkey
  · obtain rfl := List.mem_singleton.1 hop
    exact hkey

/-- A forget of other snapshots leaves a replica without its snapshot as it is. -/
theorem orphan_foldl_forgetOp {key : SnapshotKey} {ops : List ForgetOp}
    (h : repo.Orphan (.snapshot key)) (hops : ∀ op ∈ ops, op.key ≠ key) :
    (ops.foldl ForgetOp.apply repo).Orphan (.snapshot key) := by
  induction ops generalizing repo with
  | nil => exact h
  | cons op ops ih =>
    refine ih ?_ fun op' hop => hops op' (List.mem_cons_of_mem _ hop)
    have hne := hops op List.mem_cons_self
    cases op with
    | deleteReplica key' => exact ⟨AList.mem_erase.2 ⟨Ne.symm hne, h.1⟩, h.2⟩
    | deleteSnapshot key' => exact ⟨h.1, fun hmem => h.2 (AList.mem_erase.1 hmem).2⟩

/-- A forget has nothing to do with trees. -/
theorem trees_foldl_forgetOp (ops : List ForgetOp) :
    (ops.foldl ForgetOp.apply repo).store.trees = repo.store.trees ∧
      (ops.foldl ForgetOp.apply repo).store.treeReplicas = repo.store.treeReplicas := by
  induction ops generalizing repo with
  | nil => exact ⟨rfl, rfl⟩
  | cons op ops ih =>
    obtain ⟨ht, hr⟩ := @ih (op.apply repo)
    cases op with
    | deleteReplica key => exact ⟨ht, hr⟩
    | deleteSnapshot key => exact ⟨ht, hr⟩

end Forget

/-! ### The operations of a prune -/

/-- Operations in which the delete of a tree, which is there, the delete of its replica and the
delete of its touch follow each other, unless the first one reports an error, and no other one
concerns trees or replicas. -/
inductive Grouped (faults : PruneFaults) (now : Time) : TimedRepository → List PruneOp → Prop
  | nil (repo : TimedRepository) : Grouped faults now repo []
  | other {repo : TimedRepository} {op : PruneOp} {ops : List PruneOp} :
    op.Harmless → Grouped faults now (op.apply now repo) ops → Grouped faults now repo (op :: ops)
  | tree {repo : TimedRepository} {id : TreeId} {ops : List PruneOp} :
    id ∈ repo.store.trees → faults.deleteError .tree id = none →
      Grouped faults now
        (repo.after now [.delete .tree id, .deleteReplica id, .deleteTouch id]) ops →
        Grouped faults now repo (.delete .tree id :: .deleteReplica id :: .deleteTouch id :: ops)
  | unconfirmed {repo : TimedRepository} {id : TreeId} {ops : List PruneOp} :
    id ∈ repo.store.trees → faults.deleteError .tree id = some .unconfirmed →
      Grouped faults now (repo.after now [.delete .tree id]) ops →
        Grouped faults now repo (.delete .tree id :: ops)

section Prune

variable {repo : TimedRepository} {faults : PruneFaults} {now : Time} {op : PruneOp}
  {ops : List PruneOp}

/-- A harmless operation leaves trees, snapshots and their replicas as they are. -/
theorem apply_harmless (h : op.Harmless) :
    (op.apply now repo).store.trees = repo.store.trees ∧
      (op.apply now repo).store.treeReplicas = repo.store.treeReplicas := by
  cases op with
  | delete kind id =>
    cases kind with
    | tree => exact h.elim
    | pack => exact ⟨rfl, rfl⟩
    | index => exact ⟨rfl, rfl⟩
  | deleteReplica id => exact h.elim
  | _ => exact ⟨rfl, rfl⟩

/-- A prune has nothing to do with snapshots. -/
theorem snapshots_after : (repo.after now ops).store.snapshots = repo.store.snapshots ∧
    (repo.after now ops).store.snapshotReplicas = repo.store.snapshotReplicas := by
  induction ops generalizing repo with
  | nil => exact ⟨rfl, rfl⟩
  | cons op ops ih =>
    obtain ⟨hs, hr⟩ := @ih (op.apply now repo)
    have hop : (op.apply now repo).store.snapshots = repo.store.snapshots ∧
        (op.apply now repo).store.snapshotReplicas = repo.store.snapshotReplicas := by
      cases op with
      | delete kind id => cases kind <;> exact ⟨rfl, rfl⟩
      | _ => exact ⟨rfl, rfl⟩
    exact ⟨hs.trans hop.1, hr.trans hop.2⟩

theorem after_append (ops ops' : List PruneOp) :
    repo.after now (ops ++ ops') = (repo.after now ops).after now ops' :=
  List.foldl_append

theorem Grouped.of_harmless (h : ∀ op ∈ ops, op.Harmless) : Grouped faults now repo ops := by
  induction ops generalizing repo with
  | nil => exact .nil _
  | cons op ops ih =>
    exact .other (h op List.mem_cons_self) (ih fun op' hop => h op' (List.mem_cons_of_mem _ hop))

theorem Grouped.append {ops' : List PruneOp} (h : Grouped faults now repo ops)
    (h' : Grouped faults now (repo.after now ops) ops') : Grouped faults now repo
    (ops ++ ops') := by
  induction h with
  | nil => exact h'
  | other hop _ ih => exact .other hop (ih h')
  | tree hid hnone _ ih => exact .tree hid hnone (ih h')
  | unconfirmed hid herror _ ih => exact .unconfirmed hid herror (ih h')

/-- Only trees that are there are deleted, and only their replicas. -/
theorem Grouped.mem_trees {id : TreeId} (h : Grouped faults now repo ops)
    (hmem : .delete .tree id ∈ ops ∨ .deleteReplica id ∈ ops) : id ∈ repo.store.trees := by
  induction h with
  | nil => rcases hmem with hmem | hmem <;> cases hmem
  | other hop _ ih =>
    rw [← (apply_harmless hop).1]
    refine ih ?_
    rcases hmem with hmem | hmem
    · rcases List.mem_cons.1 hmem with rfl | hmem
      · exact hop.elim
      · exact .inl hmem
    · rcases List.mem_cons.1 hmem with rfl | hmem
      · exact hop.elim
      · exact .inr hmem
  | tree hid _ _ ih =>
    simp only [List.mem_cons, PruneOp.delete.injEq, PruneOp.deleteReplica.injEq, true_and,
      reduceCtorEq, false_or] at hmem
    rcases hmem with (rfl | hmem) | rfl | hmem
    · exact hid
    · exact (AList.mem_erase.1 (ih (.inl hmem))).2
    · exact hid
    · exact (AList.mem_erase.1 (ih (.inr hmem))).2
  | unconfirmed hid _ _ ih =>
    simp only [List.mem_cons, PruneOp.delete.injEq, true_and, reduceCtorEq, false_or] at hmem
    rcases hmem with (rfl | hmem) | hmem
    · exact hid
    · exact (AList.mem_erase.1 (ih (.inl hmem))).2
    · exact (AList.mem_erase.1 (ih (.inr hmem))).2

theorem getLast?_cons_eq_some {x : PruneOp} (h : op ≠ x) :
    (op :: ops).getLast? = some x ↔ ops.getLast? = some x := by
  cases ops with
  | nil => simp [h]
  | cons b ops => rw [List.getLast?_cons_cons]

theorem notMem_trees_after {id : TreeId} (h : id ∉ repo.store.trees) :
    id ∉ (repo.after now ops).store.trees := by
  induction ops generalizing repo with
  | nil => exact h
  | cons op ops ih =>
    refine ih ?_
    cases op with
    | delete kind id' =>
      cases kind with
      | tree => exact fun hmem => h (AList.mem_erase.1 hmem).2
      | pack => exact h
      | index => exact h
    | _ => exact h

theorem mem_treeReplicas_after {id : TreeId} (h : id ∈ repo.store.treeReplicas)
    (hops : .deleteReplica id ∉ ops) : id ∈ (repo.after now ops).store.treeReplicas := by
  induction ops generalizing repo with
  | nil => exact h
  | cons op ops ih =>
    obtain ⟨hop, hops⟩ := not_or.1 (mt List.mem_cons.2 hops)
    refine ih ?_ hops
    cases op with
    | deleteReplica id' =>
      exact AList.mem_erase.2 ⟨fun he => hop (by rw [he]), h⟩
    | delete kind id' => cases kind <;> exact h
    | _ => exact h

/-- No replica of a tree comes about. -/
theorem mem_treeReplicas_of_after {id : TreeId} (h : id ∈ (repo.after now ops).store.treeReplicas) :
    id ∈ repo.store.treeReplicas := by
  induction ops generalizing repo with
  | nil => exact h
  | cons op ops ih =>
    have hop := ih h
    cases op with
    | deleteReplica id' => exact (AList.mem_erase.1 hop).2
    | delete kind id' => cases kind <;> exact hop
    | _ => exact hop

/-- A replica that is without its tree stays so. -/
theorem Grouped.orphan_after {id : TreeId} (h : Grouped faults now repo ops)
    (horphan : repo.Orphan (.tree id)) {p : List PruneOp} (hp : p <+: ops) :
    (repo.after now p).Orphan (.tree id) :=
  ⟨mem_treeReplicas_after horphan.1 fun hmem => horphan.2 (h.mem_trees (.inr (hp.subset hmem))),
    notMem_trees_after horphan.2⟩

/-- The replicas that the first few of the operations leave behind. -/
theorem Grouped.orphan_iff {id : TreeId} (h : Grouped faults now repo ops)
    (hno : ¬repo.Orphan (.tree id)) {p : List PruneOp} (hp : p <+: ops) :
    (repo.after now p).Orphan (.tree id) ↔ id ∈ repo.store.treeReplicas ∧
      (p.getLast? = some (.delete .tree id) ∨
        faults.deleteError .tree id = some .unconfirmed ∧ .delete .tree id ∈ p) := by
  induction h generalizing p with
  | nil =>
    obtain rfl := List.prefix_nil.1 hp
    simpa [after] using hno
  | @other repo op ops hop _ ih =>
    rcases List.prefix_cons_iff.1 hp with rfl | ⟨t, rfl, ht⟩
    · simpa [after] using hno
    · obtain ⟨htrees, hreplicas⟩ := @apply_harmless repo now op hop
      have hne : op ≠ .delete .tree id := by
        rintro rfl
        exact hop
      have hno' : ¬(op.apply now repo).Orphan (.tree id) := by
        simpa only [Orphan, htrees, hreplicas] using hno
      rw [getLast?_cons_eq_some hne, List.mem_cons, or_iff_right (Ne.symm hne), ← hreplicas]
      exact ih hno' ht
  | @tree repo id' ops hid hnone hrest ih =>
    have hgroup : ¬(repo.after now
        [.delete .tree id', .deleteReplica id', .deleteTouch id']).Orphan (.tree id) := by
      rintro ⟨hr, ht⟩
      obtain ⟨hne, hr⟩ := AList.mem_erase.1 hr
      exact hno ⟨hr, fun hmem => ht (AList.mem_erase.2 ⟨hne, hmem⟩)⟩
    have hconfirmed : id = id' → faults.deleteError .tree id ≠ some .unconfirmed := by
      rintro rfl
      rw [hnone]
      nofun
    rcases List.prefix_cons_iff.1 hp with rfl | ⟨t, rfl, ht⟩
    · simpa [after] using hno
    rcases List.prefix_cons_iff.1 ht with rfl | ⟨t, rfl, ht'⟩
    · -- the tree is gone, its replica is not
      simp only [List.getLast?_singleton, Option.some.injEq, PruneOp.delete.injEq, true_and,
        List.mem_singleton]
      constructor
      · rintro ⟨hr, ht⟩
        refine ⟨hr, .inl ?_⟩
        by_contra hne
        exact hno ⟨hr, fun hmem => ht (AList.mem_erase.2 ⟨Ne.symm hne, hmem⟩)⟩
      · rintro ⟨hr, rfl | ⟨herror, heq⟩⟩
        · exact ⟨hr, fun hmem => (AList.mem_erase.1 hmem).1 rfl⟩
        · exact absurd herror (hconfirmed heq)
    rcases List.prefix_cons_iff.1 ht' with rfl | ⟨t, rfl, ht''⟩
    · refine iff_of_false (fun h => hgroup h) ?_
      rintro ⟨-, h | ⟨herror, h⟩⟩
      · simp at h
      · exact hconfirmed (by simpa using h) herror
    · rw [List.getLast?_cons_cons, getLast?_cons_eq_some (by simp), getLast?_cons_eq_some (by simp)]
      have hafter := ih hgroup ht''
      by_cases heq : id = id'
      · subst heq
        have hgone : .delete .tree id ∉ ops := fun hmem =>
          (AList.mem_erase.1 (hrest.mem_trees (.inl hmem))).1 rfl
        refine iff_of_false (fun h => (AList.mem_erase.1 (hafter.1 h).1).1 rfl) ?_
        rintro ⟨-, hlast | ⟨herror, -⟩⟩
        · exact hgone (ht''.subset (List.mem_of_getLast? hlast))
        · exact hconfirmed rfl herror
      · have hmem : PruneOp.delete .tree id ∈
            .delete .tree id' :: .deleteReplica id' :: .deleteTouch id' :: t ↔
              .delete .tree id ∈ t := by simp [heq]
        rw [hmem]
        exact hafter.trans (and_congr_left' (AList.mem_erase.trans (and_iff_right heq)))
  | @unconfirmed repo id' ops hid herror hrest ih =>
    rcases List.prefix_cons_iff.1 hp with rfl | ⟨t, rfl, ht⟩
    · simpa [after] using hno
    by_cases heq : id = id'
    · subst heq
      rw [and_iff_left (.inr ⟨herror, List.mem_cons_self⟩)]
      refine ⟨fun h => mem_treeReplicas_of_after h.1, fun hr => ?_⟩
      exact hrest.orphan_after ⟨hr, fun hmem => (AList.mem_erase.1 hmem).1 rfl⟩ ht
    · have hno' : ¬(repo.after now [.delete .tree id']).Orphan (.tree id) := fun ⟨hr, hgone⟩ =>
        hno ⟨hr, fun hmem => hgone (AList.mem_erase.2 ⟨heq, hmem⟩)⟩
      have hne : PruneOp.delete .tree id' ≠ .delete .tree id := by simpa using Ne.symm heq
      rw [getLast?_cons_eq_some hne, List.mem_cons, or_iff_right (Ne.symm hne)]
      exact ih hno' ht

theorem Grouped.deleteLoop (targets : List (PruneTarget × Time)) (d : Deleting) :
    ∃ ops, (deleteLoop faults now targets repo d).ops = d.ops ++ ops ∧
      Grouped faults now repo ops := by
  induction targets generalizing repo d with
  | nil => exact ⟨[], (List.append_nil _).symm, .nil _⟩
  | cons t targets ih =>
    obtain ⟨⟨kind, id, modified⟩, mark⟩ := t
    rw [TimedRepository.deleteLoop]
    cases hinfo : repo.info kind id with
    | none => exact ih _
    | some head =>
      dsimp only
      split_ifs
      · exact ih _
      · have hgroup : ∀ ops, Grouped faults now
            (repo.after now (attemptOps faults ⟨kind, id, modified⟩)) ops →
              Grouped faults now repo (attemptOps faults ⟨kind, id, modified⟩ ++ ops) := by
          intro ops hops
          unfold attemptOps at hops ⊢
          cases herror : faults.deleteError kind id with
          | none =>
            simp only [herror] at hops ⊢
            cases kind with
            | pack => exact .other trivial (.other trivial hops)
            | index => exact .other trivial hops
            | tree => exact .tree (info_eq_some.1 hinfo).1 herror hops
          | some error =>
            simp only [herror] at hops ⊢
            cases error with
            -- refused: the target stays whole, and the loop goes on
            | refused => exact hops
            | unconfirmed =>
              cases kind with
              | pack => exact .other trivial hops
              | index => exact .other trivial hops
              | tree => exact .unconfirmed (info_eq_some.1 hinfo).1 herror hops
        obtain ⟨ops, he, hops⟩ := @ih (repo.after now (attemptOps faults ⟨kind, id, modified⟩)) _
        refine ⟨_, ?_, hgroup ops hops⟩
        rw [he, ← List.append_assoc]
        cases faults.deleteError kind id <;> rfl

/-- The operations of a plan are grouped. -/
theorem Grouped.execute {plan : PrunePlan} {nonce : ℕ} :
    Grouped faults now repo (repo.execute faults plan now nonce).1 := by
  rw [TimedRepository.execute]
  split_ifs
  · exact .nil _
  obtain ⟨ops, hops, hgrouped⟩ :=
    @Grouped.deleteLoop (repo.after now (repo.putOps faults plan nonce))
    faults now plan.toDelete
    { marks := plan.marksToRemove
      report := { plan.report with
        newPacks := (repo.repackPacks faults plan nonce).out.length
        repackedPacks :=
          plan.report.repackedPacks - (repo.failedPacks faults plan nonce).dedup.length
        marked := (repo.targetsToMark faults plan nonce).length
        skipped := (repo.failedPacks faults plan nonce).map .pack } }
  have hops : (repo.deleting faults plan now nonce).ops = ops := hops
  -- apart from the deletes of the plan, no operation of a prune removes a primary
  have hputs : ∀ op ∈ repo.putOps faults plan nonce, op.Harmless := by
    intro op hop
    rcases List.mem_append.1 hop with hop | hop
    · obtain ⟨p, -, rfl⟩ := List.mem_map.1 hop
      trivial
    · split_ifs at hop
      · obtain rfl := List.mem_singleton.1 hop
        trivial
      · cases hop
  have hmarks : ∀ op ∈ (repo.deleting faults plan now nonce).marks.map PruneOp.deleteMark,
      op.Harmless := by
    intro op hop
    obtain ⟨id, -, rfl⟩ := List.mem_map.1 hop
    trivial
  have hnew : ∀ s : TimedRepository, ∀ op ∈ s.newMarks (repo.targetsToMark faults plan nonce),
      op.Harmless := by
    intro s op hop
    obtain ⟨t, -, rfl⟩ := List.mem_map.1 hop
    trivial
  have hsweep : ∀ s : TimedRepository, ∀ op ∈ s.sweep, op.Harmless := by
    intro s op hop
    rcases List.mem_append.1 hop with hop | hop
    · obtain ⟨id, -, rfl⟩ := List.mem_map.1 hop
      trivial
    · obtain ⟨id, -, rfl⟩ := List.mem_map.1 hop
      trivial
  have hclear : Grouped faults now repo (repo.clearOps faults plan now nonce) := by
    rw [clearOps, hops]
    exact ((Grouped.of_harmless hputs).append hgrouped).append (Grouped.of_harmless hmarks)
  exact (hclear.append (Grouped.of_harmless (hnew _))).append (Grouped.of_harmless (hsweep _))

/-! ### Replicas that stay -/

/-- A prune deletes a replica only along with its tree. -/
theorem mem_trees_of_deleteReplica {sorter : SortedTable.UnstableSort TableRecord.sortKey}
    {opts : PruneOptions} {plan : PrunePlan} {nonce : ℕ} {id : TreeId}
    (hplan : repo.prunePlan sorter opts = .ok plan)
    (h : .deleteReplica id ∈ (repo.execute faults plan now nonce).1) : id ∈ repo.store.trees := by
  obtain ⟨live, hp⟩ := planned_of_prunePlan hplan
  rcases mem_execute h with ⟨_, _, h⟩ | h | ⟨⟨t, time⟩, ht, h⟩ | ⟨_, h⟩ | ⟨_, h⟩ | ⟨_, h⟩ | ⟨_, h⟩
  · cases h
  · cases h
  · rw [hp.decided] at ht
    obtain ⟨-, hinfo, -⟩ := judge_eq_delete (mem_toDelete ht).2
    obtain ⟨kind, id', modified⟩ := t
    cases kind with
    | tree =>
      obtain rfl : id = id' := by simpa [targetOps, groupOf] using h
      exact (info_eq_some.1 hinfo).1
    | pack => simp [targetOps, groupOf] at h
    | index => simp [targetOps, groupOf] at h
  · cases h
  · cases h
  · cases h
  · cases h

end Prune

end TimedRepository

namespace Cleanup

section Runs

variable {repo : TimedRepository} {c : Cleanup} {cs : List Cleanup}

theorem carriedOut_take {α : Type} (stop : Option ℕ) (ops : List α) :
    carriedOut stop ops <+: ops := by
  cases stop with
  | none => exact List.prefix_refl _
  | some n => exact List.take_prefix n ops

/-- A prune leaves behind the replicas between whose delete and that of the tree it stops, and those
of the trees that it has deleted without knowing. -/
theorem orphan_apply_iff (hno : ∀ object, ¬repo.Orphan object) :
    (∃ object, (c.apply repo).Orphan object) ↔ ¬c.Clean repo := by
  cases c with
  | forget removed stop =>
    -- a forget deletes the replica of a snapshot before its primary, so it leaves no orphan
    -- wherever it stops
    refine iff_of_false ?_ (not_not.2 trivial)
    rintro ⟨object, horphan⟩
    rw [apply] at horphan
    split_ifs at horphan with hlisted
    · cases object with
      | tree id =>
        obtain ⟨ht, hr⟩ := @TimedRepository.trees_foldl_forgetOp repo
          (carriedOut stop (forgetOps removed))
        simp only [TimedRepository.Orphan, ht, hr] at horphan
        exact hno (.tree id) horphan
      | snapshot key =>
        exact TimedRepository.no_orphan_forgetOps removed stop (fun key => hno (.snapshot key)) key
          horphan
    · exact hno object horphan
  | prune sorter opts faults now nonce stop =>
    -- a prune leaves one where it ends between the two deletes of a tree, or where the first of
    -- them took effect and reported an error
    have hiff : ∀ id, ((prune sorter opts faults now nonce stop).apply repo).Orphan (.tree id) ↔
        id ∈ repo.store.treeReplicas ∧
          ((pruneOps repo sorter opts faults now nonce stop).getLast? = some (.delete .tree id) ∨
            faults.deleteError .tree id = some .unconfirmed ∧
              .delete .tree id ∈ pruneOps repo sorter opts faults now nonce stop) := by
      intro id
      rw [apply, pruneOps]
      cases repo.prunePlan sorter opts with
      | error e => simpa [TimedRepository.after] using hno (.tree id)
      | ok plan =>
        exact TimedRepository.Grouped.execute.orphan_iff (hno (.tree id)) (carriedOut_take _ _)
    constructor
    · rintro ⟨object, horphan⟩ hclean
      cases object with
      | tree id =>
        obtain ⟨hr, hlast | ⟨herror, hmem⟩⟩ := (hiff id).1 horphan
        · exact (hclean id hr).1 hlast
        · exact (hclean id hr).2 herror hmem
      | snapshot key =>
        rw [apply] at horphan
        obtain ⟨hs, hr⟩ := @TimedRepository.snapshots_after repo now
          (pruneOps repo sorter opts faults now nonce stop)
        simp only [TimedRepository.Orphan, hs, hr] at horphan
        exact hno (.snapshot key) horphan
    · intro hclean
      simp only [Clean, not_forall] at hclean
      obtain ⟨id, hr, hnot⟩ := hclean
      refine ⟨.tree id, (hiff id).2 ⟨hr, ?_⟩⟩
      by_contra hnone
      obtain ⟨hlast, herror⟩ := not_or.1 hnone
      exact hnot ⟨hlast, fun he hmem => herror ⟨he, hmem⟩⟩

/-- No forget or prune deletes a replica whose primary object is not there. -/
theorem orphan_apply {object : Twofold} (h : repo.Orphan object) :
    (c.apply repo).Orphan object := by
  cases c with
  | forget removed stop =>
    rw [apply]
    split_ifs with hlisted
    · cases object with
      | tree id =>
        obtain ⟨ht, hr⟩ := @TimedRepository.trees_foldl_forgetOp repo
          (carriedOut stop (forgetOps removed))
        simpa only [TimedRepository.Orphan, ht, hr] using h
      | snapshot key =>
        refine TimedRepository.orphan_foldl_forgetOp h fun op hop => ?_
        have hremoved :=
          TimedRepository.key_mem_of_mem_forgetOps ((carriedOut_take stop _).subset hop)
        exact fun he => h.2 (he ▸ hlisted _ hremoved)
    · exact h
  -- an orphan's replica is no target of a prune, whose tree targets have a primary
  | prune sorter opts faults now nonce stop =>
    rw [apply]
    cases object with
    | tree id =>
      refine ⟨TimedRepository.mem_treeReplicas_after h.1 fun hmem => ?_,
        TimedRepository.notMem_trees_after h.2⟩
      rw [pruneOps] at hmem
      cases hplan : repo.prunePlan sorter opts with
      | error e =>
        rw [hplan] at hmem
        cases hmem
      | ok plan =>
        rw [hplan] at hmem
        exact h.2 (TimedRepository.mem_trees_of_deleteReplica hplan
          ((carriedOut_take _ _).subset hmem))
    | snapshot key =>
      obtain ⟨hs, hr⟩ := @TimedRepository.snapshots_after repo now
        (pruneOps repo sorter opts faults now nonce stop)
      simpa only [TimedRepository.Orphan, hs, hr] using h

theorem stuck_of_orphan {object : Twofold} (h : repo.Orphan object) : repo.Stuck object := by
  intro cs hcs
  induction cs generalizing repo with
  | nil => exact h
  | cons c cs ih => exact ih (orphan_apply h) fun c' hc' => hcs c' (List.mem_cons_of_mem _ hc')

/-- **No replica is left behind for good** in a run of forgets and prunes, complete or not, exactly
when no prune in it stops between the delete of a tree and the delete of its replica or deletes a
tree with a replica without knowing; and then there is none without its primary object at all. -/
theorem noneStuck_iff (repo : TimedRepository) (hno : ∀ object, ¬repo.Orphan object)
    (cs : List Cleanup) :
    ((∀ s ∈ states repo cs, ∀ object, ¬s.Stuck object) ↔ AllClean repo cs) ∧
      (AllClean repo cs → ∀ s ∈ states repo cs, ∀ object, ¬s.Orphan object) := by
  have hclean : ∀ cs repo, (∀ object, ¬repo.Orphan object) → AllClean repo cs →
      ∀ s ∈ states repo cs, ∀ object, ¬s.Orphan object := by
    intro cs
    induction cs with
    | nil =>
      intro repo hno _ s hs
      rw [List.mem_singleton.1 hs]
      exact hno
    | cons c cs ih =>
      rintro repo hno ⟨hc, hcs⟩ s hs
      rcases List.mem_cons.1 hs with rfl | hs
      · exact hno
      · exact ih _ (not_exists.1 (mt (orphan_apply_iff hno).1 (not_not.2 hc))) hcs s hs
  have hstuck : ∀ cs repo, (∀ object, ¬repo.Orphan object) →
      (∀ s ∈ states repo cs, ∀ object, ¬s.Stuck object) → AllClean repo cs := by
    intro cs
    induction cs with
    | nil => exact fun _ _ _ => trivial
    | cons c cs ih =>
      intro repo hno h
      have hlater : ∀ s ∈ states (c.apply repo) cs, ∀ object, ¬s.Stuck object := fun s hs =>
        h s (List.mem_cons_of_mem _ hs)
      have hfirst : c.apply repo ∈ states (c.apply repo) cs := by
        cases cs <;> exact List.mem_cons_self
      have hnone : ∀ object, ¬(c.apply repo).Orphan object := fun object horphan =>
        hlater _ hfirst object (stuck_of_orphan horphan)
      refine ⟨?_, ih _ hnone hlater⟩
      by_contra hnot
      obtain ⟨object, horphan⟩ := (orphan_apply_iff hno).2 hnot
      exact hnone object horphan
  refine ⟨⟨hstuck cs repo hno, fun h s hs object hs' => ?_⟩, hclean cs repo hno⟩
  -- a replica that stays is without its primary now
  exact hclean cs repo hno h s hs object (hs' [] (by simp))

end Runs

/-! ### A prune that is interrupted -/

/-- A tree with a replica and an old mark, and no snapshot. -/
def garbageTree : TimedRepository :=
  let repo := TimedRepository.sampleRepository [.new [⟨7, 20, [⟨3, 8, 5, 5⟩]⟩]]
  { repo with
    store.snapshots := ∅
    store.treeReplicas := Dict.collect [(9, .tree 9 TimedRepository.sampleTree)]
    store.marks := Dict.collect [(9, 1)] }

theorem no_orphan_garbageTree : ∀ object, ¬garbageTree.Orphan object := by
  rintro (id | key) ⟨hr, hp⟩
  · have hr : id ∈ ([9] : List TreeId) := hr
    obtain rfl := List.mem_singleton.1 hr
    exact hp (by decide)
  · cases hr

/-- A prune of it that stops after so many operations. -/
def pruneGarbage (faults : PruneFaults) (stop : Option ℕ) : Cleanup :=
  .prune (.stable _) TimedRepository.sampleOptions faults 11 1 stop

/-- The delete of the tree is refused. -/
def refusedTree : PruneFaults := { TimedRepository.noFaults with
  deleteError := fun kind _ => if kind = .tree then some .refused else none }

/-- A prune whose delete is refused, and one that is not interrupted. -/
def refusedThenDone : List Cleanup :=
  [pruneGarbage refusedTree none, pruneGarbage TimedRepository.noFaults none]

/-- The first leaves tree and replica, the second one takes both along. -/
theorem noneStuck_iff_garbageTree : AllClean garbageTree refusedThenDone ∧
    (∀ s ∈ states garbageTree refusedThenDone, ∀ object, ¬s.Stuck object) ∧
    9 ∈ ((pruneGarbage refusedTree none).apply garbageTree).store.trees ∧
    9 ∉ (refusedThenDone.foldl Cleanup.apply garbageTree).store.treeReplicas := by
  have hclean : AllClean garbageTree refusedThenDone := by
    refine ⟨fun id hid => ?_, fun id hid => ?_, trivial⟩
    · obtain rfl := List.mem_singleton.1 (show id ∈ ([9] : List TreeId) from hid)
      exact ⟨by decide, by decide⟩
    · obtain rfl := List.mem_singleton.1 (show id ∈ ([9] : List TreeId) from hid)
      exact ⟨by decide, by decide⟩
  exact ⟨hclean, (noneStuck_iff garbageTree no_orphan_garbageTree refusedThenDone).1.2 hclean,
    by decide, by decide⟩

/-- **A replica that is left behind**: a prune is interrupted after the delete of the tree. -/
theorem not_noneStuck :
    ¬∀ repo : TimedRepository, (∀ object, ¬repo.Orphan object) →
      ∀ cs, ∀ s ∈ states repo cs, ∀ object, ¬s.Stuck object := by
  intro h
  have horphan : ((pruneGarbage TimedRepository.noFaults (some 1)).apply garbageTree).Orphan
      (.tree 9) := by
    unfold TimedRepository.Orphan
    decide
  exact h garbageTree no_orphan_garbageTree [pruneGarbage TimedRepository.noFaults (some 1)] _
    (List.mem_cons_of_mem _ (List.mem_singleton_self _)) (.tree 9) (stuck_of_orphan horphan)

/-- A prune that runs to its end leaves it behind, too, if the answer to the delete is lost. -/
example : ((pruneGarbage { TimedRepository.noFaults with
    deleteError := fun kind _ => if kind = .tree then some .unconfirmed else none } none).apply
      garbageTree).Orphan (.tree 9) := by
  unfold TimedRepository.Orphan
  decide

end Cleanup

end Kist
