import Kist.Backup.State
import Kist.Prune.Plan

/-!
# Carrying out a plan

`kist-core::prune`, `PrunePlan::execute`: new packs are put first, then a new index blob, then
objects are deleted, then marks are removed, and the new marks come last. A plan is carried out as a
list of writes and deletes of the backend; a prune that stops early has done the first few of them.
-/

namespace Kist

/-- The delete of an object reports an error: the object is still there, or it is gone and the
answer was lost. -/
inductive DeleteError
  | refused
  | unconfirmed
  deriving DecidableEq, Repr

/-- What may go wrong without ending a prune: packs that cannot be fetched, and deletes that report
an error. -/
structure PruneFaults where
  unreadable : ObjectId → Option CoreError
  deleteError : Kind → ObjectId → Option DeleteError

/-- A write or a delete of a prune. -/
inductive PruneOp
  | putPack (id : ObjectId) (pack : Pack)
  | putIndex (id : ObjectId) (bytes : Sealed)
  | delete (kind : Kind) (id : ObjectId)
  | deleteReplica (id : TreeId)
  | deleteTouch (id : TreeId)
  | deleteSidecar (id : ObjectId)
  | deleteMark (id : ObjectId)
  | putMark (id : ObjectId)
  deriving DecidableEq

/-- The backend after the operation, at the time `now`. -/
def PruneOp.apply (now : Time) (repo : TimedRepository) : PruneOp → TimedRepository
  | .putPack id pack => { repo with
      store.packs := repo.store.packs.insert id pack
      modified := fun k i => if k = .pack ∧ i = id then now else repo.modified k i }
  | .putIndex id bytes => { repo with
      store.indexes := repo.store.indexes.insert id bytes
      modified := fun k i => if k = .index ∧ i = id then now else repo.modified k i }
  | .delete .pack id => { repo with store.packs := repo.store.packs.erase id }
  | .delete .tree id => { repo with store.trees := repo.store.trees.erase id }
  | .delete .index id => { repo with store.indexes := repo.store.indexes.erase id }
  | .deleteReplica id => { repo with store.treeReplicas := repo.store.treeReplicas.erase id }
  | .deleteTouch id => { repo with store.touches := repo.store.touches.erase id }
  | .deleteSidecar id => { repo with sidecars := repo.sidecars.erase id }
  | .deleteMark id => { repo with store.marks := repo.store.marks.erase id }
  | .putMark id => { repo with store.marks := repo.store.marks.insert id now }

/-- The backend after these operations. -/
def TimedRepository.after (repo : TimedRepository) (now : Time) (ops : List PruneOp) :
    TimedRepository :=
  ops.foldl (PruneOp.apply now) repo

/-- `Kind::key`. -/
def PruneTarget.key (t : PruneTarget) : ObjectKey :=
  match t.kind with
  | .pack => .pack t.id
  | .tree => .tree t.id
  | .index => .index t.id

/-! ### Packing anew -/

/-- What `repack_packs` carries along. -/
structure Repacking where
  writer : PackWriter := .new
  nonce : ℕ
  copied : List ChunkId := []
  out : List (IndexPack × Pack) := []
  failed : List (ObjectId × CoreError) := []

namespace Repacking

variable (keys : RepoKeys) (targetSize : ℕ)

/-- `PackWriter::finish`, and the put of the pack. -/
def finish (r : Repacking) : Repacking :=
  if r.writer.chunks = [] then r
  else
    let entries := r.writer.chunks.map Prod.fst
    { r with
      writer := .new
      nonce := r.nonce + 1
      out := r.out ++ [(⟨keys.packId r.nonce r.writer.chunks, keys.packLen entries, entries⟩,
        ⟨keys.packLen entries, r.writer.chunks⟩)] }

/-- The chunks of a pack one after the other. -/
def addAll : List (ChunkId × Bytes) → Repacking → Repacking
  | [], r => r
  | (id, plain) :: plains, r =>
    let r := { r with writer := (r.writer.add keys id plain).2 }
    addAll plains (if r.writer.isFull targetSize then r.finish keys else r)

end Repacking

namespace PrunePlan

variable (plan : PrunePlan)

/-- The chunks of a pack that are to move: they are referenced, no pack that stays has them, and
they have not moved yet. -/
def movedEntries (kept : Finset ObjectId) (copied : List ChunkId) (p : IndexPack) :
    List PackEntry :=
  p.entries.filter fun e =>
    plan.idx.isReferenced e.id && !plan.idx.heldBy e.id kept && e.id ∉ copied

/-- The packs of the plan that are to be deleted and that the index lists. -/
def deletedPacks : Finset ObjectId :=
  ((plan.toDelete.filter fun t => t.1.kind = .pack ∧ t.1.id ∈ plan.indexed).map
    fun t => t.1.id).toFinset

/-- `MAX_EFFECTIVE_BLOBS`. -/
def maxEffectiveBlobs : ℕ := 64

/-- The packs of the plan that stay in the index, those with a mark and those without, by name. -/
def keptPacks (marked : Bool) : List IndexPack :=
  ((plan.indexed.entries.map fun b => b.2).filter fun p =>
    p.pack ∉ plan.deletedPacks ∧ p.pack ∉ plan.phantoms ∧
      decide (p.pack ∈ plan.repack ∨ p.pack ∈ plan.markedPacks) = marked).insertionSort
    fun p q => p.pack ≤ q.pack

/-- The blob that takes the place of all others: the new packs first, those with a mark last. -/
def newBlob (newPacks : List IndexPack) : IndexBlob :=
  { IndexBlob.new (newPacks ++ plan.keptPacks false ++ plan.keptPacks true) with
    supersedes := plan.allBlobIds.insertionSort (· ≤ ·) }

/-- The index is written anew where a pack leaves it, a new pack comes, or there are too many
blobs. -/
def rewritesIndex (newPacks : List IndexPack) : Bool :=
  plan.deletedPacks ≠ ∅ ∨ newPacks ≠ [] ∨ plan.phantoms ≠ ∅ ∨
    plan.effectiveBlobCount > maxEffectiveBlobs

end PrunePlan

namespace TimedRepository

variable (repo : TimedRepository) (faults : PruneFaults) (plan : PrunePlan)

/-- The chunks of a pack, decoded. -/
def decodeAll (id : ObjectId) (pack : Pack) :
    List PackEntry → Except CoreError (List (ChunkId × Bytes))
  | [] => .ok []
  | e :: entries =>
    match pack.getRange e.offset e.length with
    | none => .error (.corrupt (.pack id) s!"chunk {e.id} points outside the pack")
    | some bytes => do
      let plain ← repo.decodeChunk e.id bytes e.rawLen (.pack id)
      let rest ← decodeAll id pack entries
      return (e.id, plain) :: rest

/-- `get` on a pack. -/
def getPack (id : ObjectId) : Except CoreError Pack :=
  match faults.unreadable id with
  | some e => .error e
  | none =>
    match repo.store.packs.lookup id with
    | none => .error (.notFound (.pack id))
    | some pack => .ok pack

/-- One round of `repack_packs`: a pack that cannot be read or decoded as a whole is left out. -/
def repackOne (kept : Finset ObjectId) (r : Repacking) (id : ObjectId) : Repacking :=
  match plan.indexed.lookup id with
  | none => r
  | some p =>
    let entries := plan.movedEntries kept r.copied p
    if entries = [] then r
    else
      match repo.getPack faults id >>= fun pack => repo.decodeAll id pack entries with
      | .error e => { r with failed := r.failed ++ [(id, e)] }
      | .ok plains => { Repacking.addAll repo.keys plan.packTargetSize plains r with
          copied := r.copied ++ entries.map PackEntry.id }

/-- `repack_packs`. -/
def repackPacks (nonce : ℕ) : Repacking :=
  let kept := plan.neededPacks \ plan.repack.toFinset
  if plan.repack = [] then { nonce }
  else (plan.repack.foldl (repo.repackOne faults plan kept) { nonce }).finish repo.keys

/-! ### Deleting -/

/-- The deletes that go with the delete of an object. -/
def groupOf (kind : Kind) (id : ObjectId) : List PruneOp :=
  match kind with
  | .pack => [.deleteSidecar id]
  | .tree => [.deleteReplica id, .deleteTouch id]
  | .index => []

/-- The deletes of a target. -/
def targetOps (t : PruneTarget) : List PruneOp := .delete t.kind t.id :: groupOf t.kind t.id

/-- The deletes of a target that take effect: after an error, what goes with the object stays. -/
def attemptOps (t : PruneTarget) : List PruneOp :=
  match faults.deleteError t.kind t.id with
  | none => targetOps t
  | some .unconfirmed => [.delete t.kind t.id]
  | some .refused => []

/-- What the loop over the deletions carries along. -/
structure Deleting where
  ops : List PruneOp := []
  marks : List ObjectId
  report : PruneReport

/-- The loop over the deletions. An object that was written or touched since its mark stays. -/
def deleteLoop (now : Time) : List (PruneTarget × Time) → TimedRepository → Deleting → Deleting
  | [], _, d => d
  | (target, mark) :: rest, repo, d =>
    match repo.info target.kind target.id with
    | none => deleteLoop now rest repo { d with
        marks := d.marks ++ [target.id]
        report.staleMarks := d.report.staleMarks + 1 }
    | some head =>
      if head.modified ≥ mark ∨
          (target.kind = .tree ∧ (repo.store.touches.lookup target.id).any fun t => t ≥ mark) then
        deleteLoop now rest repo { d with
          marks := d.marks ++ [target.id]
          report.revived := d.report.revived + 1 }
      else
        let ops := attemptOps faults target
        let d := { d with ops := d.ops ++ ops }
        deleteLoop now rest (repo.after now ops) <|
          match faults.deleteError target.kind target.id with
          -- the mark stays: the next prune comes back to the object
          | some _ => { d with report.skipped := d.report.skipped ++ [target.key] }
          | none => { d with
              marks := d.marks ++ [target.id]
              report.deleted := d.report.deleted + 1 }

/-- The new marks; a mark that is there stays as it is. -/
def newMarks (targets : List PruneTarget) : List PruneOp :=
  (targets.filter fun t => t.id ∉ repo.store.marks).map fun t => .putMark t.id

/-- The deletes of parity sidecars and touches whose pack or tree is not there. -/
def sweep : List PruneOp :=
  (repo.sidecars.filter fun id => id ∉ repo.store.packs).map .deleteSidecar ++
    (repo.store.touches.keys.filter fun id => id ∉ repo.store.trees).map .deleteTouch

/-- The new index blob, sealed. -/
def newIndex (nonce : ℕ) : Sealed :=
  let r := repo.repackPacks faults plan nonce
  .indexBlob r.nonce (plan.newBlob (r.out.map Prod.fst))

/-- The puts that come before any delete: the new packs, and the index where it is written anew. -/
def putOps (nonce : ℕ) : List PruneOp :=
  let r := repo.repackPacks faults plan nonce
  let blob := repo.newIndex faults plan nonce
  (r.out.map fun p => .putPack p.1.pack p.2) ++
    if plan.rewritesIndex (r.out.map Prod.fst)
      then [.putIndex (repo.keys.objectId blob) blob] else []

/-- The packs that could not be packed anew. -/
def failedPacks (nonce : ℕ) : List ObjectId :=
  (repo.repackPacks faults plan nonce).failed.map Prod.fst

/-- What is still to be marked: a pack that could not be packed anew keeps its chunks. -/
def targetsToMark (nonce : ℕ) : List PruneTarget :=
  plan.toMark.filter fun t => !(t.kind = .pack && t.id ∈ repo.failedPacks faults plan nonce)

/-- The deletes, after the puts. -/
def deleting (now : Time) (nonce : ℕ) : Deleting :=
  let failed := repo.failedPacks faults plan nonce
  deleteLoop faults now plan.toDelete (repo.after now (repo.putOps faults plan nonce))
    { marks := plan.marksToRemove
      report := { plan.report with
        newPacks := (repo.repackPacks faults plan nonce).out.length
        repackedPacks := plan.report.repackedPacks - failed.dedup.length
        marked := (repo.targetsToMark faults plan nonce).length
        skipped := failed.map .pack } }

/-- The operations up to the removal of the marks. -/
def clearOps (now : Time) (nonce : ℕ) : List PruneOp :=
  let d := repo.deleting faults plan now nonce
  repo.putOps faults plan nonce ++ d.ops ++ d.marks.map .deleteMark

/-- The operations up to the new marks. -/
def markOps (now : Time) (nonce : ℕ) : List PruneOp :=
  let ops := repo.clearOps faults plan now nonce
  ops ++ (repo.after now ops).newMarks (repo.targetsToMark faults plan nonce)

/-- `PrunePlan::execute`: the writes and deletes of a prune that nothing stops, and its report. -/
def execute (now : Time) (nonce : ℕ) : List PruneOp × PruneReport :=
  if plan.dryRun then ([], plan.report)
  else
    let ops := repo.markOps faults plan now nonce
    (ops ++ (repo.after now ops).sweep, (repo.deleting faults plan now nonce).report)

/-! ### Which operations there are -/

section Ops

variable {repo faults plan} {now : Time} {nonce : ℕ} {op : PruneOp}

/-- What holds of a repacking at its start, and is kept when a pack is finished and when anything
but the finished packs and their number changes, holds at its end. -/
theorem repackPacks_induction {P : Repacking → Prop} (h0 : P { nonce })
    (hfinish : ∀ r, P r → P (r.finish repo.keys))
    (hother : ∀ (r : Repacking) writer copied failed, P r →
      P { r with writer := writer, copied := copied, failed := failed }) :
    P (repo.repackPacks faults plan nonce) := by
  have hadd : ∀ (size : ℕ) (plains : List (ChunkId × Bytes)) (r : Repacking), P r →
      P (Repacking.addAll repo.keys size plains r) := by
    intro size plains
    induction plains with
    | nil => exact fun _ h => h
    | cons p plains ih =>
      obtain ⟨id, plain⟩ := p
      intro r h
      have hr : P { r with writer := (r.writer.add repo.keys id plain).2 } :=
        hother r _ r.copied r.failed h
      rw [Repacking.addAll]
      split_ifs
      · exact ih _ (hfinish _ hr)
      · exact ih _ hr
  have hone : ∀ (kept : Finset ObjectId) (r : Repacking) (id : ObjectId), P r →
      P (repo.repackOne faults plan kept r id) := by
    intro kept r id h
    rw [repackOne]
    split
    · exact h
    · dsimp only
      split_ifs
      · exact h
      · split
        · exact hother r r.writer r.copied _ h
        · exact hother _ _ _ _ (hadd _ _ _ h)
  have hall : ∀ (kept : Finset ObjectId) (ids : List ObjectId) (r : Repacking), P r →
      P (ids.foldl (repo.repackOne faults plan kept) r) := by
    intro kept ids
    induction ids with
    | nil => exact fun _ h => h
    | cons id ids ih => exact fun r h => ih _ (hone kept r id h)
  rw [repackPacks]
  split_ifs
  · exact h0
  · exact hfinish _ (hall _ _ _ h0)

/-- The blob of a prune is sealed after its packs. -/
theorem nonce_le_repackPacks : nonce ≤ (repo.repackPacks faults plan nonce).nonce := by
  refine repackPacks_induction (P := fun r => nonce ≤ r.nonce) le_rfl (fun r h => ?_)
    fun r _ _ _ h => h
  rw [Repacking.finish]
  split_ifs
  · exact h
  · exact h.trans (Nat.le_succ _)

/-- The new packs are named by the numbers under which they are sealed, each by its own. -/
theorem out_repackPacks
    (hnames : ∀ n n' chunks chunks',
      repo.keys.packId n chunks = repo.keys.packId n' chunks' → n = n') :
    (∀ p ∈ (repo.repackPacks faults plan nonce).out, ∃ n chunks, nonce ≤ n ∧
      p.1.pack = repo.keys.packId n chunks) ∧
    (repo.repackPacks faults plan nonce).out.Pairwise fun p q => p.1.pack ≠ q.1.pack := by
  have h := @repackPacks_induction repo faults plan nonce
    (fun r => nonce ≤ r.nonce ∧ (∀ p ∈ r.out, ∃ n chunks, nonce ≤ n ∧ n < r.nonce ∧
      p.1.pack = repo.keys.packId n chunks) ∧
        r.out.Pairwise fun (p q : IndexPack × Pack) => p.1.pack ≠ q.1.pack)
    ⟨le_rfl, by simp, .nil⟩ ?_ fun r _ _ _ h => h
  · obtain ⟨-, hname, hne⟩ := h
    exact ⟨fun p hp => by
      obtain ⟨n, chunks, hn, -, he⟩ := hname p hp
      exact ⟨n, chunks, hn, he⟩, hne⟩
  · rintro r ⟨hn, hname, hne⟩
    rw [Repacking.finish]
    split_ifs
    · exact ⟨hn, hname, hne⟩
    · refine ⟨hn.trans (Nat.le_succ _), ?_,
        List.pairwise_append.2 ⟨hne, List.pairwise_singleton _ _, ?_⟩⟩
      · intro p hp
        rcases List.mem_append.1 hp with hp | hp
        · obtain ⟨n, chunks, hle, hlt, he⟩ := hname p hp
          exact ⟨n, chunks, hle, Nat.lt_succ_of_lt hlt, he⟩
        · obtain rfl := List.mem_singleton.1 hp
          exact ⟨r.nonce, _, hn, Nat.lt_succ_self _, rfl⟩
      · intro p hp q hq heq
        obtain rfl := List.mem_singleton.1 hq
        obtain ⟨n, chunks, -, hlt, he⟩ := hname p hp
        exact hlt.ne (hnames _ _ _ _ (he.symm.trans heq))

theorem mem_targetOps_of_mem_attemptOps {t : PruneTarget} (h : op ∈ attemptOps faults t) :
    op ∈ targetOps t := by
  unfold attemptOps at h
  split at h
  · exact h
  · rw [List.mem_singleton.1 h]
    exact List.mem_cons_self
  · cases h

theorem mem_deleteLoop {targets : List (PruneTarget × Time)} {s : TimedRepository} {d : Deleting}
    (h : op ∈ (deleteLoop faults now targets s d).ops) :
    op ∈ d.ops ∨ ∃ t ∈ targets, op ∈ targetOps t.1 := by
  induction targets generalizing s d with
  | nil => exact .inl h
  | cons t targets ih =>
    obtain ⟨target, mark⟩ := t
    have hlater : (∃ t ∈ targets, op ∈ targetOps t.1) →
        ∃ t ∈ (target, mark) :: targets, op ∈ targetOps t.1 := fun ⟨t, ht, h⟩ =>
      ⟨t, List.mem_cons_of_mem _ ht, h⟩
    rw [deleteLoop] at h
    split at h
    · exact (ih h).imp_right hlater
    · split_ifs at h
      · exact (ih h).imp_right hlater
      · have hops : ∀ d' : Deleting, d'.ops = d.ops ++ attemptOps faults target →
            op ∈ d'.ops → op ∈ d.ops ∨ ∃ t ∈ (target, mark) :: targets, op ∈ targetOps t.1 := by
          intro d' hd' hmem
          rw [hd'] at hmem
          rcases List.mem_append.1 hmem with hmem | hmem
          · exact .inl hmem
          · exact .inr ⟨_, List.mem_cons_self, mem_targetOps_of_mem_attemptOps hmem⟩
        rcases ih h with h | h
        · refine hops _ ?_ h
          cases faults.deleteError target.kind target.id <;> rfl
        · exact .inr (hlater h)

/-- The operations of a plan. -/
theorem mem_execute (h : op ∈ (repo.execute faults plan now nonce).1) :
    (∃ id pack, op = .putPack id pack) ∨
      op = .putIndex (repo.keys.objectId (repo.newIndex faults plan nonce))
        (repo.newIndex faults plan nonce) ∨
      (∃ t ∈ plan.toDelete, op ∈ targetOps t.1) ∨ (∃ id, op = .deleteMark id) ∨
      (∃ id, op = .putMark id) ∨ (∃ id, op = .deleteSidecar id) ∨ ∃ id, op = .deleteTouch id := by
  rw [execute] at h
  split_ifs at h with hdry
  · cases h
  simp only [markOps, clearOps, putOps, List.mem_append] at h
  rcases h with ((((h | h) | h) | h) | h) | h
  · obtain ⟨p, -, rfl⟩ := List.mem_map.1 h
    exact .inl ⟨_, _, rfl⟩
  · split_ifs at h
    · exact .inr (.inl (List.mem_singleton.1 h))
    · cases h
  · rcases mem_deleteLoop h with h | h
    · cases h
    · exact .inr (.inr (.inl h))
  · obtain ⟨id, -, rfl⟩ := List.mem_map.1 h
    exact .inr (.inr (.inr (.inl ⟨id, rfl⟩)))
  · obtain ⟨t, -, rfl⟩ := List.mem_map.1 h
    exact .inr (.inr (.inr (.inr (.inl ⟨t.id, rfl⟩))))
  · rcases List.mem_append.1 h with h | h
    · obtain ⟨id, -, rfl⟩ := List.mem_map.1 h
      exact .inr (.inr (.inr (.inr (.inr (.inl ⟨id, rfl⟩)))))
    · obtain ⟨id, -, rfl⟩ := List.mem_map.1 h
      exact .inr (.inr (.inr (.inr (.inr (.inr ⟨id, rfl⟩)))))

end Ops

end TimedRepository

end Kist
