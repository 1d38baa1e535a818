import Kist.Backup.Valid
import Kist.Lifetime.Changes
import Kist.Prune.Loss

/-!
# Prunes that lose nothing

A prune, which may stop after any of its operations. Before the first delete the new packs are
there, and the index that lists them; from then on only what no index blob lists is deleted, and
trees only where a mark has outlived them.

* `Sound.unlisted_after`: deletes of what is not listed.
* `Sound.prune`: after any number of operations of a plan the index and the packs agree;
  `Intact.prune`: and every snapshot can be read.
* `Sound.keeps_prune`, `ages_prune`: what a prune takes away. `Outlived.old`,
  `old_of_mem_deletedPacks`: it was old by then.
-/

namespace Kist

open Checked (bind_eq_ok)

namespace TimedRepository

/-! ### Deletes -/

section Deletes

variable {s s' : TimedRepository} {op : PruneOp} {ops : List PruneOp} {now : Time}

/-- The operation deletes nothing that the index lists, and no index blob that counts. -/
def Unlisted (s : TimedRepository) : PruneOp → Prop
  | .putPack _ _ => False
  | .putIndex _ _ => False
  | .delete .pack id => ∀ q ∈ effectivePacks s.indexBlobs, q.pack ≠ id
  | .delete .index id => ∀ b ∈ effective s.indexBlobs, b.1 ≠ id
  | _ => True

theorem Unlisted.congr (h : s.Unlisted op)
    (heff : ∀ b, b ∈ effective s'.indexBlobs ↔ b ∈ effective s.indexBlobs) : s'.Unlisted op := by
  cases op with
  | delete kind id =>
    cases kind with
    | pack =>
      intro q hq
      obtain ⟨b, hb, hq⟩ := mem_effectivePacks.1 hq
      exact h q (mem_effectivePacks.2 ⟨b, (heff b).1 hb, hq⟩)
    | tree => trivial
    | index => exact fun b hb => h b ((heff b).1 hb)
  | putPack => exact h
  | putIndex => exact h
  | _ => trivial

theorem mem_indexBlobs_erase {id : ObjectId} {b : ObjectId × IndexBlob} :
    b ∈ (PruneOp.apply now s (.delete .index id)).indexBlobs ↔ b ∈ s.indexBlobs ∧ b.1 ≠ id := by
  obtain ⟨id', blob⟩ := b
  rw [mem_indexBlobs, mem_indexBlobs]
  by_cases hid : id' = id
  · subst hid
    refine ⟨fun h => ?_, fun h => absurd rfl h.2⟩
    have hmem : id' ∈ s.store.indexes.erase id' := mem_indexes_of_readIndexBlob h
    exact absurd rfl (AList.mem_erase.1 hmem).1
  · have hread : (PruneOp.apply now s (.delete .index id)).readIndexBlob id' =
      s.readIndexBlob id' :=
      readIndexBlob_congr rfl (AList.lookup_erase_ne hid)
    rw [hread]
    exact ⟨fun h => ⟨h, hid⟩, fun h => h.1⟩

/-- **One delete.** -/
theorem Sound.unlisted (h : s.Sound) (hop : s.Unlisted op) : (op.apply now s).Sound ∧
    ∀ b, b ∈ effective (op.apply now s).indexBlobs ↔ b ∈ effective s.indexBlobs := by
  cases op with
  | putPack => exact hop.elim
  | putIndex => exact hop.elim
  | delete kind id =>
    cases kind with
    | tree => exact ⟨⟨h.readable, h.packs, h.listed, h.irrefl, h.chain⟩, fun _ => .rfl⟩
    | pack =>
      refine ⟨⟨h.readable, fun i p hp => ?_, fun q hq => ?_, h.irrefl, h.chain⟩, fun _ => .rfl⟩
      · rw [PruneOp.apply, Dict.lookup_erase'] at hp
        split_ifs at hp
        exact h.packs i p hp
      · obtain ⟨p, hp, he⟩ := h.listed q hq
        refine ⟨p, ?_, he⟩
        rw [PruneOp.apply, Dict.lookup_erase', if_neg (hop q hq)]
        exact hp
    | index =>
      have hblobs : ∀ b, b ∈ (PruneOp.apply now s (.delete .index id)).indexBlobs →
          b ∈ s.indexBlobs := fun b hb => (mem_indexBlobs_erase.1 hb).1
      have heff : ∀ b, b ∈ effective (PruneOp.apply now s (.delete .index id)).indexBlobs ↔
          b ∈ effective s.indexBlobs := by
        intro b
        constructor
        · intro hb
          obtain ⟨hb, hnot⟩ := mem_effective.1 hb
          refine mem_effective.2 ⟨hblobs b hb, fun hsup => ?_⟩
          -- a blob that counts has replaced it, and that one is not deleted
          obtain ⟨a, ha, hmem⟩ := h.superseded (hblobs b hb) hsup
          exact hnot (mem_supersededBy.2
            ⟨a, mem_indexBlobs_erase.2 ⟨(mem_effective.1 ha).1, hop a ha⟩, hmem⟩)
        · intro hb
          have hne := hop b hb
          obtain ⟨hb, hnot⟩ := mem_effective.1 hb
          refine mem_effective.2 ⟨mem_indexBlobs_erase.2 ⟨hb, hne⟩, fun hsup => ?_⟩
          obtain ⟨a, ha, hmem⟩ := mem_supersededBy.1 hsup
          exact hnot (mem_supersededBy.2 ⟨a, hblobs a ha, hmem⟩)
      refine ⟨⟨?_, h.packs, fun q hq => ?_, fun b hb => h.irrefl b (hblobs b hb),
        fun b hb b' hb' hsup b'' hb'' hsup' => h.chain b (hblobs b hb) b' (hblobs b' hb') hsup b''
          (hblobs b'' hb'') hsup'⟩, heff⟩
      · refine readable_iff.2 fun i hi => ?_
        obtain ⟨hne, hi⟩ := AList.mem_erase.1 hi
        obtain ⟨blob, hread⟩ := readable_iff.1 h.readable i hi
        have hsame : (PruneOp.apply now s (.delete .index id)).readIndexBlob i =
          s.readIndexBlob i :=
          readIndexBlob_congr rfl (AList.lookup_erase_ne hne)
        exact ⟨blob, hsame.trans hread⟩
      · obtain ⟨b, hb, hq⟩ := mem_effectivePacks.1 hq
        exact h.listed q (mem_effectivePacks.2 ⟨b, (heff b).1 hb, hq⟩)
  | _ => exact ⟨⟨h.readable, h.packs, h.listed, h.irrefl, h.chain⟩, fun _ => .rfl⟩

/-- **Any number of deletes.** -/
theorem Sound.unlisted_after (h : s.Sound) (hops : ∀ op ∈ ops, s.Unlisted op) :
    (s.after now ops).Sound ∧
      ∀ b, b ∈ effective (s.after now ops).indexBlobs ↔ b ∈ effective s.indexBlobs := by
  induction ops generalizing s with
  | nil => exact ⟨h, fun _ => .rfl⟩
  | cons op ops ih =>
    obtain ⟨hop, hops⟩ := List.forall_mem_cons.1 hops
    obtain ⟨hsound, heff⟩ := @Sound.unlisted s op now h hop
    obtain ⟨hsound, heff'⟩ := ih hsound fun op hmem => (hops op hmem).congr heff
    exact ⟨hsound, fun b => (heff' b).trans (heff b)⟩

end Deletes

/-! ### Puts -/

section Puts

variable {s : TimedRepository} {now : Time}

/-- **The new packs.** -/
theorem extends_putPacks {out : List (IndexPack × Pack)} (hread : s.indexErrors = [])
    (hout : ∀ p ∈ out, p.2.Sound s.keys s.config.chunker.max ∧ p.1.pack ≠ pendingPack ∧
      p.1.pack ∉ s.store.packs) (hne : out.Pairwise fun p q => p.1.pack ≠ q.1.pack) :
    Extends [] s (s.after now (out.map fun p => .putPack p.1.pack p.2)) ∧
      ∀ p ∈ out, (s.after now
        (out.map fun p => .putPack p.1.pack p.2)).store.packs.lookup p.1.pack =
        some p.2 := by
  induction out generalizing s with
  | nil => exact ⟨⟨rfl, rfl, hread, fun _ _ hp => hp, fun _ _ hp => .inl hp,
      fun _ => (or_iff_left List.not_mem_nil).symm,
      List.forall_mem_nil _, List.forall_mem_nil _, fun _ _ ht => ht, rfl⟩, List.forall_mem_nil _⟩
  | cons p out ih =>
    obtain ⟨⟨hsound, hpending, hnew⟩, hout⟩ := List.forall_mem_cons.1 hout
    obtain ⟨hp, hne⟩ := List.pairwise_cons.1 hne
    set s₁ : TimedRepository := PruneOp.apply now s (.putPack p.1.pack p.2)
    have hlook : ∀ id, s₁.store.packs.lookup id =
        if id = p.1.pack then some p.2 else s.store.packs.lookup id := fun id =>
      Dict.lookup_insert' _ _ _ _
    -- the packs still to come have names of their own, so the first one does not take theirs
    have hrest : ∀ q ∈ out, q.2.Sound s₁.keys s₁.config.chunker.max ∧ q.1.pack ≠ pendingPack ∧
        q.1.pack ∉ s₁.store.packs := by
      intro q hq
      obtain ⟨hs, hpend, hfresh⟩ := hout q hq
      refine ⟨hs, hpend, fun hmem => ?_⟩
      rcases (AList.mem_insert _).1 hmem with heq | hmem
      · exact hp q hq heq.symm
      · exact hfresh hmem
    obtain ⟨hext, hlisted⟩ := @ih s₁ hread hrest hne
    have hold : ∀ id q, s.store.packs.lookup id = some q → s₁.store.packs.lookup id = some q := by
      intro id q hq
      rw [hlook, if_neg]
      · exact hq
      · rintro rfl
        exact hnew (AList.lookup_isSome.1 (by rw [hq]; rfl))
    refine ⟨⟨hext.keys, hext.config, hext.readable, fun id q hq => hext.kept id q (hold id q hq),
      fun id q hq => ?_, hext.blobs, hext.fresh, hext.lists, hext.trees, hext.snapshots⟩,
      List.forall_mem_cons.2 ⟨hext.kept _ _ ((hlook _).trans (if_pos rfl)), hlisted⟩⟩
    rcases hext.packs id q hq with hq | hq
    · rw [hlook] at hq
      split_ifs at hq with hid
      · cases hq
        exact .inr ⟨hsound, hid ▸ hpending⟩
      · exact .inl hq
    · exact .inr hq

end Puts

/-! ### The operations of a plan -/

section Prune

variable {repo : TimedRepository} {sorter : SortedTable.UnstableSort TableRecord.sortKey}
  {opts : PruneOptions} {live : Dict ObjectId ℕ} {plan : PrunePlan} {faults : PruneFaults}
  {now : Time} {nonce : ℕ} {ops : List PruneOp}

/-- After the puts come the deletes of the targets, and what the index has nothing to do with. -/
theorem execute_eq (hdry : ¬plan.dryRun = true) :
    ∃ rest, (repo.execute faults plan now nonce).1 = repo.putOps faults plan nonce ++ rest ∧
      ∀ op ∈ rest, (∃ t ∈ plan.toDelete, op ∈ targetOps t.1) ∨ ∀ s : TimedRepository,
        s.Unlisted op := by
  have hassoc : ∀ p d m n w : List PruneOp,
    p ++ d ++ m ++ n ++ w = p ++ (d ++ (m ++ (n ++ w))) := by
    simp
  rw [execute, if_neg hdry]
  refine ⟨_, hassoc _ _ _ _ _, fun op hop => ?_⟩
  simp only [List.mem_append] at hop
  rcases hop with hop | hop | hop | hop
  · rcases mem_deleteLoop hop with hop | hop
    · cases hop
    · exact .inl hop
  · obtain ⟨id, -, rfl⟩ := List.mem_map.1 hop
    exact .inr fun _ => trivial
  · obtain ⟨t, -, rfl⟩ := List.mem_map.1 hop
    exact .inr fun _ => trivial
  · rcases List.mem_append.1 hop with hop | hop
    · obtain ⟨id, -, rfl⟩ := List.mem_map.1 hop
      exact .inr fun _ => trivial
    · obtain ⟨id, -, rfl⟩ := List.mem_map.1 hop
      exact .inr fun _ => trivial

/-- A target is there and not live. -/
theorem target_dead {t : PruneTarget} {time : Time} (h : Planned repo sorter opts live plan)
    (ht : (t, time) ∈ plan.toDelete) : t.id ∈ repo.listIds t.kind ∧
      repo.isLive plan.neededPacks
        (repo.reachability (repo.pruneIndex sorter).locator).liveTrees t.kind t.id = false := by
  rw [h.decided] at ht
  obtain ⟨-, hjudge⟩ := mem_toDelete ht
  obtain ⟨-, hinfo, hlive, -⟩ := judge_eq_delete hjudge
  exact ⟨(info_eq_some.1 hinfo).1, hlive⟩

theorem target_pack {t : PruneTarget × Time} (h : Planned repo sorter opts live plan)
    (ht : t ∈ plan.toDelete) (hkind : t.1.kind = .pack) : t.1.id ∈ repo.store.packs := by
  obtain ⟨t, time⟩ := t
  have hmem := (target_dead h ht).1
  dsimp only at hkind
  rw [hkind] at hmem
  exact hmem

theorem target_index {t : PruneTarget × Time} (h : Planned repo sorter opts live plan)
    (ht : t ∈ plan.toDelete) (hkind : t.1.kind = .index) : t.1.id ∈ repo.store.indexes ∧
      ∀ b ∈ effective repo.indexBlobs, b.1 ≠ t.1.id := by
  obtain ⟨t, time⟩ := t
  obtain ⟨hmem, hlive⟩ := target_dead h ht
  dsimp only at hkind
  rw [hkind] at hmem hlive
  refine ⟨hmem, fun b hb heq => of_decide_eq_false hlive ?_⟩
  exact List.mem_map.2 ⟨b, hb, heq⟩

theorem mem_deletedPacks {t : PruneTarget} {time : Time} (ht : (t, time) ∈ plan.toDelete)
    (hkind : t.kind = .pack) (hid : t.id ∈ plan.indexed) : t.id ∈ plan.deletedPacks :=
  List.mem_toFinset.2 (List.mem_map.2
    ⟨(t, time), List.mem_filter.2 ⟨ht, decide_eq_true ⟨hkind, hid⟩⟩, rfl⟩)

/-- The operations on a target that the index does not list. -/
theorem unlisted_of_mem_targetOps {s : TimedRepository} {t : PruneTarget} {op : PruneOp}
    (hop : op ∈ targetOps t)
    (hpack : t.kind = .pack → ∀ q ∈ effectivePacks s.indexBlobs, q.pack ≠ t.id)
    (hindex : t.kind = .index → ∀ b ∈ effective s.indexBlobs, b.1 ≠ t.id) : s.Unlisted op := by
  obtain ⟨kind, id, modified⟩ := t
  cases kind with
  | pack =>
    rcases List.mem_cons.1 hop with rfl | hop
    · exact hpack rfl
    · obtain rfl := List.mem_singleton.1 hop
      trivial
  | tree =>
    rcases List.mem_cons.1 hop with rfl | hop
    · trivial
    · rcases List.mem_cons.1 hop with rfl | hop
      · trivial
      · obtain rfl := List.mem_singleton.1 hop
        trivial
  | index =>
    rcases List.mem_cons.1 hop with rfl | hop
    · exact hindex rfl
    · cases hop

/-- The new blob lists new packs, and of those listed before none that is deleted. -/
theorem mem_newBlob_kept {newPacks : List IndexPack} {q : IndexPack}
    (h : Planned repo sorter opts live plan) (hq : q ∈ (plan.newBlob newPacks).packs) :
    q ∈ newPacks ∨ q ∈ effectivePacks repo.indexBlobs ∧ q.pack ∉ plan.deletedPacks := by
  have hkept : ∀ marked, q ∈ plan.keptPacks marked → q.pack ∉ plan.deletedPacks := by
    intro marked hmem
    rw [PrunePlan.keptPacks, List.mem_insertionSort] at hmem
    have hfilter := (List.mem_filter.1 hmem).2
    exact (of_decide_eq_true hfilter).1
  have hall : q ∈ newPacks ++ plan.keptPacks false ++ plan.keptPacks true := hq
  rcases List.mem_append.1 hall with hmem | hmem
  · rcases List.mem_append.1 hmem with hmem | hmem
    · exact .inl hmem
    · exact (mem_newBlob h hq).imp_right fun hold => ⟨hold, hkept _ hmem⟩
  · exact (mem_newBlob h hq).imp_right fun hold => ⟨hold, hkept _ hmem⟩

/-- The new blob replaces all others. -/
theorem mem_allBlobIds {b : ObjectId × IndexBlob} (h : Planned repo sorter opts live plan)
    (hb : b ∈ repo.indexBlobs) : b.1 ∈ plan.allBlobIds := by
  rw [h.decided]
  simp only [decidePlan, List.mem_append, List.mem_map]
  by_cases hsup : b.1 ∈ supersededBy repo.indexBlobs
  · exact .inr ⟨b, List.mem_filter.2 ⟨hb, decide_eq_true hsup⟩, rfl⟩
  · exact .inl ⟨b, mem_effective.2 ⟨hb, hsup⟩, rfl⟩

/-- The index blobs that count agree on what is in a pack. -/
theorem Sound.packsAgree (hs : repo.Sound) : repo.PacksAgree := by
  intro p hp q hq heq
  obtain ⟨a, ha, hpa⟩ := hs.listed p hp
  obtain ⟨b, hb, hqb⟩ := hs.listed q hq
  rw [heq, hb] at ha
  cases ha
  rw [hpa, hqb]

/-- What the index lists is there. -/
theorem Sound.notMem_phantomPacks (hs : repo.Sound) (h : Planned repo sorter opts live plan)
    {id : ObjectId} : id ∉ repo.phantomPacks plan.indexed := by
  intro hmem
  obtain ⟨hid, hnot⟩ := Finset.mem_filter.1 hmem
  obtain ⟨q, hq, rfl⟩ := (mem_indexed h).1 (List.mem_toFinset.1 hid)
  obtain ⟨p, hp, -⟩ := hs.listed q hq
  exact hnot (AList.lookup_isSome.1 (by rw [hp]; rfl))

/-- What is listed stays listed where the blobs that count still do. -/
theorem lists_of_effective {s s' : TimedRepository} {x : ChunkId} {loc : ChunkLocation}
    (heff : ∀ b ∈ effective s.indexBlobs, b ∈ effective s'.indexBlobs)
    (hl : Lists (effectivePacks s.indexBlobs) x loc) :
    Lists (effectivePacks s'.indexBlobs) x loc := by
  obtain ⟨q, hq, he⟩ := hl
  obtain ⟨b, hb, hq⟩ := mem_effectivePacks.1 hq
  exact ⟨q, mem_effectivePacks.2 ⟨b, heff b hb, hq⟩, he⟩

/-- The new packs are sound, and their names are new. -/
theorem newPacks_fresh (hkeys : repo.keys.Faithful) (hfresh : repo.FreshNames nonce) :
    ∀ p ∈ (repo.repackPacks faults plan nonce).out,
      p.2.Sound repo.keys repo.config.chunker.max ∧ p.1.pack ≠ pendingPack ∧
        p.1.pack ∉ repo.store.packs := by
  intro p hp
  obtain ⟨hsound, -⟩ := (@repackPacks_sound repo faults plan nonce hkeys.sealed).out p hp
  obtain ⟨n, chunks, hn, hid⟩ := (@out_repackPacks repo faults plan nonce hkeys.pack).1 p hp
  exact ⟨hsound, hid ▸ hkeys.pending n chunks, hid ▸ hfresh.packs n hn chunks⟩

/-- Where the index stays as it is it lists no target. -/
theorem unlisted_of_kept {s : TimedRepository} {t : PruneTarget × Time} {op : PruneOp}
    (h : Planned repo sorter opts live plan) (hnone : plan.deletedPacks = ∅)
    (hext : Extends [] repo s) (ht : t ∈ plan.toDelete) (hop : op ∈ targetOps t.1) :
    s.Unlisted op := by
  refine unlisted_of_mem_targetOps hop (fun hkind q hq heq => ?_) fun hkind b hb => ?_
  · have hq := (hext.mem_effectivePacks.1 hq).resolve_right fun hnil => by
      obtain ⟨b, hb, -⟩ := hnil
      cases hb
    have hmem := mem_deletedPacks ht hkind ((mem_indexed h).2 ⟨q, hq, heq⟩)
    rw [hnone] at hmem
    exact Finset.notMem_empty _ hmem
  · exact (target_index h ht hkind).2 b ((hext.mem_effective.1 hb).resolve_right List.not_mem_nil)

/-- Where the new blob alone counts it lists no target. -/
theorem unlisted_of_new {s : TimedRepository} {t : PruneTarget × Time}
    {op : PruneOp} {id : ObjectId}
    {newPacks : List IndexPack} (h : Planned repo sorter opts live plan)
    (hid : id ∉ repo.store.indexes) (hnew : ∀ q ∈ newPacks, q.pack ∉ repo.store.packs)
    (heff : ∀ b, b ∈ effective s.indexBlobs ↔ b = (id, plan.newBlob newPacks))
    (ht : t ∈ plan.toDelete) (hop : op ∈ targetOps t.1) : s.Unlisted op := by
  refine unlisted_of_mem_targetOps hop (fun hkind q hq heq => ?_) fun hkind b hb heq => ?_
  · obtain ⟨b, hb, hq⟩ := mem_effectivePacks.1 hq
    rw [(heff b).1 hb] at hq
    rcases mem_newBlob_kept h hq with hq | ⟨hq, hnot⟩
    · exact hnew q hq (heq ▸ target_pack h ht hkind)
    · exact hnot (heq ▸ mem_deletedPacks ht hkind ((mem_indexed h).2 ⟨q, hq, heq⟩))
  · rw [(heff b).1 hb] at heq
    have hmem := (target_index h ht hkind).1
    rw [← heq] at hmem
    exact hid hmem

/-- **The new blob**, when the new packs are there. -/
theorem Sound.putIndex {s : TimedRepository} (hs : repo.Sound)
    (h : Planned repo sorter opts live plan) (hfresh : repo.FreshFrom nonce)
    {n : ℕ} (hn : nonce ≤ n)
    (hext : Extends [] repo s) {newPacks : List IndexPack}
    (hput : ∀ q ∈ newPacks,
      ∃ p, s.store.packs.lookup q.pack = some p ∧ q.entries = p.chunks.map Prod.fst) :
    (PruneOp.apply now s (.putIndex (repo.keys.objectId (.indexBlob n (plan.newBlob newPacks)))
        (.indexBlob n (plan.newBlob newPacks)))).Sound ∧
      ∀ b, b ∈ effective (PruneOp.apply now s
          (.putIndex (repo.keys.objectId (.indexBlob n (plan.newBlob newPacks)))
            (.indexBlob n (plan.newBlob newPacks)))).indexBlobs ↔
        b = (repo.keys.objectId (.indexBlob n (plan.newBlob newPacks)), plan.newBlob newPacks) := by
  set blob := plan.newBlob newPacks
  obtain ⟨hunused, hunsup⟩ := hfresh n hn blob
  have hs₁ : s.Sound := hext.sound hs
  have hpast : ∀ b ∈ s.indexBlobs, b ∈ repo.indexBlobs := fun b hb =>
    ((hext.blobs b).1 hb).resolve_right List.not_mem_nil
  have hunused₁ : repo.keys.objectId (.indexBlob n blob) ∉ s.store.indexes := by
    intro hmem
    obtain ⟨b, hb⟩ := readable_iff.1 hs₁.readable _ hmem
    exact hunused (mem_indexes_of_readIndexBlob (mem_indexBlobs.1 (hpast _ (mem_indexBlobs.2 hb))))
  have hself : repo.keys.objectId (.indexBlob n blob) ∉ blob.supersedes := fun hmem =>
    hunused (mem_indexes_of_mem_allBlobIds h ((List.mem_insertionSort _).1 hmem))
  have hold : ∀ b ∈ s.indexBlobs, b.1 ∈ blob.supersedes := fun b hb =>
    (List.mem_insertionSort _).2 (mem_allBlobIds h (hpast b hb))
  have hlists : ∀ q ∈ blob.packs,
      ∃ p, s.store.packs.lookup q.pack = some p ∧ q.entries = p.chunks.map Prod.fst := by
    intro q hq
    rcases mem_newBlob_kept h hq with hq | ⟨hq, -⟩
    · exact hput q hq
    · obtain ⟨p, hp, he⟩ := hs.listed q hq
      exact ⟨p, hext.kept _ p hp, he⟩
  have hkeys₁ : s.keys = repo.keys := hext.keys
  rw [← hkeys₁] at hunused₁ hself hunsup ⊢
  obtain ⟨hs₂, heff⟩ := @Sound.replace s n blob now hs₁ rfl hunused₁
    (fun hmem => hunsup (hext.mem_supersededBy.1 hmem)) hold hself hlists
  exact ⟨⟨hs₂.readable, hs₂.packs, hs₂.listed, hs₂.irrefl, hs₂.chain⟩, heff⟩

/-- **The packs and the index** after any number of operations of a plan. -/
theorem Sound.prune (hs : repo.Sound) (hkeys : repo.keys.Faithful) (hfresh : repo.FreshNames nonce)
    (h : Planned repo sorter opts live plan)
    (hops : ops <+: (repo.execute faults plan now nonce).1) : (repo.after now ops).Sound ∧
      ∀ x loc, Lists (effectivePacks repo.indexBlobs) x loc → loc.pack ∉ plan.deletedPacks →
        Lists (effectivePacks (repo.after now ops).indexBlobs) x loc := by
  by_cases hdry : plan.dryRun = true
  · rw [execute, if_pos hdry] at hops
    rw [List.prefix_nil.1 hops]
    exact ⟨hs, fun _ _ hl _ => hl⟩
  obtain ⟨rest, heq, hrest⟩ := @execute_eq repo plan faults now nonce hdry
  rw [heq, putOps] at hops
  rw [List.append_assoc] at hops
  have hnew := @newPacks_fresh repo plan faults nonce hkeys hfresh
  have hne := (@out_repackPacks repo faults plan nonce hkeys.pack).2
  have hsound := (@repackPacks_sound repo faults plan nonce hkeys.sealed).out
  set out := (repo.repackPacks faults plan nonce).out
  rcases List.prefix_or_prefix_of_prefix hops (List.prefix_append _ _) with hpre | ⟨ops', rfl⟩
  · -- it stops before the index is written
    obtain ⟨out', hout', rfl⟩ := List.prefix_map_iff.1 hpre
    have hext := (@extends_putPacks repo now out' hs.readable (fun p hp => hnew p (hout'.subset hp))
      (hne.sublist hout'.sublist)).1
    exact ⟨hext.sound hs, fun x loc hl _ => hext.keeps.lists x loc hl (Set.notMem_empty _)⟩
  have hops := (List.prefix_append_right_inj _).1 hops
  obtain ⟨hext, hput⟩ := @extends_putPacks repo now out hs.readable hnew hne
  rw [after_append]
  set s := repo.after now (out.map fun p => .putPack p.1.pack p.2)
  have hs₁ : s.Sound := hext.sound hs
  have hold₁ : ∀ x loc, Lists (effectivePacks repo.indexBlobs) x loc →
      Lists (effectivePacks s.indexBlobs) x loc := fun x loc hl =>
    hext.keeps.lists x loc hl (Set.notMem_empty _)
  split_ifs at hops with hrewrite
  · rcases List.prefix_cons_iff.1 hops with rfl | ⟨ops'', rfl, htail⟩
    · exact ⟨hs₁, fun x loc hl _ => hold₁ x loc hl⟩
    have hlisted : ∀ q ∈ out.map Prod.fst,
        ∃ p, s.store.packs.lookup q.pack = some p ∧ q.entries = p.chunks.map Prod.fst := by
      intro q hq
      obtain ⟨p, hp, rfl⟩ := List.mem_map.1 hq
      exact ⟨p.2, hput p hp, (hsound p hp).2⟩
    have hunlisted : ∀ q ∈ out.map Prod.fst, q.pack ∉ repo.store.packs := by
      intro q hq
      obtain ⟨p, hp, rfl⟩ := List.mem_map.1 hq
      exact (hnew p hp).2.2
    obtain ⟨hs₂, heff₂⟩ :=
      @Sound.putIndex repo sorter opts live plan now nonce s hs h hfresh.blobs _
      nonce_le_repackPacks hext _ hlisted
    have hunused := (hfresh.blobs _ (@nonce_le_repackPacks repo faults plan nonce)
      (plan.newBlob (out.map Prod.fst))).1
    obtain ⟨hs₃, heff₃⟩ := @Sound.unlisted_after _ ops'' now hs₂ fun op hop => by
      rcases hrest op (htail.subset hop) with ⟨t, ht, hop⟩ | hop
      · exact unlisted_of_new h hunused hunlisted heff₂ ht hop
      · exact hop _
    refine ⟨hs₃, fun x loc hl hstays => ?_⟩
    obtain ⟨q, hq, he⟩ := lists_newBlob h hs.packsAgree hstays (hs.notMem_phantomPacks h) hl
      (out.map Prod.fst)
    exact ⟨q, mem_effectivePacks.2 ⟨_, (heff₃ _).2 ((heff₂ _).2 rfl), hq⟩, he⟩
  · have hnone : plan.deletedPacks = ∅ := by
      by_contra hsome
      exact hrewrite (decide_eq_true (.inl hsome))
    have htargets : ∀ op ∈ ops', s.Unlisted op := by
      intro op hop
      rcases hrest op (hops.subset hop) with ⟨t, ht, hop⟩ | hop
      · exact unlisted_of_kept h hnone hext ht hop
      · exact hop s
    obtain ⟨hs₂, heff₂⟩ := @Sound.unlisted_after s ops' now hs₁ htargets
    exact ⟨hs₂, fun x loc hl _ => lists_of_effective (fun b hb => (heff₂ b).2 hb) (hold₁ x loc hl)⟩

/-! ### The snapshots -/

/-- A directory of a tree that can be read has a tree of its own. -/
theorem subtree_ne_zero {t : Tree} {e : Entry} (h : t.validate = .ok ()) (he : e ∈ t.entries)
    (hk : e.kind = .dir) : e.subtree ≠ TreeId.zero := by
  unfold Tree.validate at h
  split_ifs at h
  · cases h
  have hcontent := (Entry.validate_iff.1 (Backup.validateEntries_forall h e he)).2.1
  unfold Entry.validateContent at hcontent
  rw [hk] at hcontent
  intro hzero
  simp [hzero] at hcontent

/-- What a root reaches by names is reached by reading. -/
theorem Intact.liveTree (h : repo.Intact) (hkeys : repo.keys.Faithful) {root id : TreeId}
    (hlive : repo.Live root) (hid : repo.keys.Reaches root id) : repo.LiveTree id := by
  have hserves := h.serves root hlive
  have hreach : repo.TreeReach root id := by
    induction hid with
    | refl => exact .refl
    | prev hr ht hp ih =>
      obtain ⟨t', ht'⟩ := hserves.trees _ hr
      obtain rfl := hkeys.tree (ht.trans (Repository.readTreeOnce_ok ht').1.symm)
      exact ih.tail ⟨_, Repository.hasTree_of_once ht', .inl hp⟩
    | sub hr ht he hk ih =>
      obtain ⟨t', ht'⟩ := hserves.trees _ hr
      obtain ⟨hid, hvalid⟩ := Repository.readTreeOnce_ok ht'
      obtain rfl := hkeys.tree (ht.trans hid.symm)
      exact ih.tail ⟨_, Repository.hasTree_of_once ht',
        .inr ⟨_, he, hk, subtree_ne_zero hvalid he hk, rfl⟩⟩
  obtain ⟨key, hkey, snap, hread, r, hr, rfl⟩ := hlive
  exact ⟨key, (List.mem_insertionSort _).2 hkey, snap, hread, r, hr, hreach⟩

theorem keys_after : (repo.after now ops).keys = repo.keys := by
  induction ops generalizing repo with
  | nil => rfl
  | cons op ops ih =>
    refine ih.trans ?_
    cases op with
    | delete kind id => cases kind <;> rfl
    | _ => rfl

theorem config_after : (repo.after now ops).config = repo.config := by
  induction ops generalizing repo with
  | nil => rfl
  | cons op ops ih =>
    refine ih.trans ?_
    cases op with
    | delete kind id => cases kind <;> rfl
    | _ => rfl

/-- **Any number of operations of a prune** leave the repository intact. -/
theorem Intact.prune (h : repo.Intact) (hkeys : repo.keys.Faithful) (hfresh : repo.FreshNames nonce)
    (hplan : repo.prunePlan sorter opts = .ok plan)
    (hops : ops <+: (repo.execute faults plan now nonce).1) :
    (repo.after now ops).Intact := by
  obtain ⟨live, hp⟩ := planned_of_prunePlan hplan
  -- chunks: every prefix of the operations leaves each referenced chunk a place
  obtain ⟨hchunks, -⟩ := holds_of_isPrefix hp h.packsAgree hfresh.blobs hops
  -- trees: no live tree is among the doomed ones
  have hspared : (scope hp faults hfresh.blobs).Spared (repo.after now ops) :=
    @Scope.Spared.after (scope hp faults hfresh.blobs) _ _ _ Scope.spared_refl fun op hop =>
      spares_execute hp hfresh.blobs op (hops.subset hop)
  have hkeys' : (repo.after now ops).keys = repo.keys := keys_after
  have hwalk := Repository.walkReferences_eq repo.toRepository (repo.pruneIndex sorter).locator
  obtain ⟨htrees, -, -⟩ := Repository.walkReferences_spec hwalk hp.resolved
  have hdone := Repository.done_of_walkReferences hwalk hp.resolved
  obtain ⟨hlist, hreplicas⟩ := @snapshots_after repo now ops
  have hsnap : ∀ key, (repo.after now ops).readSnapshot key = repo.readSnapshot key := fun key =>
    readSnapshot_congr (by rw [hlist]) (by rw [hreplicas])
  refine ⟨(h.toSound.prune hkeys hfresh hp hops).1, fun key hkey => ?_, fun root hlive => ?_⟩
  · rw [hsnap]
    exact h.snapshots key (hlist ▸ hkey)
  have hlive : repo.Live root := by
    obtain ⟨key, hkey, snap, hread, hr⟩ := hlive
    exact ⟨key, hlist ▸ hkey, snap, (hsnap key).symm.trans hread, hr⟩
  have hserves := h.serves root hlive
  refine ⟨fun id hid => ?_, fun t ht => ?_, fun x hx => ?_⟩
  · rw [hkeys'] at hid
    obtain ⟨t, ht⟩ := hserves.trees id hid
    have hmem := (htrees id).2 (h.liveTree hkeys hlive hid)
    have hget : (repo.after now ops).store.getSealed (.tree id) =
        repo.store.getSealed (.tree id) := hspared.trees id hmem
    exact ⟨t, (Repository.readTreeOnce_congr hkeys' hget).trans ht⟩
  · rw [hkeys'] at ht ⊢
    exact hserves.genuine t ht
  · rw [hkeys'] at hx
    obtain ⟨t, e, ht, he, hk, hrefers⟩ := hx
    have htree := h.liveTree hkeys hlive ht
    obtain ⟨t', ht'⟩ := hserves.trees _ ht
    obtain rfl := hkeys.tree (Repository.readTreeOnce_ok ht').1
    have hread := Repository.hasTree_of_once ht'
    have hnode : e.kind = .file ∧ (x ∈ e.chunks ∨ ∃ ids, repo.resolveChunks e.chunks e.content
        (repo.pruneIndex sorter).locator = .ok ids ∧ x ∈ ids) := by
      refine ⟨hk, ?_⟩
      -- a chunk is listed in the entry itself or in the list its chunk spells
      cases hrefers with
      | listed hx => exact .inl hx
      | spelled hc hs hx =>
        obtain ⟨ids, hids⟩ := (hdone _ ((htrees _).2 htree)).resolved t' hread e he hk
        have hcontent : e.content = .indirect := hc
        have hspells := hids
        rw [hcontent] at hspells
        have hsame := (Repository.spells_of_resolveChunks hspells).unique hkeys.chunk hs
        exact .inr ⟨ids, hids, hsame ▸ hx⟩
    obtain ⟨loc, -, hl, -⟩ := hchunks _ x htree ⟨t', hread, e, he, hnode⟩
    exact ⟨loc, hl⟩

/-! ### What is deleted -/

theorem trees_after {id : TreeId} (h : PruneOp.delete .tree id ∉ ops) :
    (repo.after now ops).store.trees.lookup id = repo.store.trees.lookup id := by
  induction ops generalizing repo with
  | nil => rfl
  | cons op ops ih =>
    obtain ⟨hne, hops⟩ := not_or.1 (List.mem_cons.not.1 h)
    refine (ih hops).trans ?_
    cases op with
    | delete kind i =>
      cases kind with
      | tree => exact AList.lookup_erase_ne fun hid => hne (hid ▸ rfl)
      | _ => rfl
    | _ => rfl

theorem touches_after {id : TreeId} (h : PruneOp.deleteTouch id ∉ ops) :
    (repo.after now ops).store.touches.lookup id = repo.store.touches.lookup id := by
  induction ops generalizing repo with
  | nil => rfl
  | cons op ops ih =>
    obtain ⟨hne, hops⟩ := not_or.1 (List.mem_cons.not.1 h)
    refine (ih hops).trans ?_
    cases op with
    | delete kind i => cases kind <;> rfl
    | deleteTouch i => exact AList.lookup_erase_ne fun hid => hne (hid ▸ rfl)
    | _ => rfl

theorem modified_after (id : TreeId) :
    (repo.after now ops).modified .tree id = repo.modified .tree id := by
  induction ops generalizing repo with
  | nil => rfl
  | cons op ops ih =>
    refine ih.trans ?_
    cases op with
    | delete kind i => cases kind <;> rfl
    | putPack => simp [PruneOp.apply]
    | putIndex => simp [PruneOp.apply]
    | _ => rfl

theorem marks_after {id : ObjectId} {m : Time}
    (h : (repo.after now ops).store.marks.lookup id = some m) :
    repo.store.marks.lookup id = some m ∨ m = now := by
  induction ops generalizing repo with
  | nil => exact .inl h
  | cons op ops ih =>
    rcases ih h with h | h
    · cases op with
      | delete kind i => cases kind <;> exact .inl h
      | deleteMark i =>
        rw [PruneOp.apply, Dict.lookup_erase'] at h
        split_ifs at h
        exact .inl h
      | putMark i =>
        rw [PruneOp.apply, Dict.lookup_insert'] at h
        split_ifs at h
        · exact .inr (Option.some.inj h).symm
        · exact .inl h
      | _ => exact .inl h
    · exact .inr h

/-- A mark of a tree that is older than the tree itself and its touch has no effect. -/
def Outlived (s : TimedRepository) (targets : List (PruneTarget × Time)) (id : TreeId) : Prop :=
  ∃ t mark, (t, mark) ∈ targets ∧ t.kind = .tree ∧ t.id = id ∧ s.modified .tree id < mark ∧
    ∀ touched, s.store.touches.lookup id = some touched → touched < mark

/-- The touch of a tree goes with the tree alone. -/
theorem mem_attemptOps_of_deleteTouch {t : PruneTarget} {id : TreeId}
    (h : PruneOp.deleteTouch id ∈ attemptOps faults t) :
    t.kind = .tree ∧ t.id = id ∧ .delete .tree id ∈ attemptOps faults t := by
  obtain ⟨kind, i, modified⟩ := t
  unfold attemptOps at h ⊢
  split at h
  · rcases List.mem_cons.1 h with h | h
    · cases h
    cases kind with
    | tree =>
      rcases List.mem_cons.1 h with h | h
      · cases h
      · cases List.mem_singleton.1 h
        exact ⟨rfl, rfl, List.mem_cons_self⟩
    | pack => cases List.mem_singleton.1 h
    | index => cases h
  · cases List.mem_singleton.1 h
  · cases h

theorem eq_of_delete_mem_attemptOps {t : PruneTarget} {id : TreeId}
    (h : PruneOp.delete .tree id ∈ attemptOps faults t) : t.kind = .tree ∧ t.id = id := by
  obtain ⟨kind, i, modified⟩ := t
  rcases List.mem_cons.1 (mem_targetOps_of_mem_attemptOps h) with h | h
  · cases h
    exact ⟨rfl, rfl⟩
  · cases kind with
    | tree =>
      rcases List.mem_cons.1 h with h | h
      · cases h
      · cases List.mem_singleton.1 h
    | pack => cases List.mem_singleton.1 h
    | index => cases h

/-- The loop deletes some of its targets, trees only where the mark has outlived them. -/
theorem deleteLoop_ops {targets : List (PruneTarget × Time)} {s : TimedRepository} {d : Deleting} :
    ∃ ts : List PruneTarget,
      (deleteLoop faults now targets s d).ops = d.ops ++ ts.flatMap (attemptOps faults) ∧
        ∀ t ∈ ts, t.kind = .tree → s.Outlived targets t.id := by
  induction targets generalizing s d with
  | nil => exact ⟨[], (List.append_nil _).symm, List.forall_mem_nil _⟩
  | cons t targets ih =>
    obtain ⟨target, mark⟩ := t
    have hlater : ∀ id, s.Outlived targets id → s.Outlived ((target, mark) :: targets) id := by
      rintro id ⟨t, m, ht, h⟩
      exact ⟨t, m, List.mem_cons_of_mem _ ht, h⟩
    have hskip : ∀ d', d'.ops = d.ops → ∃ ts : List PruneTarget,
        (deleteLoop faults now targets s d').ops = d.ops ++ ts.flatMap (attemptOps faults) ∧
          ∀ t ∈ ts, t.kind = .tree → s.Outlived ((target, mark) :: targets) t.id := by
      intro d' hd
      obtain ⟨ts, hts, hout⟩ := @ih s d'
      exact ⟨ts, hd ▸ hts, fun t ht hk => hlater _ (hout t ht hk)⟩
    rw [deleteLoop]
    split
    · exact hskip _ rfl
    · next head hhead =>
      split_ifs with hrevived
      · exact hskip _ rfl
      · obtain ⟨hmodified, htouched⟩ := not_or.1 hrevived
        obtain ⟨-, rfl⟩ := info_eq_some.1 hhead
        -- the check before the delete found neither a newer object nor a newer touch note
        have hself : target.kind = .tree → s.Outlived ((target, mark) :: targets) target.id := by
          intro hk
          rw [hk] at hmodified
          refine ⟨target, mark, List.mem_cons_self, hk, rfl, not_le.1 hmodified,
            fun touched hl => ?_⟩
          by_contra hle
          exact htouched ⟨hk, by rw [hl]; simpa using hle⟩
        dsimp only
        obtain ⟨ts, hts, hout⟩ := @ih (s.after now (attemptOps faults target)) _
        refine ⟨target :: ts, ?_, List.forall_mem_cons.2 ⟨hself, fun t ht hk => ?_⟩⟩
        · rw [hts, List.flatMap_cons, ← List.append_assoc]
          cases faults.deleteError target.kind target.id <;> rfl
        -- a later target of another id finds its tree as it was before this delete
        by_cases hsame : target.kind = .tree ∧ target.id = t.id
        · exact hsame.2 ▸ hself hsame.1
        obtain ⟨t', m, ht', hk', hid, hmod, htouch⟩ := hout t ht hk
        rw [modified_after] at hmod
        rw [touches_after] at htouch
        · exact hlater _ ⟨t', m, ht', hk', hid, hmod, htouch⟩
        · intro hmem
          obtain ⟨hkind, heq, -⟩ := mem_attemptOps_of_deleteTouch hmem
          exact hsame ⟨hkind, heq⟩

/-- The deletes of a plan, and the trees among them. -/
theorem deleting_ops : ∃ ts : List PruneTarget,
    (repo.deleting faults plan now nonce).ops = ts.flatMap (attemptOps faults) ∧
      ∀ t ∈ ts, t.kind = .tree → repo.Outlived plan.toDelete t.id := by
  have hputs : ∀ id, PruneOp.deleteTouch id ∉ repo.putOps faults plan nonce := by
    intro id hmem
    rcases List.mem_append.1 hmem with hmem | hmem
    · obtain ⟨p, -, hp⟩ := List.mem_map.1 hmem
      cases hp
    · split_ifs at hmem
      · cases List.mem_singleton.1 hmem
      · cases hmem
  obtain ⟨ts, hts, hout⟩ := @deleteLoop_ops faults now plan.toDelete
    (repo.after now (repo.putOps faults plan nonce))
    { marks := plan.marksToRemove
      report := { plan.report with
        newPacks := (repo.repackPacks faults plan nonce).out.length
        repackedPacks := plan.report.repackedPacks -
          (repo.failedPacks faults plan nonce).dedup.length
        marked := (repo.targetsToMark faults plan nonce).length
        skipped := (repo.failedPacks faults plan nonce).map .pack } }
  refine ⟨ts, hts.trans (List.nil_append _), fun t ht hk => ?_⟩
  obtain ⟨t', m, ht', hk', hid, hmod, htouch⟩ := hout t ht hk
  rw [modified_after] at hmod
  rw [touches_after (hputs _)] at htouch
  exact ⟨t', m, ht', hk', hid, hmod, htouch⟩

/-- A delete or a touch that goes is one of the loop, or goes with what is not there. -/
theorem mem_execute_tree {op : PruneOp} {id : TreeId}
    (hop : op = .delete .tree id ∨ op = .deleteTouch id)
    (h : op ∈ (repo.execute faults plan now nonce).1) :
    op ∈ (repo.deleting faults plan now nonce).ops ∨
      op = .deleteTouch id ∧
        id ∉ (repo.after now (repo.markOps faults plan now nonce)).store.trees := by
  rw [execute] at h
  split_ifs at h with hdry
  · cases h
  rcases List.mem_append.1 h with h | h
  · simp only [markOps, clearOps, putOps, List.mem_append] at h
    rcases h with (((h | h) | h) | h) | h
    · obtain ⟨p, -, rfl⟩ := List.mem_map.1 h
      rcases hop with hop | hop <;> cases hop
    · split_ifs at h
      · obtain rfl := List.mem_singleton.1 h
        rcases hop with hop | hop <;> cases hop
      · cases h
    · exact .inl h
    · obtain ⟨i, -, rfl⟩ := List.mem_map.1 h
      rcases hop with hop | hop <;> cases hop
    · obtain ⟨t, -, rfl⟩ := List.mem_map.1 h
      rcases hop with hop | hop <;> cases hop
  · rcases List.mem_append.1 h with h | h
    · obtain ⟨i, -, rfl⟩ := List.mem_map.1 h
      rcases hop with hop | hop <;> cases hop
    · obtain ⟨i, hi, rfl⟩ := List.mem_map.1 h
      rcases hop with hop | hop
      · cases hop
      · cases hop
        exact .inr ⟨rfl, of_decide_eq_true (List.mem_filter.1 hi).2⟩

theorem mem_execute_of_deleting {op : PruneOp} (hdry : ¬plan.dryRun = true)
    (h : op ∈ (repo.deleting faults plan now nonce).ops) :
    op ∈ (repo.execute faults plan now nonce).1 := by
  rw [execute, if_neg hdry]
  refine List.mem_append_left _ (List.mem_append_left _ (List.mem_append_left _ ?_))
  exact List.mem_append_right _ h

/-- The marks of the trees that are deleted have outlived them. -/
theorem outlived_of_mem_execute {id : TreeId}
    (h : PruneOp.delete .tree id ∈ (repo.execute faults plan now nonce).1) :
    repo.Outlived plan.toDelete id := by
  obtain ⟨ts, hts, hout⟩ := @deleting_ops repo plan faults now nonce
  rcases mem_execute_tree (.inl rfl) h with h | ⟨h, -⟩
  · rw [hts] at h
    obtain ⟨t, ht, hmem⟩ := List.mem_flatMap.1 h
    obtain ⟨hkind, rfl⟩ := eq_of_delete_mem_attemptOps hmem
    exact hout t ht hkind
  · cases h

/-- The touch of a tree that is there goes with the tree alone. -/
theorem delete_of_deleteTouch {id : TreeId} (hid : id ∈ repo.store.trees)
    (h : PruneOp.deleteTouch id ∈ (repo.execute faults plan now nonce).1) :
    PruneOp.delete .tree id ∈ (repo.execute faults plan now nonce).1 := by
  have hdry : ¬plan.dryRun = true := by
    intro hdry
    rw [execute, if_pos hdry] at h
    cases h
  rcases mem_execute_tree (.inr rfl) h with h | ⟨-, h⟩
  · refine mem_execute_of_deleting hdry ?_
    obtain ⟨ts, hts, -⟩ := @deleting_ops repo plan faults now nonce
    rw [hts] at h ⊢
    obtain ⟨t, ht, hmem⟩ := List.mem_flatMap.1 h
    exact List.mem_flatMap.2 ⟨t, ht, (mem_attemptOps_of_deleteTouch hmem).2.2⟩
  · by_contra hnot
    refine h (AList.lookup_isSome.1 ?_)
    rw [trees_after]
    · exact AList.lookup_isSome.2 hid
    · intro hmem
      refine hnot ?_
      rw [execute, if_neg hdry]
      exact List.mem_append_left _ hmem

/-- A tree whose marks have outlived it was not recent within the grace period. -/
theorem Outlived.old {id : TreeId} {t₀ : Time} (h : Planned repo sorter opts live plan)
    (hout : repo.Outlived plan.toDelete id) (hrecent : repo.Recent t₀ id) :
    t₀ + opts.grace < opts.now := by
  obtain ⟨t, mark, ht, -, -, hmod, htouch⟩ := hout
  rw [h.decided] at ht
  obtain ⟨-, hjudge⟩ := mem_toDelete ht
  obtain ⟨-, -, -, hgrace, -⟩ := judge_eq_delete hjudge
  have hlt : t₀ < mark := by
    rcases hrecent with hle | ⟨touched, hl, hle⟩
    · exact hle.trans_lt hmod
    · exact hle.trans_lt (htouch touched hl)
  exact (Int.add_lt_add_right hlt _).trans_le hgrace

/-- The marks of the packs that are deleted are older than the grace period. -/
theorem old_of_mem_deletedPacks {id : ObjectId} {t₀ : Time} (h : Planned repo sorter opts live plan)
    (hid : id ∈ plan.deletedPacks) (hmarks : ∀ m, repo.store.marks.lookup id = some m → t₀ ≤ m) :
    t₀ + opts.grace ≤ opts.now := by
  obtain ⟨⟨t, mark⟩, ht, rfl⟩ := List.mem_map.1 (List.mem_toFinset.1 hid)
  have ht := (List.mem_filter.1 ht).1
  rw [h.decided] at ht
  obtain ⟨hmark, hjudge⟩ := mem_toDelete ht
  obtain ⟨-, -, -, hgrace, -⟩ := judge_eq_delete hjudge
  have hle := hmarks mark hmark
  exact (Int.add_le_add_right hle _).trans hgrace

/-- **What a prune takes away**: places in the packs that it deletes, and trees. -/
theorem Sound.keeps_prune (hs : repo.Sound) (hkeys : repo.keys.Faithful)
    (hfresh : repo.FreshNames nonce) (h : Planned repo sorter opts live plan)
    (hops : ops <+: (repo.execute faults plan now nonce).1) :
    Keeps plan.deletedPacks {id | PruneOp.delete .tree id ∈ (repo.execute faults plan now nonce).1}
      repo (repo.after now ops) where
  keys := keys_after
  config := config_after
  lists x loc hl hout := (hs.prune hkeys hfresh h hops).2 x loc hl fun hmem =>
    hout (Finset.mem_coe.2 hmem)
  trees id hid t ht := by
    have hget : (repo.after now ops).store.getSealed (.tree id) = repo.store.getSealed (.tree id) :=
      trees_after fun hmem => hid (hops.subset hmem)
    exact (Repository.readTreeOnce_congr keys_after hget).trans ht

theorem ages_prune {t : Time} (ht : t ≤ now)
    (hops : ops <+: (repo.execute faults plan now nonce).1) :
    Ages t {id | PruneOp.delete .tree id ∈ (repo.execute faults plan now nonce).1} repo
      (repo.after now ops) where
  marks id m hm := (marks_after hm).imp_right fun hnow => ht.trans_eq hnow.symm
  recent t₀ _ id hid hnot h := by
    rcases h with h | ⟨touched, hl, h⟩
    · refine .inl ?_
      rw [modified_after]
      exact h
    · refine .inr ⟨touched, ?_, h⟩
      rw [touches_after fun hmem => hnot (delete_of_deleteTouch hid (hops.subset hmem))]
      exact hl

end Prune

end TimedRepository

end Kist
