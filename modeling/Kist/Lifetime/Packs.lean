import Kist.Backup.Advance
import Kist.Prune.Execute

/-!
# Packs that hold what they list

Every pack that a backup or a prune puts holds, at each of its ranges, the chunk that is listed
there, sealed under its name.

* `Pack.Sound`: what can be said of such a pack; `PackWriter.Filled`: of one that is being filled.
* `repackPacks_sound`: a prune packs nothing else, since it decodes what it moves.
-/

namespace Kist

open Checked (bind_eq_ok)

/-- What lies at the range of an entry is the chunk that the entry names, of its length and not
longer than the largest chunk. -/
def PackEntry.Seals (keys : RepoKeys) (max : ℕ) (e : PackEntry) (bytes : Sealed) : Prop :=
  ∃ plain, bytes = .chunk e.id plain ∧ keys.chunkId plain = e.id ∧ plain.length = e.rawLen ∧
    plain.length ≤ max

/-- A pack in which every chunk is found at its range. -/
def Pack.Sound (keys : RepoKeys) (max : ℕ) (p : Pack) : Prop :=
  ∀ e ∈ p.chunks.map Prod.fst, ∃ bytes, p.getRange e.offset e.length = some bytes ∧
    e.Seals keys max bytes

/-! ### Filling a pack -/

/-- The chunks put so far lie one behind the other and are what they are listed as. -/
structure PackWriter.Filled (keys : RepoKeys) (max : ℕ) (w : PackWriter) : Prop where
  seals : ∀ c ∈ w.chunks, c.1.Seals keys max c.2
  before : ∀ c ∈ w.chunks, c.1.offset < w.len
  apart : w.chunks.Pairwise fun c c' => c.1.offset < c'.1.offset

section Filled

variable {keys : RepoKeys} {max : ℕ} {w : PackWriter} {id : ChunkId} {plain : Bytes}

theorem PackWriter.filled_new : PackWriter.new.Filled keys max :=
  ⟨List.forall_mem_nil _, List.forall_mem_nil _, .nil⟩

theorem PackWriter.Filled.add (h : w.Filled keys max) (hlen : 0 < keys.sealedLen plain)
    (hid : keys.chunkId plain = id) (hmax : plain.length ≤ max) :
    (w.add keys id plain).2.Filled keys max where
  seals := by
    refine List.forall_mem_append.2 ⟨h.seals, List.forall_mem_cons.2 ⟨?_, List.forall_mem_nil _⟩⟩
    exact ⟨plain, rfl, hid, rfl, hmax⟩
  before := by
    refine List.forall_mem_append.2
      ⟨fun c hc => ?_, List.forall_mem_cons.2 ⟨?_, List.forall_mem_nil _⟩⟩
    · exact (h.before c hc).trans_le (Nat.le_add_right _ _)
    · exact Nat.lt_add_of_pos_right hlen
  apart := by
    refine List.pairwise_append.2 ⟨h.apart, List.pairwise_singleton _ _, fun c hc c' hc' => ?_⟩
    rw [List.mem_singleton.1 hc']
    exact h.before c hc

/-- No two chunks lie at one offset. -/
theorem find?_of_apart : ∀ {chunks : List (PackEntry × Sealed)} {c : PackEntry × Sealed},
    chunks.Pairwise (fun c c' => c.1.offset < c'.1.offset) → c ∈ chunks →
      chunks.find? (fun d => d.1.offset = c.1.offset ∧ d.1.length = c.1.length) = some c
  | d :: ds, c, h, hc => by
    obtain ⟨hd, hds⟩ := List.pairwise_cons.1 h
    rcases List.mem_cons.1 hc with rfl | hc
    · exact List.find?_cons_of_pos (by simp)
    · rw [List.find?_cons_of_neg (by simp [(hd c hc).ne])]
      exact find?_of_apart hds hc

/-- A pack that has been filled so is sound. -/
theorem PackWriter.Filled.sound (h : w.Filled keys max) (size : ℕ) :
    (⟨size, w.chunks⟩ : Pack).Sound keys max := by
  intro e he
  obtain ⟨c, hc, rfl⟩ := List.mem_map.1 he
  exact ⟨c.2, by rw [Pack.getRange, find?_of_apart h.apart hc]; rfl, h.seals c hc⟩

end Filled

/-! ### Packing anew -/

/-- What a repacking has written so far is sound, and the index entries are those of its packs. -/
structure Repacking.Sound (keys : RepoKeys) (max : ℕ) (r : Repacking) : Prop where
  filled : r.writer.Filled keys max
  out : ∀ q ∈ r.out, q.2.Sound keys max ∧ q.1.entries = q.2.chunks.map Prod.fst

section Repacking

variable {keys : RepoKeys} {max : ℕ} {r : Repacking}

theorem Repacking.Sound.finish (h : r.Sound keys max) : (r.finish keys).Sound keys max := by
  unfold Repacking.finish
  split_ifs
  · exact h
  · refine ⟨PackWriter.filled_new, List.forall_mem_append.2 ⟨h.out, ?_⟩⟩
    exact List.forall_mem_cons.2 ⟨⟨h.filled.sound _, rfl⟩, List.forall_mem_nil _⟩

theorem Repacking.Sound.addAll (hlen : ∀ plain, 0 < keys.sealedLen plain) (size : ℕ) :
    ∀ {plains : List (ChunkId × Bytes)} {r : Repacking}, r.Sound keys max →
      (∀ c ∈ plains, keys.chunkId c.2 = c.1 ∧ c.2.length ≤ max) →
        (Repacking.addAll keys size plains r).Sound keys max
  | [], r, h, _ => h
  | (id, plain) :: plains, r, h, hplains => by
    obtain ⟨⟨hid, hmax⟩, hrest⟩ := List.forall_mem_cons.1 hplains
    have hadd : ({ r with writer := (r.writer.add keys id plain).2 } : Repacking).Sound keys max :=
      ⟨h.filled.add (hlen plain) hid hmax, h.out⟩
    rw [Repacking.addAll]
    split_ifs
    · exact addAll hlen size hadd.finish hrest
    · exact addAll hlen size hadd hrest

namespace TimedRepository

variable {repo : TimedRepository} {faults : PruneFaults} {plan : PrunePlan} {nonce : ℕ}

/-- What was decoded has its name and is not too long. -/
theorem decodeAll_ok {id : ObjectId} {pack : Pack} :
    ∀ {entries : List PackEntry} {plains : List (ChunkId × Bytes)},
      repo.decodeAll id pack entries = .ok plains →
        ∀ c ∈ plains, repo.keys.chunkId c.2 = c.1 ∧ c.2.length ≤ repo.config.chunker.max
  | [], plains, h => by
    cases h
    exact List.forall_mem_nil _
  | e :: entries, plains, h => by
    unfold decodeAll at h
    split at h
    · cases h
    · obtain ⟨plain, hplain, h⟩ := bind_eq_ok.1 h
      obtain ⟨rest, hrest, h⟩ := bind_eq_ok.1 h
      cases h
      refine List.forall_mem_cons.2 ⟨?_, decodeAll_ok hrest⟩
      unfold Repository.decodeChunk at hplain
      split at hplain
      · cases hplain
      · split_ifs at hplain with hmax _ hid
        cases hplain
        exact ⟨not_not.1 hid, not_lt.1 hmax⟩

/-- **The new packs of a prune** are sound. -/
theorem repackPacks_sound (hlen : ∀ plain, 0 < repo.keys.sealedLen plain) :
    (repo.repackPacks faults plan nonce).Sound repo.keys repo.config.chunker.max := by
  have hstart : Repacking.Sound repo.keys repo.config.chunker.max { nonce } :=
    ⟨PackWriter.filled_new, List.forall_mem_nil _⟩
  have hone : ∀ (kept : Finset ObjectId) (r : Repacking) (id : ObjectId),
      r.Sound repo.keys repo.config.chunker.max →
        (repo.repackOne faults plan kept r id).Sound repo.keys repo.config.chunker.max := by
    intro kept r id h
    unfold repackOne
    split
    · exact h
    · dsimp only
      split_ifs
      · exact h
      · split
        · exact ⟨h.filled, h.out⟩
        · next hplains =>
          obtain ⟨pack, -, hplains⟩ := bind_eq_ok.1 hplains
          obtain ⟨hfilled, hout⟩ :=
            Repacking.Sound.addAll hlen plan.packTargetSize h (decodeAll_ok hplains)
          exact ⟨hfilled, hout⟩
  have hall : ∀ (kept : Finset ObjectId) (ids : List ObjectId) (r : Repacking),
      r.Sound repo.keys repo.config.chunker.max →
        (ids.foldl (repo.repackOne faults plan kept) r).Sound repo.keys
          repo.config.chunker.max := by
    intro kept ids
    induction ids with
    | nil => exact fun _ h => h
    | cons id ids ih => exact fun r h => ih _ (hone kept r id h)
  unfold repackPacks
  dsimp only
  split_ifs
  · exact hstart
  · exact (hall _ _ _ hstart).finish

end TimedRepository

end Repacking

end Kist
