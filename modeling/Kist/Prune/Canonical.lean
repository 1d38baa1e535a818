import Kist.Storage

/-!
# Canonical holders

`kist-core::prune`, the index of a prune: every chunk with every pack that holds it, and the choice
of one holder for each referenced chunk.
-/

namespace Kist

open SortedTable

/-- The key by which `PruneIndex::new` sorts. -/
def TableRecord.sortKey (r : TableRecord) : ChunkId ×ₗ ObjectId ×ₗ ℕ :=
  toLex (r.id, toLex (r.location.pack, r.location.offset))

/-- The part of the key by which `PruneIndex::new` removes duplicates. -/
def TableRecord.holder (r : TableRecord) : ChunkId ×ₗ ObjectId := toLex (r.id, r.location.pack)

/-- `PruneIndex`. -/
structure PruneIndex where
  records : List TableRecord
  referenced : List Bool
  deriving DecidableEq

namespace PruneIndex

/-- `PruneIndex::new`. -/
def new (sorter : UnstableSort TableRecord.sortKey) (records : List TableRecord) : PruneIndex :=
  let records := dedupRuns TableRecord.holder (sorter.sort records)
  ⟨records, List.replicate records.length false⟩

/-- The records from the first one on whose chunk does not come before this one, and how many come
before it. -/
def skip (chunk : ChunkId) : List TableRecord → ℕ → ℕ × List TableRecord
  | [], pos => (pos, [])
  | r :: rest, pos => if r.id < chunk then skip chunk rest (pos + 1) else (pos, r :: rest)

section Choice

variable (isMarked : ObjectId → Bool) (phantoms : Finset ObjectId)

/-- The better of the best holder so far and the one of a record. -/
def pick (best : Option (ObjectId × ℕ)) (r : TableRecord) : Option (ObjectId × ℕ) :=
  match best with
  | none => some (r.location.pack, r.location.length)
  | some (pack, len) =>
    if canonicalRank r.location.pack isMarked < canonicalRank pack isMarked then
      some (r.location.pack, r.location.length)
    else some (pack, len)

/-- The holders of a chunk, from the record with the number `i` on: the best of them, and a flag for
each. -/
def scan (chunk : ChunkId) :
    List TableRecord → ℕ → Option (ObjectId × ℕ) → List Bool → Option (ObjectId × ℕ) × List Bool
  | [], _, best, referenced => (best, referenced)
  | r :: rest, i, best, referenced =>
    if r.id = chunk then
      if r.location.pack ∈ phantoms then scan chunk rest (i + 1) best referenced
      else scan chunk rest (i + 1) (pick isMarked best r) (referenced.set i true)
    else (best, referenced)

/-- `mark_and_canonicalize`, the loop over the chunks: `rest` are the records from the number `pos`
on. -/
def markLoop : List ChunkId → List TableRecord → ℕ → Finset ObjectId → Dict ObjectId ℕ →
    List Bool → Except CoreError (Finset ObjectId × Dict ObjectId ℕ × List Bool)
  | [], _, _, needed, live, referenced => .ok (needed, live, referenced)
  | chunk :: chunks, rest, pos, needed, live, referenced =>
    let (pos, rest) := skip chunk rest pos
    match scan isMarked phantoms chunk rest pos none referenced with
    | (none, _) => .error (.unsafe_ s!"chunk {chunk} is referenced but no existing pack holds it (the index lists a pack that is gone); run `kist check` and `kist rebuild-index` first")
    | (some (pack, len), referenced) =>
      markLoop chunks rest pos (insert pack needed)
        (live.insert pack (((live.lookup pack).getD 0 + len) % 2 ^ 64)) referenced

/-- `mark_and_canonicalize`: the packs that are needed, the bytes in each that are live, and the
flags of the records. -/
def markAndCanonicalize (index : PruneIndex) (refIds : List ChunkId) :
    Except CoreError (Finset ObjectId × Dict ObjectId ℕ × PruneIndex) := do
  let (needed, live, referenced) ←
    markLoop isMarked phantoms (sortDedup id refIds) index.records 0 ∅ ∅ index.referenced
  .ok (needed, live, ⟨index.records, referenced⟩)

end Choice

/-- `group`: the numbers of the records of a chunk. Both ends are found by `partition_point`. -/
def group (index : PruneIndex) (id : ChunkId) : List ℕ :=
  let lo := (index.records.takeWhile fun r => r.id < id).length
  List.range' lo ((index.records.drop lo).takeWhile fun r => r.id = id).length

/-- `is_referenced`. -/
def isReferenced (index : PruneIndex) (id : ChunkId) : Bool :=
  (index.group id).any fun i => index.referenced[i]? = some true

/-- `held_by`. -/
def heldBy (index : PruneIndex) (id : ChunkId) (packs : Finset ObjectId) : Bool :=
  (index.group id).any fun i => index.records[i]?.any fun r => r.location.pack ∈ packs

/-- `ChunkLocator::contains`. -/
def contains (index : PruneIndex) (id : ChunkId) : Bool := !(index.group id).isEmpty

/-- `ChunkLocator::get`: the first record of the group. -/
def get (index : PruneIndex) (id : ChunkId) : Option ChunkLocation :=
  (index.group id).head?.bind fun i => index.records[i]?.map TableRecord.location

/-- The index of a prune as the index of a reader. -/
def locator (index : PruneIndex) : ChunkIndex := .withBase (.build index.records) ∅

/-! ### The records -/

section New

variable {sorter : UnstableSort TableRecord.sortKey} {records : List TableRecord}
  {r r' : TableRecord}

theorem sortKey_le_iff : r.sortKey ≤ r'.sortKey ↔
    r.holder < r'.holder ∨ (r.holder = r'.holder ∧ r.location.offset ≤ r'.location.offset) := by
  simp only [TableRecord.sortKey, TableRecord.holder, Prod.Lex.le_iff, Prod.Lex.lt_iff,
    EmbeddingLike.apply_eq_iff_eq, Prod.mk.injEq, ofLex_toLex]
  grind

/-- One record is kept for each chunk and each pack that holds it. -/
theorem sorted_new : Sorted TableRecord.holder (new sorter records).records := by
  refine sorted_dedupRuns _ ((sorter.pairwise records).imp fun h => ?_)
  rcases sortKey_le_iff.1 h with h | h
  · exact h.le
  · exact h.1.le

theorem mem_of_mem_new (h : r ∈ (new sorter records).records) : r ∈ records :=
  (sorter.perm records).mem_iff.1 ((List.destutter_sublist _ _).mem h)

/-- The record that is kept has the smallest offset. -/
theorem exists_mem_new (h : r ∈ records) : ∃ r' ∈ (new sorter records).records,
    r'.holder = r.holder ∧ r'.location.offset ≤ r.location.offset := by
  obtain ⟨r', hr', hk, hle⟩ := exists_before_mem_dedupRuns TableRecord.holder
    (fun a => le_refl a.sortKey) (sorter.pairwise records)
    ((sorter.perm records).mem_iff.2 h)
  refine ⟨r', hr', hk, ?_⟩
  rcases sortKey_le_iff.1 hle with hlt | h
  · exact absurd hk hlt.ne
  · exact h.2

theorem pairwise_id {l : List TableRecord} (h : Sorted TableRecord.holder l) :
    l.Pairwise fun a b => a.id ≤ b.id :=
  h.imp fun {a b} hab => by
    rcases Prod.Lex.lt_iff.1 hab with h | h
    · exact h.le
    · exact h.1.le

end New

/-! ### The scan of a group -/

section Scan

variable {isMarked : ObjectId → Bool} {phantoms : Finset ObjectId} {chunk : ChunkId}
  {d rest : List TableRecord} {pos i : ℕ} {best : Option (ObjectId × ℕ)} {referenced : List Bool}

theorem skip_spec (hs : rest.Pairwise fun a b => a.id ≤ b.id) :
    ∃ k, skip chunk rest pos = (pos + k, rest.drop k) ∧ k ≤ rest.length ∧
      (∀ r ∈ rest.take k, r.id < chunk) ∧ ∀ r ∈ rest.drop k, chunk ≤ r.id := by
  induction rest generalizing pos with
  | nil => exact ⟨0, rfl, le_rfl, by simp, by simp⟩
  | cons r rest ih =>
    obtain ⟨hr, hs⟩ := List.pairwise_cons.1 hs
    by_cases hlt : r.id < chunk
    · obtain ⟨k, he, hk, htake, hdrop⟩ := @ih (pos + 1) hs
      refine ⟨k + 1, ?_, by simpa using hk, ?_, hdrop⟩
      · rw [skip, if_pos hlt, he, List.drop_succ_cons, Nat.add_assoc, Nat.add_comm 1 k]
      · simpa [hlt] using htake
    · refine ⟨0, by rw [skip, if_neg hlt]; rfl, by simp, by simp, ?_⟩
      intro x hx
      rcases List.mem_cons.1 hx with rfl | hx
      · exact not_lt.1 hlt
      · exact (not_lt.1 hlt).trans (hr x hx)

/-- The records of a chunk in packs that exist. -/
def holders (phantoms : Finset ObjectId) (d : List TableRecord) (chunk : ChunkId) :
    List TableRecord :=
  d.filter fun r => r.id = chunk ∧ r.location.pack ∉ phantoms

theorem scan_best (hs : rest.Pairwise fun a b => a.id ≤ b.id) (hle : ∀ r ∈ rest, chunk ≤ r.id) :
    (scan isMarked phantoms chunk rest i best referenced).1 =
      (holders phantoms rest chunk).foldl (pick isMarked) best := by
  induction rest generalizing i best referenced with
  | nil => rfl
  | cons r rest ih =>
    obtain ⟨hr, hs⟩ := List.pairwise_cons.1 hs
    have ih := fun {i best referenced} => @ih i best referenced hs
      fun x hx => hle x (List.mem_cons_of_mem _ hx)
    rw [scan]
    split_ifs with hid hph
    · rw [ih]
      simp [holders, hph]
    · rw [ih]
      simp [holders, hid, hph]
    · have hnone : holders phantoms (r :: rest) chunk = [] := by
        refine List.filter_eq_nil_iff.2 fun x hx => ?_
        have hlt : chunk < r.id := lt_of_le_of_ne (hle r (by simp)) (Ne.symm hid)
        have hxr : r.id ≤ x.id := by
          rcases List.mem_cons.1 hx with rfl | hx
          · exact le_rfl
          · exact hr x hx
        have : x.id ≠ chunk := (hlt.trans_le hxr).ne'
        simp [this]
      rw [hnone]
      rfl

/-- The scan flags the holders of the chunk and leaves the other flags. -/
theorem scan_flags (hs : rest.Pairwise fun a b => a.id ≤ b.id) (hle : ∀ r ∈ rest, chunk ≤ r.id)
    (hlen : i + rest.length ≤ referenced.length) :
    let flags := (scan isMarked phantoms chunk rest i best referenced).2
    flags.length = referenced.length ∧ ∀ k, flags[k]? = some true ↔ referenced[k]? = some true ∨
      ∃ j r, k = i + j ∧ rest[j]? = some r ∧ r.id = chunk ∧ r.location.pack ∉ phantoms := by
  induction rest generalizing i best referenced with
  | nil => simp [scan]
  | cons r rest ih =>
    obtain ⟨hr, hs⟩ := List.pairwise_cons.1 hs
    have ih := fun {i best referenced} => @ih i best referenced hs
      fun x hx => hle x (List.mem_cons_of_mem _ hx)
    have hcons : ∀ k, (∃ j x, k = i + j ∧ (r :: rest)[j]? = some x ∧ x.id = chunk ∧
        x.location.pack ∉ phantoms) ↔ (k = i ∧ r.id = chunk ∧ r.location.pack ∉ phantoms) ∨
          ∃ j x, k = i + 1 + j ∧ rest[j]? = some x ∧ x.id = chunk ∧ x.location.pack ∉ phantoms := by
      intro k
      constructor
      · rintro ⟨_ | j, x, rfl, hx, h⟩
        · cases hx
          exact .inl ⟨rfl, h⟩
        · exact .inr ⟨j, x, by omega, hx, h⟩
      · rintro (⟨rfl, h⟩ | ⟨j, x, rfl, hx, h⟩)
        · exact ⟨0, r, rfl, rfl, h⟩
        · exact ⟨j + 1, x, by omega, hx, h⟩
    simp only [List.length_cons] at hlen
    dsimp only
    rw [scan]
    -- a record of the chunk in a phantom pack, one in a pack that is there, the first record of
    -- another chunk
    split_ifs with hid hph
    · obtain ⟨hl, hf⟩ := @ih (i + 1) best referenced (by omega)
      refine ⟨hl, fun k => (hf k).trans ?_⟩
      rw [hcons]
      simp [hph]
    · obtain ⟨hl, hf⟩ := @ih (i + 1) (pick isMarked best r) (referenced.set i true)
        (by rw [List.length_set]; omega)
      refine ⟨hl.trans (List.length_set ..), fun k => (hf k).trans ?_⟩
      rw [hcons, List.getElem?_set]
      by_cases hk : i = k
      · subst hk
        simp [hid, hph, show i < referenced.length by omega]
      · simp [hk, Ne.symm hk]
    · refine ⟨rfl, fun k => (or_iff_left ?_).symm⟩
      rintro ⟨j, x, -, hx, hxc, -⟩
      have hlt : chunk < r.id := lt_of_le_of_ne (hle r (by simp)) (Ne.symm hid)
      rcases List.mem_cons.1 (List.mem_of_getElem? hx) with rfl | hx
      · exact hid hxc
      · exact absurd hxc (hlt.trans_le (hr x hx)).ne'

end Scan

/-! ### The loop over the chunks -/

section Loop

variable (isMarked : ObjectId → Bool) (phantoms : Finset ObjectId) (d : List TableRecord)

/-- The pack that the scan of a chunk ends with, and the length of its record. -/
def bestOf (chunk : ChunkId) : Option (ObjectId × ℕ) :=
  (holders phantoms d chunk).foldl (pick isMarked) none

/-- The bytes of these chunks that are live in a pack. -/
def liveBytes (chunks : List ChunkId) (pack : ObjectId) : ℕ :=
  (chunks.map fun c => match bestOf isMarked phantoms d c with
    | some (p, len) => if p = pack then len else 0
    | none => 0).sum

/-- What the loop has gathered for the chunks behind it. -/
structure Counted (done : List ChunkId) (needed : Finset ObjectId) (live : Dict ObjectId ℕ)
    (referenced : List Bool) : Prop where
  found : ∀ c ∈ done, (bestOf isMarked phantoms d c).isSome
  mem_needed : ∀ p, p ∈ needed ↔ ∃ c ∈ done, ∃ len, bestOf isMarked phantoms d c = some (p, len)
  lookup_live : ∀ p, live.lookup p =
    if p ∈ needed then some (liveBytes isMarked phantoms d done p % 2 ^ 64) else none
  length_eq : referenced.length = d.length
  flags_iff : ∀ k : ℕ, referenced[k]? = some true ↔
    ∃ r, d[k]? = some r ∧ r.id ∈ done ∧ r.location.pack ∉ phantoms

variable {isMarked phantoms d} {done chunks : List ChunkId} {chunk : ChunkId}
  {needed : Finset ObjectId} {live : Dict ObjectId ℕ} {referenced referenced' : List Bool}
  {pack : ObjectId} {len pos : ℕ}

theorem liveBytes_append_singleton (p : ObjectId)
    (h : bestOf isMarked phantoms d chunk = some (pack, len)) :
    liveBytes isMarked phantoms d (done ++ [chunk]) p =
      liveBytes isMarked phantoms d done p + if pack = p then len else 0 := by
  simp [liveBytes, h]

theorem liveBytes_eq_zero {p : ObjectId}
    (h : ∀ c ∈ done, ∀ len, bestOf isMarked phantoms d c ≠ some (p, len)) :
    liveBytes isMarked phantoms d done p = 0 := by
  refine List.sum_eq_zero fun x hx => ?_
  obtain ⟨c, hc, rfl⟩ := List.mem_map.1 hx
  split
  · next q len hq =>
    refine if_neg ?_
    rintro rfl
    exact h c hc len hq
  · rfl

/-- One chunk more. -/
theorem Counted.step (h : Counted isMarked phantoms d done needed live referenced)
    (hbest : bestOf isMarked phantoms d chunk = some (pack, len))
    (hlen : referenced'.length = referenced.length)
    (hflags : ∀ k : ℕ, referenced'[k]? = some true ↔ referenced[k]? = some true ∨
      ∃ r, d[k]? = some r ∧ r.id = chunk ∧ r.location.pack ∉ phantoms) :
    Counted isMarked phantoms d (done ++ [chunk]) (insert pack needed)
      (live.insert pack (((live.lookup pack).getD 0 + len) % 2 ^ 64)) referenced' where
  found c hc := by
    rcases List.mem_append.1 hc with hc | hc
    · exact h.found c hc
    · rw [List.mem_singleton.1 hc, hbest]
      rfl
  mem_needed p := by
    rw [Finset.mem_insert, h.mem_needed]
    constructor
    · rintro (rfl | ⟨c, hc, len', hl⟩)
      · exact ⟨chunk, by simp, len, hbest⟩
      · exact ⟨c, by simp [hc], len', hl⟩
    · rintro ⟨c, hc, len', hl⟩
      rcases List.mem_append.1 hc with hc | hc
      · exact .inr ⟨c, hc, len', hl⟩
      · rw [List.mem_singleton.1 hc, hbest] at hl
        cases hl
        exact .inl rfl
  lookup_live p := by
    rw [Dict.lookup_insert', liveBytes_append_singleton p hbest]
    by_cases hp : p = pack
    · subst hp
      rw [if_pos rfl, if_pos (Finset.mem_insert_self _ _), if_pos rfl, h.lookup_live]
      -- a pack met before adds to its count, a new one starts from zero
      split_ifs with hmem
      · rw [Option.getD_some, Nat.mod_add_mod]
      · have hzero : liveBytes isMarked phantoms d done p = 0 :=
          liveBytes_eq_zero fun c hc len' hl => hmem ((h.mem_needed p).2 ⟨c, hc, len', hl⟩)
        rw [hzero]
        rfl
    · rw [if_neg hp, if_neg (Ne.symm hp), Nat.add_zero, h.lookup_live]
      simp [hp]
  length_eq := hlen.trans h.length_eq
  flags_iff k := by
    rw [hflags, h.flags_iff]
    constructor
    · rintro (⟨r, hr, hid, hp⟩ | ⟨r, hr, hid, hp⟩)
      · exact ⟨r, hr, by simp [hid], hp⟩
      · exact ⟨r, hr, by simp [hid], hp⟩
    · rintro ⟨r, hr, hid, hp⟩
      rcases List.mem_append.1 hid with hid | hid
      · exact .inl ⟨r, hr, hid, hp⟩
      · exact .inr ⟨r, hr, List.mem_singleton.1 hid, hp⟩

/-- What lies before the position belongs to no chunk still to come. -/
theorem holders_drop (hbefore : ∀ r ∈ d.take pos, r.id < chunk) :
    holders phantoms (d.drop pos) chunk = holders phantoms d chunk := by
  conv_rhs => rw [← List.take_append_drop pos d]
  have hnone : (d.take pos).filter (fun r => r.id = chunk ∧ r.location.pack ∉ phantoms) = [] :=
    List.filter_eq_nil_iff.2 fun r hr => by simp [(hbefore r hr).ne]
  rw [holders, holders, List.filter_append, hnone, List.nil_append]

/-- **The loop**, over chunks in increasing order: it fails at a chunk without a holder, and counts
every chunk otherwise. -/
theorem markLoop_spec (hd : d.Pairwise fun a b => a.id ≤ b.id) (hchunks : chunks.Pairwise (· < ·))
    (hpos : pos ≤ d.length) (hbefore : ∀ c ∈ chunks, ∀ r ∈ d.take pos, r.id < c)
    (h : Counted isMarked phantoms d done needed live referenced) :
    match markLoop isMarked phantoms chunks (d.drop pos) pos needed live referenced with
    | .error _ => ∃ c ∈ chunks, bestOf isMarked phantoms d c = none
    | .ok (needed, live, referenced) =>
      Counted isMarked phantoms d (done ++ chunks) needed live referenced := by
  induction chunks generalizing pos done needed live referenced with
  | nil => simpa [markLoop] using h
  | cons chunk chunks ih =>
    obtain ⟨hlt, hchunks⟩ := List.pairwise_cons.1 hchunks
    have hsorted : ∀ j, (d.drop j).Pairwise fun a b => a.id ≤ b.id :=
      fun j => hd.sublist (List.drop_sublist j _)
    obtain ⟨k, hskip, hk, htake, hdrop⟩ := @skip_spec chunk (d.drop pos) pos (hsorted pos)
    rw [List.drop_drop] at hskip hdrop
    rw [List.length_drop] at hk
    have hahead : ∀ r ∈ d.take (pos + k), r.id < chunk := by
      intro r hr
      rw [List.take_add, List.mem_append] at hr
      rcases hr with hr | hr
      · exact hbefore chunk (by simp) r hr
      · exact htake r hr
    have hbest : (scan isMarked phantoms chunk (d.drop (pos + k)) (pos + k) none referenced).1 =
        bestOf isMarked phantoms d chunk := by
      rw [scan_best (hsorted _) hdrop, holders_drop hahead, bestOf]
    have hscan := @scan_flags isMarked phantoms chunk (d.drop (pos + k)) (pos + k) none referenced
      (hsorted _) hdrop (by rw [List.length_drop, h.length_eq]; omega)
    rw [markLoop, hskip]
    dsimp only
    rcases hs : scan isMarked phantoms chunk (d.drop (pos + k)) (pos + k) none referenced with
      ⟨_ | ⟨pack, len⟩, flags⟩
    · rw [hs] at hbest
      exact ⟨chunk, by simp, hbest.symm⟩
    · rw [hs] at hbest hscan
      obtain ⟨hlen, hflags⟩ := hscan
      have hstep := h.step hbest.symm hlen fun k' => by
        rw [hflags]
        refine or_congr_right ?_
        constructor
        · rintro ⟨j, r, rfl, hr, hid, hp⟩
          rw [List.getElem?_drop] at hr
          exact ⟨r, hr, hid, hp⟩
        · rintro ⟨r, hr, hid, hp⟩
          by_cases hle : pos + k ≤ k'
          · refine ⟨k' - (pos + k), r, by omega, ?_, hid, hp⟩
            rw [List.getElem?_drop, Nat.add_sub_cancel' hle]
            exact hr
          · -- the records before the group belong to chunks before this one
            have hmem : r ∈ d.take (pos + k) :=
              List.mem_of_getElem? ((List.getElem?_take_of_lt (not_le.1 hle)).trans hr)
            exact absurd hid (hahead r hmem).ne
      have hnext := ih hchunks (by omega)
        (fun c hc r hr => (hahead r hr).trans (hlt c hc)) hstep
      dsimp only
      split
      · next hs' =>
        rw [hs'] at hnext
        obtain ⟨c, hc, hnone⟩ := hnext
        exact ⟨c, by simp [hc], hnone⟩
      · next hs' =>
        rw [hs', List.append_assoc] at hnext
        exact hnext

end Loop

/-! ### The choice -/

/-- The record of the canonical holder of a chunk: among the packs that hold it and exist, the first
one in the order of marks and names, and there the record with the smallest offset. -/
structure Canonical (isMarked : ObjectId → Bool) (phantoms : Finset ObjectId)
    (records : List TableRecord) (chunk : ChunkId) (r : TableRecord) : Prop where
  mem : r ∈ records
  id_eq : r.id = chunk
  present : r.location.pack ∉ phantoms
  least : ∀ r' ∈ records, r'.id = chunk → r'.location.pack ∉ phantoms →
    canonicalRank r.location.pack isMarked ≤ canonicalRank r'.location.pack isMarked
  first : ∀ r' ∈ records, r'.id = chunk → r'.location.pack = r.location.pack →
    r.location.offset ≤ r'.location.offset

/-- A pack is flagged as a holder of a chunk. -/
def Flagged (index : PruneIndex) (chunk : ChunkId) (pack : ObjectId) : Prop :=
  ∃ (k : ℕ) (r : TableRecord), index.records[k]? = some r ∧ r.id = chunk ∧
    r.location.pack = pack ∧ index.referenced[k]? = some true

/-- What is needed, live and flagged under a choice of one holder for each referenced chunk. -/
structure Selected (isMarked : ObjectId → Bool) (phantoms : Finset ObjectId)
    (records : List TableRecord) (refs : List ChunkId) (choice : ChunkId → TableRecord)
    (needed : Finset ObjectId) (live : Dict ObjectId ℕ) (index : PruneIndex) : Prop where
  canonical : ∀ c ∈ refs, Canonical isMarked phantoms records c (choice c)
  needed_eq : needed = refs.toFinset.image fun c => (choice c).location.pack
  live_eq : ∀ p, live.lookup p = if p ∈ needed then
      some ((∑ c ∈ refs.toFinset with (choice c).location.pack = p,
        (choice c).location.length) % 2 ^ 64)
    else none
  flagged_iff : ∀ c p, Flagged index c p ↔
    c ∈ refs ∧ p ∉ phantoms ∧ ∃ r ∈ records, r.id = c ∧ r.location.pack = p

section Choose

variable {isMarked : ObjectId → Bool} {phantoms : Finset ObjectId} {records : List TableRecord}
  {sorter : UnstableSort TableRecord.sortKey} {chunk : ChunkId} {pack : ObjectId} {len : ℕ}

/-- Picking the better one record by record ends with the best. -/
theorem foldl_pick {l : List TableRecord} :
    match l.foldl (pick isMarked) none with
    | none => l = []
    | some (p, len) => ∃ r ∈ l, r.location.pack = p ∧ r.location.length = len ∧
        ∀ r' ∈ l, canonicalRank p isMarked ≤ canonicalRank r'.location.pack isMarked := by
  induction l using List.reverseRecOn with
  | nil => rfl
  | append_singleton l x ih =>
    rw [List.foldl_append]
    cases hl : l.foldl (pick isMarked) none with
    | none =>
      rw [hl] at ih
      subst ih
      exact ⟨x, by simp, rfl, rfl, by simp⟩
    | some best =>
      obtain ⟨p, len⟩ := best
      rw [hl] at ih
      obtain ⟨r, hr, hp, hlen, hbest⟩ := ih
      simp only [List.foldl_cons, List.foldl_nil, pick]
      split_ifs with hlt
      · refine ⟨x, by simp, rfl, rfl, fun r' hr' => ?_⟩
        rcases List.mem_append.1 hr' with hr' | hr'
        · exact hlt.le.trans (hbest r' hr')
        · rw [List.mem_singleton.1 hr']
      · refine ⟨r, by simp [hr], hp, hlen, fun r' hr' => ?_⟩
        rcases List.mem_append.1 hr' with hr' | hr'
        · exact hbest r' hr'
        · rw [List.mem_singleton.1 hr']
          exact not_lt.1 hlt

theorem mem_holders {d : List TableRecord} {r : TableRecord} :
    r ∈ holders phantoms d chunk ↔ r ∈ d ∧ r.id = chunk ∧ r.location.pack ∉ phantoms := by
  simp [holders]

theorem holder_eq_iff {r r' : TableRecord} :
    r.holder = r'.holder ↔ r.id = r'.id ∧ r.location.pack = r'.location.pack := by
  simp [TableRecord.holder]

theorem canonical_of_bestOf
    (h : bestOf isMarked phantoms (new sorter records).records chunk = some (pack, len)) :
    ∃ r, Canonical isMarked phantoms records chunk r ∧ r.location.pack = pack ∧
      r.location.length = len := by
  have hbest := @foldl_pick isMarked (holders phantoms (new sorter records).records chunk)
  rw [bestOf] at h
  rw [h] at hbest
  obtain ⟨r, hr, rfl, rfl, hleast⟩ := hbest
  obtain ⟨hrd, hid, hp⟩ := mem_holders.1 hr
  refine ⟨r, ⟨mem_of_mem_new hrd, hid, hp, fun r' hr' hid' hp' => ?_, fun r' hr' hid' hpack => ?_⟩,
    rfl, rfl⟩
  · obtain ⟨r'', hr'', hk, -⟩ := @exists_mem_new sorter _ _ hr'
    obtain ⟨hk, hpk⟩ := holder_eq_iff.1 hk
    rw [← hpk]
    exact hleast r'' (mem_holders.2 ⟨hr'', hk.trans hid', hpk ▸ hp'⟩)
  · obtain ⟨r'', hr'', hk, hle⟩ := @exists_mem_new sorter _ _ hr'
    have heq : r'' = r := sorted_new.eq_of_key_eq _ hr'' hrd
      (hk.trans (holder_eq_iff.2 ⟨hid'.trans hid.symm, hpack⟩))
    exact heq ▸ hle

theorem bestOf_eq_none :
    bestOf isMarked phantoms (new sorter records).records chunk = none ↔
      ∀ r ∈ records, r.id = chunk → r.location.pack ∈ phantoms := by
  have hbest := @foldl_pick isMarked (holders phantoms (new sorter records).records chunk)
  rw [bestOf]
  constructor
  · intro h r hr hid
    rw [h] at hbest
    by_contra hp
    obtain ⟨r', hr', hk, -⟩ := @exists_mem_new sorter _ _ hr
    obtain ⟨hk, hpk⟩ := holder_eq_iff.1 hk
    have hmem : r' ∈ holders phantoms (new sorter records).records chunk :=
      mem_holders.2 ⟨hr', hk.trans hid, hpk ▸ hp⟩
    rw [hbest] at hmem
    cases hmem
  · intro h
    have hnil : holders phantoms (new sorter records).records chunk = [] :=
      List.eq_nil_iff_forall_not_mem.2 fun r hr => by
        obtain ⟨hr, hid, hp⟩ := mem_holders.1 hr
        exact hp (h r (mem_of_mem_new hr) hid)
    rw [hnil]
    rfl

variable {refs : List ChunkId} {needed : Finset ObjectId} {live : Dict ObjectId ℕ}

theorem mem_sortDedup_id {l : List ChunkId} {c : ChunkId} : c ∈ sortDedup id l ↔ c ∈ l := by
  constructor
  · exact mem_of_mem_sortDedup id
  · intro h
    obtain ⟨b, hb, he⟩ := exists_mem_sortDedup id h
    have he : b = c := he
    exact he ▸ hb

/-- The counts of the loop, read as sums over the chosen records. -/
theorem Counted.selected {referenced : List Bool}
    (h : Counted isMarked phantoms (new sorter records).records (sortDedup id refs) needed live
      referenced) :
    ∃ choice, Selected isMarked phantoms records refs choice needed live
      ⟨(new sorter records).records, referenced⟩ := by
  -- the record each referenced chunk is served from; a chunk that is not referenced gets any
  have hexists : ∀ c, ∃ r : TableRecord, c ∈ refs → Canonical isMarked phantoms records c r ∧
      bestOf isMarked phantoms (new sorter records).records c =
        some (r.location.pack, r.location.length) := by
    intro c
    by_cases hc : c ∈ refs
    · obtain ⟨⟨p, len⟩, hbest⟩ := Option.isSome_iff_exists.1 (h.found c (mem_sortDedup_id.2 hc))
      obtain ⟨r, hr, rfl, rfl⟩ := canonical_of_bestOf hbest
      exact ⟨r, fun _ => ⟨hr, hbest⟩⟩
    · exact ⟨⟨c, ⟨0, 0, 0, 0⟩⟩, fun hc' => absurd hc' hc⟩
  choose choice hchoice using hexists
  refine ⟨choice, fun c hc => (hchoice c hc).1, ?_, fun p => ?_, fun c p => ?_⟩
  · ext p
    rw [h.mem_needed, Finset.mem_image]
    constructor
    · rintro ⟨c, hc, len, hbest⟩
      have hc := mem_sortDedup_id.1 hc
      rw [(hchoice c hc).2] at hbest
      cases hbest
      exact ⟨c, List.mem_toFinset.2 hc, rfl⟩
    · rintro ⟨c, hc, rfl⟩
      have hc := List.mem_toFinset.1 hc
      exact ⟨c, mem_sortDedup_id.2 hc, _, (hchoice c hc).2⟩
  · have hsum : liveBytes isMarked phantoms (new sorter records).records (sortDedup id refs) p =
        ∑ c ∈ refs.toFinset with (choice c).location.pack = p, (choice c).location.length := by
      have hnodup : (sortDedup id refs).Nodup := (sorted_sortDedup id refs).imp fun h => h.ne
      have hset : (sortDedup id refs).toFinset = refs.toFinset := by
        ext c
        rw [List.mem_toFinset, List.mem_toFinset, mem_sortDedup_id]
      rw [Finset.sum_filter, ← hset, List.sum_toFinset _ hnodup, liveBytes]
      refine congrArg List.sum (List.map_congr_left fun c hc => ?_)
      rw [(hchoice c (mem_sortDedup_id.1 hc)).2]
    rw [h.lookup_live, hsum]
  · constructor
    · rintro ⟨k, r, hr, rfl, rfl, hflag⟩
      obtain ⟨r', hr', hc, hp⟩ := (h.flags_iff k).1 hflag
      cases hr.symm.trans hr'
      exact ⟨mem_sortDedup_id.1 hc, hp, r, mem_of_mem_new (List.mem_of_getElem? hr), rfl, rfl⟩
    · rintro ⟨hc, hp, r, hr, rfl, rfl⟩
      obtain ⟨r', hr', hk, -⟩ := @exists_mem_new sorter _ _ hr
      obtain ⟨hid, hpack⟩ := holder_eq_iff.1 hk
      obtain ⟨k, hk⟩ := List.mem_iff_getElem?.1 hr'
      exact ⟨k, r', hk, hid, hpack, (h.flags_iff k).2
        ⟨r', hk, mem_sortDedup_id.2 (hid ▸ hc), hpack ▸ hp⟩⟩

/-- **The choice of holders**: it fails where a referenced chunk has no holder that exists. -/
theorem markAndCanonicalize_spec (sorter : UnstableSort TableRecord.sortKey)
    (isMarked : ObjectId → Bool) (phantoms : Finset ObjectId) (records : List TableRecord)
    (refs : List ChunkId) :
    match (new sorter records).markAndCanonicalize isMarked phantoms refs with
    | .error _ => ∃ c ∈ refs, ∀ r ∈ records, r.id = c → r.location.pack ∈ phantoms
    | .ok (needed, live, index) =>
      ∃ choice, Selected isMarked phantoms records refs choice needed live index := by
  have hstart : Counted isMarked phantoms (new sorter records).records [] ∅ ∅
      (new sorter records).referenced :=
    ⟨by simp, by simp, by simp, by simp [new], by simp [new, List.getElem?_replicate]⟩
  have hloop := @markLoop_spec isMarked phantoms _ [] (sortDedup id refs) ∅ ∅
    (new sorter records).referenced 0 (pairwise_id sorted_new) (sorted_sortDedup id refs)
    (Nat.zero_le _) (by simp) hstart
  rw [List.drop_zero, List.nil_append] at hloop
  rw [markAndCanonicalize]
  cases hres : markLoop isMarked phantoms (sortDedup id refs) (new sorter records).records 0 ∅ ∅
      (new sorter records).referenced with
  | error e =>
    rw [hres] at hloop
    obtain ⟨c, hc, hnone⟩ := hloop
    exact ⟨c, mem_sortDedup_id.1 hc, bestOf_eq_none.1 hnone⟩
  | ok res =>
    obtain ⟨needed, live, referenced⟩ := res
    rw [hres] at hloop
    exact hloop.selected

/-! ### What the choice depends on -/

/-- Records of one chunk at one place of one pack agree on the length there. -/
def Agree (records : List TableRecord) : Prop :=
  ∀ r ∈ records, ∀ r' ∈ records, r.sortKey = r'.sortKey →
    r.location.length = r'.location.length

/-- Two choices fail together, or need and flag the same; where lengths are agreed on, the same
bytes are live. -/
def SameOutcome (agreed : Prop) :
    Except CoreError (Finset ObjectId × Dict ObjectId ℕ × PruneIndex) →
    Except CoreError (Finset ObjectId × Dict ObjectId ℕ × PruneIndex) → Prop
  | .error _, .error _ => True
  | .ok (needed, live, index), .ok (needed', live', index') =>
    needed = needed' ∧ (∀ c p, Flagged index c p ↔ Flagged index' c p) ∧
      (agreed → ∀ p, live.lookup p = live'.lookup p)
  | _, _ => False

theorem canonicalRank_antisymm {p q : ObjectId}
    (h : canonicalRank p isMarked ≤ canonicalRank q isMarked)
    (h' : canonicalRank q isMarked ≤ canonicalRank p isMarked) : p = q := by
  have heq : toLex (isMarked p, p) = toLex (isMarked q, q) := le_antisymm h h'
  simp only [EmbeddingLike.apply_eq_iff_eq, Prod.mk.injEq] at heq
  exact heq.2

/-- There is one canonical holder. -/
theorem Canonical.pack_eq {records' : List TableRecord} {r r' : TableRecord}
    (hrecords : ∀ r, r ∈ records ↔ r ∈ records')
    (h : Canonical isMarked phantoms records chunk r)
    (h' : Canonical isMarked phantoms records' chunk r') : r.location.pack = r'.location.pack :=
  canonicalRank_antisymm
    (h.least r' ((hrecords r').2 h'.mem) h'.id_eq h'.present)
    (h'.least r ((hrecords r).1 h.mem) h.id_eq h.present)

theorem Canonical.length_eq {records' : List TableRecord} {r r' : TableRecord}
    (hrecords : ∀ r, r ∈ records ↔ r ∈ records') (hagree : Agree records)
    (h : Canonical isMarked phantoms records chunk r)
    (h' : Canonical isMarked phantoms records' chunk r') :
    r.location.length = r'.location.length := by
  have hpack := h.pack_eq hrecords h'
  have hmem := (hrecords r').2 h'.mem
  have hle := h.first r' hmem h'.id_eq hpack.symm
  have hge := h'.first r ((hrecords r).1 h.mem) h.id_eq hpack
  refine hagree r h.mem r' hmem ?_
  rw [TableRecord.sortKey, TableRecord.sortKey, h.id_eq, h'.id_eq, hpack, le_antisymm hle hge]

/-- The outcome is a function of the set of records and the set of references. -/
theorem sameOutcome {sorter' : UnstableSort TableRecord.sortKey} {records' : List TableRecord}
    {refs' : List ChunkId} (hrecords : ∀ r, r ∈ records ↔ r ∈ records')
    (hrefs : ∀ c, c ∈ refs ↔ c ∈ refs') :
    SameOutcome (Agree records)
      ((new sorter records).markAndCanonicalize isMarked phantoms refs)
      ((new sorter' records').markAndCanonicalize isMarked phantoms refs') := by
  have h := markAndCanonicalize_spec sorter isMarked phantoms records refs
  have h' := markAndCanonicalize_spec sorter' isMarked phantoms records' refs'
  cases hx : (new sorter records).markAndCanonicalize isMarked phantoms refs with
  | error e =>
    rw [hx] at h
    cases hy : (new sorter' records').markAndCanonicalize isMarked phantoms refs' with
    | error e' => trivial
    | ok res' =>
      rw [hy] at h'
      -- a chunk without a record that is present fails both runs
      obtain ⟨c, hc, hnone⟩ := h
      obtain ⟨choice, hsel⟩ := h'
      have hcan := hsel.canonical c ((hrefs c).1 hc)
      exact absurd (hnone _ ((hrecords _).2 hcan.mem) hcan.id_eq) hcan.present
  | ok res =>
    rw [hx] at h
    obtain ⟨choice, hsel⟩ := h
    cases hy : (new sorter' records').markAndCanonicalize isMarked phantoms refs' with
    | error e =>
      rw [hy] at h'
      obtain ⟨c, hc, hnone⟩ := h'
      have hcan := hsel.canonical c ((hrefs c).2 hc)
      exact absurd (hnone _ ((hrecords _).1 hcan.mem) hcan.id_eq) hcan.present
    | ok res' =>
      rw [hy] at h'
      obtain ⟨choice', hsel'⟩ := h'
      have hset : refs.toFinset = refs'.toFinset := by
        ext c
        rw [List.mem_toFinset, List.mem_toFinset, hrefs]
      -- a canonical record is determined up to its length by the records alone, not by their order
      have hpack : ∀ c ∈ refs, (choice c).location.pack = (choice' c).location.pack :=
        fun c hc => (hsel.canonical c hc).pack_eq hrecords (hsel'.canonical c ((hrefs c).1 hc))
      have hneeded : res.1 = res'.1 := by
        rw [hsel.needed_eq, hsel'.needed_eq, ← hset]
        exact Finset.image_congr fun c hc => hpack c (by simpa using hc)
      refine ⟨hneeded, fun c p => ?_, fun hagree p => ?_⟩
      · rw [hsel.flagged_iff, hsel'.flagged_iff, hrefs]
        simp only [hrecords]
      · rw [hsel.live_eq, hsel'.live_eq, hneeded, ← hset]
        refine if_congr Iff.rfl (congrArg some (congrArg (· % 2 ^ 64) ?_)) rfl
        rw [Finset.sum_filter, Finset.sum_filter]
        refine Finset.sum_congr rfl fun c hc => ?_
        have hc : c ∈ refs := List.mem_toFinset.1 hc
        rw [hpack c hc, (hsel.canonical c hc).length_eq hrecords hagree
          (hsel'.canonical c ((hrefs c).1 hc))]

end Choose

/-! ### Agreement with the merged index -/

/-- The records of these packs, one for each chunk and holder: `prune_plan` fills the index of a
prune with those of the effective blobs. -/
def recordsOf (packs : List IndexPack) : List TableRecord :=
  packs.flatMap fun p => p.entries.map fun e => ⟨e.id, location p.pack e⟩

theorem mem_recordsOf {packs : List IndexPack} {r : TableRecord} :
    r ∈ recordsOf packs ↔ Lists packs r.id r.location := by
  simp only [recordsOf, List.mem_flatMap, List.mem_map, Lists]
  constructor
  · rintro ⟨p, hp, e, he, rfl⟩
    exact ⟨p, hp, e, he, rfl, rfl⟩
  · rintro ⟨p, hp, e, he, hid, hloc⟩
    refine ⟨p, hp, e, he, ?_⟩
    rw [hid, ← hloc]

/-- Where every pack of the index exists, the canonical holder is the pack that a backup finds the
chunk in. -/
theorem Canonical.pack_get {isMarked : ObjectId → Bool} {all : List (ObjectId × IndexBlob)}
    {chunk : ChunkId} {r : TableRecord}
    (h : Canonical isMarked ∅ (recordsOf (effectivePacks all)) chunk r) :
    ((loadIndexRanked isMarked all).get chunk).map ChunkLocation.pack = some r.location.pack := by
  have hlisted : Lists (effectivePacks all) chunk r.location :=
    h.id_eq ▸ mem_recordsOf.1 h.mem
  obtain ⟨loc, hloc⟩ := Option.isSome_iff_exists.1
    (isSome_get_loadIndexRanked.2 ⟨_, hlisted⟩ :
      ((loadIndexRanked isMarked all).get chunk).isSome)
  have hbest := best_of_get_loadIndexRanked hloc
  have hmem : (⟨chunk, loc⟩ : TableRecord) ∈ recordsOf (effectivePacks all) :=
    mem_recordsOf.2 hbest.listed
  rw [hloc, Option.map_some]
  exact congrArg some (canonicalRank_antisymm (hbest.best _ hlisted)
    (h.least _ hmem rfl (by simp)))

/-- **Canonical holders.** The choice fails exactly where a referenced chunk has no holder that
exists, and otherwise needs, counts and flags what the canonical holders say. It depends on the set
of records and the set of references alone, the live bytes where the records agree on lengths. Where
every pack exists, the canonical holder is the one of the merged index of a backup. -/
theorem markAndCanonicalize_exact (sorter : UnstableSort TableRecord.sortKey)
    (isMarked : ObjectId → Bool) (phantoms : Finset ObjectId) (records : List TableRecord)
    (refs : List ChunkId) :
    (match (new sorter records).markAndCanonicalize isMarked phantoms refs with
      | .error _ => ∃ c ∈ refs, ∀ r ∈ records, r.id = c → r.location.pack ∈ phantoms
      | .ok (needed, live, index) =>
        ∃ choice, Selected isMarked phantoms records refs choice needed live index) ∧
    (∀ sorter' records' refs', records.Perm records' → (∀ c, c ∈ refs ↔ c ∈ refs') →
      SameOutcome (Agree records)
        ((new sorter records).markAndCanonicalize isMarked phantoms refs)
        ((new sorter' records').markAndCanonicalize isMarked phantoms refs')) ∧
    ∀ all, records.Perm (recordsOf (effectivePacks all)) → ∀ c r,
      Canonical isMarked ∅ records c r →
        ((loadIndexRanked isMarked all).get c).map ChunkLocation.pack = some r.location.pack := by
  refine ⟨markAndCanonicalize_spec sorter isMarked phantoms records refs,
    fun sorter' records' refs' hperm hrefs => sameOutcome (fun r => hperm.mem_iff) hrefs,
    fun all hperm c r h => ?_⟩
  have hmem : ∀ r, r ∈ records ↔ r ∈ recordsOf (effectivePacks all) := fun r => hperm.mem_iff
  have h : Canonical isMarked ∅ (recordsOf (effectivePacks all)) c r :=
    ⟨(hmem r).1 h.mem, h.id_eq, h.present, fun r' hr' => h.least r' ((hmem r').2 hr'),
      fun r' hr' => h.first r' ((hmem r').2 hr')⟩
  exact h.pack_get

/-- Two records of one chunk at one place of one pack with two lengths: the one that comes first is
counted. -/
theorem live_depends_on_order :
    ¬∀ (sorter : UnstableSort TableRecord.sortKey) (records records' : List TableRecord),
      records.Perm records' → ∀ refs,
        SameOutcome True
          ((new sorter records).markAndCanonicalize (fun _ => false) ∅ refs)
          ((new sorter records').markAndCanonicalize (fun _ => false) ∅ refs) := by
  intro h
  have h := h (.stable _) [⟨1, ⟨7, 8, 100, 60⟩⟩, ⟨1, ⟨7, 8, 200, 60⟩⟩]
    [⟨1, ⟨7, 8, 200, 60⟩⟩, ⟨1, ⟨7, 8, 100, 60⟩⟩] (List.Perm.swap _ _ _) [1]
  have hlive := h.2.2 trivial 7
  revert hlive
  decide

/-! ### Lookups -/

section Locator

variable {index : PruneIndex} {id : ChunkId}

/-- The two partition points of a chunk, in records sorted by chunk, bound the records of it. -/
theorem between_partitionPoints {l : List TableRecord} (hs : l.Pairwise fun a b => a.id ≤ b.id)
    {k : ℕ} :
    ((l.takeWhile fun r => r.id < id).length ≤ k ∧ k < (l.takeWhile fun r => r.id < id).length +
      ((l.drop (l.takeWhile fun r => r.id < id).length).takeWhile fun r => r.id = id).length) ↔
      ∃ r, l[k]? = some r ∧ r.id = id := by
  induction l generalizing k with
  | nil => simp
  | cons a l ih =>
    obtain ⟨ha, hs⟩ := List.pairwise_cons.1 hs
    -- the head is before the group, opens it, or is behind it and the group is empty
    rcases lt_trichotomy a.id id with hlt | heq | hgt
    · rw [List.takeWhile_cons_of_pos (by simpa using hlt), List.length_cons, List.drop_succ_cons]
      cases k with
      | zero => simp [hlt.ne]
      | succ k =>
        rw [List.getElem?_cons_succ, ← ih hs]
        omega
    · have hlo : ((l.takeWhile fun r => r.id < id).length) = 0 := by
        cases l with
        | nil => rfl
        | cons b l =>
          rw [List.takeWhile_cons_of_neg (by simpa [← heq] using ha b List.mem_cons_self)]
          rfl
      rw [List.takeWhile_cons_of_neg (by simp [heq]), List.length_nil, List.drop_zero,
        List.takeWhile_cons_of_pos (by simpa using heq), List.length_cons]
      cases k with
      | zero => simp [heq]
      | succ k =>
        have := @ih hs k
        rw [hlo, List.drop_zero] at this
        rw [List.getElem?_cons_succ, ← this]
        omega
    · rw [List.takeWhile_cons_of_neg (by simpa using hgt.le), List.length_nil, List.drop_zero,
        List.takeWhile_cons_of_neg (by simpa using hgt.ne')]
      refine iff_of_false (by simp) ?_
      rintro ⟨r, hr, rfl⟩
      rcases List.mem_cons.1 (List.mem_of_getElem? hr) with rfl | hr
      · exact lt_irrefl _ hgt
      · exact absurd (ha r hr) (not_le.2 hgt)

theorem mem_group (hs : index.records.Pairwise fun a b => a.id ≤ b.id) {k : ℕ} :
    k ∈ index.group id ↔ ∃ r, index.records[k]? = some r ∧ r.id = id := by
  rw [← between_partitionPoints hs, group, List.mem_range'_1]

/-- A chunk is referenced if some holder is flagged. -/
theorem isReferenced_iff (hs : index.records.Pairwise fun a b => a.id ≤ b.id) :
    index.isReferenced id ↔ ∃ pack, Flagged index id pack := by
  rw [isReferenced, List.any_eq_true]
  constructor
  · rintro ⟨k, hk, hflag⟩
    obtain ⟨r, hr, hid⟩ := (mem_group hs).1 hk
    exact ⟨r.location.pack, k, r, hr, hid, rfl, by simpa using hflag⟩
  · rintro ⟨pack, k, r, hr, hid, -, hflag⟩
    exact ⟨k, (mem_group hs).2 ⟨r, hr, hid⟩, by simpa using hflag⟩

theorem heldBy_iff (hs : index.records.Pairwise fun a b => a.id ≤ b.id) {packs : Finset ObjectId} :
    index.heldBy id packs ↔ ∃ r ∈ index.records, r.id = id ∧ r.location.pack ∈ packs := by
  rw [heldBy, List.any_eq_true]
  constructor
  · rintro ⟨k, hk, hheld⟩
    obtain ⟨r, hr, hid⟩ := (mem_group hs).1 hk
    rw [hr] at hheld
    exact ⟨r, List.mem_of_getElem? hr, hid, by simpa using hheld⟩
  · rintro ⟨r, hmem, hid, hpack⟩
    obtain ⟨k, hr⟩ := List.mem_iff_getElem?.1 hmem
    exact ⟨k, (mem_group hs).2 ⟨r, hr, hid⟩, by simp [hr, hpack]⟩

/-- The place of a chunk in the pack of the smallest name that holds it. -/
def SmallestHolder (records : List TableRecord) (id : ChunkId) (loc : ChunkLocation) : Prop :=
  (⟨id, loc⟩ : TableRecord) ∈ records ∧
    ∀ r ∈ records, r.id = id → loc.pack ≤ r.location.pack

theorem holder_le_iff_of_id_eq {r r' : TableRecord} (h : r.id = r'.id) :
    r.holder ≤ r'.holder ↔ r.location.pack ≤ r'.location.pack := by
  simp [TableRecord.holder, Prod.Lex.le_iff, h]

theorem get_eq_some_iff (hs : Sorted TableRecord.holder index.records) {loc : ChunkLocation} :
    index.get id = some loc ↔ SmallestHolder index.records id loc := by
  have hid := pairwise_id hs
  have hmono : ∀ {i j : ℕ} {a b : TableRecord}, i ≤ j → index.records[i]? = some a →
      index.records[j]? = some b → a.holder ≤ b.holder := by
    intro i j a b hij ha hb
    obtain ⟨hi, rfl⟩ := List.getElem?_eq_some_iff.1 ha
    obtain ⟨hj, rfl⟩ := List.getElem?_eq_some_iff.1 hb
    rcases hij.lt_or_eq with hij | rfl
    · exact (List.pairwise_iff_getElem.1 hs i j hi hj hij).le
    · exact le_rfl
  have hfirst : ∀ k ∈ index.group id, ∃ lo ≤ k, (index.group id).head? = some lo := by
    intro k hk
    refine ⟨_, ((List.mem_range'_1.1 hk).1), ?_⟩
    obtain ⟨n, hn⟩ : ∃ n, ((index.records.drop (index.records.takeWhile fun r =>
        r.id < id).length).takeWhile fun r => r.id = id).length = n + 1 :=
      Nat.exists_eq_succ_of_ne_zero (by have := List.mem_range'_1.1 hk; omega)
    rw [group, hn, List.range'_succ, List.head?_cons]
  -- the records of one id stand together, ordered by pack, so the first has the smallest
  have hleast : ∀ {lo : ℕ} {r : TableRecord}, (index.group id).head? = some lo →
      index.records[lo]? = some r → ∀ r' ∈ index.records, r'.id = id →
        r.location.pack ≤ r'.location.pack := by
    intro lo r hlo hr r' hr' hid'
    obtain ⟨k, hk⟩ := List.mem_iff_getElem?.1 hr'
    obtain ⟨lo', hle, hlo'⟩ := hfirst k ((mem_group hid).2 ⟨r', hk, hid'⟩)
    obtain rfl : lo = lo' := Option.some.inj (hlo.symm.trans hlo')
    obtain ⟨r₀, hr₀, hid₀⟩ := (mem_group hid).1 (List.mem_of_mem_head? hlo)
    obtain rfl : r = r₀ := Option.some.inj (hr.symm.trans hr₀)
    exact (holder_le_iff_of_id_eq (hid₀.trans hid'.symm)).1 (hmono hle hr hk)
  constructor
  · intro h
    obtain ⟨lo, hlo, h⟩ := Option.bind_eq_some_iff.1 h
    obtain ⟨r, hr, rfl⟩ := Option.map_eq_some_iff.1 h
    obtain ⟨r₀, hr₀, hid₀⟩ := (mem_group hid).1 (List.mem_of_mem_head? hlo)
    obtain rfl : r = r₀ := Option.some.inj (hr.symm.trans hr₀)
    refine ⟨?_, hleast hlo hr⟩
    rw [← hid₀]
    exact List.mem_of_getElem? hr
  · rintro ⟨hmem, hle⟩
    obtain ⟨k, hk⟩ := List.mem_iff_getElem?.1 hmem
    obtain ⟨lo, -, hlo⟩ := hfirst k ((mem_group hid).2 ⟨_, hk, rfl⟩)
    obtain ⟨r, hr, hrid⟩ := (mem_group hid).1 (List.mem_of_mem_head? hlo)
    have hpack : r.location.pack = loc.pack :=
      le_antisymm (hleast hlo hr _ hmem rfl) (hle r (List.mem_of_getElem? hr) hrid)
    have hsame : r = ⟨id, loc⟩ := Sorted.eq_of_key_eq _ hs (List.mem_of_getElem? hr) hmem
      (holder_eq_iff.2 ⟨hrid, hpack⟩)
    rw [get, hlo, Option.bind_some, hr, hsame]
    rfl

/-- The locator answers as the index does. -/
theorem locator_get (hs : Sorted TableRecord.holder index.records) :
    index.locator.get id = index.get id := by
  have hbase : index.locator.get id = (DiskTable.build index.records).get id := by
    rw [locator, ChunkIndex.get, ChunkIndex.baseGet]
    rfl
  have htable : (DiskTable.build index.records).records =
      dedupRuns TableRecord.id index.records :=
    congrArg (dedupRuns TableRecord.id) (pairwise_id hs).insertionSort_eq
  have hsorted : Sorted TableRecord.id (dedupRuns TableRecord.id index.records) :=
    sorted_dedupRuns _ (pairwise_id hs)
  have hbefore : ∀ r ∈ index.records, ∃ r' ∈ dedupRuns TableRecord.id index.records,
      r'.id = r.id ∧ r'.location.pack ≤ r.location.pack := by
    intro r hr
    obtain ⟨r', hr', hid, hle⟩ := exists_before_mem_dedupRuns TableRecord.id
      (R := fun a b => a.holder ≤ b.holder) (fun _ => le_rfl) (hs.imp fun h => h.le) hr
    exact ⟨r', hr', hid, (holder_le_iff_of_id_eq hid).1 hle⟩
  refine Option.ext fun loc => ?_
  rw [hbase, DiskTable.get_eq_some_iff, get_eq_some_iff hs, htable]
  constructor
  · intro h
    refine ⟨(List.destutter_sublist _ _).mem h, fun r hr hid => ?_⟩
    obtain ⟨r', hr', hid', hle⟩ := hbefore r hr
    have hsame : r' = ⟨id, loc⟩ := Sorted.eq_of_key_eq _ hsorted hr' h (hid'.trans hid)
    rwa [hsame] at hle
  · rintro ⟨hmem, hleast⟩
    obtain ⟨r', hr', hid', hle⟩ := hbefore _ hmem
    have hr'mem : r' ∈ index.records := (List.destutter_sublist _ _).mem hr'
    have hsame : r' = ⟨id, loc⟩ := Sorted.eq_of_key_eq _ hs hr'mem hmem
      (holder_eq_iff.2 ⟨hid', le_antisymm hle (hleast r' hr'mem hid')⟩)
    rwa [hsame] at hr'

end Locator

end PruneIndex

end Kist
