import Kist.Backup.State
import Kist.Lib.Checked

/-!
# The content that an entry records

A content is a list of chunks, or a list of the chunks that together spell that list. A chunk is
named by the keyed hash of its bytes, so a content that reads at all reads as the bytes that its
names stand for, whatever index led to the chunks.

* `FileContent.Refers`: the chunks that a content needs.
* `FileContent.Holds`: the bytes that it stands for; `FileContent.Holds.unique` says that there is
  one choice.
-/

namespace Kist

open Checked (bind_eq_ok)

/-! ### What a content refers to -/

/-- The bytes of the chunks spell the list of the chunks `ids`. -/
def RepoKeys.Spells (keys : RepoKeys) (chunks ids : List ChunkId) : Prop :=
  ∃ plains : List Bytes, plains.map keys.chunkId = chunks ∧
    keys.decodeList plains.flatten = some (.new ids)

/-- The chunks that a recorded content refers to: the listed ones, and those of the list that they
spell. -/
inductive FileContent.Refers (keys : RepoKeys) (c : FileContent) : ChunkId → Prop
  | listed {x : ChunkId} (h : x ∈ c.chunks) : Refers keys c x
  | spelled {x : ChunkId} {ids : List ChunkId} (hc : c.content = .indirect)
    (hs : keys.Spells c.chunks ids) (h : x ∈ ids) : Refers keys c x

/-- The content that an entry records. -/
def Entry.fileContent (e : Entry) : FileContent := ⟨e.size, e.chunks, e.content⟩

theorem RepoKeys.Spells.unique {keys : RepoKeys} (hinj : Function.Injective keys.chunkId)
    {chunks ids ids' : List ChunkId} (h : keys.Spells chunks ids) (h' : keys.Spells chunks ids') :
    ids = ids' := by
  obtain ⟨plains, hp, hd⟩ := h
  obtain ⟨plains', hp', hd'⟩ := h'
  obtain rfl := (List.map_injective_iff.2 hinj) (hp.trans hp'.symm)
  exact congrArg ChunkList.chunks (Option.some.inj (hd.symm.trans hd'))

namespace Repository

variable {repo : Repository} {index : ChunkIndex}

/-- A chunk that was read has the name under which it was read. -/
theorem chunkId_of_readChunk {id : ChunkId} {plain : Bytes}
    (h : repo.readChunk id index = .ok plain) : repo.keys.chunkId plain = id := by
  unfold readChunk at h
  split at h
  · cases h
  · split at h
    · cases h
    · split at h
      · cases h
      · unfold decodeChunk at h
        split at h
        · cases h
        · split_ifs at h with h1 h2 h3
          cases h
          exact not_not.1 h3

theorem exists_of_readChunks : ∀ {ids : List ChunkId} {bytes : Bytes},
    repo.readChunks index ids = .ok bytes →
      ∃ plains : List Bytes, plains.map repo.keys.chunkId = ids ∧ plains.flatten = bytes
  | [], bytes, h => by cases h; exact ⟨[], rfl, rfl⟩
  | id :: ids, bytes, h => by
    obtain ⟨head, hhead, h⟩ := bind_eq_ok.1 h
    obtain ⟨tail, htail, h⟩ := bind_eq_ok.1 h
    cases h
    obtain ⟨plains, hp, rfl⟩ := exists_of_readChunks htail
    exact ⟨head :: plains, by rw [List.map_cons, chunkId_of_readChunk hhead, hp], rfl⟩

/-- The chunks of an indirect content are those that its bytes spell. -/
theorem spells_of_resolveChunks {chunks ids : List ChunkId}
    (h : repo.resolveChunks chunks .indirect index = .ok ids) : repo.keys.Spells chunks ids := by
  obtain ⟨bytes, hbytes, h⟩ := bind_eq_ok.1 h
  obtain ⟨plains, hp, rfl⟩ := exists_of_readChunks hbytes
  refine ⟨plains, hp, ?_⟩
  unfold chunkIdsOf at h
  split at h
  · cases h
  · next l hl =>
    split_ifs at h with hv
    cases h
    rw [hl, ChunkList.new, ← not_not.1 hv]

end Repository

/-! ### The bytes of a content -/

/-- The bytes that the chunks `ids` name, one after the other. -/
def RepoKeys.Names (keys : RepoKeys) (ids : List ChunkId) (bytes : Bytes) : Prop :=
  ∃ plains : List Bytes, plains.map keys.chunkId = ids ∧ plains.flatten = bytes

/-- The chunks whose bytes are the content. -/
def FileContent.Lists (keys : RepoKeys) (c : FileContent) (ids : List ChunkId) : Prop :=
  match c.content with
  | .direct => ids = c.chunks
  | .indirect => keys.Spells c.chunks ids

/-- The content stands for these bytes, as many as it says. -/
def FileContent.Holds (keys : RepoKeys) (c : FileContent) (bytes : Bytes) : Prop :=
  (∃ ids, c.Lists keys ids ∧ keys.Names ids bytes) ∧ bytes.length = c.size

section Holds

variable {keys : RepoKeys} {c : FileContent} {ids ids' : List ChunkId} {bytes bytes' : Bytes}

theorem RepoKeys.Names.nil : keys.Names [] [] := ⟨[], rfl, rfl⟩

theorem RepoKeys.Names.append (h : keys.Names ids bytes) (h' : keys.Names ids' bytes') :
    keys.Names (ids ++ ids') (bytes ++ bytes') := by
  obtain ⟨plains, rfl, rfl⟩ := h
  obtain ⟨plains', rfl, rfl⟩ := h'
  exact ⟨plains ++ plains', List.map_append .., List.flatten_append ..⟩

theorem RepoKeys.Names.unique (hinj : Function.Injective keys.chunkId) (h : keys.Names ids bytes)
    (h' : keys.Names ids bytes') : bytes = bytes' := by
  obtain ⟨plains, hp, rfl⟩ := h
  obtain ⟨plains', hp', rfl⟩ := h'
  rw [(List.map_injective_iff.2 hinj) (hp.trans hp'.symm)]

theorem FileContent.Lists.unique (hinj : Function.Injective keys.chunkId) (h : c.Lists keys ids)
    (h' : c.Lists keys ids') : ids = ids' := by
  unfold FileContent.Lists at h h'
  cases hc : c.content with
  | direct =>
    rw [hc] at h h'
    exact h.trans h'.symm
  | indirect =>
    rw [hc] at h h'
    exact RepoKeys.Spells.unique hinj h h'

/-- A content stands for one sequence of bytes. -/
theorem FileContent.Holds.unique (hinj : Function.Injective keys.chunkId)
    (h : c.Holds keys bytes) (h' : c.Holds keys bytes') : bytes = bytes' := by
  obtain ⟨⟨ids, hl, hn⟩, -⟩ := h
  obtain ⟨⟨ids', hl', hn'⟩, -⟩ := h'
  exact hn.unique hinj (hl.unique hinj hl' ▸ hn')

end Holds

end Kist
