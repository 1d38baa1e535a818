import Kist.Format.Cbor
import Kist.Format.Index

/-!
# The encoding of index blobs

`kist-format::index` as CBOR: the fields of each record in the order of its declaration, names as
byte strings, and `supersedes` left out where it is empty.
-/

namespace Kist

/-- The name of a field. -/
def fieldName (name : List Char) : Bytes := Cbor.text (name.map fun c => UInt8.ofNat c.toNat)

/-- The 32 bytes of a name. -/
def idBytes (id : ℕ) : Bytes := Cbor.beBytes 32 id

/-- The encoding of `PackEntry`. -/
def PackEntry.encode (e : PackEntry) : Bytes :=
  Cbor.map [(fieldName ['i'], Cbor.bytes (idBytes e.id)), (fieldName ['o'], Cbor.uint e.offset),
    (fieldName ['l'], Cbor.uint e.length), (fieldName ['r'], Cbor.uint e.rawLen)]

/-- The encoding of `IndexPack`. -/
def IndexPack.encode (p : IndexPack) : Bytes :=
  Cbor.map [(fieldName ['i', 'd'], Cbor.bytes (idBytes p.pack)),
    (fieldName ['s', 'i', 'z', 'e'], Cbor.uint p.size),
    (fieldName ['e', 'n', 't', 'r', 'i', 'e', 's'], Cbor.array (p.entries.map PackEntry.encode))]

/-- The field `supersedes`, skipped where it is empty. -/
def encodeSupersedes (ids : List ObjectId) : List (Bytes × Bytes) :=
  if ids = [] then []
  else [(fieldName ['s', 'u', 'p', 'e', 'r', 's', 'e', 'd', 'e', 's'],
    Cbor.array (ids.map fun id => Cbor.bytes (idBytes id)))]

/-- The encoding of `IndexBlob`. -/
def IndexBlob.encode (b : IndexBlob) : Bytes :=
  Cbor.map ([(fieldName ['v'], Cbor.uint b.version),
    (fieldName ['p', 'a', 'c', 'k', 's'], Cbor.array (b.packs.map IndexPack.encode))] ++
      encodeSupersedes b.supersedes)

/-- The numbers of an entry are 64-bit numbers. -/
structure PackEntry.Fits (e : PackEntry) : Prop where
  offset : e.offset < 2 ^ 64
  length : e.length < 2 ^ 64
  rawLen : e.rawLen < 2 ^ 64

/-- The numbers of a pack are 64-bit numbers. -/
structure IndexPack.Fits (p : IndexPack) : Prop where
  size : p.size < 2 ^ 64
  count : p.entries.length < 2 ^ 64
  entries : ∀ e ∈ p.entries, e.Fits

/-- The numbers of an index blob are 64-bit numbers. -/
structure IndexBlob.Fits (b : IndexBlob) : Prop where
  version : b.version < 2 ^ 64
  count : b.packs.length < 2 ^ 64
  packs : ∀ p ∈ b.packs, p.Fits
  superseded : b.supersedes.length < 2 ^ 64

section Walks

variable {levels : ℕ}

theorem walks_fieldName {name : List Char} (h : name.length < 2 ^ 64) :
    Walks (levels + 1) (fieldName name) :=
  walks_text (by rwa [List.length_map])

theorem walks_idBytes (id : ℕ) : Walks (levels + 1) (Cbor.bytes (idBytes id)) :=
  walks_bytes (by rw [idBytes, Cbor.length_beBytes]; norm_num)

theorem PackEntry.walks_encode {e : PackEntry} (h : e.Fits) : Walks (levels + 2) e.encode := by
  refine walks_map (by simp) fun f hf => ?_
  simp only [List.mem_cons, List.not_mem_nil, or_false] at hf
  rcases hf with rfl | rfl | rfl | rfl
  · exact ⟨walks_fieldName (by simp), walks_idBytes _⟩
  · exact ⟨walks_fieldName (by simp), walks_uint h.offset⟩
  · exact ⟨walks_fieldName (by simp), walks_uint h.length⟩
  · exact ⟨walks_fieldName (by simp), walks_uint h.rawLen⟩

theorem IndexPack.walks_encode {p : IndexPack} (h : p.Fits) : Walks (levels + 4) p.encode := by
  refine walks_map (by simp) fun f hf => ?_
  simp only [List.mem_cons, List.not_mem_nil, or_false] at hf
  rcases hf with rfl | rfl | rfl
  · exact ⟨walks_fieldName (by simp), walks_idBytes _⟩
  · exact ⟨walks_fieldName (by simp), walks_uint h.size⟩
  · refine ⟨walks_fieldName (by simp), walks_array (by rw [List.length_map]; exact h.count) ?_⟩
    intro item hitem
    obtain ⟨e, he, rfl⟩ := List.mem_map.1 hitem
    exact PackEntry.walks_encode (h.entries e he)

/-- **Index blobs are canonical.** -/
theorem IndexBlob.walks_encode {b : IndexBlob} (h : b.Fits) : Walks (levels + 6) b.encode := by
  refine walks_map ?_ fun f hf => ?_
  · unfold encodeSupersedes
    split_ifs <;> simp
  · rcases List.mem_append.1 hf with hf | hf
    · simp only [List.mem_cons, List.not_mem_nil, or_false] at hf
      rcases hf with rfl | rfl
      · exact ⟨walks_fieldName (by simp), walks_uint h.version⟩
      · refine ⟨walks_fieldName (by simp), walks_array (by rw [List.length_map]; exact h.count) ?_⟩
        intro item hitem
        obtain ⟨p, hp, rfl⟩ := List.mem_map.1 hitem
        exact IndexPack.walks_encode (h.packs p hp)
    · unfold encodeSupersedes at hf
      split_ifs at hf with hnil
      · cases hf
      · rw [List.mem_singleton.1 hf]
        refine ⟨walks_fieldName (by simp),
          walks_array (by rw [List.length_map]; exact h.superseded) ?_⟩
        intro item hitem
        obtain ⟨id, -, rfl⟩ := List.mem_map.1 hitem
        exact walks_idBytes id

end Walks

/-- Each pack takes at least the bytes of its name. -/
theorem IndexBlob.le_length_encode (b : IndexBlob) : 32 * b.packs.length ≤ b.encode.length := by
  have hpack : ∀ item ∈ b.packs.map IndexPack.encode, 32 ≤ item.length := by
    intro item hitem
    obtain ⟨p, -, rfl⟩ := List.mem_map.1 hitem
    simp [IndexPack.encode, Cbor.map, Cbor.bytes, idBytes]
    omega
  have harray := Cbor.length_le_array hpack
  rw [List.length_map] at harray
  rw [IndexBlob.encode, Cbor.map]
  simp only [List.cons_append, List.nil_append, List.flatMap_cons, List.length_append]
  omega

end Kist
