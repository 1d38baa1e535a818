import Kist.Format.IndexBlob
import Kist.Lib.Dict

/-!
# Index objects

`kist-core::repo`, the bytes of an index blob: encoded, compressed where the writer counts a saving
of a sixteenth, sealed and stored under the hash of what is stored; and read back, with a limit on
what a compressed blob may decompress to.

* `encodeIndexBlob_eq`: the counting writer stands behind the compressor and counts what comes out
  of it, so that a blob is always stored as it is encoded.
* `readIndexBlob_iff`: a written blob is read back exactly when the object is not over the size
  that the backend reads.
-/

namespace Kist

/-- The functions of the libraries that index objects go through. `zstdWrites plain` are the pieces
in which the compressor writes its output, and `readAtMost data n` the first `n` bytes of what
`data` decompresses to. -/
structure IndexCodec where
  zstd : Bytes → Bytes
  zstdWrites : Bytes → List Bytes
  flatten_zstdWrites : ∀ plain, (zstdWrites plain).flatten = zstd plain
  readAtMost : Bytes → ℕ → Option Bytes
  readAtMost_zstd : ∀ plain n, readAtMost (zstd plain) n = some (plain.take n)
  fromReader : Bytes → Except String (IndexBlob × ℕ)
  sealBytes : ℕ → Bytes → Option Bytes
  openBytes : Bytes → Option Bytes
  openBytes_sealBytes : ∀ nonce plain sealed, sealBytes nonce plain = some sealed →
    openBytes sealed = some plain
  length_sealBytes : ∀ nonce plain sealed, sealBytes nonce plain = some sealed →
    sealed.length = plain.length + 40
  objectId : Bytes → ObjectId

/-- The index objects of a backend, and the size over which it gets no object, if it has one. -/
structure IndexStore where
  objects : Dict ObjectId Bytes
  readCap : Option ℕ

/-- What goes wrong with an index object. -/
inductive IndexObjectError
  | notFound (id : ObjectId)
  | overCap (size : ℕ)
  | crypto
  | corrupt (id : ObjectId) (reason : String)
  deriving DecidableEq, Repr

/-- `get`: some backends refuse to read an object over a size. -/
def IndexStore.get (store : IndexStore) (id : ObjectId) : Except IndexObjectError Bytes :=
  match store.objects.lookup id with
  | none => .error (.notFound id)
  | some bytes =>
    if ∃ cap ∈ store.readCap, cap < bytes.length then .error (.overCap bytes.length)
    else .ok bytes

/-- `MAX_INDEX_PLAIN`. -/
def maxIndexPlain : ℕ := 2 ^ 30

/-- `CountingWriter`: passes on what is written to it and counts it. -/
structure CountingWriter where
  inner : Bytes
  written : ℕ
  deriving DecidableEq, Repr

namespace CountingWriter

def new : CountingWriter := ⟨[], 0⟩

/-- `CountingWriter::write`. -/
def write (writer : CountingWriter) (buf : Bytes) : CountingWriter :=
  ⟨writer.inner ++ buf, writer.written + buf.length⟩

/-- What the writer has counted is what has come through it. -/
theorem written_writes (pieces : List Bytes) (writer : CountingWriter)
    (h : writer.written = writer.inner.length) :
    (pieces.foldl write writer).written = (pieces.foldl write writer).inner.length := by
  induction pieces generalizing writer with
  | nil => exact h
  | cons piece rest ih => exact ih _ (by simp [write, h])

end CountingWriter

namespace IndexCodec

variable (codec : IndexCodec)

/-- The compressor's writer, when the encoding has gone through the compressor. -/
def compressedWriter (blob : IndexBlob) : CountingWriter :=
  (codec.zstdWrites blob.encode).foldl .write .new

/-- `encode_index_blob`: the number of the algorithm, and the data. -/
def encodeIndexBlob (blob : IndexBlob) : Bytes :=
  -- the count is taken for the length of the plain text
  let plainLen := (codec.compressedWriter blob).written
  let compressed := (codec.compressedWriter blob).inner
  if compressed.length < plainLen - plainLen / 16 then 1 :: compressed else 0 :: blob.encode

/-- **Nothing is stored compressed.** The count is the length of the compressed data itself, which
is never a sixteenth shorter than it is. -/
theorem encodeIndexBlob_eq (blob : IndexBlob) : codec.encodeIndexBlob blob = 0 :: blob.encode := by
  have hcount : (codec.compressedWriter blob).written =
      (codec.compressedWriter blob).inner.length :=
    CountingWriter.written_writes _ .new rfl
  rw [encodeIndexBlob, hcount, if_neg (by omega)]

/-- `cbor::decode`. -/
def decodeCbor (bytes : Bytes) : Except String IndexBlob := do
  rejectNoncanonical bytes
  let (value, consumed) ← codec.fromReader bytes
  if consumed ≠ bytes.length then
    throw s!"{bytes.length - consumed} trailing bytes after CBOR value"
  return value

/-- `decode_index_blob_limited`. -/
def decodeIndexBlobLimited (payload : Bytes) (limit : ℕ) : Except String IndexBlob :=
  match payload with
  | [] => .error "index blob payload is empty (no algorithm byte)"
  | algorithm :: data =>
    if algorithm = 0 then codec.decodeCbor data
    else if algorithm = 1 then
      match codec.readAtMost data (limit + 1) with
      | none => .error "zstd decode failed"
      | some out =>
        if out.length > limit then
          .error s!"index blob decompresses to {out.length} bytes, over the {limit} limit"
        else codec.decodeCbor out
    else .error s!"unknown algorithm {algorithm}"

/-- `decode_index_blob`. -/
def decodeIndexBlob (payload : Bytes) : Except String IndexBlob :=
  codec.decodeIndexBlobLimited payload maxIndexPlain

/-- `write_index`. -/
def writeIndex (store : IndexStore) (nonce : ℕ) (blob : IndexBlob) :
    Except IndexObjectError (ObjectId × IndexStore) :=
  match codec.sealBytes nonce (codec.encodeIndexBlob blob) with
  | none => .error .crypto
  | some bytes =>
    let id := codec.objectId bytes
    .ok (id, { store with objects := store.objects.insert id bytes })

/-- `read_index_blob`. -/
def readIndexBlob (store : IndexStore) (id : ObjectId) : Except IndexObjectError IndexBlob := do
  let bytes ← store.get id
  if codec.objectId bytes ≠ id then
    throw (.corrupt id s!"content hash {codec.objectId bytes} does not match its name")
  let payload ← match codec.openBytes bytes with
    | none => throw (.corrupt id "decryption failed")
    | some payload => pure payload
  let blob ← match codec.decodeIndexBlob payload with
    | .error reason => throw (.corrupt id reason)
    | .ok blob => pure blob
  if blob.version ≠ formatVersion then
    throw (.corrupt id
      s!"index blob declares version {blob.version}, this build reads {formatVersion}")
  return blob

/-- The object of the blob, with the number of the algorithm, a nonce and a tag, is not over the
size that the backend reads. -/
def WithinCap (store : IndexStore) (blob : IndexBlob) : Prop :=
  ∀ cap ∈ store.readCap, blob.encode.length + 41 ≤ cap

section Read

variable {codec} {store store' : IndexStore} {blob : IndexBlob} {nonce : ℕ} {id : ObjectId}

theorem decodeCbor_encode (hfits : blob.Fits)
    (hreader : codec.fromReader blob.encode = .ok (blob, blob.encode.length)) :
    codec.decodeCbor blob.encode = .ok blob := by
  have hwalks : rejectNoncanonical blob.encode = .ok () :=
    rejectNoncanonical_of_walks (@IndexBlob.walks_encode 59 blob hfits)
  simp [decodeCbor, hwalks, hreader, bind, Except.bind, pure, Except.pure]

/-- Decoding undoes encoding, whatever the limit: it is asked for compressed blobs only. -/
theorem decodeIndexBlobLimited_encode (hfits : blob.Fits)
    (hreader : codec.fromReader blob.encode = .ok (blob, blob.encode.length)) (limit : ℕ) :
    codec.decodeIndexBlobLimited (codec.encodeIndexBlob blob) limit = .ok blob := by
  rw [encodeIndexBlob_eq, decodeIndexBlobLimited, if_pos rfl]
  exact decodeCbor_encode hfits hreader

/-- A compressed blob is decoded if it decompresses to no more than the limit, and only then. -/
theorem decodeIndexBlobLimited_zstd (hfits : blob.Fits)
    (hreader : codec.fromReader blob.encode = .ok (blob, blob.encode.length)) (limit : ℕ) :
    codec.decodeIndexBlobLimited (1 :: codec.zstd blob.encode) limit = .ok blob ↔
      blob.encode.length ≤ limit := by
  rw [decodeIndexBlobLimited, if_neg (by decide), if_pos rfl, codec.readAtMost_zstd]
  dsimp only
  by_cases hlen : blob.encode.length ≤ limit
  · have htake : blob.encode.take (limit + 1) = blob.encode :=
      List.take_of_length_le (by omega)
    rw [htake, if_neg (by omega), decodeCbor_encode hfits hreader]
    simp [hlen]
  · have htake : (blob.encode.take (limit + 1)).length = limit + 1 := by
      rw [List.length_take]
      omega
    rw [htake, if_pos (by omega)]
    simp [hlen]

/-- **What is written is read back if the backend reads objects of its size**, and only then. -/
theorem readIndexBlob_iff (hfits : blob.Fits) (hversion : blob.version = formatVersion)
    (hreader : codec.fromReader blob.encode = .ok (blob, blob.encode.length))
    (hwrite : codec.writeIndex store nonce blob = .ok (id, store')) :
    codec.readIndexBlob store' id = .ok blob ↔ WithinCap store blob := by
  unfold writeIndex at hwrite
  split at hwrite
  · cases hwrite
  · next bytes hseal =>
    cases hwrite
    have hopen := codec.openBytes_sealBytes _ _ _ hseal
    have hlength : bytes.length = blob.encode.length + 41 := by
      rw [codec.length_sealBytes _ _ _ hseal, encodeIndexBlob_eq, List.length_cons]
    have hdecode := decodeIndexBlobLimited_encode hfits hreader maxIndexPlain
    have hget : IndexStore.get ⟨store.objects.insert (codec.objectId bytes) bytes, store.readCap⟩
        (codec.objectId bytes) =
          if ∃ cap ∈ store.readCap, cap < bytes.length then .error (.overCap bytes.length)
          else .ok bytes := by
      rw [IndexStore.get, AList.lookup_insert]
    rw [WithinCap, ← hlength, readIndexBlob, hget]
    by_cases hcap : ∃ cap ∈ store.readCap, cap < bytes.length
    · -- the backend refuses the object
      obtain ⟨cap, hmem, hlt⟩ := id hcap
      rw [if_pos hcap]
      constructor
      · rintro ⟨⟩
      · intro h
        exact absurd (h cap hmem) (by omega)
    · have hbelow : ∀ cap ∈ store.readCap, bytes.length ≤ cap := fun cap hmem =>
        not_lt.1 fun hlt => hcap ⟨cap, hmem, hlt⟩
      rw [if_neg hcap, iff_true_right hbelow]
      simp [hopen, decodeIndexBlob, hdecode, hversion, bind, Except.bind, pure, Except.pure]

end Read

/-! ### Two blobs -/

/-- Libraries that are right about one blob: its encoding compresses to one byte and is read
back. -/
def shortening (blob : IndexBlob) : IndexCodec where
  zstd plain := if plain = blob.encode then [0] else 1 :: plain
  zstdWrites plain := [if plain = blob.encode then [0] else 1 :: plain]
  flatten_zstdWrites plain := List.flatten_singleton
  readAtMost data n := if data = [0] then some (blob.encode.take n) else some (data.tail.take n)
  readAtMost_zstd plain n := by
    by_cases h : plain = blob.encode
    · rw [if_pos h, if_pos rfl, h]
    · rw [if_neg h, if_neg (by simp), List.tail_cons]
  fromReader bytes :=
    if bytes = blob.encode then .ok (blob, blob.encode.length) else .error "invalid type"
  sealBytes _ plain := some (List.replicate 40 0 ++ plain)
  openBytes sealed := some (sealed.drop 40)
  openBytes_sealBytes nonce plain sealed h := by
    cases h
    rw [List.drop_left' (List.length_replicate ..)]
  length_sealBytes nonce plain sealed h := by
    cases h
    rw [List.length_append, List.length_replicate, Nat.add_comm]
  objectId bytes := Cbor.ofBe (bytes.drop 40)

/-- An index of `n` packs with one chunk each. -/
def packsOf (n : ℕ) : IndexBlob :=
  .new ((List.range n).map fun i => ⟨i + 1, 4096, [⟨i + 1, 4, 2048, 2000⟩]⟩)

theorem fits_packsOf {n : ℕ} (h : n < 2 ^ 64) : (packsOf n).Fits where
  version := by norm_num [packsOf, IndexBlob.new, formatVersion]
  count := by simpa [packsOf, IndexBlob.new] using h
  packs p hp := by
    obtain ⟨i, -, rfl⟩ := List.mem_map.1 hp
    refine ⟨by norm_num, by simp, fun e he => ?_⟩
    rw [List.mem_singleton.1 he]
    exact ⟨by norm_num, by norm_num, by norm_num⟩
  superseded := by simp [packsOf, IndexBlob.new]

section Shortening

variable (blob : IndexBlob) (store : IndexStore) (nonce : ℕ)

/-- The object that a blob is stored as. -/
def objectOf : Bytes := List.replicate 40 0 ++ (shortening blob).encodeIndexBlob blob

/-- The store with that object. -/
def storeWith : IndexStore :=
  ⟨store.objects.insert ((shortening blob).objectId (objectOf blob)) (objectOf blob), store.readCap⟩

theorem writeIndex_shortening : (shortening blob).writeIndex store nonce blob =
    .ok ((shortening blob).objectId (objectOf blob), storeWith blob store) := rfl

theorem fromReader_shortening :
    (shortening blob).fromReader blob.encode = .ok (blob, blob.encode.length) := if_pos rfl

end Shortening

theorem version_packsOf (n : ℕ) : (packsOf n).version = formatVersion := rfl

/-- `MAX_READ_LEN`, the size over which the SFTP backend reads no object. -/
def maxReadLen : ℕ := 8 * 1024 * 1024 * 1024

theorem readIndexBlob_iff_packsOf :
    (shortening (packsOf 2)).readIndexBlob (storeWith (packsOf 2) ⟨∅, some maxReadLen⟩)
        ((shortening (packsOf 2)).objectId (objectOf (packsOf 2))) = .ok (packsOf 2) := by
  have hwithin : WithinCap ⟨∅, some maxReadLen⟩ (packsOf 2) := by
    rintro cap ⟨⟩
    decide +kernel
  exact (readIndexBlob_iff (fits_packsOf (by norm_num)) (version_packsOf 2)
    (fromReader_shortening _) (writeIndex_shortening _ _ 0)).2 hwithin

/-- **A large index is lost** on a backend with a cap: it is written, and not read back. -/
theorem large_index_not_read :
    ¬∀ (codec : IndexCodec) (store store' : IndexStore) (blob : IndexBlob) (nonce : ℕ)
      (id : ObjectId), blob.Fits → blob.version = formatVersion →
        codec.fromReader blob.encode = .ok (blob, blob.encode.length) →
          codec.writeIndex store nonce blob = .ok (id, store') →
            codec.readIndexBlob store' id = .ok blob := by
  intro h
  obtain ⟨n, hn⟩ : ∃ n, n = 2 ^ 28 := ⟨_, rfl⟩
  have hfits : (packsOf n).Fits := fits_packsOf (by omega)
  have hwrite := writeIndex_shortening (packsOf n) ⟨∅, some maxReadLen⟩ 0
  have hread := h _ _ _ _ 0 _ hfits (version_packsOf n) (fromReader_shortening _) hwrite
  have hlong := (packsOf n).le_length_encode
  have hcount : (packsOf n).packs.length = n := by
    rw [packsOf, IndexBlob.new, List.length_map, List.length_range]
  rw [hcount] at hlong
  have hshort := (readIndexBlob_iff hfits (version_packsOf n) (fromReader_shortening _)
    hwrite).1 hread maxReadLen rfl
  rw [maxReadLen] at hshort
  omega

end IndexCodec

end Kist
