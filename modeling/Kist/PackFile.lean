import Kist.Backup.State
import Kist.Format.Pack

/-!
# Pack files

`kist-core::pack`, the bytes of packs: chunks are compressed where that saves a sixteenth, sealed
and put one behind the other, and the trailer that lists them is sealed and appended; and
`read_pack_index` of `kist-core::rebuild`, which finds the trailer without reading the whole pack.

An addition on 64-bit numbers that goes over ends a function with `none`: it stops the program where
such additions are checked, and wraps where they are not.

* `validateTrailer_ok_iff`: the entries of a valid trailer tile the region between header and
  trailer.
* `readTrailer_finish`: what is written is read.
* `locators_agree_iff`: when the two ways to find a trailer agree.
-/

namespace Kist

open Checked (bind_eq_ok)

/-- The functions of the libraries that packs go through. `readAtMost data n` are the first `n`
bytes of what `data` decompresses to. -/
structure PackLib where
  cbor : CborLib
  zstd : Bytes → Option Bytes
  readAtMost : Bytes → ℕ → Option Bytes
  sealChunk : ℕ → ChunkId → Bytes → Option Bytes
  openChunk : ChunkId → Bytes → Option Bytes
  sealPackTrailer : ℕ → Bytes → Option Bytes
  openPackTrailer : Bytes → Option Bytes
  chunkId : Bytes → ChunkId
  objectId : Bytes → ObjectId

/-- What was compressed is decompressed, and what was sealed, which takes 40 bytes more, is opened.
-/
structure PackLib.Lawful (lib : PackLib) : Prop where
  cbor : lib.cbor.Faithful
  readAtMost_zstd : ∀ plain data n, lib.zstd plain = some data →
    lib.readAtMost data n = some (plain.take n)
  openChunk_sealChunk : ∀ nonce id payload sealed, lib.sealChunk nonce id payload = some sealed →
    lib.openChunk id sealed = some payload
  length_sealChunk : ∀ nonce id payload sealed, lib.sealChunk nonce id payload = some sealed →
    sealed.length = payload.length + (PackFile.chunkNonceLen + PackFile.tagLen)
  openPackTrailer_sealPackTrailer : ∀ nonce plain sealed,
    lib.sealPackTrailer nonce plain = some sealed → lib.openPackTrailer sealed = some plain
  chunkId_lt : ∀ plain, lib.chunkId plain < 256 ^ 32

namespace PackFile

variable (lib : PackLib)

/-- `compress_chunk`: the number of the algorithm, and the data. -/
def compressChunk (raw : Bytes) : Option Bytes := do
  let compressed ← lib.zstd raw
  if compressed.length < raw.length - raw.length / 16 then return 1 :: compressed
  else return 0 :: raw

/-- `decompress_chunk`. -/
def decompressChunk (payload : Bytes) (limit : ℕ) : Except String Bytes :=
  match payload with
  | [] => .error "chunk payload is empty (no algorithm byte)"
  | algorithm :: data =>
    if algorithm = 0 then .ok data
    else if algorithm = 1 then
      match lib.readAtMost data (min (limit + 1) (2 ^ 64 - 1)) with
      | none => .error "zstd decode failed"
      | some out =>
        if out.length > limit then
          .error s!"chunk decompresses to {out.length} bytes, over the {limit} limit"
        else .ok out
    else .error s!"unknown compression algorithm {algorithm}"

/-- `decode_chunk`. -/
def decodeChunk (id : ChunkId) (entryBytes : Bytes) (rawLen maxChunk : ℕ) : Except String Bytes :=
  match lib.openChunk id entryBytes with
  | none => .error "decryption failed"
  | some payload => do
    let plaintext ← decompressChunk lib payload maxChunk
    if plaintext.length ≠ rawLen then
      throw s!"length {plaintext.length} does not match index ({rawLen})"
    if lib.chunkId plaintext ≠ id then
      throw s!"content hash mismatch (got {lib.chunkId plaintext})"
    return plaintext

/-! ### The writer -/

/-- The longest slice. -/
def isizeMax : ℕ := 2 ^ 63 - 1

/-- `PackWriter`, with the bytes of its buffer. -/
structure PackWriter where
  buf : Bytes
  entries : List PackEntry

/-- `FinishedPack`. -/
structure FinishedPack where
  id : ObjectId
  bytes : Bytes
  entries : List PackEntry

/-- `PackWriter::new`. -/
def PackWriter.new : PackWriter := ⟨magic, []⟩

/-- `PackWriter::is_full`. -/
def PackWriter.isFull (w : PackWriter) (targetSize : ℕ) : Bool := w.buf.length ≥ targetSize

/-- `PackWriter::add`. It yields nothing where a library fails or the buffer cannot get longer. -/
def PackWriter.add (w : PackWriter) (nonce : ℕ) (id : ChunkId) (plaintext : Bytes) :
    Option (PackEntry × PackWriter) := do
  let payload ← compressChunk lib plaintext
  let bytes ← lib.sealChunk nonce id payload
  if w.buf.length + bytes.length > isizeMax then none
  let entry : PackEntry := ⟨id, w.buf.length, bytes.length, plaintext.length⟩
  return (entry, ⟨w.buf ++ bytes, w.entries ++ [entry]⟩)

/-- `PackWriter::finish`. The writer is empty then. -/
def PackWriter.finish (w : PackWriter) (nonce : ℕ) : Option (Option FinishedPack × PackWriter) :=
  if w.entries = [] then some (none, w)
  else do
    let trailer := lib.cbor.write (PackTrailer.new w.entries).toItem
    let trailerSealed ← lib.sealPackTrailer nonce trailer
    let bytes := PackFile.finish w.buf trailerSealed
    if bytes.length > isizeMax then none
    return (some ⟨lib.objectId bytes, bytes, w.entries⟩, .new)

/-- A chunk to be written, with the nonce it is sealed with. -/
structure Chunk where
  nonce : ℕ
  id : ChunkId
  plain : Bytes

/-- Chunks one after the other, with the entries they get. -/
def PackWriter.addAll : List Chunk → PackWriter → Option (List PackEntry × PackWriter)
  | [], w => some ([], w)
  | c :: cs, w => do
    let (entry, w) ← w.add lib c.nonce c.id c.plain
    let (entries, w) ← addAll cs w
    return (entry :: entries, w)

/-! ### The trailer -/

/-- `MAX_CHUNKER_MAX`. -/
def maxChunkerMax : ℕ := 64 * 1024 * 1024

/-- `MAX_ENTRY_LEN`. -/
def maxEntryLen : ℕ := maxChunkerMax + 1 + (chunkNonceLen + tagLen)

variable (key : ObjectKey) (dataEnd : ℕ)

/-- The loop of `validate_trailer`. -/
def validateEntries : ℕ → ℕ → List ChunkId → List PackEntry → Option (Except CoreError Unit)
  | _, next, _, [] =>
    some (if next ≠ dataEnd then .error (.corrupt key
      s!"entries cover {next} bytes but the pack holds {dataEnd} of chunk data") else .ok ())
  | i, next, seen, e :: es =>
    if e.offset ≠ next then
      some (.error (.corrupt key s!"entry {i} starts at {e.offset}, expected {next}"))
    else if e.length < minEntryLen then
      some (.error (.corrupt key
        s!"entry {i} is {e.length} bytes, shorter than an empty sealed chunk"))
    else if e.length > maxEntryLen then
      some (.error (.corrupt key
        s!"entry {i} is {e.length} bytes, over the {maxEntryLen} a sealed chunk can be"))
    else if 2 ^ 64 ≤ e.offset + e.length then none
    else if e.offset + e.length > dataEnd then
      some (.error (.corrupt key
        s!"entry {i} ends at {e.offset + e.length}, past the {dataEnd} bytes of chunk data"))
    else if e.id ∈ seen then some (.error (.corrupt key s!"chunk {e.id} is listed twice"))
    else validateEntries (i + 1) (e.offset + e.length) (e.id :: seen) es

/-- `validate_trailer`. -/
def validateTrailer (t : PackTrailer) : Option (Except CoreError Unit) :=
  if t.entries = [] then some (.error (.corrupt key "trailer lists no chunks"))
  else validateEntries key dataEnd 0 headerLen [] t.entries

/-- `decode_trailer`. -/
def decodeTrailer (trailer : Bytes) : Option (Except CoreError PackTrailer) :=
  match lib.openPackTrailer trailer with
  | none => some (.error (.corrupt key "trailer: authentication failed"))
  | some plain =>
    match decodeCbor (lib.cbor.fromReader PackTrailer.ofItem) plain with
    | .error e => some (.error (.corrupt key s!"trailer: {e}"))
    | .ok t =>
      if t.version ≠ formatVersion then
        some (.error (.corrupt key
          s!"trailer declares version {t.version}, this build reads {formatVersion}"))
      else (validateTrailer key dataEnd t).map fun r => r.map fun _ => t

/-- `read_trailer`. -/
def readTrailer (packBytes : Bytes) : Option (Except CoreError PackTrailer) :=
  match trailerBytes packBytes with
  | .error e => some (.error (.corrupt key s!"trailer: {e.text}"))
  | .ok trailer =>
    decodeTrailer lib key (packBytes.length - footerLen - trailer.length) trailer

/-- `read_pack_index`, on a pack of the listed size. `getRange` reads a range of it. -/
def readPackIndex (getRange : ℕ → ℕ → Except CoreError Bytes) (id : ObjectId) (size : ℕ) :
    Option (Except CoreError IndexPack) :=
  let key : ObjectKey := .pack id
  if size < headerLen + footerLen then
    some (.error (.corrupt key s!"pack is only {size} bytes"))
  else
    match getRange (size - footerLen) size with
    | .error e => some (.error e)
    | .ok footer =>
      match parseFooter footer with
      | .error e => some (.error (.corrupt key e.text))
      | .ok trailerLen =>
        if 2 ^ 64 ≤ footerLen + trailerLen then none
        else if footerLen + trailerLen ≤ size ∧ headerLen ≤ size - (footerLen + trailerLen) then
          match getRange (size - (footerLen + trailerLen)) (size - footerLen) with
          | .error e => some (.error e)
          | .ok trailer =>
            (decodeTrailer lib key (size - (footerLen + trailerLen)) trailer).map fun r =>
              r.map fun t => ⟨id, size, t.entries⟩
        else some (.error (.corrupt key s!"trailer length {trailerLen} does not fit"))

/-! ### Valid trailers -/

/-- Entries that stand one behind the other, from one position to another. -/
def Tiles : ℕ → ℕ → List PackEntry → Prop
  | start, stop, [] => start = stop
  | start, stop, e :: es => e.offset = start ∧ Tiles (start + e.length) stop es

/-- The entries cover the region between the header and the trailer without a gap and without an
overlap, no chunk stands twice, and each is as long as a sealed chunk can be. -/
structure TrailerOk (dataEnd : ℕ) (es : List PackEntry) : Prop where
  nonempty : es ≠ []
  tiles : Tiles headerLen dataEnd es
  nodup : (es.map PackEntry.id).Nodup
  lengths : ∀ e ∈ es, minEntryLen ≤ e.length ∧ e.length ≤ maxEntryLen

section Validate

variable {key dataEnd} {es es' : List PackEntry} {e : PackEntry} {start stop next i : ℕ}
  {seen : List ChunkId} {t : PackTrailer}

theorem Tiles.le (h : Tiles start stop es) : start ≤ stop := by
  induction es generalizing start with
  | nil => exact le_of_eq h
  | cons e es ih => exact (Nat.le_add_right _ _).trans (ih h.2)

theorem Tiles.append {mid : ℕ} (h : Tiles start mid es) (h' : Tiles mid stop es') :
    Tiles start stop (es ++ es') := by
  induction es generalizing start with
  | nil => exact h ▸ h'
  | cons e es ih => exact ⟨h.1, ih h.2⟩

theorem Tiles.end_le (h : Tiles start stop es) : ∀ e ∈ es, e.offset + e.length ≤ stop := by
  induction es generalizing start with
  | nil => exact nofun
  | cons e es ih =>
    obtain ⟨hoffset, hrest⟩ := h
    intro e' he'
    rcases List.mem_cons.1 he' with rfl | he'
    · rw [hoffset]
      exact hrest.le
    · exact ih hrest e' he'

theorem validateEntries_ok_iff (hend : dataEnd < 2 ^ 64) :
    validateEntries key dataEnd i next seen es = some (.ok ()) ↔
      Tiles next dataEnd es ∧ (es.map PackEntry.id).Nodup ∧ (∀ e ∈ es, e.id ∉ seen) ∧
        ∀ e ∈ es, minEntryLen ≤ e.length ∧ e.length ≤ maxEntryLen := by
  induction es generalizing i next seen with
  | nil =>
    rw [validateEntries, Tiles]
    split_ifs with hnext
    · simp [hnext]
    · simp [not_not.1 hnext]
  | cons e es ih =>
    rw [validateEntries, Tiles]
    -- the checks in the order in which the validator makes them
    split_ifs with hoffset hmin hmax hover hpast hseen
    · exact iff_of_false nofun fun h => hoffset h.1.1
    · exact iff_of_false nofun fun h =>
        absurd (h.2.2.2 e List.mem_cons_self).1 (not_le.2 hmin)
    · exact iff_of_false nofun fun h =>
        absurd (h.2.2.2 e List.mem_cons_self).2 (not_le.2 hmax)
    · refine iff_of_false nofun fun h => ?_
      have hle := h.1.2.le
      rw [not_not.1 hoffset] at hover
      omega
    · refine iff_of_false nofun fun h => ?_
      have hle := h.1.2.le
      rw [not_not.1 hoffset] at hpast
      omega
    · exact iff_of_false nofun fun h => h.2.2.1 e List.mem_cons_self hseen
    · rw [ih, not_not.1 hoffset, List.map_cons, List.nodup_cons, List.forall_mem_cons,
        List.forall_mem_cons]
      constructor
      · rintro ⟨htiles, hnodup, hnew, hlengths⟩
        refine ⟨⟨rfl, htiles⟩, ⟨?_, hnodup⟩, ⟨hseen, fun e' he' hmem => ?_⟩,
          ⟨not_lt.1 hmin, not_lt.1 hmax⟩, hlengths⟩
        · intro hmem
          obtain ⟨e', he', hid⟩ := List.mem_map.1 hmem
          exact hnew e' he' (hid ▸ List.mem_cons_self)
        · exact hnew e' he' (List.mem_cons_of_mem _ hmem)
      · rintro ⟨⟨-, htiles⟩, ⟨hid, hnodup⟩, ⟨-, hnew⟩, -, hlengths⟩
        refine ⟨htiles, hnodup, fun e' he' hmem => ?_, hlengths⟩
        rcases List.mem_cons.1 hmem with heq | hmem
        · exact hid (List.mem_map.2 ⟨e', he', heq⟩)
        · exact hnew e' he' hmem

/-- **A trailer is valid** if and only if its entries tile the region between header and trailer. -/
theorem validateTrailer_ok_iff (hend : dataEnd < 2 ^ 64) :
    validateTrailer key dataEnd t = some (.ok ()) ↔ TrailerOk dataEnd t.entries := by
  unfold validateTrailer
  split_ifs with hempty
  · exact iff_of_false nofun fun h => h.nonempty hempty
  · rw [validateEntries_ok_iff hend]
    constructor
    · rintro ⟨htiles, hnodup, -, hlengths⟩
      exact ⟨hempty, htiles, hnodup, hlengths⟩
    · exact fun h => ⟨h.tiles, h.nodup, fun _ _ => List.not_mem_nil, h.lengths⟩

/-- A trailer that is read is valid. -/
theorem decodeTrailer_ok {lib : PackLib} {trailer : Bytes}
    (h : decodeTrailer lib key dataEnd trailer = some (.ok t)) :
    validateTrailer key dataEnd t = some (.ok ()) := by
  unfold decodeTrailer at h
  split at h
  · cases h
  · split at h
    · cases h
    · split_ifs at h
      · cases h
      · obtain ⟨r, hr, h⟩ := Option.map_eq_some_iff.1 h
        cases r with
        | error e => cases h
        | ok =>
          cases h
          exact hr

theorem readPackIndex_ok {lib : PackLib} {getRange : ℕ → ℕ → Except CoreError Bytes} {id : ObjectId}
    {size : ℕ} {p : IndexPack} (h : readPackIndex lib getRange id size = some (.ok p)) :
    ∃ dataEnd trailer t, dataEnd ≤ size ∧
      decodeTrailer lib (.pack id) dataEnd trailer = some (.ok t) ∧ p = ⟨id, size, t.entries⟩ := by
  unfold readPackIndex at h
  dsimp only at h
  split_ifs at h
  · cases h
  · split at h
    · cases h
    · split at h
      · cases h
      · split_ifs at h
        · split at h
          · cases h
          · obtain ⟨r, hr, h⟩ := Option.map_eq_some_iff.1 h
            cases r with
            | error e => cases h
            | ok t =>
              cases h
              exact ⟨_, _, t, Nat.sub_le _ _, hr, rfl⟩
        · cases h

/-- Where the chunk data ends below `2 ^ 64` by more than a chunk, no addition goes over. -/
theorem validateTrailer_ne_none (hend : dataEnd + maxEntryLen < 2 ^ 64)
    (hheader : headerLen ≤ dataEnd) :
    validateTrailer key dataEnd t ≠ none := by
  have hloop : ∀ (es : List PackEntry) (i next : ℕ) (seen : List ChunkId), next ≤ dataEnd →
      validateEntries key dataEnd i next seen es ≠ none := by
    intro es
    induction es with
    | nil => exact fun i next seen _ => by rw [validateEntries]; exact nofun
    | cons e es ih =>
      intro i next seen hnext
      rw [validateEntries]
      split_ifs with hoffset hmin hmax hover hpast hseen
      · exact nofun
      · exact nofun
      · exact nofun
      · rw [not_not.1 hoffset] at hover
        omega
      · exact nofun
      · exact nofun
      · exact ih _ _ _ (not_lt.1 hpast)
  unfold validateTrailer
  split_ifs
  · exact nofun
  · exact hloop _ _ _ _ hheader

end Validate

/-! ### What is written is read -/

/-- The bytes of an entry. -/
def slice (e : PackEntry) (bytes : Bytes) : Bytes := (bytes.drop e.offset).take e.length

/-- The pack has the chunk where the entry says. What is decoded there is the chunk if the chunk is
named by its contents. -/
structure Stores (lib : PackLib) (maxChunk : ℕ) (bytes : Bytes) (c : Chunk)
    (e : PackEntry) : Prop where
  id : e.id = c.id
  rawLen : e.rawLen = c.plain.length
  decode : lib.chunkId c.plain = c.id →
    decodeChunk lib e.id (slice e bytes) e.rawLen maxChunk = .ok c.plain

section Written

variable {lib : PackLib} {maxChunk nonce : ℕ} {w w' : PackWriter} {c : Chunk} {cs : List Chunk}
  {e : PackEntry} {es : List PackEntry} {bytes rest plain payload : Bytes} {p : FinishedPack}

theorem slice_append (h : e.offset + e.length ≤ bytes.length) :
    slice e (bytes ++ rest) = slice e bytes := by
  rw [slice, slice, List.drop_append_of_le_length (by omega),
    List.take_append_of_le_length (by rw [List.length_drop]; omega)]

/-- Bytes that are put behind a pack leave its chunks where they are. -/
theorem Stores.append (h : Stores lib maxChunk bytes c e)
    (hend : e.offset + e.length ≤ bytes.length) :
    Stores lib maxChunk (bytes ++ rest) c e where
  id := h.id
  rawLen := h.rawLen
  decode := by
    rw [slice_append hend]
    exact h.decode

theorem compressChunk_eq_some (h : compressChunk lib plain = some payload) :
    0 < payload.length ∧ payload.length ≤ plain.length + 1 ∧
      ((∃ data, lib.zstd plain = some data ∧ payload = 1 :: data) ∨ payload = 0 :: plain) := by
  unfold compressChunk at h
  obtain ⟨data, hdata, h⟩ := Option.bind_eq_some_iff.1 h
  split_ifs at h with hless
  · cases h
    refine ⟨Nat.succ_pos _, ?_, .inl ⟨data, hdata, rfl⟩⟩
    rw [List.length_cons]
    omega
  · cases h
    exact ⟨Nat.succ_pos _, le_rfl, .inr rfl⟩

/-- What was compressed is decompressed. -/
theorem decompressChunk_compressChunk (hlib : lib.Lawful) (hmax : maxChunk ≤ maxChunkerMax)
    (hlen : plain.length ≤ maxChunk) (h : compressChunk lib plain = some payload) :
    decompressChunk lib payload maxChunk = .ok plain := by
  unfold maxChunkerMax at hmax
  obtain ⟨-, -, ⟨data, hdata, rfl⟩ | rfl⟩ := compressChunk_eq_some h
  · have hout : lib.readAtMost data (min (maxChunk + 1) (2 ^ 64 - 1)) = some plain := by
      rw [hlib.readAtMost_zstd _ _ _ hdata, List.take_of_length_le (by omega)]
    rw [decompressChunk, if_neg (by decide), if_pos rfl, hout]
    dsimp only
    rw [if_neg (by omega)]
  · rw [decompressChunk, if_pos rfl]

/-- What the writer holds: the chunks, one behind the other. -/
structure PackWriter.Holds (lib : PackLib) (maxChunk : ℕ) (cs : List Chunk)
    (w : PackWriter) : Prop where
  header : w.buf.take headerLen = magic
  tiles : Tiles headerLen w.buf.length w.entries
  short : w.buf.length ≤ isizeMax
  lengths : ∀ e ∈ w.entries, minEntryLen ≤ e.length ∧ e.length ≤ maxEntryLen
  stores : List.Forall₂ (Stores lib maxChunk w.buf) cs w.entries

theorem PackWriter.holds_new : PackWriter.new.Holds lib maxChunk [] where
  header := rfl
  tiles := rfl
  short := by
    show headerLen ≤ isizeMax
    decide
  lengths := nofun
  stores := .nil

theorem PackWriter.Holds.stores_append (hw : w.Holds lib maxChunk cs) :
    List.Forall₂ (Stores lib maxChunk (w.buf ++ rest)) cs w.entries := by
  refine List.forall₂_iff_zip.2 ⟨hw.stores.length_eq, fun {c e} hce => ?_⟩
  exact ((List.forall₂_iff_zip.1 hw.stores).2 hce).append
    (hw.tiles.end_le _ (List.of_mem_zip hce).2)

theorem PackWriter.add_eq_some {id : ChunkId}
    (h : w.add lib nonce id plain = some (e, w')) :
    ∃ payload bytes, compressChunk lib plain = some payload ∧
      lib.sealChunk nonce id payload = some bytes ∧ w.buf.length + bytes.length ≤ isizeMax ∧
      e = ⟨id, w.buf.length, bytes.length, plain.length⟩ ∧
      w' = ⟨w.buf ++ bytes, w.entries ++ [e]⟩ := by
  unfold PackWriter.add at h
  obtain ⟨payload, hpayload, h⟩ := Option.bind_eq_some_iff.1 h
  obtain ⟨bytes, hbytes, h⟩ := Option.bind_eq_some_iff.1 h
  split_ifs at h with hlong
  · cases h
  · cases h
    exact ⟨payload, bytes, hpayload, hbytes, not_lt.1 hlong, rfl, rfl⟩

/-- A chunk is put behind the others. -/
theorem PackWriter.Holds.add (hlib : lib.Lawful) (hmax : maxChunk ≤ maxChunkerMax)
    (hw : w.Holds lib maxChunk cs) (hlen : c.plain.length ≤ maxChunk)
    (h : w.add lib c.nonce c.id c.plain = some (e, w')) : w'.Holds lib maxChunk (cs ++ [c]) := by
  obtain ⟨payload, bytes, hpayload, hbytes, hshort, rfl, rfl⟩ := add_eq_some h
  have hlong : headerLen ≤ w.buf.length := hw.tiles.le
  have hsealed := hlib.length_sealChunk _ _ _ _ hbytes
  obtain ⟨hpos, hle, -⟩ := compressChunk_eq_some hpayload
  refine ⟨?_, ?_, ?_, ?_, ?_⟩
  · rw [List.take_append_of_le_length hlong, hw.header]
  · rw [List.length_append]
    exact hw.tiles.append ⟨rfl, rfl⟩
  · rwa [List.length_append]
  · intro e he
    rcases List.mem_append.1 he with he | he
    · exact hw.lengths e he
    · obtain rfl := List.mem_singleton.1 he
      unfold minEntryLen maxEntryLen
      dsimp only
      omega
  · refine List.rel_append ?_ (.cons ?_ .nil)
    · exact hw.stores_append
    · refine ⟨rfl, rfl, fun hid => ?_⟩
      dsimp only
      have hslice : slice ⟨c.id, w.buf.length, bytes.length, c.plain.length⟩ (w.buf ++ bytes) =
          bytes := by
        rw [slice, List.drop_left, List.take_length]
      rw [hslice, decodeChunk, hlib.openChunk_sealChunk _ _ _ _ hbytes]
      dsimp only
      rw [decompressChunk_compressChunk hlib hmax hlen hpayload]
      simp [bind, Except.bind, hid]
      rfl

/-- Chunks are put one behind the other. -/
theorem PackWriter.Holds.addAll (hlib : lib.Lawful) (hmax : maxChunk ≤ maxChunkerMax)
    (hw : w.Holds lib maxChunk cs) {cs' : List Chunk} (hlen : ∀ c ∈ cs', c.plain.length ≤ maxChunk)
    (h : PackWriter.addAll lib cs' w = some (es, w')) :
    w'.Holds lib maxChunk (cs ++ cs') ∧ w'.entries = w.entries ++ es := by
  induction cs' generalizing w cs es with
  | nil =>
    cases h
    rw [List.append_nil, List.append_nil]
    exact ⟨hw, rfl⟩
  | cons c cs' ih =>
    obtain ⟨⟨e, w₁⟩, hadd, h⟩ := Option.bind_eq_some_iff.1 h
    obtain ⟨⟨es', w₂⟩, hrest, h⟩ := Option.bind_eq_some_iff.1 h
    cases h
    obtain ⟨hlen₁, hlen⟩ := List.forall_mem_cons.1 hlen
    obtain ⟨hholds, hentries⟩ := ih (hw.add hlib hmax hlen₁ hadd) hlen hrest
    obtain ⟨_, _, _, _, _, _, hw₁⟩ := add_eq_some hadd
    refine ⟨by simpa using hholds, ?_⟩
    rw [hentries, hw₁, List.append_assoc]
    rfl

theorem Tiles.length_le {start stop : ℕ} (h : Tiles start stop es) (hpos : ∀ e ∈ es, 0 < e.length) :
    start + es.length ≤ stop := by
  induction es generalizing start with
  | nil => exact le_of_eq h
  | cons e es ih =>
    have hrest := ih h.2 fun e' he' => hpos e' (List.mem_cons_of_mem _ he')
    have he := hpos e List.mem_cons_self
    rw [List.length_cons]
    omega

theorem minEntryLen_pos : 0 < minEntryLen := Nat.succ_pos _

/-- The entries name the chunks. -/
theorem map_id_of_stores (h : List.Forall₂ (Stores lib maxChunk bytes) cs es) :
    es.map PackEntry.id = cs.map Chunk.id := by
  induction h with
  | nil => rfl
  | cons hce _ ih => rw [List.map_cons, List.map_cons, hce.id, ih]

theorem exists_of_stores (h : List.Forall₂ (Stores lib maxChunk bytes) cs es) (he : e ∈ es) :
    ∃ c ∈ cs, Stores lib maxChunk bytes c e := by
  induction h with
  | nil => cases he
  | @cons c e' cs es hce _ ih =>
    rcases List.mem_cons.1 he with rfl | he
    · exact ⟨c, List.mem_cons_self, hce⟩
    · obtain ⟨c', hc', hce'⟩ := ih he
      exact ⟨c', List.mem_cons_of_mem _ hc', hce'⟩

theorem PackWriter.Holds.typed (hmax : maxChunk ≤ maxChunkerMax) (hw : w.Holds lib maxChunk cs)
    (hlen : ∀ c ∈ cs, c.plain.length ≤ maxChunk) (hid : ∀ c ∈ cs, c.id < 256 ^ 32) :
    (PackTrailer.new w.entries).Typed := by
  have hshort := hw.short
  unfold isizeMax at hshort
  unfold maxChunkerMax at hmax
  have hcount := hw.tiles.length_le fun e he => minEntryLen_pos.trans_le (hw.lengths e he).1
  have hversion : formatVersion < 2 ^ 32 := by decide
  refine ⟨hversion, show w.entries.length < 2 ^ 63 by omega, fun e he => ?_⟩
  have hend := hw.tiles.end_le e he
  obtain ⟨c, hc, hce⟩ := exists_of_stores hw.stores he
  have hraw := hce.rawLen
  have hplain := hlen c hc
  exact ⟨⟨by omega, by omega, by omega⟩, hce.id ▸ hid c hc⟩

/-- **What is written is read**: a pack that is finished has a valid trailer with the entries in the
order in which the chunks were added, and each chunk where its entry says. -/
theorem readTrailer_finish {key : ObjectKey} (hlib : lib.Lawful) (hmax : maxChunk ≤ maxChunkerMax)
    (hnodup : (cs.map Chunk.id).Nodup) (hlen : ∀ c ∈ cs, c.plain.length ≤ maxChunk)
    (hid : ∀ c ∈ cs, c.id < 256 ^ 32) (hadd : PackWriter.new.addAll lib cs = some (es, w))
    (hfinish : w.finish lib nonce = some (some p, w')) :
    w' = .new ∧ p.entries = es ∧ p.id = lib.objectId p.bytes ∧
      readTrailer lib key p.bytes = some (.ok ⟨formatVersion, es⟩) ∧
        List.Forall₂ (Stores lib maxChunk p.bytes) cs es := by
  obtain ⟨hw, hentries⟩ := PackWriter.holds_new.addAll hlib hmax hlen hadd
  rw [List.nil_append] at hw
  obtain rfl : es = w.entries := hentries.symm
  unfold PackWriter.finish at hfinish
  split_ifs at hfinish with hempty
  · cases hfinish
  obtain ⟨sealed, hsealed, hfinish⟩ := Option.bind_eq_some_iff.1 hfinish
  dsimp only at hfinish
  split_ifs at hfinish with hlong
  · cases hfinish
  cases hfinish
  have hsize := not_lt.1 hlong
  rw [length_finish] at hsize
  unfold isizeMax at hsize
  refine ⟨rfl, rfl, rfl, ?_, ?_⟩
  · have htrailer : trailerBytes (PackFile.finish w.buf sealed) = .ok sealed :=
      trailerBytes_finish hw.header (by omega)
    -- the entries tile the bytes up to where the trailer starts
    have hend : (PackFile.finish w.buf sealed).length - footerLen - sealed.length =
      w.buf.length := by
      rw [length_finish]
      omega
    have hvalid : validateTrailer key w.buf.length (PackTrailer.new w.entries) = some (.ok ()) := by
      refine (validateTrailer_ok_iff (by omega)).2 ⟨hempty, hw.tiles, ?_, hw.lengths⟩
      dsimp only [PackTrailer.new]
      rwa [map_id_of_stores hw.stores]
    rw [readTrailer, htrailer]
    dsimp only
    rw [hend, decodeTrailer, hlib.openPackTrailer_sealPackTrailer _ _ _ hsealed]
    dsimp only
    rw [decodeCbor_trailer hlib.cbor (hw.typed hmax hlen hid)]
    dsimp only
    have hversion : (PackTrailer.new w.entries).version = formatVersion := rfl
    rw [if_neg (not_not.2 hversion), hvalid]
    rfl
  · rw [PackFile.finish, List.append_assoc, List.append_assoc]
    exact hw.stores_append

end Written

/-! ### Two ways to the trailer -/

/-- A backend that has these bytes: it is right about every range that lies in them. -/
def Serves (bytes : Bytes) (getRange : ℕ → ℕ → Except CoreError Bytes) : Prop :=
  ∀ start stop, start ≤ stop → stop ≤ bytes.length →
    getRange start stop = .ok ((bytes.drop start).take (stop - start))

/-- Both ways to read the trailer reject the pack, or both find the same entries. No addition goes
over, and what is found does not depend on what the backend answers about ranges that do not lie in
the pack.
-/
def LocatorsAgree (lib : PackLib) (id : ObjectId) (bytes : Bytes) : Prop :=
  ∃ r r', (∀ getRange, Serves bytes getRange →
      readPackIndex lib getRange id bytes.length = some r) ∧
    readTrailer lib (.pack id) bytes = some r' ∧
      ((∃ e e', r = .error e ∧ r' = .error e') ∨
        ∃ t : PackTrailer, r = .ok ⟨id, bytes.length, t.entries⟩ ∧ r' = .ok t)

/-- The footer is well formed, and with its own length the length it has goes over 64 bits. -/
def FooterOverflows (bytes : Bytes) : Prop :=
  headerLen + footerLen ≤ bytes.length ∧
    ∃ trailerLen, parseFooter bytes = .ok trailerLen ∧ 2 ^ 64 ≤ footerLen + trailerLen

section Locators

variable {lib : PackLib} {key : ObjectKey} {id : ObjectId} {bytes trailer : Bytes}
  {dataEnd trailerLen : ℕ}
  {getRange : ℕ → ℕ → Except CoreError Bytes}

theorem decodeTrailer_ne_none (hend : dataEnd + maxEntryLen < 2 ^ 64)
    (hheader : headerLen ≤ dataEnd) :
    decodeTrailer lib key dataEnd trailer ≠ none := by
  unfold decodeTrailer
  split
  · exact nofun
  · split
    · exact nofun
    · split_ifs
      · exact nofun
      · rw [ne_eq, Option.map_eq_none_iff]
        exact validateTrailer_ne_none hend hheader

/-- The footer is the end of the pack. -/
theorem parseFooter_slice (h : footerLen ≤ bytes.length) :
    parseFooter ((bytes.drop (bytes.length - footerLen)).take footerLen) = parseFooter bytes := by
  have hlen : (bytes.drop (bytes.length - footerLen)).length = footerLen := by
    rw [List.length_drop]
    omega
  rw [List.take_of_length_le hlen.le, parseFooter, parseFooter, if_neg hlen.not_lt,
    if_neg h.not_gt, hlen, Nat.sub_self, List.drop_zero]

/-- Where the trailer begins. -/
def trailerStart (bytes : Bytes) (trailerLen : ℕ) : ℕ := bytes.length - (footerLen + trailerLen)

/-- The trailer lies behind the header. -/
def TrailerFits (bytes : Bytes) (trailerLen : ℕ) : Prop :=
  footerLen + trailerLen ≤ bytes.length ∧ headerLen ≤ trailerStart bytes trailerLen

/-- The trailer is read from the pack. -/
theorem readTrailer_of_footer (hsize : headerLen + footerLen ≤ bytes.length)
    (hmagic : bytes.take headerLen = magic) (hfooter : parseFooter bytes = .ok trailerLen) :
    (¬TrailerFits bytes trailerLen → ∃ e, readTrailer lib key bytes = some (.error e)) ∧
      (TrailerFits bytes trailerLen → readTrailer lib key bytes =
        decodeTrailer lib key (trailerStart bytes trailerLen)
          ((bytes.drop (trailerStart bytes trailerLen)).take trailerLen)) := by
  unfold readTrailer trailerBytes TrailerFits
  rw [if_neg hsize.not_gt, if_neg (not_not.2 hmagic), hfooter]
  dsimp only
  have hstart : bytes.length - footerLen - trailerLen = trailerStart bytes trailerLen :=
    Nat.sub_sub _ _ _
  constructor
  · intro hfits
    rw [if_neg (by omega)]
    exact ⟨_, rfl⟩
  · intro hfits
    have hdata : ((bytes.drop (trailerStart bytes trailerLen)).take trailerLen).length =
        trailerLen := by
      rw [List.length_take, List.length_drop]
      unfold trailerStart at *
      omega
    rw [if_pos (by omega), hstart]
    dsimp only
    rw [hdata, hstart]

/-- The trailer is read from a range. -/
theorem readPackIndex_of_footer (hsize : headerLen + footerLen ≤ bytes.length)
    (hfooter : parseFooter bytes = .ok trailerLen) (hlen : footerLen + trailerLen < 2 ^ 64)
    (hserves : Serves bytes getRange) :
    (¬TrailerFits bytes trailerLen → readPackIndex lib getRange id bytes.length =
        some (.error (.corrupt (.pack id) s!"trailer length {trailerLen} does not fit"))) ∧
      (TrailerFits bytes trailerLen → readPackIndex lib getRange id bytes.length =
        (decodeTrailer lib (.pack id) (trailerStart bytes trailerLen)
          ((bytes.drop (trailerStart bytes trailerLen)).take trailerLen)).map fun r =>
            r.map fun t => ⟨id, bytes.length, t.entries⟩) := by
  have hslice := hserves (bytes.length - footerLen) bytes.length (Nat.sub_le _ _) le_rfl
  rw [Nat.sub_sub_self (by omega)] at hslice
  have hparse := parseFooter_slice (show footerLen ≤ bytes.length by omega)
  rw [hfooter] at hparse
  unfold readPackIndex
  rw [if_neg hsize.not_gt, hslice]
  dsimp only
  rw [hparse]
  dsimp only
  rw [if_neg hlen.not_ge]
  constructor
  · exact fun hfits => if_neg hfits
  · intro hfits
    have hrange : bytes.length - footerLen - (bytes.length - (footerLen + trailerLen)) =
        trailerLen := by
      have hle := hfits.1
      omega
    have htrailer := hserves (bytes.length - (footerLen + trailerLen)) (bytes.length - footerLen)
      (by omega) (Nat.sub_le _ _)
    rw [hrange] at htrailer
    rw [if_pos (show footerLen + trailerLen ≤ bytes.length ∧
      headerLen ≤ bytes.length - (footerLen + trailerLen) from hfits), htrailer]
    rfl

/-- A footer that gives a length that goes over stops the search by ranges. -/
theorem readPackIndex_overflows (h : FooterOverflows bytes) (hserves : Serves bytes getRange) :
    readPackIndex lib getRange id bytes.length = none := by
  obtain ⟨hsize, trailerLen, hfooter, hover⟩ := h
  have hslice := hserves (bytes.length - footerLen) bytes.length (Nat.sub_le _ _) le_rfl
  rw [Nat.sub_sub_self (by omega)] at hslice
  have hparse := parseFooter_slice (show footerLen ≤ bytes.length by omega)
  rw [hfooter] at hparse
  unfold readPackIndex
  rw [if_neg hsize.not_gt, hslice]
  dsimp only
  rw [hparse]
  dsimp only
  rw [if_pos hover]

/-- A pack without a footer is rejected either way. -/
theorem locatorsAgree_of_no_footer (hmagic : bytes.take headerLen = magic)
    (h : ∀ trailerLen, headerLen + footerLen ≤ bytes.length → parseFooter bytes ≠ .ok trailerLen) :
    LocatorsAgree lib id bytes := by
  by_cases hsize : headerLen + footerLen ≤ bytes.length
  · cases hfooter : parseFooter bytes with
    | ok trailerLen => exact absurd hfooter (h trailerLen hsize)
    | error e =>
      refine ⟨.error (.corrupt (.pack id) e.text),
        .error (.corrupt (.pack id) s!"trailer: {e.text}"), fun getRange hserves => ?_, ?_,
        .inl ⟨_, _, rfl, rfl⟩⟩
      · have hslice := hserves (bytes.length - footerLen) bytes.length (Nat.sub_le _ _) le_rfl
        rw [Nat.sub_sub_self (by omega)] at hslice
        unfold readPackIndex
        rw [if_neg hsize.not_gt, hslice]
        dsimp only
        rw [parseFooter_slice (by omega), hfooter]
      · unfold readTrailer trailerBytes
        rw [if_neg hsize.not_gt, if_neg (not_not.2 hmagic), hfooter]
  · have hread : ∃ e, readTrailer lib (.pack id) bytes = some (.error e) := by
      unfold readTrailer trailerBytes
      rw [if_pos (by omega)]
      exact ⟨_, rfl⟩
    obtain ⟨e, he⟩ := hread
    exact ⟨_, _, fun _ _ => if_pos (by omega), he, .inl ⟨_, _, rfl, rfl⟩⟩

/-- **The two ways to the trailer agree** on a pack with the right header if and only if its footer
does not give a length that goes over. -/
theorem locators_agree_iff (lib : PackLib) (id : ObjectId) (bytes : Bytes)
    (hsize : bytes.length ≤ isizeMax) (hmagic : bytes.take headerLen = magic) :
    LocatorsAgree lib id bytes ↔ ¬FooterOverflows bytes := by
  constructor
  · rintro ⟨r, r', hindex, -⟩ hover
    have hsome := hindex (fun start stop => .ok ((bytes.drop start).take (stop - start)))
      fun _ _ _ _ => rfl
    rw [readPackIndex_overflows hover fun _ _ _ _ => rfl] at hsome
    cases hsome
  · intro hover
    by_cases hfooter : ∃ trailerLen, headerLen + footerLen ≤ bytes.length ∧
        parseFooter bytes = .ok trailerLen
    swap
    · exact locatorsAgree_of_no_footer hmagic fun trailerLen hlong hfooter' =>
        hfooter ⟨trailerLen, hlong, hfooter'⟩
    obtain ⟨trailerLen, hlong, hfooter⟩ := hfooter
    have hlen : footerLen + trailerLen < 2 ^ 64 :=
      not_le.1 fun h => hover ⟨hlong, trailerLen, hfooter, h⟩
    obtain ⟨hreject, hread⟩ :=
      @readTrailer_of_footer lib (.pack id) bytes trailerLen hlong hmagic hfooter
    have hindex := fun getRange (h : Serves bytes getRange) =>
      @readPackIndex_of_footer lib id bytes trailerLen getRange hlong hfooter hlen h
    by_cases hfits : TrailerFits bytes trailerLen
    · -- both decode the same bytes as the trailer, with the same end of the chunk data
      have hend : trailerStart bytes trailerLen + maxEntryLen < 2 ^ 64 := by
        have hmax : maxEntryLen < 2 ^ 63 := by decide
        unfold isizeMax at hsize
        unfold trailerStart
        omega
      obtain ⟨r, hr⟩ := Option.ne_none_iff_exists'.1
        (@decodeTrailer_ne_none lib (.pack id)
          ((bytes.drop (trailerStart bytes trailerLen)).take trailerLen) _ hend hfits.2)
      rw [hr] at hread hindex
      refine ⟨_, r, fun getRange h => (hindex getRange h).2 hfits, hread hfits, ?_⟩
      cases r with
      | error e => exact .inl ⟨e, e, rfl, rfl⟩
      | ok t => exact .inr ⟨t, rfl, rfl⟩
    · obtain ⟨e, he⟩ := hreject hfits
      exact ⟨_, _, fun getRange h => (hindex getRange h).1 hfits, he, .inl ⟨_, _, rfl, rfl⟩⟩

end Locators

/-! ### A pack whose footer goes over -/

/-- Libraries that put something in front of the data and leave it as it is otherwise. -/
def plainLib : PackLib where
  cbor := .exact
  zstd raw := some ([0x28, 0xb5, 0x2f, 0xfd] ++ raw)
  readAtMost data n := some ((data.drop 4).take n)
  sealChunk _ _ payload := some (List.replicate (chunkNonceLen + tagLen) 0 ++ payload)
  openChunk _ bytes := some (bytes.drop (chunkNonceLen + tagLen))
  sealPackTrailer _ plain := some (List.replicate (chunkNonceLen + tagLen) 0 ++ plain)
  openPackTrailer bytes := some (bytes.drop (chunkNonceLen + tagLen))
  chunkId plain := Cbor.ofBe plain % 256 ^ 32
  objectId := Cbor.ofBe

theorem lawful_plainLib : plainLib.Lawful where
  cbor := CborLib.faithful_exact
  readAtMost_zstd := by
    rintro plain data n ⟨⟩
    rfl
  openChunk_sealChunk := by
    rintro nonce id payload sealed ⟨⟩
    rfl
  length_sealChunk := by
    rintro nonce id payload sealed ⟨⟩
    rw [List.length_append, List.length_replicate, Nat.add_comm]
  openPackTrailer_sealPackTrailer := by
    rintro nonce plain sealed ⟨⟩
    rfl
  chunkId_lt _ := Nat.mod_lt _ (by norm_num)

/-- A pack without chunks that declares a trailer of this length. -/
def declares (trailerLen : ℕ) : Bytes := magic ++ Cbor.beBytes 8 trailerLen ++ magic

theorem footerOverflows_declares : FooterOverflows (declares (2 ^ 64 - 1)) :=
  ⟨by decide, 2 ^ 64 - 1, by decide, by decide⟩

theorem locators_agree_iff_declares :
    (LocatorsAgree plainLib 5 (declares 7) ↔ ¬FooterOverflows (declares 7)) ∧
      (LocatorsAgree plainLib 5 (declares (2 ^ 64 - 1)) ↔
        ¬FooterOverflows (declares (2 ^ 64 - 1))) :=
  ⟨locators_agree_iff plainLib 5 (declares 7) (by decide) (by decide),
    locators_agree_iff plainLib 5 (declares (2 ^ 64 - 1)) (by decide) (by decide)⟩

/-- Where the footer declares a trailer of `2 ^ 64 - 1` bytes, the two ways do not agree. -/
theorem not_locators_agree : ¬∀ (lib : PackLib) (id : ObjectId) (bytes : Bytes),
    bytes.length ≤ isizeMax → bytes.take headerLen = magic → LocatorsAgree lib id bytes := by
  intro h
  obtain ⟨r, r', hindex, -⟩ := h plainLib 5 (declares (2 ^ 64 - 1)) (by decide) (by decide)
  have hsome := hindex
    (fun start stop => .ok (((declares (2 ^ 64 - 1)).drop start).take (stop - start)))
    fun _ _ _ _ => rfl
  rw [readPackIndex_overflows footerOverflows_declares fun _ _ _ _ => rfl] at hsome
  cases hsome

end PackFile
end Kist
