import Kist.Cache
import Kist.Format.TreeCodec
import Kist.Lib.TableStream
import Kist.Storage

/-!
# The file of the index table

`DiskTable` as the bytes of a file: a header with the number of records, and records of a fixed
length in the order of their chunks. The modules above this one use the table as a sorted list of
records.

* `Holds.get_eq`, `Holds.iter_eq`: a table that was written is read as the list of its records;
* `CacheFiles.write_error`: a failure of the old table leaves the directory as it is;
* `CacheFiles.write_shows`: without one the files show what the index cache has written;
* `open_size_iff`: when a file that is opened has the size that its header tells.
-/

namespace Kist

open SortedTable Cbor

/-- The lowest `k` bytes of a number, the least significant one first. -/
def leBytes (k n : ℕ) : Bytes := (beBytes k n).reverse

/-- The number that bytes spell, the least significant one first. -/
def ofLe (bs : Bytes) : ℕ := ofBe bs.reverse

theorem length_leBytes {k n : ℕ} : (leBytes k n).length = k := by
  rw [leBytes, List.length_reverse, length_beBytes]

theorem ofLe_leBytes {k n : ℕ} (h : n < 256 ^ k) : ofLe (leBytes k n) = n := by
  rw [ofLe, leBytes, List.reverse_reverse, ofBe_beBytes h]

theorem drop_beBytes {k n i : ℕ} (h : k ≤ i) : (beBytes k n).drop i = [] :=
  List.drop_eq_nil_of_le (length_beBytes.trans_le h)

theorem drop_leBytes {k n i : ℕ} (h : k ≤ i) : (leBytes k n).drop i = [] :=
  List.drop_eq_nil_of_le (length_leBytes.trans_le h)

/-! ### Records -/

namespace TableRecord

/-- `TableRecord::encode`. -/
def encode (r : TableRecord) : Bytes :=
  beBytes 32 r.id ++ beBytes 32 r.location.pack ++ leBytes 8 r.location.offset ++
    leBytes 8 r.location.length ++ leBytes 8 r.location.rawLen ++ List.replicate 8 0

/-- `TableRecord::decode`. -/
def decode (b : Bytes) : TableRecord where
  id := ofBe (b.take 32)
  location :=
    { pack := ofBe ((b.drop 32).take 32)
      offset := ofLe ((b.drop 64).take 8)
      length := ofLe ((b.drop 72).take 8)
      rawLen := ofLe ((b.drop 80).take 8) }

/-- Names of 32 bytes and numbers of 64 bits. -/
structure Fits (r : TableRecord) : Prop where
  id : r.id < 2 ^ 256
  pack : r.location.pack < 2 ^ 256
  offset : r.location.offset < 2 ^ 64
  length : r.location.length < 2 ^ 64
  rawLen : r.location.rawLen < 2 ^ 64

theorem length_encode (r : TableRecord) : r.encode.length = 96 := by
  simp [encode, length_leBytes]

theorem decode_encode {r : TableRecord} (h : r.Fits) : decode r.encode = r := by
  have hid := ofBe_beBytes (k := 32) (h.id.trans_eq (by norm_num))
  have hpack := ofBe_beBytes (k := 32) (h.pack.trans_eq (by norm_num))
  have hoffset := ofLe_leBytes (k := 8) (h.offset.trans_eq (by norm_num))
  have hlength := ofLe_leBytes (k := 8) (h.length.trans_eq (by norm_num))
  have hrawLen := ofLe_leBytes (k := 8) (h.rawLen.trans_eq (by norm_num))
  simp [decode, encode, List.drop_append, length_leBytes, drop_beBytes, drop_leBytes, hid, hpack,
    hoffset, hlength, hrawLen]

end TableRecord

/-! ### The table -/

/-- `DiskTable`: an open file, and the number of records that its header tells. -/
structure TableFile where
  file : Bytes
  len : ℕ
  deriving DecidableEq

namespace TableFile

/-- `TABLE_MAGIC`. -/
def tableMagic : Bytes := ascii ['K', 'I', 'S', 'T', 'I', 'D', 'X', '1']

/-- `TABLE_VERSION`. -/
def tableVersion : ℕ := 2

/-- `HEADER_LEN`. -/
def headerLen : ℕ := 32

/-- `RECORD_LEN`. -/
def recordLen : ℕ := 96

/-- The header of a table of `count` records. -/
def header (count : ℕ) : Bytes :=
  tableMagic ++ leBytes 4 tableVersion ++ List.replicate 4 0 ++ leBytes 8 count ++
    List.replicate 8 0

/-- `DiskTable::open`. The sum and the product are those of 64 bits, which wrap around. -/
def open_ (file : Bytes) : Except CoreError TableFile :=
  let corrupt (reason : String) : Except CoreError TableFile :=
    .error (.corrupt (.other "index.tbl") reason)
  if file.length < headerLen then corrupt "index cache too short"
  else if file.take 8 ≠ tableMagic then corrupt "not an index cache table"
  else if ofLe ((file.drop 8).take 4) ≠ tableVersion then
    corrupt "unsupported index cache version"
  else
    let len := ofLe ((file.drop 16).take 8)
    if file.length ≠ (headerLen + len * recordLen) % 2 ^ 64 then
      corrupt "index cache size does not match its record count"
    else .ok ⟨file, len⟩

/-- `DiskTable::read_record`. -/
def readRecord (t : TableFile) (i : ℕ) : Except CoreError TableRecord :=
  let offset := (headerLen + i * recordLen) % 2 ^ 64
  if t.file.length < offset + recordLen then .error (.io [] "<index cache>")
  else .ok (TableRecord.decode ((t.file.drop offset).take recordLen))

/-- The loop of `DiskTable::get`. -/
def getLoop (t : TableFile) (id : ChunkId) (lo hi : ℕ) :
    Except CoreError (Option ChunkLocation) :=
  if lo < hi then
    let mid := lo + (hi - lo) / 2
    match t.readRecord mid with
    | .error e => .error e
    | .ok r =>
      if r.id < id then getLoop t id (mid + 1) hi
      else if id < r.id then getLoop t id lo mid
      else .ok (some r.location)
  else .ok none
termination_by hi - lo

/-- `DiskTable::get`. -/
def get (t : TableFile) (id : ChunkId) : Except CoreError (Option ChunkLocation) :=
  t.getLoop id 0 t.len

/-- `DiskTable::iter`. -/
def iter (t : TableFile) : List (Except CoreError TableRecord) :=
  (List.range t.len).map t.readRecord

/-- The loop of `DiskTable::build_sorted`: the bytes of the records, and their number. -/
def writeRecords : List (Except CoreError TableRecord) → Except CoreError (Bytes × ℕ)
  | [] => .ok ([], 0)
  | record :: records => do
    let r ← record
    let (bytes, count) ← writeRecords records
    return (r.encode ++ bytes, count + 1)

/-- The file that `DiskTable::build_sorted` puts into place. -/
def buildSorted (records : List (Except CoreError TableRecord)) : Except CoreError Bytes := do
  let (bytes, count) ← writeRecords records
  return header count ++ bytes

/-- `DiskTable::build`, where no file operation fails. -/
def build (records : List TableRecord) : Except CoreError TableFile :=
  match buildSorted ((sortDedup TableRecord.id records).map .ok) with
  | .error e => .error e
  | .ok file => open_ file

end TableFile

/-- The files of the cache directory. -/
structure CacheFiles where
  table : Option Bytes
  manifest : Option Manifest

/-- `IndexCache::write`, where no file operation fails but the reads of the old table. -/
def CacheFiles.write (dir : CacheFiles) (newRecords : List TableRecord) (blobs : List ObjectId)
    (packs : List (ObjectId × ℕ)) (old : Option TableFile) :
    Except CoreError TableFile × CacheFiles :=
  let records := match old with
    | some t => mergeStream TableRecord.id t.iter newRecords
    | none => newRecords.map .ok
  match TableFile.buildSorted records with
  | .error e => (.error e, dir)
  | .ok file =>
    let dir := { dir with table := some file }
    match TableFile.open_ file with
    | .error e => (.error e, dir)
    | .ok t => (.ok t, { dir with manifest := some ⟨manifestVersion, blobs, packs⟩ })

/-! ### A file that was written -/

namespace TableFile

theorem length_header (count : ℕ) : (header count).length = headerLen := by
  simp [header, tableMagic, ascii, length_leBytes, headerLen]

theorem header_count {count : ℕ} (h : count < 2 ^ 64) (rest : Bytes) :
    ofLe (((header count ++ rest).drop 16).take 8) = count := by
  have hcount := ofLe_leBytes (k := 8) (h.trans_eq (by norm_num))
  simp [header, tableMagic, ascii, List.drop_append, length_leBytes, drop_leBytes, hcount]

theorem header_magic (count : ℕ) (rest : Bytes) :
    (header count ++ rest).take 8 = tableMagic := by
  simp [header, tableMagic, ascii]

theorem header_version (count : ℕ) (rest : Bytes) :
    ofLe (((header count ++ rest).drop 8).take 4) = tableVersion := by
  have hversion := ofLe_leBytes (k := 4) (show tableVersion < 256 ^ 4 by decide)
  simp [header, tableMagic, ascii, List.drop_append, length_leBytes, hversion]

theorem writeRecords_eq (records : List (Except CoreError TableRecord)) :
    writeRecords records = (collect records).map fun rs =>
      (rs.flatMap TableRecord.encode, rs.length) := by
  induction records with
  | nil => rfl
  | cons record records ih =>
    cases record with
    | error e => rfl
    | ok r =>
      rw [writeRecords, ih, collect]
      cases collect records <;> rfl

theorem buildSorted_eq (records : List (Except CoreError TableRecord)) :
    buildSorted records = (collect records).map fun rs =>
      header rs.length ++ rs.flatMap TableRecord.encode := by
  rw [buildSorted, writeRecords_eq]
  cases collect records <;> rfl

/-- The record at a position of a row of records. -/
theorem slice_flatMap_encode {rs : List TableRecord} {i : ℕ} (h : i < rs.length) :
    ((rs.flatMap TableRecord.encode).drop (i * recordLen)).take recordLen = rs[i].encode := by
  induction rs generalizing i with
  | nil => cases h
  | cons r rs ih =>
    have hlen : r.encode.length = recordLen := r.length_encode
    cases i with
    | zero => simp [hlen]
    | succ i =>
      have hdrop : (r.encode ++ rs.flatMap TableRecord.encode).drop ((i + 1) * recordLen) =
          (rs.flatMap TableRecord.encode).drop (i * recordLen) := by
        rw [List.drop_append, List.drop_eq_nil_of_le (by rw [hlen]; nlinarith), List.nil_append,
          hlen, Nat.succ_mul, Nat.add_sub_cancel]
      rw [List.flatMap_cons, hdrop, ih (Nat.lt_of_succ_lt_succ h)]
      rfl

theorem length_flatMap_encode (rs : List TableRecord) :
    (rs.flatMap TableRecord.encode).length = rs.length * recordLen := by
  induction rs with
  | nil => rfl
  | cons r rs ih =>
    rw [List.flatMap_cons, List.length_append, ih, r.length_encode, List.length_cons,
      Nat.succ_mul, Nat.add_comm]
    rfl

/-- The records of an open file are those of a list. -/
structure Holds (t : TableFile) (rs : List TableRecord) : Prop where
  len : t.len = rs.length
  read : ∀ i (h : i < rs.length), t.readRecord i = .ok rs[i]

/-- A file that was written is opened, and its records are read. -/
theorem open_written {rs : List TableRecord} (hfits : ∀ r ∈ rs, r.Fits)
    (hsize : headerLen + rs.length * recordLen < 2 ^ 64) :
    ∃ t, open_ (header rs.length ++ rs.flatMap TableRecord.encode) = .ok t ∧ t.Holds rs := by
  have hcount : rs.length < 2 ^ 64 := by
    unfold recordLen at hsize
    omega
  have hlen : (header rs.length ++ rs.flatMap TableRecord.encode).length =
      headerLen + rs.length * recordLen := by
    rw [List.length_append, length_header, length_flatMap_encode]
  refine ⟨⟨header rs.length ++ rs.flatMap TableRecord.encode, rs.length⟩, ?_, rfl,
    fun i hi => ?_⟩
  · unfold open_
    dsimp only
    rw [header_magic, header_version, header_count hcount, hlen, Nat.mod_eq_of_lt hsize]
    simp
  · have hoffset : (headerLen + i * recordLen) % 2 ^ 64 = headerLen + i * recordLen :=
      Nat.mod_eq_of_lt (by unfold recordLen at hsize ⊢; omega)
    have hdrop : (header rs.length ++ rs.flatMap TableRecord.encode).drop
        (headerLen + i * recordLen) = (rs.flatMap TableRecord.encode).drop (i * recordLen) := by
      rw [← length_header rs.length, List.drop_append]
      simp
    unfold readRecord
    dsimp only
    rw [hoffset, hlen, hdrop, slice_flatMap_encode hi, if_neg,
      TableRecord.decode_encode (hfits _ (List.getElem_mem hi))]
    unfold recordLen
    omega

variable {t : TableFile} {rs : List TableRecord}

theorem Holds.iter_eq (h : t.Holds rs) : t.iter = rs.map .ok := by
  refine List.ext_getElem (by simp [iter, h.len]) fun i hi hi' => ?_
  rw [List.length_map] at hi'
  simp [iter, h.read i hi']

/-- The search in the file is the search in the list of its records. -/
theorem Holds.getLoop_eq (h : t.Holds rs) (id : ChunkId) {n lo hi : ℕ} (hhi : hi ≤ rs.length)
    (hn : hi - lo < n) : t.getLoop id lo hi =
      .ok ((searchLoop TableRecord.id rs id n lo hi).map TableRecord.location) := by
  induction n generalizing lo hi with
  | zero => exact absurd hn (Nat.not_lt_zero _)
  | succ n ih =>
    rw [getLoop, searchLoop]
    split_ifs with hlt
    · have hmid : lo + (hi - lo) / 2 < rs.length := by omega
      dsimp only
      rw [h.read _ hmid, List.getElem?_eq_getElem hmid]
      dsimp only
      split_ifs with hless hgreater
      · exact ih hhi (by omega)
      · exact ih (by omega) (by omega)
      · rfl
    · rfl

/-- **Lookup.** -/
theorem Holds.get_eq (h : t.Holds rs) (hsorted : Sorted TableRecord.id rs) (id : ChunkId) :
    t.get id = .ok ((rs.find? fun r => r.id = id).map TableRecord.location) := by
  rw [get, h.len, h.getLoop_eq id le_rfl (Nat.lt_succ_of_le (Nat.sub_le _ _))]
  exact congrArg (fun r => Except.ok (Option.map TableRecord.location r))
    (search_eq_find? TableRecord.id hsorted id)

/-- The file stands for the table of its records. -/
theorem Holds.get_table {table : DiskTable} (h : t.Holds table.records) (id : ChunkId) :
    t.get id = .ok (table.get id) := by
  rw [h.get_eq table.sorted, DiskTable.get, search_eq_find? TableRecord.id table.sorted]

/-- Records of a table: names of 32 bytes and numbers of 64 bits, and no more of them than a file
can have, whose size is a number of 64 bits. -/
structure Buildable (records : List TableRecord) : Prop where
  fits : ∀ r ∈ records, r.Fits
  size : headerLen + records.length * recordLen < 2 ^ 64

/-- Records in memory, where each takes 88 bytes and a vector has less than `2 ^ 63`, fit a file. -/
theorem buildable_of_vec {records : List TableRecord} (h : ∀ r ∈ records, r.Fits)
    (hvec : records.length * 88 < 2 ^ 63) : Buildable records where
  fits := h
  size := by
    unfold headerLen recordLen
    omega

theorem build_ok {records : List TableRecord} (h : Buildable records) :
    ∃ t, build records = .ok t ∧ t.Holds (sortDedup TableRecord.id records) := by
  have hlen : (sortDedup TableRecord.id records).length ≤ records.length := by
    have hsort := (List.perm_insertionSort (fun a b => TableRecord.id a ≤ TableRecord.id b)
      records).length_eq
    exact (List.destutter_sublist _ _).length_le.trans hsort.le
  obtain ⟨t, hopen, hholds⟩ := open_written
    (fun r hr => h.fits r (mem_of_mem_sortDedup TableRecord.id hr))
    (lt_of_le_of_lt (Nat.add_le_add_left (Nat.mul_le_mul_right _ hlen) _) h.size)
  refine ⟨t, ?_, hholds⟩
  rw [build, buildSorted_eq, collect_ok]
  dsimp only [Except.map]
  exact hopen

end TableFile

/-! ### A file that was merged -/

namespace CacheFiles

variable {dir : CacheFiles} {new : List TableRecord} {blobs : List ObjectId}
  {packs : List (ObjectId × ℕ)} {t : TableFile}

/-- **A failure of the old table.** The first one is returned, and the directory stays as it is. -/
theorem write_error {front : List TableRecord} {e : CoreError}
    {rest : List (Except CoreError TableRecord)}
    (h : t.iter = front.map .ok ++ .error e :: rest) :
    dir.write new blobs packs (some t) = (.error e, dir) := by
  unfold write
  dsimp only
  rw [TableFile.buildSorted_eq, h, collect_mergeStream_error]
  rfl

/-- **No failure.** The file that is put into place holds the records. -/
theorem write_records {old : Option TableFile} {rs : List TableRecord}
    (h : (match old with
      | some t => mergeStream TableRecord.id t.iter new
      | none => new.map .ok) = rs.map .ok) (hbuild : TableFile.Buildable rs) :
    ∃ t file, t.Holds rs ∧ TableFile.open_ file = .ok t ∧ dir.write new blobs packs old =
      (.ok t, ⟨some file, some ⟨manifestVersion, blobs, packs⟩⟩) := by
  obtain ⟨t, hopen, hholds⟩ := TableFile.open_written hbuild.fits hbuild.size
  refine ⟨t, TableFile.header rs.length ++ rs.flatMap TableRecord.encode, hholds, hopen, ?_⟩
  unfold write
  rw [h]
  dsimp only
  rw [TableFile.buildSorted_eq, collect_ok]
  dsimp only [Except.map]
  rw [hopen]

/-- The table that is put into place after a merge. -/
theorem write_ok {old : List TableRecord} (h : t.iter = old.map .ok)
    (hbuild : TableFile.Buildable (mergeNew TableRecord.id old new)) :
    ∃ t' file, t'.Holds (mergeNew TableRecord.id old new) ∧
      dir.write new blobs packs (some t) =
        (.ok t', ⟨some file, some ⟨manifestVersion, blobs, packs⟩⟩) := by
  have hmerge : mergeStream TableRecord.id t.iter new =
      (mergeNew TableRecord.id old new).map .ok := by rw [h, mergeStream_ok]
  obtain ⟨t', file, hholds, -, hwrite⟩ := @write_records dir new blobs packs (some t) _ hmerge
    hbuild
  exact ⟨t', file, hholds, hwrite⟩

/-- The files of a cache directory show what the index cache has of them: the same manifest, and a
table that is the list of its records. -/
structure Shows (files : CacheFiles) (dir : IndexCache) : Prop where
  manifest : files.manifest = dir.manifest
  table : ∀ table, dir.table = some table → ∃ file t, files.table = some file ∧
    TableFile.open_ file = .ok t ∧ t.Holds table.records
  missing : dir.table = none → ∀ file ∈ files.table, ∀ t, TableFile.open_ file ≠ .ok t

/-- **The files of the index cache.** Where no read of the old table fails, the files that `write`
puts into place show what the cache has after its two renames, and the table that is opened gives
for each chunk what the table of the cache gives. -/
theorem write_shows (hnew : Sorted TableRecord.id new) {old : Option TableFile}
    {table : Option DiskTable} {update : CacheUpdate}
    (hold : Option.Rel (fun t table => t.Holds table.records) old table)
    (hupdate : (IndexCache.write new hnew blobs packs table).update = some update)
    (hbuild : TableFile.Buildable update.table.records) (cache : IndexCache) :
    ∃ t files, dir.write new blobs packs old = (.ok t, files) ∧
      files.Shows ((cache.putTable update).putManifest update) ∧
        ∀ id, t.get id = .ok (update.table.get id) := by
  have hrecords : (match old with
      | some t => mergeStream TableRecord.id t.iter new
      | none => new.map .ok) = update.table.records.map (.ok (ε := CoreError)) := by
    cases hold with
    | none =>
      cases hupdate
      rfl
    | some hholds =>
      cases hupdate
      dsimp only
      rw [hholds.iter_eq, mergeStream_ok]
  have hmanifest : update.manifest = ⟨manifestVersion, blobs, packs⟩ := by
    cases hold <;> cases hupdate <;> rfl
  obtain ⟨t, file, hholds, hopen, hwrite⟩ := write_records hrecords hbuild
  refine ⟨t, _, hwrite, ⟨congrArg some hmanifest.symm, fun table htable => ?_, nofun⟩,
    hholds.get_table⟩
  cases htable
  exact ⟨file, t, rfl, hopen, hholds⟩

end CacheFiles

/-! ### The size of a file that is opened -/

namespace TableFile

/-- The header of a file tells of so many records that their size wraps around, to the size of the
file. -/
structure Wraps (file : Bytes) : Prop where
  header : headerLen ≤ file.length
  magic : file.take 8 = tableMagic
  version : ofLe ((file.drop 8).take 4) = tableVersion
  size : file.length = (headerLen + ofLe ((file.drop 16).take 8) * recordLen) % 2 ^ 64
  large : 2 ^ 64 ≤ headerLen + ofLe ((file.drop 16).take 8) * recordLen

theorem open_ok_iff {file : Bytes} : open_ file = .ok t ↔ headerLen ≤ file.length ∧
    file.take 8 = tableMagic ∧ ofLe ((file.drop 8).take 4) = tableVersion ∧
      file.length = (headerLen + ofLe ((file.drop 16).take 8) * recordLen) % 2 ^ 64 ∧
        t = ⟨file, ofLe ((file.drop 16).take 8)⟩ := by
  unfold open_
  dsimp only
  constructor
  · intro h
    split_ifs at h with hshort hmagic hversion hsize
    cases h
    exact ⟨not_lt.1 hshort, not_not.1 hmagic, not_not.1 hversion, not_not.1 hsize, rfl⟩
  · rintro ⟨hshort, hmagic, hversion, hsize, rfl⟩
    rw [if_neg (not_lt.2 hshort), if_neg (not_not.2 hmagic), if_neg (not_not.2 hversion),
      if_neg (not_not.2 hsize)]

/-- A file that is opened has the size that its header tells, unless the size wraps around. -/
theorem open_size_iff {file : Bytes} :
    (∀ t, open_ file = .ok t → file.length = headerLen + t.len * recordLen) ↔ ¬Wraps file := by
  constructor
  · rintro hall ⟨hshort, hmagic, hversion, hsize, hlarge⟩
    have hequal := hall _ (open_ok_iff.2 ⟨hshort, hmagic, hversion, hsize, rfl⟩)
    dsimp only at hequal
    omega
  · intro hnot t ht
    obtain ⟨hshort, hmagic, hversion, hsize, rfl⟩ := open_ok_iff.1 ht
    have hsmall := not_le.1 fun hlarge => hnot ⟨hshort, hmagic, hversion, hsize, hlarge⟩
    rwa [Nat.mod_eq_of_lt hsmall] at hsize

end TableFile

/-- **The table on disk.** A table that was built finds the first record of each chunk and lists its
records in the order of the chunks. A write that merges an old table ends in the first failure of
the old table and changes nothing, or puts the union into place, in which the new records win. And
a file that is opened has the size of its records, unless that size wraps around. -/
theorem table_file_spec (file : Bytes) :
    (∀ records : List TableRecord, (∀ r ∈ records, r.Fits) → records.length * 88 < 2 ^ 63 →
        ∃ t, TableFile.build records = .ok t ∧
          (∀ id, t.get id = .ok ((records.find? fun r => r.id = id).map TableRecord.location)) ∧
          ∃ rs, t.iter = rs.map .ok ∧ Sorted TableRecord.id rs) ∧
      (∀ (dir : CacheFiles) (t : TableFile) front new blobs packs, Sorted TableRecord.id new →
        (∀ e rest, t.iter = front.map .ok ++ .error e :: rest →
          dir.write new blobs packs (some t) = (.error e, dir)) ∧
        (t.iter = front.map .ok → Sorted TableRecord.id front →
          TableFile.Buildable (mergeNew TableRecord.id front new) →
            ∃ t' file' rs, dir.write new blobs packs (some t) =
                (.ok t', ⟨some file', some ⟨manifestVersion, blobs, packs⟩⟩) ∧
              t'.iter = rs.map .ok ∧ Sorted TableRecord.id rs ∧
                ∀ r, r ∈ rs ↔ r ∈ new ∨ r ∈ front ∧ ∀ n ∈ new, n.id ≠ r.id)) ∧
      ((∀ t, TableFile.open_ file = .ok t →
          file.length = TableFile.headerLen + t.len * TableFile.recordLen) ↔
        ¬TableFile.Wraps file) := by
  refine ⟨fun records hfits hvec => ?_, fun dir t front new blobs packs hnew => ⟨fun e rest h => ?_,
    fun h hfront hbuild => ?_⟩, TableFile.open_size_iff⟩
  · obtain ⟨t, hopen, hholds⟩ := TableFile.build_ok (TableFile.buildable_of_vec hfits hvec)
    refine ⟨t, hopen, fun id => ?_, _, hholds.iter_eq, sorted_sortDedup _ _⟩
    have hfirst := find?_sortDedup TableRecord.id records id
    rw [hholds.get_eq (sorted_sortDedup _ _), hfirst]
  · exact CacheFiles.write_error h
  · obtain ⟨t', file', hholds, hwrite⟩ := CacheFiles.write_ok h hbuild
    exact ⟨t', file', _, hwrite, hholds.iter_eq, sorted_mergeNew _ hfront hnew,
      fun r => mem_mergeNew _ hfront hnew⟩

/-- A header without records that tells of `2 ^ 59` of them is opened. -/
theorem open_wraps_around :
    TableFile.open_ (TableFile.header (2 ^ 59)) = .ok ⟨TableFile.header (2 ^ 59), 2 ^ 59⟩ ∧
      (TableFile.header (2 ^ 59)).length = 32 ∧
        ((⟨TableFile.header (2 ^ 59), 2 ^ 59⟩ : TableFile).readRecord 0) =
          .error (.io [] "<index cache>") := by
  decide

end Kist
