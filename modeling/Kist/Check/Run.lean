import Kist.Reach

/-!
# Checking a repository

`kist-core::check`: whether the index blobs can be read, the packs are there and as long as the
index says, what the snapshots reference exists, and each replica has its primary; with `read_data`
also whether every pack holds what the index says, and with `repair` packs that do not hash to their
names are rebuilt from their parity.
-/

namespace Kist

/-- What `check` reports as an error. -/
inductive CheckError
  | index (e : CoreError)
  | missing (pack : ObjectId)
  | size (pack : ObjectId) (actual indexed : ℕ)
  | walk (e : WalkError)
  | fileSize (tree : TreeId) (node : Entry) (total : ℕ)
  | orphanReplica (tree : TreeId)
  | get (pack : ObjectId) (e : CoreError)
  | hash (pack : ObjectId)
  | parity (pack : ObjectId) (why : String)
  | notStuck (pack : ObjectId)
  | trailer (pack : ObjectId) (e : CoreError)
  | unindexed (pack : ObjectId) (chunk : ChunkId)
  | location (pack : ObjectId) (chunk : ChunkId)
  | outside (pack : ObjectId) (chunk : ChunkId)
  | chunk (pack : ObjectId) (chunk : ChunkId) (e : CoreError)
  | unlisted (pack : ObjectId) (chunk : ChunkId)
  deriving DecidableEq, Repr

/-- The pack with whose key the text of an error begins. -/
def CheckError.pack? : CheckError → Option ObjectId
  | .index _ | .walk _ | .fileSize .. | .orphanReplica _ => none
  | .missing pack | .size pack .. | .get pack _ | .hash pack | .parity pack _ | .notStuck pack
  | .trailer pack _ | .unindexed pack _ | .location pack _ | .outside pack _ | .chunk pack ..
  | .unlisted pack _ => some pack

/-- What `check` reports as a warning. -/
inductive CheckWarning
  | unreferenced (pack : ObjectId)
  | noReplica (tree : TreeId)
  deriving DecidableEq, Repr

/-- `CheckOptions`. -/
structure CheckOptions where
  readData : Bool
  repair : Bool

/-- `CheckReport`. -/
structure CheckReport where
  snapshots : ℕ := 0
  trees : ℕ := 0
  packs : ℕ := 0
  chunks : ℕ := 0
  errors : List CheckError := []
  warnings : List CheckWarning := []
  repaired : List ObjectId := []
  unrepairable : List ObjectId := []

/-- Errors more. -/
def CheckReport.fail (report : CheckReport) (es : List CheckError) : CheckReport :=
  { report with errors := report.errors ++ es }

/-- What `check` reads off the bytes of a pack: their hash, the trailer, and the pack that its
parity makes of them. -/
structure PackBytes where
  hash : Pack → ObjectId
  readTrailer : Pack → Except CoreError (List PackEntry)
  repair : ObjectId → Pack → Except String Pack

/-- `ChunkIndex::chunks`. -/
def ChunkIndex.chunks (index : ChunkIndex) : List (ChunkId × ChunkLocation) :=
  index.overlay.entries.map (fun e => (e.1, e.2)) ++
    (index.base.elim [] DiskTable.records |>.filter fun r => (index.overlay.lookup r.id).isNone).map
      fun r => (r.id, r.location)

/-- `ChunkIndex::len`. -/
def ChunkIndex.len (index : ChunkIndex) : ℕ :=
  (index.base.elim [] DiskTable.records).length + index.overlay.entries.length -
    (index.overlay.keys.filter fun id => (index.baseGet id).isSome).length

namespace Repository

variable (repo : Repository)

/-! ### Without the data -/

/-- The loop of `load_index_blobs`, which goes on past a blob that cannot be read. -/
def readIndexBlobsLenient : List ObjectId → List CoreError × List (ObjectId × IndexBlob)
  | [] => ([], [])
  | id :: ids =>
    let (errors, blobs) := readIndexBlobsLenient ids
    match repo.readIndexBlob id with
    | .error e => (e :: errors, blobs)
    | .ok blob => (errors, (id, blob) :: blobs)

/-- `load_index_lenient`: the index of the blobs that can be read, and why the others cannot. -/
def loadIndexLenient : List CoreError × ChunkIndex :=
  let (errors, blobs) := repo.readIndexBlobsLenient repo.store.indexes.keys
  (errors, loadIndex blobs)

/-- The second step: a pack of the index is there, and as long as the index says. -/
def checkPack (pack : ObjectId) (size : ℕ) : List CheckError :=
  match repo.store.packs.lookup pack with
  | none => [.missing pack]
  | some p => if p.size ≠ size then [.size pack p.size size] else []

/-- The sum that the visit to a file compares with its size; a sum beyond 64 bits stays at the
largest number. -/
def sumLengths (index : ChunkIndex) (data : List ChunkId) : ℕ :=
  data.foldl (fun sum c => (index.get c).elim sum fun loc => min (sum + loc.rawLen) (2 ^ 64 - 1)) 0

/-- What the visit to a file reports. -/
def checkVisit (index : ChunkIndex) (f : FileVisit) : List CheckError :=
  let sum := sumLengths index f.dataChunks
  if f.dataChunks.all index.contains ∧ sum ≠ f.node.size then [.fileSize f.treeKey f.node sum]
  else []

/-! ### The data -/

variable (lib : PackBytes) (index : ChunkIndex)

/-- The place of a chunk in the index, if it is in this pack. -/
def expectedIn (pack : ObjectId) (c : ChunkId) : Option ChunkLocation :=
  (index.get c).filter fun loc => loc.pack = pack

/-- An entry of the trailer against the index, and the chunk that it points to. -/
def checkEntry (pack : ObjectId) (p : Pack) (entry : PackEntry) : List CheckError :=
  (match expectedIn index pack entry.id with
    | none => if index.contains entry.id then [] else [.unindexed pack entry.id]
    | some loc =>
      if loc.offset ≠ entry.offset ∨ loc.length ≠ entry.length ∨ loc.rawLen ≠ entry.rawLen then
        [.location pack entry.id]
      else []) ++
  match p.getRange entry.offset entry.length with
  | none => [.outside pack entry.id]
  | some bytes =>
    match repo.decodeChunk entry.id bytes entry.rawLen (.pack pack) with
    | .error e => [.chunk pack entry.id e]
    | .ok _ => []

/-- The checks of `check_pack_data` on the content of a pack. -/
def checkContent (pack : ObjectId) (p : Pack) : List CheckError :=
  match lib.readTrailer p with
  | .error e => [.trailer pack e]
  | .ok entries =>
    entries.flatMap (repo.checkEntry index pack p) ++
      ((index.chunks.filter fun c => c.2.pack = pack ∧ c.1 ∉ entries.map PackEntry.id).map fun c =>
        .unlisted pack c.1)

/-- `check_pack_data`. -/
def checkPackData (repair : Bool) (pack : ObjectId) (report : CheckReport) :
    CheckReport × Repository :=
  match repo.store.packs.lookup pack with
  | none => (report.fail [.get pack (.notFound (.pack pack))], repo)
  | some p =>
    if lib.hash p = pack then (report.fail (repo.checkContent lib index pack p), repo)
    else if !repair then (report.fail [.hash pack], repo)
    else match lib.repair pack p with
      | .error why =>
        ({ report.fail [.parity pack why] with unrepairable := report.unrepairable ++ [pack] },
          repo)
      | .ok fixed =>
        let repo := { repo with store.packs := repo.store.packs.insert pack fixed }
        -- what was said of the damaged pack is taken back
        let report := { report with
          repaired := report.repaired ++ [pack]
          errors := report.errors.filter fun e => e.pack? ≠ some pack }
        if lib.hash fixed = pack then (report.fail (repo.checkContent lib index pack fixed), repo)
        else (report.fail [.notStuck pack], repo)

/-- The packs one after the other. -/
def checkPacksData (repair : Bool) : List ObjectId → CheckReport → Repository →
    CheckReport × Repository
  | [], report, repo => (report, repo)
  | pack :: packs, report, repo =>
    let (report, repo) := repo.checkPackData lib index repair pack report
    checkPacksData repair packs report repo

/-! ### The check -/

/-- The steps of `check` before the data. -/
def checkMetadata : CheckReport :=
  let (indexErrors, index) := repo.loadIndexLenient
  let reach := repo.reachability index
  { snapshots := repo.listSnapshotKeys.length
    trees := reach.liveTrees.card
    packs := index.packs.entries.length
    chunks := index.len
    errors := indexErrors.map .index ++
      index.packs.entries.flatMap (fun e => repo.checkPack e.1 e.2) ++
      reach.errors.map .walk ++ reach.visits.flatMap (checkVisit index) ++
      (repo.store.treeReplicas.keys.filter fun id => id ∉ repo.store.trees.keys).map .orphanReplica
    warnings := (repo.store.packs.keys.filter fun id => id ∉ index.packs.keys).map .unreferenced ++
      if repo.config.replicas > 0 then
        (reach.liveTrees.sort.filter fun id => id ∉ repo.store.treeReplicas.keys).map .noReplica
      else [] }

/-- `check`, with the repository as the repair leaves it. -/
def check (opts : CheckOptions) : CheckReport × Repository :=
  if opts.readData || opts.repair then
    checkPacksData lib repo.loadIndexLenient.2 opts.repair repo.loadIndexLenient.2.packs.keys
      repo.checkMetadata repo
  else (repo.checkMetadata, repo)

end Repository

end Kist
