import Kist.KeyTime
import Kist.Mount.Lru
import Kist.Mount.Offsets
import Kist.Mount.VirtualRoot
import Kist.Restore.Walk

/-!
# The core of a mount

`FsCore` of `kist-mount::corefs`: a table of inodes that grows as names are looked up, the listings
of the directories that are open, the index, and the cache of chunks. Several operations may be
under way at once: a lookup reads the repository first and enters its result into the table then,
and the two halves are separate here.
-/

namespace Kist

open Checked (Fault at_ slice)

/-! ### The index -/

namespace ReloadableIndex

/-- `store`. -/
def store (r : ReloadableIndex) (index : ChunkIndex) : ReloadableIndex := { r with index }

/-- `raw_len_reloading`. -/
def rawLen (env : IndexLoads) (r : ReloadableIndex) (id : ChunkId) :
    Except CoreError (Option ℕ) × ReloadableIndex :=
  match r.index.get id with
  | some loc => (.ok (some loc.rawLen), r)
  | none =>
    match r.reload env with
    | (.error e, r) => (.error e, r)
    | (.ok (), r) => (.ok ((r.index.get id).map ChunkLocation.rawLen), r)

end ReloadableIndex

/-! ### Inodes -/

/-- `Kind`. -/
inductive FsKind
  | file
  | dir
  | symlink
  deriving DecidableEq, Repr

/-- `Attr`. -/
structure Attr where
  kind : FsKind
  perm : ℕ
  size : ℕ
  uid : ℕ
  gid : ℕ
  mtimeNs : ℤ
  ctimeNs : ℤ
  deriving DecidableEq, Repr

/-- `Attr::dir`. -/
def Attr.dir (mtimeNs : ℤ) : Attr := ⟨.dir, 0o555, 0, 0, 0, mtimeNs, mtimeNs⟩

/-- `FsError`. -/
inductive FsError
  | notFound
  | io
  | invalidInput
  | badHandle
  deriving DecidableEq, Repr

/-- The number of an inode. It has 64 bits in the source, more than a table can have rows. -/
abbrev Ino := ℕ

/-- `Node`. What a file was resolved to is kept apart, see `FsCore.resolved`. -/
inductive Node
  | root
  | client (client : List Char)
  | syntheticDir (vroot : VirtualRoot) (levelKey : Bytes)
  | dir (entries : List Entry)
  | file (chunks : List ChunkId) (content : ContentType)
  | symlink (target : Bytes)

/-- `Inode`. -/
structure Inode where
  node : Node
  attr : Attr
  isVolatile : Bool
  xattrs : Option (List (Bytes × Bytes))

/-- `InodeTable`. -/
structure InodeTable where
  next : Ino
  map : Dict Ino Inode
  names : Dict (Ino × Bytes) Ino

namespace InodeTable

variable (t : InodeTable)

/-- `insert`. -/
def insert (inode : Inode) : Ino × InodeTable :=
  (t.next + 1, { t with next := t.next + 1, map := t.map.insert (t.next + 1) inode })

/-- `with_root`. -/
def withRoot : InodeTable := (insert ⟨0, ∅, ∅⟩ ⟨.root, .dir 0, true, none⟩).2

/-- `known`. -/
def known (parent : Ino) (name : Bytes) : Option Ino := t.names.lookup (parent, name)

/-- `insert_named`. -/
def insertNamed (parent : Ino) (name : Bytes) (inode : Inode) : Ino × InodeTable :=
  match t.known parent name with
  | some ino => (ino, t)
  | none =>
    let (ino, t) := t.insert inode
    (ino, { t with names := t.names.insert (parent, name) ino })

end InodeTable

/-- `VOLATILE_TTL`, in seconds. -/
def volatileTtl : ℕ := 1

/-- `IMMUTABLE_TTL`, in seconds. -/
def immutableTtl : ℕ := 24 * 3600

/-- `ttl_of`. -/
def ttlOf (isVolatile : Bool) : ℕ := if isVolatile then volatileTtl else immutableTtl

/-- `Lookup`. -/
structure FsLookup where
  ino : Ino
  attr : Attr
  ttl : ℕ
  deriving DecidableEq, Repr

/-- `kind_of`. -/
def kindOf : NodeType → FsKind
  | .dir => .dir
  | .symlink => .symlink
  | .file => .file

/-- `entry_attr`. -/
def entryAttr (e : Entry) : Attr where
  kind := kindOf e.kind
  perm := e.mode.getD 0o555 &&& 0o7777
  size := if e.kind = .file then e.size else e.target.length
  uid := e.uid.getD 0
  gid := e.gid.getD 0
  mtimeNs := e.mtimeNs.getD 0
  ctimeNs :=
    match e.ctimeNs with
    | some c => if c ≠ 0 then c else e.mtimeNs.getD 0
    | none => e.mtimeNs.getD 0

/-- `DirEntryData`. -/
structure DirEntryData where
  name : Bytes
  kind : FsKind
  deriving DecidableEq, Repr

/-- `listing_of_vlevel`. -/
def listingOfVlevel (level : List VEntry) : List DirEntryData :=
  level.map fun v => ⟨v.name, v.entry.elim .dir fun e => kindOf e.kind⟩

/-- `dir_entry_data`. -/
def dirEntryData (e : Entry) : DirEntryData := ⟨e.name, kindOf e.kind⟩

/-- `lookup_entry`. -/
def lookupEntry (entries : List Entry) (name : Bytes) : Option Entry :=
  SortedTable.find Entry.name entries name

/-- `looks_like_timestamp`. -/
def looksLikeTimestamp (name : Bytes) : Bool :=
  name.length = 25 && name[8]? = some 84 && name[24]? = some 90 &&
    name.zipIdx.all fun x => x.2 = 8 || x.2 = 24 || (48 ≤ x.1 && x.1 ≤ 57)

/-- The text of a name that has passed `looks_like_timestamp`. -/
def asciiText (name : Bytes) : List Char := name.map fun b => Char.ofNat b.toNat

/-- `std::str::from_utf8`. -/
def fromUtf8 (name : Bytes) : Option (List Char) :=
  (String.fromUTF8? ⟨name.toArray⟩).map String.toList

/-- `String::into_bytes`. -/
def intoBytes (s : List Char) : Bytes := (String.ofList s).toUTF8.toList

/-! ### The state -/

/-- `ResolvedFile`. -/
structure ResolvedFile where
  chunks : List ChunkId
  offsets : ChunkOffsets

/-- `Seen`: the snapshots that were listed, and when the index was last loaded for a new one. -/
structure Seen where
  keys : List (List Char)
  lastReload : Option Time

/-- `RELOAD_EAGER_MIN_INTERVAL`. -/
def reloadEagerMinInterval : Time := 10 ^ 9

/-- `FsCore`. `resolved` holds the `OnceCell` of each file, and `lastFh` the last handle that was
given out. -/
structure FsCore where
  index : ReloadableIndex
  lru : Lru ChunkId Bytes
  inodes : InodeTable
  lastFh : ℕ
  listings : Dict ℕ (List DirEntryData)
  seen : Seen
  resolved : Dict Ino ResolvedFile

/-- What other operations do to the cache and to the index while one is under way. A chunk is put
into the cache under the name of its bytes, which were read from the repository. -/
inductive Meanwhile
  | get (id : ChunkId)
  | put (plain : Bytes)
  | store (index : ChunkIndex)

/-- What one operation meets: the repository at each of its reads, the names of the snapshots unless
they cannot be listed, the loads of the index, the time, and what happens meanwhile before each of
its accesses to the cache. -/
structure Look (keys : RepoKeys) where
  repo : ℕ → Repository
  repo_keys : ∀ n, (repo n).keys = keys
  listing : Option (List (List Char))
  loads : IndexLoads
  fresh : Except CoreError ChunkIndex
  now : Time
  meanwhile : ℕ → List Meanwhile

variable {keys : RepoKeys}

namespace FsCore

/-- `FsCore::new`. -/
def new (index : ChunkIndex) (chunkCache : ℕ) : FsCore where
  index := ⟨index, 0, 0⟩
  lru := .new chunkCache
  inodes := .withRoot
  lastFh := 0
  listings := ∅
  seen := ⟨[], none⟩
  resolved := ∅

variable (core : FsCore)

/-- `FsCore::node`. -/
def node (ino : Ino) : Option Inode := core.inodes.map.lookup ino

/-! ### Browsing -/

/-- `refresh_if_unseen`: a snapshot that was not listed before has the index loaded, at most once a
second. -/
def refreshIfUnseen (w : Look keys) (names : List (List Char)) : FsCore :=
  let fresh := names.filter fun name => !core.seen.keys.contains name
  if fresh = [] then core
  else
    let seen := { core.seen with keys := core.seen.keys ++ fresh }
    if seen.lastReload.all fun t => w.now - t ≥ reloadEagerMinInterval then
      let core := { core with seen := { seen with lastReload := some w.now } }
      match w.fresh with
      | .ok index => { core with index := core.index.store index }
      | .error _ => core
    else { core with seen }

/-- `snapshot_keys_for`. -/
def snapshotKeysFor (w : Look keys) (client : Option (List Char)) :
    Except FsError (List (List Char)) × FsCore :=
  match w.listing with
  | none => (.error .io, core)
  | some listing =>
    let names := sortedNames listing
    let below := client.elim [] fun c => snapshotsPrefix ++ '/' :: c ++ ['/']
    (.ok (names.filter fun name => below <+: name), core.refreshIfUnseen w names)

/-- The client in the name of a snapshot. -/
def clientOf (name : List Char) : Option (List Char) :=
  if snapshotsPrefix ++ ['/'] <+: name then
    some ((name.drop (snapshotsPrefix.length + 1)).takeWhile fun c => c ≠ '/')
  else none

/-- `list_clients`. -/
def listClients (w : Look keys) : Except FsError (List (List Char)) × FsCore :=
  match core.snapshotKeysFor w none with
  | (.error e, core) => (.error e, core)
  | (.ok names, core) => (.ok (SortedTable.sortDedup id (names.filterMap clientOf)), core)

end FsCore

/-! ### Looking up a name -/

/-- What a lookup has read and is about to enter into the table. A degraded view, built where the
tree of a root could not be read, is entered without its name. -/
structure PendingLookup where
  parent : Ino
  name : Bytes
  inode : Inode
  degraded : Bool

/-- What the first half of a lookup comes to. -/
inductive LookupRead
  | failed (e : FsError)
  | known (reply : FsLookup)
  | pending (p : PendingLookup)

section Lookup

variable (ops : UtcOps)

/-- `read_snapshot_by_key`, as far as a mount tells its errors apart. -/
def Repository.readSnapshotByKey (repo : Repository) (name : List Char) :
    Except FsError Snapshot :=
  match (repo.store.snapshots.keys ++ repo.store.snapshotReplicas.keys).find? fun key =>
      key.name ops = name with
  | none => .error .notFound
  | some key =>
    match repo.readSnapshot key with
    | .error (.snapshotNotFound _) => .error .notFound
    | .error _ => .error .io
    | .ok snapshot =>
      match belongsUnder ops name snapshot with
      | .error _ => .error .io
      | .ok () => .ok snapshot

/-- The form in which a root is shown: a file or a symlink by its one entry, a root without
components by its entries, and any other one as a directory. -/
def rootContents (comps : List Bytes) (entries : List Entry) : RootContents :=
  match comps.getLast? with
  | none => .flatten entries
  | some last =>
    match entries with
    | [e] => if e.kind ≠ .dir ∧ e.name = last then .leaf e else .dir
    | _ => .dir

/-- The loop over the roots of a snapshot, with whether the tree of one could not be read. `n` is
the number of the read. -/
def readRoots (w : Look keys) : ℕ → List Root → Except FsError (List (Root × RootContents) × Bool)
  | _, [] => .ok ([], false)
  | n, root :: roots =>
    match locatorComponents root.path with
    | .error _ => .error .invalidInput
    | .ok comps => do
      let (contents, degraded) :=
        match (w.repo n).readTreeChain root.tree with
        | .error _ => (RootContents.dir, true)
        | .ok entries => (rootContents comps entries, false)
      let (pairs, rest) ← readRoots w (n + 1) roots
      return ((root, contents) :: pairs, degraded || rest)

/-- The name of the snapshot that an entry in the directory of a client stands for. -/
def snapshotNameOf (client : List Char) (name : Bytes) : List Char :=
  snapshotsPrefix ++ '/' :: client ++ '/' :: asciiText name

/-- The case of `lookup` for the directory of a client. -/
def lookupSnapshot (w : Look keys) (client : List Char) (parent : Ino) (name : Bytes) :
    Except FsError PendingLookup :=
  if looksLikeTimestamp name then do
    let snapshot ← (w.repo 0).readSnapshotByKey ops (snapshotNameOf client name)
    let (pairs, degraded) ← readRoots w 1 snapshot.roots
    match VirtualRoot.build pairs with
    | .error _ => .error .invalidInput
    | .ok vroot =>
      .ok ⟨parent, name, ⟨.syntheticDir vroot [], .dir snapshot.timeNs, degraded, none⟩,
        degraded⟩
  else .error .notFound

namespace FsCore

variable (core : FsCore)

/-- The node of `real_inode`. -/
def realNode (w : Look keys) (e : Entry) : Except FsError Node :=
  match e.kind with
  | .dir =>
    if e.subtree = TreeId.zero then .ok (.dir [])
    else match (w.repo 0).readTreeChain e.subtree with
      | .error _ => .error .io
      | .ok entries => .ok (.dir entries)
  | .file => .ok (.file e.chunks e.content)
  | .symlink => .ok (.symlink e.target)

/-- `real_inode`: what is known by its name is not read again. -/
def realInode (w : Look keys) (parent : Ino) (name : Bytes) (e : Entry) : LookupRead :=
  match core.inodes.known parent name with
  | some ino => .known ⟨ino, entryAttr e, immutableTtl⟩
  | none =>
    match realNode w e with
    | .error err => .failed err
    | .ok node => .pending ⟨parent, name, ⟨node, entryAttr e, false, e.xattrs⟩, false⟩

/-- `vchild_inode`. -/
def vchildInode (w : Look keys) (parent : Ino) (name : Bytes) (v : VEntry) (vroot : VirtualRoot)
    (levelKey : Bytes) : LookupRead :=
  match v with
  | .synthetic _ =>
    .pending ⟨parent, name, ⟨.syntheticDir vroot levelKey, .dir 0, false, none⟩, false⟩
  | .real e => core.realInode w parent name e

/-- The first half of `lookup`. -/
def lookupRead (w : Look keys) (parent : Ino) (name : Bytes) : LookupRead × FsCore :=
  match core.node parent with
  | none => (.failed .notFound, core)
  | some inode =>
    match inode.node with
    | .root =>
      match fromUtf8 name with
      | none => (.failed .notFound, core)
      | some client =>
        match core.listClients w with
        | (.error e, core) => (.failed e, core)
        | (.ok clients, core) =>
          if clients.contains client then
            (.pending ⟨parent, name, ⟨.client client, .dir 0, true, none⟩, false⟩, core)
          else (.failed .notFound, core)
    | .client client =>
      match lookupSnapshot ops w client parent name with
      | .error e => (.failed e, core)
      | .ok p => (.pending p, core)
    | .syntheticDir vroot levelKey =>
      match VirtualRoot.lookup (vroot.level levelKey) name with
      | none => (.failed .notFound, core)
      | some v => (core.vchildInode w parent name v vroot (levelKey ++ 47 :: name), core)
    | .dir entries =>
      match lookupEntry entries name with
      | none => (.failed .notFound, core)
      | some e => (core.realInode w parent name e, core)
    | .file .. | .symlink _ => (.failed .notFound, core)

/-- The second half of `lookup`. -/
def lookupEnter (p : PendingLookup) : FsLookup × FsCore :=
  let (ino, inodes) :=
    if p.degraded then core.inodes.insert p.inode
    else core.inodes.insertNamed p.parent p.name p.inode
  (⟨ino, p.inode.attr, ttlOf p.inode.isVolatile⟩, { core with inodes })

/-- `FsCore::lookup`, with nothing between its halves. -/
def lookup (w : Look keys) (parent : Ino) (name : Bytes) : Except FsError FsLookup × FsCore :=
  match core.lookupRead ops w parent name with
  | (.failed e, core) => (.error e, core)
  | (.known reply, core) => (.ok reply, core)
  | (.pending p, core) => ((.ok (core.lookupEnter p).1), (core.lookupEnter p).2)

/-! ### Attributes, links and directories -/

/-- `getattr`. -/
def getattr (ino : Ino) : Except FsError (Attr × ℕ) :=
  match core.node ino with
  | none => .error .notFound
  | some inode => .ok (inode.attr, ttlOf inode.isVolatile)

/-- `readlink`. -/
def readlink (ino : Ino) : Except FsError Bytes :=
  match core.node ino with
  | none => .error .notFound
  | some inode =>
    match inode.node with
    | .symlink target => .ok target
    | _ => .error .invalidInput

/-- `get_xattr`. -/
def getXattr (ino : Ino) (name : Bytes) : Except FsError (Option Bytes) :=
  match core.node ino with
  | none => .error .notFound
  | some inode => .ok (inode.xattrs.bind fun xs => (xs.find? fun x => x.1 = name).map Prod.snd)

/-- `list_xattrs`. -/
def listXattrs (ino : Ino) : Except FsError (List Bytes) :=
  match core.node ino with
  | none => .error .notFound
  | some inode => .ok ((inode.xattrs.map fun xs => xs.map Prod.fst).getD [])

/-- The listing that `opendir` takes. -/
def listingOf (w : Look keys) (node : Node) : Except FsError (List DirEntryData) × FsCore :=
  match node with
  | .root =>
    match core.listClients w with
    | (.error e, core) => (.error e, core)
    | (.ok clients, core) => (.ok (clients.map fun c => ⟨intoBytes c, .dir⟩), core)
  | .client client =>
    match core.snapshotKeysFor w (some client) with
    | (.error e, core) => (.error e, core)
    | (.ok names, core) => (.ok (names.map fun n => ⟨intoBytes (timestampOf n), .dir⟩), core)
  | .syntheticDir vroot levelKey => (.ok (listingOfVlevel (vroot.level levelKey)), core)
  | .dir entries => (.ok (entries.map dirEntryData), core)
  | .file .. | .symlink _ => (.error .invalidInput, core)

/-- `opendir`. -/
def opendir (w : Look keys) (ino : Ino) : Except FsError ℕ × FsCore :=
  match core.node ino with
  | none => (.error .notFound, core)
  | some inode =>
    match core.listingOf w inode.node with
    | (.error e, core) => (.error e, core)
    | (.ok listing, core) =>
      (.ok (core.lastFh + 1),
        { core with
          lastFh := core.lastFh + 1, listings := core.listings.insert (core.lastFh + 1) listing })

/-- `readdir`. -/
def readdir (fh offset max : ℕ) : Except FsError (List DirEntryData) :=
  match core.listings.lookup fh with
  | none => .error .badHandle
  | some listing => .ok ((listing.drop offset).take max)

/-- `releasedir`. -/
def releasedir (fh : ℕ) : FsCore := { core with listings := core.listings.erase fh }

end FsCore

end Lookup

/-! ### Reading a file -/

/-- What ends a read. Of the errors that are `FsError::Io`, the one of a chunk that could not be
read is told from those of the loop; `fault` is a panic. -/
inductive ReadStop
  | error (e : FsError)
  | unread
  | unlocated
  | noProgress
  | fault (f : Fault)
  deriving DecidableEq, Repr

/-- The lengths of the chunks, in the loop of `resolve_file`. -/
def ReloadableIndex.rawLens (env : IndexLoads) :
    List ChunkId → ReloadableIndex → Except CoreError (List ℕ) × ReloadableIndex
  | [], r => (.ok [], r)
  | id :: ids, r =>
    match r.rawLen env id with
    | (.error e, r) => (.error e, r)
    | (.ok none, r) => (.error (.chunkMissing id), r)
    | (.ok (some len), r) =>
      match rawLens env ids r with
      | (.error e, r) => (.error e, r)
      | (.ok lens, r) => (.ok (len :: lens), r)

namespace FsCore

variable (core : FsCore)

/-- What another operation did. -/
def meanwhile (keys : RepoKeys) : Meanwhile → FsCore
  | .get id => { core with lru := (core.lru.get id).2 }
  | .put plain => { core with lru := core.lru.put (keys.chunkId plain) plain }
  | .store index => { core with index := core.index.store index }

/-- What other operations did, one after the other. -/
def after (keys : RepoKeys) (events : List Meanwhile) : FsCore :=
  events.foldl (fun core event => core.meanwhile keys event) core

/-- `chunk_of`. `n` is the number of the read. -/
def chunkOf (w : Look keys) (n : ℕ) (id : ChunkId) : Except ReadStop Bytes × FsCore :=
  let core := core.after keys (w.meanwhile (2 * n))
  match core.lru.get id with
  | (some data, lru) => (.ok data, { core with lru })
  | (none, lru) =>
    match core.index.readChunk w.loads (w.repo n) id with
    | (.error _, index) => (.error .unread, { core with lru, index })
    | (.ok data, index) =>
      let core := ({ core with lru, index } : FsCore).after keys (w.meanwhile (2 * n + 1))
      (.ok data, { core with lru := core.lru.put id data })

/-- `resolve_file`. -/
def resolveFile (w : Look keys) (chunks : List ChunkId) (content : ContentType) :
    Except ReadStop ResolvedFile × FsCore :=
  match core.index.resolveChunks w.loads (w.repo 0) chunks content with
  | (.error _, index) => (.error .unread, { core with index })
  | (.ok ids, index) =>
    match ReloadableIndex.rawLens w.loads ids index with
    | (.error _, index) => (.error .unread, { core with index })
    | (.ok lens, index) => (.ok ⟨ids, .fromRawLens lens⟩, { core with index })

/-- The loop of `read_file`, from `pos` up to `stop`. -/
def readLoop (w : Look keys) (r : ResolvedFile) (stop pos n : ℕ) (buf : Bytes) (core : FsCore) :
    Except ReadStop Bytes × FsCore :=
  if _h : pos < stop then
    match r.offsets.locate pos with
    | .error f => (.error (.fault f), core)
    | .ok none => (.error .unlocated, core)
    | .ok (some (i, inChunk)) =>
      match at_ r.chunks i with
      | .error f => (.error (.fault f), core)
      | .ok id =>
        match core.chunkOf w n id with
        | (.error e, core) => (.error e, core)
        | (.ok data, core) =>
          let avail := data.length - inChunk
          let take := min avail (stop - pos)
          if _ht : take = 0 then (.error .noProgress, core)
          else
            match slice data inChunk (inChunk + take) with
            | .error f => (.error (.fault f), core)
            | .ok piece => readLoop w r stop (pos + take) (n + 1) (buf ++ piece) core
  else (.ok buf, core)
  termination_by stop - pos

/-- The part of `read_file` behind the resolution. -/
def readAt (w : Look keys) (r : ResolvedFile) (offset size : ℕ) : Except ReadStop Bytes × FsCore :=
  let total := r.offsets.total
  if offset ≥ total then (.ok [], core)
  else
    let stop := min total (min (offset + size) (2 ^ 64 - 1))
    core.readLoop w r stop offset 1 []

/-- `read_file`. -/
def readFile (w : Look keys) (ino : Ino) (offset size : ℕ) : Except ReadStop Bytes × FsCore :=
  match core.node ino with
  | none => (.error (.error .notFound), core)
  | some inode =>
    match inode.node with
    | .file chunks content =>
      match core.resolved.lookup ino with
      | some r => core.readAt w r offset size
      | none =>
        match core.resolveFile w chunks content with
        | (.error e, core) => (.error e, core)
        | (.ok r, core) =>
          ({ core with resolved := core.resolved.insert ino r } : FsCore).readAt w r offset size
    | _ => (.error (.error .invalidInput), core)

end FsCore

/-! ### Sessions -/

/-- The requests that change the state. A lookup is entered into the table by a request of its
own. -/
inductive Request (keys : RepoKeys)
  | lookup (w : Look keys) (parent : Ino) (name : Bytes)
  | enter (i : ℕ)
  | opendir (w : Look keys) (ino : Ino)
  | releasedir (fh : ℕ)
  | read (w : Look keys) (ino : Ino) (offset size : ℕ)

/-- A successful lookup. -/
structure Given (keys : RepoKeys) where
  look : Look keys
  parent : Ino
  name : Bytes
  reply : FsLookup

/-- A mount in use: its core, the lookups that are under way, and those that have succeeded. -/
structure Session (keys : RepoKeys) where
  core : FsCore
  waiting : List (Look keys × PendingLookup)
  given : List (Given keys)

namespace Session

/-- A mount that was just made. -/
def new (index : ChunkIndex) (chunkCache : ℕ) : Session keys := ⟨.new index chunkCache, [], []⟩

variable (ops : UtcOps) (s : Session keys)

/-- The state after a request. -/
def step : Request keys → Session keys
  | .lookup w parent name =>
    match s.core.lookupRead ops w parent name with
    | (.failed _, core) => { s with core }
    | (.known reply, core) => { s with core, given := s.given ++ [⟨w, parent, name, reply⟩] }
    | (.pending p, core) => { s with core, waiting := s.waiting ++ [(w, p)] }
  | .enter i =>
    match s.waiting[i]? with
    | none => s
    | some (w, p) =>
      { core := (s.core.lookupEnter p).2
        waiting := s.waiting.eraseIdx i
        given := s.given ++ [⟨w, p.parent, p.name, (s.core.lookupEnter p).1⟩] }
  | .opendir w ino => { s with core := (s.core.opendir w ino).2 }
  | .releasedir fh => { s with core := s.core.releasedir fh }
  | .read w ino offset size => { s with core := (s.core.readFile w ino offset size).2 }

/-- The state after requests, one after the other. -/
def run (requests : List (Request keys)) : Session keys := requests.foldl (step ops) s

variable {ops} {s} {P : Session keys → Prop}

/-- What a request keeps holds after a whole run. -/
theorem run_induction (hstep : ∀ s request, P s → P (step ops s request))
    (requests : List (Request keys)) : ∀ {s}, P s → P (run ops s requests) := by
  induction requests with
  | nil => exact fun h => h
  | cons request requests ih => exact fun h => ih (hstep _ request h)

end Session
end Kist
