import Kist.Backup.FileHistory
import Kist.Lib.Reachable

/-!
# The parent fast path

A client backs up a changing file system again and again, each time with the previous snapshot as
the parent. The steps are the changes of the files, the clock, and the pieces of a visit of a file
between which files may change: `lstat`, opening the file, and the end of the read.

Next to each entry stands what the code does not keep: the bytes that were read for it, and the
number of that content. `tryReuse_current` says that the fast path takes over the content a file
still has, in every run in which no captured content is replaced under a stamp before the recorded
time of the backup. `not_tryReuse_current` is a run with coarse timestamps where it does not.
-/

namespace Kist
namespace FileHistory

open Backup

/-- An entry, the number of the content that was read for it, and the bytes. -/
structure Recorded where
  entry : Entry
  version : ℕ
  bytes : Bytes

/-- A snapshot: its recorded time, and its files. -/
structure Snap where
  timeNs : ℤ
  entries : Dict RelPath Recorded

/-- A visit of a file that will be read: what `list` and `lstat` found, and the number of the
content under which the file was opened. -/
structure Visit where
  path : RelPath
  size : ℕ
  posix : PosixMeta
  opened : Option ℕ

/-- A backup under way: the time that its snapshot will record, the files done, what was read for
the inodes with several names, and the file being read. -/
structure Run where
  b : Backup
  timeNs : ℤ
  entries : Dict RelPath Recorded
  readFrom : Dict InodeKey (ℕ × Bytes)
  visit : Option Visit

/-- The clock, the number of the next content, the files, the latest snapshot and the backup under
way. -/
structure Sys where
  now : ℤ
  fresh : ℕ
  fs : Files
  parent : Option Snap
  run : Option Run

/-- `FileFacts` of a local file. -/
def factsOf (size : ℕ) (posix : PosixMeta) : FileFacts := ⟨size, some posix, none⟩

/-- The facts of the file that a visit is about. -/
def Visit.facts (v : Visit) : FileFacts := factsOf v.size v.posix

/-- The entry of the parent snapshot under a path. -/
def Sys.parentEntry (s : Sys) (path : RelPath) : Option Entry :=
  s.parent.bind fun p => (p.entries.lookup path).map Recorded.entry

/-- A file is done. -/
def Run.record (r : Run) (path : RelPath) (rec : Recorded) (b : Backup) : Run :=
  { r with b, entries := r.entries.insert path rec, visit := none }

/-- The content that an entry records. -/
def Recorded.content (rec : Recorded) : FileContent :=
  ⟨rec.entry.size, rec.entry.chunks, rec.entry.content⟩

section Steps

variable (gran : ℕ → ℤ) (keys : RepoKeys) (chunker : Chunking.Chunker)

/-- The steps. `ok` limits the changes of files. -/
inductive Step (ok : Sys → ℤ → Event → Prop) : Sys → Sys → Prop
  /-- A file changes. -/
  | event {s : Sys} {m : ℤ} {e : Event} {fs' : Files} (hm : s.now ≤ m) (hok : ok s m e)
    (h : e.apply m s.fresh s.fs = some fs') :
    Step ok s { s with now := m, fresh := s.fresh + 1, fs := fs' }
  | tick {s : Sys} {t : ℤ} (h : s.now ≤ t) : Step ok s { s with now := t }
  /-- A backup starts. The time it records is its start, moved by a nanosecond for each snapshot
  key that was taken. -/
  | start {s : Sys} {b : Backup} {n : ℕ} (hrun : s.run = none) (hkeys : b.repo.keys = keys)
    (hchunker : b.chunker = chunker) (hlinks : b.hardlinks = ∅)
    (hparent : b.parentStartNs = (s.parent.map Snap.timeNs).getD 0) (hattempt : n < 3)
    (hpos : 0 < s.now) :
    Step ok s { s with run := some ⟨b, s.now + n, ∅, ∅, none⟩ }
  /-- The walk does something else than visiting files. -/
  | walk {s : Sys} {r : Run} {b : Backup} (hrun : s.run = some r) (hsame : SameSetup r.b b)
    (hlinks : b.hardlinks = r.b.hardlinks) : Step ok s { s with run := some { r with b } }
  /-- A visit takes over the content of the parent entry. -/
  | takeOver {s : Sys} {r : Run} {par : Snap} {path : RelPath} {rec : Recorded} {size : ℕ}
    {posix : PosixMeta} {i : Inode} {source : Source} {c : FileContent} {b : Backup} {name : Bytes}
    {xattrs : Option (List (Bytes × Bytes))} (hrun : s.run = some r) (hvisit : r.visit = none)
    (hpar : s.parent = some par) (hrec : par.entries.lookup path = some rec)
    (hl : s.fs.lstat gran path = some (posix, i))
    (hreuse : (r.b.tryReuse (factsOf size posix) (some rec.entry)).1 ≠ none)
    (h : r.b.processFile source path (factsOf size posix) (some rec.entry) = (some c, b)) :
    Step ok s { s with
      run := r.record path ⟨posixFileEntry name c posix xattrs, rec.version, rec.bytes⟩ b }
  /-- A visit finds the content that was read under another name of the inode. -/
  | share {s : Sys} {r : Run} {path : RelPath} {size version : ℕ} {posix : PosixMeta} {i : Inode}
    {source : Source} {c : FileContent} {b : Backup} {name bytes : Bytes}
    {xattrs : Option (List (Bytes × Bytes))} {key : InodeKey} (hrun : s.run = some r)
    (hvisit : r.visit = none) (hl : s.fs.lstat gran path = some (posix, i))
    (hnot : (r.b.tryReuse (factsOf size posix) (s.parentEntry path)).1 = none)
    (hkey : hardlinkKey (factsOf size posix) = some key)
    (hread : r.readFrom.lookup key = some (version, bytes))
    (h : r.b.processFile source path (factsOf size posix) (s.parentEntry path) = (some c, b)) :
    Step ok s { s with
      run := r.record path ⟨posixFileEntry name c posix xattrs, version, bytes⟩ b }
  /-- The metadata of a file is taken. -/
  | lstat {s : Sys} {r : Run} {path : RelPath} {n : ℕ} {posix : PosixMeta} {i : Inode}
    (hrun : s.run = some r) (hvisit : r.visit = none)
    (hl : s.fs.lstat gran path = some (posix, i)) :
    Step ok s { s with run := some { r with visit := some ⟨path, n, posix, none⟩ } }
  /-- The file is opened: some inode that its path shows by now. -/
  | openFile {s : Sys} {r : Run} {v : Visit} {posix : PosixMeta} {i : Inode}
    (hrun : s.run = some r) (hvisit : r.visit = some v) (hopened : v.opened = none)
    (hl : s.fs.lstat gran v.path = some (posix, i)) :
    Step ok s { s with run := some { r with visit := some { v with opened := some i.version } } }
  /-- The file was read to its end. The bytes are its content unless it changed meanwhile. -/
  | readFile {s : Sys} {r : Run} {v : Visit} {source : Source} {version : ℕ} {bytes n : Bytes}
    {c : FileContent} {b : Backup} {x : Option (List (Bytes × Bytes))}
    (hrun : s.run = some r) (hvisit : r.visit = some v) (hopened : v.opened = some version)
    (hnot : (r.b.tryReuse v.facts (s.parentEntry v.path)).1 = none)
    (hnew : (hardlinkKey v.facts).bind r.b.hardlinks.lookup = none)
    (hread : source.read r.b.tick v.path = .bytes bytes)
    (hbytes : ∀ key i, s.fs.inodes.lookup key = some i → i.version = version → i.content = bytes)
    (h : r.b.processFile source v.path v.facts (s.parentEntry v.path) = (some c, b)) :
    Step ok s { s with
      run := some { r.record v.path ⟨posixFileEntry n c v.posix x, version, bytes⟩ b with
        readFrom := match hardlinkKey v.facts with
          | some key => r.readFrom.insert key (version, bytes)
          | none => r.readFrom } }
  /-- The file could not be read. -/
  | skipFile {s : Sys} {r : Run} {v : Visit} {source : Source} {b : Backup}
    (hrun : s.run = some r) (hvisit : r.visit = some v)
    (h : r.b.processFile source v.path v.facts (s.parentEntry v.path) = (none, b)) :
    Step ok s { s with run := some { r with b, visit := none } }
  /-- The snapshot is written, and is the parent of the next backup. -/
  | commit {s : Sys} {r : Run} (hrun : s.run = some r) (hvisit : r.visit = none) :
    Step ok s { s with parent := some ⟨r.timeNs, r.entries⟩, run := none }
  | abort {s : Sys} : Step ok s { s with run := none }

/-- Before the first backup of an empty file system. -/
def Init (s : Sys) : Prop :=
  s.fs.names = ∅ ∧ s.fs.inodes = ∅ ∧ s.parent = none ∧ s.run = none

/-! ### Clean runs -/

/-- The watch on the path of an entry. -/
def Recorded.watch (rec : Recorded) (path : RelPath) (since : ℤ) : Watch :=
  ⟨.path path, since, rec.version, (metaOfEntry rec.entry).ctimeNs = 0⟩

/-- What a backup under way has captured: what its entries record, what was read for the inodes with
several names, and the content under which the file being read was opened. -/
inductive Run.Watched (r : Run) : Watch → Prop
  | entry {path : RelPath} {rec : Recorded} (hrec : r.entries.lookup path = some rec) :
    Watched r (rec.watch path r.timeNs)
  | readFrom {key : InodeKey} {version : ℕ} {bytes : Bytes}
    (hread : r.readFrom.lookup key = some (version, bytes)) :
    Watched r ⟨.inode key, r.timeNs, version, false⟩
  | visitPath {v : Visit} {version : ℕ} (hvisit : r.visit = some v)
    (hopened : v.opened = some version) :
    Watched r ⟨.path v.path, r.timeNs, version, v.posix.ctimeNs = 0⟩
  | visitInode {v : Visit} {version : ℕ} {key : InodeKey} (hvisit : r.visit = some v)
    (hopened : v.opened = some version) (hkey : hardlinkKey v.facts = some key) :
    Watched r ⟨.inode key, r.timeNs, version, false⟩

/-- The contents that backups have captured, each watched from the recorded time of its backup: the
entries of the latest snapshot, and what the backup under way has. -/
inductive Watched (s : Sys) : Watch → Prop
  | parent {par : Snap} {path : RelPath} {rec : Recorded} (hpar : s.parent = some par)
    (hrec : par.entries.lookup path = some rec) : Watched s (rec.watch path par.timeNs)
  | run {r : Run} {w : Watch} (hrun : s.run = some r) (hw : r.Watched w) : Watched s w

/-- A change that is clean for all captured contents, and that does not take the path of a file with
several names away, between its `lstat` and its opening, and leave the file under a stamp before the
recorded time. -/
structure CleanEvent (s : Sys) (m : ℤ) (e : Event) : Prop where
  watched : ∀ w, Watched s w → w.Clean gran m s.fs e
  bound : ∀ r v key k i, s.run = some r → r.visit = some v → v.opened = none →
    hardlinkKey v.facts = some key → e.rebinds s.fs v.path = some k →
      s.fs.names.lookup v.path = some key → s.fs.inodes.lookup key = some i →
        r.timeNs ≤ stamp (gran key.1) (e.leaves m i)

/-! ### The invariant -/

/-- The content of an entry is that of its bytes, and its number stands for these bytes. -/
structure Recorded.Sound (fs : Files) (fresh : ℕ) (rec : Recorded) : Prop where
  holds : fs.Holds fresh rec.version rec.bytes
  content : rec.content = contentOf keys chunker rec.bytes

/-- What holds of the file being read. -/
structure Visit.Sound (fs : Files) (fresh : ℕ) (since : ℤ) (v : Visit) : Prop where
  opened : ∀ version, v.opened = some version → version < fresh
  bound : ∀ key, v.opened = none → hardlinkKey v.facts = some key →
    fs.Bound gran v.path key since ∧ (fs.inodes.lookup key).isSome

/-- What holds of a snapshot. -/
def Snap.Sound (fs : Files) (fresh : ℕ) (par : Snap) : Prop :=
  ∀ path rec, par.entries.lookup path = some rec →
    rec.Sound keys chunker fs fresh ∧ (rec.watch path par.timeNs).Kept gran fs

/-- What holds of a backup under way. -/
structure Run.Sound (fs : Files) (fresh : ℕ) (r : Run) : Prop where
  sameKeys : r.b.repo.keys = keys
  sameChunker : r.b.chunker = chunker
  pos : 0 < r.timeNs
  entries : ∀ path rec, r.entries.lookup path = some rec → rec.Sound keys chunker fs fresh
  links : ∀ key, r.b.hardlinks.lookup key =
    (r.readFrom.lookup key).map fun read => contentOf keys chunker read.2
  readFrom : ∀ key version bytes, r.readFrom.lookup key = some (version, bytes) →
    fs.Holds fresh version bytes
  visit : ∀ v, r.visit = some v → v.Sound gran fs fresh r.timeNs
  kept : ∀ w, r.Watched w → w.Kept gran fs

/-- The invariant of clean runs. -/
structure Sys.Inv (s : Sys) : Prop where
  timed : s.fs.Timed s.now
  numbered : s.fs.Numbered s.fresh
  parent : ∀ par, s.parent = some par → par.Sound gran keys chunker s.fs s.fresh
  run : ∀ r, s.run = some r → r.Sound gran keys chunker s.fs s.fresh
  parentStart : ∀ r par, s.run = some r → s.parent = some par → r.b.parentStartNs = par.timeNs

end Steps

section Proofs

variable {gran : ℕ → ℤ} {keys : RepoKeys} {chunker : Chunking.Chunker} {s s' : Sys} {m : ℤ}
  {fs fs' : Files} {e : Event} {fresh : ℕ} {rec : Recorded} {path : RelPath} {posix : PosixMeta}
  {i : Inode} {key : InodeKey}

theorem Files.lstat_eq_some (h : fs.lstat gran path = some (posix, i)) :
    fs.names.lookup path = some (posix.dev, posix.inode) ∧
      fs.inodes.lookup (posix.dev, posix.inode) = some i ∧
      posix.mtimeNs = stamp (gran posix.dev) i.modified ∧
      posix.ctimeNs = stamp (gran posix.dev) i.changed := by
  simp only [Files.lstat, bind, Option.bind_eq_some_iff, pure, Option.some.injEq,
    Prod.mk.injEq] at h
  obtain ⟨key, hkey, j, hj, rfl, rfl⟩ := h
  exact ⟨hkey, hj, rfl, rfl⟩

theorem hardlinkKey_factsOf {size : ℕ} (h : hardlinkKey (factsOf size posix) = some key) :
    key = (posix.dev, posix.inode) := by
  simp only [hardlinkKey, factsOf, Option.map_eq_some_iff, Option.filter_eq_some_iff] at h
  obtain ⟨p, ⟨hp, -⟩, rfl⟩ := h
  cases hp
  rfl

/-- **The guard of the fast path.** An entry that is taken over while its watch is kept has the
content that the file has now. -/
theorem Recorded.Sound.current (hs : rec.Sound keys chunker fs fresh) {b : Backup} {size : ℕ}
    {since : ℤ} {c : FileContent} (hk : (rec.watch path since).Kept gran fs)
    (hstart : b.parentStartNs = since) (hl : fs.lstat gran path = some (posix, i))
    (h : (b.tryReuse (factsOf size posix) (some rec.entry)).1 = some c) :
    i.version = rec.version ∧ i.content = rec.bytes ∧ c = contentOf keys chunker rec.bytes := by
  obtain ⟨hname, hinode, hm, hc⟩ := Files.lstat_eq_some hl
  obtain ⟨pentry, he, -, hproven, -, rfl⟩ := tryReuse_eq_some b h
  cases he
  have hguard : posix.mtimeNs < since ∧
      ((metaOfEntry rec.entry).ctimeNs ≠ 0 → posix.ctimeNs < since) := by
    unfold proven at hproven
    simp only [factsOf] at hproven
    split at hproven
    · next p hp _ =>
      cases hp
      simp only [fileUnchanged, Bool.and_eq_true, unchanged_iff, hstart] at hproven
      exact ⟨hproven.2.2.2.2.1, hproven.2.2.2.2.2⟩
    · next hp _ => cases hp
    · cases hproven
  have hver : i.version = rec.version := by
    rcases hk (posix.dev, posix.inode) i ⟨hname, hinode⟩ with hv | ⟨h1, h2⟩
    · exact hv
    · rw [← hc] at h1
      rw [← hm] at h2
      by_cases h0 : (metaOfEntry rec.entry).ctimeNs = 0
      · exact absurd (h2 (by simpa [Recorded.watch] using h0)) (not_le.2 hguard.1)
      · exact absurd h1 (not_le.2 (hguard.2 h0))
  exact ⟨hver, hs.holds.content _ i hinode hver, hs.content⟩

/-! ### The files change -/

theorem Recorded.Sound.apply (hs : rec.Sound keys chunker fs fresh)
    (h : e.apply m fresh fs = some fs') : rec.Sound keys chunker fs' (fresh + 1) :=
  ⟨hs.holds.apply h, hs.content⟩

theorem Visit.Sound.apply {since : ℤ} {v : Visit} (hg : ∀ d, 0 < gran d) (ht : fs.Timed m)
    (hs : v.Sound gran fs fresh since)
    (hb : ∀ key k i, v.opened = none → hardlinkKey v.facts = some key →
      e.rebinds fs v.path = some k → fs.names.lookup v.path = some key →
        fs.inodes.lookup key = some i → since ≤ stamp (gran key.1) (e.leaves m i))
    (h : e.apply m fresh fs = some fs') : v.Sound gran fs' (fresh + 1) since where
  opened version hv := (hs.opened version hv).trans (Nat.lt_succ_self _)
  bound key ho hkey := by
    obtain ⟨hbound, hsome⟩ := hs.bound key ho hkey
    obtain ⟨i, hi⟩ := Option.isSome_iff_exists.1 hsome
    obtain ⟨j, hj, -⟩ := Event.exists_inode h hi
    exact ⟨hbound.apply hg ht hsome (fun k i => hb key k i ho hkey) h, by rw [hj]; rfl⟩

/-- A clean change keeps the invariant. -/
theorem Sys.Inv.event (hg : ∀ d, 0 < gran d) (hs : s.Inv gran keys chunker) (hm : s.now ≤ m)
    (hc : CleanEvent gran s m e) (h : e.apply m s.fresh s.fs = some fs') :
    Sys.Inv gran keys chunker { s with now := m, fresh := s.fresh + 1, fs := fs' } := by
  have ht : s.fs.Timed m := fun key i hi => ⟨(hs.timed key i hi).1, (hs.timed key i hi).2.trans hm⟩
  have hkept : ∀ w, Watched s w → w.Kept gran s.fs → w.Kept gran fs' := fun w hw hk =>
    Watch.kept_apply hg ht hk (hc.watched w hw) h
  refine ⟨hs.timed.apply hm h, hs.numbered.apply h, fun par hpar path rec hrec => ?_,
    fun r hrun => ?_, hs.parentStart⟩
  · obtain ⟨hsound, hk⟩ := hs.parent par hpar path rec hrec
    exact ⟨hsound.apply h, hkept _ (.parent hpar hrec) hk⟩
  · have hr := hs.run r hrun
    exact
      { sameKeys := hr.sameKeys
        sameChunker := hr.sameChunker
        pos := hr.pos
        entries := fun path rec hrec => (hr.entries path rec hrec).apply h
        links := hr.links
        readFrom := fun key version bytes hread => (hr.readFrom key version bytes hread).apply h
        visit := fun v hv => (hr.visit v hv).apply hg ht
          (fun key k i => hc.bound r v key k i hrun hv) h
        kept := fun w hw => hkept w (.run hrun hw) (hr.kept w hw) }

/-! ### The backup goes on -/

theorem Sys.Inv.setRun (hs : s.Inv gran keys chunker) {r : Run}
    (hr : r.Sound gran keys chunker s.fs s.fresh)
    (hstart : ∀ par, s.parent = some par → r.b.parentStartNs = par.timeNs) :
    Sys.Inv gran keys chunker { s with run := some r } where
  timed := hs.timed
  numbered := hs.numbered
  parent := hs.parent
  run r' h := by cases h; exact hr
  parentStart r' par h hpar := by cases h; exact hstart par hpar

variable {r : Run} {b : Backup}

/-- A backup that starts has captured nothing. -/
theorem Run.Sound.start {timeNs : ℤ} (hkeys : b.repo.keys = keys) (hchunker : b.chunker = chunker)
    (hlinks : b.hardlinks = ∅) (hpos : 0 < timeNs) :
    Run.Sound gran keys chunker fs fresh ⟨b, timeNs, ∅, ∅, none⟩ where
  sameKeys := hkeys
  sameChunker := hchunker
  pos := hpos
  entries path rec h := by cases h
  links key := by rw [hlinks]; rfl
  readFrom key version bytes h := by cases h
  visit v h := by cases h
  kept w hw := by
    cases hw with
    | entry h => cases h
    | readFrom h => cases h
    | visitPath h => cases h
    | visitInode h => cases h

/-- What the walk does besides files keeps the run sound. -/
theorem Run.Sound.walk (hr : r.Sound gran keys chunker fs fresh) (hsame : SameSetup r.b b)
    (hlinks : b.hardlinks = r.b.hardlinks) :
    Run.Sound gran keys chunker fs fresh { r with b } :=
  { hr with
    sameKeys := hsame.keys.trans hr.sameKeys
    sameChunker := hsame.chunker.trans hr.sameChunker
    links := fun key => by rw [hlinks]; exact hr.links key
    kept := fun w hw => hr.kept w <| by
      cases hw with
      | entry hrec => exact .entry hrec
      | readFrom hread => exact .readFrom hread
      | visitPath hv ho => exact .visitPath hv ho
      | visitInode hv ho hk => exact .visitInode hv ho hk }

/-- A finished or skipped file is no longer watched as being read. -/
theorem Run.Sound.endVisit (hr : r.Sound gran keys chunker fs fresh) :
    Run.Sound gran keys chunker fs fresh { r with visit := none } :=
  { hr with
    visit := fun v hv => nomatch hv
    kept := fun w hw => hr.kept w <| by
      cases hw with
      | entry hrec => exact .entry hrec
      | readFrom hread => exact .readFrom hread
      | visitPath hv => cases hv
      | visitInode hv => cases hv }

/-- One more entry keeps the run sound. -/
theorem Run.Sound.record (hr : r.Sound gran keys chunker fs fresh)
    (hrec : rec.Sound keys chunker fs fresh) (hk : (rec.watch path r.timeNs).Kept gran fs) :
    (r.record path rec r.b).Sound gran keys chunker fs fresh :=
  { hr.endVisit with
    entries := fun p rec' hp => by
      simp only [Run.record, Dict.lookup_insert'] at hp
      split_ifs at hp
      · cases hp; exact hrec
      · exact hr.entries p rec' hp
    kept := fun w hw => by
      cases hw with
      | entry hp =>
        simp only [Run.record, Dict.lookup_insert'] at hp
        split_ifs at hp with hpath
        · cases hp; rw [hpath]; exact hk
        · exact hr.kept _ (.entry hp)
      | readFrom hread => exact hr.kept _ (.readFrom hread)
      | visitPath hv => cases hv
      | visitInode hv => cases hv }

/-- What was read for an inode with several names is kept for its other names. -/
theorem Run.Sound.insertRead (hr : r.Sound gran keys chunker fs fresh) {version : ℕ} {bytes : Bytes}
    (hlinks : b.hardlinks = r.b.hardlinks.insert key (contentOf keys chunker bytes))
    (hsame : SameSetup r.b b) (hh : fs.Holds fresh version bytes)
    (hk : (⟨.inode key, r.timeNs, version, false⟩ : Watch).Kept gran fs) :
    Run.Sound gran keys chunker fs fresh
      { r with b, readFrom := r.readFrom.insert key (version, bytes) } :=
  { hr with
    sameKeys := hsame.keys.trans hr.sameKeys
    sameChunker := hsame.chunker.trans hr.sameChunker
    links := fun k => by
      simp only [hlinks, Dict.lookup_insert']
      split_ifs
      · rfl
      · exact hr.links k
    readFrom := fun k v bs hread => by
      simp only [Dict.lookup_insert'] at hread
      split_ifs at hread
      · cases hread; exact hh
      · exact hr.readFrom k v bs hread
    kept := fun w hw => by
      cases hw with
      | entry hp => exact hr.kept _ (.entry hp)
      | readFrom hread =>
        simp only [Dict.lookup_insert'] at hread
        split_ifs at hread with hkey
        · cases hread; rw [hkey]; exact hk
        · exact hr.kept _ (.readFrom hread)
      | visitPath hv ho => exact hr.kept _ (.visitPath hv ho)
      | visitInode hv ho hkey => exact hr.kept _ (.visitInode hv ho hkey) }

/-! ### The watch of a new entry -/

/-- The watch on the path of an entry with the given metadata. -/
theorem watch_posixFileEntry {name : Bytes} {c : FileContent} {version : ℕ} {bytes : Bytes}
    {xattrs : Option (List (Bytes × Bytes))} {since : ℤ} :
    (⟨posixFileEntry name c posix xattrs, version, bytes⟩ : Recorded).watch path since =
      ⟨.path path, since, version, posix.ctimeNs = 0⟩ := by
  have : (metaOfEntry (posixFileEntry name c posix xattrs)).ctimeNs = posix.ctimeNs :=
    metaOfEntry_fill_ctimeNs _ posix true
  unfold Recorded.watch
  rw [this]

theorem kept_path_of_version {since : ℤ} {byMtime : Bool}
    (hl : fs.lstat gran path = some (posix, i)) :
    (⟨.path path, since, i.version, byMtime⟩ : Watch).Kept gran fs := by
  obtain ⟨hname, hinode, -⟩ := Files.lstat_eq_some hl
  rintro key j ⟨hj, hj'⟩
  cases hname.symm.trans hj
  cases hinode.symm.trans hj'
  exact .inl rfl

/-- What was read under another name is watched under this one as well. An inode without a `ctime`
has a stamp before the time, so that its content is still the one that was read. -/
theorem kept_path_of_inode {since : ℤ} {version : ℕ} (hpos : 0 < since)
    (hl : fs.lstat gran path = some (posix, i))
    (hk : (⟨.inode (posix.dev, posix.inode), since, version, false⟩ : Watch).Kept gran fs) :
    (⟨.path path, since, version, posix.ctimeNs = 0⟩ : Watch).Kept gran fs := by
  obtain ⟨hname, hinode, -, hc⟩ := Files.lstat_eq_some hl
  rintro key j ⟨hj, hj'⟩
  cases hname.symm.trans hj
  cases hinode.symm.trans hj'
  rcases hk _ i ⟨rfl, hinode⟩ with hv | ⟨h1, -⟩
  · exact .inl hv
  · refine .inr ⟨h1, fun h0 => ?_⟩
    simp only [decide_eq_true_eq] at h0
    rw [← hc, h0] at h1
    exact absurd hpos (not_lt.2 h1)

/-! ### Every step -/

/-- **Clean steps keep the invariant.** -/
theorem Sys.Inv.step (hg : ∀ d, 0 < gran d) (hp : chunker.params.Valid)
    (hs : s.Inv gran keys chunker) (h : Step gran keys chunker (CleanEvent gran) s s') :
    s'.Inv gran keys chunker := by
  cases h with
  | event hm hok h => exact hs.event hg hm hok h
  | tick h =>
    exact ⟨fun key i hi => ⟨(hs.timed key i hi).1, (hs.timed key i hi).2.trans h⟩, hs.numbered,
      hs.parent, hs.run, hs.parentStart⟩
  | start hrun hkeys hchunker hlinks hparent hattempt hpos =>
    refine hs.setRun (.start hkeys hchunker hlinks (by omega)) fun par hpar => ?_
    rw [hparent, hpar]
    rfl
  | walk hrun hsame hlinks =>
    exact hs.setRun ((hs.run _ hrun).walk hsame hlinks) fun par hpar =>
      hsame.parentStartNs.trans (hs.parentStart _ par hrun hpar)
  | @takeOver r par path rec size posix i source c b name xattrs hrun hvisit hpar
      hrec hl hreuse h =>
    have hr := hs.run r hrun
    have hsame := r.b.sameVisit_processFile source path (factsOf size posix) (some rec.entry)
    have hcases := r.b.processFile_cases (hr.sameChunker ▸ hp) source path (factsOf size posix)
      (some rec.entry)
    rw [h] at hsame hcases
    obtain ⟨hsound, hk⟩ := hs.parent par hpar path rec hrec
    have hstart := hs.parentStart r par hrun hpar
    generalize hlinks : b.hardlinks = links at hcases
    cases hcases with
    | reused hc =>
      obtain ⟨hver, hcontent, rfl⟩ := hsound.current hk hstart hl hc
      refine hs.setRun ((hr.walk hsame.toSameSetup hlinks).record ⟨hsound.holds, rfl⟩ ?_)
        fun par hpar =>
        hsame.parentStartNs.trans (hs.parentStart r par hrun hpar)
      rw [watch_posixFileEntry, ← hver]
      exact kept_path_of_version hl
    | shared hnot => exact absurd hnot hreuse
    | read hnot => exact absurd hnot hreuse
  | @share r path size version posix i source c b name bytes xattrs key hrun hvisit hl hnot hkey
      hread h =>
    have hr := hs.run r hrun
    have hsame := r.b.sameVisit_processFile source path (factsOf size posix) (s.parentEntry path)
    have hcases := r.b.processFile_cases (hr.sameChunker ▸ hp) source path (factsOf size posix)
      (s.parentEntry path)
    rw [h] at hsame hcases
    have hlink := hr.links key
    rw [hread] at hlink
    generalize hlinks : b.hardlinks = links at hcases
    cases hcases with
    | reused hc => rw [hnot] at hc; cases hc
    | shared _ hkey' hc =>
      rw [hkey] at hkey'
      cases hkey'
      rw [hlink] at hc
      cases hc
      refine hs.setRun
        ((hr.walk hsame.toSameSetup hlinks).record ⟨hr.readFrom key version bytes hread, rfl⟩ ?_)
        fun par hpar => hsame.parentStartNs.trans (hs.parentStart r par hrun hpar)
      rw [watch_posixFileEntry]
      exact kept_path_of_inode hr.pos hl (hardlinkKey_factsOf hkey ▸ hr.kept _ (.readFrom hread))
    | read _ hnew =>
      rw [hkey] at hnew
      rw [show (some key).bind r.b.hardlinks.lookup = r.b.hardlinks.lookup key from rfl,
        hlink] at hnew
      cases hnew
  | @lstat r path size posix i hrun hvisit hl =>
    have hr := hs.run r hrun
    obtain ⟨hname, hinode, -⟩ := Files.lstat_eq_some hl
    refine hs.setRun { hr with visit := fun v hv => ?_, kept := fun w hw => ?_ } fun par hpar =>
      hs.parentStart r par hrun hpar
    · cases hv
      refine ⟨nofun, fun key _ hkey => ?_⟩
      rw [hardlinkKey_factsOf hkey]
      exact ⟨.inl hname, by rw [hinode]; rfl⟩
    · cases hw with
      | entry hrec => exact hr.kept _ (.entry hrec)
      | readFrom hread => exact hr.kept _ (.readFrom hread)
      | visitPath hv ho => cases hv; cases ho
      | visitInode hv ho => cases hv; cases ho
  | @openFile r v posix i hrun hvisit hopened hl =>
    have hr := hs.run r hrun
    obtain ⟨hname, hinode, -⟩ := Files.lstat_eq_some hl
    refine hs.setRun { hr with visit := fun v' hv => ?_, kept := fun w hw => ?_ } fun par hpar =>
      hs.parentStart r par hrun hpar
    · cases hv
      refine ⟨fun version hv => ?_, nofun⟩
      cases hv
      exact hs.numbered _ _ hinode
    · cases hw with
      | entry hrec => exact hr.kept _ (.entry hrec)
      | readFrom hread => exact hr.kept _ (.readFrom hread)
      | visitPath hv ho =>
        cases hv
        cases ho
        exact kept_path_of_version hl
      | @visitInode _ _ key hv ho hkey =>
        cases hv
        cases ho
        -- the inode of the `lstat` is the one that was opened, or carries a late stamp
        rintro key' j ⟨rfl, hj⟩
        rcases ((hr.visit v hvisit).bound _ hopened hkey).1 with hb | ⟨j', hj', hstamp⟩
        · rw [hname] at hb
          cases hb
          rw [hinode] at hj
          cases hj
          exact .inl rfl
        · rw [hj] at hj'
          cases hj'
          exact .inr ⟨hstamp, nofun⟩
  | @readFile r v source version bytes name c b xattrs hrun hvisit hopened hnot
      hnew hread hbytes h =>
    have hr := hs.run r hrun
    have hsame := r.b.sameVisit_processFile source v.path v.facts (s.parentEntry v.path)
    have hcases := r.b.processFile_cases (hr.sameChunker ▸ hp) source v.path v.facts
      (s.parentEntry v.path)
    rw [h] at hsame hcases
    have hstart : ∀ par, s.parent = some par → b.parentStartNs = par.timeNs := fun par hpar =>
      hsame.parentStartNs.trans (hs.parentStart r par hrun hpar)
    have hh : s.fs.Holds s.fresh version bytes :=
      ⟨(hr.visit v hvisit).opened version hopened, hbytes⟩
    generalize hlinks : b.hardlinks = links at hcases
    cases hcases with
    | reused hc => rw [hnot] at hc; cases hc
    | shared _ hkey hc => rw [hkey] at hnew; exact absurd (hc.symm.trans hnew) (by simp)
    | read _ _ hb =>
      rw [hread] at hb
      cases hb
      rw [hr.sameKeys, hr.sameChunker] at hlinks ⊢
      have hrec : Recorded.Sound keys chunker s.fs s.fresh
          ⟨posixFileEntry name (contentOf keys chunker bytes) v.posix xattrs, version, bytes⟩ :=
        ⟨hh, rfl⟩
      have hkept : (⟨.path v.path, r.timeNs, version, v.posix.ctimeNs = 0⟩ : Watch).Kept
        gran s.fs :=
        hr.kept _ (.visitPath hvisit hopened)
      cases hkey : hardlinkKey v.facts with
      | none =>
        rw [hkey] at hlinks
        exact hs.setRun ((hr.walk hsame.toSameSetup hlinks).record hrec
          (by rw [watch_posixFileEntry]; exact hkept)) hstart
      | some key =>
        rw [hkey] at hlinks
        exact hs.setRun ((hr.insertRead hlinks hsame.toSameSetup hh
          (hr.kept _ (.visitInode hvisit hopened hkey))).record hrec
          (by rw [watch_posixFileEntry]; exact hkept)) hstart
  | @skipFile r v source b hrun hvisit h =>
    have hr := hs.run r hrun
    have hsame := r.b.sameVisit_processFile source v.path v.facts (s.parentEntry v.path)
    have hcases := r.b.processFile_cases (hr.sameChunker ▸ hp) source v.path v.facts
      (s.parentEntry v.path)
    rw [h] at hsame hcases
    generalize hlinks : b.hardlinks = links at hcases
    cases hcases with
    | skipped =>
      exact hs.setRun (hr.walk hsame.toSameSetup hlinks).endVisit fun par hpar =>
        hsame.parentStartNs.trans (hs.parentStart r par hrun hpar)
  | @commit r hrun hvisit =>
    have hr := hs.run r hrun
    refine ⟨hs.timed, hs.numbered, fun par hpar path rec hrec => ?_, nofun, nofun⟩
    cases hpar
    exact ⟨hr.entries path rec hrec, hr.kept _ (.entry hrec)⟩
  | abort => exact ⟨hs.timed, hs.numbered, hs.parent, nofun, nofun⟩

theorem Sys.Inv.init (h : Init s) : s.Inv gran keys chunker where
  timed key i hi := by rw [h.2.1] at hi; cases hi
  numbered key i hi := by rw [h.2.1] at hi; cases hi
  parent par hpar := by rw [h.2.2.1] at hpar; cases hpar
  run r hr := by rw [h.2.2.2] at hr; cases hr
  parentStart r par hr := by rw [h.2.2.2] at hr; cases hr

/-- **The fast path takes over current content.** In every clean run, when a visit takes over the
entry of the parent snapshot, the file still has the content that was read for that entry. -/
theorem tryReuse_current (hg : ∀ d, 0 < gran d) (hp : chunker.params.Valid)
    (h : Reachable Init (Step gran keys chunker (CleanEvent gran)) s) {r : Run} {par : Snap}
    {size : ℕ} {c : FileContent} (hrun : s.run = some r) (hpar : s.parent = some par)
    (hrec : par.entries.lookup path = some rec) (hl : s.fs.lstat gran path = some (posix, i))
    (hc : (r.b.tryReuse (factsOf size posix) (some rec.entry)).1 = some c) :
    i.version = rec.version ∧ i.content = rec.bytes ∧ c = contentOf keys chunker rec.bytes := by
  have hs : s.Inv gran keys chunker :=
    h.invariant (fun _ h0 => .init h0) fun _ _ hs hstep => hs.step hg hp hstep
  obtain ⟨hsound, hk⟩ := hs.parent par hpar path rec hrec
  exact hsound.current hk (hs.parentStart r par hrun hpar) hl hc

end Proofs

/-! ### Runs on a device with coarse timestamps -/

/-- Keys under which the name of a chunk spells the chunk. -/
def plainKeys : RepoKeys where
  chunkId := List.foldl (fun n x => 256 * n + x.toNat) 1
  treeId _ := 1
  packId nonce _ := nonce + 1
  objectId _ := 1
  sealedLen := List.length
  packLen := List.length
  encodeList _ := []
  decodeList _ := none

/-- A chunker with the default parameters. -/
def plainChunker : Chunking.Chunker := ⟨.default, 0, 0⟩

/-- A backup that starts with the given places in its index. -/
def plainBackup (overlay : Dict ChunkId ChunkLocation) (parentStartNs : ℤ) : Backup where
  repo := ⟨plainKeys, ⟨.default, 1000, 0⟩, ⟨∅, ∅, ∅, ∅, ∅, ∅, ∅, ∅⟩⟩
  chunker := plainChunker
  packer := .new
  index := ⟨overlay, none, ∅⟩
  seenTrees := []
  newPacks := []
  stats := {}
  report := {}
  parentStartNs
  marked := []
  marksAtStart := ∅
  referenced := ∅
  hardlinks := ∅
  countedHardlinks := []
  tick := 0
  nonce := 0
  now := 0

/-- A file with the content `content` since the time `m`, the only one. -/
def oneFile (content : Bytes) (m : ℤ) (version : ℕ) : Files :=
  ⟨(∅ : Dict RelPath InodeKey).insert [[102]] (0, 5),
    (∅ : Dict InodeKey Inode).insert (0, 5) ⟨content, 0o100644, 0, 0, m, m, version⟩⟩

/-- What `lstat` finds of a file of the time 12 where timestamps are multiples of 10. -/
def onePosix : PosixMeta := ⟨0o100644, 0, 0, 10, 10, 5, 0, 1⟩

/-- The entry of the file after its content `[1]` was read. -/
def oneEntry : Entry := posixFileEntry [102] ⟨1, [257], .direct⟩ onePosix none

/-- The entries of a snapshot of the file. -/
def oneEntries : Dict RelPath Recorded :=
  (∅ : Dict RelPath Recorded).insert [[102]] ⟨oneEntry, 0, [1]⟩

/-- A source that delivers the byte 1. -/
def oneSource : Source where
  metaKind := .posix
  list _ _ := .ok []
  read _ _ := .bytes [1]
  probe _ _ _ := .ok none
  lstat _ _ := none
  xattrs _ _ := none

/-- A file is created at the time 12, and a backup that starts at `t` reads it. -/
theorem reachable_oneFile {ok : Sys → ℤ → Event → Prop} {t : ℤ} (ht : 12 ≤ t)
    (hok : ∀ s m e, s.parent = none → s.run = none → ok s m e) :
    ∃ b, Reachable Init (Step (fun _ => 10) plainKeys plainChunker ok)
      ⟨t, 1, oneFile [1] 12 0, none, some ⟨b, t, oneEntries, ∅, none⟩⟩ := by
  have hc : ((plainBackup ∅ 0).processFile oneSource [[102]] (factsOf 1 onePosix) none).1 =
      some ⟨1, [257], .direct⟩ := by decide
  have hl : (oneFile [1] 12 0).lstat (fun _ => 10) [[102]] =
      some (onePosix, ⟨[1], 0o100644, 0, 0, 12, 12, 0⟩) := rfl
  rcases hb : (plainBackup ∅ 0).processFile oneSource [[102]] (factsOf 1 onePosix) none with ⟨c, b⟩
  rw [hb] at hc
  cases hc
  have h0 : Reachable Init (Step (fun _ => 10) plainKeys plainChunker ok)
      ⟨12, 0, ⟨∅, ∅⟩, none, none⟩ := .init ⟨rfl, rfl, rfl, rfl⟩
  have hcreate : Event.apply 12 0 ⟨∅, ∅⟩ (.create [[102]] (0, 5) 0o100644 0 0 [1]) =
      some (oneFile [1] 12 0) := rfl
  have h1 := h0.step (.event le_rfl (hok _ _ _ rfl rfl) hcreate)
  have h2 := h1.step (.tick ht)
  have h3 := h2.step (.start (b := plainBackup ∅ 0) (n := 0) rfl rfl rfl rfl rfl (by decide)
    (by dsimp only; omega))
  rw [Nat.cast_zero, add_zero] at h3
  have h4 := h3.step (.lstat (n := 1) rfl rfl hl)
  have h5 := h4.step (.openFile rfl rfl rfl hl)
  have h6 := h5.step (.readFile (n := [102]) (x := none) rfl rfl rfl rfl rfl
    rfl (fun key i hi hv => by
      simp only [oneFile, Dict.lookup_insert'] at hi
      split_ifs at hi
      · cases hi; rfl
      · cases hi) hb)
  exact ⟨b, h6⟩

/-- An instance: the file is read after its tick is over, and the next backup takes it over. -/
theorem tryReuse_current_oneFile :
    ∃ (s : Sys) (r : Run) (c : FileContent),
      Reachable Init (Step (fun _ => 10) plainKeys plainChunker (CleanEvent fun _ => 10)) s ∧
      s.run = some r ∧ (r.b.tryReuse (factsOf 1 onePosix) (some oneEntry)).1 = some c ∧
      c = contentOf plainKeys plainChunker [1] := by
  have hok : ∀ s m e, s.parent = none → s.run = none → CleanEvent (fun _ => 10) s m e := by
    intro s m e hpar hrun
    refine ⟨fun w hw => ?_, fun r v key k i hr => ?_⟩
    · cases hw with
      | parent hp => rw [hpar] at hp; cases hp
      | run hr => rw [hrun] at hr; cases hr
    · rw [hrun] at hr; cases hr
  obtain ⟨b, h⟩ := reachable_oneFile (t := 25) (by decide) hok
  have h1 := h.step (.commit rfl rfl)
  have h2 := h1.step (.start (b := plainBackup ((∅ : Dict _ _).insert 257 ⟨3, 8, 42, 1⟩) 25)
    (n := 0) rfl rfl rfl rfl rfl (by decide) (by dsimp only; decide))
  have hc : ((plainBackup ((∅ : Dict _ _).insert 257 ⟨3, 8, 42, 1⟩) 25).tryReuse
      (factsOf 1 onePosix) (some oneEntry)).1 = some ⟨1, [257], .direct⟩ := by decide
  exact ⟨_, _, _, h2, rfl, hc, (tryReuse_current (fun _ => by decide)
    (ChunkerParams.valid_of_validate (by decide)) h2 rfl rfl
    (show oneEntries.lookup [[102]] = some ⟨oneEntry, 0, [1]⟩ from rfl)
    (show (oneFile [1] 12 0).lstat (fun _ => 10) [[102]] =
      some (onePosix, ⟨[1], 0o100644, 0, 0, 12, 12, 0⟩) from rfl) hc).2.2⟩

/-- A backup starts and reads the file within the tick of its creation, and the file is written once
more within that tick. The stamps lie before the start of the backup, and the next backup takes the
old content over. -/
theorem not_tryReuse_current :
    ¬∀ (gran : ℕ → ℤ) (keys : RepoKeys) (chunker : Chunking.Chunker) (s : Sys)
      (r : Run) (par : Snap)
      (path : RelPath) (rec : Recorded) (posix : PosixMeta) (i : Inode) (size : ℕ)
      (c : FileContent), (∀ d, 0 < gran d) → chunker.params.Valid →
      Reachable Init (Step gran keys chunker fun _ _ _ => True) s →
      s.run = some r → s.parent = some par → par.entries.lookup path = some rec →
      s.fs.lstat gran path = some (posix, i) →
      (r.b.tryReuse (factsOf size posix) (some rec.entry)).1 = some c →
        i.version = rec.version ∧ i.content = rec.bytes := by
  intro hall
  have hok : ∀ s m e, s.parent = none → s.run = none → (fun _ _ _ => True : Sys → ℤ → Event → Prop)
      s m e := fun _ _ _ _ _ => trivial
  obtain ⟨b, h⟩ := reachable_oneFile (t := 15) (by decide) hok
  have hwrite : Event.apply 17 1 (oneFile [1] 12 0) (.write (0, 5) [2]) =
      some (oneFile [2] 17 1) := rfl
  have h1 := h.step (.event (by dsimp only; decide) trivial hwrite)
  have h2 := h1.step (.commit rfl rfl)
  have h3 := h2.step (.start (b := plainBackup ((∅ : Dict _ _).insert 257 ⟨3, 8, 42, 1⟩) 15)
    (n := 0) rfl rfl rfl rfl rfl (by decide) (by dsimp only; decide))
  have hc : ((plainBackup ((∅ : Dict _ _).insert 257 ⟨3, 8, 42, 1⟩) 15).tryReuse
      (factsOf 1 onePosix) (some oneEntry)).1 = some ⟨1, [257], .direct⟩ := by decide
  have := hall (fun _ => 10) plainKeys plainChunker _ _ _ [[102]] ⟨oneEntry, 0, [1]⟩ onePosix
    ⟨[2], 0o100644, 0, 0, 17, 17, 1⟩ 1 _ (fun _ => by decide)
    (ChunkerParams.valid_of_validate (by decide)) h3 rfl rfl rfl rfl hc
  exact absurd this.1 (by decide)

end FileHistory
end Kist
