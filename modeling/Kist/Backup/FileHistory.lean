import Kist.Backup.File

/-!
# Files that change

A local file system as a backup meets it. A change stamps the inode with the time of the change,
rounded down to the granularity of the timestamps of its device; no change sets the `ctime` to
anything else. The rename of a directory stamps none of the files below it, although it gives all of
them another path.

A *watch* remembers which content a path or an inode had at some moment, and a time `since`. It is
*kept* as long as the content is still the same or the stamps of the inode have reached `since`.
`Watch.kept_apply` says that a change keeps a watch unless it replaces the content under a stamp
before `since`.
-/

namespace Kist
namespace FileHistory

/-- A time rounded down to a granularity. -/
def stamp (gran : ℤ) (t : ℤ) : ℤ := t / gran * gran

theorem stamp_mono {gran : ℤ} (hg : 0 < gran) {t t' : ℤ} (h : t ≤ t') :
    stamp gran t ≤ stamp gran t' :=
  mul_le_mul_of_nonneg_right (Int.ediv_le_ediv hg h) hg.le

/-- An inode: its content, its attributes, the exact times of the last change of its content and of
its last change of any kind, and the number of the change that gave it its content. -/
structure Inode where
  content : Bytes
  mode : ℕ
  uid : ℕ
  gid : ℕ
  modified : ℤ
  changed : ℤ
  version : ℕ

/-- The names of the files and their inodes. -/
structure Files where
  names : Dict RelPath InodeKey
  inodes : Dict InodeKey Inode

namespace Files

/-- `lstat` of a path. `gran` is the granularity of the timestamps of each device. -/
def lstat (gran : ℕ → ℤ) (fs : Files) (path : RelPath) : Option (PosixMeta × Inode) := do
  let key ← fs.names.lookup path
  let i ← fs.inodes.lookup key
  let nlink := fs.names.entries.countP fun e => e.2 = key
  return (⟨i.mode, i.uid, i.gid, stamp (gran key.1) i.modified, stamp (gran key.1) i.changed,
    key.2, key.1, nlink⟩, i)

/-- An attribute of an inode changed. -/
def change (fs : Files) (key : InodeKey) (m : ℤ) : Files :=
  match fs.inodes.lookup key with
  | some i => { fs with inodes := fs.inodes.insert key { i with changed := m } }
  | none => fs

/-- A name goes, which changes the link count of its inode. -/
def drop (fs : Files) (path : RelPath) (m : ℤ) : Files :=
  match fs.names.lookup path with
  | some key => ({ fs with names := fs.names.erase path } : Files).change key m
  | none => fs

/-- Where a path leads when the directory `src` is renamed to `dst`. -/
def moved (src dst path : RelPath) : RelPath :=
  if src <+: path then dst ++ path.drop src.length else path

/-- What is below `src` moves below `dst`; the inodes stay as they are. -/
def moveDir (fs : Files) (src dst : RelPath) : Files :=
  { fs with names := fs.names.mapKeys (moved src dst) }

end Files

/-- What happens to files. The rename of a file is a link followed by an unlink. -/
inductive Event
  | write (key : InodeKey) (content : Bytes)
  | setattr (key : InodeKey) (mode uid gid : ℕ)
  | create (path : RelPath) (key : InodeKey) (mode uid gid : ℕ) (content : Bytes)
  | link (path : RelPath) (key : InodeKey)
  | unlink (path : RelPath)
  | moveDir (src dst : RelPath)

/-- An event at the time `m`. `version` is the number that a new content gets. -/
def Event.apply (m : ℤ) (version : ℕ) (fs : Files) : Event → Option Files
  | .write key content => do
    let i ← fs.inodes.lookup key
    return { fs with
      inodes := fs.inodes.insert key { i with content, modified := m, changed := m, version } }
  | .setattr key mode uid gid => do
    let i ← fs.inodes.lookup key
    return { fs with inodes := fs.inodes.insert key { i with mode, uid, gid, changed := m } }
  | .create path key mode uid gid content =>
    let fs := fs.drop path m
    if ∀ e ∈ fs.names.entries, e.2 ≠ key then
      some { names := fs.names.insert path key
             inodes := fs.inodes.insert key ⟨content, mode, uid, gid, m, m, version⟩ }
    else none
  | .link path key => do
    let fs := fs.drop path m
    let _ ← fs.inodes.lookup key
    return ({ fs with names := fs.names.insert path key } : Files).change key m
  | .unlink path => some (fs.drop path m)
  | .moveDir src dst =>
    if ¬src <+: dst ∧ ∀ e ∈ fs.names.entries, ¬dst <+: e.1 then some (fs.moveDir src dst) else none

/-! ### Watches -/

/-- A place whose content is watched: what a path shows, or an inode. -/
inductive Place
  | path (p : RelPath)
  | inode (key : InodeKey)

/-- The inode `i` with the key `key` is what the place shows. -/
def Files.Shows (fs : Files) (place : Place) (key : InodeKey) (i : Inode) : Prop :=
  (match place with
    | .path p => fs.names.lookup p = some key
    | .inode k => k = key) ∧ fs.inodes.lookup key = some i

/-- A watched place, the content it had, and the time that later stamps have to reach. `byMtime`
says that only the `mtime` will be compared. -/
structure Watch where
  place : Place
  since : ℤ
  version : ℕ
  byMtime : Bool

namespace Watch

variable (gran : ℕ → ℤ) (w : Watch)

/-- The inode still has the watched content, or its stamps have reached the time. -/
def KeptBy (key : InodeKey) (i : Inode) : Prop :=
  i.version = w.version ∨ (w.since ≤ stamp (gran key.1) i.changed ∧
    (w.byMtime = true → w.since ≤ stamp (gran key.1) i.modified))

/-- Whatever the watched place shows keeps the watch. -/
def Kept (fs : Files) : Prop := ∀ key i, fs.Shows w.place key i → w.KeptBy gran key i

/-- The event does not replace the watched content under a stamp before the time. -/
def Clean (m : ℤ) (fs : Files) : Event → Prop
  | .write key _ => (∃ i, fs.Shows w.place key i) → w.since ≤ stamp (gran key.1) m
  | .create path key .. =>
    w.place = .path path ∨ w.place = .inode key → w.since ≤ stamp (gran key.1) m
  | .link path key =>
    w.place = .path path → ∀ i, fs.inodes.lookup key = some i → i.version ≠ w.version →
      w.since ≤ stamp (gran key.1) m ∧
        (w.byMtime = true → w.since ≤ stamp (gran key.1) i.modified)
  | .moveDir src dst => ∀ rest key i, w.place = .path (dst ++ rest) →
    fs.names.lookup (src ++ rest) = some key → fs.inodes.lookup key = some i → w.KeptBy gran key i
  | .setattr .. | .unlink _ => True

end Watch

/-- The times of an inode are in order and not ahead of the clock. -/
def Files.Timed (fs : Files) (now : ℤ) : Prop :=
  ∀ key i, fs.inodes.lookup key = some i → i.modified ≤ i.changed ∧ i.changed ≤ now

section Apply

variable {gran : ℕ → ℤ} {w : Watch} {fs fs' : Files} {m : ℤ} {place : Place} {key : InodeKey}
  {i : Inode}

theorem Files.lookup_change {k : InodeKey} :
    (fs.change k m).inodes.lookup key = some i →
      fs.inodes.lookup key = some i ∨
        ∃ j, key = k ∧ fs.inodes.lookup key = some j ∧ i = { j with changed := m } := by
  unfold Files.change
  cases hk : fs.inodes.lookup k with
  | none => exact .inl
  | some j =>
    intro h
    simp only [Dict.lookup_insert'] at h
    split_ifs at h with he
    · subst he
      cases h
      exact .inr ⟨j, rfl, hk, rfl⟩
    · exact .inl h

theorem Files.names_change {k : InodeKey} : (fs.change k m).names = fs.names := by
  unfold Files.change; split <;> rfl

theorem Files.lookup_drop {p : RelPath} (h : (fs.drop p m).inodes.lookup key = some i) :
    fs.inodes.lookup key = some i ∨
      ∃ j, fs.inodes.lookup key = some j ∧ i = { j with changed := m } := by
  unfold Files.drop at h
  split at h
  · rcases Files.lookup_change h with h' | ⟨j, -, hj, hi⟩
    · exact .inl h'
    · exact .inr ⟨j, hj, hi⟩
  · exact .inl h

theorem Files.names_drop {p q : RelPath} :
    (fs.drop p m).names.lookup q = if q = p then none else fs.names.lookup q := by
  unfold Files.drop
  split
  · rw [Files.names_change, Dict.lookup_erase']
  · next h =>
    split_ifs with hq
    · rw [hq, h]
    · rfl

/-- A later change of the same content keeps a watch. -/
theorem Watch.KeptBy.mono {j : Inode} (hg : 0 < gran key.1) (h : w.KeptBy gran key j)
    (hv : i.version = j.version) (hm : i.modified = j.modified) (hc : j.changed ≤ i.changed) :
    w.KeptBy gran key i := by
  rcases h with h | ⟨h1, h2⟩
  · exact .inl (hv.trans h)
  · exact .inr ⟨h1.trans (stamp_mono hg hc), fun hb => hm ▸ h2 hb⟩

/-- What an event binds a path to, if it binds it anew. -/
def Event.rebinds (fs : Files) (p : RelPath) : Event → Option (Option InodeKey)
  | .create path key .. | .link path key => if p = path then some (some key) else none
  | .unlink path => if p = path then some none else none
  | .moveDir src dst =>
    if dst <+: p then some (fs.names.lookup (src ++ p.drop dst.length))
    else if src <+: p then some none else none
  | .write .. | .setattr .. => none

/-- What lies below the new name of a directory lay below its old name before. -/
theorem Files.names_moveDir {src dst p : RelPath}
    (hdst : ∀ e ∈ fs.names.entries, ¬dst <+: e.1) :
    (fs.moveDir src dst).names.lookup p =
      if dst <+: p then fs.names.lookup (src ++ p.drop dst.length)
      else if src <+: p then none else fs.names.lookup p := by
  have hfree : ∀ q k, fs.names.lookup q = some k → ¬dst <+: q := fun q k h =>
    hdst ⟨q, k⟩ (AList.mem_lookup_iff.1 h)
  have hmoved : ∀ q, src <+: q → Files.moved src dst q = dst ++ q.drop src.length := fun q h =>
    if_pos h
  have hkept : ∀ q, ¬src <+: q → Files.moved src dst q = q := fun q h => if_neg h
  -- nothing stood below the new name, so no two paths meet there
  have hinj : ∀ a ∈ fs.names, ∀ b ∈ fs.names, Files.moved src dst a = Files.moved src dst b →
      a = b := by
    intro a ha b hb h
    obtain ⟨ka, hka⟩ := Option.isSome_iff_exists.1 (AList.lookup_isSome.2 ha)
    obtain ⟨kb, hkb⟩ := Option.isSome_iff_exists.1 (AList.lookup_isSome.2 hb)
    by_cases hsa : src <+: a <;> by_cases hsb : src <+: b
    · obtain ⟨ra, rfl⟩ := hsa
      obtain ⟨rb, rfl⟩ := hsb
      simpa [Files.moved] using h
    · rw [hmoved a hsa, hkept b hsb] at h
      exact absurd ⟨_, h⟩ (hfree b kb hkb)
    · rw [hkept a hsa, hmoved b hsb] at h
      exact absurd ⟨_, h.symm⟩ (hfree a ka hka)
    · rwa [hkept a hsa, hkept b hsb] at h
  have hlookup : ∀ k, (fs.moveDir src dst).names.lookup p = some k ↔
      ∃ a, Files.moved src dst a = p ∧ fs.names.lookup a = some k := fun k =>
    Dict.lookup_mapKeys hinj
  refine Option.ext fun k => (hlookup k).trans ?_
  by_cases hp : dst <+: p
  · rw [if_pos hp]
    obtain ⟨rest, rfl⟩ := hp
    rw [List.drop_left]
    constructor
    · rintro ⟨a, ha, hk⟩
      by_cases hsa : src <+: a
      · obtain ⟨ra, rfl⟩ := hsa
        rw [hmoved _ (List.prefix_append ..), List.drop_left, List.append_cancel_left_eq] at ha
        rwa [← ha]
      · rw [hkept a hsa] at ha
        exact absurd ⟨rest, ha.symm⟩ (hfree a k hk)
    · intro hk
      exact ⟨src ++ rest, by rw [hmoved _ (List.prefix_append ..), List.drop_left], hk⟩
  · rw [if_neg hp]
    have hout : ∀ a, src <+: a → Files.moved src dst a ≠ p := fun a ha h =>
      hp ⟨_, (hmoved a ha).symm.trans h⟩
    -- below the old name nothing is left
    by_cases hs : src <+: p
    · rw [if_pos hs]
      refine iff_of_false ?_ nofun
      rintro ⟨a, ha, -⟩
      by_cases hsa : src <+: a
      · exact hout a hsa ha
      · exact hsa ((hkept a hsa).symm.trans ha ▸ hs)
    · rw [if_neg hs]
      constructor
      · rintro ⟨a, ha, hk⟩
        by_cases hsa : src <+: a
        · exact absurd ha (hout a hsa)
        · rwa [← (hkept a hsa).symm.trans ha]
      · exact fun hk => ⟨p, hkept p hs, hk⟩

theorem Event.moveDir_eq {version : ℕ} {src dst : RelPath}
    (h : (Event.moveDir src dst).apply m version fs = some fs') :
    (∀ e ∈ fs.names.entries, ¬dst <+: e.1) ∧ fs' = fs.moveDir src dst := by
  simp only [Event.apply] at h
  split_ifs at h with hfree
  exact ⟨hfree.2, (Option.some.inj h).symm⟩

theorem Event.names_apply {version : ℕ} {e : Event} (h : e.apply m version fs = some fs')
    (p : RelPath) : fs'.names.lookup p = (e.rebinds fs p).getD (fs.names.lookup p) := by
  cases e with
  | write k content | setattr k mode uid gid =>
    simp only [Event.apply, bind, Option.bind_eq_some_iff, pure, Option.some.injEq] at h
    obtain ⟨j, hj, rfl⟩ := h
    rfl
  | create path k mode uid gid content =>
    simp only [Event.apply] at h
    split_ifs at h
    cases h
    simp only [Dict.lookup_insert', Files.names_drop, Event.rebinds]
    split_ifs <;> rfl
  | link path k =>
    simp only [Event.apply, bind, Option.bind_eq_some_iff, pure, Option.some.injEq] at h
    obtain ⟨j, hj, rfl⟩ := h
    rw [Files.names_change]
    simp only [Dict.lookup_insert', Files.names_drop, Event.rebinds]
    split_ifs <;> rfl
  | unlink path =>
    cases h
    rw [Files.names_drop, Event.rebinds]
    split_ifs <;> rfl
  | moveDir src dst =>
    obtain ⟨hdst, rfl⟩ := Event.moveDir_eq h
    rw [Files.names_moveDir hdst, Event.rebinds]
    split_ifs <;> rfl

/-- The same content, under attributes that may differ. -/
structure Inode.SameContent (i j : Inode) : Prop where
  version : i.version = j.version
  content : i.content = j.content
  modified : i.modified = j.modified

/-- What an event does to an inode: it gives it a new content, or leaves the content and at most
records the time as that of its last change. -/
theorem Event.inode_apply {version : ℕ} {e : Event} (h : e.apply m version fs = some fs')
    (hi : fs'.inodes.lookup key = some i) :
    (i.version = version ∧ i.modified = m ∧ i.changed = m ∧
      ((∃ c j, e = .write key c ∧ fs.inodes.lookup key = some j) ∨
        ∃ path mode uid gid c, e = .create path key mode uid gid c)) ∨
    ((∀ path mode uid gid c, e ≠ .create path key mode uid gid c) ∧
      ∃ j, fs.inodes.lookup key = some j ∧ i.SameContent j ∧
        (i.changed = j.changed ∨ i.changed = m)) := by
  -- the link count of an inode that loses a name changes, and with it only its ctime
  have hdrop : ∀ {p k}, (fs.drop p m).inodes.lookup key = some k →
      ∃ j, fs.inodes.lookup key = some j ∧ k.SameContent j ∧
        (k.changed = j.changed ∨ k.changed = m) := by
    intro p k hk
    rcases Files.lookup_drop hk with hk | ⟨j, hj, rfl⟩
    · exact ⟨k, hk, ⟨rfl, rfl, rfl⟩, .inl rfl⟩
    · exact ⟨j, hj, ⟨rfl, rfl, rfl⟩, .inr rfl⟩
  cases e with
  | write k content =>
    simp only [Event.apply, bind, Option.bind_eq_some_iff, pure, Option.some.injEq] at h
    obtain ⟨j, hj, rfl⟩ := h
    simp only [Dict.lookup_insert'] at hi
    split_ifs at hi with hk
    · subst hk
      cases hi
      exact .inl ⟨rfl, rfl, rfl, .inl ⟨content, j, rfl, hj⟩⟩
    · exact .inr ⟨by simp, i, hi, ⟨rfl, rfl, rfl⟩, .inl rfl⟩
  | setattr k mode uid gid =>
    simp only [Event.apply, bind, Option.bind_eq_some_iff, pure, Option.some.injEq] at h
    obtain ⟨j, hj, rfl⟩ := h
    simp only [Dict.lookup_insert'] at hi
    split_ifs at hi with hk
    · subst hk
      cases hi
      exact .inr ⟨by simp, j, hj, ⟨rfl, rfl, rfl⟩, .inr rfl⟩
    · exact .inr ⟨by simp, i, hi, ⟨rfl, rfl, rfl⟩, .inl rfl⟩
  | create path k mode uid gid content =>
    simp only [Event.apply] at h
    split_ifs at h with hfree
    cases h
    simp only [Dict.lookup_insert'] at hi
    split_ifs at hi with hk
    · subst hk
      cases hi
      exact .inl ⟨rfl, rfl, rfl, .inr ⟨path, mode, uid, gid, content, rfl⟩⟩
    · exact .inr ⟨fun _ _ _ _ _ he => hk (by cases he; rfl), hdrop hi⟩
  | link path k =>
    simp only [Event.apply, bind, Option.bind_eq_some_iff, pure, Option.some.injEq] at h
    obtain ⟨-, -, rfl⟩ := h
    refine .inr ⟨by simp, ?_⟩
    rcases Files.lookup_change hi with hi | ⟨j', -, hj', rfl⟩
    · exact hdrop hi
    · obtain ⟨j, hj, hs, -⟩ := hdrop hj'
      exact ⟨j, hj, ⟨hs.version, hs.content, hs.modified⟩, .inr rfl⟩
  | unlink path =>
    cases h
    exact .inr ⟨by simp, hdrop hi⟩
  -- the paths below a renamed directory move, and no inode is touched
  | moveDir src dst =>
    obtain ⟨-, rfl⟩ := Event.moveDir_eq h
    exact .inr ⟨by simp, i, hi, ⟨rfl, rfl, rfl⟩, .inl rfl⟩

/-- A link changes the inode it names. -/
theorem Event.changed_link {version : ℕ} {path : RelPath}
    (h : (Event.link path key).apply m version fs = some fs')
    (hi : fs'.inodes.lookup key = some i) : i.changed = m := by
  simp only [Event.apply, bind, Option.bind_eq_some_iff, pure, Option.some.injEq] at h
  obtain ⟨j, hj, rfl⟩ := h
  unfold Files.change at hi
  simp only [hj, Dict.lookup_insert', if_true, Option.some.injEq] at hi
  rw [← hi]

/-- A file is created under a key that has no other name. -/
theorem Event.free_create {version mode uid gid : ℕ} {path p : RelPath} {content : Bytes}
    (h : (Event.create path key mode uid gid content).apply m version fs = some fs')
    (hp : p ≠ path) : fs.names.lookup p ≠ some key := by
  intro hl
  simp only [Event.apply] at h
  split_ifs at h with hfree
  have hd : (fs.drop path m).names.lookup p = some key := by rw [Files.names_drop, if_neg hp, hl]
  exact hfree ⟨p, key⟩ (AList.mem_lookup_iff.1 hd) rfl

/-- An event leaves the times in order. -/
theorem Files.Timed.apply {now : ℤ} (ht : fs.Timed now) (hm : now ≤ m) {version : ℕ} {e : Event}
    (h : e.apply m version fs = some fs') : fs'.Timed m := by
  intro key i hi
  rcases Event.inode_apply h hi with ⟨-, hmod, hch, -⟩ | ⟨-, j, hj, hs, hch⟩
  · exact ⟨by rw [hmod, hch], hch.le⟩
  · obtain ⟨h1, h2⟩ := ht key j hj
    have := hs.modified
    rcases hch with hch | hch
    · exact ⟨by omega, by omega⟩
    · exact ⟨by omega, by omega⟩

/-- **A clean event keeps a watch.** -/
theorem Watch.kept_apply (hg : ∀ d, 0 < gran d) (ht : fs.Timed m) {version : ℕ}
    {e : Event} (hw : w.Kept gran fs) (hc : w.Clean gran m fs e)
    (h : e.apply m version fs = some fs') : w.Kept gran fs' := by
  intro key i hs
  obtain ⟨hplace, hi⟩ := hs
  rcases Event.inode_apply h hi with ⟨-, hmod, hch, he⟩ | ⟨hcreate, j, hj, hsame, hch⟩
  · -- a new content: the place showed the inode before, or was bound to the new one
    have hstamp : w.since ≤ stamp (gran key.1) m := by
      rcases he with ⟨c, j, rfl, hj⟩ | ⟨path, mode, uid, gid, c, rfl⟩
      · refine hc ⟨j, ?_, hj⟩
        cases hpl : w.place with
        | path p =>
          simpa only [hpl, Event.names_apply h p, Event.rebinds, Option.getD_none] using hplace
        | inode k => simpa only [hpl] using hplace
      · refine hc ?_
        cases hpl : w.place with
        | path p =>
          simp only [hpl, Event.names_apply h p, Event.rebinds] at hplace
          by_cases hp : p = path
          · exact .inl (by rw [hp])
          · rw [if_neg hp] at hplace
            exact absurd hplace (Event.free_create h hp)
        | inode k =>
          simp only [hpl] at hplace
          exact .inr (by rw [hplace])
    exact .inr ⟨by rw [hch]; exact hstamp, fun _ => by rw [hmod]; exact hstamp⟩
  · have hle : j.changed ≤ i.changed := by
      have := (ht key j hj).2
      rcases hch with hch | hch <;> omega
    have hother : fs.Shows w.place key j → w.KeptBy gran key i := fun hs =>
      (hw key j hs).mono (hg _) hsame.version hsame.modified hle
    cases hpl : w.place with
    | inode k =>
      refine hother ⟨?_, hj⟩
      simpa only [hpl] using hplace
    | path p =>
      simp only [hpl] at hplace hother
      have hnames := Event.names_apply h p
      rw [hplace] at hnames
      cases e with
      | write | setattr => exact hother ⟨hnames.symm, hj⟩
      | create path k mode uid gid c =>
        simp only [Event.rebinds] at hnames
        split_ifs at hnames with hp
        · exact absurd (by rw [Option.some.inj hnames]) (hcreate path mode uid gid c)
        · exact hother ⟨hnames.symm, hj⟩
      | link path k =>
        simp only [Event.rebinds] at hnames
        split_ifs at hnames with hp
        · -- the watched path now shows the linked inode, stamped with this change
          cases hnames
          subst hp
          by_cases hver : j.version = w.version
          · exact .inl (hsame.version.trans hver)
          · obtain ⟨h1, h2⟩ := hc hpl j hj hver
            exact .inr ⟨by rw [Event.changed_link h hi]; exact h1,
              fun hb => by rw [hsame.modified]; exact h2 hb⟩
        · exact hother ⟨hnames.symm, hj⟩
      | unlink path =>
        simp only [Event.rebinds] at hnames
        split_ifs at hnames with hp
        · cases hnames
        · exact hother ⟨hnames.symm, hj⟩
      | moveDir src dst =>
        simp only [Event.rebinds] at hnames
        split_ifs at hnames with hp hs
        · -- the path shows a file that has come with its directory, under the stamps it had
          obtain ⟨rest, rfl⟩ := hp
          rw [List.drop_left] at hnames
          exact (hc rest key j hpl hnames.symm hj).mono (hg _) hsame.version hsame.modified hle
        · cases hnames
        · exact hother ⟨hnames.symm, hj⟩

/-! ### Contents -/

/-- The inodes with the content number `version` have the content `bytes`, and no later content
gets this number. -/
structure Files.Holds (fs : Files) (fresh version : ℕ) (bytes : Bytes) : Prop where
  old : version < fresh
  content : ∀ key i, fs.inodes.lookup key = some i → i.version = version → i.content = bytes

/-- The numbers of the contents of the inodes are all used up. -/
def Files.Numbered (fs : Files) (fresh : ℕ) : Prop :=
  ∀ key i, fs.inodes.lookup key = some i → i.version < fresh

theorem Files.Holds.apply {fresh version : ℕ} {bytes : Bytes} {e : Event}
    (hb : fs.Holds fresh version bytes) (h : e.apply m fresh fs = some fs') :
    fs'.Holds (fresh + 1) version bytes := by
  refine ⟨hb.old.trans (Nat.lt_succ_self _), fun key i hi hv => ?_⟩
  rcases Event.inode_apply h hi with ⟨hver, -⟩ | ⟨-, j, hj, hs, -⟩
  · exact absurd (hv.symm.trans hver) hb.old.ne
  · exact hs.content.trans (hb.content key j hj (hs.version.symm.trans hv))

theorem Files.Numbered.apply {fresh : ℕ} {e : Event} (hn : fs.Numbered fresh)
    (h : e.apply m fresh fs = some fs') : fs'.Numbered (fresh + 1) := by
  intro key i hi
  rcases Event.inode_apply h hi with ⟨hver, -⟩ | ⟨-, j, hj, hs, -⟩
  · omega
  · have := hn key j hj
    have := hs.version
    omega

/-! ### A path between its `lstat` and its opening -/

/-- The path still leads to the inode with the key `key`, or that inode has a stamp that has
reached `since`. -/
def Files.Bound (gran : ℕ → ℤ) (fs : Files) (path : RelPath) (key : InodeKey) (since : ℤ) :
    Prop :=
  fs.names.lookup path = some key ∨
    ∃ i, fs.inodes.lookup key = some i ∧ since ≤ stamp (gran key.1) i.changed

theorem Files.exists_change {k : InodeKey} (h : fs.inodes.lookup key = some i) :
    ∃ j, (fs.change k m).inodes.lookup key = some j ∧ (key = k → j.changed = m) ∧
      (j.changed = i.changed ∨ j.changed = m) := by
  unfold Files.change
  by_cases hk : key = k
  · subst hk
    exact ⟨{ i with changed := m }, by simp [h], fun _ => rfl, .inr rfl⟩
  · refine ⟨i, ?_, fun he => absurd he hk, .inl rfl⟩
    split
    · simp only [Dict.lookup_insert', hk, if_false, h]
    · exact h

theorem Files.exists_drop {p : RelPath} (h : fs.inodes.lookup key = some i) :
    ∃ j, (fs.drop p m).inodes.lookup key = some j ∧
      (fs.names.lookup p = some key → j.changed = m) ∧
      (j.changed = i.changed ∨ j.changed = m) := by
  unfold Files.drop
  cases hp : fs.names.lookup p with
  | none => exact ⟨i, h, by simp, .inl rfl⟩
  | some k =>
    obtain ⟨j, hj, he, hc⟩ := Files.exists_change (m := m) (k := k)
      (show ({ fs with names := fs.names.erase p } : Files).inodes.lookup key = some i from h)
    exact ⟨j, hj, fun hk => he (by cases hk; rfl), hc⟩

/-- The exact time of the last change of an inode, after an event that has taken its path away. -/
def Event.leaves (m : ℤ) (i : Inode) : Event → ℤ
  | .moveDir .. => i.changed
  | _ => m

/-- No event removes an inode. An event that binds the path of an inode anew changes the inode,
unless it renames a directory. -/
theorem Event.exists_inode {version : ℕ} {e : Event} (h : e.apply m version fs = some fs')
    (hi : fs.inodes.lookup key = some i) :
    ∃ j, fs'.inodes.lookup key = some j ∧ (j.changed = i.changed ∨ j.changed = m) ∧
      ∀ path k, e.rebinds fs path = some k → fs.names.lookup path = some key →
        j.changed = e.leaves m i := by
  -- a path that is bound anew took its old inode's link away, which stamps that inode
  have hdropped : ∀ {path p : RelPath} {k q : Option InodeKey} {j : Inode},
      (fs.names.lookup path = some key → j.changed = m) →
        (if p = path then some k else none) = some q → fs.names.lookup p = some key →
          j.changed = m := by
    intro path p k q j he hr hn
    split_ifs at hr with hp
    exact he (hp ▸ hn)
  cases e with
  | write k content | setattr k mode uid gid =>
    simp only [Event.apply, bind, Option.bind_eq_some_iff, pure, Option.some.injEq] at h
    obtain ⟨j, hj, rfl⟩ := h
    simp only [Dict.lookup_insert']
    by_cases hk : key = k
    · rw [if_pos hk]
      exact ⟨_, rfl, .inr rfl, by simp [Event.rebinds]⟩
    · rw [if_neg hk]
      exact ⟨i, hi, .inl rfl, by simp [Event.rebinds]⟩
  | create path k mode uid gid content =>
    simp only [Event.apply] at h
    split_ifs at h with hfree
    cases h
    simp only [Dict.lookup_insert']
    by_cases hk : key = k
    · rw [if_pos hk]
      exact ⟨_, rfl, .inr rfl, fun _ _ _ _ => rfl⟩
    · rw [if_neg hk]
      obtain ⟨j, hj, he, hc⟩ := Files.exists_drop (p := path) (m := m) hi
      exact ⟨j, hj, hc, fun p q hr hn => hdropped he hr hn⟩
  | link path k =>
    simp only [Event.apply, bind, Option.bind_eq_some_iff, pure, Option.some.injEq] at h
    obtain ⟨-, -, rfl⟩ := h
    obtain ⟨j, hj, he, hc⟩ := Files.exists_drop (p := path) (m := m) hi
    obtain ⟨j', hj', -, hc'⟩ := Files.exists_change (k := k) (m := m)
      (show ({ names := (fs.drop path m).names.insert path k
               inodes := (fs.drop path m).inodes } : Files).inodes.lookup key = some j from hj)
    refine ⟨j', hj', ?_, fun p q hr hn => ?_⟩
    · rcases hc' with hc' | hc'
      · rw [hc']; exact hc
      · exact .inr hc'
    · rcases hc' with hc' | hc'
      · rw [hc']; exact hdropped he hr hn
      · exact hc'
  | unlink path =>
    cases h
    obtain ⟨j, hj, he, hc⟩ := Files.exists_drop (p := path) (m := m) hi
    exact ⟨j, hj, hc, fun p q hr hn => hdropped he hr hn⟩
  | moveDir src dst =>
    obtain ⟨-, rfl⟩ := Event.moveDir_eq h
    exact ⟨i, hi, .inl rfl, fun _ _ _ _ => rfl⟩

/-- A path stays bound unless it is bound anew under a stamp before the time. -/
theorem Files.Bound.apply (hg : ∀ d, 0 < gran d) (ht : fs.Timed m) {version : ℕ} {e : Event}
    {path : RelPath} {since : ℤ} (hb : fs.Bound gran path key since)
    (hinode : (fs.inodes.lookup key).isSome)
    (hc : ∀ k i, e.rebinds fs path = some k → fs.names.lookup path = some key →
      fs.inodes.lookup key = some i → since ≤ stamp (gran key.1) (e.leaves m i))
    (h : e.apply m version fs = some fs') : fs'.Bound gran path key since := by
  obtain ⟨i, hi⟩ := Option.isSome_iff_exists.1 hinode
  obtain ⟨j, hj, hch, hre⟩ := Event.exists_inode h hi
  rcases hb with hb | ⟨i', hi', hs⟩
  · cases hr : e.rebinds fs path with
    | none => exact .inl (by rw [Event.names_apply h path, hr]; exact hb)
    | some k => exact .inr ⟨j, hj, by rw [hre path k hr hb]; exact hc k i hr hb hi⟩
  · rw [hi] at hi'
    cases hi'
    refine .inr ⟨j, hj, hs.trans (stamp_mono (hg _) ?_)⟩
    have := (ht key i hi).2
    rcases hch with hch | hch <;> omega

end Apply

end FileHistory
end Kist
