import Kist.Restore.Tidy

/-!
# The outcome of a restore onto an empty target

What a restore leaves behind where nothing is in its way: the contents of the files and the targets
of the symlinks, and the agreement with the dry run, which writes nothing.

* `restore_leaves`: the content of each file is that of its entry, or of another name of the file.
* `restore_exact`: what is chosen is restored, and nothing else.
* `restore_eq_dryRun`: the restore ends as its dry run does, and creates what the dry run reports.
-/

namespace Kist

section Outcome

open RestoreSetting

variable {repo : Repository} {env : IndexLoads} {key : SnapshotKey} {target target' : Target}
  {opts : RestoreOptions} {summary : RestoreSummary}

/-- What a restore leaves at the path of an entry that is a file or a symlink. A further name of a
file is linked to the name that was restored first. -/
inductive Leaves (repo : Repository) (roots : List Root) (subtree : List Bytes) (target : Target)
    (q : RelPath) (e : Entry) : Prop
  | file {ino : ℕ} {bytes : Bytes} {m : TargetMeta} (hkind : e.kind = .file)
    (hnode : target.node q = some (.file ino bytes m)) (h : e.fileContent.Holds repo.keys bytes)
    (shows : m.Shows target.asRoot e)
  | linked {ino : ℕ} {bytes : Bytes} {m : TargetMeta} {key : ℕ × ℕ} {first : RelPath} {e' : Entry}
    (hkind : e.kind = .file) (hnode : target.node q = some (.file ino bytes m))
    (hkey : e.hardlinkKey = some key) (hfirst : repo.Node roots subtree first e')
    (hkey' : e'.hardlinkKey = some key) (same : target.node first = target.node q)
    (h : e'.fileContent.Holds repo.keys bytes) (shows : m.Shows target.asRoot e')
  | symlink {ino : ℕ} (hkind : e.kind = .symlink) (hnode : target.node q = some
      (.symlink ino e.target (if target.asRoot then ownerOfEntry e else none) e.mtimeNs))

/-- After a restore without errors onto an empty target, the path of each chosen file holds the
bytes that its entry records, with the recorded metadata, or is a link to the path of an entry of
the same file and holds what this one records; and the path of each chosen symlink holds a symlink
with the recorded target, owner and time. -/
theorem restore_leaves (hdir : target.IsDir []) (hempty : ∀ q, q ≠ [] → target.node q = none)
    {snapshot : Snapshot} (hread : repo.readSnapshot key = .ok snapshot)
    (hapart : RootsApart snapshot.roots)
    (hdistinct : repo.DistinctRoots snapshot.roots opts.subtree)
    (h : repo.restore env key target opts = (.ok summary, target')) (hno : summary.errors = [])
    {q : RelPath} {e : Entry} (hnode : repo.Node snapshot.roots opts.subtree q e)
    (hkind : e.kind ≠ .dir) (hchosen : opts.Chosen (opts.subtree ++ q)) :
    Leaves repo snapshot.roots opts.subtree target' q e := by
  obtain ⟨r⟩ := restore_ok h
  obtain rfl : r.snapshot = snapshot := Except.ok.inj (r.read.symm.trans hread)
  obtain ⟨p, hp, hsummary, -⟩ := r.planned hdir hno
  have htidy := @tidy_setting repo r.snapshot.roots target opts r.index
    (Used repo opts) hdir r.select
    r.placements hempty hapart hdistinct (Select.for_new r.new) r.places
  obtain ⟨log, hplan, hlog, hmirrors⟩ := r.shows hdir hno
  have hlog' : p.onNode = log := by
    rw [r.planRestore_eq hp] at hplan
    exact congrArg Prod.snd hplan
  rw [hp] at htidy
  subst hlog'
  have hcontents := hmirrors.contents htidy
  have huser := hmirrors.shows.user.asRoot
  have hmem : (q, PlannedNode.of e.kind) ∈ p.onNode := by
    obtain ⟨rel, es, rel', hb, hitem, rfl⟩ := hnode
    exact (hlog _).2 ⟨rel, es, hb, rel', e, hitem, rfl, .inl (by rwa [List.append_assoc])⟩
  obtain ⟨e', hnode', -, hwritten⟩ := hcontents.written q _ hmem (of_ne_dir hkind)
  obtain rfl := Repository.Node.unique hapart hdistinct hnode' hnode
  cases hwritten with
  | copied h =>
    obtain ⟨hk, ino, bytes, m, hn, hholds, hshows⟩ := h
    exact .file hk hn hholds (huser ▸ hshows)
  | linked hk hkey hkey' hitem _ hfirst same =>
    obtain ⟨-, ino, bytes, m, hn, hholds, hshows⟩ := hfirst
    exact .linked hk (same.trans hn) hkey hitem hkey' same.symm hholds (huser ▸ hshows)
  | symlink hk hn => exact .symlink hk (huser ▸ hn)

/-- **A restore is exact.** Onto an empty target a restore without errors creates what its options
choose of the snapshot: a directory for each chosen directory, and each chosen file and symlink with
what its entry records. It creates nothing else but directories that are chosen or lie above
something that is. -/
theorem restore_exact (hdir : target.IsDir []) (hempty : ∀ q, q ≠ [] → target.node q = none)
    {snapshot : Snapshot} (hread : repo.readSnapshot key = .ok snapshot)
    (hapart : RootsApart snapshot.roots)
    (hdistinct : repo.DistinctRoots snapshot.roots opts.subtree)
    (h : repo.restore env key target opts = (.ok summary, target')) (hno : summary.errors = []) :
    (∀ q e, repo.Node snapshot.roots opts.subtree q e → opts.Chosen (opts.subtree ++ q) →
      if e.kind = .dir then target'.IsDir q
      else Leaves repo snapshot.roots opts.subtree target' q e) ∧
    ∀ q n, target'.node q = some n → q ≠ [] →
      if n.kind = .dir then ∃ q', q <+: q' ∧ opts.Chosen (opts.subtree ++ q') ∧
        ((∃ e, repo.Node snapshot.roots opts.subtree q' e) ∨
          ∃ es, repo.Brings snapshot.roots opts.subtree q' es)
      else ∃ e, repo.Node snapshot.roots opts.subtree q e ∧ opts.Chosen (opts.subtree ++ q) ∧
        Leaves repo snapshot.roots opts.subtree target' q e := by
  obtain ⟨snapshot', hread', hnodes, hkept, hdirs⟩ := restore_nodes hdir h hno
  cases hread.symm.trans hread'
  refine ⟨fun q e hnode hchosen => ?_, fun q n hn hq => ?_⟩
  · have hthere := hnodes q e hnode hchosen
    split_ifs with hkind
    · rwa [if_pos hkind] at hthere
    · exact restore_leaves hdir hempty hread hapart hdistinct h hno hnode hkind hchosen
  · split_ifs with hkind
    · refine (hdirs q (Target.isDir_of_kind hn hkind)).resolve_left ?_
      rintro ⟨m, hm⟩
      rw [hempty q hq] at hm
      cases hm
    · by_contra hnone
      have hold := (hkept q (fun e hnode hfile hchosen => hnone ⟨e, hnode, hchosen,
        restore_leaves hdir hempty hread hapart hdistinct h hno hnode hfile hchosen⟩) n hkind).1 hn
      rw [hempty q hq] at hold
      cases hold

/-- The object that the report of a node announces. -/
def PlannedNode.kind : PlannedNode → TargetNode.Kind
  | .dir => .dir
  | .file => .file
  | .symlink => .symlink

/-- Nothing but the snapshot itself can prevent its restore: what the dry run reports can be read,
has an owner that can be set, and as a symlink a target that a symlink can have. -/
structure Unhindered (repo : Repository) (snapshot : Snapshot) (index : ChunkIndex) (asRoot : Bool)
    (opts : RestoreOptions) (report : List (RelPath × PlannedNode)) : Prop where
  apart : RootsApart snapshot.roots
  distinct : repo.DistinctRoots snapshot.roots opts.subtree
  reads : ∀ q e, repo.Node snapshot.roots opts.subtree q e → e.kind = .file → (q, .file) ∈ report →
    repo.Reads index e
  targets : ∀ q e, repo.Node snapshot.roots opts.subtree q e → e.kind = .symlink →
    (q, .symlink) ∈ report → 0 ∉ e.target
  owners : ∀ q e, repo.Node snapshot.roots opts.subtree q e → (q, .of e.kind) ∈ report →
    Target.OwnerOk asRoot e

/-- Onto an empty target: what is reported is there, and nothing else is but directories on the way
to a root. -/
theorem shown_of_mirrors {c : RestoreSetting} {t : Target} {links : Dict (ℕ × ℕ) RelPath}
    {log : List (RelPath × PlannedNode)} {ls : List PendingDir} {ms : List PlanLevel}
    (htidy : c.Tidy)
    (h : c.Mirrors t links log ls ms) :
    (∀ q k, (q, k) ∈ log → ∃ n, t.node q = some n ∧ n.kind = k.kind) ∧
      ∀ q n, t.node q = some n →
        (∃ k, (q, k) ∈ log ∧ n.kind = k.kind) ∨ n.kind = .dir ∧ c.AtPlace q := by
  have hnew : ∀ q k, (q, k) ∈ log → ∃ n, t.node q = some n ∧ n.kind = k.kind := by
    intro q k hq
    by_cases hk : k = .dir
    · subst hk
      obtain ⟨m, hm⟩ := h.shows.dir q hq
      exact ⟨_, hm, rfl⟩
    · obtain ⟨e, -, rfl, hw⟩ := (h.contents htidy).written q k hq hk
      cases hw with
      | copied hc =>
        obtain ⟨hkind, ino, bytes, m, hn, -⟩ := hc
        exact ⟨_, hn, by rw [hkind]; rfl⟩
      | linked hkind _ _ _ _ hfirst same =>
        obtain ⟨-, ino, bytes, m, hn, -⟩ := hfirst
        exact ⟨_, same.trans hn, by rw [hkind]; rfl⟩
      | symlink hkind hn => exact ⟨_, hn, by rw [hkind]; rfl⟩
  refine ⟨hnew, fun q n hn => ?_⟩
  by_cases hlog : ∃ k, (q, k) ∈ log
  · obtain ⟨k, hk⟩ := hlog
    obtain ⟨n', hn', hkind⟩ := hnew q k hk
    cases hn.symm.trans hn'
    exact .inl ⟨k, hk, hkind⟩
  · -- what is not logged was there from the start, or is a directory that was made on the way
    have hstart : ∀ n, c.start.node q = some n → n.kind = .dir ∧ c.AtPlace q := by
      intro n hn
      by_cases hq : q = []
      · obtain ⟨m, hm⟩ := c.isDir
        rw [hq, hm] at hn
        cases hn
        exact ⟨rfl, hq ▸ c.atPlace_nil⟩
      · rw [htidy.empty q hq] at hn
        cases hn
    right
    by_cases hkind : n.kind = .dir
    · refine ⟨hkind, ?_⟩
      rcases h.shows.dirNew q (Target.isDir_of_kind hn hkind) with ⟨m, hm⟩ | hd | hp
      · exact (hstart _ hm).2
      · exact absurd ⟨_, hd⟩ hlog
      · exact hp
    · exact hstart n ((h.shows.kept q (fun k hk => absurd ⟨k, hk⟩ hlog) n hkind).1 hn)

/-- What the first steps of a restore and of a dry run have in common. -/
theorem restore_start (repo : Repository) (env : IndexLoads) (key : SnapshotKey)
    (opts : RestoreOptions) {index : ChunkIndex} (hload : env.load 0 = .ok index) :
    (do
      let select ← Select.new opts
      let snapshot ← repo.readSnapshot key
      let placements ← repo.placeRoots snapshot.roots opts.subtree select
      let index ← env.load 0
      return (select, placements, index)) =
    (do
      let select ← Select.new opts
      let snapshot ← repo.readSnapshot key
      let placements ← repo.placeRoots snapshot.roots opts.subtree select
      return (select, placements)).map fun x : Select × List Placement => (x.1, x.2, index) := by
  rw [hload]
  cases Select.new opts with
  | error e => rfl
  | ok select =>
    cases hread : repo.readSnapshot key with
    | error e => rfl
    | ok snapshot =>
      cases hplaces : repo.placeRoots snapshot.roots opts.subtree select with
      | error e =>
        show (repo.placeRoots snapshot.roots opts.subtree select).bind _ =
          ((repo.placeRoots snapshot.roots opts.subtree select).bind _).map _
        rw [hplaces]
        rfl
      | ok placements =>
        show (repo.placeRoots snapshot.roots opts.subtree select).bind _ =
          ((repo.placeRoots snapshot.roots opts.subtree select).bind _).map _
        rw [hplaces]
        rfl

/-- **The dry run tells what the restore does.** Where nothing prevents it, a restore onto an empty
target ends as its dry run does, with the same counts, errors and unmatched patterns; it creates
what the dry run reports, and besides only directories on the way to a root. -/
theorem restore_eq_dryRun {index : ChunkIndex} (hload : env.load 0 = .ok index)
    (hempty : ∀ q, q ≠ [] → target.node q = none) (hready : target.Ready [])
    (hmask : target.OwnerMask)
    (hfair : ∀ snapshot, repo.readSnapshot key = .ok snapshot →
      Unhindered repo snapshot index target.asRoot opts (repo.planRestore key opts).2) :
    (repo.restore env key target opts).1 = (repo.planRestore key opts).1 ∧
      (∀ q k, (q, k) ∈ (repo.planRestore key opts).2 →
        ∃ n, (repo.restore env key target opts).2.node q = some n ∧ n.kind = k.kind) ∧
      ∀ q n, (repo.restore env key target opts).2.node q = some n →
        (∃ k, (q, k) ∈ (repo.planRestore key opts).2 ∧ n.kind = k.kind) ∨ n.kind = .dir ∧
          (q = [] ∨ ∃ snapshot rel es, repo.readSnapshot key = .ok snapshot ∧
            repo.Brings snapshot.roots opts.subtree rel es ∧ q <+: rel) := by
  have hstart := restore_start repo env key opts hload
  have hroot : ∀ q n, target.node q = some n → n.kind = .dir ∧ q = [] := by
    intro q n hn
    by_cases hq : q = []
    · obtain ⟨m, hm, -⟩ := hready
      rw [hq, hm] at hn
      cases hn
      exact ⟨rfl, hq⟩
    · rw [hempty q hq] at hn
      cases hn
  unfold Repository.restore
  unfold Repository.planRestore at hfair ⊢
  rw [hstart]
  -- both begin alike: an error up to the placements is the same one, and nothing was written
  cases hdo : (do
      let select ← Select.new opts
      let snapshot ← repo.readSnapshot key
      let placements ← repo.placeRoots snapshot.roots opts.subtree select
      return (select, placements)) with
  | error e =>
    exact ⟨rfl, (fun q k hk => by cases hk), fun q n hn =>
      .inr ⟨(hroot q n hn).1, .inl (hroot q n hn).2⟩⟩
  | ok x =>
    obtain ⟨select, placements⟩ := x
    obtain ⟨select', hselect, hdo'⟩ := Checked.bind_eq_ok.1 hdo
    obtain ⟨snapshot, hread, hdo'⟩ := Checked.bind_eq_ok.1 hdo'
    obtain ⟨placements', hplaces, hdo'⟩ := Checked.bind_eq_ok.1 hdo'
    cases hdo'
    have hu := hfair snapshot hread
    rw [hdo] at hu
    dsimp only [Except.map] at hu ⊢
    have hfor := Select.for_new hselect
    obtain ⟨hsound, -⟩ := Repository.placeRoots_spec hfor hplaces
    rcases hp : Plan.planPlacements repo placements ⟨select, {}, [], []⟩ with ⟨res, p⟩
    have htidy := @tidy_setting repo snapshot.roots target opts index (fun _ _ => True) hready.isDir
      select placements hempty hu.apart hu.distinct hfor hplaces
    rw [hp] at htidy hu
    have hreport : ∀ {y : Except CoreError RestoreSummary × List (RelPath × PlannedNode)},
        y.2 = p.onNode → Unhindered repo snapshot index target.asRoot opts y.2 →
          (repo.setting snapshot.roots target opts p.onNode index (fun _ _ => True)
            hready.isDir).Fine := fun hy hu =>
      ⟨htidy, hready, hmask, hy ▸ hu.reads, hy ▸ hu.targets, hy ▸ hu.owners⟩
    -- what the dry run reports is the same list whether or not it ends well
    have hfine : (repo.setting snapshot.roots target opts p.onNode index (fun _ _ => True)
        hready.isDir).Fine := by
      cases res with
      | error err => exact hreport rfl hu
      | ok u => exact hreport rfl hu
    have hlog : (Plan.planPlacements repo placements ⟨select, {}, [], []⟩).2.onNode <+:
      p.onNode := by
      rw [hp]
    have hfollows : (repo.setting snapshot.roots target opts p.onNode index (fun _ _ => True)
        hready.isDir).Follows ⟨target, [], ⟨index, 1, 0⟩, {}, ∅, select⟩
        (RestoreWalk.restorePlacements env repo placements
          ⟨target, [], ⟨index, 1, 0⟩, {}, ∅, select⟩)
        (Plan.planPlacements repo placements ⟨select, {}, [], []⟩) :=
      placements_follow env placements (sim_start _ select 1 0) rfl (allPlaces_true hsound) hlog
    rw [hp] at hfollows
    rcases hw : RestoreWalk.restorePlacements env repo placements
      ⟨target, [], ⟨index, 1, 0⟩, {}, ∅, select⟩ with ⟨res', w⟩
    rw [hw] at hfollows
    -- the other case of the simulation needs a hindrance
    obtain ⟨hres, hsim, -⟩ := hfollows.resolve_right fun h => h.1 hfine
    dsimp only at hres hsim
    subst hres
    obtain ⟨hnew, hold⟩ := shown_of_mirrors htidy hsim.mirrors
    replace hold : ∀ q n, w.target.node q = some n → (∃ k, (q, k) ∈ p.onNode ∧ n.kind = k.kind) ∨
        n.kind = .dir ∧ (q = [] ∨ ∃ snapshot rel es, repo.readSnapshot key = .ok snapshot ∧
          repo.Brings snapshot.roots opts.subtree rel es ∧ q <+: rel) := by
      intro q n hn
      refine (hold q n hn).imp_right fun h => ⟨h.1, h.2.imp_right ?_⟩
      rintro ⟨rel, es, hb, -, hle⟩
      exact ⟨snapshot, rel, es, hread, hb, hle⟩
    cases res' with
    | error err => exact ⟨rfl, hnew, hold⟩
    | ok u =>
      refine ⟨?_, hnew, hold⟩
      dsimp only
      rw [hsim.summary, hsim.select]

/-! ### Everything -/

/-- The options of a full restore. -/
def RestoreOptions.everything (cases : CaseMap) : RestoreOptions := ⟨⟨[], cases⟩, ⟨[], cases⟩, []⟩

/-- A full restore chooses every node. -/
theorem RestoreOptions.chosen_everything (cases : CaseMap) (path : List Bytes) :
    (everything cases).Chosen path := by
  refine ⟨fun q _ _ => ?_, .inl rfl⟩
  rintro ⟨p, pattern, hp, -⟩
  cases hp

/-! ### A small restore -/

/-- The entry of the symlink `k` in the source `r`. -/
def keptLink : Entry where
  name := [107]
  kind := .symlink
  metaKind := .posix
  target := [97]
  mode := some 0o120777
  uid := some 0
  gid := some 0
  mtimeNs := some 5
  ctimeNs := some 5

/-- The snapshot brings one directory, with the symlink. -/
theorem brings_twoLinks : ∃ snapshot, Repository.twoLinks.readSnapshot ⟨1, 100⟩ = .ok snapshot ∧
    RootsApart snapshot.roots ∧ Repository.twoLinks.Brings snapshot.roots [] [[114]] [keptLink] ∧
      ∀ rel es, Repository.twoLinks.Brings snapshot.roots [] rel es →
        rel = [[114]] ∧ es = [keptLink] := by
  have hroots : (Repository.twoLinks.readSnapshot ⟨1, 100⟩).toOption.map (fun snapshot =>
      snapshot.roots.map fun root => ((locatorComponents root.path).toOption,
        (Repository.twoLinks.readTreeChain root.tree).toOption)) =
      some [(some [[114]], some [keptLink])] := by decide +kernel
  have hok : ∀ {α : Type} {x : Except CoreError α} {a : α}, x.toOption = some a → x = .ok a := by
    rintro α (err | a') a h
    · cases h
    · exact congrArg Except.ok (Option.some.inj h)
  obtain ⟨snapshot, hread, hroots⟩ := Option.map_eq_some_iff.1 hroots
  obtain ⟨root, hroot, hfields⟩ := List.map_eq_singleton_iff.1 hroots
  obtain ⟨hnames, htree⟩ := Prod.mk.inj hfields
  have hb : Repository.twoLinks.Brings [root] [] [[114]] [keptLink] :=
    .dir List.mem_cons_self (hok hnames) (by simp) (hok htree) (by decide)
  refine ⟨snapshot, hok hread, ?_, hroot ▸ hb, fun rel es h => ?_⟩
  · rw [hroot]
    exact List.pairwise_singleton _ _
  · rw [hroot] at h
    obtain ⟨hrel, hes⟩ := hb.unique h
    exact ⟨hrel.symm, hes.symm⟩

theorem distinct_twoLinks {snapshot : Snapshot}
    (hb : ∀ rel es, Repository.twoLinks.Brings snapshot.roots [] rel es →
      rel = [[114]] ∧ es = [keptLink]) :
    Repository.twoLinks.DistinctRoots snapshot.roots [] := by
  intro rel es h
  obtain ⟨-, rfl⟩ := hb rel es h
  refine ⟨by decide, fun rel' d sub hi hkind => ?_⟩
  obtain ⟨-, rfl⟩ := (item_leaf (by decide)).1 hi
  cases hkind

/-- Names as they are, without case. -/
def keepCase : CaseMap := ⟨fun c => [c], fun c => [c]⟩

theorem restore_exact_twoNames :
    ∃ summary target', Repository.twoLinks.restore ⟨fun _ => .ok .new, fun _ => false⟩ ⟨1, 100⟩
        .empty twoNames = (.ok summary, target') ∧
      ∃ snapshot, Repository.twoLinks.readSnapshot ⟨1, 100⟩ = .ok snapshot ∧
        ∀ q e, Repository.twoLinks.Node snapshot.roots [] q e → twoNames.Chosen q →
          if e.kind = .dir then target'.IsDir q
          else Leaves Repository.twoLinks snapshot.roots [] target' q e := by
  have herrors : (Repository.twoLinks.restore ⟨fun _ => .ok .new, fun _ => false⟩ ⟨1, 100⟩
      .empty twoNames).1.toOption.map RestoreSummary.errors = some [] := by decide +kernel
  rcases h : Repository.twoLinks.restore ⟨fun _ => .ok .new, fun _ => false⟩ ⟨1, 100⟩
      .empty twoNames with ⟨err | summary, target'⟩
  · rw [h] at herrors
    cases herrors
  · rw [h] at herrors
    obtain ⟨snapshot, hread, hapart, -, hall⟩ := brings_twoLinks
    exact ⟨summary, target', rfl, snapshot, hread,
      (restore_exact ⟨_, rfl⟩ (fun q hq => if_neg hq) hread hapart (distinct_twoLinks hall) h
        (Option.some.inj herrors)).1⟩

theorem restore_eq_dryRun_twoLinks :
    (Repository.twoLinks.restore ⟨fun _ => .ok .new, fun _ => false⟩ ⟨1, 100⟩ .empty
      (.everything keepCase)).1 =
      (Repository.twoLinks.planRestore ⟨1, 100⟩ (.everything keepCase)).1 := by
  obtain ⟨snapshot, hread, hapart, hb, hall⟩ := brings_twoLinks
  have hnode : ∀ q e, Repository.twoLinks.Node snapshot.roots [] q e → e = keptLink := by
    rintro q e ⟨rel, es, rel', h, hi, -⟩
    obtain ⟨-, rfl⟩ := hall rel es h
    exact ((item_leaf (by decide)).1 hi).2
  refine (@restore_eq_dryRun _ _ _ _ _ .new rfl (fun q hq => if_neg hq) ⟨_, rfl, by decide⟩
    (show _ = _ from rfl) fun snapshot' hread' => ?_).1
  obtain rfl : snapshot = snapshot' := Except.ok.inj (hread.symm.trans hread')
  refine ⟨hapart, distinct_twoLinks hall, fun q e hn hkind => ?_, fun q e hn _ _ => ?_,
    fun q e hn _ hroot => by cases hroot⟩
  · rw [hnode q e hn] at hkind
    cases hkind
  · rw [hnode q e hn]
    decide

end Outcome
end Kist
