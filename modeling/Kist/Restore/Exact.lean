import Kist.Restore.Places

/-!
# What a restore creates

The places of the roots, the dry run over them and the restore that follows it, put together: which
objects are below the target after a restore without errors.

* `planPlacements_spec`: what the dry run reports of all roots.
* `Restored.shows`: the target after a restore shows this report.
* `restore_nodes`: the restore creates exactly the nodes of the snapshot that its options choose.
-/

namespace Kist

namespace Repository

variable (repo : Repository)

/-- An entry of the snapshot lies at this path below the target. -/
def Node (roots : List Root) (subtree : List Bytes) (q : RelPath) (e : Entry) : Prop :=
  ∃ rel es rel', repo.Brings roots subtree rel es ∧ repo.Item es rel' e ∧ q = rel ++ rel'

end Repository

/-! ### The dry run of all roots -/

/-- The position of a root stands for its place, wherever it turns out to be. -/
def Placement.Fits (opts : RestoreOptions) (placement : Placement) : Prop :=
  ∀ es, (placement.settle es).2.At opts (opts.subtree ++ (placement.settle es).1)

section Report

open Plan

variable {repo : Repository} {opts : RestoreOptions} {s : Select} {p p' : Plan} {rel : RelPath}
  {pos : Pos} {es : List Entry} {select : Select} {placement : Placement}
  {placements : List Placement}

theorem fits_of_placed (h : RestoreWalk.Placed opts s placement) : placement.Fits opts := by
  intro es
  unfold Placement.settle
  cases hroot : placement.fileRoot with
  | none => exact h.pos.toAt
  | some x =>
    dsimp only
    split_ifs
    · exact (h.above x hroot).toAt
    · exact h.pos.toAt

/-- What lies below a directory that lies below these entries. -/
theorem Repository.Item.append {sub : List Entry} {d e : Entry} {rel' : RelPath}
    (h : repo.Item es rel d) (hkind : d.kind = .dir) (hsub : repo.readTreeChain d.subtree = .ok sub)
    (h' : repo.Item sub rel' e) : repo.Item es (rel ++ rel') e := by
  induction h with
  | here hd => exact .deeper hd hkind hsub h'
  | deeper hd hk hs' _ ih => exact .deeper hd hk hs' (ih hkind hsub)

variable (repo opts) in
/-- Something at the place of a root is chosen: the place itself, or an item in it. -/
def Used (rel : RelPath) (es : List Entry) : Prop :=
  opts.Chosen (opts.subtree ++ rel) ∨ Opens repo opts (opts.subtree ++ rel) es

/-- The dry run of one root, before its place is left. -/
theorem planRoot_did (hpos : pos.At opts (opts.subtree ++ rel)) (hs : select.For opts)
    (hno : (RestoreSetting.planRoot p repo rel pos es select).summary.errors = []) :
    (RestoreSetting.planRoot p repo rel pos es select).select.For opts ∧
      (({ p with select } : Plan).push ⟨rel, false, false⟩).Did
        (RestoreSetting.planRoot p repo rel pos es select)
        (Reported repo opts (opts.subtree ++ rel) rel es) (Used repo opts rel es) := by
  have hopen := (({ p with select } : Plan).push ⟨rel, false, false⟩).did_openIf pos.selected
  have hfor : ((({ p with select } : Plan).push ⟨rel, false, false⟩).openIf
      pos.selected).select.For opts := by
    cases pos.selected <;> exact hs
  obtain ⟨hfor', hdid⟩ := planEntries_spec (dirSpec_planDirs (maxTreeDepth - 1))
    (grows_planDirs (maxTreeDepth - 1)) hpos es _ hfor hno
  refine ⟨hfor', (hopen.trans hdid).congr (fun x => by rw [false_or]) ?_⟩
  unfold Used RestoreOptions.Chosen
  rw [hpos.selected, and_iff_right hpos.isOpen]

/-- **One root.** -/
theorem planPlacement_spec (hfits : placement.Fits opts) (hs : p.select.For opts)
    (hnil : p.levels = []) (h : p.planPlacement repo placement = (.ok (), p'))
    (hno : p'.summary.errors = []) :
    p'.select.For opts ∧ p'.levels = [] ∧ ∃ es, repo.entriesOf placement.content = .ok es ∧
      ∀ x, x ∈ p'.onNode ↔ x ∈ p.onNode ∨
        Reported repo opts (opts.subtree ++ (placement.settle es).1)
          (placement.settle es).1 es x := by
  unfold planPlacement at h
  cases hopen : repo.openPlacement placement p.select with
  | error err => rw [hopen] at h; cases h
  | ok x =>
    obtain ⟨rel, pos, es, select⟩ := x
    rw [hopen] at h
    cases h
    obtain ⟨hes, hsettle, rfl⟩ := Repository.openPlacement_eq_ok.1 hopen
    have hpos := hfits es
    rw [hsettle] at hpos
    obtain ⟨hfor, hdid⟩ := @planRoot_did repo opts p rel pos es _ hpos (hs.credit pos) hno
    -- the place of the root is the only level, and is not reported
    have hbase : (({ p with select := p.select.credit pos } : Plan).push
      ⟨rel, false, false⟩).levels =
        [⟨rel, false, false⟩] := congrArg (_ :: ·) hnil
    refine ⟨hfor, ?_, es, hes, fun x => (hdid.mem x).trans ?_⟩
    · show (RestoreSetting.planRoot p repo rel pos es _).levels.tail = []
      by_cases hused : Used repo opts rel es
      · rw [hdid.created hused, hbase]
        rfl
      · rw [hdid.same hused, hbase]
        rfl
    · rw [hbase, hsettle]
      simp [pendingDirs, Plan.push]

/-- **All roots.** What the dry run reports, after what was reported before. -/
theorem planPlacements_spec (placements : List Placement) : ∀ {p p' : Plan},
    (∀ placement ∈ placements, placement.Fits opts) → p.select.For opts → p.levels = [] →
      planPlacements repo placements p = (.ok (), p') → p'.summary.errors = [] →
        ∀ x, x ∈ p'.onNode ↔ x ∈ p.onNode ∨ ∃ placement ∈ placements, ∃ es,
          repo.entriesOf placement.content = .ok es ∧
            Reported repo opts (opts.subtree ++ (placement.settle es).1)
              (placement.settle es).1 es x := by
  induction placements with
  | nil =>
    intro p p' _ _ _ h _ x
    cases h
    simp
  | cons placement placements ih =>
    intro p p' hfits hs hnil h hno x
    obtain ⟨hfit, hrest⟩ := List.forall_mem_cons.1 hfits
    unfold planPlacements at h
    rcases hp : p.planPlacement repo placement with ⟨err | u, p₁⟩
    · rw [hp] at h
      cases h
    · rw [hp] at h
      have hgrow := @grows_planPlacements repo placements p₁
      rw [show planPlacements repo placements p₁ = (.ok (), p') from h] at hgrow
      obtain ⟨hs₁, hnil₁, es, hes, hmem⟩ := planPlacement_spec hfit hs hnil hp (hgrow.no_errors hno)
      rw [ih hrest hs₁ hnil₁ h hno x, hmem, List.exists_mem_cons_iff, or_assoc]
      refine or_congr_right (or_congr_left ⟨fun hx => ⟨es, hes, hx⟩, ?_⟩)
      rintro ⟨es', hes', hx⟩
      cases hes.symm.trans hes'
      exact hx

theorem of_ne_dir {kind : NodeType} (h : kind ≠ .dir) : PlannedNode.of kind ≠ .dir := by
  cases kind with
  | dir => exact absurd rfl h
  | file | symlink => simp [PlannedNode.of]

/-- What is reported below a directory of a root, said of the snapshot. -/
theorem exists_chosen_of_reported {q : RelPath} {k : PlannedNode}
    (h : Reported repo opts (opts.subtree ++ rel) rel es (q, k)) :
    ∃ rel' e, repo.Item es rel' e ∧ q = rel ++ rel' ∧ k = .of e.kind ∧
      ∃ below x, repo.Item es (rel' ++ below) x ∧
        opts.Chosen (opts.subtree ++ rel ++ (rel' ++ below)) ∧
        (below = [] ∨ e.kind = .dir) := by
  obtain ⟨rel', e, hitem, hx, hchosen | ⟨hkind, sub, hsub, below, x, hbelow, hchosen⟩⟩ := h
  · cases hx
    exact ⟨rel', e, hitem, rfl, rfl, [], e, by rwa [List.append_nil], by rwa [List.append_nil],
      .inl rfl⟩
  · cases hx
    refine ⟨rel', e, hitem, rfl, rfl, below, x, ?_, by rwa [← List.append_assoc], .inr hkind⟩
    exact hitem.append hkind hsub hbelow

end Report

/-! ### The setting of a restore -/

/-- The setting of the restore of a snapshot with these roots. `made` says which of the places that
the roots bring are made. -/
def Repository.setting (repo : Repository) (roots : List Root) (target : Target)
    (opts : RestoreOptions) (report : List (RelPath × PlannedNode)) (index : ChunkIndex)
    (made : RelPath → List Entry → Prop) (hdir : target.IsDir []) : RestoreSetting where
  repo
  start := target
  AtPlace q := q = [] ∨ ∃ rel es, repo.Brings roots opts.subtree rel es ∧ made rel es ∧ q <+: rel
  Item := repo.Node roots opts.subtree
  report
  index
  isDir := hdir
  atPlace_nil := .inl rfl

section Setting

open RestoreSetting

variable {repo : Repository} {roots : List Root} {target : Target} {opts : RestoreOptions}
  {report : List (RelPath × PlannedNode)} {index : ChunkIndex} {made : RelPath → List Entry → Prop}
  {hdir : target.IsDir []} {select : Select} {placements : List Placement} {p p' : Plan}

/-- The restore and the dry run start at the same point. -/
theorem sim_start (c : RestoreSetting) (select : Select) (loads asked : ℕ) :
    c.Sim ⟨c.start, [], ⟨c.index, loads, asked⟩, {}, ∅, select⟩ ⟨select, {}, [], []⟩ where
  select := rfl
  summary := rfl
  mirrors := ⟨.nil, shows_start, fun _ => ⟨by simp, fun key q hl => by cases hl⟩⟩
  index _ := rfl

/-- Each root brings its items to its place. -/
theorem places_setting (hsound : ∀ placement ∈ placements, ∀ es,
      repo.entriesOf placement.content = .ok es →
        repo.Brings roots opts.subtree (placement.settle es).1 es)
    {placement : Placement} (hp : placement ∈ placements)
    (hmade : ∀ rel pos es select, repo.openPlacement placement p.select = .ok
      (rel, pos, es, select) →
      (planRoot p repo rel pos es select).levels.head?.any PlanLevel.created = true → made rel es) :
    (repo.setting roots target opts report index made hdir).Places p placement := by
  intro rel pos es select hopen
  obtain ⟨hes, hsettle, -⟩ := Repository.openPlacement_eq_ok.1 hopen
  have hb := hsound placement hp es hes
  rw [hsettle] at hb
  exact ⟨fun hcreated q hq => .inr ⟨rel, es, hb, hmade rel pos es select hopen hcreated, hq⟩,
    fun rel' x hi => ⟨rel, es, rel', hb, hi, rfl⟩⟩

/-- Where every place counts, nothing has to be known of the dry run. -/
theorem allPlaces_true (hsound : ∀ placement ∈ placements, ∀ es,
      repo.entriesOf placement.content = .ok es →
        repo.Brings roots opts.subtree (placement.settle es).1 es) :
    ∀ {p : Plan}, (repo.setting roots target opts report index (fun _ _ => True) hdir).AllPlaces
      placements p := by
  induction placements with
  | nil => exact trivial
  | cons placement placements ih =>
    intro p
    exact ⟨places_setting hsound List.mem_cons_self fun _ _ _ _ _ _ => trivial, fun p' _ =>
      ih fun placement hp => hsound placement (List.mem_cons_of_mem _ hp)⟩

/-- After a dry run without errors the places that were made are used. -/
theorem allPlaces_used (hsound : ∀ placement ∈ placements, ∀ es,
      repo.entriesOf placement.content = .ok es →
        repo.Brings roots opts.subtree (placement.settle es).1 es) :
    ∀ {p p' : Plan}, (∀ placement ∈ placements, placement.Fits opts) → p.select.For opts →
      p.levels = [] → Plan.planPlacements repo placements p = (.ok (), p') →
        p'.summary.errors = [] →
          (repo.setting roots target opts report index (Used repo opts) hdir).AllPlaces placements
            p := by
  induction placements with
  | nil => exact fun _ _ _ _ _ => trivial
  | cons placement placements ih =>
    intro p p' hfits hs hnil h hno
    obtain ⟨hfit, hrest⟩ := List.forall_mem_cons.1 hfits
    unfold Plan.planPlacements at h
    rcases hp : p.planPlacement repo placement with ⟨err | u, p₁⟩
    · rw [hp] at h
      cases h
    · rw [hp] at h
      have hgrow := @Plan.grows_planPlacements repo placements p₁
      rw [show Plan.planPlacements repo placements p₁ = (.ok (), p') from h] at hgrow
      have hno₁ := hgrow.no_errors hno
      obtain ⟨hs₁, hnil₁, -⟩ := planPlacement_spec hfit hs hnil hp hno₁
      refine ⟨places_setting hsound List.mem_cons_self fun rel pos es select hopen hcreated => ?_,
        fun p₂ hp₂ => ?_⟩
      · have hroot : p.planPlacement repo placement =
            (.ok (), (planRoot p repo rel pos es select).pop) := by
          unfold Plan.planPlacement
          rw [hopen]
          rfl
        cases hroot.symm.trans hp
        obtain ⟨-, hsettle, rfl⟩ := Repository.openPlacement_eq_ok.1 hopen
        have hpos := hfit es
        rw [hsettle] at hpos
        obtain ⟨-, hdid⟩ := planRoot_did hpos (hs.credit pos) hno₁
        -- a place that nothing uses is not created in the plan either
        by_contra hused
        rw [hdid.same hused] at hcreated
        cases hcreated
      · cases hp.symm.trans hp₂
        exact ih (fun placement hp => hsound placement (List.mem_cons_of_mem _ hp)) hrest
          hs₁ hnil₁ h hno

end Setting

/-! ### A restore without errors -/

section Restore

open RestoreSetting

variable {repo : Repository} {env : IndexLoads} {key : SnapshotKey} {target target' : Target}
  {opts : RestoreOptions} {summary : RestoreSummary}

/-- A restore that came to its end, with what it started from. -/
structure Restored (repo : Repository) (env : IndexLoads) (key : SnapshotKey) (target : Target)
    (opts : RestoreOptions) (summary : RestoreSummary) (target' : Target) where
  snapshot : Snapshot
  select : Select
  placements : List Placement
  index : ChunkIndex
  w : RestoreWalk
  read : repo.readSnapshot key = .ok snapshot
  new : Select.new opts = .ok select
  places : repo.placeRoots snapshot.roots opts.subtree select = .ok placements
  load : env.load 0 = .ok index
  run : RestoreWalk.restorePlacements env repo placements
    ⟨target, [], ⟨index, 1, 0⟩, {}, ∅, select⟩ = (.ok (), w)
  summary_eq : summary = { w.summary with unmatchedIncludes := w.select.unmatched }
  target_eq : target' = w.target

theorem restore_ok (h : repo.restore env key target opts = (.ok summary, target')) :
    Nonempty (Restored repo env key target opts summary target') := by
  unfold Repository.restore at h
  split at h
  · cases h
  · next select placements index hplan =>
    obtain ⟨select', hselect, hdo⟩ := Checked.bind_eq_ok.1 hplan
    obtain ⟨snapshot, hread, hdo⟩ := Checked.bind_eq_ok.1 hdo
    obtain ⟨placements', hplaces, hdo⟩ := Checked.bind_eq_ok.1 hdo
    obtain ⟨index', hload, hdo⟩ := Checked.bind_eq_ok.1 hdo
    cases hdo
    split at h
    · cases h
    · next w hw =>
      cases h
      exact ⟨⟨snapshot, select, placements, index, w, hread, hselect, hplaces, hload, hw, rfl, rfl⟩⟩

namespace Restored

variable (r : Restored repo env key target opts summary target')

theorem fits : ∀ placement ∈ r.placements, placement.Fits opts := fun placement hp =>
  fits_of_placed (RestoreWalk.placed_placeRoots (Select.for_new r.new) r.places placement hp)

/-- The restore follows its dry run. -/
theorem follows {made : RelPath → List Entry → Prop} {hdir : target.IsDir []}
    {res : Except CoreError Unit} {p : Plan}
    (hp : Plan.planPlacements repo r.placements ⟨r.select, {}, [], []⟩ = (res, p))
    (hall : (repo.setting r.snapshot.roots target opts p.onNode r.index made hdir).AllPlaces
      r.placements ⟨r.select, {}, [], []⟩) :
    (repo.setting r.snapshot.roots target opts p.onNode r.index made hdir).Follows
      ⟨target, [], ⟨r.index, 1, 0⟩, {}, ∅, r.select⟩ (.ok (), r.w) (res, p) := by
  have hlog : (Plan.planPlacements repo r.placements ⟨r.select, {}, [], []⟩).2.onNode <+:
      p.onNode := by
    rw [hp]
  have h : (repo.setting r.snapshot.roots target opts p.onNode r.index made hdir).Follows
      ⟨target, [], ⟨r.index, 1, 0⟩, {}, ∅, r.select⟩
      (RestoreWalk.restorePlacements env repo r.placements
        ⟨target, [], ⟨r.index, 1, 0⟩, {}, ∅, r.select⟩)
      (Plan.planPlacements repo r.placements ⟨r.select, {}, [], []⟩) :=
    placements_follow env r.placements (sim_start _ r.select 1 0) rfl hall hlog
  rwa [hp, r.run] at h

theorem no_errors (hno : summary.errors = []) : r.w.summary.errors = [] := by
  rw [r.summary_eq] at hno
  exact hno

/-- Without errors the dry run comes to the same end. -/
theorem planned (hdir : target.IsDir []) (hno : summary.errors = []) :
    ∃ p, Plan.planPlacements repo r.placements ⟨r.select, {}, [], []⟩ = (.ok (), p) ∧
      p.summary = r.w.summary ∧ p.select = r.w.select := by
  obtain ⟨hsound, -⟩ := Repository.placeRoots_spec (Select.for_new r.new) r.places
  rcases hp : Plan.planPlacements repo r.placements ⟨r.select, {}, [], []⟩ with ⟨res, p⟩
  rcases @follows _ _ _ _ _ _ _ r _ hdir _ _ hp (allPlaces_true hsound) with ⟨hres, hsim, -⟩ |
    ⟨-, hne | hne⟩
  · cases hres
    exact ⟨p, rfl, hsim.summary.symm, hsim.select.symm⟩
  · exact absurd rfl hne
  · exact absurd (r.no_errors hno) hne

/-- What the dry run reports. -/
theorem mem_report {p : Plan}
    (hp : Plan.planPlacements repo r.placements ⟨r.select, {}, [], []⟩ = (.ok (), p))
    (hno : p.summary.errors = []) (x : RelPath × PlannedNode) :
    x ∈ p.onNode ↔ ∃ rel es, repo.Brings r.snapshot.roots opts.subtree rel es ∧
      Reported repo opts (opts.subtree ++ rel) rel es x := by
  have hfor := Select.for_new r.new
  obtain ⟨hsound, hcomplete⟩ := Repository.placeRoots_spec hfor r.places
  rw [planPlacements_spec r.placements r.fits hfor rfl hp hno x,
    or_iff_right List.not_mem_nil]
  constructor
  · rintro ⟨placement, hmem, es, hes, hx⟩
    exact ⟨_, es, hsound placement hmem es hes, hx⟩
  · rintro ⟨rel, es, hb, hx⟩
    obtain ⟨rel', e, -, -, -, below, y, hitem, hchosen, -⟩ := exists_chosen_of_reported hx
    obtain ⟨placement, hmem, hes, hrel⟩ := hcomplete rel es _ y hb hitem hchosen
    exact ⟨placement, hmem, es, hes, by rwa [hrel]⟩

theorem planRestore_eq {p : Plan}
    (hp : Plan.planPlacements repo r.placements ⟨r.select, {}, [], []⟩ = (.ok (), p)) :
    repo.planRestore key opts =
      (.ok { p.summary with unmatchedIncludes := p.select.unmatched }, p.onNode) := by
  have hdo : (do
      let select ← Select.new opts
      let snapshot ← repo.readSnapshot key
      let placements ← repo.placeRoots snapshot.roots opts.subtree select
      return (select, placements)) = Except.ok (r.select, r.placements) :=
    Checked.bind_eq_ok.2 ⟨_, r.new, Checked.bind_eq_ok.2 ⟨_, r.read,
      Checked.bind_eq_ok.2 ⟨_, r.places, rfl⟩⟩⟩
  unfold Repository.planRestore
  rw [hdo]
  dsimp only
  rw [hp]

/-- **The target shows the report.** -/
theorem shows (hdir : target.IsDir []) (hno : summary.errors = []) :
    ∃ log, repo.planRestore key opts = (.ok summary, log) ∧
      (∀ x, x ∈ log ↔ ∃ rel es, repo.Brings r.snapshot.roots opts.subtree rel es ∧
        Reported repo opts (opts.subtree ++ rel) rel es x) ∧
      (repo.setting r.snapshot.roots target opts log r.index (Used repo opts) hdir).Mirrors
        target' r.w.hardlinks log [] [] := by
  obtain ⟨p, hp, hsummary, hselect⟩ := r.planned hdir hno
  have hno' : p.summary.errors = [] := hsummary ▸ r.no_errors hno
  obtain ⟨hsound, -⟩ := Repository.placeRoots_spec (Select.for_new r.new) r.places
  refine ⟨p.onNode, ?_, r.mem_report hp hno', ?_⟩
  · rw [r.planRestore_eq hp, r.summary_eq, hsummary, hselect]
  · have hall := @allPlaces_used repo r.snapshot.roots target opts p.onNode r.index hdir
      r.placements hsound _ p r.fits (Select.for_new r.new) rfl hp hno'
    rcases r.follows hp hall with ⟨-, hsim, hlevels⟩ | ⟨-, hne | hne⟩
    · dsimp only at hsim hlevels
      have hmirrors := hsim.mirrors
      rw [List.map_eq_nil_iff.1 hlevels] at hmirrors
      have hnil : p.levels = [] := by
        have hmatch := hmirrors.levels
        generalize p.levels = ls at hmatch
        cases hmatch
        rfl
      rwa [hnil, ← r.target_eq] at hmirrors
    · exact absurd rfl hne
    · exact absurd (r.no_errors hno) hne

end Restored

/-- After a restore without errors a file or a symlink lies at every path where the snapshot has one
that is chosen, and elsewhere the files and symlinks are those from before; the directories that are
chosen are there, and every directory that is new is chosen or lies above something that is. -/
theorem restore_nodes (hdir : target.IsDir [])
    (h : repo.restore env key target opts = (.ok summary, target')) (hno : summary.errors = []) :
    ∃ snapshot, repo.readSnapshot key = .ok snapshot ∧
      (∀ q e, repo.Node snapshot.roots opts.subtree q e → opts.Chosen (opts.subtree ++ q) →
        if e.kind = .dir then target'.IsDir q else target'.IsLeaf q) ∧
      (∀ q, (∀ e, repo.Node snapshot.roots opts.subtree q e → e.kind ≠ .dir →
          ¬opts.Chosen (opts.subtree ++ q)) →
        ∀ n, n.kind ≠ .dir → (target'.node q = some n ↔ target.node q = some n)) ∧
      ∀ q, target'.IsDir q → target.IsDir q ∨ ∃ q', q <+: q' ∧ opts.Chosen (opts.subtree ++ q') ∧
        ((∃ e, repo.Node snapshot.roots opts.subtree q' e) ∨
          ∃ es, repo.Brings snapshot.roots opts.subtree q' es) := by
  obtain ⟨r⟩ := restore_ok h
  obtain ⟨log, -, hlog, hmirrors⟩ := r.shows hdir hno
  have hshows := hmirrors.shows
  refine ⟨r.snapshot, r.read, fun q e hnode hchosen => ?_, fun q hnone n hn => ?_, fun q hq => ?_⟩
  · obtain ⟨rel, es, rel', hb, hitem, rfl⟩ := hnode
    have hmem : (rel ++ rel', PlannedNode.of e.kind) ∈ log :=
      (hlog _).2 ⟨rel, es, hb, rel', e, hitem, rfl, .inl (by rwa [List.append_assoc])⟩
    split_ifs with hkind
    · rw [hkind] at hmem
      exact hshows.dir _ hmem
    · exact hshows.leaf _ _ hmem (of_ne_dir hkind)
  · -- a leaf of the target is only written over where a chosen entry of the snapshot lies
    refine hshows.kept q (fun k hk => ?_) n hn
    by_contra hne
    obtain ⟨rel, es, hb, hx⟩ := (hlog _).1 hk
    obtain ⟨rel', e, hitem, rfl, rfl, below, y, -, hchosen, hbelow⟩ := exists_chosen_of_reported hx
    have hkind : e.kind ≠ .dir := fun hkind => hne (by rw [hkind]; rfl)
    obtain rfl := hbelow.resolve_right hkind
    rw [List.append_nil, List.append_assoc] at hchosen
    exact hnone e ⟨rel, es, rel', hb, hitem, rfl⟩ hkind hchosen
  · -- a directory is old, or an entry's own, or on the way to one
    rcases hshows.dirNew q hq with hold | hnew | hplace
    · exact .inl hold
    · right
      obtain ⟨rel, es, hb, hx⟩ := (hlog _).1 hnew
      obtain ⟨rel', e, -, rfl, -, below, y, hitem, hchosen, -⟩ := exists_chosen_of_reported hx
      refine ⟨rel ++ (rel' ++ below), ?_, by rwa [← List.append_assoc],
        .inl ⟨y, rel, es, _, hb, hitem, rfl⟩⟩
      rw [← List.append_assoc]
      exact List.prefix_append _ _
    · rcases hplace with rfl | ⟨rel, es, hb, hused, hq⟩
      · exact .inl hdir
      · right
        rcases hused with hchosen | ⟨rel', e, hitem, hchosen⟩
        · exact ⟨rel, hq, hchosen, .inr ⟨es, hb⟩⟩
        · exact ⟨rel ++ rel', hq.trans (List.prefix_append _ _), by rwa [← List.append_assoc],
            .inl ⟨e, rel, es, rel', hb, hitem, rfl⟩⟩

end Restore
end Kist
