import Kist.Restore.Exact

/-!
# Reports without repetition

Where the names in each directory of a snapshot are distinct, and no root lies at or below another
one, a dry run reports no path twice and none on the way to a root.

* `Plan.Reports`: what a part of a dry run adds to the report.
* `tidy_setting`: the setting of a restore of such a snapshot onto an empty target is tidy.
-/

namespace Kist

namespace Plan

/-- A part of a dry run did nothing, or it made all levels and then reported `new`, which is at such
paths and nowhere twice. -/
def Reports (p p' : Plan) (At : RelPath → Prop) : Prop :=
  (p'.onNode = p.onNode ∧ p'.levels = p.levels) ∨
    ∃ new, p'.levels = allCreated p.levels ∧
      p'.onNode = p.onNode ++ (pendingDirs p.levels).reverse ++ new ∧
        (new.map Prod.fst).Nodup ∧ ∀ x ∈ new, At x.1

section Reports

variable {p p₁ p₂ : Plan} {A A₁ A₂ : RelPath → Prop} {path d : RelPath}

theorem Reports.refl (p : Plan) : p.Reports p A := .inl ⟨rfl, rfl⟩

theorem Reports.of_eq (hl : p₁.levels = p.levels) (hn : p₁.onNode = p.onNode) : p.Reports p₁ A :=
  .inl ⟨hn, hl⟩

theorem Reports.mono (h : p.Reports p₁ A₁) (hA : ∀ q, A₁ q → A₂ q) : p.Reports p₁ A₂ :=
  h.imp_right fun ⟨new, hl, hn, hnodup, hat⟩ => ⟨new, hl, hn, hnodup, fun x hx => hA _ (hat x hx)⟩

/-- Two parts that report at different paths. -/
theorem Reports.trans (h₁ : p.Reports p₁ A₁) (h₂ : p₁.Reports p₂ A₂) (hA : ∀ q, A₁ q → ¬A₂ q) :
    p.Reports p₂ fun q => A₁ q ∨ A₂ q := by
  rcases h₁ with ⟨hn₁, hl₁⟩ | ⟨new₁, hl₁, hn₁, hnodup₁, hat₁⟩
  · rw [Reports, hn₁, hl₁] at h₂
    exact Reports.mono h₂ fun q => .inr
  · right
    rcases h₂ with ⟨hn₂, hl₂⟩ | ⟨new₂, hl₂, hn₂, hnodup₂, hat₂⟩
    · exact ⟨new₁, hl₂.trans hl₁, hn₂.trans hn₁, hnodup₁, fun x hx => .inl (hat₁ x hx)⟩
    · refine ⟨new₁ ++ new₂, by rw [hl₂, hl₁, allCreated_idem], ?_, ?_, ?_⟩
      · rw [hn₂, hn₁, hl₁, pendingDirs_allCreated]
        simp
      · rw [List.map_append, List.nodup_append]
        refine ⟨hnodup₁, hnodup₂, fun q hq₁ q' hq₂ heq => ?_⟩
        obtain ⟨x₁, hx₁, rfl⟩ := List.mem_map.1 hq₁
        obtain ⟨x₂, hx₂, rfl⟩ := List.mem_map.1 hq₂
        exact hA _ (hat₁ x₁ hx₁) (heq ▸ hat₂ x₂ hx₂)
      · exact List.forall_mem_append.2 ⟨fun x hx => .inl (hat₁ x hx), fun x hx => .inr (hat₂ x hx)⟩

theorem reports_open (p : Plan) : p.Reports p.open_ A := by
  unfold open_
  rw [openLevels_eq]
  exact .inr ⟨[], rfl, by simp, List.nodup_nil, List.forall_mem_nil _⟩

theorem reports_openIf (p : Plan) (b : Bool) : p.Reports (p.openIf b) A := by
  cases b
  · exact .refl p
  · exact p.reports_open

theorem reports_leaf (p : Plan) (kind : PlannedNode) : p.Reports (p.leaf path kind) (· = path) := by
  have hopen : p.Reports p.open_ fun _ => False := p.reports_open
  have hleaf : p.open_.Reports (p.leaf path kind) (· = path) := by
    have hl : p.open_.levels = allCreated p.levels := by rw [open_, openLevels_eq]
    refine .inr ⟨[(path, kind)], ?_, ?_, by simp, by simp⟩
    · cases kind <;> simp [leaf, hl]
    · rw [hl, pendingDirs_allCreated]
      cases kind <;> simp [leaf]
  exact (hopen.trans hleaf fun _ h => h.elim).mono fun q => Or.rec False.elim id

/-- What was reported with a directory as the deepest level, seen from the level above. -/
theorem Reports.pop (h : (p.push ⟨path, true, false⟩).Reports p₁ A) (hpath : ¬A path) :
    p.Reports p₁.pop fun q => q = path ∨ A q := by
  have hpending : pendingDirs (p.push ⟨path, true, false⟩).levels =
      (path, .dir) :: pendingDirs p.levels := rfl
  rcases h with ⟨hn, hl⟩ | ⟨new, hl, hn, hnodup, hat⟩
  · exact .of_eq (congrArg List.tail hl) hn
  · refine .inr ⟨(path, .dir) :: new, congrArg List.tail hl, ?_, ?_, ?_⟩
    · show p₁.onNode = _
      rw [hn, hpending]
      simp [push]
    · rw [List.map_cons, List.nodup_cons]
      refine ⟨fun hmem => ?_, hnodup⟩
      obtain ⟨x, hx, heq⟩ := List.mem_map.1 hmem
      have hx := hat x hx
      rw [heq] at hx
      exact hpath hx
    · exact List.forall_mem_cons.2 ⟨.inl rfl, fun x hx => .inr (hat x hx)⟩

end Reports

end Plan

/-! ### Distinct names -/

/-- The names in a directory with these entries, and in each one below it, are distinct. -/
structure Repository.Distinct (repo : Repository) (es : List Entry) : Prop where
  here : (es.map Entry.name).Nodup
  below : ∀ rel d sub, repo.Item es rel d → d.kind = .dir → repo.readTreeChain d.subtree = .ok sub →
    (sub.map Entry.name).Nodup

section Distinct

open Plan

variable {repo : Repository} {es sub : List Entry} {e : Entry} {dir : Option PlanDir}
  {d path : RelPath}

theorem Repository.Distinct.deeper (h : repo.Distinct es) (he : e ∈ es) (hkind : e.kind = .dir)
    (hsub : repo.readTreeChain e.subtree = .ok sub) : repo.Distinct sub where
  here := h.below _ e sub (.here he) hkind hsub
  below rel x sub' hi := h.below (e.name :: rel) x sub' (.deeper he hkind hsub hi)

/-- The paths at and below the entries of a directory. -/
def Under (d : RelPath) (es : List Entry) (q : RelPath) : Prop := ∃ e ∈ es, d ++ [e.name] <+: q

variable (repo) in
/-- What `plan_dir` reports lies at or below the directory. -/
def DirReports (f : PlanDir) : Prop :=
  ∀ (p : Plan) (e : Entry) (path : RelPath) (pos : Pos),
    (∀ sub, repo.readTreeChain e.subtree = .ok sub → repo.Distinct sub) →
      p.Reports (f p e path pos).2 (path <+: ·)

theorem reports_planNode (hdir : ∀ f ∈ dir, DirReports repo f) (p : Plan) (pos : Pos)
    (hsub : ∀ sub, e.kind = .dir → repo.readTreeChain e.subtree = .ok sub → repo.Distinct sub) :
    p.Reports (p.planNode dir e path pos) (path <+: ·) := by
  have hkind : p.Reports (p.planKind dir e path pos).2 (path <+: ·) := by
    unfold planKind
    split
    · next hkind =>
      split_ifs
      · exact .refl p
      · split
        · exact .refl p
        · next f => exact hdir f rfl p e path pos fun sub => hsub sub hkind
    all_goals exact (p.reports_leaf _).mono fun q hq => hq ▸ List.prefix_rfl
  unfold planNode
  rcases hk : p.planKind dir e path pos with ⟨err | _, p'⟩ <;> rw [hk] at hkind
  · exact hkind
  · exact hkind

/-- **The entries of one directory.** -/
theorem reports_planEntries (hdir : ∀ f ∈ dir, DirReports repo f) (d : RelPath) (pos : Pos)
    (es : List Entry) : ∀ p : Plan, repo.Distinct es →
      p.Reports (planEntries dir d pos es p) (Under d es) := by
  induction es with
  | nil => exact fun p _ => .refl p
  | cons e es ih =>
    intro p h
    have hes : repo.Distinct es :=
      ⟨(List.nodup_cons.1 h.here).2, fun rel x sub hi => h.below rel x sub (item_cons.2 (.inr hi))⟩
    have hlater : ∀ q, Under d es q → Under d (e :: es) q := fun q ⟨e', he', hq⟩ =>
      ⟨e', List.mem_cons_of_mem _ he', hq⟩
    unfold planEntries
    split
    · exact Reports.mono (ih (p.note d _) hes) hlater
    · split
      · next select _ => exact Reports.mono (ih { p with select } hes) hlater
      · next child select _ =>
        have hselect : p.Reports ({ p with select } : Plan) fun _ => False := .of_eq rfl rfl
        have hopen : p.Reports (({ p with select } : Plan).openIf child.selected) fun _ => False :=
          (hselect.trans (reports_openIf _ _) fun _ h => h.elim).mono fun _ h => h.elim id id
        have hnode := @reports_planNode repo e dir (d ++ [e.name]) hdir
          (({ p with select } : Plan).openIf child.selected) child
          fun sub hkind hsub => h.deeper List.mem_cons_self hkind hsub
        refine ((hopen.trans hnode fun _ h => h.elim).trans (ih _ hes) ?_).mono ?_
        · rintro q (h | hq) ⟨e', he', hq'⟩
          · exact h
          · -- two names at one place of a path are the same
            have heq : d ++ [e.name] = d ++ [e'.name] :=
              (List.prefix_of_prefix_length_le hq hq' (by simp)).eq_of_length (by simp)
            have hname : e.name = e'.name := by simpa using heq
            exact (List.nodup_cons.1 h.here).1 (hname ▸ List.mem_map_of_mem he')
        · rintro q ((h | hq) | hq)
          · exact h.elim
          · exact ⟨e, List.mem_cons_self, hq⟩
          · exact hlater q hq

theorem dirReports_planDirs : ∀ n, ∀ f ∈ planDirs repo n, DirReports repo f
  | 0, f, hf => by cases hf
  | n + 1, f, hf => by
    cases hf
    intro p e path pos hsub
    have hopen : (p.push ⟨path, true, false⟩).Reports
      ((p.push ⟨path, true, false⟩).openIf pos.selected)
        fun _ => False := reports_openIf _ _
    unfold planDirWith
    split
    · exact (hopen.pop id).mono fun q hq => hq.resolve_right id ▸ List.prefix_rfl
    · next children hchildren =>
      have hentries := reports_planEntries (dirReports_planDirs n) path pos children
        ((p.push ⟨path, true, false⟩).openIf pos.selected) (hsub children hchildren)
      have hall : p.Reports (planEntries (planDirs repo n) path pos children
          ((p.push ⟨path, true, false⟩).openIf pos.selected)).pop (path <+: ·) := by
        refine ((hopen.trans hentries fun _ h => h.elim).pop ?_).mono ?_
        · rintro (h | ⟨e', -, hq⟩)
          · exact h
          · have := hq.length_le
            simp at this
        · rintro q (rfl | h | ⟨e', -, hq⟩)
          · exact List.prefix_rfl
          · exact h.elim
          · exact (List.prefix_append _ _).trans hq
      dsimp only
      split_ifs
      · exact hall
      · exact hall

/-! ### The roots -/

theorem name_of_isFileRoot {last : Bytes} (h : isFileRoot last es = true) :
    ∀ e ∈ es, e.name = last := by
  unfold isFileRoot at h
  split at h
  · rw [Bool.and_eq_true, decide_eq_true_eq, decide_eq_true_eq] at h
    exact List.forall_mem_singleton.2 h.2
  · cases h

/-- Neither root lies at or below the other one. -/
def Root.Apart (r r' : Root) : Prop :=
  ∀ names names', locatorComponents r.path = .ok names → locatorComponents r'.path = .ok names' →
    ¬names <+: names' ∧ ¬names' <+: names

/-- No root lies at or below another one. -/
def RootsApart (roots : List Root) : Prop := roots.Pairwise Root.Apart

/-- What the roots bring has distinct names in each directory. -/
def Repository.DistinctRoots (repo : Repository) (roots : List Root)
    (subtree : List Bytes) : Prop :=
  ∀ rel es, repo.Brings roots subtree rel es → repo.Distinct es

variable {roots : List Root} {subtree : List Bytes} {root root' : Root} {rel rel' q : RelPath}
  {es' : List Entry} {opts : RestoreOptions} {s : Select}

theorem RootsApart.eq (h : RootsApart roots) (hr : root ∈ roots) (hr' : root' ∈ roots)
    {names names' : List Bytes} (hn : locatorComponents root.path = .ok names)
    (hn' : locatorComponents root'.path = .ok names') (hcomparable : names <+: names') :
    root = root' := by
  by_contra hne
  have hsymm : Std.Symm Root.Apart := ⟨fun _ _ h _ _ hn hn' => (h _ _ hn' hn).symm⟩
  exact (List.Pairwise.forall h hr hr' hne names names' hn hn').1 hcomparable

/-- What a root brings lies at or below the path of the root. -/
theorem Repository.Brings.below (h : repo.Brings [root] subtree rel es) :
    ∃ names, locatorComponents root.path = .ok names ∧
      (∀ q, Under rel es q → names <+: subtree ++ q) ∧ (rel = [] ∨ subtree ++ rel <+: names) := by
  cases h with
  | dir hroot hnames hne hes hdir =>
    obtain rfl := List.mem_singleton.1 hroot
    refine ⟨_, hnames, ?_, .inr List.prefix_rfl⟩
    rintro q ⟨e, -, hq⟩
    exact (List.prefix_append_right_inj _).2 ((List.prefix_append _ _).trans hq)
  | @file root rel es hroot hnames hne hes hfile =>
    obtain rfl := List.mem_singleton.1 hroot
    refine ⟨_, hnames, ?_, .inr ((List.prefix_append_right_inj _).2 (List.dropLast_prefix _))⟩
    rintro q ⟨e, he, hq⟩
    rw [name_of_isFileRoot hfile e he, Repository.dropLast_append_getLastD hne] at hq
    exact (List.prefix_append_right_inj _).2 hq
  | within hroot hnames hsubtree hes hdir =>
    obtain rfl := List.mem_singleton.1 hroot
    refine ⟨_, hnames, fun q _ => ?_, .inl rfl⟩
    rw [hsubtree, List.append_assoc]
    exact List.prefix_append _ _

theorem Under.not_prefix (h : Under rel es q) : ¬q <+: rel := by
  obtain ⟨e, -, hq⟩ := h
  intro hle
  have := (hq.trans hle).length_le
  simp at this

/-- The place of a root with this path and these entries. -/
def rootPlace (names subtree : List Bytes) (es : List Entry) : RelPath :=
  let rest := names.drop subtree.length
  if isFileRoot (rest.getLastD []) es then rest.dropLast else rest

theorem Repository.Brings.place (h : repo.Brings [root] subtree rel es) :
    ∃ names es', locatorComponents root.path = .ok names ∧ repo.readTreeChain root.tree = .ok es' ∧
      rel = rootPlace names subtree es' ∧
        if subtree.length < names.length then es = es'
        else repo.DirAt es' (subtree.drop names.length) es := by
  have hlt : ∀ {rest : List Bytes}, rest ≠ [] → subtree.length < (subtree ++ rest).length :=
    fun hne => by
      rw [List.length_append]
      exact Nat.lt_add_of_pos_right (List.length_pos_of_ne_nil hne)
  unfold rootPlace
  cases h with
  | dir hroot hnames hne hes hdir =>
    obtain rfl := List.mem_singleton.1 hroot
    refine ⟨_, _, hnames, hes, ?_, by rw [if_pos (hlt hne)]⟩
    rw [List.drop_left]
    dsimp only
    rw [hdir, if_neg Bool.false_ne_true]
  | file hroot hnames hne hes hfile =>
    obtain rfl := List.mem_singleton.1 hroot
    refine ⟨_, _, hnames, hes, ?_, by rw [if_pos (hlt hne)]⟩
    rw [List.drop_left]
    dsimp only
    rw [hfile, if_pos rfl]
  | @within root names rest _ _ hroot hnames hsubtree hes hdir =>
    obtain rfl := List.mem_singleton.1 hroot
    have hle : names.length ≤ subtree.length := by
      rw [hsubtree, List.length_append]
      omega
    refine ⟨_, _, hnames, hes, ?_, ?_⟩
    · rw [List.drop_eq_nil_iff.2 hle]
      dsimp only
      rw [List.dropLast_nil, ite_self]
    · rw [if_neg (not_lt.2 hle), hsubtree, List.drop_left]
      exact hdir

theorem Repository.DirAt.unique {names : List Bytes} {es₁ es₂ : List Entry}
    (h : repo.DirAt es names es₁) (h' : repo.DirAt es names es₂) : es₁ = es₂ := by
  induction h with
  | here =>
    cases h'
    rfl
  | deeper hfind _ hsub _ ih =>
    cases h' with
    | deeper hfind' _ hsub' h' =>
      cases hfind.symm.trans hfind'
      cases hsub.symm.trans hsub'
      exact ih h'

/-- A root brings one directory. -/
theorem Repository.Brings.unique (h : repo.Brings [root] subtree rel es)
    (h' : repo.Brings [root] subtree rel' es') : rel = rel' ∧ es = es' := by
  obtain ⟨n₁, es₁, hn₁, hes₁, rfl, hd₁⟩ := h.place
  obtain ⟨n₂, es₂, hn₂, hes₂, rfl, hd₂⟩ := h'.place
  cases hn₁.symm.trans hn₂
  cases hes₁.symm.trans hes₂
  refine ⟨rfl, ?_⟩
  split_ifs at hd₁ hd₂ with hlt
  · rw [hd₁, hd₂]
  · exact hd₁.unique hd₂

/-- No path that is reported lies on the way to the place of a root. -/
theorem RootsApart.not_prefix (h : RootsApart roots) (hb : repo.Brings roots subtree rel es)
    (hq : Under rel es q) (hb' : repo.Brings roots subtree rel' es') : ¬q <+: rel' := by
  intro hle
  obtain ⟨root, hroot, hb⟩ := hb.single
  obtain ⟨root', hroot', hb'⟩ := hb'.single
  obtain ⟨names, hnames, hunder, -⟩ := hb.below
  obtain ⟨names', hnames', -, rfl | hrel'⟩ := hb'.below
  · obtain ⟨e, -, he⟩ := hq
    have := (he.trans hle).length_le
    simp at this
  · obtain rfl := h.eq hroot hroot' hnames hnames'
      ((hunder q hq).trans (((List.prefix_append_right_inj _).2 hle).trans hrel'))
    obtain ⟨rfl, -⟩ := hb.unique hb'
    exact hq.not_prefix hle

/-- An item has its path below the entry above it. -/
theorem Repository.Item.under {rel' : RelPath} {x : Entry} (h : repo.Item es rel' x)
    (rel : RelPath) :
    Under rel es (rel ++ rel') := by
  cases h with
  | here he => exact ⟨_, he, List.prefix_rfl⟩
  | @deeper _ _ d _ rel' hd => exact ⟨d, hd, rel', by simp⟩

/-- One item lies at each path below a directory. -/
theorem Repository.Distinct.item_unique {x y : Entry} (h : repo.Distinct es)
    (hx : repo.Item es rel x) (hy : repo.Item es rel y) : x = y := by
  have hname : ∀ {es : List Entry} {d d' : Entry}, repo.Distinct es → d ∈ es → d' ∈ es →
      d.name = d'.name → d = d' := fun h hd hd' heq => List.inj_on_of_nodup_map h.here hd hd' heq
  induction hx with
  | here hd =>
    generalize hr : [_] = r at hy
    cases hy with
    | here hd' => exact hname h hd hd' (List.singleton_inj.1 hr)
    | deeper hd' _ _ hi =>
      cases hi <;> simp at hr
  | deeper hd hkind hsub hi ih =>
    generalize hr : _ :: _ = r at hy
    cases hy with
    | here => cases hi <;> simp at hr
    | deeper hd' _ hsub' hi' =>
      obtain ⟨heq, rfl⟩ := List.cons_eq_cons.1 hr
      obtain rfl := hname h hd hd' heq
      cases hsub.symm.trans hsub'
      exact ih (h.deeper hd hkind hsub) hi'

/-- One node lies at each path. -/
theorem Repository.Node.unique {x y : Entry} (hapart : RootsApart roots)
    (hdistinct : repo.DistinctRoots roots subtree) (hx : repo.Node roots subtree q x)
    (hy : repo.Node roots subtree q y) : x = y := by
  obtain ⟨rel₁, es₁, rel₁', hb₁, hi₁, rfl⟩ := hx
  obtain ⟨rel₂, es₂, rel₂', hb₂, hi₂, heq⟩ := hy
  obtain ⟨root₁, hr₁, hb₁'⟩ := hb₁.single
  obtain ⟨root₂, hr₂, hb₂'⟩ := hb₂.single
  obtain ⟨n₁, hn₁, hu₁, -⟩ := hb₁'.below
  obtain ⟨n₂, hn₂, hu₂, -⟩ := hb₂'.below
  have hle₁ := hu₁ _ (hi₁.under rel₁)
  have hle₂ := hu₂ _ (hi₂.under rel₂)
  rw [← heq] at hle₂
  obtain rfl : root₁ = root₂ := by
    rcases List.prefix_or_prefix_of_prefix hle₁ hle₂ with hle | hle
    · exact hapart.eq hr₁ hr₂ hn₁ hn₂ hle
    · exact (hapart.eq hr₂ hr₁ hn₂ hn₁ hle).symm
  obtain ⟨rfl, rfl⟩ := hb₁'.unique hb₂'
  obtain rfl := List.append_cancel_left heq
  exact (hdistinct _ _ hb₁).item_unique hi₁ hi₂

/-- The paths that a placement may report. -/
def Region (repo : Repository) (placement : Placement) (q : RelPath) : Prop :=
  ∃ es, repo.entriesOf placement.content = .ok es ∧ Under (placement.settle es).1 es q

theorem reports_planPlacement {p : Plan} {placement : Placement}
    (hdistinct : ∀ es, repo.entriesOf placement.content = .ok es → repo.Distinct es)
    (hnil : p.levels = []) :
    (p.planPlacement repo placement).2.levels = [] ∧
      p.Reports (p.planPlacement repo placement).2 (Region repo placement) := by
  unfold planPlacement
  cases hopen : repo.openPlacement placement p.select with
  | error err => exact ⟨hnil, .refl p⟩
  | ok x =>
    obtain ⟨rel, pos, es, select⟩ := x
    obtain ⟨hes, hsettle, -⟩ := Repository.openPlacement_eq_ok.1 hopen
    dsimp only
    have hbase : (({ p with select } : Plan).push ⟨rel, false, false⟩).levels =
      [⟨rel, false, false⟩] :=
      congrArg (_ :: ·) hnil
    have hopen' : (({ p with select } : Plan).push ⟨rel, false, false⟩).Reports
        ((({ p with select } : Plan).push ⟨rel, false, false⟩).openIf pos.selected)
        fun _ => False := reports_openIf _ _
    have hall := (hopen'.trans (reports_planEntries (dirReports_planDirs (maxTreeDepth - 1)) rel pos
      es _ (hdistinct es hes)) fun _ h => h.elim).mono fun q h => h.elim False.elim id
    have hregion : ∀ q, Under rel es q → Region repo placement q := fun q hq =>
      ⟨es, hes, by rwa [hsettle]⟩
    rcases hall with ⟨hn, hl⟩ | ⟨new, hl, hn, hnodup, hat⟩
    · refine ⟨by rw [Plan.pop, hl, hbase]; rfl, .inl ⟨hn, ?_⟩⟩
      rw [Plan.pop, hl, hbase, hnil]
      rfl
    · rw [hbase] at hl hn
      refine ⟨by rw [Plan.pop, hl]; rfl,
        .inr ⟨new, ?_, ?_, hnodup, fun x hx => hregion _ (hat x hx)⟩⟩
      · rw [Plan.pop, hl, hnil]
        rfl
      · show Plan.onNode _ = p.onNode ++ (pendingDirs p.levels).reverse ++ new
        rw [show pendingDirs p.levels = [] by rw [hnil]; rfl]
        exact hn

/-- **All roots.** No path is reported twice, and each lies at the place of a root. -/
theorem nodup_planPlacements (placements : List Placement) : ∀ p : Plan,
    (∀ placement ∈ placements, ∀ es, repo.entriesOf placement.content = .ok es → repo.Distinct es) →
    placements.Pairwise (fun a b => ∀ q, Region repo a q → ¬Region repo b q) → p.levels = [] →
      ∃ new, (planPlacements repo placements p).2.onNode = p.onNode ++ new ∧
        (new.map Prod.fst).Nodup ∧ ∀ x ∈ new, ∃ placement ∈ placements,
          Region repo placement x.1 := by
  induction placements with
  | nil =>
    exact fun p _ _ _ => ⟨[], by simp [planPlacements], List.nodup_nil, List.forall_mem_nil _⟩
  | cons placement placements ih =>
    intro p hdistinct hpair hnil
    obtain ⟨hd, hrest⟩ := List.forall_mem_cons.1 hdistinct
    obtain ⟨hapart, hpair⟩ := List.pairwise_cons.1 hpair
    obtain ⟨hnil₁, hfirst⟩ := reports_planPlacement hd hnil
    unfold planPlacements
    rcases hp : p.planPlacement repo placement with ⟨res, p₁⟩
    rw [hp] at hnil₁ hfirst
    dsimp only at hnil₁ hfirst
    obtain ⟨new₁, hn₁, hnodup₁, hat₁⟩ : ∃ new, p₁.onNode = p.onNode ++ new ∧
        (new.map Prod.fst).Nodup ∧ ∀ x ∈ new, Region repo placement x.1 := by
      rcases hfirst with ⟨hn, -⟩ | ⟨new, -, hn, hnodup, hat⟩
      · exact ⟨[], by simp [hn], List.nodup_nil, List.forall_mem_nil _⟩
      · rw [hnil] at hn
        exact ⟨new, by simpa [pendingDirs] using hn, hnodup, hat⟩
    cases res with
    | error err =>
      exact ⟨new₁, hn₁, hnodup₁, fun x hx => ⟨placement, List.mem_cons_self, hat₁ x hx⟩⟩
    | ok u =>
      obtain ⟨new₂, hn₂, hnodup₂, hat₂⟩ := ih p₁ hrest hpair hnil₁
      refine ⟨new₁ ++ new₂, by rw [← List.append_assoc, ← hn₁]; exact hn₂, ?_, ?_⟩
      · rw [List.map_append, List.nodup_append]
        refine ⟨hnodup₁, hnodup₂, fun q hq₁ q' hq₂ heq => ?_⟩
        obtain ⟨x₁, hx₁, rfl⟩ := List.mem_map.1 hq₁
        obtain ⟨x₂, hx₂, rfl⟩ := List.mem_map.1 hq₂
        obtain ⟨later, hlater, hat⟩ := hat₂ x₂ hx₂
        exact hapart later hlater _ (hat₁ x₁ hx₁) (heq ▸ hat)
      · refine List.forall_mem_append.2 ⟨fun x hx => ⟨placement, List.mem_cons_self, hat₁ x hx⟩,
          fun x hx => ?_⟩
        obtain ⟨later, hlater, hat⟩ := hat₂ x hx
        exact ⟨later, List.mem_cons_of_mem _ hlater, hat⟩

/-- Different roots bring different paths. -/
theorem pairwise_placeEach (h : RootsApart roots) : ∀ {r : List Placement × Bool},
    repo.placeEach opts.subtree s roots = .ok r →
      r.1.Pairwise fun a b => ∀ q, Region repo a q → ¬Region repo b q := by
  induction roots with
  | nil =>
    intro r hr
    cases hr
    exact .nil
  | cons root roots ih =>
    intro r hr
    obtain ⟨hfirst, hrest⟩ := List.pairwise_cons.1 h
    obtain ⟨placed, hplaced, hr⟩ := Checked.bind_eq_ok.1 hr
    obtain ⟨⟨placements, found⟩, heach, hr⟩ := Checked.bind_eq_ok.1 hr
    have hpair := ih hrest heach
    cases placed with
    | elsewhere | pruned =>
      cases hr
      exact hpair
    | here placement =>
      cases hr
      refine List.pairwise_cons.2 ⟨fun later hlater q hq hq' => ?_, hpair⟩
      obtain ⟨root', hroot', hplaced'⟩ := Repository.exists_root_of_placeEach heach later hlater
      obtain ⟨es, hes, hunder⟩ := hq
      obtain ⟨es', hes', hunder'⟩ := hq'
      obtain ⟨names, hnames, hbelow, -⟩ :=
        (Repository.placeRoot_sound (List.mem_singleton_self root) hplaced hes).below
      obtain ⟨names', hnames', hbelow', -⟩ :=
        (Repository.placeRoot_sound (List.mem_singleton_self root') hplaced' hes').below
      have hne := hfirst root' hroot' names names' hnames hnames'
      rcases List.prefix_or_prefix_of_prefix (hbelow q hunder) (hbelow' q hunder') with hle | hle
      · exact hne.1 hle
      · exact hne.2 hle

end Distinct

/-- **A tidy restore.** Onto an empty target, of a snapshot with distinct names in each directory
and no root at or below another one. -/
theorem tidy_setting {repo : Repository} {roots : List Root} {target : Target}
    {opts : RestoreOptions} {index : ChunkIndex} {made : RelPath → List Entry → Prop}
    {hdir : target.IsDir []} {select : Select} {placements : List Placement}
    (hempty : ∀ q, q ≠ [] → target.node q = none) (hapart : RootsApart roots)
    (hdistinct : repo.DistinctRoots roots opts.subtree) (hs : select.For opts)
    (hplaces : repo.placeRoots roots opts.subtree select = .ok placements) :
    (repo.setting roots target opts
      (Plan.planPlacements repo placements ⟨select, {}, [], []⟩).2.onNode index
        made hdir).Tidy := by
  obtain ⟨hsound, -⟩ := Repository.placeRoots_spec hs hplaces
  have hpair : placements.Pairwise fun a b => ∀ q, Region repo a q → ¬Region repo b q := by
    obtain ⟨r, heach, hplaces⟩ := Checked.bind_eq_ok.1 hplaces
    have h := pairwise_placeEach hapart heach
    dsimp only at hplaces
    split_ifs at hplaces
    · cases hplaces
    · cases hplaces
      exact h
  obtain ⟨new, hn, hnodup, hat⟩ := nodup_planPlacements placements ⟨select, {}, [], []⟩
    (fun placement hp es hes => hdistinct _ es (hsound placement hp es hes)) hpair rfl
  rw [List.nil_append] at hn
  refine ⟨?_, fun x hx hplace => ?_, hempty⟩
  · show ((Plan.planPlacements repo placements ⟨select, {}, [], []⟩).2.onNode.map Prod.fst).Nodup
    rwa [hn]
  · replace hx : x ∈ (Plan.planPlacements repo placements ⟨select, {}, [], []⟩).2.onNode := hx
    rw [hn] at hx
    obtain ⟨placement, hp, es, hes, hunder⟩ := hat x hx
    rcases hplace with hnil | ⟨rel', es', hb', -, hle⟩
    · obtain ⟨e, -, hq⟩ := hunder
      rw [hnil] at hq
      have := hq.length_le
      simp at this
    · exact hapart.not_prefix (hsound placement hp es hes) hunder hb' hle

end Kist
