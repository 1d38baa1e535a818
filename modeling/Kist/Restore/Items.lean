import Kist.Restore.Plan

/-!
# What the dry run reports

The items of a directory, and which of them a dry run reports: an item that is chosen, and a
directory above one. The levels above are reported with the first of them.

* `planEntries_spec`: the entries of one directory.
-/

namespace Kist

/-! ### The items of a directory -/

/-- Below a directory with these entries lies this entry, under this path. -/
inductive Repository.Item (repo : Repository) : List Entry → RelPath → Entry → Prop
  | here {es : List Entry} {e : Entry} (he : e ∈ es) : Item repo es [e.name] e
  | deeper {es sub : List Entry} {d e : Entry} {rel : RelPath} (hd : d ∈ es) (hkind : d.kind = .dir)
    (hsub : repo.readTreeChain d.subtree = .ok sub) (h : Item repo sub rel e) :
    Item repo es (d.name :: rel) e

/-- What an entry is reported as. -/
def PlannedNode.of : NodeType → PlannedNode
  | .file => .file
  | .dir => .dir
  | .symlink => .symlink

section Items

variable (repo : Repository) (opts : RestoreOptions) (s d : RelPath)

/-- Something below these entries is chosen. `s` is the path of their directory in the snapshot. -/
def Opens (es : List Entry) : Prop := ∃ rel e, repo.Item es rel e ∧ opts.Chosen (s ++ rel)

/-- Something in this directory is chosen. -/
def Leads (e : Entry) : Prop :=
  ∃ sub, repo.readTreeChain e.subtree = .ok sub ∧ Opens repo opts s sub

/-- The report of an item below these entries. `d` is the path of their directory in the target. -/
def Reported (es : List Entry) (x : RelPath × PlannedNode) : Prop :=
  ∃ rel e, repo.Item es rel e ∧ x = (d ++ rel, .of e.kind) ∧
    (opts.Chosen (s ++ rel) ∨ e.kind = .dir ∧ Leads repo opts (s ++ rel) e)

variable {repo opts s d} {e x : Entry} {es sub : List Entry} {rel : RelPath}

theorem item_cons : repo.Item (e :: es) rel x ↔ repo.Item [e] rel x ∨ repo.Item es rel x := by
  constructor
  · intro h
    cases h with
    | here he =>
      rcases List.mem_cons.1 he with rfl | he
      · exact .inl (.here List.mem_cons_self)
      · exact .inr (.here he)
    | deeper hd hkind hsub h =>
      rcases List.mem_cons.1 hd with rfl | hd
      · exact .inl (.deeper List.mem_cons_self hkind hsub h)
      · exact .inr (.deeper hd hkind hsub h)
  · rintro (h | h)
    · cases h with
      | here he => exact .here (List.mem_cons.2 (.inl (List.mem_singleton.1 he)))
      | deeper hd hkind hsub h =>
        exact .deeper (List.mem_cons.2 (.inl (List.mem_singleton.1 hd))) hkind hsub h
    · cases h with
      | here he => exact .here (List.mem_cons_of_mem _ he)
      | deeper hd hkind hsub h => exact .deeper (List.mem_cons_of_mem _ hd) hkind hsub h

theorem item_leaf (hkind : e.kind ≠ .dir) : repo.Item [e] rel x ↔ rel = [e.name] ∧ x = e := by
  constructor
  · intro h
    cases h with
    | here he => exact List.mem_singleton.1 he ▸ ⟨rfl, rfl⟩
    | deeper hd hk => exact absurd (List.mem_singleton.1 hd ▸ hk) hkind
  · rintro ⟨rfl, rfl⟩
    exact .here List.mem_cons_self

theorem item_dir (hkind : e.kind = .dir) (hsub : repo.readTreeChain e.subtree = .ok sub) :
    repo.Item [e] rel x ↔
      rel = [e.name] ∧ x = e ∨ ∃ rel', rel = e.name :: rel' ∧ repo.Item sub rel' x := by
  constructor
  · intro h
    cases h with
    | here he => exact .inl (List.mem_singleton.1 he ▸ ⟨rfl, rfl⟩)
    | deeper hd _ hsub' h =>
      cases List.mem_singleton.1 hd
      cases hsub.symm.trans hsub'
      exact .inr ⟨_, rfl, h⟩
  · rintro (⟨rfl, rfl⟩ | ⟨rel', rfl, h⟩)
    · exact .here List.mem_cons_self
    · exact .deeper List.mem_cons_self hkind hsub h

theorem opens_nil : ¬Opens repo opts s [] := by
  rintro ⟨rel, e, h, -⟩
  cases h with
  | here he => exact List.not_mem_nil he
  | deeper hd => exact List.not_mem_nil hd

theorem opens_cons :
    Opens repo opts s (e :: es) ↔ Opens repo opts s [e] ∨ Opens repo opts s es := by
  have hcons := fun rel x => @item_cons repo e x es rel
  simp only [Opens, hcons, or_and_right, exists_or]

theorem reported_nil {x : RelPath × PlannedNode} : ¬Reported repo opts s d [] x := by
  rintro ⟨rel, e, h, -⟩
  cases h with
  | here he => exact List.not_mem_nil he
  | deeper hd => exact List.not_mem_nil hd

theorem reported_cons {x : RelPath × PlannedNode} : Reported repo opts s d (e :: es) x ↔
    Reported repo opts s d [e] x ∨ Reported repo opts s d es x := by
  have hcons := fun rel x => @item_cons repo e x es rel
  simp only [Reported, hcons, or_and_right, exists_or]

theorem opens_leaf (hkind : e.kind ≠ .dir) :
    Opens repo opts s [e] ↔ opts.Chosen (s ++ [e.name]) := by
  simp only [Opens, item_leaf hkind]
  exact ⟨fun ⟨_, _, ⟨rfl, rfl⟩, h⟩ => h, fun h => ⟨_, _, ⟨rfl, rfl⟩, h⟩⟩

theorem reported_leaf (hkind : e.kind ≠ .dir) {x : RelPath × PlannedNode} :
    Reported repo opts s d [e] x ↔
      x = (d ++ [e.name], .of e.kind) ∧ opts.Chosen (s ++ [e.name]) := by
  simp only [Reported, item_leaf hkind]
  constructor
  · rintro ⟨_, _, ⟨rfl, rfl⟩, hx, h | ⟨h, -⟩⟩
    · exact ⟨hx, h⟩
    · exact absurd h hkind
  · rintro ⟨hx, h⟩
    exact ⟨_, _, ⟨rfl, rfl⟩, hx, .inl h⟩

theorem opens_dir (hkind : e.kind = .dir) (hsub : repo.readTreeChain e.subtree = .ok sub) :
    Opens repo opts s [e] ↔
      opts.Chosen (s ++ [e.name]) ∨ Opens repo opts (s ++ [e.name]) sub := by
  simp only [Opens, item_dir hkind hsub]
  constructor
  · rintro ⟨_, _, ⟨rfl, rfl⟩ | ⟨rel', rfl, hi⟩, h⟩
    · exact .inl h
    · exact .inr ⟨rel', _, hi, by rwa [List.append_assoc]⟩
  · rintro (h | ⟨rel', x, hi, h⟩)
    · exact ⟨_, _, .inl ⟨rfl, rfl⟩, h⟩
    · exact ⟨_, x, .inr ⟨rel', rfl, hi⟩, by rwa [List.append_assoc] at h⟩

theorem reported_dir (hkind : e.kind = .dir) (hsub : repo.readTreeChain e.subtree = .ok sub)
    {x : RelPath × PlannedNode} : Reported repo opts s d [e] x ↔
      x = (d ++ [e.name], .dir) ∧
        (opts.Chosen (s ++ [e.name]) ∨ Opens repo opts (s ++ [e.name]) sub) ∨
      Reported repo opts (s ++ [e.name]) (d ++ [e.name]) sub x := by
  have hleads : Leads repo opts (s ++ [e.name]) e ↔ Opens repo opts (s ++ [e.name]) sub :=
    ⟨fun ⟨_, h, ho⟩ => by cases hsub.symm.trans h; exact ho, fun h => ⟨sub, hsub, h⟩⟩
  simp only [Reported, item_dir hkind hsub]
  constructor
  · rintro ⟨_, _, ⟨rfl, rfl⟩ | ⟨rel', rfl, hi⟩, hx, h⟩
    · rw [hkind] at hx
      exact .inl ⟨hx, h.imp_right fun h => hleads.1 h.2⟩
    · exact .inr ⟨rel', _, hi, by simpa using hx, by simpa using h⟩
  · rintro (⟨hx, h⟩ | ⟨rel', x, hi, hx, h⟩)
    · exact ⟨_, _, .inl ⟨rfl, rfl⟩, by rw [hx, hkind]; rfl,
        h.imp_right fun h => ⟨hkind, hleads.2 h⟩⟩
    · exact ⟨_, x, .inr ⟨rel', rfl, hi⟩, by simpa using hx, by simpa using h⟩

/-- Nothing is reported of what is not visited. -/
theorem not_opens_of_none {pos : Pos} {sel : Select} (hpos : pos.At opts s) (hs : sel.For opts)
    (h : (sel.visit pos e).1 = none) :
    ¬Opens repo opts s [e] ∧ ∀ x, ¬Reported repo opts s d [e] x := by
  have hno := (hpos.visit hs e).2 h
  -- every item of the entry lies at a path from which it is excluded, or not chosen
  have hitem : ∀ rel x, repo.Item [e] rel x → ¬opts.Chosen (s ++ rel) := by
    intro rel x hi hc
    cases hi with
    | here he =>
      cases List.mem_singleton.1 he
      exact hno [] (.inr rfl) (by rwa [List.append_nil])
    | @deeper _ _ _ _ rel hd hkind _ _ =>
      cases List.mem_singleton.1 hd
      exact hno rel (.inl hkind) (by simpa using hc)
  refine ⟨fun ⟨rel, x, hi, hc⟩ => hitem rel x hi hc, ?_⟩
  rintro x ⟨rel, y, hi, -, hc | ⟨hkind, sub, hsub, rel', z, hi', hc⟩⟩
  · exact hitem rel y hi hc
  · rw [List.append_assoc] at hc
    refine hitem _ z ?_ hc
    clear hc hno
    generalize [e] = es at hi
    induction hi with
    | here he => exact .deeper he hkind hsub hi'
    | deeper hd hk hs' _ ih => exact .deeper hd hk hs' (ih hkind hsub)

end Items

/-! ### Levels -/

/-- Every level counts as made. -/
def allCreated (ls : List PlanLevel) : List PlanLevel := ls.map fun l => { l with created := true }

/-- The directories of the snapshot among the levels that are still to be made. -/
def pendingDirs (ls : List PlanLevel) : List (RelPath × PlannedNode) :=
  (ls.filter fun l => !l.created && l.snapshotDir).map fun l => (l.path, .dir)

theorem openLevels_eq (ls : List PlanLevel) (log : List (RelPath × PlannedNode)) :
    openLevels ls log = (allCreated ls, log ++ (pendingDirs ls).reverse) := by
  induction ls with
  | nil => simp [openLevels, allCreated, pendingDirs]
  | cons l ls ih =>
    rcases l with ⟨path, snapshotDir, created⟩
    rw [openLevels, ih]
    cases created <;> cases snapshotDir <;> simp [allCreated, pendingDirs]

@[simp] theorem allCreated_idem (ls : List PlanLevel) :
    allCreated (allCreated ls) = allCreated ls := by
  simp [allCreated]

@[simp] theorem pendingDirs_allCreated (ls : List PlanLevel) :
    pendingDirs (allCreated ls) = [] := by
  simp [allCreated, pendingDirs, List.filter_map, Function.comp_def]

namespace Plan

/-- What a part of a dry run did: it reported `New`, and if `opened`, the levels that were to be
made. -/
structure Did (p p' : Plan) (New : RelPath × PlannedNode → Prop) (opened : Prop) : Prop where
  created : opened → p'.levels = allCreated p.levels
  same : ¬opened → p'.levels = p.levels
  mem : ∀ x, x ∈ p'.onNode ↔ x ∈ p.onNode ∨ New x ∨ opened ∧ x ∈ pendingDirs p.levels

/-- The same level, which may have been made since. -/
structure SameLevel (m m' : PlanLevel) : Prop where
  path : m'.path = m.path
  snapshotDir : m'.snapshotDir = m.snapshotDir
  created : m.created = true → m'.created = true

/-- A part of a dry run takes back no report and no error, and ends at the levels it started
with. -/
structure Grows (p p' : Plan) : Prop where
  onNode : p.onNode <+: p'.onNode
  errors : p.summary.errors <+: p'.summary.errors
  levels : List.Forall₂ SameLevel p.levels p'.levels

section Did

variable {p p₁ p₂ : Plan} {N N₁ N₂ : RelPath × PlannedNode → Prop} {o o₁ o₂ : Prop}

theorem SameLevel.refl (m : PlanLevel) : SameLevel m m := ⟨rfl, rfl, id⟩

theorem sameLevels_refl (ms : List PlanLevel) : List.Forall₂ SameLevel ms ms :=
  List.forall₂_same.2 fun m _ => .refl m

theorem SameLevel.trans {m m₁ m₂ : PlanLevel} (h₁ : SameLevel m m₁) (h₂ : SameLevel m₁ m₂) :
    SameLevel m m₂ :=
  ⟨h₂.path.trans h₁.path, h₂.snapshotDir.trans h₁.snapshotDir, fun h => h₂.created (h₁.created h)⟩

theorem sameLevels_trans {ms ms₁ ms₂ : List PlanLevel} (h₁ : List.Forall₂ SameLevel ms ms₁)
    (h₂ : List.Forall₂ SameLevel ms₁ ms₂) : List.Forall₂ SameLevel ms ms₂ := by
  induction h₁ generalizing ms₂ with
  | nil => exact h₂
  | cons h _ ih =>
    cases h₂ with
    | cons h' hs => exact .cons (h.trans h') (ih hs)

theorem exists_sameLevel {ms ms' : List PlanLevel} (h : List.Forall₂ SameLevel ms ms')
    {m : PlanLevel} (hm : m ∈ ms) : ∃ m' ∈ ms', SameLevel m m' := by
  induction h with
  | nil => cases hm
  | cons h _ ih =>
    rcases List.mem_cons.1 hm with rfl | hm
    · exact ⟨_, List.mem_cons_self, h⟩
    · obtain ⟨m', hm', hs⟩ := ih hm
      exact ⟨m', List.mem_cons_of_mem _ hm', hs⟩

theorem sameLevels_allCreated (ms : List PlanLevel) : List.Forall₂ SameLevel ms (allCreated ms) :=
  List.forall₂_map_right_iff.2 (List.forall₂_same.2 fun _ _ => ⟨rfl, rfl, fun _ => rfl⟩)

theorem Grows.refl (p : Plan) : p.Grows p := ⟨List.prefix_rfl, List.prefix_rfl, sameLevels_refl _⟩

theorem Grows.trans (h₁ : p.Grows p₁) (h₂ : p₁.Grows p₂) : p.Grows p₂ :=
  ⟨h₁.onNode.trans h₂.onNode, h₁.errors.trans h₂.errors, sameLevels_trans h₁.levels h₂.levels⟩

theorem Grows.no_errors (h : p.Grows p₁) (hno : p₁.summary.errors = []) :
    p.summary.errors = [] := List.prefix_nil.1 (hno ▸ h.errors)

theorem grows_open (p : Plan) : p.Grows p.open_ := by
  unfold open_
  rw [openLevels_eq]
  exact ⟨List.prefix_append _ _, List.prefix_rfl, sameLevels_allCreated _⟩

theorem grows_openIf (p : Plan) (b : Bool) : p.Grows (p.openIf b) := by
  unfold openIf
  split_ifs
  · exact p.grows_open
  · exact .refl p

theorem grows_note (p : Plan) (path : RelPath) (e : CoreError) : p.Grows (p.note path e) :=
  ⟨List.prefix_rfl, List.prefix_append _ _, sameLevels_refl _⟩

theorem errors_note (p : Plan) (path : RelPath) (e : CoreError) :
    (p.note path e).summary.errors ≠ [] := by simp [note]

theorem grows_leaf (p : Plan) (path : RelPath) (kind : PlannedNode) :
    p.Grows (p.leaf path kind) := by
  refine p.grows_open.trans ?_
  cases kind <;> exact ⟨List.prefix_append _ _, List.prefix_rfl, sameLevels_refl _⟩

/-- The deepest level is the one that was pushed. -/
theorem Grows.head {l : PlanLevel} (h : (p.push l).Grows p₁) :
    ∃ m ms, p₁.levels = m :: ms ∧ SameLevel l m := by
  have hlevels : List.Forall₂ SameLevel (l :: p.levels) p₁.levels := h.levels
  obtain ⟨m, ms, hm, -, heq⟩ := List.forall₂_cons_left_iff.1 hlevels
  exact ⟨m, ms, heq, hm⟩

/-- What a part of a dry run did below a further level, seen from the level above. -/
theorem Grows.pop {l : PlanLevel} (h : (p.push l).Grows p₁) : p.Grows p₁.pop :=
  ⟨h.onNode, h.errors, by
    have hlevels : List.Forall₂ SameLevel (l :: p.levels) p₁.levels := h.levels
    obtain ⟨m', ms', -, h, heq⟩ := List.forall₂_cons_left_iff.1 hlevels
    rw [Plan.pop, heq]
    exact h⟩

theorem Did.of_eq (hl : p₁.levels = p.levels) (hn : p₁.onNode = p.onNode) (hN : ∀ x, ¬N x)
    (ho : ¬o) : p.Did p₁ N o :=
  ⟨fun h => absurd h ho, fun _ => hl, fun x => by simp [hn, hN, ho]⟩

theorem Did.congr (h : p.Did p₁ N₁ o₁) (hN : ∀ x, N₁ x ↔ N₂ x) (ho : o₁ ↔ o₂) :
    p.Did p₁ N₂ o₂ :=
  ⟨fun h' => h.created (ho.2 h'), fun h' => h.same (ho.not.2 h'), fun x => by
    rw [h.mem, hN, ho]⟩

theorem Did.trans (h₁ : p.Did p₁ N₁ o₁) (h₂ : p₁.Did p₂ N₂ o₂) :
    p.Did p₂ (fun x => N₁ x ∨ N₂ x) (o₁ ∨ o₂) := by
  by_cases ho : o₁
  · have hl := h₁.created ho
    have hl₂ : p₂.levels = allCreated p.levels := by
      by_cases h : o₂
      · rw [h₂.created h, hl, allCreated_idem]
      · rw [h₂.same h, hl]
    refine ⟨fun _ => hl₂, fun h => absurd (.inl ho) h, fun x => ?_⟩
    rw [h₂.mem, h₁.mem, hl, pendingDirs_allCreated]
    simp only [ho, true_and, List.not_mem_nil, and_false, or_false, true_or]
    tauto
  · have hl := h₁.same ho
    refine ⟨fun h => ?_, fun h => ?_, fun x => ?_⟩
    · rw [h₂.created (h.resolve_left ho), hl]
    · rw [h₂.same fun h' => h (.inr h'), hl]
    · rw [h₂.mem, h₁.mem, hl]
      simp only [ho, false_and, or_false, false_or]
      tauto

theorem did_open (p : Plan) : p.Did p.open_ (fun _ => False) True := by
  unfold open_
  rw [openLevels_eq]
  exact ⟨fun _ => rfl, fun h => absurd trivial h, fun x => by simp⟩

theorem did_openIf (p : Plan) (b : Bool) : p.Did (p.openIf b) (fun _ => False) (b = true) := by
  cases b
  · exact .of_eq rfl rfl (fun _ => id) (by simp)
  · exact p.did_open.congr (fun _ => Iff.rfl) (by simp)

theorem did_leaf (p : Plan) (path : RelPath) (kind : PlannedNode) :
    p.Did (p.leaf path kind) (fun x => x = (path, kind)) True := by
  have hleaf : p.open_.Did (p.leaf path kind) (fun x => x = (path, kind)) False := by
    cases kind <;> exact ⟨fun h => h.elim, fun _ => rfl, fun x => by simp [leaf]⟩
  exact (p.did_open.trans hleaf).congr (by simp) (by simp)

/-- What was done with a directory as the deepest level, seen from the level above. -/
theorem Did.pop {path : RelPath} (h : (p.push ⟨path, true, false⟩).Did p₁ N o) :
    p.Did p₁.pop (fun x => x = (path, .dir) ∧ o ∨ N x) o := by
  have hpending : pendingDirs (p.push ⟨path, true, false⟩).levels =
      (path, .dir) :: pendingDirs p.levels := rfl
  refine ⟨fun ho => ?_, fun ho => ?_, fun x => ?_⟩
  · rw [Plan.pop, h.created ho]
    rfl
  · rw [Plan.pop, h.same ho]
    rfl
  · have hmem := h.mem x
    rw [hpending, List.mem_cons] at hmem
    refine hmem.trans ?_
    have : (p.push ⟨path, true, false⟩).onNode = p.onNode := rfl
    rw [this]
    tauto

end Did

/-! ### The traversal -/

section Traversal

variable {repo : Repository} {opts : RestoreOptions} {dir : Option PlanDir} {p p' : Plan}

theorem grows_planKind (hdir : ∀ f ∈ dir, ∀ p e path pos, Grows p (f p e path pos).2) (p : Plan)
    (e : Entry) (path : RelPath) (pos : Pos) : p.Grows (p.planKind dir e path pos).2 := by
  unfold planKind
  split
  · split_ifs
    · exact .refl p
    · split
      · exact .refl p
      · next f => exact hdir f rfl p e path pos
  · exact p.grows_leaf path .file
  · exact p.grows_leaf path .symlink

theorem grows_planNode (hdir : ∀ f ∈ dir, ∀ p e path pos, Grows p (f p e path pos).2) (p : Plan)
    (e : Entry) (path : RelPath) (pos : Pos) : p.Grows (p.planNode dir e path pos) := by
  have h := grows_planKind hdir p e path pos
  unfold planNode
  rcases hk : p.planKind dir e path pos with ⟨err | _, p'⟩
  · rw [hk] at h
    exact h.trans (p'.grows_note _ _)
  · rw [hk] at h
    exact h

theorem grows_planEntries (hdir : ∀ f ∈ dir, ∀ p e path pos, Grows p (f p e path pos).2)
    (d : RelPath) (pos : Pos) (es : List Entry) :
    ∀ p : Plan, p.Grows (planEntries dir d pos es p) := by
  induction es with
  | nil => exact .refl
  | cons e es ih =>
    intro p
    unfold planEntries
    split
    · exact (p.grows_note _ _).trans (ih _)
    · split
      · next select _ =>
        have h : p.Grows { p with select } := ⟨List.prefix_rfl, List.prefix_rfl, sameLevels_refl _⟩
        exact h.trans (ih _)
      · next child select _ =>
        have h : p.Grows { p with select } := ⟨List.prefix_rfl, List.prefix_rfl, sameLevels_refl _⟩
        exact ((h.trans (grows_openIf _ _)).trans (grows_planNode hdir _ _ _ _)).trans (ih _)

theorem grows_planDirs : ∀ n, ∀ f ∈ planDirs repo n, ∀ p e path pos, Grows p (f p e path pos).2
  | 0, f, hf => nomatch hf
  | n + 1, f, hf => by
    cases hf
    intro p e path pos
    have hpush := grows_openIf (p.push ⟨path, true, false⟩) pos.selected
    unfold planDirWith
    dsimp only
    split
    · exact hpush.pop
    · next children _ =>
      have h := (hpush.trans (grows_planEntries (grows_planDirs n) path pos children _)).pop
      dsimp only
      split_ifs <;> exact ⟨h.onNode, h.errors, h.levels⟩

theorem grows_planPlacement (p : Plan) (placement : Placement) :
    p.Grows (p.planPlacement repo placement).2 := by
  unfold planPlacement
  split
  · exact .refl p
  · next rel pos entries select _ =>
    have hsel : p.Grows { p with select } := ⟨List.prefix_rfl, List.prefix_rfl, sameLevels_refl _⟩
    have hopen := grows_openIf (({ p with select } : Plan).push ⟨rel, false, false⟩) pos.selected
    exact hsel.trans (hopen.trans (grows_planEntries (grows_planDirs _) rel pos entries _)).pop

theorem grows_planPlacements (placements : List Placement) :
    ∀ p : Plan, p.Grows (planPlacements repo placements p).2 := by
  induction placements with
  | nil => exact .refl
  | cons placement placements ih =>
    intro p
    have h := @grows_planPlacement repo p placement
    unfold planPlacements
    rcases hp : p.planPlacement repo placement with ⟨_ | _, p'⟩ <;> rw [hp] at h
    · exact h
    · exact h.trans (ih p')

/-- What `plan_dir` has to report of a directory. -/
def DirSpec (repo : Repository) (opts : RestoreOptions) (f : PlanDir) : Prop :=
  ∀ p e path pos s p', e.kind = .dir → pos.At opts s → p.select.For opts →
    f p e path pos = (.ok (), p') → p'.summary.errors = [] →
      p'.select.For opts ∧ ∃ sub, repo.readTreeChain e.subtree = .ok sub ∧
        p.Did p' (fun x => x = (path, .dir) ∧ (opts.Chosen s ∨ Opens repo opts s sub) ∨
          Reported repo opts s path sub x) (opts.Chosen s ∨ Opens repo opts s sub)

/-- What `plan_node` reports of an entry that is visited. -/
theorem planNode_spec (hdir : ∀ f ∈ dir, DirSpec repo opts f) {e : Entry} {s d : RelPath}
    {pos : Pos} (hpos : pos.At opts (s ++ [e.name]))
    (hchosen : e.kind ≠ .dir → opts.Chosen (s ++ [e.name])) (hs : p.select.For opts)
    (hno : (p.planNode dir e (d ++ [e.name]) pos).summary.errors = []) :
    (p.planNode dir e (d ++ [e.name]) pos).select.For opts ∧
      p.Did (p.planNode dir e (d ++ [e.name]) pos) (Reported repo opts s d [e])
        (Opens repo opts s [e]) := by
  unfold planNode at hno ⊢
  rcases hk : p.planKind dir e (d ++ [e.name]) pos with ⟨err | _, p'⟩
  · rw [hk] at hno
    exact absurd hno (p'.errors_note _ _)
  · rw [hk] at hno
    dsimp only at hno ⊢
    unfold planKind at hk
    split at hk
    · next hkind =>
      split_ifs at hk
      · cases hk
      split at hk
      · cases hk
      · next f =>
        obtain ⟨hfor, sub, hsub, hdid⟩ := hdir f rfl p e _ pos _ p' hkind hpos hs hk hno
        exact ⟨hfor, hdid.congr (fun x => (reported_dir hkind hsub).symm)
          (opens_dir hkind hsub).symm⟩
    all_goals
      next hkind =>
      cases hk
      have hne : e.kind ≠ .dir := by rw [hkind]; decide
      refine ⟨hs, (p.did_leaf _ _).congr (fun x => ?_)
        (iff_of_true trivial ((opens_leaf hne).2 (hchosen hne)))⟩
      rw [reported_leaf hne, hkind, and_iff_left (hchosen hne)]
      rfl

/-- **What the dry run reports.** Of the entries of one directory: the items that are chosen, and
the directories above one. -/
theorem planEntries_spec (hdir : ∀ f ∈ dir, DirSpec repo opts f)
    (hgrows : ∀ f ∈ dir, ∀ p e path pos, Grows p (f p e path pos).2) {s d : RelPath} {pos : Pos}
    (hpos : pos.At opts s) (es : List Entry) :
    ∀ p : Plan, p.select.For opts → (planEntries dir d pos es p).summary.errors = [] →
      (planEntries dir d pos es p).select.For opts ∧
        p.Did (planEntries dir d pos es p) (Reported repo opts s d es) (Opens repo opts s es) := by
  induction es with
  | nil => exact fun p hs _ => ⟨hs, .of_eq rfl rfl (fun _ => reported_nil) opens_nil⟩
  | cons e es ih =>
    intro p hs hno
    have hcongr : ∀ p',
      p.Did p' (fun x => Reported repo opts s d [e] x ∨ Reported repo opts s d es x)
        (Opens repo opts s [e] ∨ Opens repo opts s es) →
        p.Did p' (Reported repo opts s d (e :: es)) (Opens repo opts s (e :: es)) :=
      fun p' h => h.congr (fun x => reported_cons.symm) opens_cons.symm
    unfold planEntries at hno ⊢
    split at hno
    · exact absurd ((grows_planEntries hgrows _ _ _ _).no_errors hno) (p.errors_note _ _)
    · have hfor := hs.visit pos e
      have hvisit := (hpos.visit hs e).1
      rcases hv : p.select.visit pos e with ⟨_ | child, select⟩
      · -- the filter turned the entry away: it reports nothing and opens nothing
        rw [hv] at hno hfor
        have hnone : ¬Opens repo opts s [e] ∧ ∀ x, ¬Reported repo opts s d [e] x :=
          not_opens_of_none hpos hs (by rw [hv])
        obtain ⟨hfor', hdid⟩ := ih { p with select } hfor hno
        refine ⟨hfor', hcongr _ ?_⟩
        have h : p.Did { p with select } (Reported repo opts s d [e]) (Opens repo opts s [e]) :=
          .of_eq rfl rfl hnone.2 hnone.1
        exact h.trans hdid
      · rw [hv] at hno hfor hvisit
        obtain ⟨hat, hchosen⟩ := hvisit child rfl
        dsimp only at hno ⊢
        have hno' := (grows_planEntries hgrows _ _ _ _).no_errors hno
        have hfor₁ : (({ p with select } : Plan).openIf child.selected).select.For opts := by
          cases child.selected <;> exact hfor
        obtain ⟨hfor₂, hdid₂⟩ := planNode_spec hdir hat hchosen hfor₁ hno'
        obtain ⟨hfor₃, hdid₃⟩ := ih _ hfor₂ hno
        refine ⟨hfor₃, hcongr _ (Did.trans ?_ hdid₃)⟩
        have h₀ : p.Did (({ p with select } : Plan).openIf child.selected) (fun _ => False)
            (child.selected = true) := by
          have h := ({ p with select } : Plan).did_openIf child.selected
          exact ⟨h.created, h.same, h.mem⟩
        refine (h₀.trans hdid₂).congr (by simp) ?_
        -- an entry that is chosen itself is among those its directory is opened for
        refine or_iff_right_of_imp fun hsel => ⟨[e.name], e, .here List.mem_cons_self, hat.isOpen,
          hat.selected.1 hsel⟩

theorem dirSpec_planDirs : ∀ n, ∀ f ∈ planDirs repo n, DirSpec repo opts f
  | 0, f, hf => nomatch hf
  | n + 1, f, hf => by
    cases hf
    intro p e path pos s p' _ hpos hs h hno
    unfold planDirWith at h
    split at h
    · cases h
    · next sub hsub =>
      dsimp only at h
      generalize hp₁ : (p.push ⟨path, true, false⟩).openIf pos.selected = p₁ at h
      have hs₁ : p₁.select.For opts := by
        rw [← hp₁]
        cases pos.selected <;> exact hs
      have hselected : pos.selected = true ↔ opts.Chosen s := by
        rw [hpos.selected]
        exact (and_iff_right hpos.isOpen).symm
      have hd₁ : (p.push ⟨path, true, false⟩).Did p₁ (fun _ => False) (opts.Chosen s) := by
        rw [← hp₁]
        exact (did_openIf _ _).congr (fun _ => Iff.rfl) hselected
      have hno₂ : (planEntries (planDirs repo n) path pos sub p₁).summary.errors = [] := by
        split_ifs at h <;> cases h <;> exact hno
      obtain ⟨hs₂, hd₂⟩ := planEntries_spec (dirSpec_planDirs n) (grows_planDirs n)
        hpos sub p₁ hs₁ hno₂
      have hd := ((hd₁.trans hd₂).congr (fun x => by rw [false_or]) Iff.rfl).pop
      refine ⟨?_, sub, hsub, ?_⟩
      · split_ifs at h <;> cases h <;> exact hs₂
      · split_ifs at h <;> cases h <;> exact ⟨hd.created, hd.same, hd.mem⟩

end Traversal
end Plan
end Kist
