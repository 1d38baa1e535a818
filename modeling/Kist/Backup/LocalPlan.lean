import Kist.Backup.Selection

/-!
# The planning of local sources, in bytes

The planning of `backup_prepare` with the bytes of the paths that it sorts and records, and the sets
of `Named` as byte strings. The other modules plan and walk by components.

* `localPlan_eq`: the plan by bytes is the plan by components.
* `local_plan_spec`: the roots increase strictly and lie in no one another, and each given path is a
  root or named below exactly one.
-/

namespace Kist

open SortedTable

/-! ### Relative paths -/

/-- `join_rel`. -/
def joinRel (dir name : Bytes) : Bytes := (if dir = [] then dir else dir ++ [47]) ++ name

/-- `rel_bytes`. -/
def relBytes (rel : RelPath) : Bytes := rel.foldl joinRel []

/-- What stands before the last slash. -/
def beforeLastSlash (path : Bytes) : Option Bytes :=
  if 47 ∈ path then some (path.reverse.dropWhile fun b => b ≠ 47).tail.reverse else none

/-- Cutting at the last slash shortens. -/
theorem length_beforeLastSlash {path front : Bytes} (h : beforeLastSlash path = some front) :
    front.length < path.length := by
  unfold beforeLastSlash at h
  split_ifs at h with hmem
  cases h
  have hne : (path.reverse.dropWhile fun b => b ≠ 47) ≠ [] := fun hnil => by
    have := List.dropWhile_eq_nil_iff.1 hnil 47 (List.mem_reverse.2 hmem)
    simp at this
  have hle := (List.dropWhile_sublist (l := path.reverse) fun b => b ≠ 47).length_le
  have hpos := List.length_pos_iff.2 hne
  rw [List.length_reverse] at hle
  rw [List.length_reverse, List.length_tail]
  omega

/-- The paths on the way to a path, the loop of `Named::new`. -/
def wayTo (path : Bytes) : List Bytes :=
  match _ : beforeLastSlash path with
  | some front => front :: wayTo front
  | none => []
termination_by path.length
decreasing_by exact length_beforeLastSlash ‹_›

/-- `Named`, with paths as byte strings. -/
structure NamedBytes where
  paths : List Bytes
  toward : List Bytes

/-- `Named::new`. -/
def NamedBytes.new (paths : List Bytes) : NamedBytes := ⟨paths, paths.flatMap wayTo⟩

/-! ### Planning -/

/-- A source that is kept: its path, as bytes and by components, and the paths named below it. -/
structure KeptSource where
  bytes : Bytes
  path : RelPath
  named : List Bytes
  deriving DecidableEq

/-- `with_bytes.sort(); with_bytes.dedup()`. -/
def sortSources (paths : List RelPath) : List (Bytes × RelPath) :=
  sortDedup toLex (paths.map fun p => (pathBytes p, p))

/-- The loop over the sorted sources. -/
def keepStep (kept : List KeptSource) (source : Bytes × RelPath) : List KeptSource :=
  match source.2.inits.dropLast.reverse.find? fun a => a ∈ kept.map KeptSource.path with
  | some outer =>
    kept.map fun k =>
      if k.path = outer then
        { k with named := k.named ++ [relBytes (source.2.drop outer.length)] }
      else k
  | none => kept ++ [⟨source.1, source.2, []⟩]

/-- The sources that are kept of the given local paths. -/
def localPlan (paths : List RelPath) : List KeptSource := (sortSources paths).foldl keepStep []

/-! ### Relative paths as bytes -/

section Relative

variable {rel a b : RelPath} {x : Bytes}

@[simp] theorem relBytes_nil : relBytes [] = [] := rfl

theorem relBytes_concat (rel : RelPath) (x : Bytes) :
    relBytes (rel ++ [x]) = joinRel (relBytes rel) x := by
  rw [relBytes, List.foldl_append]
  rfl

/-- A path is its relative path behind a slash. -/
theorem pathBytes_eq_cons (h : ∀ c ∈ rel, c ≠ []) : pathBytes rel = 47 :: relBytes rel := by
  induction rel using List.reverseRecOn with
  | nil => rfl
  | append_singleton rel x ih =>
    have hrel := ih fun c hc => h c (List.mem_append_left _ hc)
    rw [relBytes_concat, joinRel]
    rcases eq_or_ne rel [] with rfl | hne
    · simp [pathBytes, relBytes]
    · have hne' : relBytes rel ≠ [] := fun hnil => by
        rw [hnil, pathBytes, if_neg hne] at hrel
        obtain ⟨c, cs, rfl⟩ := List.exists_cons_of_ne_nil hne
        have hc := h c (by simp)
        rw [List.flatMap_cons, List.cons_append] at hrel
        exact hc (List.append_eq_nil_iff.1 (List.cons.inj hrel).2).1
      rw [if_neg hne', List.append_assoc, ← List.cons_append, ← hrel, pathBytes, pathBytes,
        if_neg hne, if_neg (by simp), List.flatMap_append]
      simp

theorem relBytes_inj (ha : ∀ c ∈ a, Entry.cleanName c) (hb : ∀ c ∈ b, Entry.cleanName c)
    (h : relBytes a = relBytes b) : a = b := by
  refine pathBytes_inj ha hb ?_
  rw [pathBytes_eq_cons fun c hc => (ha c hc).1, pathBytes_eq_cons fun c hc => (hb c hc).1, h]

theorem beforeLastSlash_of_not_mem (h : 47 ∉ x) : beforeLastSlash x = none := if_neg h

theorem beforeLastSlash_append (front : Bytes) (h : 47 ∉ x) :
    beforeLastSlash (front ++ 47 :: x) = some front := by
  have hdrop : ∀ c ∈ x.reverse, decide (c ≠ 47) = true := fun c hc =>
    decide_eq_true fun heq => h (heq ▸ List.mem_reverse.1 hc)
  rw [beforeLastSlash, if_pos (by simp), List.reverse_append, List.reverse_cons, List.append_assoc,
    List.dropWhile_append_of_pos hdrop, List.singleton_append,
    List.dropWhile_cons_of_neg (by simp), List.tail_cons, List.reverse_reverse]

theorem wayTo_of_none {path : Bytes} (h : beforeLastSlash path = none) : wayTo path = [] := by
  rw [wayTo]
  split
  · next front hfront =>
    rw [h] at hfront
    cases hfront
  · rfl

theorem wayTo_of_some {path front : Bytes} (h : beforeLastSlash path = some front) :
    wayTo path = front :: wayTo front := by
  rw [wayTo]
  split
  · next front' hfront =>
    rw [h] at hfront
    cases hfront
    rfl
  · next hnone =>
    rw [h] at hnone
    cases hnone

theorem relBytes_ne_nil (h : ∀ c ∈ rel, Entry.cleanName c) (hne : rel ≠ []) : relBytes rel ≠ [] :=
  fun hnil => hne (relBytes_inj h (List.forall_mem_nil _) hnil)

/-- The paths on the way to a path are those of its proper ancestors. -/
theorem mem_wayTo (h : ∀ c ∈ rel, Entry.cleanName c) :
    x ∈ wayTo (relBytes rel) ↔ ∃ q, q ≠ [] ∧ Below q rel ∧ x = relBytes q := by
  induction rel using List.reverseRecOn with
  | nil =>
    rw [relBytes_nil, wayTo_of_none (beforeLastSlash_of_not_mem List.not_mem_nil)]
    refine iff_of_false List.not_mem_nil ?_
    rintro ⟨q, hq, hbelow, -⟩
    exact hq (List.prefix_nil.1 hbelow.1)
  | append_singleton rel y ih =>
    have hrel : ∀ c ∈ rel, Entry.cleanName c := fun c hc => h c (List.mem_append_left _ hc)
    have hy : 47 ∉ y := (h y (by simp)).2.1
    rw [relBytes_concat, joinRel]
    rcases eq_or_ne rel [] with rfl | hne
    · have hnone : beforeLastSlash y = none := beforeLastSlash_of_not_mem hy
      rw [relBytes_nil, if_pos rfl, List.nil_append, wayTo_of_none hnone]
      refine iff_of_false List.not_mem_nil ?_
      rintro ⟨q, hq, hbelow, -⟩
      exact hq (List.prefix_nil.1 (below_concat_iff.1 hbelow))
    · rw [if_neg (relBytes_ne_nil hrel hne), List.append_assoc, List.singleton_append,
        wayTo_of_some (beforeLastSlash_append _ hy), List.mem_cons, ih hrel]
      constructor
      · rintro (rfl | ⟨q, hq, hbelow, rfl⟩)
        · exact ⟨rel, hne, below_concat_iff.2 List.prefix_rfl, rfl⟩
        · exact ⟨q, hq, below_concat_iff.2 hbelow.1, rfl⟩
      · rintro ⟨q, hq, hbelow, rfl⟩
        rcases eq_or_ne q rel with rfl | hqne
        · exact .inl rfl
        · exact .inr ⟨q, hq, ⟨below_concat_iff.1 hbelow, hqne⟩, rfl⟩

end Relative

/-! ### The plan -/

section Plan

variable {given : List RelPath}

/-- The kept source of a plan by components. -/
def KeptSource.ofPlan (k : RelPath × List RelPath) : KeptSource :=
  ⟨pathBytes k.1, k.1, k.2.map relBytes⟩

theorem keepStep_ofPlan (kept : List (RelPath × List RelPath)) (p : RelPath) :
    keepStep (kept.map KeptSource.ofPlan) (pathBytes p, p) =
      (planStep kept p).map KeptSource.ofPlan := by
  have hpaths : (kept.map KeptSource.ofPlan).map KeptSource.path = kept.map Prod.fst := by
    rw [List.map_map]
    rfl
  unfold keepStep planStep outerOf
  rw [hpaths]
  cases p.inits.dropLast.reverse.find? fun a => a ∈ kept.map Prod.fst with
  | none =>
    dsimp only
    rw [List.map_append]
    rfl
  | some outer =>
    dsimp only
    rw [List.map_map, List.map_map]
    refine List.map_congr_left fun k _ => ?_
    rw [Function.comp_apply, Function.comp_apply]
    show (if k.1 = outer then _ else _) = KeptSource.ofPlan (if k.1 = outer then _ else _)
    split_ifs
    · simp [KeptSource.ofPlan]
    · rfl

theorem mem_sortDedup_pathBytes (hclean : ∀ p ∈ given, ∀ c ∈ p, Entry.cleanName c) {p : RelPath} :
    p ∈ sortDedup pathBytes given ↔ p ∈ given := by
  refine ⟨mem_of_mem_sortDedup _, fun hp => ?_⟩
  obtain ⟨b, hb, hkey⟩ := exists_mem_sortDedup pathBytes hp
  rwa [← pathBytes_inj (hclean b (mem_of_mem_sortDedup _ hb)) (hclean p hp) hkey]

/-- The sort by bytes and paths is the sort by bytes. -/
theorem sortSources_eq (hclean : ∀ p ∈ given, ∀ c ∈ p, Entry.cleanName c) :
    sortSources given = (sortDedup pathBytes given).map fun p => (pathBytes p, p) := by
  let pairs := given.map fun p => (pathBytes p, p)
  have hsorted : Sorted toLex (sortDedup toLex pairs) := sorted_sortDedup _ _
  have hsorted' : Sorted toLex ((sortDedup pathBytes given).map fun p => (pathBytes p, p)) :=
    List.pairwise_map.2 (List.Pairwise.imp (fun {a b} (h : pathBytes a < pathBytes b) =>
      Prod.Lex.toLex_lt_toLex.2 (.inl h)) (sorted_sortDedup pathBytes given))
  have hmem : ∀ s, s ∈ sortDedup toLex pairs ↔
      s ∈ (sortDedup pathBytes given).map fun p => (pathBytes p, p) := by
    intro s
    have hpairs : s ∈ sortDedup toLex pairs ↔ s ∈ pairs := by
      refine ⟨mem_of_mem_sortDedup _, fun hs => ?_⟩
      obtain ⟨s', hs', hkey⟩ := exists_mem_sortDedup toLex hs
      rwa [← toLex.injective hkey]
    rw [hpairs, List.mem_map, List.mem_map]
    exact exists_congr fun p => and_congr_left' (mem_sortDedup_pathBytes hclean).symm
  have hnodup : ∀ {l : List (Bytes × RelPath)}, Sorted toLex l → l.Nodup := fun h =>
    List.Pairwise.imp (fun {a b} (hlt : toLex a < toLex b) heq => ne_of_lt hlt (congrArg _ heq)) h
  refine List.Perm.eq_of_pairwise (fun a b _ _ hab hba => ?_) hsorted hsorted'
    ((List.perm_ext_iff_of_nodup (hnodup hsorted) (hnodup hsorted')).2 hmem)
  exact absurd hab (lt_asymm hba)

/-- **Bytes and components.** -/
theorem localPlan_eq (hclean : ∀ p ∈ given, ∀ c ∈ p, Entry.cleanName c) :
    localPlan given = (planSources given).map KeptSource.ofPlan := by
  have hfold : ∀ (paths : List RelPath) (kept : List (RelPath × List RelPath)),
      (paths.map fun p => (pathBytes p, p)).foldl keepStep (kept.map KeptSource.ofPlan) =
        (paths.foldl planStep kept).map KeptSource.ofPlan := by
    intro paths
    induction paths with
    | nil => exact fun _ => rfl
    | cons p paths ih =>
      intro kept
      rw [List.map_cons, List.foldl_cons, keepStep_ofPlan, ih, List.foldl_cons]
  rw [localPlan, sortSources_eq hclean, planSources]
  exact hfold _ []

/-- The sources that are kept come in the order in which they are sorted. -/
theorem foldl_planStep_sublist (paths : List RelPath) : ∀ kept : List (RelPath × List RelPath),
    ∃ more, (paths.foldl planStep kept).map Prod.fst = kept.map Prod.fst ++ more ∧
      more.Sublist paths := by
  induction paths with
  | nil => exact fun kept => ⟨[], (List.append_nil _).symm, List.Sublist.slnil⟩
  | cons p paths ih =>
    intro kept
    obtain ⟨more, hmore, hsub⟩ := ih (planStep kept p)
    rw [List.foldl_cons, hmore]
    unfold planStep
    split
    · next outer _ =>
      refine ⟨more, ?_, hsub.cons p⟩
      rw [List.map_map]
      congr 1
      refine List.map_congr_left fun k _ => ?_
      rw [Function.comp_apply]
      split_ifs <;> rfl
    · refine ⟨p :: more, ?_, hsub.cons_cons p⟩
      rw [List.map_append, List.append_assoc]
      rfl

/-- The roots increase strictly by their bytes. -/
theorem sorted_planSources (given : List RelPath) :
    ((planSources given).map Prod.fst).Pairwise fun a b => pathBytes a < pathBytes b := by
  obtain ⟨more, hmore, hsub⟩ := foldl_planStep_sublist (sortDedup pathBytes given) []
  rw [planSources, hmore, List.map_nil, List.nil_append]
  exact List.Pairwise.sublist hsub (sorted_sortDedup pathBytes given)

/-- A path that was not given before is not named yet. -/
theorem nodup_planStep {done : List RelPath} {kept : List (RelPath × List RelPath)} {p : RelPath}
    (hplanned : Planned done kept) (hnew : p ∉ done) (h : ∀ k ∈ kept, k.2.Nodup) :
    ∀ k ∈ planStep kept p, k.2.Nodup := by
  unfold planStep
  cases houter : outerOf kept p with
  | none =>
    intro k hk
    rcases List.mem_append.1 hk with hk | hk
    · exact h k hk
    · rw [List.mem_singleton.1 hk]
      exact List.nodup_nil
  | some outer =>
    intro k hk
    obtain ⟨k', hk', rfl⟩ := List.mem_map.1 hk
    split_ifs with heq
    · obtain ⟨rest, rfl⟩ := (outerOf_eq_some houter).2.1
      rw [List.drop_left]
      refine List.nodup_append'.2 ⟨h k' hk', List.nodup_singleton _, ?_⟩
      rw [List.disjoint_singleton]
      intro hmem
      exact hnew (heq ▸ ((hplanned.named k' hk' rest).1 hmem).2)
    · exact h k' hk'

/-- No path is named twice. -/
theorem nodup_planSources (given : List RelPath) : ∀ k ∈ planSources given, k.2.Nodup := by
  have hrun : ∀ (rest done : List RelPath) (kept : List (RelPath × List RelPath)),
      Sorted pathBytes (done ++ rest) → Planned done kept → (∀ k ∈ kept, k.2.Nodup) →
        ∀ k ∈ rest.foldl planStep kept, k.2.Nodup := by
    intro rest
    induction rest with
    | nil => exact fun _ _ _ _ h => h
    | cons p rest ih =>
      intro done kept hsorted hplanned h
      have hnew : p ∉ done := fun hp =>
        lt_irrefl _ ((List.pairwise_append.1 hsorted).2.2 p hp p List.mem_cons_self)
      exact ih (done ++ [p]) (planStep kept p) (by simpa using hsorted)
        (planned_planStep hplanned (not_isPrefix_of_sorted hsorted))
        (nodup_planStep hplanned hnew h)
  have hempty : Planned [] [] :=
    ⟨List.forall_mem_nil _, fun a ha => absurd ha.mem List.not_mem_nil, List.forall_mem_nil _⟩
  exact hrun (sortDedup pathBytes given) [] [] (sorted_sortDedup _ _) hempty
    (List.forall_mem_nil _)

/-- What `Snapshot::validate` asks of the roots. -/
theorem validateRoots_ok : ∀ {prev : Option Bytes} {roots : List Root},
    (∀ r ∈ roots, r.path ≠ [] ∧ r.tree ≠ TreeId.zero) →
      (roots.Pairwise fun r r' => r.path < r'.path) → (∀ p ∈ prev, ∀ r ∈ roots, p < r.path) →
        Snapshot.validateRoots prev roots = .ok ()
  | _, [], _, _, _ => rfl
  | prev, r :: rs, hall, hsorted, hprev => by
    obtain ⟨hpath, htree⟩ := hall r List.mem_cons_self
    obtain ⟨hfirst, hrest⟩ := List.pairwise_cons.1 hsorted
    have hnot : ¬∃ p ∈ prev, r.path ≤ p := by
      rintro ⟨p, hp, hle⟩
      exact absurd (hprev p hp r List.mem_cons_self) (not_lt.2 hle)
    have htail := @validateRoots_ok (some r.path) rs
      (fun r' hr' => hall r' (List.mem_cons_of_mem _ hr')) hrest (fun p hp r' hr' => by
        cases hp
        exact hfirst r' hr')
    rw [Snapshot.validateRoots, if_neg hpath, if_neg htree, if_neg hnot]
    exact htail

/-- **Planning.** The roots increase strictly by their bytes, as a valid snapshot has them, and none
lies below another one. A given path is a root, or it is named below exactly one, and nothing else
is a root or is named. The paths on the way to what is named below a root are the proper ancestors
below the root. -/
structure LocalPlan (given : List RelPath) (kept : List KeptSource) : Prop where
  bytes : ∀ k ∈ kept, k.bytes = pathBytes k.path
  sorted : Sorted KeptSource.bytes kept
  valid : ∀ roots : List Root, roots.map Root.path = kept.map KeptSource.bytes →
    (∀ r ∈ roots, r.tree ≠ TreeId.zero) → Snapshot.validateRoots none roots = .ok ()
  antichain : ∀ k ∈ kept, ∀ k' ∈ kept, ¬Below k.path k'.path
  covered : ∀ p ∈ given, (∃ k ∈ kept, k.path = p) ∨
    ∃ k ∈ kept, ∃ rel, rel ≠ [] ∧ p = k.path ++ rel ∧ relBytes rel ∈ k.named
  once : ∀ p ∈ given, ∃! k, k ∈ kept ∧ k.path <+: p
  root : ∀ k ∈ kept, k.path ∈ given
  named : ∀ k ∈ kept, k.named.Nodup ∧
    ∀ b ∈ k.named, ∃ rel, rel ≠ [] ∧ k.path ++ rel ∈ given ∧ b = relBytes rel
  toward : ∀ k ∈ kept, ∀ b, b ∈ (NamedBytes.new k.named).toward ↔
    ∃ rel q, relBytes rel ∈ k.named ∧ k.path ++ rel ∈ given ∧ q ≠ [] ∧ Below q rel ∧ b = relBytes q

/-- **The plan of local sources**, for every list of canonical absolute paths. -/
theorem local_plan_spec (given : List RelPath) (hclean : ∀ p ∈ given, ∀ c ∈ p, Entry.cleanName c) :
    LocalPlan given (localPlan given) := by
  have hplanned := planned_planSources hclean
  have hsorted : Sorted KeptSource.bytes (localPlan given) := by
    have hpairs := List.pairwise_map.1 (sorted_planSources given)
    rw [localPlan_eq hclean]
    exact List.pairwise_map.2 hpairs
  -- a root of the plan is one of `planSources` with its paths spelled as bytes
  have hkept : ∀ k ∈ localPlan given, ∃ named, (k.path, named) ∈ planSources given ∧
      k.bytes = pathBytes k.path ∧ k.named = named.map relBytes := fun k hk => by
    rw [localPlan_eq hclean] at hk
    obtain ⟨⟨path, named⟩, hk', rfl⟩ := List.mem_map.1 hk
    exact ⟨named, hk', rfl, rfl⟩
  have hroot : ∀ k ∈ localPlan given, IsRoot given k.path := fun k hk => by
    obtain ⟨named, hk', -⟩ := hkept k hk
    exact hplanned.root _ hk'
  have hexists : ∀ a, IsRoot given a → ∃ k ∈ localPlan given, k.path = a := fun a ha => by
    obtain ⟨k, hk, rfl⟩ := hplanned.exists_of_root a ha
    rw [localPlan_eq hclean]
    exact ⟨_, List.mem_map_of_mem hk, rfl⟩
  have hnamed : ∀ k ∈ localPlan given, ∀ b, b ∈ k.named ↔
      ∃ rel, rel ≠ [] ∧ k.path ++ rel ∈ given ∧ b = relBytes rel := fun k hk b => by
    obtain ⟨named, hk', -, heq⟩ := hkept k hk
    rw [heq, List.mem_map]
    constructor
    · rintro ⟨rel, hrel, rfl⟩
      obtain ⟨hne, hmem⟩ := (hplanned.named _ hk' rel).1 hrel
      exact ⟨rel, hne, hmem, rfl⟩
    · rintro ⟨rel, hne, hmem, rfl⟩
      exact ⟨rel, (hplanned.named _ hk' rel).2 ⟨hne, hmem⟩, rfl⟩
  have hrelClean : ∀ {a rel : RelPath}, a ++ rel ∈ given → ∀ c ∈ rel, Entry.cleanName c :=
    fun hmem c hc => hclean _ hmem c (List.mem_append_right _ hc)
  exact
  { bytes := fun k hk => (hkept k hk).choose_spec.2.1
    sorted := hsorted
    valid := fun roots hroots htrees => by
      refine validateRoots_ok (fun r hr => ⟨?_, htrees r hr⟩) ?_ (fun p hp => by cases hp)
      · have hmem : r.path ∈ (localPlan given).map KeptSource.bytes :=
          hroots ▸ List.mem_map_of_mem hr
        obtain ⟨k, hk, heq⟩ := List.mem_map.1 hmem
        rw [← heq, (hkept k hk).choose_spec.2.1,
          pathBytes_eq_cons fun c hc => (hclean _ (hroot k hk).mem c hc).1]
        exact List.cons_ne_nil _ _
      · have hpaths : (roots.map Root.path).Pairwise (· < ·) := by
          rw [hroots]
          exact List.pairwise_map.2 hsorted
        exact List.pairwise_map.1 hpaths
    antichain := fun k hk k' hk' => (hroot k' hk').outermost k.path (hroot k hk).mem
    covered := fun p hp => by
      obtain ⟨a, ha, rel, rfl⟩ := exists_isRoot hp
      obtain ⟨k, hk, rfl⟩ := hexists a ha
      rcases eq_or_ne rel [] with rfl | hne
      · exact .inl ⟨k, hk, (List.append_nil _).symm⟩
      · exact .inr ⟨k, hk, rel, hne, rfl, (hnamed k hk _).2 ⟨rel, hne, hp, rfl⟩⟩
    once := fun p hp => by
      -- two roots above one source are the same path, and the plan has each path once
      obtain ⟨a, ha, hap⟩ := exists_isRoot hp
      obtain ⟨k, hk, rfl⟩ := hexists a ha
      refine ⟨k, ⟨hk, hap⟩, fun k' ⟨hk', hprefix⟩ => ?_⟩
      have hpath : k'.path = k.path := (hroot k' hk').unique (hroot k hk) hprefix hap
      refine hsorted.eq_of_key_eq KeptSource.bytes hk' hk ?_
      rw [(hkept k hk).choose_spec.2.1, (hkept k' hk').choose_spec.2.1, hpath]
    root := fun k hk => (hroot k hk).mem
    named := fun k hk => by
      obtain ⟨named, hk', -, heq⟩ := hkept k hk
      refine ⟨?_, fun b hb => (hnamed k hk b).1 hb⟩
      rw [heq]
      refine List.Nodup.map_on (fun rel hrel rel' hrel' h => ?_) (nodup_planSources given _ hk')
      exact relBytes_inj (hrelClean ((hplanned.named _ hk' rel).1 hrel).2)
        (hrelClean ((hplanned.named _ hk' rel').1 hrel').2) h
    toward := fun k hk b => by
      rw [NamedBytes.new, List.mem_flatMap]
      constructor
      · rintro ⟨path, hpath, hb⟩
        obtain ⟨rel, hne, hmem, rfl⟩ := (hnamed k hk path).1 hpath
        obtain ⟨q, hq, hbelow, rfl⟩ := (mem_wayTo (hrelClean hmem)).1 hb
        exact ⟨rel, q, hpath, hmem, hq, hbelow, rfl⟩
      · rintro ⟨rel, q, hrel, hmem, hq, hbelow, rfl⟩
        exact ⟨_, hrel, (mem_wayTo (hrelClean hmem)).2 ⟨q, hq, hbelow, rfl⟩⟩ }

/-- The path `/a-` comes between `/a` and `/a/x` by its bytes. -/
theorem local_plan_spec_siblings :
    LocalPlan [[[97], [120]], [[97, 45]], [[97]]] (localPlan [[[97], [120]], [[97, 45]], [[97]]]) :=
  local_plan_spec _ (by decide)

end Plan

end Kist
