import Kist.Format.Tree
import Kist.Lib.SortedTable
import Kist.Storage

/-!
# The sources of a backup

The planning of `backup_prepare`: local paths are sorted by their bytes, and a path below another
one becomes part of it, as a path that is named there. Also the components of a locator, along which
the patterns of exclusion and the restore go.

* `locatorComponents_pathBytes`: the locator of a local path has the components of the path.
* `planned_planSources`: the sources that are kept are those that lie below no other one, each with
  exactly the paths below it.
-/

namespace Kist

open SortedTable

/-! ### Locators -/

/-- `path_to_bytes` of an absolute path, by its components. -/
def pathBytes (path : List Bytes) : Bytes :=
  if path = [] then [47] else path.flatMap fun c => 47 :: c

/-- What is left of a locator without its `scheme://`. -/
def stripScheme (bytes : Bytes) : Bytes :=
  match bytes.idxOf? 58 with
  | some i => if (bytes.drop (i + 1)).take 2 = [47, 47] then bytes.drop (i + 3) else bytes
  | none => bytes

/-- One component of a locator. -/
def locatorComponent (c : Bytes) : Except CoreError Bytes :=
  if c = [46, 46] then .ok "__parent__".toUTF8.toList
  else if 0 ∈ c then
    .error (.corrupt (.other "<locator>") s!"locator component {c} is not a path component")
  else .ok c

/-- `locator_components`. -/
def locatorComponents (bytes : Bytes) : Except CoreError (List Bytes) :=
  (((stripScheme bytes).splitOn 47).filter fun c => c ≠ [] ∧ c ≠ [46]).mapM locatorComponent

section Locator

variable {path : List Bytes}

theorem intercalate_cons (c : Bytes) (path : List Bytes) :
    [47].intercalate (c :: path) = c ++ path.flatMap fun c => 47 :: c := by
  induction path generalizing c with
  | nil => simp [List.intercalate]
  | cons d path ih =>
    rw [List.flatMap_cons, List.cons_append, ← ih d]
    simp [List.intercalate]

theorem splitOn_pathBytes (h : ∀ c ∈ path, Entry.cleanName c) (hne : path ≠ []) :
    (pathBytes path).splitOn 47 = [] :: path := by
  rw [pathBytes, if_neg hne, ← List.nil_append (path.flatMap _), ← intercalate_cons]
  refine List.splitOn_intercalate 47 (fun c hc => ?_) (by simp)
  rcases List.mem_cons.1 hc with rfl | hc
  · simp
  · exact (h c hc).2.1

/-- A path of clean components has no two slashes in a row. -/
theorem pathBytes_ne (h : ∀ c ∈ path, Entry.cleanName c) (l r : Bytes) :
    pathBytes path ≠ l ++ 47 :: 47 :: r := by
  intro heq
  rcases eq_or_ne path [] with rfl | hne
  · have := congrArg List.length heq
    simp [pathBytes] at this
    omega
  · have hsplit := splitOn_pathBytes h hne
    rw [heq, List.splitOn, List.splitOnP_append_cons _ _ (by simp),
      ← List.nil_append (47 :: r), List.splitOnP_append_cons _ _ (by simp)] at hsplit
    obtain ⟨a, as, hl⟩ := List.exists_cons_of_ne_nil (List.splitOnP_ne_nil (· == (47 : UInt8)) l)
    rw [hl, List.cons_append, List.cons.injEq] at hsplit
    have hmem : [] ∈ path := by rw [← hsplit.2]; simp
    exact (h [] hmem).1 rfl

theorem stripScheme_pathBytes (h : ∀ c ∈ path, Entry.cleanName c) :
    stripScheme (pathBytes path) = pathBytes path := by
  unfold stripScheme
  split
  · next i _ =>
    split_ifs with hslash
    · refine absurd ?_ (pathBytes_ne h ((pathBytes path).take (i + 1))
        (((pathBytes path).drop (i + 1)).drop 2))
      have h2 := List.take_append_drop 2 ((pathBytes path).drop (i + 1))
      rw [hslash] at h2
      calc pathBytes path = (pathBytes path).take (i + 1) ++ (pathBytes path).drop (i + 1) :=
            (List.take_append_drop _ _).symm
        _ = _ := by rw [← h2]; simp
    · rfl
  · rfl

/-- **The locator of a local path.** Its components are those of the path. -/
theorem locatorComponents_pathBytes (h : ∀ c ∈ path, Entry.cleanName c) :
    locatorComponents (pathBytes path) = .ok path := by
  have hfilter : ((pathBytes path).splitOn 47).filter (fun c => c ≠ [] ∧ c ≠ [46]) = path := by
    rcases eq_or_ne path [] with rfl | hne
    · decide
    · rw [splitOn_pathBytes h hne]
      simpa [List.filter_eq_self] using fun c hc => ⟨(h c hc).1, (h c hc).2.2.2.1⟩
  rw [locatorComponents, stripScheme_pathBytes h, hfilter]
  clear hfilter
  induction path with
  | nil => rfl
  | cons c cs ih =>
    have hc := h c List.mem_cons_self
    have hcomp : locatorComponent c = .ok c := by
      rw [locatorComponent, if_neg hc.2.2.2.2, if_neg hc.2.2.1]
    rw [List.mapM_cons, hcomp, ih fun c hc => h c (List.mem_cons_of_mem _ hc)]
    rfl

/-- Paths of clean components are told apart by their bytes. -/
theorem pathBytes_inj {a b : List Bytes} (ha : ∀ c ∈ a, Entry.cleanName c)
    (hb : ∀ c ∈ b, Entry.cleanName c) (h : pathBytes a = pathBytes b) : a = b := by
  have hloc := locatorComponents_pathBytes ha
  rw [h, locatorComponents_pathBytes hb] at hloc
  exact (Except.ok.inj hloc).symm

/-- A path comes before those below it. -/
theorem pathBytes_le_of_isPrefix {a b : List Bytes} (h : a <+: b) : pathBytes a ≤ pathBytes b := by
  obtain ⟨r, rfl⟩ := h
  have hprefix : pathBytes a <+: pathBytes (a ++ r) := by
    unfold pathBytes
    rcases eq_or_ne a [] with rfl | ha
    · cases r with
      | nil => simp
      | cons c r => simp
    · rw [if_neg ha, if_neg (by simp [ha]), List.flatMap_append]
      exact List.prefix_append _ _
  exact Bytes.le_of_isPrefix hprefix

end Locator

/-! ### Planning -/

/-- A path strictly below another one. -/
def Below (a p : List Bytes) : Prop := a <+: p ∧ a ≠ p

instance (a p : List Bytes) : Decidable (Below a p) := by unfold Below; infer_instance

/-- The nearest source above a path among those that are kept. -/
def outerOf (kept : List (List Bytes × List (List Bytes))) (path : List Bytes) :
    Option (List Bytes) :=
  path.inits.dropLast.reverse.find? fun a => a ∈ kept.map Prod.fst

/-- A source that lies below one that is kept becomes a named path of it. -/
def planStep (kept : List (List Bytes × List (List Bytes))) (path : List Bytes) :
    List (List Bytes × List (List Bytes)) :=
  match outerOf kept path with
  | some outer =>
    kept.map fun k => if k.1 = outer then (k.1, k.2 ++ [path.drop outer.length]) else k
  | none => kept ++ [(path, [])]

/-- The sources that are kept, with the paths named below each. -/
def planSources (paths : List (List Bytes)) : List (List Bytes × List (List Bytes)) :=
  (sortDedup pathBytes paths).foldl planStep []

/-- A given path that lies below no other one. -/
structure IsRoot (given : List (List Bytes)) (a : List Bytes) : Prop where
  mem : a ∈ given
  outermost : ∀ m ∈ given, ¬Below m a

/-- The sources that are kept are the outermost ones, each with the paths below it. -/
structure Planned (given : List (List Bytes)) (kept : List (List Bytes × List (List Bytes))) :
    Prop where
  root : ∀ k ∈ kept, IsRoot given k.1
  exists_of_root : ∀ a, IsRoot given a → ∃ k ∈ kept, k.1 = a
  named : ∀ k ∈ kept, ∀ rel, rel ∈ k.2 ↔ rel ≠ [] ∧ k.1 ++ rel ∈ given

section Planning

variable {given : List (List Bytes)} {kept : List (List Bytes × List (List Bytes))}
  {a m p x : List Bytes}

theorem Below.trans (h : Below a m) (h' : m <+: p) : Below a p := by
  refine ⟨h.1.trans h', ?_⟩
  rintro rfl
  exact h.2 (h.1.eq_of_length_le h'.length_le)

theorem below_append {rel : List Bytes} (h : rel ≠ []) : Below a (a ++ rel) :=
  ⟨List.prefix_append a rel, by simpa using h⟩

/-- Every given path lies at or below an outermost one. -/
theorem exists_isRoot (hm : m ∈ given) : ∃ a, IsRoot given a ∧ a <+: m := by
  induction hn : m.length using Nat.strong_induction_on generalizing m with
  | _ n ih =>
    by_cases h : ∃ m' ∈ given, Below m' m
    · obtain ⟨m', hm', hb⟩ := h
      have hlt : m'.length < n := hn ▸ lt_of_le_of_ne hb.1.length_le fun he =>
        hb.2 (hb.1.eq_of_length he)
      obtain ⟨a, ha, hp⟩ := ih _ hlt hm' rfl
      exact ⟨a, ha, hp.trans hb.1⟩
    · push Not at h
      exact ⟨m, ⟨hm, h⟩, List.prefix_rfl⟩

/-- Two outermost paths above one path are the same. -/
theorem IsRoot.unique {b : List Bytes} (ha : IsRoot given a) (hb : IsRoot given b) (hap : a <+: p)
    (hbp : b <+: p) : a = b := by
  by_contra hne
  rcases List.prefix_or_prefix_of_prefix hap hbp with h | h
  · exact hb.outermost a ha.mem ⟨h, hne⟩
  · exact ha.outermost b hb.mem ⟨h, Ne.symm hne⟩

theorem mem_inits_dropLast : a ∈ p.inits.dropLast ↔ Below a p := by
  induction p using List.reverseRecOn with
  | nil => simp [Below]
  | append_singleton p x =>
    have hinits : (p ++ [x]).inits.dropLast = p.inits := by simp [List.inits_append]
    rw [hinits, List.mem_inits, Below, List.prefix_concat_iff]
    constructor
    · refine fun h => ⟨.inr h, ?_⟩
      rintro rfl
      simpa using h.length_le
    · exact fun h => h.1.resolve_left h.2

theorem outerOf_eq_some (h : outerOf kept p = some a) : a ∈ kept.map Prod.fst ∧ Below a p := by
  have h1 := List.find?_some h
  have h2 := List.mem_of_find?_eq_some h
  exact ⟨by simpa using h1, mem_inits_dropLast.1 (List.mem_reverse.1 h2)⟩

theorem outerOf_eq_none (h : outerOf kept p = none) : ∀ k ∈ kept, ¬Below k.1 p := by
  intro k hk hb
  have := List.find?_eq_none.1 h k.1 (List.mem_reverse.2 (mem_inits_dropLast.2 hb))
  exact this (by simpa using ⟨k.2, hk⟩)

/-- One more path, which lies above none of those before. -/
theorem planned_planStep (h : Planned given kept) (habove : ∀ m ∈ given, ¬x <+: m) :
    Planned (given ++ [x]) (planStep kept x) := by
  have hroot : ∀ {a}, a ∈ given → (IsRoot (given ++ [x]) a ↔ IsRoot given a) := by
    intro a ha
    constructor
    · exact fun hr => ⟨ha, fun m hm => hr.outermost m (by simp [hm])⟩
    · refine fun hr => ⟨by simp [ha], fun m hm hb => ?_⟩
      rcases List.mem_append.1 hm with hm | hm
      · exact hr.outermost m hm hb
      · rw [List.mem_singleton.1 hm] at hb
        exact habove a ha hb.1
  unfold planStep
  cases ho : outerOf kept x with
  | some outer =>
    -- `x` lies below a root that is kept, and is named there
    obtain ⟨hmem, hbelow⟩ := outerOf_eq_some ho
    obtain ⟨ko, hko, rfl⟩ := List.mem_map.1 hmem
    have hfst : ∀ k : List Bytes × List (List Bytes),
        (if k.1 = ko.1 then (k.1, k.2 ++ [x.drop ko.1.length]) else k).1 = k.1 := fun k => by
      split_ifs <;> rfl
    refine ⟨fun k hk => ?_, fun a ha => ?_, fun k hk rel => ?_⟩
    · obtain ⟨k, hk', rfl⟩ := List.mem_map.1 hk
      rw [hfst]
      exact (hroot (h.root k hk').mem).2 (h.root k hk')
    · have hag : a ∈ given := by
        refine (List.mem_append.1 ha.mem).resolve_right fun hx => ?_
        rw [List.mem_singleton.1 hx] at ha
        exact ha.outermost _ (by simp [(h.root ko hko).mem]) hbelow
      obtain ⟨k, hk, rfl⟩ := h.exists_of_root a ((hroot hag).1 ha)
      exact ⟨_, List.mem_map_of_mem hk, hfst k⟩
    · obtain ⟨k, hk', rfl⟩ := List.mem_map.1 hk
      rw [hfst]
      split_ifs with heq
      · obtain ⟨rest, hx⟩ := hbelow.1
        have hdrop : x.drop ko.1.length = rest := by rw [← hx]; simp
        rw [List.mem_append, h.named k hk', List.mem_append, List.mem_singleton, List.mem_singleton,
          hdrop, heq, ← hx, List.append_cancel_left_eq, and_or_left]
        refine or_congr_right ⟨fun hr => ⟨?_, hr⟩, And.right⟩
        rintro rfl
        exact hbelow.2 (by rw [← hx, ← hr, List.append_nil])
      · rw [h.named k hk', List.mem_append, List.mem_singleton]
        refine and_congr_right fun hrel => (or_iff_left fun hx => heq ?_).symm
        exact IsRoot.unique (h.root k hk') (h.root ko hko) (hx ▸ List.prefix_append _ _) hbelow.1
  | none =>
    -- `x` lies below no root, so it becomes one
    have hx : IsRoot (given ++ [x]) x := by
      refine ⟨by simp, fun m hm hb => ?_⟩
      rcases List.mem_append.1 hm with hm | hm
      · obtain ⟨a, ha, hp⟩ := exists_isRoot hm
        obtain ⟨k, hk, rfl⟩ := h.exists_of_root a ha
        refine outerOf_eq_none ho k hk ⟨hp.trans hb.1, fun he => habove m hm ?_⟩
        rwa [← he]
      · exact hb.2 (List.mem_singleton.1 hm)
    refine ⟨fun k hk => ?_, fun a ha => ?_, fun k hk rel => ?_⟩
    · rcases List.mem_append.1 hk with hk | hk
      · exact (hroot (h.root k hk).mem).2 (h.root k hk)
      · rw [List.mem_singleton.1 hk]; exact hx
    · rcases List.mem_append.1 ha.mem with hag | hax
      · obtain ⟨k, hk, rfl⟩ := h.exists_of_root a ((hroot hag).1 ha)
        exact ⟨k, by simp [hk], rfl⟩
      · exact ⟨(x, []), by simp, (List.mem_singleton.1 hax).symm⟩
    · rcases List.mem_append.1 hk with hk | hk
      · rw [h.named k hk, List.mem_append, List.mem_singleton]
        refine and_congr_right fun hrel => (or_iff_left fun he => ?_).symm
        exact outerOf_eq_none ho k hk (he ▸ below_append hrel)
      · rw [List.mem_singleton.1 hk]
        refine ⟨fun hr => absurd hr List.not_mem_nil, fun ⟨hrel, hmem⟩ => ?_⟩
        rcases List.mem_append.1 hmem with hmem | hmem
        · exact absurd (List.prefix_append x rel) (habove _ hmem)
        · exact absurd (List.mem_singleton.1 hmem) (by simpa using hrel)

/-- A path does not lie above those that were sorted before it. -/
theorem not_isPrefix_of_sorted {done rest : List (List Bytes)}
    (h : Sorted pathBytes (done ++ x :: rest)) : ∀ m ∈ done, ¬x <+: m := fun m hm hp =>
  absurd (pathBytes_le_of_isPrefix hp) (not_le.2
    ((List.pairwise_append.1 h).2.2 m hm x List.mem_cons_self))

/-- **Planning.** The sources that are kept are those that lie below no other one, each with exactly
the paths below it. -/
theorem planned_planSources (hclean : ∀ p ∈ given, ∀ c ∈ p, Entry.cleanName c) :
    Planned given (planSources given) := by
  have hrun : ∀ (rest done : List (List Bytes)) (kept : List (List Bytes × List (List Bytes))),
      Sorted pathBytes (done ++ rest) → Planned done kept →
        Planned (done ++ rest) (rest.foldl planStep kept) := by
    intro rest
    induction rest with
    | nil => intro done kept _ h; simpa using h
    | cons x rest ih =>
      intro done kept hs h
      have := ih (done ++ [x]) (planStep kept x) (by simpa using hs)
        (planned_planStep h (not_isPrefix_of_sorted hs))
      simpa using this
  have hempty : Planned [] [] :=
    ⟨List.forall_mem_nil _, fun a ha => absurd ha.mem List.not_mem_nil, List.forall_mem_nil _⟩
  have h := hrun (sortDedup pathBytes given) [] [] (sorted_sortDedup _ _) hempty
  have hmem : ∀ p, p ∈ sortDedup pathBytes given ↔ p ∈ given := by
    refine fun p => ⟨mem_of_mem_sortDedup _, fun hp => ?_⟩
    obtain ⟨b, hb, hkey⟩ := exists_mem_sortDedup pathBytes hp
    rwa [← pathBytes_inj (hclean b (mem_of_mem_sortDedup _ hb)) (hclean p hp) hkey]
  rw [List.nil_append] at h
  have hroot : ∀ a, IsRoot (sortDedup pathBytes given) a ↔ IsRoot given a := fun a =>
    ⟨fun h => ⟨(hmem a).1 h.mem, fun m hm => h.outermost m ((hmem m).2 hm)⟩,
      fun h => ⟨(hmem a).2 h.mem, fun m hm => h.outermost m ((hmem m).1 hm)⟩⟩
  exact ⟨fun k hk => (hroot _).1 (h.root k hk), fun a ha => h.exists_of_root a ((hroot a).2 ha),
    fun k hk rel => by rw [h.named k hk, hmem]⟩

end Planning
end Kist
