import Kist.Backup.Outcome
import Kist.Restore.Follow

/-!
# Patterns that match nothing

`RestoreSummary::unmatched_includes` of `kist-core::restore`. A pattern of inclusion is credited
once a node is restored that it matches, or that lies below one it matches. Until then it waits at
the positions below, and `Select` keeps which patterns were credited.

* `Select.Credited`: the credited patterns are those that cover a node that was restored.
* `unmatched_exact`: what is listed at the end of a restore covers none.
-/

namespace Kist

namespace RestoreOptions

variable (opts : RestoreOptions)

/-- The pattern of inclusion matches the node at a path, or one above it. -/
def Covers (p : ℕ) (path : List Bytes) : Prop :=
  ∃ q, q ≠ [] ∧ q <+: path ∧ opts.includes.MatchesAt p q

variable {opts} {p : ℕ} {path : List Bytes} {name : Bytes}

theorem not_covers_nil : ¬opts.Covers p [] := by
  rintro ⟨q, hne, hq, -⟩
  exact hne (List.prefix_nil.1 hq)

theorem covers_concat : opts.Covers p (path ++ [name]) ↔
    opts.Covers p path ∨ opts.includes.MatchesAt p (path ++ [name]) := by
  constructor
  · rintro ⟨q, hne, hq, hm⟩
    rcases List.prefix_concat_iff.1 hq with rfl | hq
    · exact .inr hm
    · exact .inl ⟨q, hne, hq, hm⟩
  · rintro (⟨q, hne, hq, hm⟩ | hm)
    · exact ⟨q, hne, hq.trans (List.prefix_append _ _), hm⟩
    · exact ⟨_, by simp, List.prefix_rfl, hm⟩

theorem Covers.lt_length (h : opts.Covers p path) : p < opts.includes.patterns.length := by
  obtain ⟨q, -, -, pattern, hp, -⟩ := h
  exact (List.getElem?_eq_some_iff.1 hp).1

end RestoreOptions

/-! ### Credit -/

namespace Select

variable {opts : RestoreOptions} {s : Select} {pos : Pos} {path : List Bytes} {p : ℕ}

theorem mem_pendingWith {carried matched : List ℕ} : p ∈ s.pendingWith carried matched ↔
    s.isHit p = false ∧ (p ∈ carried ∨ p ∈ matched ∧ s.includes.isNegated p = false) := by
  have hfold : ∀ pending : List ℕ, p ∈ matched.foldl (fun pending p =>
      if !s.includes.isNegated p && !s.isHit p && !pending.contains p then pending ++ [p]
      else pending) pending ↔
        p ∈ pending ∨ p ∈ matched ∧ s.includes.isNegated p = false ∧ s.isHit p = false := by
    induction matched with
    | nil => simp
    | cons q matched ih =>
      intro pending
      rw [List.foldl_cons, ih, List.mem_cons]
      by_cases hq : (!s.includes.isNegated q && !s.isHit q && !pending.contains q) = true
      · rw [if_pos hq]
        simp only [Bool.and_eq_true, Bool.not_eq_true'] at hq
        rw [List.mem_append, List.mem_singleton]
        constructor
        · rintro ((h | rfl) | h)
          · exact .inl h
          · exact .inr ⟨.inl rfl, hq.1⟩
          · exact .inr ⟨.inr h.1, h.2⟩
        · rintro (h | ⟨rfl | h, hp⟩)
          · exact .inl (.inl h)
          · exact .inl (.inr rfl)
          · exact .inr ⟨h, hp⟩
      · rw [if_neg hq]
        refine or_congr_right' fun hnot => ?_
        refine and_congr_left fun ⟨hneg, hhit⟩ => (or_iff_right_of_imp ?_).symm
        rintro rfl
        exact absurd (by simp [hneg, hhit, hnot]) hq
  rw [pendingWith, hfold, List.mem_filter]
  constructor
  · rintro (⟨h, hhit⟩ | ⟨h, hneg, hhit⟩)
    · exact ⟨by simpa using hhit, .inl h⟩
    · exact ⟨hhit, .inr ⟨h, hneg⟩⟩
  · rintro ⟨hhit, h | ⟨h, hneg⟩⟩
    · exact .inl ⟨h, by simpa using hhit⟩
    · exact .inr ⟨h, hneg, hhit⟩

theorem isHit_foldl {hits : List ℕ} : ∀ {hit : List Bool},
    (hits.foldl (fun hit p => hit.set p true) hit).getD p false = true ↔
      hit.getD p false = true ∨ p ∈ hits ∧ p < hit.length := by
  induction hits with
  | nil => simp
  | cons q hits ih =>
    intro hit
    rw [List.foldl_cons, ih, List.length_set, List.mem_cons]
    have hset : (hit.set q true).getD p false = true ↔
        hit.getD p false = true ∨ p = q ∧ p < hit.length := by
      rw [List.getD_eq_getElem?_getD, List.getD_eq_getElem?_getD, List.getElem?_set]
      by_cases hq : q = p
      · subst hq
        by_cases hlt : q < hit.length
        · simp [hlt]
        · simp [hlt]
      · simp [hq, Ne.symm hq]
    rw [hset, or_assoc, or_and_right]

/-- What a credit adds. -/
theorem isHit_credit : (s.credit pos).isHit p = true ↔
    s.isHit p = true ∨ pos.selected = true ∧ p ∈ pos.pending ∧ p < s.hit.length := by
  unfold credit
  by_cases hsel : pos.selected = true
  · rw [if_pos hsel, isHit, isHit_foldl]
    exact or_congr_right (and_iff_right hsel).symm
  · rw [if_neg hsel]
    exact (or_iff_left fun h => hsel h.1).symm

theorem length_credit (s : Select) (pos : Pos) : (s.credit pos).hit.length = s.hit.length := by
  have hfold : ∀ (hits : List ℕ) (hit : List Bool),
      (hits.foldl (fun hit p => hit.set p true) hit).length = hit.length := by
    intro hits
    induction hits with
    | nil => exact fun _ => rfl
    | cons q hits ih => exact fun hit => by rw [List.foldl_cons, ih, List.length_set]
  unfold credit
  split_ifs
  · exact hfold _ _
  · rfl

/-- The credited patterns are those that cover a node that was restored, and what was restored was
chosen. -/
structure Credited (opts : RestoreOptions) (s : Select) (restored : List (List Bytes)) : Prop
    extends s.For opts where
  length : s.hit.length = opts.includes.patterns.length
  chosen : ∀ path ∈ restored, opts.Chosen path
  isHit_iff : ∀ p, s.isHit p = true ↔
    opts.includes.isNegated p = false ∧ ∃ path ∈ restored, opts.Covers p path

/-- The position stands for a path, and what covers the path waits there or was credited. -/
structure Waits (opts : RestoreOptions) (s : Select) (path : List Bytes) (pos : Pos) : Prop
    extends pos.At opts path where
  sound : ∀ p ∈ pos.pending, opts.includes.isNegated p = false ∧ opts.Covers p path
  complete : ∀ p, opts.includes.isNegated p = false → opts.Covers p path →
    p ∈ pos.pending ∨ s.isHit p = true

/-- The nodes that a visit adds. -/
def restoredAt (pos : Pos) (path : List Bytes) : List (List Bytes) :=
  if pos.selected then [path] else []

variable {restored more : List (List Bytes)} {s' : Select} {name : Bytes}

theorem credited_new (h : Select.new opts = .ok s) : s.Credited opts [] := by
  refine ⟨for_new h, ?_, List.forall_mem_nil _, ?_⟩
  all_goals
    unfold Select.new at h
    split_ifs at h
    cases h
  · exact List.length_replicate
  · intro p
    have hfalse : (List.replicate opts.includes.patterns.length false).getD p false = false := by
      rw [List.getD_eq_getElem?_getD, List.getElem?_replicate]
      split_ifs <;> rfl
    rw [isHit, hfalse]
    simp

/-- What waits goes on waiting while others are credited. -/
theorem Waits.mono (h : Waits opts s path pos) (hs : ∀ p, s.isHit p = true → s'.isHit p = true) :
    Waits opts s' path pos :=
  ⟨h.toAt, h.sound, fun p hneg hp => (h.complete p hneg hp).imp_right (hs p)⟩

theorem Credited.mono (h : s.Credited opts restored) (h' : s'.Credited opts (restored ++ more))
    {p : ℕ} (hp : s.isHit p = true) : s'.isHit p = true := by
  obtain ⟨hneg, q, hq, hcovers⟩ := (h.isHit_iff p).1 hp
  exact (h'.isHit_iff p).2 ⟨hneg, q, List.mem_append_left _ hq, hcovers⟩

theorem waits_start (hs : s.For opts) : Waits opts s [] s.start :=
  ⟨Pos.at_start hs, List.forall_mem_nil _, fun _ _ h => absurd h RestoreOptions.not_covers_nil⟩

/-- A step down. -/
theorem Waits.child (h : Waits opts s path pos) (hs : s.For opts) {pos' : Pos}
    (hchild : s.child pos name = some pos') : Waits opts s (path ++ [name]) pos' := by
  have hat := (h.toAt.child hs name).1 pos' hchild
  have hpending : pos'.pending = s.pendingWith pos.pending pos'.includes.matched := by
    unfold Select.child at hchild
    dsimp only at hchild
    split_ifs at hchild
    cases hchild
    rfl
  have hmatched : ∀ p, p ∈ pos'.includes.matched ↔ opts.includes.MatchesAt p (path ++ [name]) :=
    fun p => by rw [hat.includes, PathFilter.mem_matched_walk]
  refine ⟨hat, fun p hp => ?_, fun p hneg hp => ?_⟩
  · rw [hpending, mem_pendingWith, hs.includes] at hp
    rcases hp with ⟨-, hp | ⟨hp, hneg⟩⟩
    · obtain ⟨hneg, hcovers⟩ := h.sound p hp
      exact ⟨hneg, RestoreOptions.covers_concat.2 (.inl hcovers)⟩
    · exact ⟨hneg, RestoreOptions.covers_concat.2 (.inr ((hmatched p).1 hp))⟩
  · rw [hpending, mem_pendingWith, hs.includes]
    cases hhit : s.isHit p with
    | true => exact .inr rfl
    | false =>
      left
      refine ⟨rfl, ?_⟩
      rcases RestoreOptions.covers_concat.1 hp with hp | hp
      · refine (h.complete p hneg hp).imp_right fun hp => ?_
        rw [hhit] at hp
        cases hp
      · exact .inr ⟨(hmatched p).2 hp, hneg⟩

/-- Going down a whole path. -/
theorem Waits.walk (hs : s.For opts) : ∀ {names path : List Bytes} {pos pos' : Pos},
    Waits opts s path pos → s.walk pos names = some pos' → Waits opts s (path ++ names) pos'
  | [], path, pos, pos', h, hwalk => by
    cases hwalk
    rwa [List.append_nil]
  | name :: names, path, pos, pos', h, hwalk => by
    obtain ⟨next, hnext, hwalk⟩ := Option.bind_eq_some_iff.1 hwalk
    have hrest := Waits.walk hs (h.child hs hnext) hwalk
    rwa [List.append_assoc] at hrest

/-- **A credit.** -/
theorem Credited.credit (h : s.Credited opts restored) (hpos : Waits opts s path pos) :
    (s.credit pos).Credited opts (restored ++ restoredAt pos path) := by
  have hchosen : ∀ q ∈ restored ++ restoredAt pos path, opts.Chosen q := by
    rw [List.forall_mem_append]
    refine ⟨h.chosen, fun q hq => ?_⟩
    by_cases hsel : pos.selected = true
    · rw [restoredAt, if_pos hsel, List.mem_singleton] at hq
      subst hq
      exact ⟨hpos.isOpen, hpos.selected.1 hsel⟩
    · rw [restoredAt, if_neg hsel] at hq
      cases hq
  refine ⟨h.toFor.credit pos, (length_credit s pos).trans h.length, hchosen, fun p => ?_⟩
  rw [isHit_credit, h.isHit_iff]
  constructor
  · rintro (⟨hneg, q, hq, hcovers⟩ | ⟨hsel, hp, -⟩)
    · exact ⟨hneg, q, List.mem_append_left _ hq, hcovers⟩
    · obtain ⟨hneg, hcovers⟩ := hpos.sound p hp
      refine ⟨hneg, path, List.mem_append_right _ ?_, hcovers⟩
      rw [restoredAt, if_pos hsel]
      exact List.mem_singleton_self path
  · rintro ⟨hneg, q, hq, hcovers⟩
    rcases List.mem_append.1 hq with hq | hq
    · exact .inl ⟨hneg, q, hq, hcovers⟩
    · by_cases hsel : pos.selected = true
      · rw [restoredAt, if_pos hsel, List.mem_singleton] at hq
        subst hq
        rcases hpos.complete p hneg hcovers with hp | hp
        · exact .inr ⟨hsel, hp, h.length ▸ hcovers.lt_length⟩
        · exact .inl ((h.isHit_iff p).1 hp)
      · rw [restoredAt, if_neg hsel] at hq
        cases hq

/-- **A visit.** -/
theorem Credited.visit (h : s.Credited opts restored) (hpos : Waits opts s path pos) (e : Entry) :
    ((s.visit pos e).1 = none → (s.visit pos e).2.Credited opts restored) ∧
      ∀ child, (s.visit pos e).1 = some child →
        (s.visit pos e).2.Credited opts (restored ++ restoredAt child (path ++ [e.name])) ∧
          Waits opts (s.visit pos e).2 (path ++ [e.name]) child := by
  unfold Select.visit
  cases hchild : s.child pos e.name with
  | none => exact ⟨fun _ => h, fun child hc => by cases hc⟩
  | some child =>
    have hwaits := hpos.child h.toFor hchild
    have hcredit := h.credit hwaits
    dsimp only
    split_ifs with hgo
    · refine ⟨(fun hc => by cases hc), fun child' hc => ?_⟩
      cases hc
      exact ⟨hcredit, hwaits.mono fun p => h.mono hcredit⟩
    · refine ⟨fun _ => ?_, fun child' hc => by cases hc⟩
      have hsel : ¬child.selected = true := fun hsel => hgo (by rw [hsel, Bool.true_or])
      rwa [restoredAt, if_neg hsel, List.append_nil] at hcredit

/-- What is listed at the end. -/
theorem Credited.mem_unhit (h : s.Credited opts restored) : p ∈ s.unhit ↔
    p < opts.includes.patterns.length ∧ opts.includes.isNegated p = false ∧
      ∀ path ∈ restored, ¬opts.Covers p path := by
  have hhit : s.isHit p = false ↔
      ¬(opts.includes.isNegated p = false ∧ ∃ path ∈ restored, opts.Covers p path) := by
    rw [← h.isHit_iff, Bool.not_eq_true]
  rw [unhit, List.mem_filter, List.mem_range, Bool.and_eq_true, Bool.not_eq_true',
    Bool.not_eq_true', hhit, h.includes]
  refine and_congr_right fun _ => ⟨fun ⟨hnot, hneg⟩ => ⟨hneg, fun path hpath hcovers =>
    hnot ⟨hneg, path, hpath, hcovers⟩⟩, fun ⟨hneg, hnone⟩ => ⟨?_, hneg⟩⟩
  rintro ⟨-, path, hpath, hcovers⟩
  exact hnone path hpath hcovers

end Select

/-! ### The nodes that a restore visits -/

namespace RestoreWalk

variable (env : IndexLoads) (repo : Repository)

/-- The selected nodes that are visited below a directory entry, by their paths in the snapshot. -/
abbrev VisitDir := RestoreWalk → Entry → Pos → List Bytes → List (List Bytes)

/-- The selected nodes visited below the entry of a node. -/
def visitedBelow (below : Option VisitDir) (w : RestoreWalk) (node : Entry) (pos : Pos)
    (path : List Bytes) : List (List Bytes) :=
  match node.kind with
  | .dir => if node.subtree = TreeId.zero then [] else below.elim [] fun f => f w node pos path
  | _ => []

/-- The selected nodes visited in the loop over the entries of the directory at a path. -/
def visitedEntries (dir : Option RestoreDir) (below : Option VisitDir)
    (after : RestoreWalk → Except CoreError Unit × RestoreWalk) (pos : Pos) (path : List Bytes) :
    List Entry → RestoreWalk → List (List Bytes)
  | [], _ => []
  | entry :: entries, w =>
    match validateChildName entry.name with
    | .error e => visitedEntries dir below after pos path entries (w.note (levelPath w.levels) e)
    | .ok () =>
      match w.select.visit pos entry with
      | (none, select) => visitedEntries dir below after pos path entries { w with select }
      | (some child, select) =>
        let at_ := path ++ [entry.name]
        Select.restoredAt child at_ ++
          match ({ w with select } : RestoreWalk).openIf child.selected with
          | (.error _, _) => []
          | (.ok (), w) =>
            visitedBelow below w entry child at_ ++
              match after (w.restoreNode env repo dir entry child) with
              | (.error _, _) => []
              | (.ok (), w) => visitedEntries dir below after pos path entries w

/-- The selected nodes visited in `restore_dir`. -/
def visitedDirWith (dir : Option RestoreDir) (below : Option VisitDir) : VisitDir :=
  fun w node pos path =>
    match (w.push (.child (levelPath w.levels) node)).createIf pos.selected with
    | (.error _, _) => []
    | (.ok (), w) =>
      match repo.readTreeChain node.subtree with
      | .error _ => []
      | .ok children =>
        visitedEntries env repo dir below (fun w => (.ok (), w)) pos path children w

/-- The selected nodes visited in `restore_dir`, with the levels that may lie below. -/
def visitedDirs : ℕ → Option VisitDir
  | 0 => none
  | levels + 1 => some (visitedDirWith env repo (restoreDirs env repo levels) (visitedDirs levels))

/-- The place of a root, if it is selected, and the selected nodes visited in it. -/
def visitedPlacement (subtree : List Bytes) (placement : Placement) (w : RestoreWalk) :
    List (List Bytes) :=
  match repo.openPlacement placement w.select with
  | .error _ => []
  | .ok (rel, pos, entries, select) =>
    Select.restoredAt pos (subtree ++ rel) ++
      match ({ w with select, levels := [.base rel] } : RestoreWalk).createIf pos.selected with
      | (.error _, _) => []
      | (.ok (), w) =>
        visitedEntries env repo (restoreDirs env repo (maxTreeDepth - 1))
          (visitedDirs env repo (maxTreeDepth - 1)) recheckBase pos (subtree ++ rel) entries w

/-- One root after the other. -/
def visitedPlacements (subtree : List Bytes) : List Placement → RestoreWalk → List (List Bytes)
  | [], _ => []
  | placement :: placements, w =>
    visitedPlacement env repo subtree placement w ++
      match w.restorePlacement env repo placement with
      | (.error _, _) => []
      | (.ok (), w) => visitedPlacements subtree placements w

end RestoreWalk

/-- The nodes that a restore restores: the selected entries it visits and the selected places of
roots, by their paths in the snapshot. -/
def Repository.restored (repo : Repository) (env : IndexLoads) (key : SnapshotKey) (target : Target)
    (opts : RestoreOptions) : List (List Bytes) :=
  match (do
    let select ← Select.new opts
    let snapshot ← repo.readSnapshot key
    let placements ← repo.placeRoots snapshot.roots opts.subtree select
    let index ← env.load 0
    return (select, placements, index)) with
  | .error _ => []
  | .ok (select, placements, index) =>
    RestoreWalk.visitedPlacements env repo opts.subtree placements
      ⟨target, [], ⟨index, 1, 0⟩, {}, ∅, select⟩

namespace RestoreWalk

open Select (Credited Waits restoredAt)

variable {env : IndexLoads} {repo : Repository} {opts : RestoreOptions} {dir : Option RestoreDir}
  {below : Option VisitDir} {restored : List (List Bytes)} {path : List Bytes} {pos : Pos}
  {w : RestoreWalk}

/-! ### What leaves the selection alone -/

theorem select_openIf (w : RestoreWalk) (b : Bool) : (w.openIf b).2.select = w.select := by
  unfold openIf
  split_ifs <;> rfl

theorem select_createIf (w : RestoreWalk) (b : Bool) : (w.createIf b).2.select = w.select := by
  unfold createIf
  split_ifs <;> rfl

theorem select_recheckBase (w : RestoreWalk) : w.recheckBase.2.select = w.select := by
  unfold recheckBase
  split_ifs <;> rfl

theorem select_finishDir (w : RestoreWalk) (e : Entry) : (w.finishDir e).2.select = w.select := by
  unfold finishDir
  split
  · rfl
  · dsimp only
    split_ifs
    · rfl
    · split <;> rfl

theorem select_restoreLeaf (w : RestoreWalk) (e : Entry) (hkind : e.kind ≠ .dir) :
    (w.restoreKind env repo dir e pos).2.select = w.select := by
  unfold restoreKind
  split
  · next h => exact absurd h hkind
  · split
    · next heq => exact congrArg (fun x => x.2.select) heq.symm
    · next w' heq =>
      have hopen : w'.select = w.select := congrArg (fun x => x.2.select) heq.symm
      exact (restoreFileEntry_spec w' _ e).1.select.trans hopen
  · split
    · next heq => exact congrArg (fun x => x.2.select) heq.symm
    · next w' heq =>
      have hopen : w'.select = w.select := congrArg (fun x => x.2.select) heq.symm
      exact (restoreSymlink_spec w' _ e).1.select.trans hopen

/-! ### The walk -/

/-- `restore_dir` credits what is visited in it. -/
def DirCredits (opts : RestoreOptions) (f : RestoreDir) (g : VisitDir) : Prop :=
  ∀ w node pos path restored, w.select.Credited opts restored → Waits opts w.select path pos →
    (f w node pos).2.select.Credited opts (restored ++ g w node pos path)

/-- The same where there is a level left for it. -/
def DirsCredit (opts : RestoreOptions) : Option RestoreDir → Option VisitDir → Prop
  | none, none => True
  | some f, some g => DirCredits opts f g
  | _, _ => False

/-- A node credits what is visited below it. -/
theorem credited_restoreNode (hdir : DirsCredit opts dir below) {e : Entry}
    (h : w.select.Credited opts restored) (hpos : Waits opts w.select path pos) :
    (w.restoreNode env repo dir e pos).select.Credited opts
      (restored ++ visitedBelow below w e pos path) := by
  have hnode : (w.restoreNode env repo dir e pos).select =
      (w.restoreKind env repo dir e pos).2.select := by
    unfold restoreNode
    rcases w.restoreKind env repo dir e pos with ⟨_ | _, w'⟩ <;> rfl
  rw [hnode]
  by_cases hkind : e.kind = .dir
  · unfold restoreKind visitedBelow
    rw [hkind]
    dsimp only
    split_ifs
    · rwa [List.append_nil]
    · cases dir with
      | none =>
        cases below with
        | none => rwa [Option.elim_none, List.append_nil]
        | some g => exact hdir.elim
      | some f =>
        cases below with
        | none => exact hdir.elim
        | some g => exact hdir w e pos path restored h hpos
  · have hnone : visitedBelow below w e pos path = [] := by
      unfold visitedBelow
      split
      · next hk => exact absurd hk hkind
      · rfl
    rw [hnone, List.append_nil, select_restoreLeaf w e hkind]
    exact h

/-- **The entries of a directory.** -/
theorem credited_restoreEntries (hdir : DirsCredit opts dir below)
    {after : RestoreWalk → Except CoreError Unit × RestoreWalk}
    (hafter : ∀ w, (after w).2.select = w.select) (es : List Entry) :
    ∀ {w : RestoreWalk} {restored : List (List Bytes)}, w.select.Credited opts restored →
      Waits opts w.select path pos →
        (restoreEntries env repo dir after pos es w).2.select.Credited opts
          (restored ++ visitedEntries env repo dir below after pos path es w) := by
  induction es with
  | nil =>
    intro w restored h _
    rwa [visitedEntries, List.append_nil]
  | cons e es ih =>
    intro w restored h hpos
    unfold restoreEntries visitedEntries
    cases validateChildName e.name with
    | error err => exact ih h hpos
    | ok u =>
      dsimp only
      obtain ⟨hnone, hsome⟩ := h.visit hpos e
      rcases hv : w.select.visit pos e with ⟨_ | child, select⟩
      · -- the filter turned the entry away, and nothing below it is visited
        rw [hv] at hnone
        have h' := hnone rfl
        have hmore : select.Credited opts (restored ++ []) := by rwa [List.append_nil]
        exact ih (w := { w with select }) h' (hpos.mono fun p => h.mono hmore)
      · rw [hv] at hsome
        obtain ⟨h₁, hchild⟩ := hsome child rfl
        dsimp only at h₁ hchild ⊢
        have hpos₁ := hpos.mono fun p => h.mono h₁
        rw [← List.append_assoc]
        have hopen := ({ w with select } : RestoreWalk).select_openIf child.selected
        rcases ho : ({ w with select } : RestoreWalk).openIf child.selected with ⟨err | u, w₁⟩
        · rw [ho] at hopen
          rw [List.append_nil, show w₁.select = select from hopen]
          exact h₁
        · rw [ho] at hopen
          have hw₁ : w₁.select = select := hopen
          dsimp only
          rw [← hw₁] at h₁ hchild hpos₁
          have h₂ := @credited_restoreNode env repo _ _ _ _ _ _ _ hdir e h₁ hchild
          -- what the filter still waits for only shrinks, so the next entry starts from the same
          -- promise
          have hpos₂ := hpos₁.mono fun p => h₁.mono h₂
          rw [← List.append_assoc]
          have hkeep := hafter (w₁.restoreNode env repo dir e child)
          rcases ha : after (w₁.restoreNode env repo dir e child) with ⟨err | u, w₂⟩
          · rw [ha] at hkeep
            rw [List.append_nil, show w₂.select = _ from hkeep]
            exact h₂
          · rw [ha] at hkeep
            have hw₂ : w₂.select = (w₁.restoreNode env repo dir e child).select := hkeep
            rw [← hw₂] at h₂ hpos₂
            exact ih h₂ hpos₂

theorem dirCredits_restoreDirWith (hdir : DirsCredit opts dir below) :
    DirCredits opts (restoreDirWith env repo dir) (visitedDirWith env repo dir below) := by
  intro w node pos path restored h hpos
  have hpop : (restoreDirWith env repo dir w node pos).2.select =
      ((w.push (.child (levelPath w.levels) node)).restoreContent env repo dir node pos).2.select :=
    rfl
  rw [hpop]
  unfold restoreContent visitedDirWith
  have hcreate := (w.push (.child (levelPath w.levels) node)).select_createIf pos.selected
  rcases hc : (w.push (.child (levelPath w.levels) node)).createIf pos.selected with ⟨err | u, w₁⟩
  · rw [hc] at hcreate
    rw [List.append_nil, show w₁.select = w.select from hcreate]
    exact h
  · rw [hc] at hcreate
    have hw₁ : w₁.select = w.select := hcreate
    rw [← hw₁] at h hpos
    dsimp only
    cases repo.readTreeChain node.subtree with
    | error err =>
      rw [List.append_nil]
      exact h
    | ok children =>
      have hentries := @credited_restoreEntries env repo _ _ _ _ _ hdir
        (fun w => (.ok (), w)) (fun _ => rfl) children _ _ h hpos
      dsimp only
      rcases hr : restoreEntries env repo dir (fun w => (.ok (), w)) pos children w₁ with
        ⟨err | u, w₂⟩
      · rw [hr] at hentries
        exact hentries
      · rw [hr] at hentries
        have hend : (RestoreSetting.dirEnd w₂ node).2.select = w₂.select := by
          unfold RestoreSetting.dirEnd
          split_ifs
          · rfl
          · rcases ho : w₂.open_ with ⟨err | u, w₃⟩
            · exact congrArg (fun x => x.2.select) ho.symm
            · have hopen : w₃.select = w₂.select := congrArg (fun x => x.2.select) ho.symm
              exact (select_finishDir w₃ node).trans hopen
        show (RestoreSetting.dirEnd w₂ node).2.select.Credited opts _
        rw [hend]
        exact hentries

theorem dirsCredit_restoreDirs : ∀ n, DirsCredit opts (restoreDirs env repo n)
    (visitedDirs env repo n)
  | 0 => trivial
  | n + 1 => dirCredits_restoreDirWith (dirsCredit_restoreDirs n)

/-! ### The roots -/

/-- The positions of a root, at its place and above it. -/
structure Placed (opts : RestoreOptions) (s : Select) (placement : Placement) : Prop where
  pos : Waits opts s (opts.subtree ++ placement.rel) placement.pos
  above : ∀ x ∈ placement.fileRoot,
    Waits opts s (opts.subtree ++ placement.rel.dropLast) x.2

/-- The place of a root lies where its position says. -/
theorem placed_placeRoot {s : Select} (hs : s.For opts) {root : Root} {placement : Placement}
    (h : repo.placeRoot root opts.subtree s = .ok (.here placement)) : Placed opts s placement := by
  unfold Repository.placeRoot at h
  obtain ⟨names, hnames, h⟩ := Checked.bind_eq_ok.1 h
  split_ifs at h with hshared hlt
  · cases h
  · -- the root lies below the subtree: the rest of its names is where it is put, and the include
    -- filter has walked them
    have htake : names.take opts.subtree.length = opts.subtree := by
      rw [not_not.1 hshared, List.take_of_length_le hlt.le]
    have hnames : names = opts.subtree ++ names.drop opts.subtree.length := by
      conv_lhs => rw [← List.take_append_drop opts.subtree.length names, htake]
    have hne : names.drop opts.subtree.length ≠ [] := by
      rw [ne_eq, List.drop_eq_nil_iff]
      omega
    have hnil : names ≠ [] := fun hnil => hne (by rw [hnil, List.drop_nil])
    have hdrop : opts.subtree ++ (names.drop opts.subtree.length).dropLast = names.dropLast := by
      conv_rhs => rw [hnames, List.dropLast_append_of_ne_nil hne]
    have hlast : names.dropLast ++ [names.getLastD []] = names := by
      rw [List.getLastD_eq_getLast?, List.getLast?_eq_some_getLast hnil, Option.getD_some]
      exact List.dropLast_append_getLast hnil
    cases hparent : s.walk s.start names.dropLast with
    | none => rw [hparent] at h; cases h
    | some parent =>
      rw [hparent] at h
      have hwaits : Waits opts s names.dropLast parent :=
        Select.Waits.walk hs (Select.waits_start hs)
        hparent
      dsimp only at h
      cases hchild : s.child parent (names.getLastD []) with
      | none => rw [hchild] at h; cases h
      | some pos =>
        rw [hchild] at h
        dsimp only at h
        split_ifs at h
        · cases h
          have hpos := hwaits.child hs hchild
          rw [hlast] at hpos
          refine ⟨?_, fun x hx => ?_⟩
          · rwa [← hnames]
          · cases hx
            rwa [hdrop]
        · cases h
  · -- the subtree lies inside the root, so its content is put at the top
    unfold Repository.placeInside at h
    obtain ⟨entries, hentries, h⟩ := Checked.bind_eq_ok.1 h
    split_ifs at h
    · cases h
    · obtain ⟨content, -, h⟩ := Checked.bind_eq_ok.1 h
      cases content with
      | none => cases h
      | some content =>
        dsimp only at h
        cases hwalk : s.walk s.start opts.subtree with
        | none => rw [hwalk] at h; cases h
        | some pos =>
          rw [hwalk] at h
          dsimp only at h
          split_ifs at h
          · cases h
            have hpos := Select.Waits.walk hs (Select.waits_start hs) hwalk
            rw [List.nil_append] at hpos
            exact ⟨by rwa [List.append_nil], fun x hx => by cases hx⟩
          · cases h

theorem placed_placeEach {s : Select} (hs : s.For opts) : ∀ {roots : List Root}
    {r : List Placement × Bool}, repo.placeEach opts.subtree s roots = .ok r →
      ∀ placement ∈ r.1, Placed opts s placement
  | [], r, h => by
    cases h
    exact List.forall_mem_nil _
  | root :: roots, r, h => by
    obtain ⟨placed, hroot, h⟩ := Checked.bind_eq_ok.1 h
    obtain ⟨⟨placements, found⟩, hrest, h⟩ := Checked.bind_eq_ok.1 h
    have hall := placed_placeEach hs hrest
    cases placed with
    | elsewhere | pruned =>
      cases h
      exact hall
    | here placement =>
      cases h
      exact List.forall_mem_cons.2 ⟨placed_placeRoot hs hroot, hall⟩

theorem placed_placeRoots {s : Select} (hs : s.For opts) {roots : List Root}
    {placements : List Placement} (h : repo.placeRoots roots opts.subtree s = .ok placements) :
    ∀ placement ∈ placements, Placed opts s placement := by
  obtain ⟨⟨placements', found⟩, heach, h⟩ := Checked.bind_eq_ok.1 h
  dsimp only at h
  split_ifs at h
  · cases h
  · cases h
    exact placed_placeEach hs heach

theorem Placed.mono {s s' : Select} {placement : Placement} (h : Placed opts s placement)
    (hs : ∀ p, s.isHit p = true → s'.isHit p = true) : Placed opts s' placement :=
  ⟨h.pos.mono hs, fun x hx => (h.above x hx).mono hs⟩

/-- The place of a root is credited if it is selected. -/
theorem Placed.open_ {s : Select} {placement : Placement} (h : Placed opts s placement)
    (hs : s.Credited opts restored) {rel : RelPath} {entries : List Entry} {select : Select}
    (hopen : repo.openPlacement placement s = .ok (rel, pos, entries, select)) :
    select.Credited opts (restored ++ restoredAt pos (opts.subtree ++ rel)) ∧
      Waits opts select (opts.subtree ++ rel) pos := by
  have hat : ∀ {rel : RelPath} {pos : Pos}, Waits opts s (opts.subtree ++ rel) pos →
      (s.credit pos).Credited opts (restored ++ restoredAt pos (opts.subtree ++ rel)) ∧
        Waits opts (s.credit pos) (opts.subtree ++ rel) pos := fun hwaits =>
    ⟨hs.credit hwaits, hwaits.mono fun p => hs.mono (hs.credit hwaits)⟩
  unfold Repository.openPlacement at hopen
  cases hcontent : placement.content with
  | tree | read =>
    rw [hcontent] at hopen
    obtain ⟨es, -, hopen⟩ := Checked.bind_eq_ok.1 hopen
    cases hroot : placement.fileRoot with
    | none =>
      rw [hroot] at hopen
      cases hopen
      exact hat h.pos
    | some x =>
      rw [hroot] at hopen
      dsimp only at hopen
      split_ifs at hopen
      · cases hopen
        exact hat (h.above x hroot)
      · cases hopen
        exact hat h.pos

/-- **One root.** -/
theorem credited_restorePlacement {placement : Placement} (hplaced : Placed opts w.select placement)
    (h : w.select.Credited opts restored) :
    (w.restorePlacement env repo placement).2.select.Credited opts
      (restored ++ visitedPlacement env repo opts.subtree placement w) := by
  unfold restorePlacement visitedPlacement
  cases ho : repo.openPlacement placement w.select with
  | error e =>
    rw [List.append_nil]
    exact h
  | ok x =>
    obtain ⟨rel, pos, entries, select⟩ := x
    obtain ⟨h₁, hpos₁⟩ := hplaced.open_ h ho
    dsimp only
    rw [← List.append_assoc]
    have hcreate := ({ w with select, levels := [.base rel] } : RestoreWalk).select_createIf
      pos.selected
    rcases hc : ({ w with select, levels := [.base rel] } : RestoreWalk).createIf pos.selected with
      ⟨err | u, w₁⟩
    · rw [hc] at hcreate
      rw [List.append_nil, show w₁.select = select from hcreate]
      exact h₁
    · rw [hc] at hcreate
      have hw₁ : w₁.select = select := hcreate
      rw [← hw₁] at h₁ hpos₁
      exact credited_restoreEntries (dirsCredit_restoreDirs _) select_recheckBase entries h₁ hpos₁

/-- The roots one after the other. -/
theorem credited_restorePlacements (placements : List Placement) :
    ∀ {w : RestoreWalk} {restored : List (List Bytes)},
      (∀ placement ∈ placements, Placed opts w.select placement) →
        w.select.Credited opts restored →
          (restorePlacements env repo placements w).2.select.Credited opts
            (restored ++ visitedPlacements env repo opts.subtree placements w) := by
  induction placements with
  | nil =>
    intro w restored _ h
    rwa [visitedPlacements, List.append_nil]
  | cons placement placements ih =>
    intro w restored hplaced h
    obtain ⟨hfirst, hrest⟩ := List.forall_mem_cons.1 hplaced
    have h₁ := @credited_restorePlacement env repo _ _ _ _ hfirst h
    unfold restorePlacements visitedPlacements
    rw [← List.append_assoc]
    rcases hr : w.restorePlacement env repo placement with ⟨err | u, w₁⟩
    · rw [hr] at h₁
      rw [List.append_nil]
      exact h₁
    · rw [hr] at h₁
      exact ih (fun p hp => (hrest p hp).mono fun _ => h.mono h₁) h₁

end RestoreWalk

/-- **Unmatched patterns of inclusion.** A restore lists, in their order, the texts of exactly the
patterns that are not negated and that match no node that was restored and none above one; and it
restores only nodes that its options choose. -/
theorem unmatched_exact {repo : Repository} {env : IndexLoads} {key : SnapshotKey}
    {target target' : Target} {opts : RestoreOptions} {summary : RestoreSummary}
    (h : repo.restore env key target opts = (.ok summary, target')) :
    (∃ listed : List ℕ, summary.unmatchedIncludes = listed.map opts.includes.pattern ∧
      listed.Pairwise (· < ·) ∧
      ∀ p, p ∈ listed ↔ p < opts.includes.patterns.length ∧ opts.includes.isNegated p = false ∧
        ∀ path ∈ repo.restored env key target opts, ¬opts.Covers p path) ∧
    ∀ path ∈ repo.restored env key target opts, opts.Chosen path := by
  unfold Repository.restore at h
  split at h
  · cases h
  · next select placements index hplan =>
    obtain ⟨select', hselect, hdo⟩ := Checked.bind_eq_ok.1 hplan
    obtain ⟨snapshot, -, hdo⟩ := Checked.bind_eq_ok.1 hdo
    obtain ⟨placements', hplaces, hdo⟩ := Checked.bind_eq_ok.1 hdo
    obtain ⟨index', -, hdo⟩ := Checked.bind_eq_ok.1 hdo
    cases hdo
    unfold Repository.restored
    rw [hplan]
    have hcredited : select.Credited opts [] := Select.credited_new hselect
    have hall := @RestoreWalk.credited_restorePlacements env repo opts placements
      ⟨target, [], ⟨index, 1, 0⟩, {}, ∅, select⟩ []
      (RestoreWalk.placed_placeRoots hcredited.toFor hplaces) hcredited
    dsimp only
    split at h
    · cases h
    · next w hw =>
      rw [hw, List.nil_append] at hall
      cases h
      refine ⟨⟨w.select.unhit, ?_, List.pairwise_lt_range.filter _, fun p => hall.mem_unhit⟩,
        hall.chosen⟩
      rw [← hall.includes]
      rfl

/-! ### A small restore -/

/-- A target that holds nothing. -/
def Target.empty : Target where
  node q := if q = [] then some (.dir { mode := 0o755 }) else none
  asRoot := false
  umask := id
  nextIno := 0

/-- The repository after a backup of the source `r` without what is called `x`. -/
def Repository.twoLinks : Repository :=
  (Repository.emptyIdeal.backup twoLinksOptions 0 100 100 100).2

/-- What is called `k` and what is called `x`. -/
def twoNames : RestoreOptions where
  includes := ⟨[⟨"k", [.anyDepth, .literal [107]], false, false⟩,
    ⟨"x", [.anyDepth, .literal [120]], false, false⟩], ⟨fun c => [c], fun c => [c]⟩⟩
  excludes := ⟨[], ⟨fun c => [c], fun c => [c]⟩⟩
  subtree := []

theorem unmatched_exact_twoNames :
    ∃ summary target', Repository.twoLinks.restore ⟨fun _ => .ok .new, fun _ => false⟩ ⟨1, 100⟩
        .empty twoNames = (.ok summary, target') ∧
      summary.unmatchedIncludes = ["x"] ∧ twoNames.Covers 0 [[114], [107]] ∧
        ¬twoNames.Covers 1 [[114], [107]] := by
  have hsummary : (Repository.twoLinks.restore ⟨fun _ => .ok .new, fun _ => false⟩ ⟨1, 100⟩
      .empty twoNames).1.toOption.map RestoreSummary.unmatchedIncludes = some ["x"] := by
    decide +kernel
  have hrestored : Repository.twoLinks.restored ⟨fun _ => .ok .new, fun _ => false⟩ ⟨1, 100⟩
      .empty twoNames = [[[114], [107]]] := by decide +kernel
  rcases h : Repository.twoLinks.restore ⟨fun _ => .ok .new, fun _ => false⟩ ⟨1, 100⟩
      .empty twoNames with ⟨err | summary, target'⟩
  · rw [h] at hsummary
    cases hsummary
  · rw [h] at hsummary
    have hx : summary.unmatchedIncludes = ["x"] := Option.some.inj hsummary
    obtain ⟨⟨listed, hlisted, -, hmem⟩, -⟩ := unmatched_exact h
    rw [hrestored] at hmem
    simp only [List.forall_mem_singleton] at hmem
    rw [hx] at hlisted
    -- the text `x` is that of the second pattern alone
    obtain ⟨p, rfl, hp⟩ := List.map_eq_singleton_iff.1 hlisted.symm
    have htexts : ∀ p < 2, twoNames.includes.pattern p = "x" → p = 1 := by decide
    obtain rfl := htexts p ((hmem p).1 List.mem_cons_self).1 hp
    refine ⟨summary, target', rfl, hx, ?_, ((hmem 1).1 List.mem_cons_self).2.2⟩
    by_contra hnot
    exact absurd ((hmem 0).2 ⟨by decide, by decide, hnot⟩) (by decide)

end Kist
