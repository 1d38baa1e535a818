import Kist.Backup.Walk
import Kist.Lib.Checked

/-!
# The loop of `walk_dir`

`walkItems` recurses on the items of a directory. Here it is the fold of its rounds over a state,
so that what a round keeps is kept by the whole loop.
-/

namespace Kist
namespace Backup

open Checked (bind_eq_ok)

variable (ctx : SourceCtx)

/-- The state of the loop of `walk_dir`. -/
structure Loop where
  b : Backup
  parents : Option ParentStream
  children : List Entry
  prev : Option TreeId

/-- The entry of the parent snapshot that goes with a name, and what is left of the stream. -/
def Loop.parentEntry (s : Loop) (name : Bytes) : Option Entry × Option ParentStream :=
  match s.parents with
  | some p => ((s.b.repo.takeName name p.parts p.current).1,
      some (s.b.repo.takeName name p.parts p.current).2)
  | none => (none, none)

/-- One round of the loop. -/
def Loop.take (walk : Option Walk) (dirRel : RelPath) (markers : Option (List Bytes))
    (visit : Visit) (s : Loop) : Except String SourceItem → Except CoreError Loop
  | .error _ => .ok { s with b := s.b.skip }
  | .ok item =>
    match ctx.admitted markers visit (dirRel ++ [item.name]) item with
    | none => .ok { s with b.report.excluded := s.b.report.excluded + 1 }
    | some child =>
      if item.kind = .dir ∧ walk.isNone then .ok { s with b := s.b.skip }
      else do
        let (entry, b) ← processEntry ctx walk s.b (dirRel ++ [item.name]) item
          (s.parentEntry item.name).1 child
        let children := s.children ++ entry.toList
        if children.length ≥ maxNodesPerTree then
          let (id, b) ← b.writeTree (.new children s.prev)
          return ⟨b, (s.parentEntry item.name).2, [], some id⟩
        else return ⟨b, (s.parentEntry item.name).2, children, s.prev⟩

/-- The loop is its rounds, and the last segment is written at its end. -/
theorem walkItems_eq (walk : Option Walk) (d : RelPath) (markers : Option (List Bytes))
    (visit : Visit) : ∀ (items : List (Except String SourceItem)) (s : Loop),
    walkItems ctx walk d markers visit items s.b s.parents s.children s.prev =
      (items.foldlM (Loop.take ctx walk d markers visit) s >>= fun s =>
        s.b.writeTree (.new s.children s.prev))
  | [], s => rfl
  | .error _ :: items, s => by
    unfold walkItems
    exact walkItems_eq walk d markers visit items { s with b := s.b.skip }
  | .ok item :: items, ⟨b, parents, children, prev⟩ => by
    unfold walkItems
    rw [List.foldlM_cons, Loop.take]
    dsimp only
    cases ctx.admitted markers visit (d ++ [item.name]) item with
    | none => exact walkItems_eq walk d markers visit items ⟨_, parents, children, prev⟩
    | some child =>
      dsimp only
      split_ifs
      · exact walkItems_eq walk d markers visit items ⟨_, parents, children, prev⟩
      · have hrest := walkItems_eq walk d markers visit items
        cases parents with
        | none =>
          simp only [bind_assoc, Loop.parentEntry]
          refine bind_congr fun x => ?_
          split_ifs
          · simp only [bind_assoc, pure_bind]
            exact bind_congr fun y => hrest ⟨_, _, _, _⟩
          · exact hrest ⟨_, _, _, _⟩
        | some ps =>
          simp only [bind_assoc, Loop.parentEntry]
          refine bind_congr fun x => ?_
          split_ifs
          · simp only [bind_assoc, pure_bind]
            exact bind_congr fun y => hrest ⟨_, _, _, _⟩
          · exact hrest ⟨_, _, _, _⟩

/-- The walk of the directories below, if there is a level left for them. -/
def walkBelow : ℕ → Option Walk
  | 0 => none
  | levels + 1 => some (walkDir ctx levels)

theorem walkDir_eq (levels : ℕ) : walkDir ctx levels = walkDirWith ctx (walkBelow ctx levels) := by
  cases levels <;> rfl

/-- The markers of a directory, and the state in which the loop over its items starts. -/
def enterDir (b : Backup) (d : RelPath) (parent : Option TreeId) (visit : Visit) :
    Option (List Bytes) × Loop :=
  let parents := parent.bind fun id => (b.repo.openParent id).toOption
  let (markers, b) :=
    if ctx.exclude.ifPresent = [] ∨ visit.passThrough then (none, b.ask)
    else markersIn ctx b.ask d
  (markers, ⟨b, parents, [], none⟩)

theorem walkDirWith_eq {walk : Option Walk} {b : Backup} {d : RelPath}
    {items : List (Except String SourceItem)} (h : ctx.source.list b.tick d = .ok items)
    (parent : Option TreeId) (visit : Visit) :
    walkDirWith ctx walk b d parent visit =
      (items.foldlM (Loop.take ctx walk d (enterDir ctx b d parent visit).1 visit)
        (enterDir ctx b d parent visit).2 >>= fun s => s.b.writeTree (.new s.children s.prev)) := by
  rw [← walkItems_eq]
  unfold walkDirWith
  rw [h]
  rfl

/-! ### One round -/

section Round

variable {ctx} {d : RelPath} {visit child : Visit} {s : Loop} {walk : Option Walk}
  {markers : Option (List Bytes)} {item : SourceItem}

/-- A round that takes up an item. -/
theorem take_eq (hadmitted : ctx.admitted markers visit (d ++ [item.name]) item = some child)
    (hdeep : item.kind = .dir → walk.isSome) :
    Loop.take ctx walk d markers visit s (.ok item) =
      (processEntry ctx walk s.b (d ++ [item.name]) item (s.parentEntry item.name).1 child >>=
        fun x =>
          if (s.children ++ x.1.toList).length ≥ maxNodesPerTree then
            x.2.writeTree (.new (s.children ++ x.1.toList) s.prev) >>= fun y =>
              .ok ⟨y.2, (s.parentEntry item.name).2, [], some y.1⟩
          else .ok ⟨x.2, (s.parentEntry item.name).2, s.children ++ x.1.toList, s.prev⟩) := by
  have hnot : ¬(item.kind = .dir ∧ walk.isNone = true) := fun ⟨hk, hw⟩ => by
    simp [Option.isNone_iff_eq_none.1 hw] at hdeep
    exact hdeep hk
  unfold Loop.take
  dsimp only
  rw [hadmitted]
  dsimp only
  rw [if_neg hnot]
  rfl

/-- A round that takes up no item leaves the segment as it is. -/
theorem take_skip (hskip : ∀ child, ctx.admitted markers visit (d ++ [item.name]) item =
      some child → item.kind = .dir ∧ walk = none) :
    ∃ errors excluded, Loop.take ctx walk d markers visit s (.ok item) = .ok { s with
      b := { s.b with report.errors := errors, report.excluded := excluded } } := by
  unfold Loop.take
  dsimp only
  cases hadm : ctx.admitted markers visit (d ++ [item.name]) item with
  | none => exact ⟨s.b.report.errors, _, rfl⟩
  | some child =>
    obtain ⟨hk, hw⟩ := hskip child hadm
    dsimp only
    rw [if_pos ⟨hk, by rw [hw]; rfl⟩]
    exact ⟨_, s.b.report.excluded, rfl⟩

/-- An item that is not taken up is not admitted, or is a directory below the last level. -/
theorem skipped_of_not_taken (h : ¬∃ child, ctx.admitted markers visit (d ++ [item.name]) item =
      some child ∧ (item.kind = .dir → walk.isSome))
    (hadmitted : ctx.admitted markers visit (d ++ [item.name]) item = some child) :
    item.kind = .dir ∧ walk = none := by
  by_contra hc
  refine h ⟨child, hadmitted, fun hk => ?_⟩
  cases hw : walk with
  | none => exact absurd ⟨hk, hw⟩ hc
  | some w => rfl

/-- **One round.** It leaves all but the counts as it was; or it takes up an item, whose entry is
added to the segment, and the segment is written once it is full. -/
theorem take_cases {x : Except String SourceItem} {s' : Loop}
    (h : Loop.take ctx walk d markers visit s x = .ok s') :
    (∃ errors excluded, s' = { s with
        b := { s.b with report.errors := errors, report.excluded := excluded } }) ∨
      ∃ item child r, x = .ok item ∧
        ctx.admitted markers visit (d ++ [item.name]) item = some child ∧
        (item.kind = .dir → walk.isSome) ∧
        processEntry ctx walk s.b (d ++ [item.name]) item (s.parentEntry item.name).1
          child = .ok r ∧
        ((∃ id b, r.2.writeTree (.new (s.children ++ r.1.toList) s.prev) = .ok (id, b) ∧
            s' = ⟨b, (s.parentEntry item.name).2, [], some id⟩) ∨
          s' = ⟨r.2, (s.parentEntry item.name).2, s.children ++ r.1.toList, s.prev⟩) := by
  cases x with
  | error e => cases h; exact .inl ⟨_, s.b.report.excluded, rfl⟩
  | ok item =>
    by_cases htaken : ∃ child, ctx.admitted markers visit (d ++ [item.name]) item = some child ∧
        (item.kind = .dir → walk.isSome)
    · obtain ⟨child, hadm, hdeep⟩ := htaken
      rw [take_eq hadm hdeep] at h
      obtain ⟨r, hr, h⟩ := bind_eq_ok.1 h
      refine .inr ⟨item, child, r, rfl, hadm, hdeep, hr, ?_⟩
      split_ifs at h
      · obtain ⟨y, hy, h⟩ := bind_eq_ok.1 h
        cases h
        exact .inl ⟨y.1, y.2, hy, rfl⟩
      · cases h
        exact .inr rfl
    · obtain ⟨errors, excluded, heq⟩ : ∃ errors excluded, Loop.take ctx walk d markers visit s
          (.ok item) = .ok { s with
            b := { s.b with report.errors := errors, report.excluded := excluded } } :=
        take_skip fun child hadm => skipped_of_not_taken htaken hadm
      rw [heq] at h
      cases h
      exact .inl ⟨errors, excluded, rfl⟩

end Round

end Backup
end Kist
