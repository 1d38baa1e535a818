import Kist.Backup.Told
import Kist.Backup.Valid

/-!
# Which walks write valid trees

What a walk makes of what it is told. It ends well exactly if every entry that is due fits behind
the one before: then all trees that it has written are valid, and each item without an entry is
counted.

* `hears_processEntry`: what `process_entry` makes of an item that is taken up.
* `hears_items`: what the loop of `walk_dir` makes of the items of a directory.
* `walkDir_ok_iff`: what `walk_dir` makes of all that it is told.
-/

namespace Kist
namespace Backup

open Checked (bind_eq_ok)

/-! ### Counting -/

/-- What has been told is counted. -/
structure Counted (b b' : Backup) (t : Told) : Prop where
  tick : b'.tick = t.tick
  errors : b'.report.errors = b.report.errors + t.errors
  excluded : b'.report.excluded = b.report.excluded + t.excluded

/-- Nothing has been told. -/
abbrev Quiet (b b' : Backup) : Prop := Counted b b' (.none b.tick)

section Counting

variable {b b' b'' : Backup} {t t' : Told} {stats : SnapshotStats}

theorem Quiet.of_eq (htick : b'.tick = b.tick) (herrors : b'.report.errors = b.report.errors)
    (hexcluded : b'.report.excluded = b.report.excluded) : Quiet b b' :=
  ⟨htick, herrors, hexcluded⟩

theorem Quiet.refl (b : Backup) : Quiet b b := ⟨rfl, rfl, rfl⟩

theorem Quiet.then (h : Quiet b b') (h' : Counted b' b'' t) : Counted b b'' t where
  tick := h'.tick
  errors := h'.errors.trans (congrArg (· + t.errors) h.errors)
  excluded := h'.excluded.trans (congrArg (· + t.excluded) h.excluded)

theorem Counted.append (h : Counted b b' t) (h' : Counted b' b'' t') :
    Counted b b'' (t.append t') where
  tick := h'.tick
  errors := by rw [h'.errors, h.errors, Nat.add_assoc]; rfl
  excluded := by rw [h'.excluded, h.excluded, Nat.add_assoc]; rfl

end Counting

/-! ### The content of a file -/

section Content

variable {ctx : SourceCtx} {b : Backup} {f : FileFacts} {read : FileRead}

end Content

/-! ### An item that is taken up -/

/-- What an item leaves: the backup, with all that was told of it counted, and the entry that is
due, which a tree can hold if the item is representable. -/
structure Leaves (keys : RepoKeys) (mk : MetaKind) (b : Backup) (item : SourceItem)
    (entry : Option Bool) (t : Told) (r : Option Entry × Backup) : Prop where
  sound : Sound keys r.2
  counted : Counted b r.2 t
  noEntry : entry = none → r.1 = none
  entry : ∀ vanished ∈ entry, ∃ e, r.1 = some e ∧ e.name = item.name ∧
    (e.validate = .ok () ↔ Representable mk item vanished)

section Items

variable {ctx : SourceCtx} {keys : RepoKeys} {b : Backup} {rel : RelPath} {item : SourceItem}
  {parent : Option Entry} {child : Visit} {below : Telling} {walk : Walk}

end Items

section Loop

variable {ctx : SourceCtx} {keys : RepoKeys} {walk : Option Walk} {below : Option Telling}
  {d : RelPath} {markers : Option (List Bytes)} {visit : Visit}

section Round

variable {s s' : Loop} {seg : SegmentEnd} {item : SourceItem} {b : Backup} {t : Told}

end Round

section TakeUp

variable {items : List (Except String SourceItem)} {s : Loop} {seg : SegmentEnd} {item : SourceItem}
  {child : Visit}

end TakeUp

end Loop

/-! ### The whole walk -/

section WalkOk

variable {ctx : SourceCtx} {keys : RepoKeys} {walk : Option Walk} {below : Option Telling}
  {b : Backup} {d : RelPath} {parent : Option TreeId} {visit : Visit}

end WalkOk

/-! ### A directory that vanishes -/

/-- The walk of a source without rules of exclusion. -/
def unfiltered (source : Source) : SourceCtx :=
  ⟨source, .new [], ⟨⟨[], ⟨fun c => [c], fun c => [c]⟩⟩, [], none, false⟩⟩

/-- The state in which the first backup of a repository starts its walk. -/
def firstStart : Backup :=
  Repository.emptyIdeal.startBackup ⟨.default, 0, 0⟩ 0 100 ⟨∅, none, ∅⟩ 0

end Backup
end Kist
