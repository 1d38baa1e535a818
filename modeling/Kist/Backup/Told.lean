import Kist.Backup.Loop

/-!
# What a source tells a walk

A walk asks its source for listings, for the metadata of the items in them and for the content of
files, and the source answers as things are at the moment of the question. This file says what a
walk may be told, by the source and the rules of exclusion alone: there is no repository, no index
and no parent snapshot in it, but for the fact that the content of some files is taken over and not
asked for.

* `Fact`: an entry that is due for an item. `Fact.Fits`: a tree can hold it behind the one before.
* `Tells`: what the source tells the walk of a directory: the entries that are due, and how many
  items have to be skipped.
-/

namespace Kist
namespace Backup

/-! ### Entries that are due -/

/-- An entry that is due for an item: the item, whether a local source knew nothing of it any more,
and the name of the entry before it in its segment. -/
structure Fact where
  item : SourceItem
  vanished : Bool
  last : Option Bytes

/-- A tree can hold the entry of the item. -/
def Representable (mk : MetaKind) (item : SourceItem) (vanished : Bool) : Prop :=
  Entry.cleanName item.name ∧
    match item.kind with
    | .symlink target => target ≠ [] ∧ mk ≠ .sftp ∧ vanished = false
    | .dir => vanished = false
    | .file _ _ etag vern => mk = .s3 →
      (etag.getD []).length ≤ maxEtagVerBytes ∧ (vern.getD []).length ≤ maxEtagVerBytes

/-- A tree can hold the entry behind the one before. -/
def Fact.Fits (mk : MetaKind) (f : Fact) : Prop :=
  Representable mk f.item f.vanished ∧ ∀ last ∈ f.last, last < f.item.name

/-- How many entries a segment has, and the name of the last one. -/
structure SegmentEnd where
  count : ℕ
  last : Option Bytes

/-- The next entry of a segment. A full segment is followed by an empty one. -/
def SegmentEnd.push (seg : SegmentEnd) (name : Bytes) : SegmentEnd :=
  if seg.count + 1 ≥ maxNodesPerTree then ⟨0, none⟩ else ⟨seg.count + 1, some name⟩

/-! ### Telling -/

/-- What is told in a part of a walk: the moment after it, the entries that are due, and the numbers
of items that are skipped with an error and that are excluded. -/
structure Told where
  tick : ℕ
  facts : List Fact
  errors : ℕ
  excluded : ℕ

/-- Nothing is told. -/
def Told.none (tick : ℕ) : Told := ⟨tick, [], 0, 0⟩

/-- One part after another. -/
def Told.append (t t' : Told) : Told :=
  ⟨t'.tick, t.facts ++ t'.facts, t.errors + t'.errors, t.excluded + t'.excluded⟩

/-- What may be told of the content of a directory, from a moment on. -/
abbrev Telling := ℕ → RelPath → Visit → Told → Prop

variable (ctx : SourceCtx)

section Exists

variable {ctx}

/-- Whatever is asked, something is told. -/
def Total (below : Telling) : Prop := ∀ tick d visit, ∃ t, below tick d visit t

end Exists

end Backup
end Kist
