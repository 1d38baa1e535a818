import Kist.Format.Cbor
import Kist.Lib.CborShape

/-!
# Decoding CBOR

`kist-format::cbor::decode`: the structure of the bytes is walked, a library reads a value from
them, and nothing may be left behind it.

* `rejectNoncanonical_ok_iff`: the walk accepts exactly the items with definite lengths and without
  tags, nested no deeper than the limit.
* `permitted_iff`: what `decode` accepts beyond what the format permits.
-/

namespace Kist

open Cbor

/-- `cbor::decode`, with `ciborium::from_reader`, which gives a value and the number of bytes it was
read from. -/
def decodeCbor {T : Type} (fromReader : Bytes → Except String (T × ℕ)) (bytes : Bytes) :
    Except String T := do
  rejectNoncanonical bytes
  let (value, consumed) ← fromReader bytes
  if consumed ≠ bytes.length then
    throw s!"{bytes.length - consumed} trailing bytes after CBOR value"
  return value

/-! ### The walk -/

/-- A walk over positions goes over what a reader reads. -/
def Tracks {α : Type*} (data : Bytes) (walk : ℕ → Except String ℕ)
    (read : Bytes → Option (α × Bytes)) : Prop :=
  ∀ pos ≤ data.length,
    (∃ x pos', pos ≤ pos' ∧ pos' ≤ data.length ∧ walk pos = .ok pos' ∧
      read (data.drop pos) = some (x, data.drop pos')) ∨
    ((∃ e, walk pos = .error e) ∧ read (data.drop pos) = none)

section Walk

variable {data : Bytes} {walk : ℕ → Except String ℕ} {read : Bytes → Option (Item × Bytes)}
  {pos n arg : ℕ}

theorem tracks_readMany (h : Tracks data walk read) (n : ℕ) :
    Tracks data (walkItems walk n) (readMany read n) := by
  induction n with
  | zero => exact fun pos hpos => .inl ⟨[], pos, le_rfl, hpos, rfl, rfl⟩
  | succ n ih =>
    intro pos hpos
    rw [walkItems, readMany]
    rcases h pos hpos with ⟨i, pos₁, hle₁, hlt₁, hwalk, hread⟩ | ⟨⟨e, hwalk⟩, hread⟩
    · rw [hwalk, hread]
      rcases ih pos₁ hlt₁ with ⟨items, pos₂, hle₂, hlt₂, hwalk₂, hread₂⟩ | ⟨⟨e, hwalk₂⟩, hread₂⟩
      · refine .inl ⟨i :: items, pos₂, hle₁.trans hle₂, hlt₂, hwalk₂, ?_⟩
        simp [hread₂]
      · refine .inr ⟨⟨e, hwalk₂⟩, ?_⟩
        simp [hread₂]
    · exact .inr ⟨⟨e, by rw [hwalk]⟩, by rw [hread]; rfl⟩

theorem tracks_readPairs (h : Tracks data walk read) (n : ℕ) :
    Tracks data (walkItems walk (2 * n)) (readPairs read n) := by
  induction n with
  | zero => exact fun pos hpos => .inl ⟨[], pos, le_rfl, hpos, rfl, rfl⟩
  | succ n ih =>
    intro pos hpos
    rw [show 2 * (n + 1) = 2 * n + 1 + 1 by ring, walkItems, readPairs]
    rcases h pos hpos with ⟨key, pos₁, hle₁, hlt₁, hwalk, hread⟩ | ⟨⟨e, hwalk⟩, hread⟩
    · rw [hwalk, hread]
      dsimp only
      rw [walkItems]
      rcases h pos₁ hlt₁ with ⟨value, pos₂, hle₂, hlt₂, hwalk₂, hread₂⟩ | ⟨⟨e, hwalk₂⟩, hread₂⟩
      · rw [hwalk₂]
        rcases ih pos₂ hlt₂ with ⟨fields, pos₃, hle₃, hlt₃, hwalk₃, hread₃⟩ | ⟨⟨e, hwalk₃⟩, hread₃⟩
        · refine .inl ⟨(key, value) :: fields, pos₃, hle₁.trans (hle₂.trans hle₃), hlt₃, hwalk₃, ?_⟩
          simp [hread₂, hread₃]
        · refine .inr ⟨⟨e, hwalk₃⟩, ?_⟩
          simp [hread₂, hread₃]
      · refine .inr ⟨⟨e, by rw [hwalk₂]⟩, ?_⟩
        simp [hread₂]
    · exact .inr ⟨⟨e, by rw [hwalk]⟩, by rw [hread]; rfl⟩

/-- The number behind a first byte is in as many bytes as its width has. -/
theorem readUint_eq {w : Width} (hpos : pos ≤ data.length) :
    (w.size ≤ (data.drop pos).length ∧
      readUint data pos w.size = .ok (ofBe ((data.drop pos).take w.size), pos + w.size)) ∨
    ((data.drop pos).length < w.size ∧ ∃ e, readUint data pos w.size = .error e) := by
  unfold readUint
  rw [List.length_drop]
  split_ifs with hlen
  · exact .inr ⟨by omega, _, rfl⟩
  · exact .inl ⟨by omega, rfl⟩

theorem readArgument_none {info : ℕ} (h : Width.ofInfo info = none) :
    ∃ e, readArgument data info pos = .error e := by
  unfold Width.ofInfo at h
  unfold readArgument
  split_ifs at h ⊢
  · exact ⟨_, rfl⟩
  · exact ⟨_, rfl⟩

theorem readArgument_tiny {info : ℕ} (h : Width.ofInfo info = some .tiny) :
    readArgument data info pos = .ok (info, pos) := by
  rcases Width.ofInfo_eq_some h with ⟨-, hinfo⟩ | ⟨hne, -⟩
  · exact if_pos hinfo
  · exact absurd rfl hne

theorem readArgument_wide {info : ℕ} {w : Width} (h : Width.ofInfo info = some w)
    (hne : w ≠ .tiny) : readArgument data info pos = readUint data pos w.size := by
  unfold Width.ofInfo at h
  unfold readArgument
  split_ifs at h ⊢ <;> cases h
  · exact absurd rfl hne
  all_goals rfl

/-- The heads that the walk and the reader find. -/
theorem readHead_drop (hpos : pos ≤ data.length) :
    (∃ first w arg pos', data[pos]? = some first ∧ pos < pos' ∧ pos' ≤ data.length ∧
      readArgument data (first.toNat % 32) (pos + 1) = .ok (arg, pos') ∧
      readHead (data.drop pos) = some (first.toNat / 32, w, arg, data.drop pos')) ∨
    readHead (data.drop pos) = none ∧ (data[pos]? = none ∨ ∃ first e, data[pos]? = some first ∧
      readArgument data (first.toNat % 32) (pos + 1) = .error e) := by
  rcases hpos.eq_or_lt with rfl | hlt
  · right
    rw [List.drop_length]
    exact ⟨rfl, .inl (by simp)⟩
  rw [List.getElem?_eq_getElem hlt, List.drop_eq_getElem_cons hlt, readHead]
  cases hw : Width.ofInfo (data[pos].toNat % 32) with
  | none =>
    obtain ⟨e, he⟩ := @readArgument_none data (pos + 1) _ hw
    exact .inr ⟨rfl, .inr ⟨_, e, rfl, he⟩⟩
  | some w =>
    cases w with
    | tiny => exact .inl ⟨_, .tiny, _, pos + 1, rfl, by omega, hlt, readArgument_tiny hw, rfl⟩
    | one | two | four | eight =>
      have hread := @readArgument_wide data (pos + 1) _ _ hw (by simp)
      dsimp only
      rcases readUint_eq hlt with ⟨hlen, hnum⟩ | ⟨hlen, e, hnum⟩
      · left
        rw [if_neg (not_lt.2 hlen), List.drop_drop]
        rw [List.length_drop] at hlen
        exact ⟨_, _, _, _, rfl, by omega, by omega, hread.trans hnum, rfl⟩
      · right
        rw [if_pos hlen]
        exact ⟨rfl, .inr ⟨_, e, rfl, hread.trans hnum⟩⟩

/-- What follows a head. -/
theorem tracks_body {major : ℕ} {w : Width} (hmajor : major < 8) (h : Tracks data walk read) :
    Tracks data (walkBody data walk major arg) (readBody read major w arg) := by
  intro pos hpos
  -- numbers and simple values have nothing behind their heads
  have hnothing : ∀ i, (∃ (x : Item) (pos' : ℕ), pos ≤ pos' ∧ pos' ≤ data.length ∧
      (.ok pos : Except String ℕ) = .ok pos' ∧ some (i, data.drop pos) =
        some (x, data.drop pos')) :=
    fun i => ⟨i, pos, le_rfl, hpos, rfl, rfl⟩
  have hstring : ∀ text,
      (∃ (x : Item) (pos' : ℕ), pos ≤ pos' ∧ pos' ≤ data.length ∧
        (if data.length < pos + arg then .error "truncated CBOR string payload"
          else Except.ok (pos + arg)) = .ok pos' ∧
        (if (data.drop pos).length < arg then none
          else some (Item.string text w ((data.drop pos).take arg), (data.drop pos).drop arg)) =
            some (x, data.drop pos')) ∨
      ((∃ e, (if data.length < pos + arg then .error "truncated CBOR string payload"
          else Except.ok (pos + arg)) = .error e) ∧
        (if (data.drop pos).length < arg then none
          else some (Item.string text w ((data.drop pos).take arg), (data.drop pos).drop arg)) =
            none) := by
    intro text
    rw [List.length_drop, List.drop_drop]
    split_ifs with h₁ h₂ h₂
    · exact .inr ⟨⟨_, rfl⟩, rfl⟩
    · omega
    · omega
    · exact .inl ⟨_, _, by omega, by omega, rfl, rfl⟩
  unfold walkBody readBody
  obtain rfl | rfl | rfl | rfl | rfl | rfl | rfl | rfl : major = 0 ∨ major = 1 ∨ major = 2 ∨
    major = 3 ∨ major = 4 ∨ major = 5 ∨ major = 6 ∨ major = 7 := by omega
  · exact .inl (hnothing _)
  · exact .inl (hnothing _)
  · exact hstring false
  · exact hstring true
  · rcases tracks_readMany h arg pos hpos with ⟨items, pos', hle, hlt, hwalk, hread⟩ | ⟨he, hread⟩
    · exact .inl ⟨.array w items, pos', hle, hlt, hwalk, by simp [hread]⟩
    · exact .inr ⟨he, by simp [hread]⟩
  · rcases tracks_readPairs h arg pos hpos with ⟨fields, pos', hle, hlt, hwalk, hread⟩ | ⟨he, hread⟩
    · exact .inl ⟨.map w fields, pos', hle, hlt, hwalk, by simp [hread]⟩
    · exact .inr ⟨he, by simp [hread]⟩
  · exact .inr ⟨⟨_, rfl⟩, rfl⟩
  · exact .inl (hnothing _)

/-- **The walk** goes over the items that can be read. -/
theorem tracks_walkStructure (data : Bytes) (levels : ℕ) :
    Tracks data (walkStructure data levels) (readItem levels) := by
  induction levels with
  | zero => exact fun pos _ => .inr ⟨⟨_, rfl⟩, rfl⟩
  | succ levels ih =>
    intro pos hpos
    rw [walkStructure, readItem]
    rcases readHead_drop hpos with ⟨first, w, arg, pos₁, hfirst, hlt, hle, harg, hread⟩ |
      ⟨hread, hnone | ⟨first, e, hfirst, harg⟩⟩
    · have hbyte : first.toNat < 256 := first.toNat_lt
      rw [hfirst, hread]
      dsimp only
      rw [harg]
      rcases @tracks_body data _ _ arg (first.toNat / 32) w (by omega) ih pos₁ hle
        with ⟨i, pos₂, hle₂, hlt₂, hwalk, hbody⟩ | h
      · exact .inl ⟨i, pos₂, by omega, hlt₂, hwalk, hbody⟩
      · exact .inr h
    · rw [hnone, hread]
      exact .inr ⟨⟨_, rfl⟩, rfl⟩
    · rw [hfirst, hread]
      dsimp only
      rw [harg]
      exact .inr ⟨⟨_, rfl⟩, rfl⟩

/-- **What the walk accepts**: one item with definite lengths and without tags, nested no deeper
than the limit, and nothing behind it. -/
theorem rejectNoncanonical_ok_iff :
    rejectNoncanonical data = .ok () ↔
      ∃ i : Item, data = i.bytes ∧ i.Fits ∧ i.depth ≤ maxStructureDepth + 1 := by
  unfold rejectNoncanonical
  rcases tracks_walkStructure data (maxStructureDepth + 1) 0 (Nat.zero_le _) with
    ⟨i, pos, -, hpos, hwalk, hread⟩ | ⟨⟨e, hwalk⟩, hread⟩
  · rw [hwalk]
    dsimp only
    rw [List.drop_zero] at hread
    obtain ⟨hdata, hfits, hdepth⟩ := bytes_of_readItem hread
    split_ifs with hend
    · refine iff_of_false nofun ?_
      rintro ⟨i', rfl, hfits', hdepth'⟩
      obtain ⟨rfl, hrest⟩ := @Item.bytes_append_inj i' [] _ _ hfits' hfits
        ((List.append_nil _).trans hdata)
      have hlen := congrArg List.length hrest
      rw [List.length_nil, List.length_drop] at hlen
      omega
    · rw [not_not] at hend
      subst hend
      rw [List.drop_length, List.append_nil] at hdata
      exact iff_of_true rfl ⟨i, hdata, hfits, hdepth⟩
  · rw [hwalk]
    refine iff_of_false nofun ?_
    rintro ⟨i, rfl, hfits, hdepth⟩
    rw [List.drop_zero, ← List.append_nil i.bytes, readItem_bytes hfits hdepth] at hread
    cases hread

end Walk

/-- The format permits the bytes: they are one item with definite lengths and without tags, nested
no deeper than the limit, in which nothing is longer than needed, a floating-point number or a
repeated key. -/
def Permitted (data : Bytes) : Prop :=
  ∃ i : Item, data = i.bytes ∧ i.Fits ∧ i.depth ≤ maxStructureDepth + 1 ∧ i.All Item.Canonical

/-- The reader reads a value only from items of the shape. -/
def ReadsShape {T : Type} (fromReader : Bytes → Except String (T × ℕ)) (shape : Shape) : Prop :=
  ∀ (i : Item) (value : T), i.Fits → i.depth ≤ maxStructureDepth + 1 →
    fromReader i.bytes = .ok (value, i.bytes.length) → shape.Accepts i

section Decode

variable {T : Type} {fromReader : Bytes → Except String (T × ℕ)} {data : Bytes} {value : T}

theorem decodeCbor_ok_iff : decodeCbor fromReader data = .ok value ↔
    rejectNoncanonical data = .ok () ∧ fromReader data = .ok (value, data.length) := by
  unfold decodeCbor
  cases rejectNoncanonical data with
  | error e => exact iff_of_false nofun fun h => nomatch h.1
  | ok u =>
    cases hread : fromReader data with
    | error e => exact iff_of_false nofun fun h => nomatch h.2
    | ok r =>
      obtain ⟨value', consumed⟩ := r
      simp only [bind, Except.bind]
      split_ifs with hlen
      · exact iff_of_false nofun fun h => hlen (Prod.mk.inj (Except.ok.inj h.2)).2
      · rw [not_not] at hlen
        subst hlen
        constructor
        · intro h
          cases h
          exact ⟨trivial, rfl⟩
        · rintro ⟨-, h⟩
          cases h
          rfl

/-- What is decoded is one item with definite lengths and without tags, nested no deeper than the
limit, and of the shape that its type is read from. It is permitted if nothing in it is longer than
needed, and what its type leaves unread is tidy: this is not looked at. -/
theorem permitted_iff {shape : Shape} (hshape : ReadsShape fromReader shape)
    (h : decodeCbor fromReader data = .ok value) :
    ∃ i : Item, data = i.bytes ∧ i.Fits ∧ i.depth ≤ maxStructureDepth + 1 ∧ shape.Accepts i ∧
      (Permitted data ↔ i.All Item.Shortest ∧ shape.Tidy i) := by
  obtain ⟨hwalk, hread⟩ := decodeCbor_ok_iff.1 h
  obtain ⟨i, rfl, hfits, hdepth⟩ := rejectNoncanonical_ok_iff.1 hwalk
  have haccepts := hshape i value hfits hdepth hread
  refine ⟨i, rfl, hfits, hdepth, haccepts, ?_⟩
  rw [← Shape.canonical_iff hfits haccepts]
  refine ⟨?_, fun hcanonical => ⟨i, rfl, hfits, hdepth, hcanonical⟩⟩
  rintro ⟨i', hbytes, hfits', -, hcanonical⟩
  have happend : i.bytes ++ [] = i'.bytes ++ [] := by rw [hbytes]
  rwa [(Item.bytes_append_inj hfits hfits' happend).1]

/-- The walk moves on, and not beyond the end. -/
theorem walkStructure_bounds {levels pos : ℕ} (hpos : pos ≤ data.length) :
    (∃ e, walkStructure data levels pos = .error e) ∨
      ∃ pos', walkStructure data levels pos = .ok pos' ∧ pos < pos' ∧ pos' ≤ data.length := by
  rcases tracks_walkStructure data levels pos hpos with ⟨i, pos', hle, hlt, hwalk, hread⟩ | ⟨he, -⟩
  · refine .inr ⟨pos', hwalk, lt_of_le_of_ne hle ?_, hlt⟩
    rintro rfl
    obtain ⟨hdrop, -, -⟩ := bytes_of_readItem hread
    have hlen := congrArg List.length hdrop
    rw [List.length_append, Item.bytes_eq, wideHead] at hlen
    simp only [List.cons_append, List.length_cons] at hlen
    omega
  · exact .inl he

end Decode

/-! ### The library -/

/-- `ciborium`, which writes items and reads them. `read` gives the number of bytes read, too. -/
structure CborLib where
  write : Item → Bytes
  read : Bytes → Except String (Item × ℕ)

namespace CborLib

/-- The library writes items in their shortest form, and reads them as they are. -/
structure Faithful (lib : CborLib) : Prop where
  write : ∀ i : Item, i.Short → lib.write i = i.bytes
  read : ∀ i : Item, i.Fits → i.depth ≤ maxStructureDepth + 1 →
    lib.read i.bytes = .ok (i, i.bytes.length)

/-- `from_reader`: the item, and the value it is read as. -/
def fromReader {T : Type} (lib : CborLib) (ofItem : Item → Option T) (bytes : Bytes) :
    Except String (T × ℕ) := do
  let (i, consumed) ← lib.read bytes
  match ofItem i with
  | none => throw "invalid value"
  | some value => return (value, consumed)

/-- What is written is decoded. -/
theorem Faithful.decodeCbor_write {T : Type} {lib : CborLib} (h : lib.Faithful)
    {ofItem : Item → Option T} {i : Item} {value : T} (hshort : i.Short)
    (hdepth : i.depth ≤ maxStructureDepth + 1) (hvalue : ofItem i = some value) :
    decodeCbor (lib.fromReader ofItem) (lib.write i) = .ok value := by
  rw [h.write i hshort, decodeCbor_ok_iff]
  refine ⟨rejectNoncanonical_ok_iff.2 ⟨i, rfl, hshort.fits, hdepth⟩, ?_⟩
  unfold fromReader
  rw [h.read i hshort.fits hdepth]
  simp only [bind, Except.bind, hvalue]
  rfl

/-- A type whose reader keeps to a shape is read from items of the shape. -/
theorem Faithful.readsShape {T : Type} {lib : CborLib} (h : lib.Faithful)
    {ofItem : Item → Option T} {shape : Shape} (hreads : shape.Reads ofItem) :
    ReadsShape (lib.fromReader ofItem) shape := by
  intro i value hfits hdepth hvalue
  unfold fromReader at hvalue
  rw [h.read i hfits hdepth] at hvalue
  simp only [bind, Except.bind] at hvalue
  cases hitem : ofItem i with
  | none =>
    rw [hitem] at hvalue
    cases hvalue
  | some value' => exact hreads i value' hitem

/-- A library that reads as the bytes of an item tell. -/
def exact : CborLib where
  write := Item.bytes
  read data :=
    match readItem (maxStructureDepth + 1) data with
    | none => .error "no item"
    | some (i, rest) => .ok (i, data.length - rest.length)

theorem faithful_exact : exact.Faithful where
  write _ _ := rfl
  read i hfits hdepth := by
    have hread := readItem_bytes hfits hdepth []
    rw [List.append_nil] at hread
    simp [exact, hread]

end CborLib

end Kist
