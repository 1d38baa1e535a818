import Kist.Lib.CborItem

/-!
# Records in CBOR

Values as items in their shortest form, and records as maps from names of fields, in which a field
may be left out. A record is read by the names of its fields, in whatever order they stand and
whatever other fields there are.

* `need_present`, `want_present`: the fields of a written record are read back.
-/

namespace Cbor

/-- The argument of an item is below `2 ^ 64` and spelled in the least width. -/
def Item.Least (i : Item) : Prop := i.arg < 2 ^ 64 ∧ i.width = .shortest i.arg

/-- An item in its shortest form. -/
def Item.Short (i : Item) : Prop := i.All Item.Least

theorem Item.Short.fits {i : Item} (h : i.Short) : i.Fits :=
  Item.All.imp h fun _ hi => hi.2 ▸ Width.holds_shortest hi.1

/-! ### Values -/

/-- A number. -/
def ofNat (n : ℕ) : Item := .num false (.shortest n) n

/-- A number that may be negative. -/
def ofInt (z : ℤ) : Item :=
  if 0 ≤ z then ofNat z.toNat else .num true (.shortest (-1 - z).toNat) (-1 - z).toNat

/-- A byte string. -/
def ofBytes (b : Bytes) : Item := .string false (.shortest b.length) b

/-- A text. -/
def ofText (b : Bytes) : Item := .string true (.shortest b.length) b

/-- An array. -/
def ofList {α : Type*} (write : α → Item) (xs : List α) : Item :=
  .array (.shortest xs.length) (xs.map write)

/-- A map. -/
def ofPairs (fields : List (Item × Item)) : Item := .map (.shortest fields.length) fields

/-- A number below a bound. -/
def toNat (bound : ℕ) : Item → Option ℕ
  | .num false _ n => if n < bound then some n else none
  | _ => none

/-- A number of 64 bits with a sign. -/
def toInt : Item → Option ℤ
  | .num false _ n => if n < 2 ^ 63 then some n else none
  | .num true _ n => if n < 2 ^ 63 then some (-1 - n) else none
  | _ => none

/-- A byte string. -/
def toBytes : Item → Option Bytes
  | .string false _ b => some b
  | _ => none

/-- An array. -/
def toList {α : Type} (read : Item → Option α) : Item → Option (List α)
  | .array _ items => items.mapM read
  | _ => none

/-- A value or `null`. -/
def orNull {α : Type} (read : Item → Option α) : Item → Option (Option α)
  | .simple .tiny 22 => some none
  | i => (read i).map some

section Values

variable {n bound : ℕ} {z : ℤ} {b : Bytes} {α : Type} {write : α → Item}
  {read : Item → Option α} {xs : List α} {x : α} {i : Item}

theorem toNat_ofNat (h : n < bound) : toNat bound (ofNat n) = some n := if_pos h

theorem toInt_ofInt (h : -2 ^ 63 ≤ z) (h' : z < 2 ^ 63) : toInt (ofInt z) = some z := by
  unfold ofInt
  split_ifs with hz
  · have hlt : z.toNat < 2 ^ 63 := by omega
    rw [ofNat, toInt, if_pos hlt, Int.toNat_of_nonneg hz]
  · have hlt : (-1 - z).toNat < 2 ^ 63 := by omega
    rw [toInt, if_pos hlt, Int.toNat_of_nonneg (by omega)]
    congr 1
    omega

theorem toBytes_ofBytes : toBytes (ofBytes b) = some b := rfl

theorem toList_ofList (h : ∀ x ∈ xs, read (write x) = some x) :
    toList read (ofList write xs) = some xs := by
  rw [ofList, toList]
  induction xs with
  | nil => rfl
  | cons x xs ih =>
    rw [List.map_cons, List.mapM_cons, h x List.mem_cons_self,
      ih fun y hy => h y (List.mem_cons_of_mem _ hy)]
    rfl

theorem orNull_of_some (h : read i = some x) (hi : ∀ w n, i ≠ .simple w n) :
    orNull read i = some (some x) := by
  unfold orNull
  split
  · exact absurd rfl (hi _ _)
  · rw [h, Option.map_some]

theorem short_ofNat (h : n < 2 ^ 64) : (ofNat n).Short := Item.all_iff.2 ⟨⟨h, rfl⟩, nofun⟩

theorem short_ofInt (h : -2 ^ 63 ≤ z) (h' : z < 2 ^ 63) : (ofInt z).Short := by
  unfold ofInt
  split_ifs with hz
  · exact short_ofNat (by omega)
  · exact Item.all_iff.2 ⟨⟨show (-1 - z).toNat < 2 ^ 64 by omega, rfl⟩, nofun⟩

theorem short_ofBytes (h : b.length < 2 ^ 64) : (ofBytes b).Short :=
  Item.all_iff.2 ⟨⟨h, rfl⟩, nofun⟩

theorem short_ofText (h : b.length < 2 ^ 64) : (ofText b).Short := Item.all_iff.2 ⟨⟨h, rfl⟩, nofun⟩

theorem short_ofList (hlen : xs.length < 2 ^ 64) (h : ∀ x ∈ xs, (write x).Short) :
    (ofList write xs).Short := by
  refine Item.all_iff.2 ⟨⟨?_, ?_⟩, fun c hc => ?_⟩
  · simpa [ofList, Item.arg] using hlen
  · simp [ofList, Item.arg, Item.width]
  · obtain ⟨x, hx, rfl⟩ := List.mem_map.1 hc
    exact h x hx

theorem short_ofPairs {fields : List (Item × Item)} (hlen : fields.length < 2 ^ 64)
    (h : ∀ f ∈ fields, f.1.Short ∧ f.2.Short) : (ofPairs fields).Short := by
  refine Item.all_iff.2 ⟨⟨hlen, rfl⟩, fun c hc => ?_⟩
  obtain ⟨f, hf, hc⟩ := List.mem_flatMap.1 hc
  rcases List.mem_pair.1 hc with rfl | rfl
  · exact (h f hf).1
  · exact (h f hf).2

theorem depth_ofInt : (ofInt z).depth = 1 := by
  unfold ofInt
  split_ifs <;> rfl

theorem depth_ofList_le (h : ∀ x ∈ xs, (write x).depth ≤ n) : (ofList write xs).depth ≤ n + 1 := by
  refine Item.depth_le_iff.2 fun c hc => ?_
  obtain ⟨x, hx, rfl⟩ := List.mem_map.1 hc
  exact h x hx

theorem depth_ofPairs_le {fields : List (Item × Item)}
    (h : ∀ f ∈ fields, f.1.depth ≤ n ∧ f.2.depth ≤ n) : (ofPairs fields).depth ≤ n + 1 := by
  refine Item.depth_le_iff.2 fun c hc => ?_
  obtain ⟨f, hf, hc⟩ := List.mem_flatMap.1 hc
  rcases List.mem_pair.1 hc with rfl | rfl
  · exact (h f hf).1
  · exact (h f hf).2

end Values

/-! ### Records -/

/-- The fields that are not left out. -/
def present (record : List (Bytes × Option Item)) : List (Bytes × Item) :=
  record.filterMap fun f => f.2.map fun value => (f.1, value)

/-- A record as a map. -/
def ofRecord (record : List (Bytes × Option Item)) : Item :=
  ofPairs ((present record).map fun f => (ofText f.1, f.2))

/-- The name of a field. -/
def toName : Item → Option Bytes
  | .string _ _ b => some b
  | _ => none

/-- The fields of a map. -/
def toFields : Item → Option (List (Bytes × Item))
  | .map _ fields => fields.mapM fun f => (toName f.1).map fun name => (name, f.2)
  | _ => none

section Records

variable {α : Type} {read : Item → Option α} {default : α} {record : List (Bytes × Option Item)}
  {name : Bytes} {o : Option Item} {value : Item} {n : ℕ}

/-- A field that must be there, once. -/
def need (fields : List (Bytes × Item)) (name : Bytes) (read : Item → Option α) : Option α :=
  match fields.filter fun f => f.1 = name with
  | [f] => read f.2
  | _ => none

/-- A field that may be left out, for which a default stands then. -/
def want (fields : List (Bytes × Item)) (name : Bytes) (default : α) (read : Item → Option α) :
    Option α :=
  match fields.filter fun f => f.1 = name with
  | [] => some default
  | [f] => read f.2
  | _ => none

theorem toFields_ofRecord : toFields (ofRecord record) = some (present record) := by
  unfold ofRecord ofPairs toFields
  dsimp only
  induction present record with
  | nil => rfl
  | cons f fields ih =>
    rw [List.map_cons, List.mapM_cons, ih]
    rfl

theorem filter_present (hnodup : (record.map Prod.fst).Nodup) (h : (name, o) ∈ record) :
    (present record).filter (fun f => f.1 = name) = o.toList.map fun value => (name, value) := by
  induction record with
  | nil => cases h
  | cons f record ih =>
    rw [List.map_cons, List.nodup_cons] at hnodup
    have hcons : present (f :: record) =
        (f.2.toList.map fun value => (f.1, value)) ++ present record := by
      cases hf : f.2 <;> simp [present, hf]
    rw [hcons, List.filter_append]
    rcases List.mem_cons.1 h with rfl | h
    · have hrest : (present record).filter (fun f => f.1 = name) = [] := by
        refine List.filter_eq_nil_iff.2 fun g hg => ?_
        obtain ⟨g', hg', heq⟩ := List.mem_filterMap.1 hg
        obtain ⟨value, -, rfl⟩ := Option.map_eq_some_iff.1 heq
        have hne : g'.1 ≠ name := fun heq => hnodup.1 (List.mem_map.2 ⟨g', hg', heq⟩)
        simpa using hne
      rw [hrest, List.append_nil]
      exact List.filter_eq_self.2 (by simp)
    · have hne : f.1 ≠ name := fun heq => hnodup.1 (List.mem_map.2 ⟨_, h, heq.symm⟩)
      have hfirst : (f.2.toList.map fun value => (f.1, value)).filter (fun f => f.1 = name) = [] :=
        List.filter_eq_nil_iff.2 fun g hg => by
          obtain ⟨value, -, rfl⟩ := List.mem_map.1 hg
          simpa using hne
      rw [hfirst, List.nil_append, ih hnodup.2 h]

/-- A field that is written is read. -/
theorem need_present (hnodup : (record.map Prod.fst).Nodup) (h : (name, some value) ∈ record) :
    need (present record) name read = read value := by
  unfold need
  rw [filter_present hnodup h]
  rfl

/-- A field that is written is read, and the default stands for one that is left out. -/
theorem want_present (hnodup : (record.map Prod.fst).Nodup) (h : (name, o) ∈ record) :
    want (present record) name default read = o.elim (some default) read := by
  unfold want
  rw [filter_present hnodup h]
  cases o <;> rfl

theorem mem_present {f : Bytes × Item} : f ∈ present record ↔ (f.1, some f.2) ∈ record := by
  unfold present
  rw [List.mem_filterMap]
  constructor
  · rintro ⟨g, hg, heq⟩
    obtain ⟨value, hvalue, rfl⟩ := Option.map_eq_some_iff.1 heq
    rwa [← hvalue]
  · exact fun h => ⟨_, h, rfl⟩

/-- A record in its shortest form, if its fields are. -/
theorem short_ofRecord (hlen : record.length < 2 ^ 64)
    (hnames : ∀ name ∈ record.map Prod.fst, name.length < 2 ^ 64)
    (h : ∀ f ∈ record, ∀ value ∈ f.2, value.Short) : (ofRecord record).Short := by
  refine short_ofPairs ?_ fun f hf => ?_
  · rw [List.length_map]
    exact (List.length_filterMap_le _ _).trans_lt hlen
  · obtain ⟨g, hg, rfl⟩ := List.mem_map.1 hf
    have hmem := mem_present.1 hg
    exact ⟨short_ofText (hnames _ (List.mem_map.2 ⟨_, hmem, rfl⟩)), h _ hmem _ rfl⟩

theorem depth_ofRecord_le (hn : 0 < n) (h : ∀ f ∈ record, ∀ value ∈ f.2, value.depth ≤ n) :
    (ofRecord record).depth ≤ n + 1 := by
  refine depth_ofPairs_le fun f hf => ?_
  obtain ⟨g, hg, rfl⟩ := List.mem_map.1 hf
  exact ⟨hn, h _ (mem_present.1 hg) _ rfl⟩

end Records

end Cbor
