import Kist.Lib.CborRecord

/-!
# The shapes of values in CBOR

What a type reads of an item, and what of it the type leaves unread. A value that is read is a
number, a string or another simple value, and a field that is read stands once, so that
floating-point numbers and repeated keys can only be where nothing is read.

* `Shape.tidy_iff`: an item that has been read is free of floating-point numbers and repeated keys
  exactly if what is left unread in it is.
* `Shape.canonical_iff`: and it is canonical if its numbers and lengths are spelled in the least
  widths besides.
-/

namespace Cbor

namespace Item

/-- The argument of a number or a length is spelled in the least width. -/
def Shortest : Item → Prop
  | num _ w n => w = .shortest n
  | string _ w b => w = .shortest b.length
  | array w items => w = .shortest items.length
  | map w fields => w = .shortest fields.length
  | simple _ _ => True

/-- A floating-point number. -/
def Float : Item → Prop
  | simple w _ => 2 ≤ w.size
  | _ => False

/-- No key stands twice in the map. Where all arguments are spelled in the least widths, keys are
the same whenever their bytes are. -/
def DistinctKeys : Item → Prop
  | map _ fields => (fields.map fun f => f.1.bytes).Nodup
  | _ => True

/-- What the format asks of each item. -/
def Canonical (i : Item) : Prop := i.Shortest ∧ ¬i.Float ∧ i.DistinctKeys

/-- The part of it that is not about widths. -/
def Regular (i : Item) : Prop := ¬i.Float ∧ i.DistinctKeys

/-- The bytes of a byte string, which may be spelled as an array of numbers. -/
def content : Item → Option Bytes
  | string _ _ b => some b
  | i => (toList (toNat (2 ^ 8)) i).map fun ns => ns.map UInt8.ofNat

/-- A value in itself: a number, a string, or a simple value that is no floating-point number. -/
def Plain : Item → Prop
  | num _ _ _ => True
  | simple w _ => w.size < 2
  | i => ∃ b, i.content = some b

/-- `null` or `undefined`. -/
def Null : Item → Prop
  | simple w n => w.size < 2 ∧ (n = 22 ∨ n = 23)
  | _ => False

end Item

/-- What a type reads of an item: nothing, a value in itself, `null` or something else, the members
of an array, a map of byte strings without a key that stands twice, or the fields of a record that
it knows. -/
inductive Shape
  | ignored
  | plain
  | orNull (s : Shape)
  | list (s : Shape)
  | dict
  | record (known : Bytes → Bool) (field : Bytes → Shape)

/-- Every element of a list that has been gone through has a value, and every value is of an
element. -/
theorem forall₂_of_mapM {α β : Type} {f : α → Option β} {xs : List α} {ys : List β}
    (h : xs.mapM f = some ys) : List.Forall₂ (fun x y => f x = some y) xs ys := by
  induction xs generalizing ys with
  | nil =>
    cases h
    exact .nil
  | cons x xs ih =>
    rw [List.mapM_cons] at h
    obtain ⟨y, hy, h⟩ := Option.bind_eq_some_iff.1 h
    obtain ⟨ys', hys, h⟩ := Option.bind_eq_some_iff.1 h
    cases h
    exact .cons hy (ih hys)

theorem exists_of_mapM {α β : Type} {f : α → Option β} {xs : List α} {ys : List β}
    (h : xs.mapM f = some ys) (x : α) (hx : x ∈ xs) : ∃ y ∈ ys, f x = some y := by
  have hall := forall₂_of_mapM h
  clear h
  induction hall with
  | nil => cases hx
  | cons hxy _ ih =>
    rcases List.mem_cons.1 hx with rfl | hx
    · exact ⟨_, List.mem_cons_self, hxy⟩
    · obtain ⟨y, hy, hfy⟩ := ih hx
      exact ⟨y, List.mem_cons_of_mem _ hy, hfy⟩

namespace Shape

/-- The record with the given fields. -/
def fields (shapes : List (Bytes × Shape)) : Shape :=
  .record (fun name => (shapes.lookup name).isSome) fun name => (shapes.lookup name).getD .ignored

/-- An item that a type of the shape may be read from. -/
def Accepts : Shape → Item → Prop
  | .ignored, _ => True
  | .plain, i => i.Plain
  | .orNull s, i => i.Null ∨ s.Accepts i
  | .list s, .array _ items => ∀ c ∈ items, s.Accepts c
  | .dict, .map _ fields =>
      (∀ f ∈ fields, f.1.Plain ∧ f.2.Plain) ∧ (fields.map fun f => f.1.content).Nodup
  | .record known field, .map _ fields =>
      (∀ f ∈ fields, ∃ name, toName f.1 = some name ∧
        (known name = true → (field name).Accepts f.2)) ∧
      ((fields.filterMap fun f => toName f.1).filter known).Nodup
  | _, _ => False

/-- The fields that a record does not know. -/
def unknown (known : Bytes → Bool) (fields : List (Item × Item)) : List (Item × Item) :=
  fields.filter fun f => !(toName f.1).any known

/-- What is left unread of the item is free of floating-point numbers and repeated keys: the values
of the fields that are not known, whose names do not stand twice. -/
def Tidy : Shape → Item → Prop
  | .ignored, i => i.All Item.Regular
  | .orNull s, i => i.Null ∨ s.Tidy i
  | .list s, .array _ items => ∀ c ∈ items, s.Tidy c
  | .record known field, .map _ fields =>
      (∀ f ∈ fields, ∀ name, toName f.1 = some name → known name = true → (field name).Tidy f.2) ∧
      (∀ f ∈ unknown known fields, f.2.All Item.Regular) ∧
      ((unknown known fields).map fun f => f.1.bytes).Nodup
  | _, _ => True

section Tidy

variable {i : Item} {s : Shape} {w : Width} {items : List Item} {fields : List (Item × Item)}
  {known : Bytes → Bool} {b : Bytes} {name : Bytes}

theorem all_regular_num {negative : Bool} {n : ℕ} : (Item.num negative w n).All Item.Regular :=
  ⟨not_false, trivial⟩

theorem all_regular_string {text : Bool} : (Item.string text w b).All Item.Regular :=
  ⟨not_false, trivial⟩

theorem all_regular_simple {n : ℕ} (h : w.size < 2) : (Item.simple w n).All Item.Regular :=
  ⟨not_le.2 h, trivial⟩

theorem all_regular_array :
    (Item.array w items).All Item.Regular ↔ ∀ c ∈ items, c.All Item.Regular := by
  rw [Item.all_iff]
  exact ⟨fun h => h.2, fun h => ⟨⟨not_false, trivial⟩, h⟩⟩

theorem all_regular_map : (Item.map w fields).All Item.Regular ↔
    (fields.map fun f => f.1.bytes).Nodup ∧
      ∀ f ∈ fields, f.1.All Item.Regular ∧ f.2.All Item.Regular := by
  rw [Item.all_iff]
  constructor
  · rintro ⟨⟨-, hkeys⟩, hall⟩
    refine ⟨hkeys, fun f hf => ⟨hall _ ?_, hall _ ?_⟩⟩
    · exact List.mem_flatMap.2 ⟨f, hf, List.mem_cons_self⟩
    · exact List.mem_flatMap.2 ⟨f, hf, List.mem_pair.2 (.inr rfl)⟩
  · rintro ⟨hkeys, hall⟩
    refine ⟨⟨not_false, hkeys⟩, fun c hc => ?_⟩
    obtain ⟨f, hf, hc⟩ := List.mem_flatMap.1 hc
    rcases List.mem_pair.1 hc with rfl | rfl
    · exact (hall f hf).1
    · exact (hall f hf).2

/-- The members of a byte string spelled as an array are numbers. -/
theorem all_regular_of_content (h : i.content = some b) : i.All Item.Regular := by
  match i, h with
  | .string _ _ _, _ => exact all_regular_string
  | .array w items, h =>
    obtain ⟨ns, hns, -⟩ := Option.map_eq_some_iff.1 h
    refine all_regular_array.2 fun c hc => ?_
    obtain ⟨x, -, hx⟩ := exists_of_mapM hns c hc
    cases c <;> first | exact all_regular_num | cases hx

theorem all_regular_of_plain (h : i.Plain) : i.All Item.Regular := by
  match i, h with
  | .num _ _ _, _ => exact all_regular_num
  | .simple _ _, h => exact all_regular_simple h
  | .string _ _ _, _ => exact all_regular_string
  | .array _ _, ⟨_, h⟩ => exact all_regular_of_content h
  | .map _ _, ⟨_, h⟩ => cases h

theorem all_regular_of_null (h : i.Null) : i.All Item.Regular := by
  match i, h with
  | .simple _ _, h => exact all_regular_simple h.1

theorem all_regular_of_toName (h : toName i = some name) : i.All Item.Regular := by
  match i, h with
  | .string _ _ _, _ => exact all_regular_string

/-- Keys that are read as different names have different bytes. -/
theorem nodup_bytes {β : Type} {read : Item → β} (hfits : ∀ f ∈ fields, f.1.Fits)
    (h : (fields.map fun f => read f.1).Nodup) : (fields.map fun f => f.1.bytes).Nodup := by
  rw [List.Nodup, List.pairwise_map] at h ⊢
  refine h.imp_of_mem fun {f g} hf hg hne hbytes => hne ?_
  have happend : f.1.bytes ++ [] = g.1.bytes ++ [] := by rw [hbytes]
  rw [(Item.bytes_append_inj (hfits f hf) (hfits g hg) happend).1]

/-- A key stands twice among the fields of a record only where it is not known. -/
theorem nodup_bytes_of_unknown (hfits : ∀ f ∈ fields, f.1.Fits)
    (hnames : ∀ f ∈ fields, ∃ name, toName f.1 = some name)
    (honce : ((fields.filterMap fun f => toName f.1).filter known).Nodup)
    (h : ((unknown known fields).map fun f => f.1.bytes).Nodup) :
    (fields.map fun f => f.1.bytes).Nodup := by
  induction fields with
  | nil => exact List.nodup_nil
  | cons f fields ih =>
    obtain ⟨hf, hfits⟩ := List.forall_mem_cons.1 hfits
    obtain ⟨⟨name, hname⟩, hnames⟩ := List.forall_mem_cons.1 hnames
    rw [List.filterMap_cons, hname] at honce
    dsimp only at honce
    -- another field with the same key has the same name, and is known if this one is
    have hsame : ∀ g ∈ fields, g.1.bytes = f.1.bytes → toName g.1 = some name := by
      intro g hg hbytes
      have happend : g.1.bytes ++ [] = f.1.bytes ++ [] := by rw [hbytes]
      rw [(Item.bytes_append_inj (hfits g hg) hf happend).1, hname]
    rw [List.map_cons, List.nodup_cons]
    rcases hknown : known name with _ | _
    · rw [List.filter_cons_of_neg (by simp [hknown])] at honce
      have hcons : unknown known (f :: fields) = f :: unknown known fields :=
        List.filter_cons_of_pos (by simp [hname, hknown])
      rw [hcons, List.map_cons, List.nodup_cons] at h
      refine ⟨fun hmem => h.1 ?_, ih hfits hnames honce h.2⟩
      obtain ⟨g, hg, hbytes⟩ := List.mem_map.1 hmem
      refine List.mem_map.2 ⟨g, List.mem_filter.2 ⟨hg, ?_⟩, hbytes⟩
      simp [hsame g hg hbytes, hknown]
    · rw [List.filter_cons_of_pos hknown, List.nodup_cons] at honce
      have hcons : unknown known (f :: fields) = unknown known fields :=
        List.filter_cons_of_neg (by simp [hname, hknown])
      rw [hcons] at h
      refine ⟨fun hmem => honce.1 ?_, ih hfits hnames honce.2 h⟩
      obtain ⟨g, hg, hbytes⟩ := List.mem_map.1 hmem
      exact List.mem_filter.2 ⟨List.mem_filterMap.2 ⟨g, hg, hsame g hg hbytes⟩, hknown⟩

theorem fits_of_map (h : (Item.map w fields).Fits) : ∀ f ∈ fields, f.1.Fits ∧ f.2.Fits :=
  fun f hf => ⟨(Item.all_iff.1 h).2 _ (List.mem_flatMap.2 ⟨f, hf, List.mem_cons_self⟩),
    (Item.all_iff.1 h).2 _ (List.mem_flatMap.2 ⟨f, hf, List.mem_pair.2 (.inr rfl)⟩)⟩

/-- **Reading** leaves floating-point numbers and repeated keys only where it does not look. -/
theorem tidy_iff (hfits : i.Fits) (h : s.Accepts i) : i.All Item.Regular ↔ s.Tidy i := by
  induction s generalizing i with
  | ignored => exact Iff.rfl
  | plain =>
    refine iff_of_true (all_regular_of_plain h) ?_
    cases i <;> trivial
  | orNull s ih =>
    rcases h with h | h
    · exact iff_of_true (all_regular_of_null h) (.inl h)
    · refine (ih hfits h).trans ⟨.inr, fun ht => ht.elim (fun hnull => ?_) id⟩
      exact (ih hfits h).1 (all_regular_of_null hnull)
  | list s ih =>
    match i, h with
    | .array w items, h =>
      rw [all_regular_array]
      exact forall₂_congr fun c hc => ih ((Item.all_iff.1 hfits).2 c hc) (h c hc)
  -- the reader turns a repeated key of a table away, so nothing more is asked of one
  | dict =>
    match i, h with
    | .map w fields, ⟨hplain, hkeys⟩ =>
      refine iff_of_true (all_regular_map.2 ⟨?_, fun f hf => ?_⟩) trivial
      · exact nodup_bytes (fun f hf => (fits_of_map hfits f hf).1) hkeys
      · exact ⟨all_regular_of_plain (hplain f hf).1, all_regular_of_plain (hplain f hf).2⟩
  -- the fields the reader knows are tidy by their own shapes; the unread ones have to be regular
  -- themselves and name no field twice
  | record known field ih =>
    match i, h with
    | .map w fields, ⟨hfields, honce⟩ =>
      have hnames : ∀ f ∈ fields, ∃ name, toName f.1 = some name := fun f hf =>
        (hfields f hf).imp fun _ h => h.1
      rw [all_regular_map]
      constructor
      · rintro ⟨hkeys, hall⟩
        refine ⟨fun f hf name hname hknown => ?_,
          fun f hf => (hall f (List.mem_filter.1 hf).1).2, ?_⟩
        · obtain ⟨name', hname', haccepts⟩ := hfields f hf
          cases hname.symm.trans hname'
          exact (ih name (fits_of_map hfits f hf).2 (haccepts hknown)).1 (hall f hf).2
        · exact hkeys.sublist (List.filter_sublist.map _)
      · rintro ⟨hread, hunread, hkeys⟩
        refine ⟨?_, fun f hf => ?_⟩
        · exact nodup_bytes_of_unknown (fun f hf => (fits_of_map hfits f hf).1) hnames honce hkeys
        obtain ⟨name, hname, haccepts⟩ := hfields f hf
        refine ⟨all_regular_of_toName hname, ?_⟩
        by_cases hknown : known name = true
        · exact (ih name (fits_of_map hfits f hf).2 (haccepts hknown)).2
            (hread f hf name hname hknown)
        · exact hunread f (List.mem_filter.2 ⟨hf, by simp [hname, hknown]⟩)

/-- An item that has been read is canonical exactly if its numbers and lengths are spelled in the
least widths and what is left unread is tidy. -/
theorem canonical_iff (hfits : i.Fits) (h : s.Accepts i) :
    i.All Item.Canonical ↔ i.All Item.Shortest ∧ s.Tidy i := by
  rw [← tidy_iff hfits h]
  exact Item.all_and

end Tidy

/-! ### Readers -/

/-- What the reader reads is of the shape. -/
def Reads {α : Type} (s : Shape) (read : Item → Option α) : Prop :=
  ∀ i x, read i = some x → s.Accepts i

section Readers

variable {α : Type} {i : Item} {s : Shape} {read : Item → Option α} {bound : ℕ} {x default : α}
  {fs : List (Bytes × Item)} {name : Bytes}

theorem reads_toNat : plain.Reads (toNat bound) := by
  intro i x h
  match i, h with
  | .num false _ _, _ => trivial

theorem reads_toInt : plain.Reads toInt := by
  intro i x h
  match i, h with
  | .num false _ _, _ => trivial
  | .num true _ _, _ => trivial

theorem reads_toBytes : plain.Reads toBytes := by
  intro i x h
  match i, h with
  | .string false _ b, _ => exact ⟨b, rfl⟩

theorem Reads.bind {β : Type} (h : s.Reads read) (f : α → Option β) :
    s.Reads fun i => (read i).bind f := by
  intro i y hy
  obtain ⟨x, hx, -⟩ := Option.bind_eq_some_iff.1 hy
  exact h i x hx

theorem Reads.orNull (h : s.Reads read) : (Shape.orNull s).Reads (Cbor.orNull read) := by
  intro i x hx
  unfold Cbor.orNull at hx
  split at hx
  · exact .inl ⟨by decide, .inl rfl⟩
  · obtain ⟨y, hy, -⟩ := Option.map_eq_some_iff.1 hx
    exact .inr (h _ y hy)

theorem Reads.toList (h : s.Reads read) : (Shape.list s).Reads (Cbor.toList read) := by
  intro i xs hxs
  match i, hxs with
  | .array w items, hxs =>
    simp only [Cbor.toList] at hxs
    intro c hc
    obtain ⟨x, -, hx⟩ := exists_of_mapM hxs c hc
    exact h c x hx

/-- The field stands at most once, and it is of the shape. -/
def Looked (fs : List (Bytes × Item)) (f : Bytes × Shape) : Prop :=
  (fs.filter fun g => g.1 = f.1).length ≤ 1 ∧ ∀ g ∈ fs, g.1 = f.1 → f.2.Accepts g.2

theorem mem_of_lookup {shapes : List (Bytes × Shape)} (h : shapes.lookup name = some s) :
    (name, s) ∈ shapes := by
  obtain ⟨l₁, l₂, rfl, -⟩ := List.lookup_eq_some_iff.1 h
  exact List.mem_append_right _ List.mem_cons_self

theorem looked_of_need (h : s.Reads read) (hx : need fs name read = some x) :
    Looked fs (name, s) := by
  unfold need at hx
  split at hx
  case h_1 f hf =>
    refine ⟨by rw [hf]; rfl, fun g hg hname => ?_⟩
    have hmem : g ∈ [f] := by
      rw [← hf]
      exact List.mem_filter.2 ⟨hg, decide_eq_true hname⟩
    rw [List.mem_singleton.1 hmem]
    exact h _ x hx
  case h_2 => cases hx

theorem looked_of_want (h : s.Reads read) (hx : want fs name default read = some x) :
    Looked fs (name, s) := by
  unfold want at hx
  split at hx
  case h_1 hnone =>
    refine ⟨by rw [hnone]; exact Nat.zero_le 1, fun g hg hname => ?_⟩
    exact absurd (decide_eq_true hname) (List.filter_eq_nil_iff.1 hnone g hg)
  case h_2 f hf => exact looked_of_need h (by unfold need; rw [hf]; exact hx)
  case h_3 => cases hx

/-- A record whose fields have been looked at is of the shape that they make up. -/
theorem accepts_fields {shapes : List (Bytes × Shape)} (hfs : toFields i = some fs)
    (h : ∀ f ∈ shapes, Looked fs f) : (fields shapes).Accepts i := by
  match i, hfs with
  | .map w items, hfs =>
    -- the names of the fields as items are the names of the fields as read
    have hnames : ∀ {items fs}, List.Forall₂ (fun (f : Item × Item) (g : Bytes × Item) =>
        (toName f.1).map (fun name => (name, f.2)) = some g) items fs →
          (items.filterMap fun f => toName f.1) = fs.map Prod.fst := by
      intro items fs hall
      induction hall with
      | nil => rfl
      | cons hf _ ih =>
        obtain ⟨name, hname, rfl⟩ := Option.map_eq_some_iff.1 hf
        rw [List.filterMap_cons, hname, List.map_cons, ← ih]
    have hlooked : ∀ name s, shapes.lookup name = some s → Looked fs (name, s) :=
      fun _ _ hs => h _ (mem_of_lookup hs)
    refine ⟨fun f hf => ?_, ?_⟩
    · obtain ⟨g, hg, hfg⟩ := exists_of_mapM hfs f hf
      obtain ⟨name, hname, rfl⟩ := Option.map_eq_some_iff.1 hfg
      refine ⟨name, hname, fun hknown => ?_⟩
      obtain ⟨s, hs⟩ := Option.isSome_iff_exists.1 hknown
      dsimp only
      rw [hs, Option.getD_some]
      exact (hlooked name s hs).2 _ hg rfl
    · rw [hnames (forall₂_of_mapM hfs), List.nodup_iff_count_le_one]
      intro name
      rw [List.count, List.countP_filter, List.countP_map, List.countP_eq_length_filter]
      cases hs : shapes.lookup name with
      | none =>
        refine (congrArg List.length (List.filter_eq_nil_iff.2 fun g _ hg => ?_)).trans_le
          zero_le_one
        obtain ⟨hname, hknown⟩ := Bool.and_eq_true_iff.1 hg
        rw [eq_of_beq hname, hs] at hknown
        cases hknown
      | some s =>
        refine (List.Sublist.length_le ?_).trans (hlooked name s hs).1
        refine List.monotone_filter_right fs fun g hg => decide_eq_true ?_
        exact eq_of_beq (Bool.and_eq_true_iff.1 hg).1

end Readers

end Shape

end Cbor
