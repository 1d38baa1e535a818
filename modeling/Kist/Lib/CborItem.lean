import Kist.Lib.Cbor

/-!
# CBOR items

The items of CBOR with definite lengths and without tags, each one with the width in which its
argument is spelled: their bytes, and the reader that finds an item in front of other bytes.

* `readItem_bytes`, `bytes_of_readItem`: reading is the inverse of spelling.
* `Item.All`: what holds of an item and of all items in it.
-/

namespace Cbor

/-- How the argument of an item is spelled: in its first byte, or in one to eight bytes behind
it. -/
inductive Width
  | tiny
  | one
  | two
  | four
  | eight
  deriving DecidableEq, Repr

namespace Width

/-- The number of bytes behind the first one. -/
def size : Width → ℕ
  | tiny => 0
  | one => 1
  | two => 2
  | four => 4
  | eight => 8

/-- The lowest five bits of the first byte. -/
def info : Width → ℕ → ℕ
  | tiny, n => n
  | one, _ => 24
  | two, _ => 25
  | four, _ => 26
  | eight, _ => 27

/-- The argument fits. -/
def Holds : Width → ℕ → Prop
  | tiny, n => n ≤ 23
  | w, n => n < 256 ^ w.size

instance : ∀ w n, Decidable (Holds w n)
  | tiny, n => inferInstanceAs (Decidable (n ≤ 23))
  | one, n => inferInstanceAs (Decidable (n < _))
  | two, n => inferInstanceAs (Decidable (n < _))
  | four, n => inferInstanceAs (Decidable (n < _))
  | eight, n => inferInstanceAs (Decidable (n < _))

/-- The least width that the argument fits in. -/
def shortest (n : ℕ) : Width :=
  if n ≤ 23 then tiny else if n < 2 ^ 8 then one else if n < 2 ^ 16 then two
  else if n < 2 ^ 32 then four else eight

/-- The width that goes with the lowest bits of a first byte. -/
def ofInfo (info : ℕ) : Option Width :=
  if info ≤ 23 then some tiny else if info = 24 then some one else if info = 25 then some two
  else if info = 26 then some four else if info = 27 then some eight else none

variable {w : Width} {n : ℕ}

theorem holds_shortest (h : n < 2 ^ 64) : (shortest n).Holds n := by
  unfold shortest
  split_ifs with h₁ h₂ h₃ h₄
  · exact h₁
  · exact h₂
  · exact h₃
  · exact h₄
  · exact h

theorem Holds.lt (h : w.Holds n) : n < 2 ^ 64 := by
  cases w <;> simp only [Holds, size] at h <;> omega

theorem Holds.info_lt (h : w.Holds n) : w.info n < 32 := by
  cases w <;> simp only [Holds, info] at h ⊢ <;> omega

theorem Holds.ofInfo (h : w.Holds n) : ofInfo (w.info n) = some w := by
  cases w
  case tiny => exact if_pos h
  all_goals rfl

theorem ofInfo_eq_some {info : ℕ} (h : ofInfo info = some w) :
    (w = tiny ∧ info ≤ 23) ∨ (w ≠ tiny ∧ ∀ n, w.info n = info) := by
  unfold Width.ofInfo at h
  split_ifs at h with h₁ h₂ h₃ h₄ h₅ <;> cases h
  · exact .inl ⟨rfl, h₁⟩
  · exact .inr ⟨nofun, fun _ => h₂.symm⟩
  · exact .inr ⟨nofun, fun _ => h₃.symm⟩
  · exact .inr ⟨nofun, fun _ => h₄.symm⟩
  · exact .inr ⟨nofun, fun _ => h₅.symm⟩

end Width

/-! ### Heads -/

/-- The head of an item whose argument is spelled in a width. -/
def wideHead (major : ℕ) (w : Width) (arg : ℕ) : Bytes :=
  UInt8.ofNat (major * 32 + w.info arg) :: beBytes w.size arg

/-- The major type of a head, its width and its argument, and what is behind it. -/
def readHead : Bytes → Option (ℕ × Width × ℕ × Bytes)
  | [] => none
  | first :: rest =>
    match Width.ofInfo (first.toNat % 32) with
    | none => none
    | some .tiny => some (first.toNat / 32, .tiny, first.toNat % 32, rest)
    | some w =>
      if rest.length < w.size then none
      else some (first.toNat / 32, w, ofBe (rest.take w.size), rest.drop w.size)

section Heads

variable {major arg k : ℕ} {w : Width} {rest bs : Bytes}

theorem ofBe_lt : ∀ bs : Bytes, ofBe bs < 256 ^ bs.length
  | [] => by simp [ofBe]
  | b :: bs => by
    have htail := ofBe_lt bs
    have hb : b.toNat + 1 ≤ 256 := b.toNat_lt
    rw [ofBe_cons, List.length_cons, pow_succ]
    nlinarith

/-- The bytes of the number that they spell. -/
theorem beBytes_ofBe : ∀ bs : Bytes, beBytes bs.length (ofBe bs) = bs
  | [] => rfl
  | b :: bs => by
    have hlt := ofBe_lt bs
    have hdiv : ofBe (b :: bs) / 256 ^ bs.length % 256 = b.toNat := by
      rw [ofBe_cons, Nat.add_comm, Nat.add_mul_div_right _ _ (by positivity), Nat.div_eq_of_lt hlt,
        Nat.zero_add]
      exact Nat.mod_eq_of_lt b.toNat_lt
    have hrest : ∀ k, k ≤ bs.length → beBytes k (ofBe (b :: bs)) = beBytes k (ofBe bs) := by
      intro k hk
      induction k with
      | zero => rfl
      | succ k ih =>
        have hpow : 256 ^ bs.length = 256 ^ k * (256 * 256 ^ (bs.length - (k + 1))) := by
          rw [← pow_succ', ← pow_add]
          congr 1
          omega
        have hdigit : ofBe (b :: bs) / 256 ^ k % 256 = ofBe bs / 256 ^ k % 256 := by
          rw [ofBe_cons, hpow, Nat.add_comm, show b.toNat * (256 ^ k * (256 * 256 ^ (bs.length -
            (k + 1)))) = 256 ^ k * (256 * (b.toNat * 256 ^ (bs.length - (k + 1)))) by ring,
            Nat.add_mul_div_left _ _ (by positivity), Nat.add_mul_mod_self_left]
        rw [beBytes, beBytes, hdigit, ih (by omega)]
    rw [List.length_cons, beBytes, hdiv, hrest _ le_rfl, beBytes_ofBe bs]
    simp

theorem readHead_wideHead (hmajor : major < 8) (h : w.Holds arg) :
    readHead (wideHead major w arg ++ rest) = some (major, w, arg, rest) := by
  have hinfo := h.info_lt
  have hfirst : (UInt8.ofNat (major * 32 + w.info arg)).toNat = major * 32 + w.info arg := by
    rw [UInt8.toNat_ofNat']
    omega
  rw [wideHead, List.cons_append, readHead, hfirst, show (major * 32 + w.info arg) % 32 = w.info arg
    by omega, show (major * 32 + w.info arg) / 32 = major by omega, h.ofInfo]
  have hwide : arg < 256 ^ w.size → ¬(beBytes w.size arg ++ rest).length < w.size ∧
      ofBe ((beBytes w.size arg ++ rest).take w.size) = arg ∧
      (beBytes w.size arg ++ rest).drop w.size = rest := fun harg =>
    ⟨by simp, by rw [List.take_left' length_beBytes, ofBe_beBytes harg],
      List.drop_left' length_beBytes⟩
  cases w with
  | tiny => rfl
  | one | two | four | eight =>
    obtain ⟨hlen, htake, hdrop⟩ := hwide h
    dsimp only
    rw [if_neg hlen, htake, hdrop]

/-- What `readHead` finds stands in front. -/
theorem wideHead_of_readHead {data : Bytes} (h : readHead data = some (major, w, arg, rest)) :
    data = wideHead major w arg ++ rest ∧ w.Holds arg ∧ major < 8 := by
  cases data with
  | nil => cases h
  | cons first data =>
    have hlt : first.toNat < 256 := first.toNat_lt
    rw [readHead] at h
    cases hw : Width.ofInfo (first.toNat % 32) with
    | none => rw [hw] at h; cases h
    | some w' =>
      rw [hw] at h
      have hspelled : ∀ n, w'.info n = first.toNat % 32 →
          UInt8.ofNat (first.toNat / 32 * 32 + w'.info n) = first := by
        intro n hn
        rw [hn, show first.toNat / 32 * 32 + first.toNat % 32 = first.toNat by omega]
        simp
      -- the argument is in the first byte, or in the bytes after it
      rcases Width.ofInfo_eq_some hw with ⟨rfl, hinfo⟩ | ⟨hne, hinfo⟩
      · cases h
        refine ⟨?_, hinfo, by omega⟩
        rw [wideHead, hspelled _ rfl]
        rfl
      · have h : (if data.length < w'.size then none
            else some (first.toNat / 32, w', ofBe (data.take w'.size), data.drop w'.size)) =
              some (major, w, arg, rest) := by
          cases w' with
          | tiny => exact absurd rfl hne
          | one | two | four | eight => exact h
        split_ifs at h with hlen
        cases h
        have htake : (data.take w.size).length = w.size := by
          rw [List.length_take]
          omega
        have hholds : ofBe (data.take w.size) < 256 ^ w.size := by
          have := ofBe_lt (data.take w.size)
          rwa [htake] at this
        refine ⟨?_, ?_, by omega⟩
        · have hbytes := beBytes_ofBe (data.take w.size)
          rw [htake] at hbytes
          rw [wideHead, hspelled _ (hinfo _), hbytes, List.cons_append, List.take_append_drop]
        · cases w with
          | tiny => exact absurd rfl hne
          | one | two | four | eight => exact hholds

end Heads

/-! ### Items -/

/-- An item: a number from zero up or from minus one down, a byte or text string, an array, a map,
or a simple value. A simple value of two to eight bytes is a floating-point number. -/
inductive Item
  | num (negative : Bool) (w : Width) (n : ℕ)
  | string (text : Bool) (w : Width) (b : Bytes)
  | array (w : Width) (items : List Item)
  | map (w : Width) (fields : List (Item × Item))
  | simple (w : Width) (n : ℕ)

namespace Item

/-- The major type. -/
def major : Item → ℕ
  | num negative _ _ => if negative then 1 else 0
  | string text _ _ => if text then 3 else 2
  | array _ _ => 4
  | map _ _ => 5
  | simple _ _ => 7

/-- The width of the argument. -/
def width : Item → Width
  | num _ w _ | string _ w _ | array w _ | map w _ | simple w _ => w

/-- The argument: a number, or a length. -/
def arg : Item → ℕ
  | num _ _ n | simple _ n => n
  | string _ _ b => b.length
  | array _ items => items.length
  | map _ fields => fields.length

/-- The items directly below. -/
def children : Item → List Item
  | array _ items => items
  | map _ fields => fields.flatMap fun f => [f.1, f.2]
  | _ => []

/-- The content of a string. -/
def payload : Item → Bytes
  | string _ _ b => b
  | _ => []

mutual

/-- The bytes of an item. -/
def bytes : Item → Bytes
  | num negative w n => wideHead (if negative then 1 else 0) w n
  | string text w b => wideHead (if text then 3 else 2) w b.length ++ b
  | array w items => wideHead 4 w items.length ++ itemBytes items
  | map w fields => wideHead 5 w fields.length ++ fieldBytes fields
  | simple w n => wideHead 7 w n

/-- The bytes of items one behind the other. -/
def itemBytes : List Item → Bytes
  | [] => []
  | i :: items => bytes i ++ itemBytes items

/-- The bytes of fields one behind the other. -/
def fieldBytes : List (Item × Item) → Bytes
  | [] => []
  | (key, value) :: fields => bytes key ++ bytes value ++ fieldBytes fields

end

mutual

/-- It holds of the item and of all items in it. -/
def All (P : Item → Prop) : Item → Prop
  | array w items => P (array w items) ∧ ItemsAll P items
  | map w fields => P (map w fields) ∧ FieldsAll P fields
  | num negative w n => P (num negative w n)
  | string text w b => P (string text w b)
  | simple w n => P (simple w n)

/-- It holds of all items in a list of them. -/
def ItemsAll (P : Item → Prop) : List Item → Prop
  | [] => True
  | i :: items => All P i ∧ ItemsAll P items

/-- It holds of all items in a list of fields. -/
def FieldsAll (P : Item → Prop) : List (Item × Item) → Prop
  | [] => True
  | (key, value) :: fields => (All P key ∧ All P value) ∧ FieldsAll P fields

end

mutual

/-- The levels of nesting. -/
def depth : Item → ℕ
  | array _ items => itemsDepth items + 1
  | map _ fields => fieldsDepth fields + 1
  | _ => 1

/-- The levels of nesting of a list of items. -/
def itemsDepth : List Item → ℕ
  | [] => 0
  | i :: items => max (depth i) (itemsDepth items)

/-- The levels of nesting of a list of fields. -/
def fieldsDepth : List (Item × Item) → ℕ
  | [] => 0
  | (key, value) :: fields => max (max (depth key) (depth value)) (fieldsDepth fields)

end

variable {i : Item} {items : List Item} {fields : List (Item × Item)} {P Q : Item → Prop} {n : ℕ}

theorem itemBytes_eq : ∀ items : List Item, itemBytes items = items.flatMap bytes
  | [] => rfl
  | i :: items => by rw [itemBytes, itemBytes_eq items, List.flatMap_cons]

theorem fieldBytes_eq : ∀ fields : List (Item × Item),
    fieldBytes fields = (fields.flatMap fun f => [f.1, f.2]).flatMap bytes
  | [] => rfl
  | (key, value) :: fields => by
    rw [fieldBytes, fieldBytes_eq fields]
    simp

theorem itemsAll_iff : ∀ {items : List Item}, ItemsAll P items ↔ ∀ i ∈ items, All P i
  | [] => by simp [ItemsAll]
  | i :: items => by simp [ItemsAll, @itemsAll_iff items]

theorem fieldsAll_iff : ∀ {fields : List (Item × Item)},
    FieldsAll P fields ↔ ∀ i ∈ fields.flatMap fun f => [f.1, f.2], All P i
  | [] => by simp [FieldsAll]
  | (key, value) :: fields => by
    rw [FieldsAll, fieldsAll_iff, List.flatMap_cons]
    simp [and_assoc]

theorem itemsDepth_le_iff : ∀ {items : List Item},
    itemsDepth items ≤ n ↔ ∀ i ∈ items, depth i ≤ n
  | [] => by simp [itemsDepth]
  | i :: items => by simp [itemsDepth, @itemsDepth_le_iff items]

theorem fieldsDepth_le_iff : ∀ {fields : List (Item × Item)},
    fieldsDepth fields ≤ n ↔ ∀ i ∈ fields.flatMap fun f => [f.1, f.2], depth i ≤ n
  | [] => by simp [fieldsDepth]
  | (key, value) :: fields => by
    rw [fieldsDepth, max_le_iff, max_le_iff, fieldsDepth_le_iff, List.flatMap_cons]
    simp [and_assoc]

/-- The bytes of an item: its head, the content of a string, and the items in it. -/
theorem bytes_eq : ∀ i : Item,
    i.bytes = wideHead i.major i.width i.arg ++ i.payload ++ i.children.flatMap bytes
  | num _ _ _ => by simp [bytes, major, width, arg, payload, children]
  | string _ _ _ => by simp [bytes, major, width, arg, payload, children]
  | array _ _ => by simp [bytes, major, width, arg, payload, children, itemBytes_eq]
  | map _ _ => by
    simp only [bytes, major, width, arg, payload, children, fieldBytes_eq, List.append_nil]
  | simple _ _ => by simp [bytes, major, width, arg, payload, children]

theorem all_iff : ∀ {i : Item}, i.All P ↔ P i ∧ ∀ c ∈ i.children, c.All P
  | num _ _ _ => by simp [All, children]
  | string _ _ _ => by simp [All, children]
  | array _ _ => by simp only [All, children, itemsAll_iff]
  | map _ _ => by simp only [All, children, fieldsAll_iff]
  | simple _ _ => by simp [All, children]

theorem depth_le_iff : ∀ {i : Item}, i.depth ≤ n + 1 ↔ ∀ c ∈ i.children, c.depth ≤ n
  | num _ _ _ => by simp [depth, children]
  | string _ _ _ => by simp [depth, children]
  | array _ _ => by simp only [depth, children, Nat.add_le_add_iff_right, itemsDepth_le_iff]
  | map _ _ => by simp only [depth, children, Nat.add_le_add_iff_right, fieldsDepth_le_iff]
  | simple _ _ => by simp [depth, children]

theorem depth_pos : ∀ i : Item, 0 < i.depth
  | num _ _ _ | string _ _ _ | simple _ _ => Nat.one_pos
  | array _ _ | map _ _ => Nat.succ_pos _

theorem major_lt : ∀ i : Item, i.major < 8
  | num negative _ _ => by cases negative <;> simp [major]
  | string text _ _ => by cases text <;> simp [major]
  | array _ _ | map _ _ | simple _ _ => by simp [major]

/-- What holds of an item whenever it holds of those in it, by the depth. -/
theorem childrenInduction (h : ∀ i : Item, (∀ c ∈ i.children, P c) → P i) (i : Item) : P i := by
  have hall : ∀ n, ∀ i : Item, i.depth ≤ n → P i := by
    intro n
    induction n with
    | zero => exact fun i hi => absurd i.depth_pos (by omega)
    | succ n ih => exact fun i hi => h i fun c hc => ih c (depth_le_iff.1 hi c hc)
  exact hall _ i le_rfl

theorem All.imp (h : i.All P) (hPQ : ∀ i, P i → Q i) : i.All Q := by
  induction i using childrenInduction with
  | h i ih =>
    rw [all_iff] at h ⊢
    exact ⟨hPQ i h.1, fun c hc => ih c hc (h.2 c hc)⟩

theorem all_and : i.All (fun i => P i ∧ Q i) ↔ i.All P ∧ i.All Q := by
  induction i using childrenInduction with
  | h i ih =>
    rw [all_iff, all_iff, @all_iff Q]
    constructor
    · rintro ⟨⟨hP, hQ⟩, hc⟩
      exact ⟨⟨hP, fun c hcm => ((ih c hcm).1 (hc c hcm)).1⟩, hQ, fun c hcm =>
        ((ih c hcm).1 (hc c hcm)).2⟩
    · rintro ⟨⟨hP, hPc⟩, hQ, hQc⟩
      exact ⟨⟨hP, hQ⟩, fun c hcm => (ih c hcm).2 ⟨hPc c hcm, hQc c hcm⟩⟩

/-- The arguments are spelled in widths that they fit in. -/
def Fits (i : Item) : Prop := i.All fun i => i.width.Holds i.arg

end Item

/-! ### Reading -/

/-- Read items one behind the other. -/
def readMany (read : Bytes → Option (Item × Bytes)) : ℕ → Bytes → Option (List Item × Bytes)
  | 0, data => some ([], data)
  | n + 1, data => do
    let (i, data) ← read data
    let (items, data) ← readMany read n data
    some (i :: items, data)

/-- Read fields one behind the other. -/
def readPairs (read : Bytes → Option (Item × Bytes)) : ℕ → Bytes →
    Option (List (Item × Item) × Bytes)
  | 0, data => some ([], data)
  | n + 1, data => do
    let (key, data) ← read data
    let (value, data) ← read data
    let (fields, data) ← readPairs read n data
    some ((key, value) :: fields, data)

/-- Read what is behind a head. -/
def readBody (read : Bytes → Option (Item × Bytes)) (major : ℕ) (w : Width) (arg : ℕ)
    (data : Bytes) : Option (Item × Bytes) :=
  match major with
  | 0 => some (.num false w arg, data)
  | 1 => some (.num true w arg, data)
  | 2 => if data.length < arg then none else some (.string false w (data.take arg), data.drop arg)
  | 3 => if data.length < arg then none else some (.string true w (data.take arg), data.drop arg)
  | 4 => (readMany read arg data).map fun r => (.array w r.1, r.2)
  | 5 => (readPairs read arg data).map fun r => (.map w r.1, r.2)
  | 7 => some (.simple w arg, data)
  | _ => none

/-- Read an item of at most so many levels in front of other bytes. -/
def readItem : ℕ → Bytes → Option (Item × Bytes)
  | 0, _ => none
  | n + 1, data =>
    match readHead data with
    | none => none
    | some (major, w, arg, data) => readBody (readItem n) major w arg data

section Read

variable {read : Bytes → Option (Item × Bytes)} {n arg major : ℕ} {w : Width} {i : Item}
  {items : List Item} {fields : List (Item × Item)} {data rest : Bytes}

theorem readMany_flatMap (h : ∀ i ∈ items, ∀ rest, read (i.bytes ++ rest) = some (i, rest)) :
    readMany read items.length (items.flatMap Item.bytes ++ rest) = some (items, rest) := by
  induction items with
  | nil => rfl
  | cons i items ih =>
    rw [List.length_cons, readMany, List.flatMap_cons, List.append_assoc, h i List.mem_cons_self]
    simp [ih fun j hj => h j (List.mem_cons_of_mem _ hj)]

theorem readPairs_flatMap (h : ∀ i ∈ fields.flatMap fun f => [f.1, f.2],
      ∀ rest, read (i.bytes ++ rest) = some (i, rest)) :
    readPairs read fields.length
      ((fields.flatMap fun f => [f.1, f.2]).flatMap Item.bytes ++ rest) = some (fields, rest) := by
  induction fields with
  | nil => rfl
  | cons f fields ih =>
    have hkey := h f.1 (by simp)
    have hvalue := h f.2 (by simp)
    have hrest := ih fun i hi => h i (by
      rw [List.flatMap_cons]
      exact List.mem_append_right _ hi)
    rw [List.flatMap_cons, List.flatMap_append]
    simp only [List.flatMap_cons, List.flatMap_nil, List.append_nil, List.append_assoc]
    rw [List.length_cons, readPairs]
    simp [hkey, hvalue, hrest]

/-- **Spelled items are read back.** -/
theorem readItem_bytes (hfits : i.Fits) (hdepth : i.depth ≤ n) (rest : Bytes) :
    readItem n (i.bytes ++ rest) = some (i, rest) := by
  induction n generalizing i rest with
  | zero => exact absurd i.depth_pos (by omega)
  | succ n ih =>
    obtain ⟨hholds, hchildren⟩ := Item.all_iff.1 hfits
    have hread : ∀ c ∈ i.children, ∀ rest, readItem n (c.bytes ++ rest) = some (c, rest) :=
      fun c hc => ih (hchildren c hc) (Item.depth_le_iff.1 hdepth c hc)
    rw [Item.bytes_eq, List.append_assoc, List.append_assoc, readItem,
      readHead_wideHead i.major_lt hholds]
    cases i with
    | num negative w n => cases negative <;> rfl
    | string text w b => cases text <;> simp [readBody, Item.major, Item.arg, Item.payload,
        Item.children, Item.width]
    | array w items =>
      have hitems := @readMany_flatMap _ items rest hread
      simp [readBody, Item.major, Item.arg, Item.payload, Item.width, Item.children, hitems]
    | map w fields =>
      simp [readBody, Item.major, Item.arg, Item.payload, Item.width, Item.children,
        readPairs_flatMap hread]
    | simple w n => rfl

theorem flatMap_of_readMany (hread : ∀ data i rest, read data = some (i, rest) →
      data = i.bytes ++ rest ∧ i.Fits ∧ i.depth ≤ n)
    (h : readMany read arg data = some (items, rest)) :
    data = items.flatMap Item.bytes ++ rest ∧ items.length = arg ∧
      ∀ i ∈ items, i.Fits ∧ i.depth ≤ n := by
  induction arg generalizing data items with
  | zero => cases h; simp
  | succ arg ih =>
    obtain ⟨⟨i, data₁⟩, hi, h⟩ := Option.bind_eq_some_iff.1 h
    obtain ⟨⟨items', data₂⟩, hitems, h⟩ := Option.bind_eq_some_iff.1 h
    cases h
    obtain ⟨rfl, hfits⟩ := hread _ _ _ hi
    obtain ⟨rfl, rfl, hall⟩ := ih hitems
    refine ⟨by simp, rfl, fun j hj => ?_⟩
    rcases List.mem_cons.1 hj with rfl | hj
    · exact hfits
    · exact hall j hj

theorem flatMap_of_readPairs (hread : ∀ data i rest, read data = some (i, rest) →
      data = i.bytes ++ rest ∧ i.Fits ∧ i.depth ≤ n)
    (h : readPairs read arg data = some (fields, rest)) :
    data = (fields.flatMap fun f => [f.1, f.2]).flatMap Item.bytes ++ rest ∧ fields.length = arg ∧
      ∀ i ∈ fields.flatMap fun f => [f.1, f.2], i.Fits ∧ i.depth ≤ n := by
  induction arg generalizing data fields with
  | zero => cases h; simp
  | succ arg ih =>
    obtain ⟨⟨key, data₁⟩, hkey, h⟩ := Option.bind_eq_some_iff.1 h
    obtain ⟨⟨value, data₂⟩, hvalue, h⟩ := Option.bind_eq_some_iff.1 h
    obtain ⟨⟨fields', data₃⟩, hfields, h⟩ := Option.bind_eq_some_iff.1 h
    cases h
    obtain ⟨rfl, hkfits⟩ := hread _ _ _ hkey
    obtain ⟨rfl, hvfits⟩ := hread _ _ _ hvalue
    obtain ⟨rfl, rfl, hall⟩ := ih hfields
    refine ⟨by simp, rfl, fun j hj => ?_⟩
    rw [List.flatMap_cons, List.mem_append] at hj
    rcases hj with hj | hj
    · rcases List.mem_pair.1 hj with rfl | rfl
      · exact hkfits
      · exact hvfits
    · exact hall j hj

/-- **What is read was spelled there.** -/
theorem bytes_of_readItem (h : readItem n data = some (i, rest)) :
    data = i.bytes ++ rest ∧ i.Fits ∧ i.depth ≤ n := by
  induction n generalizing data i rest with
  | zero => cases h
  | succ n ih =>
    rw [readItem] at h
    cases hhead : readHead data with
    | none => rw [hhead] at h; cases h
    | some r =>
      obtain ⟨major, w, arg, data₁⟩ := r
      rw [hhead] at h
      dsimp only at h
      obtain ⟨rfl, hholds, hmajor⟩ := wideHead_of_readHead hhead
      have hleaf : i.children = [] → i.width.Holds i.arg → i.Fits ∧ i.depth ≤ n + 1 := by
        intro hc hw
        exact ⟨Item.all_iff.2 ⟨hw, by simp [hc]⟩, Item.depth_le_iff.2 (by simp [hc])⟩
      -- one case per major type: the two integers, the two strings, the array, the map, the simple
      -- values
      unfold readBody at h
      split at h
      · cases h
        exact ⟨rfl, hleaf rfl hholds⟩
      · cases h
        exact ⟨rfl, hleaf rfl hholds⟩
      · split_ifs at h with hlen
        cases h
        have htake : (data₁.take arg).length = arg := by
          rw [List.length_take]
          omega
        refine ⟨?_, hleaf rfl (by simpa only [Item.width, Item.arg, htake] using hholds)⟩
        rw [Item.bytes, htake, List.append_assoc, List.take_append_drop]
        rfl
      · split_ifs at h with hlen
        cases h
        have htake : (data₁.take arg).length = arg := by
          rw [List.length_take]
          omega
        refine ⟨?_, hleaf rfl (by simpa only [Item.width, Item.arg, htake] using hholds)⟩
        rw [Item.bytes, htake, List.append_assoc, List.take_append_drop]
        rfl
      · obtain ⟨⟨items, rest'⟩, hitems, heq⟩ := Option.map_eq_some_iff.1 h
        cases heq
        obtain ⟨rfl, rfl, hall⟩ := flatMap_of_readMany (fun _ _ _ => ih) hitems
        exact ⟨by rw [Item.bytes, Item.itemBytes_eq, List.append_assoc],
          Item.all_iff.2 ⟨hholds, fun c hc => (hall c hc).1⟩,
          Item.depth_le_iff.2 fun c hc => (hall c hc).2⟩
      · obtain ⟨⟨fields, rest'⟩, hfields, heq⟩ := Option.map_eq_some_iff.1 h
        cases heq
        obtain ⟨rfl, rfl, hall⟩ := flatMap_of_readPairs (fun _ _ _ => ih) hfields
        exact ⟨by rw [Item.bytes, Item.fieldBytes_eq, List.append_assoc],
          Item.all_iff.2 ⟨hholds, fun c hc => (hall c hc).1⟩,
          Item.depth_le_iff.2 fun c hc => (hall c hc).2⟩
      · cases h
        exact ⟨rfl, hleaf rfl hholds⟩
      · cases h

/-- The bytes of an item tell where it ends. -/
theorem Item.bytes_append_inj {i' : Item} {rest' : Bytes} (hi : i.Fits) (hi' : i'.Fits)
    (h : i.bytes ++ rest = i'.bytes ++ rest') : i = i' ∧ rest = rest' := by
  have hread := readItem_bytes hi (le_max_left i.depth i'.depth) rest
  rw [h, readItem_bytes hi' (le_max_right i.depth i'.depth) rest'] at hread
  cases hread
  exact ⟨rfl, rfl⟩

end Read

end Cbor
