import Kist.Format.CborDecode
import Kist.Format.IndexBlob
import Kist.Format.Tree
import Kist.Lib.CborRecord

/-!
# The encoding of trees

`kist-format::tree` as CBOR: a tree and its entries are records whose fields stand in the order of
their declaration, and a field that has its default is left out.

* `parseTree_encode`: what is encoded is parsed again, so that two trees with the same encoding, and
  with it two trees of the same name, are the same.
-/

namespace Kist

open Cbor

/-- The name of a field, in ASCII. -/
def ascii (name : List Char) : Bytes := name.map fun c => UInt8.ofNat c.toNat

/-- The 32 bytes of a name. -/
def ofId (id : ℕ) : Item := ofBytes (idBytes id)

/-- `Deserialize` of a name: 32 bytes. -/
def toId (i : Item) : Option ℕ :=
  (toBytes i).bind fun b => if b.length = 32 then some (ofBe b) else none

/-- The value of `node_type`. -/
def NodeType.code : NodeType → ℕ
  | .file => 0
  | .dir => 1
  | .symlink => 2

/-- The value of `meta_kind`. -/
def MetaKind.code : MetaKind → ℕ
  | .posix => 0
  | .sftp => 1
  | .s3 => 2
  | .generic => 3

/-- The value of `content_type`. -/
def ContentType.code : ContentType → ℕ
  | .direct => 0
  | .indirect => 1

/-- The node type of a byte. -/
def toNodeType (i : Item) : Option NodeType :=
  (toNat (2 ^ 8) i).bind fun n =>
    if n = 0 then some .file else if n = 1 then some .dir else if n = 2 then some .symlink else none

/-- The metadata kind of a byte. -/
def toMetaKind (i : Item) : Option MetaKind :=
  (toNat (2 ^ 8) i).bind fun n =>
    if n = 0 then some .posix else if n = 1 then some .sftp else if n = 2 then some .s3
    else if n = 3 then some .generic else none

/-- The content type of a byte. -/
def toContentType (i : Item) : Option ContentType :=
  (toNat (2 ^ 8) i).bind fun n =>
    if n = 0 then some .direct else if n = 1 then some .indirect else none

/-! ### Extended attributes -/

/-- The extended attributes as a map. -/
def ofXattrs (xs : List (Bytes × Bytes)) : Item :=
  ofPairs (xs.map fun x => (ofBytes x.1, ofBytes x.2))

/-- The loop of `de_xattrs_strict`: a key that is there already is an error. -/
def insertXattrs : List (Bytes × Bytes) → List (Bytes × Bytes) → Option (List (Bytes × Bytes))
  | map, [] => some map
  | map, x :: xs =>
    if x.1 ∈ map.map Prod.fst then none
    else insertXattrs (map.orderedInsert (fun a b => a.1 ≤ b.1) x) xs

/-- `de_xattrs_strict`. -/
def toXattrs : Item → Option (Option (List (Bytes × Bytes)))
  | .map _ fields => do
    let xs ← fields.mapM fun f => do return (← toBytes f.1, ← toBytes f.2)
    (insertXattrs [] xs).map some
  | _ => none

/-! ### Entries and trees -/

/-- A value that is left out where it is the default. -/
def unlessDefault {α : Type} [DecidableEq α] (default : α) (write : α → Item) (x : α) :
    Option Item :=
  if x = default then none else some (write x)

/-- A value that is left out where it is absent or empty. -/
def unlessAbsent {α : Type} (write : List α → Item) : Option (List α) → Option Item
  | none | some [] => none
  | some xs => some (write xs)

/-- `Serialize` of `Entry`. -/
def Entry.record (e : Entry) : List (Bytes × Option Item) :=
  [(ascii ['n'], some (ofBytes e.name)),
    (ascii ['t'], some (ofNat e.kind.code)),
    (ascii ['m', 'k'], some (ofNat e.metaKind.code)),
    (ascii ['s', 'i', 'z', 'e'], unlessDefault 0 ofNat e.size),
    (ascii ['t', 'a', 'r', 'g', 'e', 't'], unlessDefault [] ofBytes e.target),
    (ascii ['c', 't'], unlessDefault .direct (fun c => ofNat c.code) e.content),
    (ascii ['c', 'h', 'u', 'n', 'k', 's'], unlessDefault [] (ofList ofId) e.chunks),
    (ascii ['t', 'r', 'e', 'e'], unlessDefault TreeId.zero ofId e.subtree),
    (ascii ['m', 'o', 'd', 'e'], e.mode.map ofNat),
    (ascii ['u', 'i', 'd'], e.uid.map ofNat),
    (ascii ['g', 'i', 'd'], e.gid.map ofNat),
    (ascii ['m', 't', 'i', 'm', 'e'], e.mtimeNs.map ofInt),
    (ascii ['c', 't', 'i', 'm', 'e'], e.ctimeNs.map ofInt),
    (ascii ['d', 'e', 'v'], e.dev.map ofNat),
    (ascii ['i', 'n', 'o'], e.inode.map ofNat),
    (ascii ['n', 'l', 'i', 'n', 'k'], e.nlink.map ofNat),
    (ascii ['x', 'a', 't', 't', 'r', 's'], unlessAbsent ofXattrs e.xattrs),
    (ascii ['e', 't', 'a', 'g'], unlessAbsent ofBytes e.etag),
    (ascii ['v', 'e', 'r', 'n'], unlessAbsent ofBytes e.vern)]

/-- `Deserialize` of `Entry`, from its fields. -/
def Entry.ofFields (fs : List (Bytes × Item)) : Option Entry := do
  let name ← need fs (ascii ['n']) toBytes
  let kind ← need fs (ascii ['t']) toNodeType
  let metaKind ← need fs (ascii ['m', 'k']) toMetaKind
  let size ← want fs (ascii ['s', 'i', 'z', 'e']) 0 (toNat (2 ^ 64))
  let target ← want fs (ascii ['t', 'a', 'r', 'g', 'e', 't']) [] toBytes
  let content ← want fs (ascii ['c', 't']) .direct toContentType
  let chunks ← want fs (ascii ['c', 'h', 'u', 'n', 'k', 's']) [] (toList toId)
  let subtree ← want fs (ascii ['t', 'r', 'e', 'e']) TreeId.zero toId
  let mode ← want fs (ascii ['m', 'o', 'd', 'e']) none (orNull (toNat (2 ^ 32)))
  let uid ← want fs (ascii ['u', 'i', 'd']) none (orNull (toNat (2 ^ 32)))
  let gid ← want fs (ascii ['g', 'i', 'd']) none (orNull (toNat (2 ^ 32)))
  let mtimeNs ← want fs (ascii ['m', 't', 'i', 'm', 'e']) none (orNull toInt)
  let ctimeNs ← want fs (ascii ['c', 't', 'i', 'm', 'e']) none (orNull toInt)
  let dev ← want fs (ascii ['d', 'e', 'v']) none (orNull (toNat (2 ^ 64)))
  let inode ← want fs (ascii ['i', 'n', 'o']) none (orNull (toNat (2 ^ 64)))
  let nlink ← want fs (ascii ['n', 'l', 'i', 'n', 'k']) none (orNull (toNat (2 ^ 64)))
  let xattrs ← want fs (ascii ['x', 'a', 't', 't', 'r', 's']) none toXattrs
  let etag ← want fs (ascii ['e', 't', 'a', 'g']) none (orNull toBytes)
  let vern ← want fs (ascii ['v', 'e', 'r', 'n']) none (orNull toBytes)
  return { name, kind, metaKind, size, target, content, chunks, subtree, mode, uid, gid, mtimeNs,
           ctimeNs, dev, inode, nlink, xattrs, etag, vern }

/-- `Serialize` of `Entry`. -/
def Entry.toItem (e : Entry) : Item := ofRecord e.record

/-- `Deserialize` of `Entry`. -/
def Entry.ofItem (i : Item) : Option Entry := (toFields i).bind Entry.ofFields

/-- The fields of `Tree`. -/
def Tree.record (t : Tree) : List (Bytes × Option Item) :=
  [(ascii ['v'], some (ofNat t.version)),
    (ascii ['e', 'n', 't', 'r', 'i', 'e', 's'], some (ofList Entry.toItem t.entries)),
    (ascii ['p', 'r', 'e', 'v'], t.prev.map ofId)]

/-- `Serialize` of `Tree`. -/
def Tree.toItem (t : Tree) : Item := ofRecord t.record

/-- `Deserialize` of `Tree`. -/
def Tree.ofItem (i : Item) : Option Tree := do
  let fs ← toFields i
  let version ← need fs (ascii ['v']) (toNat (2 ^ 32))
  let entries ← need fs (ascii ['e', 'n', 't', 'r', 'i', 'e', 's']) (toList Entry.ofItem)
  let prev ← want fs (ascii ['p', 'r', 'e', 'v']) none (orNull toId)
  return ⟨version, entries, prev⟩

/-! ### Values of the source's types -/

/-- The fields of an entry are of the types that they have in the source, and its optional byte
strings and maps are absent or not empty. -/
structure Entry.Typed (e : Entry) : Prop where
  name : e.name.length < 2 ^ 63
  size : e.size < 2 ^ 64
  target : e.target.length < 2 ^ 63
  chunks : e.chunks.length < 2 ^ 63
  chunkIds : ∀ c ∈ e.chunks, c < 256 ^ 32
  subtree : e.subtree < 256 ^ 32
  mode : ∀ n ∈ e.mode, n < 2 ^ 32
  uid : ∀ n ∈ e.uid, n < 2 ^ 32
  gid : ∀ n ∈ e.gid, n < 2 ^ 32
  mtimeNs : ∀ z ∈ e.mtimeNs, -2 ^ 63 ≤ z ∧ z < 2 ^ 63
  ctimeNs : ∀ z ∈ e.ctimeNs, -2 ^ 63 ≤ z ∧ z < 2 ^ 63
  dev : ∀ n ∈ e.dev, n < 2 ^ 64
  inode : ∀ n ∈ e.inode, n < 2 ^ 64
  nlink : ∀ n ∈ e.nlink, n < 2 ^ 64
  xattrs : ∀ xs ∈ e.xattrs, xs ≠ [] ∧ xs.length < 2 ^ 63 ∧ (xs.Pairwise fun a b => a.1 < b.1) ∧
    ∀ x ∈ xs, x.1.length < 2 ^ 63 ∧ x.2.length < 2 ^ 63
  etag : ∀ b ∈ e.etag, b ≠ [] ∧ b.length < 2 ^ 63
  vern : ∀ b ∈ e.vern, b ≠ [] ∧ b.length < 2 ^ 63

/-- The fields of a tree are of the types that they have in the source. -/
structure Tree.Typed (t : Tree) : Prop where
  version : t.version < 2 ^ 32
  count : t.entries.length < 2 ^ 63
  entries : ∀ e ∈ t.entries, e.Typed
  prev : ∀ id ∈ t.prev, id < 256 ^ 32

/-! ### Values are read back -/

section Values

variable {α : Type} {x default : α} {write : α → Item} {read : Item → Option α} {o : Option α}
  {id : ℕ} {xs : List (Bytes × Bytes)}

theorem toId_ofId (h : id < 256 ^ 32) : toId (ofId id) = some id := by
  have hlen : (idBytes id).length = 32 := length_beBytes
  have hread : ofBe (idBytes id) = id := ofBe_beBytes h
  rw [toId, ofId, toBytes_ofBytes, Option.bind_some, if_pos hlen, hread]

theorem toNodeType_code (k : NodeType) : toNodeType (ofNat k.code) = some k := by
  cases k <;> rfl

theorem toMetaKind_code (k : MetaKind) : toMetaKind (ofNat k.code) = some k := by
  cases k <;> rfl

theorem toContentType_code (c : ContentType) : toContentType (ofNat c.code) = some c := by
  cases c <;> rfl

theorem elim_unlessDefault [DecidableEq α] (h : read (write x) = some x) :
    (unlessDefault default write x).elim (some default) read = some x := by
  unfold unlessDefault
  split_ifs with hx
  · rw [hx]
    rfl
  · exact h

theorem elim_map_orNull (h : ∀ x ∈ o, read (write x) = some x ∧ ∀ w n, write x ≠ .simple w n) :
    (o.map write).elim (some none) (orNull read) = some o := by
  cases o with
  | none => rfl
  | some x => exact orNull_of_some (h x rfl).1 (h x rfl).2

theorem elim_unlessAbsent {o : Option (List α)} {write : List α → Item}
    {read : Item → Option (Option (List α))}
    (h : ∀ xs ∈ o, xs ≠ [] ∧ read (write xs) = some (some xs)) :
    (unlessAbsent write o).elim (some none) read = some o := by
  cases o with
  | none => rfl
  | some xs =>
    obtain ⟨hne, hread⟩ := h xs rfl
    cases xs with
    | nil => exact absurd rfl hne
    | cons x xs => exact hread

theorem ofInt_ne_simple (z : ℤ) (w : Width) (n : ℕ) : ofInt z ≠ .simple w n := by
  unfold ofInt
  split_ifs <;> exact nofun

/-- Keys in increasing order go in one behind the other. -/
theorem insertXattrs_append {map : List (Bytes × Bytes)}
    (h : (map ++ xs).Pairwise fun a b => a.1 < b.1) : insertXattrs map xs = some (map ++ xs) := by
  induction xs generalizing map with
  | nil => rw [List.append_nil]; rfl
  | cons x xs ih =>
    have hbefore : ∀ y ∈ map, y.1 < x.1 := fun y hy =>
      (List.pairwise_append.1 h).2.2 y hy x List.mem_cons_self
    have hnew : x.1 ∉ map.map Prod.fst := by
      intro hx
      obtain ⟨y, hy, heq⟩ := List.mem_map.1 hx
      exact (hbefore y hy).ne heq
    have hinsert : map.orderedInsert (fun a b => a.1 ≤ b.1) x = map ++ [x] := by
      clear ih h hnew
      induction map with
      | nil => rfl
      | cons y map ih =>
        have hy : ¬x.1 ≤ y.1 := not_le.2 (hbefore y List.mem_cons_self)
        rw [List.orderedInsert, if_neg hy, ih fun z hz => hbefore z (List.mem_cons_of_mem _ hz)]
        rfl
    rw [insertXattrs, if_neg hnew, hinsert, ih (by simpa using h)]
    simp

theorem toXattrs_ofXattrs (h : xs.Pairwise fun a b => a.1 < b.1) :
    toXattrs (ofXattrs xs) = some (some xs) := by
  have hread : (xs.map fun x => (ofBytes x.1, ofBytes x.2)).mapM
      (fun f : Item × Item => do return (← toBytes f.1, ← toBytes f.2)) = some xs := by
    clear h
    induction xs with
    | nil => rfl
    | cons x xs ih =>
      rw [List.map_cons, List.mapM_cons, ih]
      rfl
  rw [ofXattrs, ofPairs, toXattrs, hread]
  exact congrArg (Option.map some) (insertXattrs_append (show ([] ++ xs).Pairwise _ from h))

end Values

/-! ### Records are read back -/

/-- The names of the fields of an entry. -/
def Entry.fieldNames : List Bytes :=
  [ascii ['n'], ascii ['t'], ascii ['m', 'k'], ascii ['s', 'i', 'z', 'e'],
    ascii ['t', 'a', 'r', 'g', 'e', 't'], ascii ['c', 't'], ascii ['c', 'h', 'u', 'n', 'k', 's'],
    ascii ['t', 'r', 'e', 'e'], ascii ['m', 'o', 'd', 'e'], ascii ['u', 'i', 'd'],
    ascii ['g', 'i', 'd'], ascii ['m', 't', 'i', 'm', 'e'], ascii ['c', 't', 'i', 'm', 'e'],
    ascii ['d', 'e', 'v'], ascii ['i', 'n', 'o'], ascii ['n', 'l', 'i', 'n', 'k'],
    ascii ['x', 'a', 't', 't', 'r', 's'], ascii ['e', 't', 'a', 'g'], ascii ['v', 'e', 'r', 'n']]

theorem Entry.nodup_record (e : Entry) : (e.record.map Prod.fst).Nodup :=
  show Entry.fieldNames.Nodup by decide

theorem Entry.ofItem_toItem {e : Entry} (h : e.Typed) : Entry.ofItem e.toItem = some e := by
  have hfield : ∀ (i : ℕ) f, e.record[i]? = some f → f ∈ e.record := fun _ _ => List.mem_of_getElem?
  have hneed : ∀ (i : ℕ) {α : Type} {name value} {read : Item → Option α},
      e.record[i]? = some (name, some value) → need (present e.record) name read = read value :=
    fun i _ _ _ _ hi => need_present e.nodup_record (hfield i _ hi)
  have hwant : ∀ (i : ℕ) {α : Type} {name o} {default : α} {read : Item → Option α},
      e.record[i]? = some (name, o) →
        want (present e.record) name default read = o.elim (some default) read :=
    fun i _ _ _ _ _ hi => want_present e.nodup_record (hfield i _ hi)
  have hnat : ∀ {o : Option ℕ} {bound : ℕ}, (∀ n ∈ o, n < bound) →
      (o.map ofNat).elim (some none) (orNull (toNat bound)) = some o := fun ho =>
    elim_map_orNull fun n hn => ⟨toNat_ofNat (ho n hn), fun _ _ => nofun⟩
  have hint : ∀ {o : Option ℤ}, (∀ z ∈ o, -2 ^ 63 ≤ z ∧ z < 2 ^ 63) →
      (o.map ofInt).elim (some none) (orNull toInt) = some o := fun ho =>
    elim_map_orNull fun z hz => ⟨toInt_ofInt (ho z hz).1 (ho z hz).2, ofInt_ne_simple z⟩
  have hbytes : ∀ {o : Option Bytes}, (∀ b ∈ o, b ≠ [] ∧ b.length < 2 ^ 63) →
      (unlessAbsent ofBytes o).elim (some none) (orNull toBytes) = some o := fun ho =>
    elim_unlessAbsent fun b hb => ⟨(ho b hb).1, orNull_of_some toBytes_ofBytes fun _ _ => nofun⟩
  rw [Entry.toItem, Entry.ofItem, toFields_ofRecord, Option.bind_some, Entry.ofFields,
    hneed 0 rfl, hneed 1 rfl, hneed 2 rfl, hwant 3 rfl, hwant 4 rfl, hwant 5 rfl, hwant 6 rfl,
    hwant 7 rfl, hwant 8 rfl, hwant 9 rfl, hwant 10 rfl, hwant 11 rfl, hwant 12 rfl, hwant 13 rfl,
    hwant 14 rfl, hwant 15 rfl, hwant 16 rfl, hwant 17 rfl, hwant 18 rfl,
    toBytes_ofBytes, toNodeType_code, toMetaKind_code, elim_unlessDefault (toNat_ofNat h.size),
    elim_unlessDefault toBytes_ofBytes, elim_unlessDefault (toContentType_code _),
    elim_unlessDefault (toList_ofList fun c hc => toId_ofId (h.chunkIds c hc)),
    elim_unlessDefault (toId_ofId h.subtree), hnat h.mode, hnat h.uid, hnat h.gid, hint h.mtimeNs,
    hint h.ctimeNs, hnat h.dev, hnat h.inode, hnat h.nlink,
    elim_unlessAbsent fun xs hxs =>
      ⟨(h.xattrs xs hxs).1, toXattrs_ofXattrs (h.xattrs xs hxs).2.2.1⟩,
    hbytes h.etag, hbytes h.vern]
  rfl

theorem Tree.nodup_record (t : Tree) : (t.record.map Prod.fst).Nodup :=
  show [ascii ['v'], ascii ['e', 'n', 't', 'r', 'i', 'e', 's'], ascii ['p', 'r', 'e', 'v']].Nodup by
    decide

theorem Tree.ofItem_toItem {t : Tree} (h : t.Typed) : Tree.ofItem t.toItem = some t := by
  have hfield : ∀ (i : ℕ) f, t.record[i]? = some f → f ∈ t.record := fun _ _ => List.mem_of_getElem?
  have hprev : (t.prev.map ofId).elim (some none) (orNull toId) = some t.prev :=
    elim_map_orNull fun id hid => ⟨toId_ofId (h.prev id hid), fun _ _ => nofun⟩
  rw [Tree.toItem, Tree.ofItem, toFields_ofRecord]
  dsimp only [bind, Option.bind]
  rw [need_present t.nodup_record (hfield 0 _ rfl), need_present t.nodup_record (hfield 1 _ rfl),
    want_present t.nodup_record (hfield 2 _ rfl), toNat_ofNat h.version,
    toList_ofList fun e he => Entry.ofItem_toItem (h.entries e he), hprev]
  rfl

/-! ### Records are short -/

section Short

variable {α : Type} {x default : α} {write : α → Item} {o : Option α} {P : Item → Prop}

theorem forall_unlessDefault [DecidableEq α] (h : P (write x)) :
    ∀ i ∈ unlessDefault default write x, P i := by
  unfold unlessDefault
  split_ifs
  · exact nofun
  · rintro i ⟨⟩
    exact h

theorem forall_map (h : ∀ x ∈ o, P (write x)) : ∀ i ∈ o.map write, P i := by
  intro i hi
  obtain ⟨x, hx, rfl⟩ := Option.map_eq_some_iff.1 hi
  exact h x hx

theorem forall_unlessAbsent {o : Option (List α)} {write : List α → Item}
    (h : ∀ xs ∈ o, P (write xs)) : ∀ i ∈ unlessAbsent write o, P i := by
  intro i hi
  match o with
  | none | some [] => cases hi
  | some (x :: xs) =>
    cases hi
    exact h _ rfl

theorem forall_some {i : Item} (h : P i) : ∀ j ∈ some i, P j := by
  rintro j ⟨⟩
  exact h

theorem short_ofId (id : ℕ) : (ofId id).Short :=
  short_ofBytes (by
    rw [idBytes, length_beBytes]
    norm_num)

end Short

/-- An entry in its shortest form has three levels. -/
theorem Entry.short_toItem {e : Entry} (h : e.Typed) : e.toItem.Short ∧ e.toItem.depth ≤ 3 := by
  have hbytes : ∀ b : Bytes, b.length < 2 ^ 63 → (ofBytes b).Short ∧ (ofBytes b).depth ≤ 2 :=
    fun b hb => ⟨short_ofBytes (by omega), by simp [ofBytes, Item.depth]⟩
  have hnat : ∀ n < 2 ^ 64, (ofNat n).Short ∧ (ofNat n).depth ≤ 2 :=
    fun n hn => ⟨short_ofNat hn, by simp [ofNat, Item.depth]⟩
  have hint : ∀ z : ℤ, -2 ^ 63 ≤ z ∧ z < 2 ^ 63 → (ofInt z).Short ∧ (ofInt z).depth ≤ 2 :=
    fun z hz => ⟨short_ofInt hz.1 hz.2, by simp [depth_ofInt]⟩
  have hid : ∀ id, (ofId id).Short ∧ (ofId id).depth ≤ 1 :=
    fun id => ⟨short_ofId id, by simp [ofId, ofBytes, Item.depth]⟩
  have hchunks : (ofList ofId e.chunks).Short ∧ (ofList ofId e.chunks).depth ≤ 2 :=
    ⟨short_ofList (by have := h.chunks; omega) fun c _ => (hid c).1,
      depth_ofList_le fun c _ => (hid c).2⟩
  have hxattrs : ∀ xs ∈ e.xattrs, (ofXattrs xs).Short ∧ (ofXattrs xs).depth ≤ 2 := by
    intro xs hxs
    obtain ⟨-, hlen, -, hall⟩ := h.xattrs xs hxs
    have hpair : ∀ f ∈ xs.map fun x => (ofBytes x.1, ofBytes x.2),
        (f.1.Short ∧ f.2.Short) ∧ f.1.depth ≤ 1 ∧ f.2.depth ≤ 1 := by
      intro f hf
      obtain ⟨x, hx, rfl⟩ := List.mem_map.1 hf
      obtain ⟨hk, hv⟩ := hall x hx
      exact ⟨⟨short_ofBytes (by omega), short_ofBytes (by omega)⟩, by simp [ofBytes, Item.depth]⟩
    exact ⟨short_ofPairs (by rw [List.length_map]; omega) fun f hf => (hpair f hf).1,
      depth_ofPairs_le fun f hf => (hpair f hf).2⟩
  have hsmall : ∀ {n : ℕ}, n < 2 ^ 32 → n < 2 ^ 64 := fun hn => by omega
  have hall : ∀ f ∈ e.record, ∀ i ∈ f.2, i.Short ∧ i.depth ≤ 2 := by
    simp only [Entry.record, List.forall_mem_cons]
    exact ⟨forall_some (hbytes _ h.name),
      forall_some (hnat _ (by cases e.kind <;> simp [NodeType.code])),
      forall_some (hnat _ (by cases e.metaKind <;> simp [MetaKind.code])),
      forall_unlessDefault (hnat _ h.size), forall_unlessDefault (hbytes _ h.target),
      forall_unlessDefault (hnat _ (by cases e.content <;> simp [ContentType.code])),
      forall_unlessDefault hchunks,
      forall_unlessDefault ⟨(hid _).1, (hid _).2.trans (by norm_num)⟩,
      forall_map fun n hn => hnat n (hsmall (h.mode n hn)),
      forall_map fun n hn => hnat n (hsmall (h.uid n hn)),
      forall_map fun n hn => hnat n (hsmall (h.gid n hn)),
      forall_map fun z hz => hint z (h.mtimeNs z hz),
        forall_map fun z hz => hint z (h.ctimeNs z hz),
      forall_map fun n hn => hnat n (h.dev n hn), forall_map fun n hn => hnat n (h.inode n hn),
      forall_map fun n hn => hnat n (h.nlink n hn), forall_unlessAbsent hxattrs,
      forall_unlessAbsent fun b hb => hbytes b (h.etag b hb).2,
      forall_unlessAbsent fun b hb => hbytes b (h.vern b hb).2, List.forall_mem_nil _⟩
  exact ⟨short_ofRecord (show 19 < 2 ^ 64 by norm_num)
      (show ∀ name ∈ Entry.fieldNames, name.length < 2 ^ 64 by decide) fun f hf i hi =>
        (hall f hf i hi).1,
    depth_ofRecord_le (by norm_num) fun f hf i hi => (hall f hf i hi).2⟩

/-- A tree in its shortest form has five levels. -/
theorem Tree.short_toItem {t : Tree} (h : t.Typed) : t.toItem.Short ∧ t.toItem.depth ≤ 5 := by
  have hentries : (ofList Entry.toItem t.entries).Short ∧
      (ofList Entry.toItem t.entries).depth ≤ 4 :=
    ⟨short_ofList (by have := h.count; omega) fun e he => (Entry.short_toItem (h.entries e he)).1,
      depth_ofList_le fun e he => (Entry.short_toItem (h.entries e he)).2⟩
  have hall : ∀ f ∈ t.record, ∀ i ∈ f.2, i.Short ∧ i.depth ≤ 4 := by
    simp only [Tree.record, List.forall_mem_cons]
    exact ⟨forall_some ⟨short_ofNat (by have := h.version; omega), by simp [ofNat, Item.depth]⟩,
      forall_some hentries,
      forall_map fun id _ => ⟨short_ofId id, by simp [ofId, ofBytes, Item.depth]⟩,
      List.forall_mem_nil _⟩
  exact ⟨short_ofRecord (show 3 < 2 ^ 64 by norm_num)
      (show ∀ name ∈ [ascii ['v'], ascii ['e', 'n', 't', 'r', 'i', 'e', 's'],
        ascii ['p', 'r', 'e', 'v']], name.length < 2 ^ 64 by decide) fun f hf i hi =>
        (hall f hf i hi).1,
    depth_ofRecord_le (by norm_num) fun f hf i hi => (hall f hf i hi).2⟩

/-! ### Trees are parsed again -/

/-- What goes wrong with the bytes of a tree. -/
inductive ParseError
  | decode (msg : String)
  | format (e : FormatError)
  deriving DecidableEq, Repr

namespace CborLib

variable (lib : CborLib)

/-- `cbor::encode` of a tree. -/
def encodeTree (t : Tree) : Bytes := lib.write t.toItem

/-- `parse_tree`. -/
def parseTree (data : Bytes) : Except ParseError Tree :=
  match decodeCbor (lib.fromReader Tree.ofItem) data with
  | .error msg => .error (.decode msg)
  | .ok t =>
    match t.validate with
    | .error e => .error (.format e)
    | .ok () => .ok t

variable {lib} {t t' : Tree}

theorem Faithful.decode_encodeTree (h : lib.Faithful) (ht : t.Typed) :
    decodeCbor (lib.fromReader Tree.ofItem) (lib.encodeTree t) = .ok t :=
  h.decodeCbor_write (Tree.short_toItem ht).1
    ((Tree.short_toItem ht).2.trans (by unfold maxStructureDepth; norm_num))
    (Tree.ofItem_toItem ht)

theorem Faithful.parseTree_encodeTree (h : lib.Faithful) (ht : t.Typed)
    (hvalid : t.validate = .ok ()) : lib.parseTree (lib.encodeTree t) = .ok t := by
  rw [parseTree, h.decode_encodeTree ht]
  simp only [hvalid]

theorem Faithful.encodeTree_inj (h : lib.Faithful) (ht : t.Typed) (ht' : t'.Typed)
    (heq : lib.encodeTree t = lib.encodeTree t') : t = t' := by
  have hdecode := h.decode_encodeTree ht
  rw [heq, h.decode_encodeTree ht'] at hdecode
  exact (Except.ok.inj hdecode).symm

end CborLib

/-- **Trees** are parsed as they were encoded, so different trees have different encodings, and
different names. -/
theorem parseTree_encode (lib : CborLib) (h : lib.Faithful) :
    (∀ t : Tree, t.Typed → t.validate = .ok () → lib.parseTree (lib.encodeTree t) = .ok t) ∧
    (∀ t t' : Tree, t.Typed → t'.Typed → lib.encodeTree t = lib.encodeTree t' → t = t') ∧
    ∀ treeId : Bytes → TreeId, Function.Injective treeId → ∀ t t' : Tree, t.Typed → t'.Typed →
      treeId (lib.encodeTree t) = treeId (lib.encodeTree t') → t = t' :=
  ⟨fun _ ht hvalid => h.parseTree_encodeTree ht hvalid,
    fun _ _ ht ht' heq => h.encodeTree_inj ht ht' heq,
    fun _ hinj _ _ ht ht' heq => h.encodeTree_inj ht ht' (hinj heq)⟩

/-- A tree with a file that has an extended attribute, behind another tree. -/
def attributeTree : Tree where
  version := formatVersion
  entries := [{ name := [97], kind := .file, metaKind := .posix, size := 5, chunks := [3],
                mode := some 0o100644, uid := some 0, gid := some 0, mtimeNs := some (-1),
                xattrs := some [([117], [])] }]
  prev := some 9

theorem typed_attributeTree : attributeTree.Typed where
  version := by decide
  count := by decide
  entries e he := by
    rw [List.mem_singleton.1 he]
    exact ⟨by decide, by decide, by decide, by decide, by decide, by decide, by simp, by simp,
      by simp, by simp, by simp, by simp, by simp, by simp,
      by rintro xs ⟨⟩; exact ⟨by decide, by decide, by decide, by decide⟩, by simp, by simp⟩
  prev := by simp [attributeTree]

theorem parseTree_encode_attributeTree :
    CborLib.exact.parseTree (CborLib.exact.encodeTree attributeTree) = .ok attributeTree :=
  (parseTree_encode .exact CborLib.faithful_exact).1 attributeTree typed_attributeTree (by decide)

end Kist
