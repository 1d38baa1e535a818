import Kist.Format.Pack
import Kist.Format.Parity
import Kist.Format.TreeCodec

/-!
# What is decoded beyond what is permitted

The types that are read from CBOR keep to shapes: `Deserialize` takes the fields that it knows, each
once, and leaves the others unread.

* `decode_permitted_iff`: what is decoded is permitted exactly if all lengths and numbers are as
  short as they can be, and what the type leaves unread has neither floating-point numbers nor
  repeated keys.
-/

namespace Kist

open Cbor

/-! ### Trees -/

/-- What is read of a field of an entry. -/
def Entry.shapes : List (Bytes × Shape) :=
  [(ascii ['n'], .plain), (ascii ['t'], .plain), (ascii ['m', 'k'], .plain),
    (ascii ['s', 'i', 'z', 'e'], .plain), (ascii ['t', 'a', 'r', 'g', 'e', 't'], .plain),
    (ascii ['c', 't'], .plain), (ascii ['c', 'h', 'u', 'n', 'k', 's'], .list .plain),
    (ascii ['t', 'r', 'e', 'e'], .plain), (ascii ['m', 'o', 'd', 'e'], .orNull .plain),
    (ascii ['u', 'i', 'd'], .orNull .plain), (ascii ['g', 'i', 'd'], .orNull .plain),
    (ascii ['m', 't', 'i', 'm', 'e'], .orNull .plain),
    (ascii ['c', 't', 'i', 'm', 'e'], .orNull .plain), (ascii ['d', 'e', 'v'], .orNull .plain),
    (ascii ['i', 'n', 'o'], .orNull .plain), (ascii ['n', 'l', 'i', 'n', 'k'], .orNull .plain),
    (ascii ['x', 'a', 't', 't', 'r', 's'], .dict), (ascii ['e', 't', 'a', 'g'], .orNull .plain),
    (ascii ['v', 'e', 'r', 'n'], .orNull .plain)]

/-- What is read of a tree. -/
def Tree.shape : Shape :=
  .fields [(ascii ['v'], .plain),
    (ascii ['e', 'n', 't', 'r', 'i', 'e', 's'], .list (.fields Entry.shapes)),
    (ascii ['p', 'r', 'e', 'v'], .orNull .plain)]

theorem reads_toId : Shape.plain.Reads toId := Shape.reads_toBytes.bind _

/-- The loop refuses a key that is there already. -/
theorem nodup_of_insertXattrs {map xs ys : List (Bytes × Bytes)}
    (h : insertXattrs map xs = some ys) :
    (xs.map Prod.fst).Nodup ∧ ∀ x ∈ xs, x.1 ∉ map.map Prod.fst := by
  induction xs generalizing map with
  | nil => exact ⟨List.nodup_nil, nofun⟩
  | cons x xs ih =>
    rw [insertXattrs] at h
    split_ifs at h with hx
    obtain ⟨hnodup, hrest⟩ := ih h
    have hkeys : ∀ y ∈ xs, y.1 ≠ x.1 ∧ y.1 ∉ map.map Prod.fst := by
      intro y hy
      have hperm := (List.perm_orderedInsert (fun a b : Bytes × Bytes => a.1 ≤ b.1) x
        map).map Prod.fst
      have hnot := mt hperm.mem_iff.2 (hrest y hy)
      rw [List.map_cons, List.mem_cons, not_or] at hnot
      exact hnot
    refine ⟨?_, List.forall_mem_cons.2 ⟨hx, fun y hy => (hkeys y hy).2⟩⟩
    rw [List.map_cons, List.nodup_cons]
    refine ⟨fun hmem => ?_, hnodup⟩
    obtain ⟨y, hy, heq⟩ := List.mem_map.1 hmem
    exact (hkeys y hy).1 heq

theorem reads_toNodeType : Shape.plain.Reads toNodeType := Shape.reads_toNat.bind _

theorem reads_toMetaKind : Shape.plain.Reads toMetaKind := Shape.reads_toNat.bind _

theorem reads_toContentType : Shape.plain.Reads toContentType := Shape.reads_toNat.bind _

theorem content_of_toBytes {i : Item} {b : Bytes} (h : toBytes i = some b) :
    i.content = some b := by
  match i, h with
  | .string false _ _, h => exact h

theorem content_of_forall₂ {fields : List (Item × Item)} {xs : List (Bytes × Bytes)}
    (h : List.Forall₂ (fun f x => toBytes f.1 = some x.1) fields xs) :
    (fields.map fun f => f.1.content) = (xs.map Prod.fst).map some := by
  induction h with
  | nil => rfl
  | cons hf _ ih =>
    rw [List.map_cons, content_of_toBytes hf, ih]
    rfl

theorem reads_toXattrs : Shape.dict.Reads toXattrs := by
  intro i o ho
  match i, ho with
  | .map w fields, ho =>
    obtain ⟨xs, hxs, ho⟩ := Option.bind_eq_some_iff.1 ho
    obtain ⟨ys, hys, -⟩ := Option.map_eq_some_iff.1 ho
    have hfield : ∀ (f : Item × Item) (x : Bytes × Bytes),
        (do return (← toBytes f.1, ← toBytes f.2)) = some x →
          toBytes f.1 = some x.1 ∧ toBytes f.2 = some x.2 := by
      intro f x hfx
      obtain ⟨key, hkey, hfx⟩ := Option.bind_eq_some_iff.1 hfx
      obtain ⟨value, hvalue, hfx⟩ := Option.bind_eq_some_iff.1 hfx
      cases hfx
      exact ⟨hkey, hvalue⟩
    refine ⟨fun f hf => ?_, ?_⟩
    · obtain ⟨x, -, hx⟩ := exists_of_mapM hxs f hf
      obtain ⟨hkey, hvalue⟩ := hfield f x hx
      exact ⟨Shape.reads_toBytes _ _ hkey, Shape.reads_toBytes _ _ hvalue⟩
    · rw [content_of_forall₂ ((forall₂_of_mapM hxs).imp fun f x hx => (hfield f x hx).1)]
      exact (nodup_of_insertXattrs hys).1.map (Option.some_injective _)

theorem Entry.reads_ofItem : (Shape.fields Entry.shapes).Reads Entry.ofItem := by
  intro i e he
  obtain ⟨fs, hfs, he⟩ := Option.bind_eq_some_iff.1 he
  obtain ⟨_, hname, he⟩ := Option.bind_eq_some_iff.1 he
  obtain ⟨_, hkind, he⟩ := Option.bind_eq_some_iff.1 he
  obtain ⟨_, hmetaKind, he⟩ := Option.bind_eq_some_iff.1 he
  obtain ⟨_, hsize, he⟩ := Option.bind_eq_some_iff.1 he
  obtain ⟨_, htarget, he⟩ := Option.bind_eq_some_iff.1 he
  obtain ⟨_, hcontent, he⟩ := Option.bind_eq_some_iff.1 he
  obtain ⟨_, hchunks, he⟩ := Option.bind_eq_some_iff.1 he
  obtain ⟨_, hsubtree, he⟩ := Option.bind_eq_some_iff.1 he
  obtain ⟨_, hmode, he⟩ := Option.bind_eq_some_iff.1 he
  obtain ⟨_, huid, he⟩ := Option.bind_eq_some_iff.1 he
  obtain ⟨_, hgid, he⟩ := Option.bind_eq_some_iff.1 he
  obtain ⟨_, hmtime, he⟩ := Option.bind_eq_some_iff.1 he
  obtain ⟨_, hctime, he⟩ := Option.bind_eq_some_iff.1 he
  obtain ⟨_, hdev, he⟩ := Option.bind_eq_some_iff.1 he
  obtain ⟨_, hinode, he⟩ := Option.bind_eq_some_iff.1 he
  obtain ⟨_, hnlink, he⟩ := Option.bind_eq_some_iff.1 he
  obtain ⟨_, hxattrs, he⟩ := Option.bind_eq_some_iff.1 he
  obtain ⟨_, hetag, he⟩ := Option.bind_eq_some_iff.1 he
  obtain ⟨_, hvern, he⟩ := Option.bind_eq_some_iff.1 he
  have hnat : ∀ bound, (Shape.orNull .plain).Reads (orNull (toNat bound)) :=
    fun _ => Shape.reads_toNat.orNull
  have hint : (Shape.orNull .plain).Reads (orNull toInt) := Shape.reads_toInt.orNull
  have hbytes : (Shape.orNull .plain).Reads (orNull toBytes) := Shape.reads_toBytes.orNull
  refine Shape.accepts_fields hfs ?_
  simp only [Entry.shapes, List.forall_mem_cons]
  exact ⟨Shape.looked_of_need Shape.reads_toBytes hname,
    Shape.looked_of_need reads_toNodeType hkind,
    Shape.looked_of_need reads_toMetaKind hmetaKind, Shape.looked_of_want Shape.reads_toNat hsize,
    Shape.looked_of_want Shape.reads_toBytes htarget,
    Shape.looked_of_want reads_toContentType hcontent,
    Shape.looked_of_want reads_toId.toList hchunks, Shape.looked_of_want reads_toId hsubtree,
    Shape.looked_of_want (hnat _) hmode, Shape.looked_of_want (hnat _) huid,
    Shape.looked_of_want (hnat _) hgid, Shape.looked_of_want hint hmtime,
    Shape.looked_of_want hint hctime, Shape.looked_of_want (hnat _) hdev,
    Shape.looked_of_want (hnat _) hinode, Shape.looked_of_want (hnat _) hnlink,
    Shape.looked_of_want reads_toXattrs hxattrs, Shape.looked_of_want hbytes hetag,
    Shape.looked_of_want hbytes hvern, nofun⟩

theorem Tree.reads_ofItem : Tree.shape.Reads Tree.ofItem := by
  intro i t ht
  obtain ⟨fs, hfs, ht⟩ := Option.bind_eq_some_iff.1 ht
  obtain ⟨_, hversion, ht⟩ := Option.bind_eq_some_iff.1 ht
  obtain ⟨_, hentries, ht⟩ := Option.bind_eq_some_iff.1 ht
  obtain ⟨_, hprev, -⟩ := Option.bind_eq_some_iff.1 ht
  refine Shape.accepts_fields hfs ?_
  simp only [List.forall_mem_cons]
  exact ⟨Shape.looked_of_need Shape.reads_toNat hversion,
    Shape.looked_of_need Entry.reads_ofItem.toList hentries,
    Shape.looked_of_want reads_toId.orNull hprev, nofun⟩

/-! ### Trailers and sidecars -/

/-- What is read of the trailer of a pack. -/
def PackFile.PackTrailer.shape : Shape :=
  .fields [(ascii ['v'], .plain),
    (ascii ['e', 'n', 't', 'r', 'i', 'e', 's'],
      .list (.fields [(ascii ['i'], .plain), (ascii ['o'], .plain), (ascii ['l'], .plain),
        (ascii ['r'], .plain)]))]

theorem PackFile.PackTrailer.reads_ofItem :
    PackFile.PackTrailer.shape.Reads PackFile.PackTrailer.ofItem := by
  have hentry : (Shape.fields [(ascii ['i'], .plain), (ascii ['o'], .plain), (ascii ['l'], .plain),
      (ascii ['r'], .plain)]).Reads PackFile.entryOfItem := by
    intro i e he
    obtain ⟨fs, hfs, he⟩ := Option.bind_eq_some_iff.1 he
    obtain ⟨_, hid, he⟩ := Option.bind_eq_some_iff.1 he
    obtain ⟨_, hoffset, he⟩ := Option.bind_eq_some_iff.1 he
    obtain ⟨_, hlength, he⟩ := Option.bind_eq_some_iff.1 he
    obtain ⟨_, hrawLen, -⟩ := Option.bind_eq_some_iff.1 he
    refine Shape.accepts_fields hfs ?_
    simp only [List.forall_mem_cons]
    exact ⟨Shape.looked_of_need reads_toId hid, Shape.looked_of_need Shape.reads_toNat hoffset,
      Shape.looked_of_need Shape.reads_toNat hlength,
        Shape.looked_of_need Shape.reads_toNat hrawLen,
      nofun⟩
  intro i t ht
  obtain ⟨fs, hfs, ht⟩ := Option.bind_eq_some_iff.1 ht
  obtain ⟨_, hversion, ht⟩ := Option.bind_eq_some_iff.1 ht
  obtain ⟨_, hentries, -⟩ := Option.bind_eq_some_iff.1 ht
  refine Shape.accepts_fields hfs ?_
  simp only [List.forall_mem_cons]
  exact ⟨Shape.looked_of_need Shape.reads_toNat hversion,
    Shape.looked_of_need hentry.toList hentries, nofun⟩

/-- What is read of the sidecar of a pack. -/
def Parity.Object.shape : Shape :=
  .fields [(ascii ['v'], .plain), (ascii ['k'], .plain), (ascii ['m'], .plain),
    (ascii ['p', 'a', 'c', 'k', '_', 's', 'i', 'z', 'e'], .plain),
    (ascii ['s', 'h', 'a', 'r', 'd', '_', 'l', 'e', 'n'], .plain),
    (ascii ['h', 'a', 's', 'h', 'e', 's'], .list .plain),
    (ascii ['p', 'a', 'r', 'i', 't', 'y'], .list .plain)]

theorem Parity.reads_toByteBuf : Shape.plain.Reads Parity.toByteBuf := by
  intro i b hb
  unfold Parity.toByteBuf at hb
  rcases Option.or_eq_some_iff.1 hb with hb | ⟨-, hb⟩
  · exact Shape.reads_toBytes _ _ hb
  · obtain ⟨ns, hns, -⟩ := Option.map_eq_some_iff.1 hb
    match i, hns with
    | .array w items, hns => exact ⟨_, congrArg (Option.map _) hns⟩

theorem Parity.Object.reads_ofItem : Parity.Object.shape.Reads Parity.Object.ofItem := by
  intro i obj hobj
  obtain ⟨fs, hfs, hobj⟩ := Option.bind_eq_some_iff.1 hobj
  obtain ⟨_, hv, hobj⟩ := Option.bind_eq_some_iff.1 hobj
  obtain ⟨_, hk, hobj⟩ := Option.bind_eq_some_iff.1 hobj
  obtain ⟨_, hm, hobj⟩ := Option.bind_eq_some_iff.1 hobj
  obtain ⟨_, hpackSize, hobj⟩ := Option.bind_eq_some_iff.1 hobj
  obtain ⟨_, hshardLen, hobj⟩ := Option.bind_eq_some_iff.1 hobj
  obtain ⟨_, hhashes, hobj⟩ := Option.bind_eq_some_iff.1 hobj
  obtain ⟨_, hparity, -⟩ := Option.bind_eq_some_iff.1 hobj
  refine Shape.accepts_fields hfs ?_
  simp only [List.forall_mem_cons]
  exact ⟨Shape.looked_of_need Shape.reads_toNat hv, Shape.looked_of_need Shape.reads_toNat hk,
    Shape.looked_of_need Shape.reads_toNat hm, Shape.looked_of_need Shape.reads_toNat hpackSize,
    Shape.looked_of_need Shape.reads_toNat hshardLen,
      Shape.looked_of_need reads_toId.toList hhashes,
    Shape.looked_of_need Parity.reads_toByteBuf.toList hparity, nofun⟩

/-! ### Decoding -/

/-- **Decoding.** What is decoded is one item with definite lengths and without tags, nested no
deeper than the limit, and in what its type reads no number is a floating-point number and no key
stands twice. It is permitted exactly if its numbers and lengths are as short as they can be and the
fields that its type leaves unread are tidy. The walk over it stays within its bytes. -/
theorem decode_permitted_iff (data : Bytes) :
    (∀ (T : Type) (fromReader : Bytes → Except String (T × ℕ)) (shape : Shape) (value : T),
      ReadsShape fromReader shape → decodeCbor fromReader data = .ok value →
        ∃ i : Item, data = i.bytes ∧ i.Fits ∧ i.depth ≤ maxStructureDepth + 1 ∧ shape.Accepts i ∧
          (Permitted data ↔ i.All Item.Shortest ∧ shape.Tidy i)) ∧
    ∀ levels pos : ℕ, pos ≤ data.length →
      (∃ e, walkStructure data levels pos = .error e) ∨
        ∃ pos', walkStructure data levels pos = .ok pos' ∧ pos < pos' ∧ pos' ≤ data.length :=
  ⟨fun _ _ _ _ hshape h => permitted_iff hshape h, fun _ _ hpos => walkStructure_bounds hpos⟩

/-- An empty tree with an unknown field `x`: a map that has the key 0 twice, for the floating-point
number 1.5 and for the number 1 in two bytes. -/
def strayTree : Bytes :=
  [0xa3, 0x61, 0x76, 0x03, 0x67, 0x65, 0x6e, 0x74, 0x72, 0x69, 0x65, 0x73, 0x80, 0x61, 0x78,
    0xa2, 0x00, 0xf9, 0x3e, 0x00, 0x00, 0x18, 0x01]

/-- The item that it spells. -/
def strayItem : Item :=
  .map .tiny [(.string true .tiny [0x76], .num false .tiny 3),
    (.string true .tiny [0x65, 0x6e, 0x74, 0x72, 0x69, 0x65, 0x73], .array .tiny []),
    (.string true .tiny [0x78], .map .tiny [(.num false .tiny 0, .simple .two 0x3e00),
      (.num false .tiny 0, .num false .one 1)])]

theorem decode_strayTree :
    decodeCbor (CborLib.exact.fromReader Tree.ofItem) strayTree = .ok (.new [] none) := by
  decide +kernel

/-- What is decoded from the bytes of an item tells of that item. -/
theorem permitted_tree_iff {i : Item} {t : Tree} (hfits : i.Fits)
    (h : decodeCbor (CborLib.exact.fromReader Tree.ofItem) i.bytes = .ok t) :
    Permitted i.bytes ↔ i.All Item.Shortest ∧ Tree.shape.Tidy i := by
  obtain ⟨i', hbytes, hfits', -, -, hiff⟩ :=
    permitted_iff (CborLib.faithful_exact.readsShape Tree.reads_ofItem) h
  have happend : i.bytes ++ [] = i'.bytes ++ [] := by rw [hbytes]
  obtain ⟨rfl, -⟩ := Item.bytes_append_inj hfits hfits' happend
  exact hiff

theorem not_permitted_strayTree : ¬Permitted strayTree := by
  have hbytes : strayTree = strayItem.bytes := by decide +kernel
  have hfits : strayItem.Fits := by
    simp [strayItem, Item.Fits, Item.All, Item.FieldsAll, Item.ItemsAll, Item.width, Item.arg,
      Width.Holds, Width.size]
  have hdecode := decode_strayTree
  rw [hbytes] at hdecode ⊢
  rw [permitted_tree_iff hfits hdecode]
  rintro ⟨hshortest, -⟩
  simp [strayItem, Item.All, Item.FieldsAll, Item.ItemsAll, Item.Shortest, Width.shortest]
    at hshortest

/-- What a tree is decoded from need not be permitted. -/
theorem not_decode_permitted : ¬∀ (data : Bytes) (t : Tree),
    decodeCbor (CborLib.exact.fromReader Tree.ofItem) data = .ok t → Permitted data :=
  fun h => not_permitted_strayTree (h strayTree _ decode_strayTree)

/-- An empty tree with an unknown field `x`: a map from the key 0 to the number 24. -/
def spareItem : Item :=
  .map .tiny [(.string true .tiny [0x76], .num false .tiny 3),
    (.string true .tiny [0x65, 0x6e, 0x74, 0x72, 0x69, 0x65, 0x73], .array .tiny []),
    (.string true .tiny [0x78], .map .tiny [(.num false .tiny 0, .num false .one 24)])]

theorem fits_spareItem : spareItem.Fits := by
  simp [spareItem, Item.Fits, Item.All, Item.FieldsAll, Item.ItemsAll, Item.width, Item.arg,
    Width.Holds, Width.size]

theorem decode_spareItem :
    decodeCbor (CborLib.exact.fromReader Tree.ofItem) spareItem.bytes = .ok (.new [] none) := by
  decide +kernel

theorem decode_permitted_spareItem : Permitted spareItem.bytes := by
  obtain ⟨i, hbytes, hfits, -, haccepts, hiff⟩ := (decode_permitted_iff spareItem.bytes).1 Tree _
    Tree.shape _ (CborLib.faithful_exact.readsShape Tree.reads_ofItem) decode_spareItem
  have happend : spareItem.bytes ++ [] = i.bytes ++ [] := by rw [← hbytes]
  obtain ⟨rfl, -⟩ := Item.bytes_append_inj fits_spareItem hfits happend
  refine hiff.2 ⟨?_, (Shape.tidy_iff hfits haccepts).1 ?_⟩
  · simp [spareItem, Item.All, Item.FieldsAll, Item.ItemsAll, Item.Shortest, Width.shortest]
  · simp [spareItem, Item.All, Item.FieldsAll, Item.ItemsAll, Item.Regular, Item.Float,
      Item.DistinctKeys, Item.bytes, wideHead, Width.info, Width.size, beBytes]

end Kist
