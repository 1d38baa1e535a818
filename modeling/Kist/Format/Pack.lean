import Kist.Format.CborDecode
import Kist.Format.TreeCodec

/-!
# The layout of packs

`kist-format::pack`: a pack begins with a magic, has the sealed chunks one behind the other, then a
sealed trailer that says where each chunk is, the length of the trailer in eight bytes, and the
magic again.
-/

namespace Kist

open Cbor

namespace PackFile

/-- `magic`: `kistpk`, and the version of the format in two bytes. -/
def magic : Bytes := ascii ['k', 'i', 's', 't', 'p', 'k'] ++ beBytes 2 formatVersion

/-- `HEADER_LEN`. -/
def headerLen : ℕ := 8

/-- `FOOTER_LEN`. -/
def footerLen : ℕ := 8 + 8

/-- `CHUNK_NONCE_LEN`. -/
def chunkNonceLen : ℕ := 24

/-- `TAG_LEN`. -/
def tagLen : ℕ := 16

/-- `MIN_ENTRY_LEN`. -/
def minEntryLen : ℕ := chunkNonceLen + tagLen + 1

/-- `FormatError`, where the layout of a pack is wrong. -/
inductive LayoutError
  | truncated (what : String) (needed actual : ℕ)
  | badMagic (what : String)
  deriving DecidableEq, Repr

/-- The text of an error. -/
def LayoutError.text : LayoutError → String
  | truncated what needed actual => s!"{what} is truncated: {actual} bytes, need at least {needed}"
  | badMagic what => s!"bad magic: not a kist {what}"

/-- `finish`: append the sealed trailer and the footer. -/
def finish (pack trailerSealed : Bytes) : Bytes :=
  pack ++ trailerSealed ++ beBytes 8 trailerSealed.length ++ magic

/-- `parse_footer`: the length of the trailer. -/
def parseFooter (footer : Bytes) : Except LayoutError ℕ :=
  if footer.length < footerLen then .error (.truncated "pack footer" footerLen footer.length)
  else
    let footer := footer.drop (footer.length - footerLen)
    if footer.drop 8 ≠ magic then .error (.badMagic "pack footer") else .ok (ofBe (footer.take 8))

/-- `trailer_bytes`. -/
def trailerBytes (pack : Bytes) : Except LayoutError Bytes :=
  if pack.length < headerLen + footerLen then
    .error (.truncated "pack" (headerLen + footerLen) pack.length)
  else if pack.take headerLen ≠ magic then .error (.badMagic "pack header")
  else
    match parseFooter pack with
    | .error e => .error e
    | .ok trailerLen =>
      let stop := pack.length - footerLen
      if trailerLen ≤ stop ∧ headerLen ≤ stop - trailerLen then
        .ok ((pack.drop (stop - trailerLen)).take trailerLen)
      else .error (.truncated "pack trailer" trailerLen (stop - headerLen))

/-- `PackTrailer`. -/
structure PackTrailer where
  version : ℕ
  entries : List PackEntry
  deriving DecidableEq, Repr

/-- `PackTrailer::new`. -/
def PackTrailer.new (entries : List PackEntry) : PackTrailer := ⟨formatVersion, entries⟩

/-! ### The trailer as CBOR -/

/-- The fields of `PackEntry`. -/
def entryRecord (e : PackEntry) : List (Bytes × Option Item) :=
  [(ascii ['i'], some (ofId e.id)), (ascii ['o'], some (ofNat e.offset)),
    (ascii ['l'], some (ofNat e.length)), (ascii ['r'], some (ofNat e.rawLen))]

/-- `Deserialize` of `PackEntry`. -/
def entryOfItem (i : Item) : Option PackEntry := do
  let fs ← toFields i
  let id ← need fs (ascii ['i']) toId
  let offset ← need fs (ascii ['o']) (toNat (2 ^ 64))
  let length ← need fs (ascii ['l']) (toNat (2 ^ 64))
  let rawLen ← need fs (ascii ['r']) (toNat (2 ^ 64))
  return ⟨id, offset, length, rawLen⟩

namespace PackTrailer

/-- The fields of `PackTrailer`. -/
def record (t : PackTrailer) : List (Bytes × Option Item) :=
  [(ascii ['v'], some (ofNat t.version)),
    (ascii ['e', 'n', 't', 'r', 'i', 'e', 's'],
      some (ofList (fun e => ofRecord (entryRecord e)) t.entries))]

/-- `Serialize` of `PackTrailer`. -/
def toItem (t : PackTrailer) : Item := ofRecord t.record

/-- `Deserialize` of `PackTrailer`. -/
def ofItem (i : Item) : Option PackTrailer := do
  let fs ← toFields i
  let version ← need fs (ascii ['v']) (toNat (2 ^ 32))
  let entries ← need fs (ascii ['e', 'n', 't', 'r', 'i', 'e', 's']) (toList entryOfItem)
  return ⟨version, entries⟩

end PackTrailer

section Codec

variable {e : PackEntry} {t : PackTrailer}

theorem entryOfItem_ofRecord (h : e.Fits) (hid : e.id < 256 ^ 32) :
    entryOfItem (ofRecord (entryRecord e)) = some e := by
  have hnodup : ((entryRecord e).map Prod.fst).Nodup :=
    show [ascii ['i'], ascii ['o'], ascii ['l'], ascii ['r']].Nodup by decide
  have hfield : ∀ (i : ℕ) f, (entryRecord e)[i]? = some f → f ∈ entryRecord e :=
    fun _ _ => List.mem_of_getElem?
  unfold entryOfItem
  rw [toFields_ofRecord]
  dsimp only [bind, Option.bind]
  rw [need_present hnodup (hfield 0 _ rfl), need_present hnodup (hfield 1 _ rfl),
    need_present hnodup (hfield 2 _ rfl), need_present hnodup (hfield 3 _ rfl), toId_ofId hid,
    toNat_ofNat h.offset, toNat_ofNat h.length, toNat_ofNat h.rawLen]
  rfl

theorem short_entryRecord (h : e.Fits) :
    (ofRecord (entryRecord e)).Short ∧ (ofRecord (entryRecord e)).depth ≤ 2 := by
  have hnat : ∀ n < 2 ^ 64, (ofNat n).Short ∧ (ofNat n).depth ≤ 1 :=
    fun n hn => ⟨short_ofNat hn, by simp [ofNat, Item.depth]⟩
  have hall : ∀ f ∈ entryRecord e, ∀ i ∈ f.2, i.Short ∧ i.depth ≤ 1 := by
    simp only [entryRecord, List.forall_mem_cons]
    exact ⟨forall_some ⟨short_ofId _, by simp [ofId, ofBytes, Item.depth]⟩,
      forall_some (hnat _ h.offset), forall_some (hnat _ h.length), forall_some (hnat _ h.rawLen),
      List.forall_mem_nil _⟩
  exact ⟨short_ofRecord (show 4 < 2 ^ 64 by norm_num)
      (show ∀ name ∈ [ascii ['i'], ascii ['o'], ascii ['l'], ascii ['r']], name.length < 2 ^ 64 by
        decide) fun f hf i hi => (hall f hf i hi).1,
    depth_ofRecord_le (by norm_num) fun f hf i hi => (hall f hf i hi).2⟩

/-- The numbers of a trailer are of the types that they have in the source. -/
structure PackTrailer.Typed (t : PackTrailer) : Prop where
  version : t.version < 2 ^ 32
  count : t.entries.length < 2 ^ 63
  entries : ∀ e ∈ t.entries, e.Fits ∧ e.id < 256 ^ 32

theorem PackTrailer.ofItem_toItem (h : t.Typed) : PackTrailer.ofItem t.toItem = some t := by
  have hnodup : (t.record.map Prod.fst).Nodup :=
    show [ascii ['v'], ascii ['e', 'n', 't', 'r', 'i', 'e', 's']].Nodup by decide
  have hfield : ∀ (i : ℕ) f, t.record[i]? = some f → f ∈ t.record := fun _ _ => List.mem_of_getElem?
  unfold PackTrailer.toItem PackTrailer.ofItem
  rw [toFields_ofRecord]
  dsimp only [bind, Option.bind]
  rw [need_present hnodup (hfield 0 _ rfl), need_present hnodup (hfield 1 _ rfl),
    toNat_ofNat h.version,
    toList_ofList fun e he => entryOfItem_ofRecord (h.entries e he).1 (h.entries e he).2]
  rfl

theorem PackTrailer.short_toItem (h : t.Typed) : t.toItem.Short ∧ t.toItem.depth ≤ 4 := by
  have hentries : (ofList (fun e => ofRecord (entryRecord e)) t.entries).Short ∧
      (ofList (fun e => ofRecord (entryRecord e)) t.entries).depth ≤ 3 :=
    ⟨short_ofList (by have := h.count; omega) fun e he => (short_entryRecord (h.entries e he).1).1,
      depth_ofList_le fun e he => (short_entryRecord (h.entries e he).1).2⟩
  have hall : ∀ f ∈ t.record, ∀ i ∈ f.2, i.Short ∧ i.depth ≤ 3 := by
    simp only [PackTrailer.record, List.forall_mem_cons]
    exact ⟨forall_some ⟨short_ofNat (by have := h.version; omega), by simp [ofNat, Item.depth]⟩,
      forall_some hentries, List.forall_mem_nil _⟩
  exact ⟨short_ofRecord (show 2 < 2 ^ 64 by norm_num)
      (show ∀ name ∈ [ascii ['v'], ascii ['e', 'n', 't', 'r', 'i', 'e', 's']],
        name.length < 2 ^ 64 by decide) fun f hf i hi => (hall f hf i hi).1,
    depth_ofRecord_le (by norm_num) fun f hf i hi => (hall f hf i hi).2⟩

/-- A trailer that is written is decoded. -/
theorem decodeCbor_trailer {lib : CborLib} (hlib : lib.Faithful) (h : t.Typed) :
    decodeCbor (lib.fromReader PackTrailer.ofItem) (lib.write t.toItem) = .ok t :=
  hlib.decodeCbor_write (PackTrailer.short_toItem h).1
    ((PackTrailer.short_toItem h).2.trans (by unfold maxStructureDepth; norm_num))
    (PackTrailer.ofItem_toItem h)

end Codec

/-! ### The footer -/

section Layout

variable {pack trailer : Bytes}

theorem length_magic : magic.length = headerLen := rfl

theorem length_finish :
    (finish pack trailer).length = pack.length + trailer.length + footerLen := by
  simp only [finish, List.length_append, length_beBytes, length_magic, footerLen, headerLen]

/-- The footer of a pack that was finished. -/
theorem parseFooter_finish (h : trailer.length < 2 ^ 64) :
    parseFooter (finish pack trailer) = .ok trailer.length := by
  have hdrop : (finish pack trailer).drop ((finish pack trailer).length - footerLen) =
      beBytes 8 trailer.length ++ magic := by
    rw [length_finish, Nat.add_sub_cancel, finish, List.append_assoc,
      List.drop_left' (by rw [List.length_append])]
  have hlong : ¬(finish pack trailer).length < footerLen := by
    rw [length_finish]
    omega
  unfold parseFooter
  rw [if_neg hlong]
  dsimp only
  rw [hdrop, List.drop_left' length_beBytes, List.take_left' length_beBytes, if_neg (by simp),
    ofBe_beBytes h]

/-- The trailer of a pack that was finished. -/
theorem trailerBytes_finish (hmagic : pack.take headerLen = magic) (h : trailer.length < 2 ^ 64) :
    trailerBytes (finish pack trailer) = .ok trailer := by
  have hlen : headerLen ≤ pack.length := by
    have := congrArg List.length hmagic
    rw [List.length_take, length_magic] at this
    omega
  have htake : (finish pack trailer).take headerLen = magic := by
    rw [finish, List.append_assoc, List.append_assoc, List.take_append_of_le_length hlen, hmagic]
  unfold trailerBytes
  rw [if_neg (by rw [length_finish]; omega), if_neg (not_not.2 htake), parseFooter_finish h]
  dsimp only
  have hstop : (finish pack trailer).length - footerLen = pack.length + trailer.length := by
    rw [length_finish, Nat.add_sub_cancel]
  rw [hstop, if_pos (by omega), Nat.add_sub_cancel, finish, List.append_assoc, List.append_assoc,
    List.drop_left, List.take_left]

end Layout

end PackFile
end Kist
