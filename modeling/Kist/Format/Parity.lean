import Kist.Format.CborDecode
import Kist.Format.TreeCodec
import Kist.Lib.Erasure

/-!
# Parity sidecars

`kist-format::parity`: beside a pack lies an object with the hashes of its shards and with the
shards that a Reed-Solomon code adds to them. A damaged pack is repaired from both, and the hash of
what comes out must be the name of the pack.

* `repair_eq`: a repair of what fits the sidecar performs no operation that is out of bounds.
* `parity_repairs`: a pack comes back where no more shards are damaged than were added, and whatever
  comes back has the right name.
-/

namespace Kist

open Cbor

namespace Parity

/-- `DATA_SHARDS`. -/
def dataShards : ℕ := 16

/-- `MAX_PARITY_SHARDS`. -/
def maxParityShards : ℕ := 8

/-- `MAX_SHARD_LEN`. -/
def maxShardLen : ℕ := 64 * 2 ^ 20

/-- `FormatError`, where a sidecar is written, read or used. -/
inductive ParityError
  | decode (msg : String)
  | parityCorrupt (msg : String)
  | unrepairable (msg : String)
  deriving DecidableEq, Repr

/-- The hash of the source, and its Reed-Solomon code. -/
structure Lib where
  cbor : CborLib
  hash : Bytes → ObjectId
  coder : Erasure.Coder Bytes

/-- `Object`. -/
structure Object where
  v : ℕ
  k : ℕ
  m : ℕ
  packSize : ℕ
  shardLen : ℕ
  hashes : List ObjectId
  parity : List Bytes
  deriving DecidableEq, Repr

/-! ### Shards -/

/-- `xs[..ys.len()].copy_from_slice(ys)`. -/
def overwrite (xs ys : Bytes) : Except Checked.Fault Bytes :=
  if ys.length ≤ xs.length then .ok (ys ++ xs.drop ys.length) else .error .slice

/-- `split`: the shards of the data, with zeros behind it, and shards for the parity. -/
def split (pack : Bytes) (shardLen m : ℕ) : Except Checked.Fault (List Bytes) := do
  let padded ← overwrite (List.replicate (dataShards * shardLen) 0) pack
  let shards ← (List.range dataShards).mapM fun i =>
    Checked.slice padded (i * shardLen) ((i + 1) * shardLen)
  return shards ++ List.replicate m (List.replicate shardLen 0)

/-- `pad_or_trim`. -/
def padOrTrim (damaged : Bytes) (size : ℕ) : Except Checked.Fault Bytes := do
  let n := min damaged.length size
  overwrite (List.replicate size 0) (← Checked.slice damaged 0 n)

/-- `shards[DATA_SHARDS + i].copy_from_slice(p)`, for each shard of the parity. -/
def putParity (shards : List Bytes) : ℕ → List Bytes → Except Checked.Fault (List Bytes)
  | _, [] => .ok shards
  | i, p :: ps => do
    let s ← Checked.at_ shards (dataShards + i)
    if s.length ≠ p.length then throw .slice
    putParity (shards.set (dataShards + i) p) (i + 1) ps

variable (lib : Lib)

/-- The loop that empties the shards that do not have their hashes, and counts them. -/
def erase (hashes : List ObjectId) : ℕ → List Bytes → Except Checked.Fault (List Bytes × ℕ)
  | _, [] => .ok ([], 0)
  | i, s :: ss => do
    let h ← Checked.at_ hashes i
    let (rest, erasures) ← erase hashes (i + 1) ss
    return if lib.hash s ≠ h then ([] :: rest, erasures + 1) else (s :: rest, erasures)

/-! ### Writing and reading -/

/-- The sidecar of a pack, cut into shards. -/
def Object.new (packSize shardLen m : ℕ) (shards : List Bytes) : Object where
  v := formatVersion
  k := dataShards
  m := m
  packSize := packSize
  shardLen := shardLen
  hashes := shards.map lib.hash
  parity := shards.drop dataShards

/-- The fields of `Object`. -/
def Object.record (obj : Object) : List (Bytes × Option Item) :=
  [(ascii ['v'], some (ofNat obj.v)), (ascii ['k'], some (ofNat obj.k)),
    (ascii ['m'], some (ofNat obj.m)),
    (ascii ['p', 'a', 'c', 'k', '_', 's', 'i', 'z', 'e'], some (ofNat obj.packSize)),
    (ascii ['s', 'h', 'a', 'r', 'd', '_', 'l', 'e', 'n'], some (ofNat obj.shardLen)),
    (ascii ['h', 'a', 's', 'h', 'e', 's'], some (ofList ofId obj.hashes)),
    (ascii ['p', 'a', 'r', 'i', 't', 'y'], some (ofList ofBytes obj.parity))]

/-- `Serialize` of `Object`. -/
def Object.toItem (obj : Object) : Item := ofRecord obj.record

/-- `Deserialize` of `ByteBuf`: a byte string, or an array of its bytes. -/
def toByteBuf (i : Item) : Option Bytes :=
  (toBytes i).or ((toList (toNat (2 ^ 8)) i).map fun ns => ns.map UInt8.ofNat)

/-- `Deserialize` of `Object`. -/
def Object.ofItem (i : Item) : Option Object := do
  let fs ← toFields i
  let v ← need fs (ascii ['v']) (toNat (2 ^ 32))
  let k ← need fs (ascii ['k']) (toNat (2 ^ 8))
  let m ← need fs (ascii ['m']) (toNat (2 ^ 8))
  let packSize ← need fs (ascii ['p', 'a', 'c', 'k', '_', 's', 'i', 'z', 'e']) (toNat (2 ^ 64))
  let shardLen ← need fs (ascii ['s', 'h', 'a', 'r', 'd', '_', 'l', 'e', 'n']) (toNat (2 ^ 32))
  let hashes ← need fs (ascii ['h', 'a', 's', 'h', 'e', 's']) (toList toId)
  let parity ← need fs (ascii ['p', 'a', 'r', 'i', 't', 'y']) (toList toByteBuf)
  return ⟨v, k, m, packSize, shardLen, hashes, parity⟩

/-- The object that `encode` writes. -/
def object (packId : ObjectId) (pack : Bytes) (m : ℕ) :
    Except Checked.Fault (Except ParityError Object) := do
  if ¬(1 ≤ m ∧ m ≤ maxParityShards) then
    return .error (.parityCorrupt s!"{m} parity shards, want 1..{maxParityShards}")
  if pack = [] then return .error (.parityCorrupt "empty pack")
  if lib.hash pack ≠ packId then
    return .error (.parityCorrupt s!"pack hashes to {lib.hash pack}, not {packId}")
  let shardLen := (pack.length + (dataShards - 1)) / dataShards
  if shardLen > maxShardLen then
    return .error (.parityCorrupt (s!"pack of {pack.length} bytes needs {shardLen}-byte shards, " ++
      s!"over the {maxShardLen} limit"))
  let shards ← split pack shardLen m
  match lib.coder.new dataShards m with
  | .error e => return .error (.parityCorrupt s!"coder: {e}")
  | .ok () =>
    match lib.coder.encode dataShards m shards with
    | .error e => return .error (.parityCorrupt s!"encode: {e}")
    | .ok shards => return .ok (.new lib pack.length shardLen m shards)

/-- `encode`. -/
def encode (packId : ObjectId) (pack : Bytes) (m : ℕ) :
    Except Checked.Fault (Except ParityError Bytes) :=
  (object lib packId pack m).map fun r => r.map fun obj => lib.cbor.write obj.toItem

/-- The loop of `validate` over the shards of the parity. -/
def checkParity (shardLen : ℕ) : ℕ → List Bytes → Except ParityError Unit
  | _, [] => .ok ()
  | i, p :: ps =>
    if p.length ≠ shardLen then
      .error (.parityCorrupt s!"parity shard {i} is {p.length} bytes, want {shardLen}")
    else checkParity shardLen (i + 1) ps

/-- `Object::validate`. -/
def Object.validate (obj : Object) : Except ParityError Unit :=
  if obj.v ≠ formatVersion then
    .error (.parityCorrupt s!"version {obj.v}, this build reads {formatVersion}")
  else if obj.k ≠ dataShards then
    .error (.parityCorrupt s!"{obj.k} data shards, want {dataShards}")
  else if ¬(1 ≤ obj.m ∧ obj.m ≤ maxParityShards) then
    .error (.parityCorrupt s!"{obj.m} parity shards, want 1..{maxParityShards}")
  else if obj.shardLen = 0 ∨ obj.shardLen > maxShardLen then
    .error (.parityCorrupt s!"shard length {obj.shardLen}")
  else if obj.packSize = 0 ∨ (obj.packSize + (dataShards - 1)) / dataShards ≠ obj.shardLen then
    .error (.parityCorrupt (s!"pack size {obj.packSize} does not fit {dataShards} shards of " ++
      s!"{obj.shardLen} bytes"))
  else if obj.hashes.length ≠ dataShards + obj.m then
    .error (.parityCorrupt s!"{obj.hashes.length} hashes, want {dataShards + obj.m}")
  else if obj.parity.length ≠ obj.m then
    .error (.parityCorrupt s!"{obj.parity.length} parity shards, header says {obj.m}")
  else checkParity obj.shardLen 0 obj.parity

/-- `parse`. -/
def parse (data : Bytes) : Except ParityError Object :=
  match decodeCbor (lib.cbor.fromReader Object.ofItem) data with
  | .error e => .error (.decode e)
  | .ok obj => obj.validate.map fun _ => obj

/-! ### Repairing -/

/-- The end of `repair`: rebuild the empty shards, and compare the hash. -/
def rebuild (m packSize : ℕ) (packId : ObjectId) (shards : List Bytes) :
    Except ParityError Bytes :=
  let options := shards.map fun s => if s = [] then none else some s
  match lib.coder.new dataShards m with
  | .error e => .error (.unrepairable s!"coder: {e}")
  | .ok () =>
    match lib.coder.reconstruct dataShards m options with
    | .error e => .error (.unrepairable s!"reconstruct: {e}")
    | .ok options =>
      let out := ((options.take dataShards).filterMap id).flatten.take packSize
      if lib.hash out ≠ packId then
        .error (.unrepairable (s!"reconstruction hashes to {lib.hash out}, not {packId}; " ++
          "the parity is wrong or forged"))
      else .ok out

/-- The second half of `repair`, with the number of the shards that are empty. -/
def Object.conclude (obj : Object) (packId : ObjectId) (padded : Bytes) (shards : List Bytes)
    (erasures : ℕ) : Except ParityError Bytes :=
  if erasures = 0 then
    if lib.hash padded = packId then .ok padded
    else .error (.unrepairable ("every shard matches the parity's hashes, but the pack does not " ++
      "hash to its name; the parity is not for this pack"))
  else if erasures > obj.m then
    .error (.unrepairable s!"{erasures} shards are damaged, parity can rebuild {obj.m}")
  else rebuild lib obj.m obj.packSize packId shards

/-- `Object::repair`. -/
def Object.repair (obj : Object) (packId : ObjectId) (damaged : Bytes) :
    Except Checked.Fault (Except ParityError Bytes) := do
  let padded ← padOrTrim damaged obj.packSize
  let shards ← split padded obj.shardLen obj.m
  let shards ← putParity shards 0 obj.parity
  let (shards, erasures) ← erase lib obj.hashes 0 shards
  return obj.conclude lib packId padded shards erasures

/-! ### Within bounds -/

/-- The shards of the data. -/
def dataOf (pack : Bytes) (shardLen : ℕ) : List Bytes :=
  Erasure.slices shardLen dataShards
    (pack ++ List.replicate (dataShards * shardLen - pack.length) 0)

/-- A pack of the right length: cut off, or with zeros behind it. -/
def fit (damaged : Bytes) (size : ℕ) : Bytes :=
  damaged.take size ++ List.replicate (size - damaged.length) 0

/-- All shards, as a damaged pack and its sidecar have them. -/
def Object.shardsOf (obj : Object) (damaged : Bytes) : List Bytes :=
  dataOf (fit damaged obj.packSize) obj.shardLen ++ obj.parity

/-- What `validate` checks. -/
structure Object.Valid (obj : Object) : Prop where
  version : obj.v = formatVersion
  data : obj.k = dataShards
  pos : 1 ≤ obj.m
  le : obj.m ≤ maxParityShards
  shardPos : 0 < obj.shardLen
  shardLe : obj.shardLen ≤ maxShardLen
  sizePos : 0 < obj.packSize
  size : (obj.packSize + (dataShards - 1)) / dataShards = obj.shardLen
  hashes : obj.hashes.length = dataShards + obj.m
  count : obj.parity.length = obj.m
  parity : ∀ p ∈ obj.parity, p.length = obj.shardLen

section Bounds

variable {lib} {obj : Object} {packId : ObjectId} {pack damaged xs ys : Bytes}
  {shardLen m n size : ℕ}

theorem checkParity_ok_iff {i : ℕ} {ps : List Bytes} :
    checkParity shardLen i ps = .ok () ↔ ∀ p ∈ ps, p.length = shardLen := by
  induction ps generalizing i with
  | nil => exact iff_of_true rfl nofun
  | cons p ps ih =>
    rw [checkParity, List.forall_mem_cons]
    split_ifs with h
    · exact iff_of_false nofun fun hall => h hall.1
    · rw [ih, and_iff_right (not_not.1 h)]

theorem validate_ok_iff : obj.validate = .ok () ↔ obj.Valid := by
  unfold Object.validate
  constructor
  · intro h
    split_ifs at h with h1 h2 h3 h4 h5 h6 h7
    rw [checkParity_ok_iff] at h
    exact ⟨not_not.1 h1, not_not.1 h2, h3.1, h3.2, by omega, by omega, by omega, by omega,
      not_not.1 h6, not_not.1 h7, h⟩
  · intro h
    rw [if_neg (not_not.2 h.version), if_neg (not_not.2 h.data), if_neg (not_not.2 ⟨h.pos, h.le⟩),
      if_neg (not_or.2 ⟨h.shardPos.ne', not_lt.2 h.shardLe⟩),
      if_neg (not_or.2 ⟨h.sizePos.ne', not_not.2 h.size⟩), if_neg (not_not.2 h.hashes),
      if_neg (not_not.2 h.count), checkParity_ok_iff]
    exact h.parity

theorem Object.Valid.size_le (h : obj.Valid) : obj.packSize ≤ dataShards * obj.shardLen := by
  have hsize := h.size
  unfold dataShards at *
  omega

theorem overwrite_ok (h : ys.length ≤ xs.length) :
    overwrite xs ys = .ok (ys ++ xs.drop ys.length) := if_pos h

theorem length_fit : (fit damaged size).length = size := by
  rw [fit, List.length_append, List.length_take, List.length_replicate]
  omega

theorem padOrTrim_eq : padOrTrim damaged size = .ok (fit damaged size) := by
  unfold padOrTrim
  have htake : ((damaged.take (min damaged.length size)).drop 0) = damaged.take size := by
    rw [List.drop_zero, min_comm, ← List.take_eq_take_min]
  dsimp only
  rw [Checked.slice_ok (Nat.zero_le _) (min_le_left _ _), htake]
  dsimp only [bind, Except.bind]
  rw [overwrite_ok (by rw [List.length_take, List.length_replicate]; omega), List.drop_replicate,
    List.length_take, fit]
  congr 3
  omega

theorem length_dataOf : (dataOf pack shardLen).length = dataShards := Erasure.length_slices

theorem length_of_mem_dataOf (h : pack.length ≤ dataShards * shardLen) :
    ∀ s ∈ dataOf pack shardLen, s.length = shardLen := by
  refine Erasure.length_of_mem_slices ?_
  rw [List.length_append, List.length_replicate]
  omega

/-- The data comes back from its shards. -/
theorem flatten_dataOf (h : pack.length ≤ dataShards * shardLen) :
    (dataOf pack shardLen).flatten.take pack.length = pack := by
  rw [dataOf, Erasure.flatten_slices, List.take_take, min_eq_left h, List.take_left]

theorem split_eq (h : pack.length ≤ dataShards * shardLen) :
    split pack shardLen m =
      .ok (dataOf pack shardLen ++ List.replicate m (List.replicate shardLen 0)) := by
  have hlen : dataShards * shardLen ≤
      (pack ++ List.replicate (dataShards * shardLen - pack.length) (0 : UInt8)).length := by
    rw [List.length_append, List.length_replicate]
    omega
  unfold split
  rw [overwrite_ok (by rwa [List.length_replicate]), List.drop_replicate]
  dsimp only [bind, Except.bind]
  rw [Erasure.mapM_slice hlen]
  rfl

theorem putParity_eq {data done rest ps : List Bytes} (hdata : data.length = dataShards)
    (hlen : rest.length = ps.length) (hrest : ∀ s ∈ rest, s.length = shardLen)
    (hps : ∀ p ∈ ps, p.length = shardLen) :
    putParity (data ++ (done ++ rest)) done.length ps = .ok (data ++ (done ++ ps)) := by
  induction ps generalizing done rest with
  | nil =>
    rw [List.length_eq_zero_iff.1 hlen]
    rfl
  | cons p ps ih =>
    cases rest with
    | nil => cases hlen
    | cons s rest =>
      rw [List.forall_mem_cons] at hrest hps
      have hat : Checked.at_ (data ++ (done ++ s :: rest)) (dataShards + done.length) = .ok s := by
        rw [Checked.at_ok (by simp [hdata])]
        simp [← hdata]
      have hset : (data ++ (done ++ s :: rest)).set (dataShards + done.length) p =
          data ++ ((done ++ [p]) ++ rest) := by
        simp [← hdata]
      rw [putParity, hat]
      dsimp only [bind, Except.bind]
      rw [if_neg (not_not.2 (hrest.1.trans hps.1.symm)), hset]
      have hstep : putParity (data ++ ((done ++ [p]) ++ rest)) (done ++ [p]).length ps =
          .ok (data ++ ((done ++ [p]) ++ ps)) := ih (by simpa using hlen) hrest.2 hps.2
      rw [List.length_append, List.length_singleton] at hstep
      rw [List.append_assoc, List.append_assoc] at *
      exact hstep

theorem erase_eq {hashes : List ObjectId} {ss : List Bytes} {i : ℕ}
    (h : i + ss.length ≤ hashes.length) :
    erase lib hashes i ss =
      .ok ((ss.zip (hashes.drop i)).map fun p => if lib.hash p.1 ≠ p.2 then [] else p.1,
        (ss.zip (hashes.drop i)).countP fun p => decide (lib.hash p.1 ≠ p.2)) := by
  induction ss generalizing i with
  | nil => rfl
  | cons s ss ih =>
    rw [List.length_cons] at h
    have hi : i < hashes.length := by omega
    have hrest : erase lib hashes (i + 1) ss =
        .ok ((ss.zip (hashes.drop (i + 1))).map fun p => if lib.hash p.1 ≠ p.2 then [] else p.1,
          (ss.zip (hashes.drop (i + 1))).countP fun p => decide (lib.hash p.1 ≠ p.2)) :=
      ih (by omega)
    rw [erase, Checked.at_ok hi, hrest, List.drop_eq_getElem_cons hi, List.zip_cons_cons,
      List.map_cons, List.countP_cons]
    dsimp only [bind, Except.bind]
    by_cases hne : lib.hash s ≠ hashes[i]
    · rw [if_pos hne, if_pos hne, if_pos (decide_eq_true hne)]
      rfl
    · rw [if_neg hne, if_neg hne, if_neg (by simpa using hne)]
      rfl

/-- **No operation is out of bounds** where the sidecar is valid. -/
theorem repair_eq (h : obj.Valid) :
    obj.repair lib packId damaged =
      .ok (obj.conclude lib packId (fit damaged obj.packSize)
        (((obj.shardsOf damaged).zip obj.hashes).map fun p =>
          if lib.hash p.1 ≠ p.2 then [] else p.1)
        (((obj.shardsOf damaged).zip obj.hashes).countP fun p => decide (lib.hash p.1 ≠ p.2))) := by
  have hfit : (fit damaged obj.packSize).length ≤ dataShards * obj.shardLen := by
    rw [length_fit]
    exact h.size_le
  have hparity : putParity (dataOf (fit damaged obj.packSize) obj.shardLen ++
      List.replicate obj.m (List.replicate obj.shardLen 0)) 0 obj.parity =
        .ok (obj.shardsOf damaged) :=
    @putParity_eq obj.shardLen _ [] _ _ length_dataOf (by rw [List.length_replicate, h.count])
      (fun s hs => by rw [List.eq_of_mem_replicate hs, List.length_replicate]) h.parity
  have herase := @erase_eq lib obj.hashes (obj.shardsOf damaged) 0 (by
    rw [Object.shardsOf, List.length_append, length_dataOf, h.count, h.hashes, Nat.zero_add])
  rw [List.drop_zero] at herase
  unfold Object.repair
  rw [padOrTrim_eq]
  dsimp only [bind, Except.bind]
  rw [split_eq hfit]
  dsimp only
  rw [hparity]
  dsimp only
  rw [herase]
  rfl

/-- What comes out has the right name. -/
theorem hash_conclude {padded out : Bytes} {shards : List Bytes} {erasures : ℕ}
    (h : obj.conclude lib packId padded shards erasures = .ok out) : lib.hash out = packId := by
  unfold Object.conclude at h
  split_ifs at h with hnone hhash
  · cases h
    exact hhash
  · unfold rebuild at h
    dsimp only at h
    split at h
    · cases h
    · split at h
      · cases h
      · split_ifs at h with hhash
        · cases h
          exact not_not.1 hhash

end Bounds

/-! ### Sidecars as CBOR -/

section Codec

variable {lib} {obj : Object}

theorem Object.ofItem_toItem (h : obj.Valid) (hids : ∀ id ∈ obj.hashes, id < 256 ^ 32) :
    Object.ofItem obj.toItem = some obj := by
  have hnodup : (obj.record.map Prod.fst).Nodup :=
    show [ascii ['v'], ascii ['k'], ascii ['m'],
      ascii ['p', 'a', 'c', 'k', '_', 's', 'i', 'z', 'e'],
      ascii ['s', 'h', 'a', 'r', 'd', '_', 'l', 'e', 'n'], ascii ['h', 'a', 's', 'h', 'e', 's'],
      ascii ['p', 'a', 'r', 'i', 't', 'y']].Nodup by decide
  have hfield : ∀ (i : ℕ) f, obj.record[i]? = some f → f ∈ obj.record :=
    fun _ _ => List.mem_of_getElem?
  have hsize := h.size_le
  have hshard := h.shardLe
  have hle := h.le
  unfold dataShards at hsize
  unfold maxShardLen at hshard
  unfold maxParityShards at hle
  have hbuf : ∀ p ∈ obj.parity, toByteBuf (ofBytes p) = some p := fun p _ => by
    rw [toByteBuf, toBytes_ofBytes, Option.some_or]
  have hversion : formatVersion < 2 ^ 32 := by decide
  have hdata : dataShards < 2 ^ 8 := by decide
  unfold Object.toItem Object.ofItem
  rw [toFields_ofRecord]
  dsimp only [bind, Option.bind]
  rw [need_present hnodup (hfield 0 _ rfl), need_present hnodup (hfield 1 _ rfl),
    need_present hnodup (hfield 2 _ rfl), need_present hnodup (hfield 3 _ rfl),
    need_present hnodup (hfield 4 _ rfl), need_present hnodup (hfield 5 _ rfl),
    need_present hnodup (hfield 6 _ rfl), toNat_ofNat (h.version ▸ hversion),
    toNat_ofNat (h.data ▸ hdata), toNat_ofNat (by omega), toNat_ofNat (by omega),
    toNat_ofNat (by omega), toList_ofList fun id hid => toId_ofId (hids id hid), toList_ofList hbuf]
  rfl

theorem Object.short_toItem (h : obj.Valid) : obj.toItem.Short ∧ obj.toItem.depth ≤ 3 := by
  have hsize := h.size_le
  have hshard := h.shardLe
  have hle := h.le
  have hcount := h.count
  have hhashes := h.hashes
  unfold dataShards at hsize hhashes
  unfold maxShardLen at hshard
  unfold maxParityShards at hle
  have hversion : formatVersion < 2 ^ 64 := by decide
  have hdata : dataShards < 2 ^ 64 := by decide
  have hnat : ∀ n < 2 ^ 64, (ofNat n).Short ∧ (ofNat n).depth ≤ 2 :=
    fun n hn => ⟨short_ofNat hn, by simp [ofNat, Item.depth]⟩
  have hids : (ofList ofId obj.hashes).Short ∧ (ofList ofId obj.hashes).depth ≤ 2 :=
    ⟨short_ofList (by omega) fun id _ => short_ofId id,
      depth_ofList_le fun id _ => by simp [ofId, ofBytes, Item.depth]⟩
  have hparity : (ofList ofBytes obj.parity).Short ∧ (ofList ofBytes obj.parity).depth ≤ 2 :=
    ⟨short_ofList (by omega) fun p hp => short_ofBytes (by rw [h.parity p hp]; omega),
      depth_ofList_le fun p _ => by simp [ofBytes, Item.depth]⟩
  have hall : ∀ f ∈ obj.record, ∀ i ∈ f.2, i.Short ∧ i.depth ≤ 2 := by
    simp only [Object.record, List.forall_mem_cons]
    exact ⟨forall_some (hnat _ (h.version ▸ hversion)), forall_some (hnat _ (h.data ▸ hdata)),
      forall_some (hnat _ (by omega)), forall_some (hnat _ (by omega)),
      forall_some (hnat _ (by omega)), forall_some hids, forall_some hparity,
      List.forall_mem_nil _⟩
  have hnames : ∀ name ∈ obj.record.map Prod.fst, name.length < 2 ^ 64 :=
    show ∀ name ∈ [ascii ['v'], ascii ['k'], ascii ['m'],
      ascii ['p', 'a', 'c', 'k', '_', 's', 'i', 'z', 'e'],
      ascii ['s', 'h', 'a', 'r', 'd', '_', 'l', 'e', 'n'], ascii ['h', 'a', 's', 'h', 'e', 's'],
      ascii ['p', 'a', 'r', 'i', 't', 'y']], name.length < 2 ^ 64 by decide
  exact ⟨short_ofRecord (show 7 < 2 ^ 64 by norm_num) hnames fun f hf i hi => (hall f hf i hi).1,
    depth_ofRecord_le (by norm_num) fun f hf i hi => (hall f hf i hi).2⟩

/-- A valid sidecar that is written is parsed. -/
theorem parse_write (hcbor : lib.cbor.Faithful) (h : obj.Valid)
    (hids : ∀ id ∈ obj.hashes, id < 256 ^ 32) :
    parse lib (lib.cbor.write obj.toItem) = .ok obj := by
  have hdecode : decodeCbor (lib.cbor.fromReader Object.ofItem) (lib.cbor.write obj.toItem) =
      .ok obj :=
    hcbor.decodeCbor_write (Object.short_toItem h).1
      ((Object.short_toItem h).2.trans (by unfold maxStructureDepth; norm_num))
      (Object.ofItem_toItem h hids)
  rw [parse, hdecode]
  dsimp only
  rw [validate_ok_iff.2 h]
  rfl

theorem valid_of_parse {data : Bytes} (h : parse lib data = .ok obj) : obj.Valid := by
  unfold parse at h
  split at h
  · cases h
  · rename_i obj' _
    cases hvalid : obj'.validate with
    | error e =>
      rw [hvalid] at h
      cases h
    | ok =>
      rw [hvalid] at h
      cases h
      exact validate_ok_iff.1 hvalid

end Codec

/-! ### What is repaired -/

section Repair

variable {lib : Lib} {pack damaged : Bytes} {m shardLen : ℕ} {obj : Object}
  {code shards : List Bytes}

theorem fit_self : fit pack pack.length = pack := by
  rw [fit, List.take_length, Nat.sub_self, List.replicate_zero, List.append_nil]

/-- Shards that are all the same. -/
theorem eq_of_zip {l l' : List Bytes} (hlen : l.length = l'.length)
    (h : ∀ p ∈ l.zip l', p.1 = p.2) : l = l' := by
  refine List.ext_getElem hlen fun i hi hi' => ?_
  exact h (l[i], l'[i]) (List.mem_iff_getElem.2 ⟨i, by simp [hi, hi'], by simp⟩)

/-- The pack that has the same shards is the same. -/
theorem eq_of_dataOf {pack' : Bytes} (hlen : pack'.length = pack.length)
    (hsize : pack.length ≤ dataShards * shardLen)
    (h : dataOf pack' shardLen = dataOf pack shardLen) :
    pack' = pack := by
  have hpack' : (dataOf pack' shardLen).flatten.take pack'.length = pack' :=
    flatten_dataOf (hlen ▸ hsize)
  rw [← hpack', h, hlen, flatten_dataOf hsize]

theorem length_shardsOf (h : obj.Valid) : (obj.shardsOf damaged).length = dataShards + obj.m := by
  rw [Object.shardsOf, List.length_append, length_dataOf, h.count]

theorem length_of_mem_shardsOf (h : obj.Valid) :
    ∀ s ∈ obj.shardsOf damaged, s.length = obj.shardLen := by
  intro s hs
  rcases List.mem_append.1 hs with hs | hs
  · exact length_of_mem_dataOf (length_fit.trans_le h.size_le) s hs
  · exact h.parity s hs

/-- The sidecar of a pack is valid, and the shards of both are those that the code made. -/
theorem object_eq (hcoder : lib.coder.Lawful dataShards m) (hpos : pack ≠ [])
    (hlen : pack.length ≤ dataShards * maxShardLen) (hm : 1 ≤ m) (hm' : m ≤ maxParityShards) :
    ∃ (obj : Object) (shards : List Bytes), object lib (lib.hash pack) pack m = .ok (.ok obj) ∧
      lib.coder.Makes dataShards m obj.shardLen shards (obj.shardsOf pack) ∧
        obj.hashes = (obj.shardsOf pack).map lib.hash ∧ obj.m = m ∧ obj.packSize = pack.length ∧
          obj.Valid := by
  have hpack : 0 < pack.length := List.length_pos_iff.2 hpos
  obtain ⟨shardLen, hshard⟩ : ∃ n, n = (pack.length + (dataShards - 1)) / dataShards := ⟨_, rfl⟩
  have hsize : 0 < shardLen ∧ shardLen ≤ maxShardLen ∧ pack.length ≤ dataShards * shardLen := by
    unfold dataShards at *
    omega
  obtain ⟨hshardPos, hshardLe, hfits⟩ := hsize
  obtain ⟨shards, hshards⟩ : ∃ shards, shards =
      dataOf pack shardLen ++ List.replicate m (List.replicate shardLen 0) := ⟨_, rfl⟩
  have hcount : shards.length = dataShards + m := by
    rw [hshards, List.length_append, length_dataOf, List.length_replicate]
  have hlens : ∀ s ∈ shards, s.length = shardLen := by
    rw [hshards]
    intro s hs
    rcases List.mem_append.1 hs with hs | hs
    · exact length_of_mem_dataOf hfits s hs
    · rw [List.eq_of_mem_replicate hs, List.length_replicate]
  -- the coder leaves the data shards in place and fills in the parity shards
  obtain ⟨code, hcode, htake, hcodeLen, hcodeLens⟩ :=
    hcoder.encode shards shardLen hcount hlens hshardPos
  rw [hshards, List.take_left' length_dataOf] at htake
  have hshardsOf : (Object.new lib pack.length shardLen m code).shardsOf pack = code := by
    unfold Object.shardsOf Object.new
    dsimp only
    rw [fit_self, ← htake, List.take_append_drop]
  refine ⟨.new lib pack.length shardLen m code, shards, ?_,
    ⟨hcount, hlens, hshardPos, hcode.trans (by rw [hshardsOf])⟩, ?_, rfl, rfl, ?_⟩
  · unfold object
    rw [if_neg (not_not.2 ⟨hm, hm'⟩), if_neg hpos, if_neg (not_not.2 rfl), ← hshard]
    dsimp only
    rw [if_neg (not_lt.2 hshardLe), split_eq hfits]
    dsimp only [bind, Except.bind]
    rw [hcoder.new]
    dsimp only
    rw [← hshards, hcode]
    rfl
  · rw [hshardsOf, Object.new]
  · refine ⟨rfl, rfl, hm, hm', hshardPos, hshardLe, hpack, hshard.symm, ?_, ?_, ?_⟩
    · rw [Object.new, List.length_map, hcodeLen]
    · rw [Object.new, List.length_drop, hcodeLen, Nat.add_sub_cancel_left]
    · exact fun s hs => hcodeLens s (List.mem_of_mem_drop hs)

/-- **A pack comes back** where no more shards are damaged than were added. -/
theorem repair_damaged (hcoder : lib.coder.Lawful dataShards obj.m)
    (hcode : lib.coder.Makes dataShards obj.m obj.shardLen shards (obj.shardsOf pack))
    (hvalid : obj.Valid)
    (hsize : obj.packSize = pack.length) (hhashes : obj.hashes = (obj.shardsOf pack).map lib.hash)
    {parity : List Bytes} {obj' : Object} (hobj' : obj' = { obj with parity })
    (hvalid' : obj'.Valid)
    (hcollision : ∀ p ∈ (obj'.shardsOf damaged).zip (obj.shardsOf pack),
      lib.hash p.1 = lib.hash p.2 → p.1 = p.2)
    (hcount : ((obj'.shardsOf damaged).zip (obj.shardsOf pack)).countP
      (fun p => decide (p.1 ≠ p.2)) ≤ obj.m) :
    obj'.repair lib (lib.hash pack) damaged = .ok (.ok pack) := by
  obtain ⟨code, hcodeEq⟩ : ∃ code, code = obj.shardsOf pack := ⟨_, rfl⟩
  have hcodeLens : ∀ s ∈ code, s.length = obj.shardLen := by
    rw [hcodeEq]
    exact length_of_mem_shardsOf hvalid
  have hdata : code.take dataShards = dataOf pack obj.shardLen := by
    rw [hcodeEq, Object.shardsOf, List.take_left' length_dataOf, hsize, fit_self]
  have hfits : pack.length ≤ dataShards * obj.shardLen := hsize ▸ hvalid.size_le
  have hlen : (obj'.shardsOf damaged).length = code.length := by
    rw [length_shardsOf hvalid', hcodeEq, length_shardsOf hvalid, hobj']
  have hhashes' : obj'.hashes = code.map lib.hash := by rw [hobj', hcodeEq, ← hhashes]
  rw [← hcodeEq] at hcode hcollision hcount
  have hdamaged : ∀ p ∈ (obj'.shardsOf damaged).zip code,
      (lib.hash p.1 ≠ lib.hash p.2 ↔ p.1 ≠ p.2) := fun p hp =>
    not_congr ⟨hcollision p hp, fun h => by rw [h]⟩
  -- a shard is emptied if and only if it is damaged
  have hmap : (((obj'.shardsOf damaged).zip obj'.hashes).map fun p =>
        if lib.hash p.1 ≠ p.2 then [] else p.1) =
      ((obj'.shardsOf damaged).zip code).map fun p => if p.1 ≠ p.2 then [] else p.1 := by
    rw [hhashes', List.zip_map_right, List.map_map]
    refine List.map_congr_left fun p hp => ?_
    exact if_congr (hdamaged p hp) rfl rfl
  have hcountEq : (((obj'.shardsOf damaged).zip obj'.hashes).countP fun p =>
        decide (lib.hash p.1 ≠ p.2)) =
      ((obj'.shardsOf damaged).zip code).countP fun p => decide (p.1 ≠ p.2) := by
    rw [hhashes', List.zip_map_right, List.countP_map]
    refine List.countP_congr fun p hp => ?_
    simpa using hdamaged p hp
  rw [repair_eq hvalid', hmap, hcountEq]
  refine congrArg Except.ok ?_
  unfold Object.conclude
  by_cases hzero : ((obj'.shardsOf damaged).zip code).countP (fun p => decide (p.1 ≠ p.2)) = 0
  · have hsame : obj'.shardsOf damaged = code := by
      refine eq_of_zip hlen fun p hp => ?_
      simpa using List.countP_eq_zero.1 hzero p hp
    have hpack : fit damaged obj'.packSize = pack := by
      refine eq_of_dataOf (length_fit.trans (hobj' ▸ hsize)) hfits ?_
      have hshard : obj'.shardLen = obj.shardLen := by rw [hobj']
      rw [← hdata, ← hsame, Object.shardsOf, List.take_left' length_dataOf, hshard]
    rw [if_pos hzero, hpack, if_pos rfl]
  · have hoptions : ((((obj'.shardsOf damaged).zip code).map fun p =>
          if p.1 ≠ p.2 then [] else p.1).map fun s => if s = [] then none else some s) =
        ((obj'.shardsOf damaged).zip code).map fun p => if p.1 = p.2 then some p.1 else none := by
      rw [List.map_map]
      refine List.map_congr_left fun p hp => ?_
      dsimp only [Function.comp_apply]
      by_cases heq : p.1 = p.2
      · have hne : p.1 ≠ [] := by
          have hp2 := hcodeLens p.2 (List.of_mem_zip hp).2
          intro h
          rw [← heq, h] at hp2
          exact hvalid.shardPos.ne hp2
        rw [if_neg (not_not.2 heq), if_neg hne, if_pos heq]
      · rw [if_pos heq, if_pos rfl, if_neg heq]
    have hm : obj'.m = obj.m := by rw [hobj']
    rw [if_neg hzero, hm, if_neg (not_lt.2 hcount)]
    unfold rebuild
    dsimp only
    rw [hoptions, hcoder.new]
    dsimp only
    rw [hcoder.reconstruct_erase hcode hlen hcount]
    dsimp only
    have hout : ((((code.map some).take dataShards).filterMap id).flatten.take obj'.packSize) =
        pack := by
      rw [← List.map_take, hdata, List.filterMap_map]
      simp only [Function.comp_def, id_eq, List.filterMap_some]
      rw [hobj', hsize, flatten_dataOf hfits]
    rw [hout, if_neg (not_not.2 rfl)]

/-- A sidecar whose shards were damaged in place is valid. -/
theorem Object.Valid.inPlace (h : obj.Valid) {parity : List Bytes}
    (hparity : parity.map List.length = obj.parity.map List.length) :
    ({ obj with parity } : Object).Valid where
  version := h.version
  data := h.data
  pos := h.pos
  le := h.le
  shardPos := h.shardPos
  shardLe := h.shardLe
  sizePos := h.sizePos
  size := h.size
  hashes := h.hashes
  count := by
    have hlen := congrArg List.length hparity
    rw [List.length_map, List.length_map] at hlen
    exact hlen.trans h.count
  parity p hp := by
    have hmem : p.length ∈ obj.parity.map List.length := hparity ▸ List.mem_map_of_mem hp
    obtain ⟨q, hq, hlen⟩ := List.mem_map.1 hmem
    exact hlen ▸ h.parity q hq

end Repair

/-- **Parity repairs what it promises.** Where no more shards of a pack and of its sidecar are
damaged than were added, the sidecar is parsed and the pack comes back; and with any sidecar that is
parsed, no operation of a repair is out of bounds, and what comes back has the name that was asked
for. -/
theorem parity_repairs (lib : Lib) (hcbor : lib.cbor.Faithful)
    (hhash : ∀ b, lib.hash b < 256 ^ 32) :
    (∀ (pack : Bytes) (m : ℕ), pack ≠ [] → pack.length ≤ dataShards * maxShardLen → 1 ≤ m →
      m ≤ maxParityShards → lib.coder.Lawful dataShards m →
        ∃ obj, object lib (lib.hash pack) pack m = .ok (.ok obj) ∧
          encode lib (lib.hash pack) pack m = .ok (.ok (lib.cbor.write obj.toItem)) ∧
          ∀ (damaged : Bytes) (parity : List Bytes),
            parity.map List.length = obj.parity.map List.length →
            (∀ p ∈ (({ obj with parity } : Object).shardsOf damaged).zip (obj.shardsOf pack),
              lib.hash p.1 = lib.hash p.2 → p.1 = p.2) →
            ((({ obj with parity } : Object).shardsOf damaged).zip (obj.shardsOf pack)).countP
              (fun p => decide (p.1 ≠ p.2)) ≤ m →
            parse lib (lib.cbor.write ({ obj with parity } : Object).toItem) =
                .ok { obj with parity } ∧
              ({ obj with parity } : Object).repair lib (lib.hash pack) damaged = .ok (.ok pack)) ∧
    ∀ (data : Bytes) (obj : Object), parse lib data = .ok obj →
      ∀ (packId : ObjectId) (damaged : Bytes),
      ∃ r, obj.repair lib packId damaged = .ok r ∧ ∀ out, r = .ok out → lib.hash out = packId := by
  constructor
  · intro pack m hpos hlen hm hm' hcoder
    obtain ⟨obj, shards, hobj, hcode, hhashes, rfl, hsize, hvalid⟩ :=
      object_eq hcoder hpos hlen hm hm'
    refine ⟨obj, hobj, by rw [encode, hobj]; rfl,
      fun damaged parity hparity hcollision hcount => ?_⟩
    have hvalid' := hvalid.inPlace hparity
    have hids : ∀ id ∈ obj.hashes, id < 256 ^ 32 := by
      rw [hhashes]
      intro id hid
      obtain ⟨s, -, rfl⟩ := List.mem_map.1 hid
      exact hhash s
    exact ⟨parse_write hcbor hvalid' hids,
      repair_damaged hcoder hcode hvalid hsize hhashes rfl hvalid' hcollision hcount⟩
  · intro data obj hparse packId damaged
    refine ⟨_, repair_eq (valid_of_parse hparse), fun out hout => hash_conclude hout⟩

/-- Bytes are hashed to the number they spell. -/
def sumLib : Lib where
  cbor := .exact
  hash b := ofBe b % 256 ^ 32
  coder := Erasure.sumCoder

/-- The sidecar of twenty zeros. -/
def zeroSidecar : Object where
  v := formatVersion
  k := dataShards
  m := 1
  packSize := 20
  shardLen := 2
  hashes := List.replicate 17 0
  parity := [[0, 0]]

set_option maxRecDepth 2000 in
theorem parity_repairs_zeroSidecar :
    object sumLib 0 (List.replicate 20 0) 1 = .ok (.ok zeroSidecar) ∧
      parse sumLib (sumLib.cbor.write zeroSidecar.toItem) = .ok zeroSidecar ∧
        zeroSidecar.repair sumLib 0 [0, 0, 0, 7] = .ok (.ok (List.replicate 20 0)) ∧
          ∃ r, zeroSidecar.repair sumLib 5 [1, 1, 1, 1] = .ok r ∧
            ∀ out, r = .ok out → sumLib.hash out = 5 := by
  have hobject : object sumLib 0 (List.replicate 20 0) 1 = .ok (.ok zeroSidecar) := by decide
  obtain ⟨hrepairs, hbounds⟩ := parity_repairs sumLib CborLib.faithful_exact
    fun b => Nat.mod_lt _ (by norm_num)
  obtain ⟨obj, hobj, -, hdamaged⟩ := hrepairs (List.replicate 20 0) 1 (by decide) (by decide) le_rfl
    (by decide) (Erasure.lawful_sumCoder (by decide))
  obtain rfl : obj = zeroSidecar := by
    have hsame := hobj.symm.trans hobject
    cases hsame
    rfl
  obtain ⟨hparse, hrepair⟩ := hdamaged [0, 0, 0, 7] [[0, 0]] rfl (by decide) (by decide)
  exact ⟨hobject, hparse, hrepair, hbounds _ _ hparse 5 [1, 1, 1, 1]⟩

end Parity
end Kist
