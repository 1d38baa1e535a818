import Kist.Lib.Cbor

/-!
# The structure of CBOR

`kist-format::cbor`: before it is decoded, the structure of a value is walked, and what is not
canonical is rejected. `walks_map` and its like say that the canonical encoding passes.
-/

namespace Kist

/-- `MAX_STRUCTURE_DEPTH`. -/
def maxStructureDepth : ℕ := 64

/-- `read_uint`: the number in the next `n` bytes, and the position behind it. -/
def readUint (data : Bytes) (pos n : ℕ) : Except String (ℕ × ℕ) :=
  if data.length < pos + n then .error "truncated CBOR length"
  else .ok (Cbor.ofBe ((data.drop pos).take n), pos + n)

/-- The argument of an item. -/
def readArgument (data : Bytes) (info pos : ℕ) : Except String (ℕ × ℕ) :=
  if info ≤ 23 then .ok (info, pos)
  else if info = 24 then readUint data pos 1
  else if info = 25 then readUint data pos 2
  else if info = 26 then readUint data pos 4
  else if info = 27 then readUint data pos 8
  else if info = 31 then .error "indefinite length is not canonical CBOR"
  else .error "reserved additional info in CBOR item"

/-- A walk, again and again. -/
def walkItems (walk : ℕ → Except String ℕ) : ℕ → ℕ → Except String ℕ
  | 0, pos => .ok pos
  | n + 1, pos =>
    match walk pos with
    | .error e => .error e
    | .ok pos => walkItems walk n pos

/-- What follows the head of an item; `walk` goes one level down. -/
def walkBody (data : Bytes) (walk : ℕ → Except String ℕ) (major argument pos : ℕ) :
    Except String ℕ :=
  if major = 0 ∨ major = 1 ∨ major = 7 then .ok pos
  else if major = 2 ∨ major = 3 then
    if data.length < pos + argument then .error "truncated CBOR string payload"
    else .ok (pos + argument)
  else if major = 4 then walkItems walk argument pos
  else if major = 5 then walkItems walk (2 * argument) pos
  else .error "CBOR tag is not canonical"

/-- `walk_structure`, with the levels that are left instead of the depth. -/
def walkStructure (data : Bytes) : ℕ → ℕ → Except String ℕ
  | 0, _ => .error "CBOR nesting too deep"
  | levels + 1, pos =>
    match data[pos]? with
    | none => .error "truncated CBOR item"
    | some initial =>
      match readArgument data (initial.toNat % 32) (pos + 1) with
      | .error e => .error e
      | .ok (argument, pos) =>
        walkBody data (walkStructure data levels) (initial.toNat / 32) argument pos

/-- `reject_noncanonical`. -/
def rejectNoncanonical (data : Bytes) : Except String Unit :=
  match walkStructure data (maxStructureDepth + 1) 0 with
  | .error e => .error e
  | .ok pos =>
    if pos ≠ data.length then .error s!"{data.length - pos} trailing bytes after CBOR value"
    else .ok ()

/-- The walk passes over these bytes, wherever they stand. -/
def Walks (levels : ℕ) (item : Bytes) : Prop :=
  ∀ pre post, walkStructure (pre ++ item ++ post) levels pre.length = .ok (pre.length + item.length)

variable {levels major arg : ℕ} {item : Bytes}

theorem readUint_beBytes {k : ℕ} (h : arg < 256 ^ k) (pre post : Bytes) (b : UInt8) :
    readUint (pre ++ (b :: Cbor.beBytes k arg) ++ post) (pre.length + 1) k =
      .ok (arg, pre.length + 1 + k) := by
  have hdrop : ((pre ++ (b :: Cbor.beBytes k arg) ++ post).drop (pre.length + 1)).take k =
      Cbor.beBytes k arg := by
    rw [List.append_assoc, List.cons_append, ← List.drop_drop, List.drop_left,
      List.drop_succ_cons, List.drop_zero]
    exact List.take_left' Cbor.length_beBytes
  have hlen : ¬(pre ++ (b :: Cbor.beBytes k arg) ++ post).length < pre.length + 1 + k := by
    simp only [List.length_append, List.length_cons, Cbor.length_beBytes]
    omega
  rw [readUint, hdrop, Cbor.ofBe_beBytes h, if_neg hlen]

/-- The first byte of the shortest head, and the argument read from behind it. -/
theorem exists_info (harg : arg < 2 ^ 64) : ∃ info tail, info < 32 ∧
    Cbor.head major arg = UInt8.ofNat (major * 32 + info) :: tail ∧
    ∀ pre post, readArgument (pre ++ Cbor.head major arg ++ post) info (pre.length + 1) =
      .ok (arg, pre.length + (Cbor.head major arg).length) := by
  have hwide : ∀ (info k : ℕ), info < 32 → arg < 256 ^ k →
      Cbor.head major arg = UInt8.ofNat (major * 32 + info) :: Cbor.beBytes k arg →
      (∀ data pos, readArgument data info pos = readUint data pos k) →
      ∃ info tail, info < 32 ∧ Cbor.head major arg = UInt8.ofNat (major * 32 + info) :: tail ∧
        ∀ pre post, readArgument (pre ++ Cbor.head major arg ++ post) info (pre.length + 1) =
          .ok (arg, pre.length + (Cbor.head major arg).length) := by
    intro info k hinfo hk hhead hread
    refine ⟨info, _, hinfo, hhead, fun pre post => ?_⟩
    rw [hread, hhead, readUint_beBytes hk, List.length_cons, Cbor.length_beBytes, Nat.add_assoc,
      Nat.add_comm 1 k]
  by_cases h₁ : arg ≤ 23
  · have hhead : Cbor.head major arg = [UInt8.ofNat (major * 32 + arg)] := if_pos h₁
    refine ⟨arg, [], by omega, hhead, fun pre post => ?_⟩
    rw [readArgument, if_pos h₁, hhead]
    rfl
  by_cases h₂ : arg < 2 ^ 8
  · exact hwide 24 1 (by norm_num) h₂ (by rw [Cbor.head, if_neg h₁, if_pos h₂]) fun _ _ => rfl
  by_cases h₃ : arg < 2 ^ 16
  · exact hwide 25 2 (by norm_num) h₃
      (by rw [Cbor.head, if_neg h₁, if_neg h₂, if_pos h₃]) fun _ _ => rfl
  by_cases h₄ : arg < 2 ^ 32
  · exact hwide 26 4 (by norm_num) h₄
      (by rw [Cbor.head, if_neg h₁, if_neg h₂, if_neg h₃, if_pos h₄]) fun _ _ => rfl
  · exact hwide 27 8 (by norm_num) harg
      (by rw [Cbor.head, if_neg h₁, if_neg h₂, if_neg h₃, if_neg h₄]) fun _ _ => rfl

/-- The walk behind the shortest head. -/
theorem walkStructure_head (hmajor : major < 8) (harg : arg < 2 ^ 64) (pre post : Bytes) :
    walkStructure (pre ++ Cbor.head major arg ++ post) (levels + 1) pre.length =
      walkBody (pre ++ Cbor.head major arg ++ post)
        (walkStructure (pre ++ Cbor.head major arg ++ post) levels) major arg
        (pre.length + (Cbor.head major arg).length) := by
  obtain ⟨info, tail, hinfo, hhead, hread⟩ := @exists_info major arg harg
  have hfirst : (pre ++ Cbor.head major arg ++ post)[pre.length]? =
      some (UInt8.ofNat (major * 32 + info)) := by
    rw [hhead]
    simp
  have hnat : (UInt8.ofNat (major * 32 + info)).toNat = major * 32 + info := by
    rw [UInt8.toNat_ofNat']
    omega
  rw [walkStructure, hfirst]
  dsimp only
  rw [hnat, show (major * 32 + info) % 32 = info by omega,
    show (major * 32 + info) / 32 = major by omega, hread]

theorem walks_uint (h : arg < 2 ^ 64) : Walks (levels + 1) (Cbor.uint arg) := by
  intro pre post
  rw [Cbor.uint, walkStructure_head (by norm_num) h]
  simp [walkBody]

/-- The walk passes over the content of a string. -/
theorem walks_string (hmajor : major = 2 ∨ major = 3) (h : item.length < 2 ^ 64) :
    Walks (levels + 1) (Cbor.head major item.length ++ item) := by
  intro pre post
  rw [← List.append_assoc pre, List.append_assoc _ item,
    walkStructure_head (by omega) h, walkBody, if_neg (by omega), if_pos hmajor, if_neg]
  · rw [List.length_append, Nat.add_assoc]
  · simp only [List.length_append]
    omega

theorem walks_bytes (h : item.length < 2 ^ 64) : Walks (levels + 1) (Cbor.bytes item) :=
  walks_string (.inl rfl) h

theorem walks_text (h : item.length < 2 ^ 64) : Walks (levels + 1) (Cbor.text item) :=
  walks_string (.inr rfl) h

/-- The walk passes over items that stand one behind the other. -/
theorem walkItems_flatten {items : List Bytes} (h : ∀ item ∈ items, Walks levels item)
    (pre post : Bytes) :
    walkItems (walkStructure (pre ++ items.flatten ++ post) levels) items.length pre.length =
      .ok (pre.length + items.flatten.length) := by
  induction items generalizing pre with
  | nil => rfl
  | cons item items ih =>
    have hfirst := h item (by simp) pre (items.flatten ++ post)
    have hrest := ih (fun x hx => h x (List.mem_cons_of_mem _ hx)) (pre ++ item)
    have hdata : pre ++ (item :: items).flatten ++ post =
        pre ++ item ++ (items.flatten ++ post) := by simp
    rw [List.length_cons, walkItems, hdata, hfirst]
    dsimp only
    rw [← List.append_assoc]
    rw [List.length_append] at hrest
    rw [hrest, List.flatten_cons, List.length_append, Nat.add_assoc]

theorem walks_array {items : List Bytes} (hlen : items.length < 2 ^ 64)
    (h : ∀ item ∈ items, Walks levels item) : Walks (levels + 1) (Cbor.array items) := by
  intro pre post
  rw [Cbor.array, ← List.append_assoc pre, List.append_assoc _ items.flatten,
    walkStructure_head (by norm_num) hlen, walkBody, if_neg (by norm_num), if_neg (by norm_num),
    if_pos rfl, ← List.append_assoc _ items.flatten, ← List.length_append, walkItems_flatten h,
    List.length_append, List.length_append, Nat.add_assoc]

theorem walks_map {fields : List (Bytes × Bytes)} (hlen : fields.length < 2 ^ 64)
    (h : ∀ f ∈ fields, Walks levels f.1 ∧ Walks levels f.2) :
    Walks (levels + 1) (Cbor.map fields) := by
  -- the keys and the items are walked in turn
  have hitems : ∀ item ∈ fields.flatMap fun f => [f.1, f.2], Walks levels item := by
    intro item hitem
    obtain ⟨f, hf, hitem⟩ := List.mem_flatMap.1 hitem
    rcases List.mem_pair.1 hitem with rfl | rfl
    · exact (h f hf).1
    · exact (h f hf).2
  have hcount : (fields.flatMap fun f => [f.1, f.2]).length = 2 * fields.length := by
    simp [List.length_flatMap, Nat.mul_comm]
  have hflat : (fields.flatMap fun f => [f.1, f.2]).flatten = fields.flatMap fun f =>
    f.1 ++ f.2 := by
    rw [List.flatten_eq_flatMap, List.flatMap_assoc]
    simp
  intro pre post
  have hwalk := walkItems_flatten hitems (pre ++ Cbor.head 5 fields.length) post
  rw [hcount, hflat, List.length_append] at hwalk
  rw [Cbor.map, ← List.append_assoc pre, List.append_assoc _ (fields.flatMap _),
    walkStructure_head (by norm_num) hlen, walkBody, if_neg (by norm_num), if_neg (by norm_num),
    if_neg (by norm_num), if_pos rfl, ← List.append_assoc _ (fields.flatMap _), hwalk,
    List.length_append, Nat.add_assoc]

/-- What the walk passes over, from its start to its end, is not rejected. -/
theorem rejectNoncanonical_of_walks (h : Walks (maxStructureDepth + 1) item) :
    rejectNoncanonical item = .ok () := by
  have hwalk := h [] []
  rw [List.nil_append, List.append_nil, List.length_nil, Nat.zero_add] at hwalk
  rw [rejectNoncanonical, hwalk]
  simp

end Kist
