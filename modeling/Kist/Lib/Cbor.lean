import Kist.Lib.Bytes

/-!
# Canonical CBOR

The encoding of numbers, strings, arrays and maps with definite lengths and the shortest heads. An
item is given by its bytes, so that arrays and maps are built from encoded items.
-/

namespace Cbor

/-- The lowest `k` bytes of a number, the most significant one first. -/
def beBytes : ℕ → ℕ → Bytes
  | 0, _ => []
  | k + 1, n => UInt8.ofNat (n / 256 ^ k % 256) :: beBytes k n

/-- The number that bytes spell, the most significant one first. -/
def ofBe (bs : Bytes) : ℕ := bs.foldl (fun v b => v * 256 + b.toNat) 0

/-- The head of an item: its major type and its argument. -/
def head (major arg : ℕ) : Bytes :=
  if arg ≤ 23 then [UInt8.ofNat (major * 32 + arg)]
  else if arg < 2 ^ 8 then UInt8.ofNat (major * 32 + 24) :: beBytes 1 arg
  else if arg < 2 ^ 16 then UInt8.ofNat (major * 32 + 25) :: beBytes 2 arg
  else if arg < 2 ^ 32 then UInt8.ofNat (major * 32 + 26) :: beBytes 4 arg
  else UInt8.ofNat (major * 32 + 27) :: beBytes 8 arg

/-- An unsigned number. -/
def uint (n : ℕ) : Bytes := head 0 n

/-- A byte string. -/
def bytes (b : Bytes) : Bytes := head 2 b.length ++ b

/-- A text string, by its UTF-8 bytes. -/
def text (b : Bytes) : Bytes := head 3 b.length ++ b

/-- An array of encoded items. -/
def array (items : List Bytes) : Bytes := head 4 items.length ++ items.flatten

/-- A map of encoded keys to encoded items, in the order in which they are given. -/
def map (fields : List (Bytes × Bytes)) : Bytes :=
  head 5 fields.length ++ fields.flatMap fun f => f.1 ++ f.2

variable {k n : ℕ} {bs cs : Bytes} {fields : List (Bytes × Bytes)}

@[simp] theorem length_beBytes : (beBytes k n).length = k := by
  induction k with
  | zero => rfl
  | succ k ih => simp [beBytes, ih]

theorem ofBe_cons (b : UInt8) : ofBe (b :: bs) = b.toNat * 256 ^ bs.length + ofBe bs := by
  have hfold : ∀ (bs : Bytes) (v : ℕ), bs.foldl (fun v b => v * 256 + b.toNat) v =
      v * 256 ^ bs.length + ofBe bs := by
    intro bs
    induction bs with
    | nil => simp [ofBe]
    | cons b bs ih =>
      intro v
      have htail : ofBe (b :: bs) = b.toNat * 256 ^ bs.length + ofBe bs := by
        rw [ofBe, List.foldl_cons, ih, Nat.zero_mul, Nat.zero_add]
      rw [List.foldl_cons, ih, htail, List.length_cons, pow_succ]
      ring
  rw [ofBe, List.foldl_cons, hfold]
  simp

/-- The bytes of a number that fits spell it. -/
theorem ofBe_beBytes (h : n < 256 ^ k) : ofBe (beBytes k n) = n := by
  have hmod : ∀ k, ofBe (beBytes k n) = n % 256 ^ k := by
    intro k
    induction k with
    | zero => simp [beBytes, ofBe, Nat.mod_one]
    | succ k ih =>
      have hlt : n / 256 ^ k % 256 < 2 ^ 8 := Nat.mod_lt _ (by norm_num)
      rw [beBytes, ofBe_cons, ih, length_beBytes, UInt8.toNat_ofNat', Nat.mod_eq_of_lt hlt,
        pow_succ, Nat.mod_mul]
      ring
  rw [hmod, Nat.mod_eq_of_lt h]

/-- An item of a map is not longer than the map. -/
theorem length_le_array {items : List Bytes} (h : ∀ b ∈ items, k ≤ b.length) :
    k * items.length ≤ (array items).length := by
  rw [array, List.length_append, List.length_flatten]
  have hsum : items.length * k ≤ (items.map List.length).sum := by
    have := List.card_nsmul_le_sum (items.map List.length) k (by simpa using h)
    simpa using this
  rw [Nat.mul_comm]
  omega

end Cbor
