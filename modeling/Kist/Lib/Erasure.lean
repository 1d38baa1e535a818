import Kist.Lib.Checked

/-!
# Erasure codes

A string is cut into shards of one length, and a code adds further shards to them. Where some of all
these shards are lost, the code rebuilds them from those that are left.

* `flatten_slices`: the shards one behind the other are the string.
* `Coder.Lawful.reconstruct_erase`: shards that are known to be damaged are rebuilt.
-/

namespace Erasure

variable {α : Type*}

/-! ### Shards -/

/-- The first `k` shards of length `n`. -/
def slices (n k : ℕ) (xs : List α) : List (List α) :=
  (List.range k).map fun i => (xs.take ((i + 1) * n)).drop (i * n)

section Slices

variable {n k : ℕ} {xs : List α}

theorem length_slices : (slices n k xs).length = k := by
  rw [slices, List.length_map, List.length_range]

theorem length_of_mem_slices (h : k * n ≤ xs.length) : ∀ s ∈ slices n k xs, s.length = n := by
  intro s hs
  obtain ⟨i, hi, rfl⟩ := List.mem_map.1 hs
  have hle : (i + 1) * n ≤ k * n := Nat.mul_le_mul_right n (List.mem_range.1 hi)
  rw [List.length_drop, List.length_take, min_eq_left (hle.trans h), Nat.succ_mul]
  omega

/-- The shards one behind the other are the string. -/
theorem flatten_slices : (slices n k xs).flatten = xs.take (k * n) := by
  induction k with
  | zero => simp [slices]
  | succ k ih =>
    have htake : (xs.take ((k + 1) * n)).take (k * n) = xs.take (k * n) := by
      rw [List.take_take, min_eq_left (Nat.mul_le_mul_right n (Nat.le_succ k))]
    have hrest : slices n (k + 1) xs = slices n k xs ++ [(xs.take ((k + 1) * n)).drop (k * n)] := by
      simp [slices, List.range_succ]
    rw [hrest, List.flatten_append, ih, List.flatten_singleton, ← htake, List.take_append_drop]

/-- The shards as a compiled program cuts them. -/
theorem mapM_slice (h : k * n ≤ xs.length) :
    (List.range k).mapM (fun i => Checked.slice xs (i * n) ((i + 1) * n)) = .ok
      (slices n k xs) := by
  have hall : ∀ l : List ℕ, (∀ i ∈ l, i < k) →
      l.mapM (fun i => Checked.slice xs (i * n) ((i + 1) * n)) =
        .ok (l.map fun i => (xs.take ((i + 1) * n)).drop (i * n)) := by
    intro l hl
    induction l with
    | nil => rfl
    | cons i l ih =>
      have hle : (i + 1) * n ≤ k * n := Nat.mul_le_mul_right n (hl i List.mem_cons_self)
      rw [List.mapM_cons, ih fun j hj => hl j (List.mem_cons_of_mem _ hj),
        Checked.slice_ok (Nat.mul_le_mul_right n (Nat.le_succ i)) (hle.trans h)]
      rfl
  exact hall _ fun i hi => List.mem_range.1 hi

end Slices

/-! ### Codes -/

/-- A code for `k` shards of data and `m` further ones: it is set up, it computes the further
shards, and it rebuilds the missing ones. -/
structure Coder (σ : Type*) where
  new : ℕ → ℕ → Except String Unit
  encode : ℕ → ℕ → List σ → Except String (List σ)
  reconstruct : ℕ → ℕ → List (Option σ) → Except String (List (Option σ))

/-- The coder makes this code of shards of length `n`. -/
structure Coder.Makes (coder : Coder (List α)) (k m n : ℕ)
    (shards code : List (List α)) : Prop where
  count : shards.length = k + m
  lengths : ∀ s ∈ shards, s.length = n
  pos : 0 < n
  encode : coder.encode k m shards = .ok code

/-- The code leaves the data as it is, and rebuilds up to `m` shards. -/
structure Coder.Lawful (coder : Coder (List α)) (k m : ℕ) : Prop where
  new : coder.new k m = .ok ()
  encode : ∀ shards n, shards.length = k + m → (∀ s ∈ shards, s.length = n) → 0 < n →
    ∃ code, coder.encode k m shards = .ok code ∧ code.take k = shards.take k ∧
      code.length = k + m ∧ ∀ s ∈ code, s.length = n
  reconstruct : ∀ n shards code present, coder.Makes k m n shards code →
    List.Forall₂ (fun p s => p = none ∨ p = some s) present code →
      present.countP Option.isNone ≤ m → coder.reconstruct k m present = .ok (code.map some)

variable {coder : Coder (List α)} {k m n : ℕ} {shards code damaged : List (List α)}

/-- Shards that are known to be damaged are rebuilt. -/
theorem Coder.Lawful.reconstruct_erase [DecidableEq α] (h : coder.Lawful k m)
    (hcode : coder.Makes k m n shards code) (hlen : damaged.length = code.length)
    (hm : (damaged.zip code).countP (fun p => decide (p.1 ≠ p.2)) ≤ m) :
    coder.reconstruct k m ((damaged.zip code).map fun p => if p.1 = p.2 then some p.1 else none) =
      .ok (code.map some) := by
  refine h.reconstruct _ _ _ _ hcode ?_ ?_
  · clear hm hcode
    induction damaged generalizing code with
    | nil =>
      rw [List.length_nil] at hlen
      rw [List.length_eq_zero_iff.1 hlen.symm]
      exact .nil
    | cons d damaged ih =>
      cases code with
      | nil => cases hlen
      | cons c code =>
        refine .cons ?_ (ih (by simpa using hlen))
        dsimp only
        split_ifs with heq
        · exact .inr (by rw [heq])
        · exact .inl rfl
  · refine le_trans (le_of_eq ?_) hm
    rw [List.countP_map]
    refine List.countP_congr fun p _ => ?_
    dsimp only [Function.comp_apply]
    split_ifs with heq <;> simp [heq]

/-! ### One further shard -/

/-- The bytes of two shards, added bit by bit. -/
def xorShard (a b : List UInt8) : List UInt8 := List.zipWith (· ^^^ ·) a b

/-- The sum of shards of length `n`. -/
def xorAll (n : ℕ) (shards : List (List UInt8)) : List UInt8 :=
  shards.foldr xorShard (List.replicate n 0)

/-- A code with one further shard, the sum of the others. -/
def sumCoder : Coder (List UInt8) where
  new _ m := if m = 1 then .ok () else .error "one further shard only"
  encode k _ shards :=
    .ok (shards.take k ++ [xorAll (shards.headD []).length (shards.take k)])
  reconstruct _ _ present :=
    let known := present.filterMap id
    .ok (present.map fun p => some (p.getD (xorAll (known.headD []).length known)))

section Sum

variable {n : ℕ} {a b c x : List UInt8} {shards pre post : List (List UInt8)}

theorem xorShard_comm : xorShard a b = xorShard b a := by
  rw [xorShard, List.zipWith_comm]
  simp only [UInt8.xor_comm]
  rfl

theorem xorShard_assoc : xorShard (xorShard a b) c = xorShard a (xorShard b c) := by
  induction a generalizing b c with
  | nil => rfl
  | cons x a ih =>
    cases b with
    | nil => rfl
    | cons y b =>
      cases c with
      | nil => rfl
      | cons z c => exact congrArg₂ List.cons (UInt8.xor_assoc x y z) ih

theorem xorShard_self : xorShard a a = List.replicate a.length 0 := by
  induction a with
  | nil => rfl
  | cons x a ih => exact congrArg₂ List.cons UInt8.xor_self ih

theorem xorShard_zero : xorShard (List.replicate a.length 0) a = a := by
  induction a with
  | nil => rfl
  | cons x a ih => exact congrArg₂ List.cons UInt8.zero_xor ih

theorem length_xorAll (h : ∀ s ∈ shards, s.length = n) : (xorAll n shards).length = n := by
  induction shards with
  | nil => exact List.length_replicate
  | cons s shards ih =>
    rw [List.forall_mem_cons] at h
    rw [xorAll, List.foldr_cons, xorShard, List.length_zipWith, h.1]
    exact min_eq_left (ih h.2).ge

/-- A shard can be taken out of a sum. -/
theorem xorAll_middle : xorAll n (pre ++ x :: post) = xorShard x (xorAll n (pre ++ post)) := by
  induction pre with
  | nil => rfl
  | cons s pre ih =>
    have hcons : ∀ ss, xorAll n (s :: ss) = xorShard s (xorAll n ss) := fun _ => rfl
    rw [List.cons_append, List.cons_append, hcons, hcons, ih, ← xorShard_assoc, ← xorShard_assoc,
      @xorShard_comm s x]

/-- Shards whose sum is zero are the same. -/
theorem eq_of_xorShard (ha : a.length = n) (hb : b.length = n)
    (h : xorShard a b = List.replicate n 0) : a = b := by
  calc a = xorShard a (List.replicate n 0) := by
        rw [xorShard_comm, ← ha, xorShard_zero]
    _ = xorShard (xorShard a b) b := by rw [xorShard_assoc, xorShard_self, hb]
    _ = b := by rw [h, ← hb, xorShard_zero]

/-- The sum of the whole code is zero. -/
theorem xorAll_code (h : ∀ s ∈ shards, s.length = n) :
    xorAll n (shards ++ [xorAll n shards]) = List.replicate n 0 := by
  rw [xorAll_middle, List.append_nil, xorShard_self, length_xorAll h]

/-- What is present of a code with at most one shard lost: all of it, or all but one. -/
theorem present_cases {present : List (Option (List UInt8))} {code : List (List UInt8)}
    (h : List.Forall₂ (fun p s => p = none ∨ p = some s) present code)
    (hm : present.countP Option.isNone ≤ 1) :
    present = code.map some ∨ ∃ pre x post, code = pre ++ x :: post ∧
      present = pre.map some ++ none :: post.map some := by
  induction h with
  | nil => exact .inl rfl
  | @cons p s present code hps hrest ih =>
    rcases hps with rfl | rfl
    · have hnone : present.countP Option.isNone = 0 := by
        rw [List.countP_cons] at hm
        simp at hm ⊢
        exact hm
      have hall : present = code.map some := by
        clear ih hm
        induction hrest with
        | nil => rfl
        | cons hps _ ih =>
          rw [List.countP_cons] at hnone
          rcases hps with rfl | rfl
          · simp at hnone
          · rw [List.map_cons, ih (by omega)]
      exact .inr ⟨[], s, code, rfl, by rw [hall]; rfl⟩
    · rw [List.countP_cons] at hm
      rcases ih (by omega) with heq | ⟨pre, x, post, rfl, heq⟩
      · exact .inl (by rw [heq]; rfl)
      · exact .inr ⟨s :: pre, x, post, rfl, by rw [heq]; rfl⟩

theorem head_of_lengths (h : ∀ s ∈ shards, s.length = n) (hne : shards ≠ []) :
    (shards.headD []).length = n := by
  cases shards with
  | nil => exact absurd rfl hne
  | cons s shards => exact h s List.mem_cons_self

theorem sumCoder_encode {k m : ℕ} {code : List (List UInt8)} (hk : 0 < k)
    (h : sumCoder.Makes k m n shards code) :
    (shards.take k).length = k ∧ (∀ s ∈ shards.take k, s.length = n) ∧
      code = shards.take k ++ [xorAll n (shards.take k)] := by
  have hcount := h.count
  have hne : shards ≠ [] := by
    rintro rfl
    rw [List.length_nil] at hcount
    omega
  refine ⟨by rw [List.length_take]; omega, fun s hs => h.lengths s (List.mem_of_mem_take hs), ?_⟩
  have hencode : Except.ok (shards.take k ++ [xorAll (shards.headD []).length (shards.take k)]) =
      (Except.ok code : Except String (List (List UInt8))) := h.encode
  rw [head_of_lengths h.lengths hne] at hencode
  cases hencode
  rfl

/-- The sum of the others rebuilds a shard. -/
theorem lawful_sumCoder {k : ℕ} (hk : 0 < k) : sumCoder.Lawful k 1 where
  new := rfl
  encode shards n hlen hlens hn := by
    obtain ⟨code, hcode⟩ : ∃ code, sumCoder.encode k 1 shards = .ok code := ⟨_, rfl⟩
    obtain ⟨hcount, htake, rfl⟩ := sumCoder_encode hk ⟨hlen, hlens, hn, hcode⟩
    refine ⟨_, hcode, List.take_left' hcount, by rw [List.length_append, hcount]; rfl,
      fun s hs => ?_⟩
    rcases List.mem_append.1 hs with hs | hs
    · exact htake s hs
    · rw [List.mem_singleton.1 hs]
      exact length_xorAll htake
  reconstruct n shards code present hcode hpresent hm := by
    obtain ⟨hcount, htake, hcodeEq⟩ := sumCoder_encode hk hcode
    have hlens : ∀ s ∈ code, s.length = n := by
      rw [hcodeEq]
      intro s hs
      rcases List.mem_append.1 hs with hs | hs
      · exact htake s hs
      · rw [List.mem_singleton.1 hs]
        exact length_xorAll htake
    -- all shards of a code word sum to zero, so the one that is missing is the sum of the others
    have hzero : xorAll n code = List.replicate n 0 := by rw [hcodeEq, xorAll_code htake]
    refine congrArg Except.ok ?_
    rcases present_cases hpresent hm with rfl | ⟨pre, x, post, rfl, rfl⟩
    · rw [List.map_map]
      rfl
    · have hknown : (pre.map some ++ none :: post.map some).filterMap id = pre ++ post := by
        simp [List.filterMap_append]
      have hothers : ∀ s ∈ pre ++ post, s.length = n := fun s hs =>
        hlens s (by
          rcases List.mem_append.1 hs with hs | hs
          · exact List.mem_append_left _ hs
          · exact List.mem_append_right _ (List.mem_cons_of_mem _ hs))
      have hne : pre ++ post ≠ [] := by
        intro h
        have hlen := congrArg List.length hcodeEq
        rw [List.length_append, List.length_append, hcount, List.length_cons] at hlen
        rw [List.append_eq_nil_iff] at h
        rw [h.1, h.2] at hlen
        simp at hlen
        omega
      have hlost : xorAll n (pre ++ post) = x := by
        rw [xorAll_middle] at hzero
        exact (eq_of_xorShard (hlens x (by simp)) (length_xorAll hothers) hzero).symm
      rw [hknown, head_of_lengths hothers hne, hlost, List.map_append, List.map_cons, List.map_map,
        List.map_map, List.map_append, List.map_cons]
      rfl

end Sum

end Erasure
