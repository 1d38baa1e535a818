import Kist.Lib.Checked
import Kist.Format.Config
import Kist.Chunker.GearTable

/-!
# The boundary function

`Chunker::new` derives the two masks from the average chunk size, `boundary` finds the length of
the chunk that starts at the first byte it is given. The bytes before `min` take no part in the
hash, the stricter mask holds up to `avg`, the looser one up to the hard limit `max`.

* `boundary_ok`: on a non-empty input no operation of the scan faults, and the length found is
  positive, at most `max`, and at least `min` unless the chunk is the whole input;
* `boundary_append`: the length depends only on the first `max` bytes.
-/

namespace Kist
namespace Chunking

open Checked

/-- The loop of `round_log2`: raise `b` while `2^(b+1) ≤ v`. A `u64` shift faults at 64, so the
counter never runs out before the shift does. -/
def log2Loop (v : ℕ) : ℕ → ℕ → Except Fault ℕ
  | 0, _ => .error .shift
  | n + 1, b => do
    if (← bit64 (b + 1)) ≤ v then log2Loop v n (b + 1) else return b

/-- `round_log2`: the integer nearest to `log₂ v`, rounded up from `2^b·√2`. -/
def roundLog2 (v : ℕ) : Except Fault ℕ := do
  let b ← log2Loop v 64 0
  if v * v ≥ (← bit64 (2 * b + 1)) then return b + 1 else return b

/-- `Chunker`. -/
structure Chunker where
  params : ChunkerParams
  maskSmall : UInt64
  maskLarge : UInt64
  deriving DecidableEq

/-- `Chunker::new`. -/
def Chunker.new (params : ChunkerParams) : Except Fault Chunker := do
  let bits ← roundLog2 params.avg
  let small ← sub (← bit64 (bits + 2)) 1
  let large ← sub (← bit64 (bits - 2)) 1
  return ⟨params, .ofNat small, .ofNat large⟩

/-- One loop of `boundary`: hash `n` bytes from position `i` on. `inl` is the early return of a
cut, `inr` the position and the hash the loop ends with. -/
def scan (data : List UInt8) (mask : UInt64) : ℕ → ℕ → UInt64 → Except Fault (ℕ ⊕ (ℕ × UInt64))
  | i, 0, fp => return .inr (i, fp)
  | i, n + 1, fp => do
    let g ← at_ gearTable (← at_ data i).toNat
    let fp := fp <<< 1 + g
    if fp &&& mask = 0 then return .inl (i + 1)
    scan data mask (i + 1) n fp

/-- `boundary`: the length of the chunk that starts at `data[0]`. -/
def boundary (data : List UInt8) (c : Chunker) : Except Fault ℕ := do
  if data.length ≤ c.params.min then return data.length
  let limit := Nat.min data.length c.params.max
  let normal := Nat.min limit c.params.avg
  match ← scan data c.maskSmall c.params.min (normal - c.params.min) 0 with
  | .inl cut => return cut
  | .inr (i, fp) =>
    match ← scan data c.maskLarge i (limit - i) fp with
    | .inl cut => return cut
    | .inr (i, _) => return i

/-! ### The masks -/

theorem log2Loop_ok {v : ℕ} (hv : v < 2 ^ 26) :
    ∀ {n b : ℕ}, 27 ≤ n + b → b ≤ 26 → 2 ^ b ≤ v ∨ b = 0 →
      ∃ r, log2Loop v n b = .ok r ∧ r ≤ 26
  | 0, b, hn, hb, _ => by omega
  | n + 1, b, hn, hb, hlo => by
    have hb' : b < 26 := by
      rcases hlo with h | h
      · by_contra hge
        have : (2 : ℕ) ^ 26 ≤ 2 ^ b := Nat.pow_le_pow_right (by norm_num) (by omega)
        omega
      · omega
    rw [log2Loop, bit64_ok (by omega)]
    simp only [bind, Except.bind, pure, Except.pure]
    split_ifs with h
    · exact log2Loop_ok hv (by omega) (by omega) (.inl h)
    · exact ⟨b, rfl, by omega⟩

theorem roundLog2_ok {v : ℕ} (hv : v < 2 ^ 26) : ∃ r, roundLog2 v = .ok r ∧ r ≤ 27 := by
  obtain ⟨b, hb, hle⟩ := log2Loop_ok hv (n := 64) (b := 0) (by omega) (by omega) (.inr rfl)
  rw [roundLog2, hb]
  simp only [bind, Except.bind, bit64_ok (show 2 * b + 1 < 64 by omega), pure, Except.pure]
  split_ifs
  · exact ⟨b + 1, rfl, by omega⟩
  · exact ⟨b, rfl, by omega⟩

/-- The masks of accepted parameters are computed without a fault. -/
theorem new_ok {p : ChunkerParams} (hp : p.Valid) :
    ∃ c, Chunker.new p = .ok c ∧ c.params = p := by
  have hv : p.avg < 2 ^ 26 := by have := hp.avg_le; omega
  obtain ⟨bits, hbits, hle⟩ := roundLog2_ok hv
  have hone : ∀ k, 1 ≤ 2 ^ k := fun k => Nat.one_le_two_pow
  refine ⟨⟨p, .ofNat (2 ^ (bits + 2) - 1), .ofNat (2 ^ (bits - 2) - 1)⟩, ?_, rfl⟩
  simp [Chunker.new, hbits, bit64_ok (show bits + 2 < 64 by omega),
    bit64_ok (show bits - 2 < 64 by omega), sub_ok (hone _), bind, Except.bind, pure, Except.pure]

/-! ### The scan -/

/-- A scan within the data never faults; it ends at its last position or cuts before. -/
theorem scan_ok (data : List UInt8) (mask : UInt64) :
    ∀ (n i : ℕ) (fp : UInt64), i + n ≤ data.length →
      (∃ j, scan data mask i n fp = .ok (.inl j) ∧ i < j ∧ j ≤ i + n) ∨
      (∃ fp', scan data mask i n fp = .ok (.inr (i + n, fp')))
  | 0, i, fp, _ => .inr ⟨fp, rfl⟩
  | n + 1, i, fp, h => by
    have hi : i < data.length := by omega
    have hg : data[i].toNat < gearTable.length := by
      rw [gearTable_length]; exact UInt8.toNat_lt _
    rw [scan, at_ok hi]
    simp only [bind, Except.bind, at_ok hg, pure, Except.pure]
    split_ifs with hcut
    · exact .inl ⟨i + 1, rfl, by omega, by omega⟩
    · rcases scan_ok data mask n (i + 1) _ (by omega) with ⟨j, hj, hlo, hhi⟩ | ⟨fp', hfp⟩
      · exact .inl ⟨j, hj, by omega, by omega⟩
      · exact .inr ⟨fp', by rw [hfp, show i + 1 + n = i + (n + 1) by omega]⟩

/-- A scan reads only the positions it passes. -/
theorem scan_append (data more : List UInt8) (mask : UInt64) :
    ∀ (n i : ℕ) (fp : UInt64), i + n ≤ data.length →
      scan (data ++ more) mask i n fp = scan data mask i n fp
  | 0, _, _, _ => rfl
  | n + 1, i, fp, h => by
    have hi : (data ++ more)[i]? = data[i]? := List.getElem?_append_left (by omega)
    have hat : at_ (data ++ more) i = at_ data i := by simp only [at_, hi]
    rw [scan, scan, hat]
    simp only [scan_append data more mask n (i + 1) _ (by omega)]

/-- **The boundary is in range.** No operation of the scan faults on a non-empty input; the chunk
is not empty, not longer than `max`, and not shorter than `min` unless nothing follows it. -/
theorem boundary_ok {c : Chunker} (hp : c.params.Valid) {data : List UInt8} (hne : data ≠ []) :
    ∃ l, boundary data c = .ok l ∧ 0 < l ∧ l ≤ data.length ∧ l ≤ c.params.max ∧
      (l < data.length → c.params.min ≤ l) := by
  have hpos : 0 < data.length := List.length_pos_of_ne_nil hne
  have h64 := hp.min_pos
  have hma := hp.min_avg
  have hmx := hp.avg_max
  rw [boundary]
  by_cases hshort : data.length ≤ c.params.min
  · exact ⟨data.length, by simp [hshort, pure, Except.pure], hpos, le_rfl, by omega, by omega⟩
  simp only [hshort, if_false, bind, Except.bind, pure, Except.pure]
  set limit := Nat.min data.length c.params.max with hlimit
  set normal := Nat.min limit c.params.avg with hnormal
  have hl : limit ≤ data.length ∧ limit ≤ c.params.max ∧ c.params.min ≤ limit :=
    ⟨Nat.min_le_left _ _, Nat.min_le_right _ _, Nat.le_min.2 ⟨by omega, by omega⟩⟩
  have hn : normal ≤ limit ∧ c.params.min ≤ normal :=
    ⟨Nat.min_le_left _ _, Nat.le_min.2 ⟨hl.2.2, hma⟩⟩
  rcases scan_ok data c.maskSmall (normal - c.params.min) c.params.min 0 (by omega) with
    ⟨j, hj, hlo, hhi⟩ | ⟨fp, hfp⟩
  · exact ⟨j, by rw [hj], by omega, by omega, by omega, fun _ => by omega⟩
  rw [hfp, show c.params.min + (normal - c.params.min) = normal by omega]
  rcases scan_ok data c.maskLarge (limit - normal) normal fp (by omega) with
    ⟨j, hj, hlo, hhi⟩ | ⟨fp', hfp'⟩
  · exact ⟨j, by simp only [hj], by omega, by omega, by omega, fun _ => by omega⟩
  · refine ⟨limit, ?_, by omega, hl.1, hl.2.1, fun _ => hl.2.2⟩
    simp only [hfp', show normal + (limit - normal) = limit by omega]

/-- **The boundary is local.** With at least `max` bytes at hand, what follows them does not
move it. -/
theorem boundary_append {c : Chunker} (hp : c.params.Valid) {data : List UInt8}
    (hlen : c.params.max ≤ data.length) (more : List UInt8) :
    boundary (data ++ more) c = boundary data c := by
  have hma := hp.min_avg
  have hmx := hp.avg_max
  have hlim : ∀ k, c.params.max ≤ k → Nat.min k c.params.max = c.params.max :=
    fun k hk => Nat.min_eq_right hk
  by_cases hshort : data.length ≤ c.params.min
  · -- then `min = max = data.length`, and the longer input is cut at `max` without a scan
    have hmm : c.params.min = c.params.max := by omega
    have hav : c.params.avg = c.params.max := by omega
    have hd : data.length = c.params.max := by omega
    by_cases hlong : (data ++ more).length ≤ c.params.min
    · have : more = [] := by
        rw [List.length_append] at hlong
        exact List.length_eq_zero_iff.1 (by omega)
      rw [this, List.append_nil]
    · rw [boundary, boundary]
      simp only [hshort, hlong, if_true, if_false, hlim _ (show c.params.max ≤ (data ++ more).length
        by rw [List.length_append]; omega), bind, Except.bind, pure, Except.pure]
      simp only [hav, hmm, Nat.min_self, Nat.sub_self, scan, pure, Except.pure, hd]
  · have hlong : ¬(data ++ more).length ≤ c.params.min := by rw [List.length_append]; omega
    rw [boundary, boundary]
    simp only [hshort, hlong, if_false, hlim _ hlen, hlim _ (show c.params.max ≤
      (data ++ more).length by rw [List.length_append]; omega)]
    set normal := Nat.min c.params.max c.params.avg with hnormal
    have hn : normal ≤ c.params.max := Nat.min_le_left _ _
    have hn' : c.params.min ≤ normal := Nat.le_min.2 ⟨by omega, hma⟩
    rw [scan_append data more _ _ _ _ (by omega)]
    rcases scan_ok data c.maskSmall (normal - c.params.min) c.params.min 0 (by omega) with
      ⟨j, hj, -, -⟩ | ⟨fp, hfp⟩
    · rw [hj]; rfl
    · rw [hfp]
      simp only [bind, Except.bind]
      rw [scan_append data more _ _ _ _ (by omega)]

end Chunking
end Kist
