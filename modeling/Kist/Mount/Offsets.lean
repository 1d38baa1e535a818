import Kist.Lib.Checked
import Mathlib.Data.List.TakeWhile

/-!
# The chunk boundaries of a mounted file

`kist-mount::offsets`: the plain lengths of the chunks of a file, summed up, tell in which chunk a
byte of it lies.

`ChunkOffsets.locate_fromRawLens` says that every byte before the end lies in the chunk that is
found for it, also where some chunks are empty.
-/

namespace Kist

open Checked (Fault at_ sub at_ok sub_ok)

/-- `ChunkOffsets`: where each chunk ends. -/
structure ChunkOffsets where
  ends : List ℕ
  deriving DecidableEq, Repr

namespace ChunkOffsets

/-- The loop of `from_raw_lens`, which adds in 64 bits. -/
def sums : ℕ → List ℕ → List ℕ
  | _, [] => []
  | total, len :: lens => (total + len) % 2 ^ 64 :: sums ((total + len) % 2 ^ 64) lens

/-- `from_raw_lens`. -/
def fromRawLens (lens : List ℕ) : ChunkOffsets := ⟨sums 0 lens⟩

/-- `total`. -/
def total (o : ChunkOffsets) : ℕ := o.ends.getLast?.getD 0

/-- `chunk_start`. -/
def chunkStart (o : ChunkOffsets) : ℕ → Except Fault ℕ
  | 0 => .ok 0
  | n + 1 => at_ o.ends n

/-- `locate`: the number of the chunk, found by `partition_point`, and the position in it. -/
def locate (o : ChunkOffsets) (offset : ℕ) : Except Fault (Option (ℕ × ℕ)) := do
  let i := (o.ends.takeWhile fun e => e ≤ offset).length
  if i ≥ o.ends.length then return none
  let start ← o.chunkStart i
  return some (i, ← sub offset start)

/-! ### The sums -/

variable {base offset : ℕ} {lens : List ℕ}

theorem sums_length (base : ℕ) (lens : List ℕ) : (sums base lens).length = lens.length := by
  induction lens generalizing base with
  | nil => rfl
  | cons len lens ih => simp [sums, ih]

/-- The ends, where none of them overflows. -/
theorem getElem?_sums (h : base + lens.sum < 2 ^ 64) {i : ℕ} (hi : i < lens.length) :
    (sums base lens)[i]? = some (base + (lens.take (i + 1)).sum) := by
  induction lens generalizing base i with
  | nil => cases hi
  | cons len lens ih =>
    rw [List.sum_cons, ← add_assoc] at h
    have hmod : (base + len) % 2 ^ 64 = base + len := Nat.mod_eq_of_lt (by omega)
    rw [sums, hmod, List.take_succ_cons, List.sum_cons, ← add_assoc]
    cases i with
    | zero => simp
    | succ i => exact ih h (Nat.lt_of_succ_lt_succ hi)

theorem total_fromRawLens (h : lens.sum < 2 ^ 64) : (fromRawLens lens).total = lens.sum := by
  rcases lens.eq_nil_or_concat' with rfl | ⟨init, last, rfl⟩
  · rfl
  · have hsums : (sums 0 (init ++ [last])).getLast? = some (init ++ [last]).sum := by
      rw [List.getLast?_eq_getElem?, sums_length, getElem?_sums (by omega) (by simp),
        List.take_of_length_le (by simp), Nat.zero_add]
    rw [total, fromRawLens, hsums, Option.getD_some]

/-- A position before the end is in the first chunk that ends behind it. -/
theorem takeWhile_sums (h : base + lens.sum < 2 ^ 64) (hbase : base ≤ offset)
    (hoff : offset < base + lens.sum) :
    ∃ i, ((sums base lens).takeWhile fun e => e ≤ offset).length = i ∧
      ∃ hi : i < lens.length, base + (lens.take i).sum ≤ offset ∧
        offset < base + (lens.take i).sum + lens[i] := by
  induction lens generalizing base with
  | nil =>
    rw [List.sum_nil] at hoff
    omega
  | cons len lens ih =>
    rw [List.sum_cons, ← add_assoc] at h hoff
    have hmod : (base + len) % 2 ^ 64 = base + len := Nat.mod_eq_of_lt (by omega)
    rw [sums, hmod]
    by_cases hend : base + len ≤ offset
    · rw [List.takeWhile_cons_of_pos (by simpa using hend)]
      obtain ⟨i, hlen, hi, hlo, hhi⟩ := ih h hend hoff
      refine ⟨i + 1, by rw [List.length_cons, hlen], Nat.succ_lt_succ hi, ?_, ?_⟩
      · rw [List.take_succ_cons, List.sum_cons, ← add_assoc]
        exact hlo
      · rw [List.take_succ_cons, List.sum_cons, ← add_assoc, List.getElem_cons_succ]
        exact hhi
    · rw [List.takeWhile_cons_of_neg (by simpa using hend)]
      exact ⟨0, rfl, Nat.succ_pos _, by simpa using hbase, by simpa using not_le.1 hend⟩

theorem chunkStart_fromRawLens (h : lens.sum < 2 ^ 64) {i : ℕ} (hi : i ≤ lens.length) :
    (fromRawLens lens).chunkStart i = .ok (lens.take i).sum := by
  cases i with
  | zero => rfl
  | succ n =>
    have hn : (sums 0 lens)[n]? = some (0 + (lens.take (n + 1)).sum) :=
      getElem?_sums (by omega) hi
    rw [chunkStart, fromRawLens, at_, hn, Nat.zero_add]

/-- **Locating a byte.** The chunk found for a byte of the file is there, and the byte lies in it at
the position that is found. -/
theorem locate_fromRawLens (h : lens.sum < 2 ^ 64) (hoff : offset < lens.sum) :
    ∃ i, ∃ hi : i < lens.length, ∃ inChunk < lens[i],
      (lens.take i).sum + inChunk = offset ∧
        (fromRawLens lens).locate offset = .ok (some (i, inChunk)) := by
  obtain ⟨i, hlen, hi, hlo, hhi⟩ :=
    @takeWhile_sums 0 offset lens (by omega) (Nat.zero_le _) (by omega)
  rw [Nat.zero_add] at hlo hhi
  have hfound : ((fromRawLens lens).ends.takeWhile fun e => e ≤ offset).length = i := hlen
  have hends : (fromRawLens lens).ends.length = lens.length := sums_length 0 lens
  refine ⟨i, hi, offset - (lens.take i).sum, by omega, by omega, ?_⟩
  simp only [locate, hfound, hends]
  rw [if_neg (not_le.2 hi), chunkStart_fromRawLens h hi.le]
  show Except.bind (sub offset (lens.take i).sum) _ = _
  rw [sub_ok hlo]
  rfl

/-- The boundaries of chunks of 10, 0 and 30 bytes: the empty one is skipped. -/
example : (fromRawLens [10, 0, 30]).locate 10 = .ok (some (2, 0)) := by decide

end ChunkOffsets
end Kist
