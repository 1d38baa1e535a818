import Kist.Lib.Decimal

/-!
# Texts of fixed fields

A layout is a row of numbers of fixed widths, with literal characters between them. The text of some
numbers under a layout is read back as these numbers (`read_write`), and the texts come in the
lexicographic order of the numbers (`write_lt_iff`).
-/

namespace Fields

open Decimal

/-- A literal character, or a number of a fixed width. -/
inductive Item
  | literal (c : Char)
  | number (width : ℕ)
  deriving DecidableEq, Repr

/-- The text of the values under a layout. -/
def write : List Item → List ℕ → List Char
  | [], _ => []
  | .literal c :: items, values => c :: write items values
  | .number width :: items, values => padded width (values.headD 0) ++ write items values.tail

/-- The values that a text spells under a layout. -/
def read : List Item → List Char → Option (List ℕ)
  | [], s => if s = [] then some [] else none
  | .literal c :: items, s => if s.head? = some c then read items s.tail else none
  | .number width :: items, s =>
    if s.length < width then none
    else do
      let value ← ofDigits (s.take width)
      let values ← read items (s.drop width)
      return value :: values

/-- Values that fit a layout: one of its width for each number. -/
inductive Fits : List Item → List ℕ → Prop
  | nil : Fits [] []
  | literal {c items values} (h : Fits items values) : Fits (.literal c :: items) values
  | number {width items value values} (hwidth : 0 < width) (hvalue : value < 10 ^ width)
      (h : Fits items values) : Fits (.number width :: items) (value :: values)

variable {items : List Item} {u v : List ℕ}

/-- What is written is read. -/
theorem read_write (h : Fits items v) : read items (write items v) = some v := by
  induction h with
  | nil => rfl
  | literal h ih => rwa [write, read, if_pos (List.head?_cons ..), List.tail_cons]
  | @number width items value values hwidth hvalue h ih =>
    have hlen := length_padded hwidth hvalue
    have htake : (padded width value ++ write items values).take width = padded width value :=
      List.take_left' hlen
    have hdrop : (padded width value ++ write items values).drop width = write items values :=
      List.drop_left' hlen
    rw [write, List.headD_cons, List.tail_cons, read, if_neg (by simp [hlen]), htake, hdrop,
      ofDigits_padded, ih]
    rfl

/-- **Order.** The texts come in the order of the values. -/
theorem write_lt_iff (hu : Fits items u) (hv : Fits items v) :
    write items u < write items v ↔ u < v := by
  induction hu generalizing v with
  | nil =>
    cases hv
    simp [write]
  | literal hu ih =>
    cases hv with
    | literal hv =>
      rw [write, write, List.cons_lt_cons_iff]
      simp [ih hv]
  | @number width items value values hwidth hvalue hu ih =>
    cases hv with
    | number _ hvalue' hv =>
      rw [write, write, List.headD_cons, List.tail_cons, List.headD_cons, List.tail_cons,
        append_lt_append_iff
          ((length_padded hwidth hvalue).trans (length_padded hwidth hvalue').symm),
        padded_lt_iff hwidth hvalue hvalue', ih hv, List.cons_lt_cons_iff]
      exact or_congr_right (and_congr_left' ⟨padded_injective, fun h => h ▸ rfl⟩)

/-- A literal at the end. -/
theorem write_concat (items : List Item) (c : Char) (v : List ℕ) :
    write (items ++ [.literal c]) v = write items v ++ [c] := by
  induction items generalizing v with
  | nil => rfl
  | cons item items ih =>
    cases item with
    | literal d => rw [List.cons_append, write, write, ih, List.cons_append]
    | number width => rw [List.cons_append, write, write, ih, List.append_assoc]

/-- Characters of a text: digits and the literals of its layout. -/
theorem mem_write {c : Char} (h : c ∈ write items v) : c.isDigit ∨ .literal c ∈ items := by
  induction items generalizing v with
  | nil => cases h
  | cons item items ih =>
    cases item with
    | literal d =>
      rcases List.mem_cons.1 h with rfl | h
      · exact .inr List.mem_cons_self
      · exact (ih h).imp_right (List.mem_cons_of_mem _)
    | number width =>
      rcases List.mem_append.1 h with h | h
      · exact .inl (isDigit_of_mem_padded h)
      · exact (ih h).imp_right (List.mem_cons_of_mem _)

end Fields
