import Mathlib.Data.List.Lex
import Mathlib.Order.Lattice
import Mathlib.Tactic

/-!
# Byte strings

Byte strings in the lexicographic order of their bytes, the order in which directories are listed
and names are compared.
-/

/-- Bytes in the order of their values. -/
instance UInt8.instLinearOrder : LinearOrder UInt8 where
  le_refl := UInt8.le_refl
  le_trans := fun _ _ _ => UInt8.le_trans
  lt_iff_le_not_ge a b := by
    rw [UInt8.lt_iff_toNat_lt, UInt8.le_iff_toNat_le, UInt8.le_iff_toNat_le]
    omega
  le_antisymm := fun _ _ => UInt8.le_antisymm
  le_total := UInt8.le_total
  toDecidableLE := inferInstance
  toDecidableLT := inferInstance
  toDecidableEq := inferInstance

/-- A byte string. -/
abbrev Bytes := List UInt8

instance Bytes.lawfulBEq : LawfulBEq Bytes := inferInstance

instance UInt8.lawfulBEq : LawfulBEq UInt8 := inferInstance

/-- A byte string comes before those that it is a prefix of. -/
theorem Bytes.le_of_isPrefix {a b : Bytes} (h : a <+: b) : a ≤ b := by
  obtain ⟨r, rfl⟩ := h
  induction a with
  | nil =>
    cases r with
    | nil => exact le_rfl
    | cons x r => exact le_of_lt (List.lt_iff_lex_lt _ _ |>.2 .nil)
  | cons x a ih => exact List.cons_le_cons x ih
