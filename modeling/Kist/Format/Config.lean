import Mathlib.Tactic

/-!
# Repository parameters

`ChunkerParams` of `kist-format::config`, with the limits every client checks before it uses the
parameters of a repository.
-/

namespace Kist

/-- `FormatError`: what the format layer refuses. -/
inductive FormatError
  | invalidParams (msg : String)
  | unsupportedVersion (what : String) (version : ℕ)
  | invalidEntry (msg : String)
  | invalidSnapshot (msg : String)
  deriving DecidableEq, Repr

/-- `FORMAT_VERSION`. -/
def formatVersion : ℕ := 3

/-- `ChunkerParams`: the FastCDC parameters, in bytes. -/
structure ChunkerParams where
  min : ℕ
  avg : ℕ
  max : ℕ
  deriving DecidableEq, Repr

namespace ChunkerParams

/-- `ChunkerParams::validate`. -/
def validate (p : ChunkerParams) : Except FormatError Unit :=
  if p.min < 64 ∨ p.min > 1024 * 1024 then
    .error (.invalidParams s!"chunker.min {p.min} is outside 64..=1 MiB")
  else if p.avg < 256 ∨ p.avg > 16 * 1024 * 1024 then
    .error (.invalidParams s!"chunker.avg {p.avg} is outside 256..=16 MiB")
  else if p.max < 1024 ∨ p.max > 64 * 1024 * 1024 then
    .error (.invalidParams s!"chunker.max {p.max} is outside 1 KiB..=64 MiB")
  else if ¬(p.min ≤ p.avg ∧ p.avg ≤ p.max) then
    .error (.invalidParams
      s!"chunker sizes must satisfy min <= avg <= max, got {p.min}/{p.avg}/{p.max}")
  else .ok ()

/-- `ChunkerParams::default`. -/
def default : ChunkerParams := ⟨512 * 1024, 2 * 1024 * 1024, 8 * 1024 * 1024⟩

/-- The limits that `validate` checks. -/
structure Valid (p : ChunkerParams) : Prop where
  min_pos : 64 ≤ p.min
  min_avg : p.min ≤ p.avg
  avg_ge : 256 ≤ p.avg
  avg_le : p.avg ≤ 16 * 1024 * 1024
  avg_max : p.avg ≤ p.max

/-- Accepted parameters are within the limits. -/
theorem valid_of_validate {p : ChunkerParams} (h : p.validate = .ok ()) : p.Valid := by
  unfold validate at h
  split_ifs at h with h1 h2 h3 h4
  constructor <;> omega

/-- The default parameters pass their own check. -/
theorem validate_default : default.validate = .ok () := by decide

end ChunkerParams
end Kist
