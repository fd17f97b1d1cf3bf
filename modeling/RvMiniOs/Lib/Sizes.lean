import Mathlib.Algebra.GroupWithZero.Nat

/-!
# Sizes of tables

A table of a C program is indexed by `Fin n` for a literal `n`. A literal index needs that
`n` is not zero; every module takes the proof of it from here.
-/

namespace RvMiniOs.Lib

instance neZero_twelve : NeZero (12 : ℕ) := ⟨by decide⟩

instance neZero_sixteen : NeZero (16 : ℕ) := ⟨by decide⟩

instance neZero_sixtyFour : NeZero (64 : ℕ) := ⟨by decide⟩

end RvMiniOs.Lib
