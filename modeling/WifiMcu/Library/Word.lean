import Mathlib.Data.Int.Notation
import Mathlib.Tactic.Common

/-!
# Two's-complement integers of 32 bits

A C `int` on a 32-bit target is kept as the integer it denotes. Arithmetic whose
exact result leaves the range is reduced by `wrap32` to the value the register
holds. The lemmas say when the reduction is vacuous and how it composes.
-/

namespace Word

/-- The 32-bit two's-complement value of an exact integer result. -/
def wrap32 (x : ℤ) : ℤ := (x + 2147483648) % 4294967296 - 2147483648

/-- An exact result is a 32-bit integer: the operation does not overflow. -/
def InRange (x : ℤ) : Prop := -2147483648 ≤ x ∧ x < 2147483648

instance (x : ℤ) : Decidable (InRange x) := inferInstanceAs (Decidable (_ ∧ _))

/-- A result inside the range of a 32-bit integer is not changed. -/
theorem wrap32_of_range {x : ℤ} (hlow : -2147483648 ≤ x) (hhigh : x < 2147483648) :
    wrap32 x = x := by
  unfold wrap32
  omega

/-- Every reduced value lies in the range of a 32-bit integer. -/
theorem wrap32_range (x : ℤ) : -2147483648 ≤ wrap32 x ∧ wrap32 x < 2147483648 := by
  unfold wrap32
  omega

/-- A summand may be reduced before the sum is. -/
@[simp] theorem wrap32_wrap32_add (x y : ℤ) : wrap32 (wrap32 x + y) = wrap32 (x + y) := by
  unfold wrap32
  omega

/-- A summand may be reduced before the sum is, on the right. -/
@[simp] theorem wrap32_add_wrap32 (x y : ℤ) : wrap32 (x + wrap32 y) = wrap32 (x + y) := by
  unfold wrap32
  omega

end Word
