import Mathlib.Order.Bounds.Basic
import Mathlib.Algebra.Order.Monoid.Unbundled.Pow
import Mathlib.Algebra.Order.Ring.Nat
import Mathlib.Algebra.Order.Round
import Mathlib.Tactic.Common

/-!
# Rounding

The usual expressions for the next multiple of a block size and for the next power of two,
as the least elements that they are, and the one for a quotient that is rounded to the
nearest.
-/

namespace Rounding

/-- Adding a block less one and dividing gives the least multiple that is large enough. -/
theorem isLeast_multiple {b : ℕ} (hb : 0 < b) (n : ℕ) :
    IsLeast {d | b ∣ d ∧ n ≤ d} ((n + b - 1) / b * b) := by
  have hdiv := Nat.div_add_mod (n + b - 1) b
  have hmod := Nat.mod_lt (n + b - 1) hb
  rw [Nat.mul_comm] at hdiv
  refine ⟨⟨Nat.dvd_mul_left _ _, by omega⟩, ?_⟩
  rintro d ⟨⟨k, rfl⟩, hle⟩
  have hquotient : (n + b - 1) / b < k + 1 := by
    rw [Nat.div_lt_iff_lt_mul hb, Nat.add_mul, Nat.one_mul, Nat.mul_comm k b]
    omega
  rw [Nat.mul_comm b k]
  exact Nat.mul_le_mul_right b (by omega)

/-- A multiple between a number and its next block is the block itself. -/
theorem multiple_eq_self {b n : ℕ} (hn : 1 ≤ n) (hle : n ≤ b) : (n + b - 1) / b * b = b := by
  have hquotient : (n + b - 1) / b = 1 := by
    rw [Nat.div_eq_iff (by omega)]
    omega
  rw [hquotient, Nat.one_mul]

/-- The power of two after the last one that is too small is the least one that is large
enough. -/
theorem isLeast_two_pow {n k : ℕ} (hlow : 2 ^ k < n) (hhigh : n ≤ 2 ^ (k + 1)) :
    IsLeast {b | (∃ j, b = 2 ^ j) ∧ n ≤ b} (2 ^ (k + 1)) := by
  refine ⟨⟨⟨k + 1, rfl⟩, hhigh⟩, ?_⟩
  rintro b ⟨⟨j, rfl⟩, hle⟩
  have hlt : 2 ^ k < 2 ^ j := hlow.trans_le hle
  exact Nat.pow_le_pow_right (by decide) ((Nat.pow_lt_pow_iff_right (by decide)).mp hlt)

section Nearest

variable {α : Type*} [Field α] [LinearOrder α] [IsStrictOrderedRing α] [FloorRing α]

/-- Adding half of the divisor and dividing rounds the quotient to the nearest. For an odd
divisor nothing is lost with the other half of a unit: no multiple lies there. -/
theorem round_div {b : ℕ} (hb : 0 < b) (n : ℕ) :
    round ((n : α) / b) = (((n + b / 2) / b : ℕ) : ℤ) := by
  have hdiv := Nat.div_add_mod (n + b / 2) b
  have hmod := Nat.mod_lt (n + b / 2) hb
  generalize (n + b / 2) / b = d at *
  have hlow : 2 * (d * b) ≤ 2 * n + b := by
    rw [Nat.mul_comm d b]
    omega
  have hhigh : 2 * n + b < 2 * (d * b) + 2 * b := by
    rw [Nat.mul_comm d b]
    omega
  have hpos : (0 : α) < b := Nat.cast_pos.mpr hb
  have hlow' : 2 * ((d : α) * b) ≤ 2 * n + b := by exact_mod_cast hlow
  have hhigh' : 2 * (n : α) + b < 2 * (d * b) + 2 * b := by exact_mod_cast hhigh
  rw [round_eq_iff, Set.mem_Ico, le_div_iff₀ hpos, div_lt_iff₀ hpos, Int.cast_natCast]
  constructor <;> linarith

/-- The rounded quotient misses the number by half of the divisor at most. -/
theorem abs_sub_round_div_mul_le {b : ℕ} (hb : 0 < b) (n : ℕ) :
    |(n : α) - ((n + b / 2) / b : ℕ) * b| ≤ b / 2 := by
  have hpos : (0 : α) < b := Nat.cast_pos.mpr hb
  have herror := abs_sub_round ((n : α) / b)
  rw [round_div hb, Int.cast_natCast] at herror
  have hscale : (n : α) - ((n + b / 2) / b : ℕ) * b =
      ((n : α) / b - ((n + b / 2) / b : ℕ)) * b := by
    rw [sub_mul, div_mul_cancel₀ _ hpos.ne']
  rw [hscale, abs_mul, abs_of_pos hpos]
  calc |(n : α) / b - ((n + b / 2) / b : ℕ)| * b
      ≤ 1 / 2 * b := mul_le_mul_of_nonneg_right herror hpos.le
    _ = b / 2 := one_div_mul_eq_div 2 (b : α)

end Nearest

end Rounding
