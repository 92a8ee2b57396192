import Mathlib.Data.Nat.Digits.Lemmas

/-!
# Long division

The digits of a quotient come one at a time: the remainder is multiplied by the base and
divided again. After any number of steps they are the digits of the quotient of the scaled
dividend, with zeros in front, and what is left is its remainder.
-/

namespace LongDivision

variable {b m : ℕ}

/-- The digits of some steps of a long division by `m`, from a remainder on. -/
def quotientDigits (b m : ℕ) : ℕ → ℕ → List ℕ
  | 0, _ => []
  | k + 1, r => r * b / m :: quotientDigits b m k (r * b % m)

/-- The remainder of some steps after the first one. -/
theorem remainder_succ (j r : ℕ) : r * b % m * b ^ j % m = r * b ^ (j + 1) % m := by
  rw [Nat.mod_mul_mod, pow_succ', mul_assoc]

/-- Steps one after the other. The remainder goes on from the first ones. -/
theorem quotientDigits_add (j k : ℕ) {r : ℕ} (hr : r < m) :
    quotientDigits b m (j + k) r =
      quotientDigits b m j r ++ quotientDigits b m k (r * b ^ j % m) := by
  induction j generalizing r with
  | zero => rw [Nat.zero_add, quotientDigits, List.nil_append, pow_zero, mul_one, Nat.mod_eq_of_lt hr]
  | succ j ih =>
    have hm : 0 < m := by omega
    rw [Nat.add_right_comm, quotientDigits, quotientDigits, ih (Nat.mod_lt _ hm), remainder_succ,
      List.cons_append]

/-- What the long division of a smaller dividend has computed fits into its digits. -/
theorem mul_pow_div_lt (k : ℕ) {r : ℕ} (hb : 0 < b) (hr : r < m) : r * b ^ k / m < b ^ k :=
  Nat.div_lt_of_lt_mul (Nat.mul_lt_mul_of_pos_right hr (Nat.pow_pos hb))

/-- The lower digits of a scaled quotient are those of the remainder. -/
theorem mul_pow_div_mod (k a : ℕ) (hb : 0 < b) (hm : 0 < m) :
    a * b ^ k / m % b ^ k = a % m * b ^ k / m := by
  have hsplit : a * b ^ k = a % m * b ^ k + m * (a / m * b ^ k) := by
    rw [← mul_assoc, ← add_mul, Nat.mod_add_div]
  rw [hsplit, Nat.add_mul_div_left _ _ hm, Nat.add_mul_mod_self_right]
  exact Nat.mod_eq_of_lt (mul_pow_div_lt k hb (Nat.mod_lt a hm))

/-- The lowest of a fixed number of digits. -/
theorem digitsAppend_succ (hb : 1 < b) (k n : ℕ) :
    Nat.digitsAppend b (k + 1) n = n % b :: Nat.digitsAppend b k (n / b) := by
  rcases Nat.eq_zero_or_pos n with rfl | hn
  · simp [Nat.digitsAppend, List.replicate_succ]
  · simp [Nat.digitsAppend, Nat.digits_def' hb hn]

/-- A number that fits into some of the digits has zeros in front of them. -/
theorem digitsAppend_add (hb : 1 < b) (z k : ℕ) {n : ℕ} (hn : n < b ^ k) :
    Nat.digitsAppend b (z + k) n = Nat.digitsAppend b k n ++ List.replicate z 0 := by
  have hlength := (Nat.digits_length_le_iff hb n).mpr hn
  rw [Nat.digitsAppend, Nat.digitsAppend, List.append_assoc, List.replicate_append_replicate,
    Nat.add_comm z, Nat.sub_add_comm hlength]

/-- **Long division.** Its digits are those of the scaled quotient, the highest first. -/
theorem quotientDigits_eq (hb : 1 < b) (k : ℕ) {r : ℕ} (hr : r < m) :
    quotientDigits b m k r = (Nat.digitsAppend b k (r * b ^ k / m)).reverse := by
  induction k with
  | zero => simp [quotientDigits, Nat.digitsAppend, Nat.div_eq_of_lt hr]
  | succ k ih =>
    have hm : 0 < m := by omega
    -- The last step divides the remainder of the steps before it.
    have hlast : r * b ^ (k + 1) / m % b = r * b ^ k % m * b / m := by
      have hmod := mul_pow_div_mod 1 (r * b ^ k) (Nat.zero_lt_of_lt hb) hm
      rwa [pow_one, mul_assoc, ← pow_succ] at hmod
    have hfirst : r * b ^ (k + 1) / m / b = r * b ^ k / m := by
      rw [pow_succ, ← mul_assoc, Nat.div_div_eq_div_mul,
        Nat.mul_div_mul_right _ _ (Nat.zero_lt_of_lt hb)]
    rw [quotientDigits_add k 1 hr, ih, digitsAppend_succ hb, hlast, hfirst, List.reverse_cons]
    rfl

end LongDivision
