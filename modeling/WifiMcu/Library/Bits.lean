import Mathlib.Algebra.Group.Nat.Defs
import Mathlib.Tactic.Common

/-!
# Bits of machine words

What the usual operations with masks do to single bits of a word.
-/

namespace Bits

variable {w : ℕ}

/-- The bits of a mask with one bit. -/
theorem getLsbD_bit (n i : ℕ) : (1#w <<< n).getLsbD i = (decide (n < w) && decide (n = i)) := by
  rw [← BitVec.twoPow_eq, BitVec.getLsbD_twoPow]

/-- A word and a mask with one bit have a bit in common if the word has this bit. -/
theorem and_bit_ne_zero_iff {n : ℕ} (h : n < w) (x : BitVec w) :
    x &&& 1#w <<< n ≠ 0 ↔ x.getLsbD n = true := by
  constructor
  · intro hne
    by_contra hzero
    apply hne
    rw [← BitVec.twoPow_eq, BitVec.and_twoPow, if_neg hzero]
    rfl
  · intro hbit hzero
    have heq := congrArg (fun y => y.getLsbD n) hzero
    simp only [BitVec.getLsbD_and, getLsbD_bit, hbit, h, decide_true, Bool.and_self] at heq
    simp at heq

/-- A word is 0 if it has no bits. -/
theorem eq_zero_iff {x : BitVec w} : x = 0 ↔ ∀ i < w, x.getLsbD i = false := by
  constructor
  · rintro rfl i -
    exact BitVec.getLsbD_zero
  · intro h
    exact BitVec.eq_of_getLsbD_eq fun i hi => (h i hi).trans BitVec.getLsbD_zero.symm

/-- The bits of a word without those of a mask. -/
theorem getLsbD_and_not (x mask : BitVec w) (i : ℕ) :
    (x &&& ~~~mask).getLsbD i = (x.getLsbD i && !mask.getLsbD i) := by
  rw [BitVec.getLsbD_and, BitVec.getLsbD_not]
  by_cases hi : i < w
  · rw [decide_eq_true hi, Bool.true_and]
  · rw [BitVec.getLsbD_of_ge x i (Nat.not_lt.mp hi), Bool.false_and, Bool.false_and]

/-- Doubling moves the bits up by one. -/
theorem mul_two_eq_shiftLeft (x : BitVec w) : x * 2#w = x <<< 1 := by
  apply BitVec.eq_of_toNat_eq
  rw [BitVec.mul_two, BitVec.toNat_add, BitVec.toNat_shiftLeft, Nat.shiftLeft_eq, Nat.pow_one,
    Nat.mul_two]

/-- Three times a word without neighbouring bits has every bit twice. -/
theorem mul_three_eq_or {x : BitVec w} (h : x &&& x <<< 1 = 0#w) : x * 3#w = x ||| x <<< 1 := by
  have hsum : 3#w = 2#w + 1#w := (BitVec.ofNat_add_ofNat 2 1).symm
  rw [hsum, BitVec.mul_succ, mul_two_eq_shiftLeft, BitVec.add_comm,
    BitVec.add_eq_or_of_and_eq_zero _ _ h]

section Field

/-- The number in a field of a word. -/
def field (x : BitVec w) (position width : ℕ) : ℕ := (x.extractLsb' position width).toNat

/-- The bits of a field. -/
theorem testBit_field (x : BitVec w) (p n i : ℕ) :
    (field x p n).testBit i = (decide (i < n) && x.getLsbD (p + i)) := by
  rw [field, BitVec.testBit_toNat, BitVec.getLsbD_extractLsb']

/-- The number in a field is the one that has its bits. -/
theorem field_eq {x : BitVec w} {p n v : ℕ} (hv : v < 2 ^ n)
    (hbits : ∀ i < n, x.getLsbD (p + i) = v.testBit i) : field x p n = v := by
  apply Nat.eq_of_testBit_eq
  intro i
  rw [testBit_field]
  by_cases hi : i < n
  · rw [decide_eq_true hi, Bool.true_and, hbits i hi]
  · rw [decide_eq_false hi, Bool.false_and,
      Nat.testBit_lt_two_pow (Nat.lt_of_lt_of_le hv (Nat.pow_le_pow_right (by decide) (Nat.not_lt.mp hi)))]

/-- Words with the same bits in a field have the same number there. -/
theorem field_congr {x y : BitVec w} {p n : ℕ}
    (hbits : ∀ i < n, x.getLsbD (p + i) = y.getLsbD (p + i)) : field x p n = field y p n := by
  apply field_eq (BitVec.isLt _)
  intro i hi
  rw [← field, testBit_field, hbits i hi, decide_eq_true hi, Bool.true_and]

/-- A field fits into its width. -/
theorem field_lt (x : BitVec w) (p n : ℕ) : field x p n < 2 ^ n := BitVec.isLt _

/-- A field as a quotient and a remainder. -/
theorem field_eq_mod (x : BitVec w) (p n : ℕ) : field x p n = x.toNat / 2 ^ p % 2 ^ n := by
  rw [field, BitVec.extractLsb'_toNat, Nat.shiftRight_eq_div_pow]

/-- Two fields that meet are one. -/
theorem field_add (x : BitVec w) (p m n : ℕ) :
    field x p (m + n) = field x p m + 2 ^ m * field x (p + m) n := by
  rw [field_eq_mod, field_eq_mod, field_eq_mod, Nat.pow_add, Nat.mod_mul, Nat.div_div_eq_div_mul,
    ← Nat.pow_add]

/-- A masked word holds the number of its field at the position of the field. -/
theorem toNat_and {x mask : BitVec w} {p n : ℕ}
    (hmask : ∀ j < w, mask.getLsbD j = (decide (p ≤ j) && decide (j < p + n))) :
    (x &&& mask).toNat = field x p n * 2 ^ p := by
  apply Nat.eq_of_testBit_eq
  intro i
  rw [Nat.testBit_mul_two_pow, testBit_field, BitVec.testBit_toNat, BitVec.getLsbD_and]
  by_cases hi : i < w
  · rw [hmask i hi]
    by_cases hp : p ≤ i
    · have hsub : p + (i - p) = i := by omega
      have hlt : i - p < n ↔ i < p + n := by omega
      simp [hp, hsub, hlt, Bool.and_comm]
    · simp [hp]
  · have hout : x.getLsbD i = false := BitVec.getLsbD_of_ge x i (Nat.not_lt.mp hi)
    by_cases hp : p ≤ i
    · have hsub : p + (i - p) = i := by omega
      simp [hout, hsub]
    · simp [hout, hp]

/-- A field is read by masking the word and shifting it down. -/
theorem toNat_and_ushiftRight {x mask : BitVec w} {p n : ℕ}
    (hmask : ∀ j < w, mask.getLsbD j = (decide (p ≤ j) && decide (j < p + n))) :
    ((x &&& mask) >>> p).toNat = field x p n := by
  rw [BitVec.toNat_ushiftRight, toNat_and hmask, Nat.shiftRight_eq_div_pow,
    Nat.mul_div_cancel _ (Nat.two_pow_pos p)]

/-- The bits of a mask for a field. -/
theorem getLsbD_fieldMask {p n j : ℕ} (hj : j < w) :
    (BitVec.ofNat w (2 ^ n - 1) <<< p).getLsbD j = (decide (p ≤ j) && decide (j < p + n)) := by
  rw [BitVec.getLsbD_shiftLeft, BitVec.getLsbD_ofNat, Nat.testBit_two_pow_sub_one]
  grind

/-- The mask of the lowest bits. -/
theorem shiftLeft_sub_one (n : ℕ) : 1#w <<< n - 1#w = BitVec.ofNat w (2 ^ n - 1) := by
  rw [BitVec.sub_eq_iff_eq_add, BitVec.ofNat_add_ofNat, Nat.sub_add_cancel Nat.one_le_two_pow,
    ← BitVec.twoPow_eq]
  exact BitVec.eq_of_toNat_eq (by rw [BitVec.toNat_twoPow, BitVec.toNat_ofNat])

/-- Clearing a field and filling it with a number changes no bit outside of the field. -/
theorem getLsbD_clear_or_shiftLeft (x : BitVec w) {p n v j : ℕ} (hv : v < 2 ^ n) (hj : j < w) :
    ((x &&& ~~~(BitVec.ofNat w (2 ^ n - 1) <<< p)) ||| BitVec.ofNat w v <<< p).getLsbD j =
      if p ≤ j ∧ j < p + n then v.testBit (j - p) else x.getLsbD j := by
  rw [BitVec.getLsbD_or, getLsbD_and_not, getLsbD_fieldMask hj, BitVec.getLsbD_shiftLeft,
    BitVec.getLsbD_ofNat]
  split_ifs with hinside
  · have hindex : j - p < w := by omega
    simp [hinside, hj, hindex]
  · by_cases hbelow : j < p
    · simp [hbelow]
    · have habove : n ≤ j - p := by omega
      have hzero : v.testBit (j - p) = false :=
        Nat.testBit_lt_two_pow (Nat.lt_of_lt_of_le hv (Nat.pow_le_pow_right (by decide) habove))
      have houtside : ¬ j < p + n := by omega
      rw [hzero, decide_eq_false houtside]
      simp

end Field

end Bits
