import Mathlib.Algebra.Order.Floor.Semifield
import Mathlib.Data.Rat.Floor
import Mathlib.Tactic.IntervalCases
import Mathlib.Tactic.Positivity
import Mathlib.Tactic.Ring
import WifiMcu.Library.LongDivision
import WifiMcu.Format.C99

/-!
# The digits of a floating point number

`ConvertFloatingPoint` reduces its argument to a binary fraction of 56 bits and a power of
ten. Its last loop writes this number in decimal, digit by digit, as in a long division by
2^56.
-/

namespace WifiMcu.Format

open LongDivision Word

/-! ### The layout and the loop -/

/-- The number of characters. -/
def numberOfDigits (exp10 precision : ℤ) (forcePeriod : Bool) : ℤ :=
  let numberOfDigits := if 0 < exp10 then exp10 + precision + 1 else precision + 2
  if precision = 0 ∧ forcePeriod = false then numberOfDigits - 1 else numberOfDigits

/-- The position of the first digit that is computed. -/
def firstDigit (exp10 : ℤ) : ℤ := if 0 < exp10 then 0 else -exp10 + 2

/-- The position of the decimal point. -/
def decimalPoint (exp10 : ℤ) : ℤ := if 0 < exp10 then exp10 else 1

/-- What `ConvertFloatingPoint` stores for the fraction `mant / 2^56` and the power of ten
`exp10`. -/
def fixedPoint (mant : BitVec 64) (exp10 precision : ℤ) (forcePeriod : Bool) : List UInt8 :=
  fixedPointDigits (firstDigit exp10) (decimalPoint exp10)
    (numberOfDigits exp10 precision forcePeriod).toNat 0 mant

/-- The fraction of a double that has been scaled, in 56 bits. -/
def alignedMantissa (x : BitVec 64) : BitVec 64 :=
  let exp2 := if exponent2 x = -1023 then -1022 else exponent2 x
  let mant := if exponent2 x = -1023 then fraction x else fraction x ||| 0x0010000000000000#64
  mant <<< (exp2 + 4).toNat

/-- The finite branch of `ConvertFloatingPoint`. -/
theorem convertFloatingPoint_finite {σ : Type} (P : Platform σ) {absvalue : BitVec 64}
    {precision : ℤ} (forcePeriod upperCase : Bool)
    (hfinite : exponent2 (P.addHalfUnit absvalue precision) ≠ 0x400) :
    (convertFloatingPoint P absvalue precision forcePeriod upperCase).1 =
      fixedPoint (alignedMantissa (P.normalize (P.addHalfUnit absvalue precision)).2)
        (P.normalize (P.addHalfUnit absvalue precision)).1 precision forcePeriod := by
  rw [convertFloatingPoint, if_neg hfinite]
  rfl

/-- The loop, on the remainder of the long division by 2^56. -/
def remainderLoop (firstDigit decimalPoint : ℤ) : ℕ → ℤ → ℕ → List UInt8
  | 0, _, _ => []
  | n + 1, i, r =>
    if i = decimalPoint then '.'.toUInt8 :: remainderLoop firstDigit decimalPoint n (i + 1) r
    else if i < firstDigit then '0'.toUInt8 :: remainderLoop firstDigit decimalPoint n (i + 1) r
    else c99Digit false (r * 10 / 2 ^ 56) ::
      remainderLoop firstDigit decimalPoint n (i + 1) (r * 10 % 2 ^ 56)

/-- The mask takes the remainder. -/
theorem toNat_and_mask (mant : BitVec 64) :
    (mant &&& 0x00ffffffffffffff#64).toNat = mant.toNat % 2 ^ 56 :=
  Nat.and_two_pow_sub_one_eq_mod mant.toNat 56

/-- The product does not wrap around. -/
theorem toNat_and_mask_mul (mant : BitVec 64) :
    ((mant &&& 0x00ffffffffffffff#64) * 10#64).toNat = mant.toNat % 2 ^ 56 * 10 := by
  rw [BitVec.toNat_mul, toNat_and_mask, BitVec.toNat_ofNat]
  omega

/-- The loop does what it does on the remainders. -/
theorem fixedPointDigits_eq (firstDigit decimalPoint : ℤ) (n : ℕ) (i : ℤ) (mant : BitVec 64) :
    fixedPointDigits firstDigit decimalPoint n i mant =
      remainderLoop firstDigit decimalPoint n i (mant.toNat % 2 ^ 56) := by
  induction n generalizing i mant with
  | zero => rfl
  | succ n ih =>
    rw [fixedPointDigits, remainderLoop]
    split_ifs with hpoint hfirst
    · rw [ih]
    · rw [ih]
    · dsimp only
      have hdigit : mant.toNat % 2 ^ 56 * 10 / 2 ^ 56 < 10 := by omega
      rw [ih, BitVec.toNat_ushiftRight, toNat_and_mask_mul, Nat.shiftRight_eq_div_pow, c99Digit,
        if_pos hdigit, Nat.add_comm]

section Segments

variable {firstDigit decimalPoint i : ℤ} {k n r : ℕ}

/-- Digits that are computed. -/
theorem remainderLoop_digits (hr : r < 2 ^ 56) (hfirst : firstDigit ≤ i)
    (hpoint : decimalPoint < i ∨ i + k ≤ decimalPoint) :
    remainderLoop firstDigit decimalPoint (k + n) i r =
      (quotientDigits 10 (2 ^ 56) k r).map (c99Digit false) ++
        remainderLoop firstDigit decimalPoint n (i + k) (r * 10 ^ k % 2 ^ 56) := by
  induction k generalizing i r with
  | zero =>
    rw [pow_zero, mul_one, Nat.mod_eq_of_lt hr]
    simp [quotientDigits]
  | succ k ih =>
    have hne : i ≠ decimalPoint := by omega
    have hge : ¬ i < firstDigit := by omega
    rw [Nat.add_right_comm, remainderLoop, if_neg hne, if_neg hge,
      ih (Nat.mod_lt _ (by decide)) (by omega) (by omega), remainder_succ, quotientDigits,
      List.map_cons, List.cons_append, Nat.cast_succ, add_right_comm, add_assoc]

/-- Zeros before the first digit that is computed. -/
theorem remainderLoop_zeros (hfirst : i + k ≤ firstDigit)
    (hpoint : decimalPoint < i ∨ i + k ≤ decimalPoint) :
    remainderLoop firstDigit decimalPoint (k + n) i r =
      List.replicate k '0'.toUInt8 ++ remainderLoop firstDigit decimalPoint n (i + k) r := by
  induction k generalizing i with
  | zero => simp
  | succ k ih =>
    have hne : i ≠ decimalPoint := by omega
    have hlt : i < firstDigit := by omega
    rw [Nat.add_right_comm, remainderLoop, if_neg hne, if_pos hlt, ih (by omega) (by omega),
      List.replicate_succ, List.cons_append, Nat.cast_succ, add_right_comm, add_assoc]

/-- Digits that are computed up to the end of the loop. -/
theorem remainderLoop_last (hr : r < 2 ^ 56) (hfirst : 0 < k → firstDigit ≤ i)
    (hpoint : decimalPoint < i) :
    remainderLoop firstDigit decimalPoint k i r =
      (quotientDigits 10 (2 ^ 56) k r).map (c99Digit false) := by
  rcases Nat.eq_zero_or_pos k with rfl | hk
  · rfl
  · have hdigits := remainderLoop_digits (k := k) (n := 0) hr (hfirst hk) (Or.inl hpoint)
    rwa [remainderLoop, List.append_nil] at hdigits

/-- The decimal point. -/
theorem remainderLoop_point :
    remainderLoop firstDigit decimalPoint (n + 1) decimalPoint r =
      '.'.toUInt8 :: remainderLoop firstDigit decimalPoint n (decimalPoint + 1) r := by
  rw [remainderLoop, if_pos rfl]

end Segments

/-! ### The exact expansion -/

/-- The decimal digits of a number, with zeros in front up to a number of digits. -/
def decimal (width n : ℕ) : List UInt8 := (numeral 10 false n).leftpad width '0'.toUInt8

/-- They are a fixed number of digits. -/
theorem decimal_eq (width n : ℕ) :
    decimal width n = (Nat.digitsAppend 10 width n).reverse.map (c99Digit false) := by
  have hzero : c99Digit false 0 = '0'.toUInt8 := rfl
  simp [decimal, numeral, List.leftpad, Nat.digitsAppend, hzero]

/-- If the number fits, there are no more digits than asked for. -/
theorem length_decimal {width n : ℕ} (hn : n < 10 ^ width) : (decimal width n).length = width := by
  rw [decimal_eq, List.length_map, List.length_reverse, Nat.length_digitsAppend (by decide) _ hn]

/-- All of them are digits. -/
theorem isDigit_of_mem_decimal {width n : ℕ} {c : UInt8} (hc : c ∈ decimal width n) :
    isDigit c = true := by
  rw [decimal_eq] at hc
  obtain ⟨d, hd, rfl⟩ := List.mem_map.mp hc
  have hlt : d < 10 := Nat.lt_of_mem_digitsAppend (by decide) width d (List.mem_reverse.mp hd)
  interval_cases d <;> rfl

/-- The digits of a long division. -/
theorem map_quotientDigits (k : ℕ) {r : ℕ} (hr : r < 2 ^ 56) :
    (quotientDigits 10 (2 ^ 56) k r).map (c99Digit false) = decimal k (r * 10 ^ k / 2 ^ 56) := by
  rw [quotientDigits_eq (by decide) k hr, decimal_eq]

/-- A number that fits into some of the digits has zeros in front of them. -/
theorem decimal_add (z k : ℕ) {n : ℕ} (hn : n < 10 ^ k) :
    decimal (z + k) n = List.replicate z '0'.toUInt8 ++ decimal k n := by
  rw [decimal_eq, decimal_eq, digitsAppend_add (by decide) z k hn, List.reverse_append,
    List.map_append, List.reverse_replicate, List.map_replicate]
  rfl

/-- The number that is written: the fraction times the power of ten. -/
def fixedValue (mant : BitVec 64) (exp10 : ℤ) : ℚ := mant.toNat * 10 ^ exp10 / 2 ^ 56

/-- The digits in front of the decimal point. -/
def integerPart (mant : BitVec 64) (exp10 : ℤ) : List UInt8 :=
  decimal (if 0 < exp10 then exp10.toNat else 1) ⌊fixedValue mant exp10⌋₊

/-- The digits behind it. -/
def fractionPart (mant : BitVec 64) (exp10 precision : ℤ) : List UInt8 :=
  decimal precision.toNat
    (⌊fixedValue mant exp10 * 10 ^ precision.toNat⌋₊ % 10 ^ precision.toNat)

/-- The quotient of the scaled fraction, rounded down. -/
theorem floor_fixedValue {mant : BitVec 64} {exp10 : ℤ} {p k : ℕ} (h : exp10 + p = k) :
    ⌊fixedValue mant exp10 * 10 ^ p⌋₊ = mant.toNat * 10 ^ k / 2 ^ 56 := by
  have hpow : (10 : ℚ) ^ exp10 * 10 ^ p = 10 ^ k := by
    rw [← zpow_natCast, ← zpow_natCast, ← zpow_add₀ (by norm_num), h]
  have hvalue : fixedValue mant exp10 * 10 ^ p =
      ((mant.toNat * 10 ^ k : ℕ) : ℚ) / ((2 ^ 56 : ℕ) : ℚ) := by
    rw [fixedValue, div_mul_eq_mul_div, mul_assoc, hpow]
    push_cast
    rfl
  rw [hvalue, Nat.floor_div_eq_div]

/-- What is too small for the digits that are asked for is rounded down to 0. -/
theorem floor_fixedValue_eq_zero {mant : BitVec 64} (hmant : mant.toNat < 2 ^ 56) {exp10 : ℤ}
    {p : ℕ} (h : exp10 + p ≤ 0) : ⌊fixedValue mant exp10 * 10 ^ p⌋₊ = 0 := by
  have hpow : (10 : ℚ) ^ exp10 * 10 ^ p ≤ 1 := by
    rw [← zpow_natCast, ← zpow_add₀ (by norm_num)]
    exact zpow_le_one_of_nonpos₀ (by norm_num) h
  have hfraction : (mant.toNat : ℚ) / 2 ^ 56 < 1 := by
    rw [div_lt_one (by norm_num)]
    exact_mod_cast hmant
  have hnonneg : (0 : ℚ) ≤ mant.toNat / 2 ^ 56 := by positivity
  rw [Nat.floor_eq_zero]
  calc fixedValue mant exp10 * 10 ^ p = mant.toNat / 2 ^ 56 * (10 ^ exp10 * 10 ^ p) := by
        rw [fixedValue]
        ring
    _ ≤ mant.toNat / 2 ^ 56 := mul_le_of_le_one_right hnonneg hpow
    _ < 1 := hfraction

section Layout

variable {mant : BitVec 64} {exp10 precision : ℤ} {forcePeriod : Bool}

/-- The digits in front of the point, where there are some. -/
theorem integerPart_of_pos (hmant : mant.toNat < 2 ^ 56) (hexp : 0 < exp10) :
    integerPart mant exp10 =
      (quotientDigits 10 (2 ^ 56) exp10.toNat mant.toNat).map (c99Digit false) := by
  have hfloor : ⌊fixedValue mant exp10 * 10 ^ 0⌋₊ = mant.toNat * 10 ^ exp10.toNat / 2 ^ 56 :=
    floor_fixedValue (by omega)
  rw [pow_zero, mul_one] at hfloor
  rw [integerPart, if_pos hexp, map_quotientDigits _ hmant, hfloor]

/-- Where there are none, there is a zero. -/
theorem integerPart_of_nonpos (hmant : mant.toNat < 2 ^ 56) (hexp : ¬ 0 < exp10) :
    integerPart mant exp10 = ['0'.toUInt8] := by
  have hfloor : ⌊fixedValue mant exp10 * 10 ^ 0⌋₊ = 0 := floor_fixedValue_eq_zero hmant (by omega)
  rw [pow_zero, mul_one] at hfloor
  rw [integerPart, if_neg hexp, hfloor]
  rfl

/-- The digits behind the point go on from the remainder of those in front of it. -/
theorem fractionPart_of_pos (hexp : 0 < exp10) :
    fractionPart mant exp10 precision =
      (quotientDigits 10 (2 ^ 56) precision.toNat (mant.toNat * 10 ^ exp10.toNat % 2 ^ 56)).map
        (c99Digit false) := by
  have hfloor : ⌊fixedValue mant exp10 * 10 ^ precision.toNat⌋₊ =
      mant.toNat * 10 ^ (exp10.toNat + precision.toNat) / 2 ^ 56 := floor_fixedValue (by omega)
  rw [fractionPart, map_quotientDigits _ (Nat.mod_lt _ (by decide)), hfloor, pow_add, ← mul_assoc,
    mul_pow_div_mod _ _ (by decide) (by decide)]

/-- A small number has zeros behind the point, as many as its exponent says or as are asked
for, and then its digits. -/
theorem fractionPart_of_nonpos (hmant : mant.toNat < 2 ^ 56) (hexp : ¬ 0 < exp10) {z k : ℕ}
    (hz : z = min (-exp10).toNat precision.toNat) (hk : z + k = precision.toNat) :
    fractionPart mant exp10 precision = List.replicate z '0'.toUInt8 ++
      (quotientDigits 10 (2 ^ 56) k mant.toNat).map (c99Digit false) := by
  have hlt : mant.toNat * 10 ^ k / 2 ^ 56 < 10 ^ k := mul_pow_div_lt k (by decide) hmant
  have hfloor : ⌊fixedValue mant exp10 * 10 ^ precision.toNat⌋₊ = mant.toNat * 10 ^ k / 2 ^ 56 := by
    by_cases hdigits : -exp10 ≤ precision
    · exact floor_fixedValue (by omega)
    · -- No digit is left: the number is too small.
      obtain rfl : k = 0 := by omega
      rw [floor_fixedValue_eq_zero hmant (by omega), pow_zero, mul_one, Nat.div_eq_of_lt hmant]
  have hsmall : mant.toNat * 10 ^ k / 2 ^ 56 < 10 ^ precision.toNat :=
    hlt.trans_le (Nat.pow_le_pow_right (by decide) (by omega))
  rw [fractionPart, hfloor, Nat.mod_eq_of_lt hsmall, ← hk, decimal_add z k hlt,
    map_quotientDigits k hmant]

/-- Without digits behind the point there are none. -/
theorem fractionPart_zero : fractionPart mant exp10 0 = [] := by
  have hmod : ⌊fixedValue mant exp10 * 10 ^ (0 : ℤ).toNat⌋₊ % 10 ^ (0 : ℤ).toNat = 0 := Nat.mod_one _
  rw [fractionPart, hmod]
  rfl

/-- The number of characters: the digits in front of the point, the point, and those behind
it. -/
theorem toNat_numberOfDigits (hp : 0 ≤ precision) :
    (numberOfDigits exp10 precision forcePeriod).toNat =
      (if 0 < exp10 then exp10.toNat else 1) +
        if 0 < precision ∨ forcePeriod = true then precision.toNat + 1 else 0 := by
  have hnone : (precision = 0 ∧ forcePeriod = false) ↔ ¬ (0 < precision ∨ forcePeriod = true) := by
    rw [not_or, Bool.not_eq_true]
    exact and_congr_left fun _ => by omega
  simp only [numberOfDigits, hnone]
  split_ifs <;> omega

/-- **The text.** The loop writes the digits in front of the point, the point if there is one,
and the digits behind it. -/
theorem fixedPoint_eq (hmant : mant.toNat < 2 ^ 56) (hp : 0 ≤ precision) :
    fixedPoint mant exp10 precision forcePeriod =
      integerPart mant exp10 ++ (if 0 < precision ∨ forcePeriod = true then ['.'.toUInt8] else []) ++
        fractionPart mant exp10 precision := by
  rw [fixedPoint, fixedPointDigits_eq, Nat.mod_eq_of_lt hmant, toNat_numberOfDigits hp,
    firstDigit, decimalPoint]
  by_cases hexp : 0 < exp10
  · have hcast : (0 : ℤ) + exp10.toNat = exp10 := by omega
    simp only [if_pos hexp]
    rw [remainderLoop_digits hmant le_rfl (Or.inr hcast.le), integerPart_of_pos hmant hexp, hcast,
      List.append_assoc]
    congr 1
    split_ifs with hpoint
    · rw [remainderLoop_point, fractionPart_of_pos hexp,
        remainderLoop_last (Nat.mod_lt _ (by decide)) (by omega) (by omega)]
      rfl
    · obtain rfl : precision = 0 := by omega
      rw [fractionPart_zero]
      rfl
  · simp only [if_neg hexp]
    rw [remainderLoop_zeros (by omega) (by omega), integerPart_of_nonpos hmant hexp,
      List.append_assoc]
    congr 1
    split_ifs with hpoint
    · -- The zeros behind the point, and then the digits, if there are any.
      obtain ⟨k, hk⟩ : ∃ k, precision.toNat = min (-exp10).toNat precision.toNat + k :=
        Nat.exists_eq_add_of_le (min_le_right _ _)
      rw [fractionPart_of_nonpos hmant hexp rfl hk.symm, Nat.cast_one, zero_add, remainderLoop_point,
        hk, remainderLoop_zeros (by omega) (by omega),
        remainderLoop_last hmant (by omega) (by omega), ← hk]
      rfl
    · obtain rfl : precision = 0 := by omega
      rw [fractionPart_zero]
      rfl

/-- No computation with the positions of the layout overflows. -/
theorem layout_range (hexp : |exp10| < 2 ^ 30) (hp : 0 ≤ precision) (hp' : precision ≤ 100) :
    wrap32 (exp10 + precision + 1) = exp10 + precision + 1 ∧
      wrap32 (precision + 2) = precision + 2 ∧ wrap32 (-exp10 + 2) = -exp10 + 2 := by
  have hrange := abs_lt.mp hexp
  unfold wrap32
  omega

/-- The digits in front of the point are as many as the exponent says, or one. -/
theorem length_integerPart (hmant : mant.toNat < 2 ^ 56) :
    (integerPart mant exp10).length = if 0 < exp10 then exp10.toNat else 1 := by
  split_ifs with hexp
  · rw [integerPart_of_pos hmant hexp, map_quotientDigits _ hmant,
      length_decimal (mul_pow_div_lt _ (by decide) hmant)]
  · rw [integerPart_of_nonpos hmant hexp]
    rfl

/-- The digits behind the point are as many as are asked for. -/
theorem length_fractionPart : (fractionPart mant exp10 precision).length = precision.toNat :=
  length_decimal (Nat.mod_lt _ (Nat.pow_pos (by decide)))

/-- What is written is the exact decimal expansion, and it is computed without an
overflow. -/
structure ExactExpansion (mant : BitVec 64) (exp10 precision : ℤ) (forcePeriod : Bool) : Prop where
  text : fixedPoint mant exp10 precision forcePeriod =
    integerPart mant exp10 ++ (if 0 < precision ∨ forcePeriod = true then ['.'.toUInt8] else []) ++
      fractionPart mant exp10 precision
  integerLength : (integerPart mant exp10).length = if 0 < exp10 then exp10.toNat else 1
  integerZero : ¬ 0 < exp10 → integerPart mant exp10 = ['0'.toUInt8]
  fractionLength : (fractionPart mant exp10 precision).length = precision.toNat
  digits : ∀ c ∈ integerPart mant exp10 ++ fractionPart mant exp10 precision, isDigit c = true
  product : ∀ mant : BitVec 64, ((mant &&& 0x00ffffffffffffff#64) * 10#64).toNat =
    (mant &&& 0x00ffffffffffffff#64).toNat * 10
  layout : wrap32 (exp10 + precision + 1) = exp10 + precision + 1 ∧
    wrap32 (precision + 2) = precision + 2 ∧ wrap32 (-exp10 + 2) = -exp10 + 2

/-- **The fixed-point digits** are those of the exact expansion. -/
theorem fixedPoint_exact (forcePeriod : Bool) (hmant : mant.toNat < 2 ^ 56)
    (hexp : |exp10| < 2 ^ 30) (hp : 0 ≤ precision) (hp' : precision ≤ 100) :
    ExactExpansion mant exp10 precision forcePeriod where
  text := fixedPoint_eq hmant hp
  integerLength := length_integerPart hmant
  integerZero := integerPart_of_nonpos hmant
  fractionLength := length_fractionPart
  digits c hc := (List.mem_append.mp hc).elim isDigit_of_mem_decimal isDigit_of_mem_decimal
  product mant := by rw [toNat_and_mask_mul, toNat_and_mask]
  layout := layout_range hexp hp hp'

/-- Half of ten to the second, with two digits behind the point: `50.00`. -/
theorem fixedPoint_exact_half :
    fixedPoint 0x0080000000000000#64 2 2 false = "50.00".toList.map Char.toUInt8 ∧
      ExactExpansion 0x0080000000000000#64 2 2 false :=
  ⟨by decide +kernel, fixedPoint_exact false (by decide) (by decide) (by decide) (by decide)⟩

end Layout

/-! ### The scaled number -/

/-- The absolute value of a double. -/
def magnitude (x : BitVec 64) : ℚ :=
  if exponent2 x = -1023 then (fraction x).toNat * 2 ^ (-1074 : ℤ)
  else (2 ^ 52 + (fraction x).toNat) * 2 ^ (exponent2 x - 52)

/-- The fraction field has 52 bits. -/
theorem toNat_fraction_lt (x : BitVec 64) : (fraction x).toNat < 2 ^ 52 := by
  have hmod : (fraction x).toNat = x.toNat % 2 ^ 52 := Nat.and_two_pow_sub_one_eq_mod x.toNat 52
  omega

/-- The leading bit is put in front of the fraction. -/
theorem toNat_fraction_or (x : BitVec 64) :
    (fraction x ||| 0x0010000000000000#64).toNat = 2 ^ 52 + (fraction x).toNat := by
  have hor := Nat.two_pow_add_eq_or_of_lt (toNat_fraction_lt x) 1
  rw [mul_one] at hor
  rw [BitVec.toNat_or, Nat.or_comm, hor]
  rfl

/-- The fraction in 56 bits, of a number that has been scaled. -/
theorem toNat_alignedMantissa {x : BitVec 64} (hlow : -4 ≤ exponent2 x) (hhigh : exponent2 x ≤ -1) :
    (alignedMantissa x).toNat = (2 ^ 52 + (fraction x).toNat) * 2 ^ (exponent2 x + 4).toNat ∧
      (alignedMantissa x).toNat < 2 ^ 56 := by
  have hnormal : ¬ exponent2 x = -1023 := by omega
  have hfraction := toNat_fraction_lt x
  have hpow : 2 ^ (exponent2 x + 4).toNat ≤ 2 ^ 3 := Nat.pow_le_pow_right (by decide) (by omega)
  have hlt : (2 ^ 52 + (fraction x).toNat) * 2 ^ (exponent2 x + 4).toNat < 2 ^ 56 :=
    calc (2 ^ 52 + (fraction x).toNat) * 2 ^ (exponent2 x + 4).toNat
        ≤ (2 ^ 52 + (fraction x).toNat) * 2 ^ 3 := Nat.mul_le_mul_left _ hpow
      _ < 2 ^ 56 := by omega
  have hexact : (alignedMantissa x).toNat =
      (2 ^ 52 + (fraction x).toNat) * 2 ^ (exponent2 x + 4).toNat := by
    simp only [alignedMantissa, if_neg hnormal]
    rw [BitVec.toNat_shiftLeft, toNat_fraction_or, Nat.shiftLeft_eq]
    exact Nat.mod_eq_of_lt (hlt.trans (by decide))
  exact ⟨hexact, hexact ▸ hlt⟩

/-- The number that is written is the scaled number times its power of ten. -/
theorem fixedValue_alignedMantissa {x : BitVec 64} (hlow : -4 ≤ exponent2 x)
    (hhigh : exponent2 x ≤ -1) (exp10 : ℤ) :
    fixedValue (alignedMantissa x) exp10 = magnitude x * 10 ^ exp10 := by
  have hnormal : ¬ exponent2 x = -1023 := by omega
  have hshift : (2 : ℚ) ^ (exponent2 x + 4).toNat = 2 ^ (exponent2 x - 52) * 2 ^ 56 := by
    rw [← zpow_natCast, ← zpow_natCast, ← zpow_add₀ (by norm_num)]
    congr 1
    omega
  rw [fixedValue, (toNat_alignedMantissa hlow hhigh).1, magnitude, if_neg hnormal]
  push_cast
  rw [hshift]
  ring

/-- **The text of a number.** If the scaling leaves a number from 1/16 up to 1, what
`ConvertFloatingPoint` stores is the exact expansion of this number times its power of
ten. -/
theorem convertFloatingPoint_exact {σ : Type} (P : Platform σ) {absvalue scaled : BitVec 64}
    {exp10 precision : ℤ} (forcePeriod upperCase : Bool) (hp : 0 ≤ precision)
    (hfinite : exponent2 (P.addHalfUnit absvalue precision) ≠ 0x400)
    (hnormalize : P.normalize (P.addHalfUnit absvalue precision) = (exp10, scaled))
    (hlow : -4 ≤ exponent2 scaled) (hhigh : exponent2 scaled ≤ -1) :
    (convertFloatingPoint P absvalue precision forcePeriod upperCase).1 =
      decimal (if 0 < exp10 then exp10.toNat else 1) ⌊magnitude scaled * 10 ^ exp10⌋₊ ++
        (if 0 < precision ∨ forcePeriod = true then ['.'.toUInt8] else []) ++
        decimal precision.toNat (⌊magnitude scaled * 10 ^ exp10 * 10 ^ precision.toNat⌋₊ %
          10 ^ precision.toNat) := by
  rw [convertFloatingPoint_finite P forcePeriod upperCase hfinite, hnormalize,
    fixedPoint_eq (toNat_alignedMantissa hlow hhigh).2 hp, integerPart, fractionPart,
    fixedValue_alignedMantissa hlow hhigh]

end WifiMcu.Format
