import WifiMcu.Format.FixedPoint
import WifiMcu.Format.Integers

/-!
# The buffers of the conversions

The digits of an integer are stored in 21 bytes, those of a floating point number in 128.
This file counts what the conversions store. Octal numerals of large values do not fit
into the first buffer, and large numbers not into the second one.
-/

namespace WifiMcu.Format

section Integers

/-- What `OutputUnsignedInteger` stores in its buffer. -/
def integerBuffer (value : BitVec 64) (base : ℕ) (hbase : 1 < base) (firstLetter : UInt8)
    (precision : ℤ) : List UInt8 :=
  if value = 0 then (if precision ≠ 0 then ['0'.toUInt8] else [])
  else digitLoop base hbase firstLetter value.toNat []

/-- These are the digits that it puts out. -/
theorem outputUnsignedInteger_eq (value : BitVec 64) (base : ℕ) (hbase : 1 < base)
    (firstLetter : UInt8) (pre : Option (List UInt8)) (padRight padZero : Bool)
    (width precision : ℤ) :
    ∃ numExtraZeroes, outputUnsignedInteger value base hbase firstLetter pre padRight padZero width
      precision = outputDigitString pre numExtraZeroes
        (integerBuffer value base hbase firstLetter precision) padRight width :=
  ⟨_, rfl⟩

/-- How many digits there are depends on the value and the base. -/
theorem integerBuffer_length_le_iff {base : ℕ} (hbase : 1 < base) {firstLetter : UInt8}
    {capital : Bool} (hchar : ∀ d < base, digitChar firstLetter d = c99Digit capital d)
    (value : BitVec 64) (precision : ℤ) {n : ℕ} (hn : 0 < n) :
    (integerBuffer value base hbase firstLetter precision).length ≤ n ↔ value.toNat < base ^ n := by
  unfold integerBuffer
  split_ifs with hzero hprecision
  · subst hzero
    exact iff_of_true hn (Nat.pow_pos (by omega))
  · subst hzero
    exact iff_of_true (Nat.zero_le n) (Nat.pow_pos (by omega))
  · rw [digitLoop_eq hbase hchar, List.append_nil, numeral, List.length_reverse, List.length_map,
      Nat.digits_length_le_iff hbase]

variable {σ : Type} (P : Platform σ)

/-- The value that a directive passes to `OutputUnsignedInteger`: of a signed value the
absolute one. -/
def passedValue (c : IntegerConversion) (modifier : ℤ) (args : σ) : BitVec 64 :=
  if c.signed then
    if 0 ≤ (signedValue P modifier args).1.toInt then (signedValue P modifier args).1
    else -(signedValue P modifier args).1
  else (unsignedValue P modifier args).1

/-- What the conversion of a directive stores in the buffer. -/
def directiveBuffer (c : IntegerConversion) (modifier precision : ℤ) (args : σ) : List UInt8 :=
  integerBuffer (passedValue P c modifier args) c.base c.one_lt_base c.firstLetter precision

/-- A directive puts out the digits of its value from the buffer. -/
theorem convert_directiveBuffer (c : IntegerConversion) (flags : Flags) (sizes : Sizes)
    (m : Modifier) (args : σ) :
    ∃ pre numExtraZeroes, (convert P c.byte flags sizes m.code args).chars =
      (outputDigitString pre numExtraZeroes (directiveBuffer P c m.code sizes.precision args)
        sizes.padRight sizes.width).chars := by
  cases hc : c.signed with
  | true =>
    have hdecimal : ∀ value, integerBuffer value 10 one_lt_ten 0 sizes.precision =
        integerBuffer value c.base c.one_lt_base c.firstLetter sizes.precision := by
      intro value
      cases c with
      | d | i => rfl
      | u | o | x | X => cases hc
    rw [convert_signed P hc, outputSignedInteger, directiveBuffer, passedValue, if_pos hc]
    split_ifs with hsign
    · obtain ⟨numExtraZeroes, heq⟩ := outputUnsignedInteger_eq (signedValue P m.code args).1 10
        one_lt_ten 0 flags.positivePrefix sizes.padRight sizes.padZero sizes.width sizes.precision
      exact ⟨_, numExtraZeroes, by rw [heq, hdecimal]⟩
    · obtain ⟨numExtraZeroes, heq⟩ := outputUnsignedInteger_eq (-(signedValue P m.code args).1) 10
        one_lt_ten 0 (some ['-'.toUInt8]) sizes.padRight sizes.padZero sizes.width sizes.precision
      exact ⟨_, numExtraZeroes, by rw [heq, hdecimal]⟩
  | false =>
    have hunsigned : ¬ c.signed = true := by rw [hc]; decide
    rw [convert_unsigned P hc, directiveBuffer, passedValue, if_neg hunsigned]
    obtain ⟨numExtraZeroes, heq⟩ := outputUnsignedInteger_eq (unsignedValue P m.code args).1 c.base
      c.one_lt_base c.firstLetter
      (c.alternatePrefix flags.alternate sizes.precision (unsignedValue P m.code args).1)
      sizes.padRight sizes.padZero sizes.width sizes.precision
    exact ⟨_, numExtraZeroes, by rw [heq]⟩

/-- The digits of a decimal or hexadecimal value fit into the buffer. -/
theorem lt_pow_of_ne_octal {c : IntegerConversion} (hc : c ≠ .o) (value : BitVec 64) :
    value.toNat < c.base ^ 21 := by
  have hlt : value.toNat < 2 ^ 64 := value.isLt
  cases c with
  | o => exact absurd rfl hc
  | d | i | u => exact hlt.trans (by decide)
  | x | X => exact hlt.trans (by decide)

/-- **The digit buffer.** It is large enough, but for an octal conversion of a value of
2^63 or more. -/
theorem directiveBuffer_fits_iff (c : IntegerConversion) (m : Modifier) (precision : ℤ) (args : σ) :
    (directiveBuffer P c m.code precision args).length ≤ 21 ↔
      ¬ (c = .o ∧ 2 ^ 63 ≤ (unsignedValue P m.code args).1.toNat) := by
  rw [directiveBuffer, integerBuffer_length_le_iff c.one_lt_base c.digitChar_eq _ _ (by decide)]
  by_cases hc : c = .o
  · subst hc
    have hpow : IntegerConversion.o.base ^ 21 = 2 ^ 63 := by decide
    rw [hpow, ← not_le]
    exact not_congr (and_iff_right rfl).symm
  · exact iff_of_true (lt_pow_of_ne_octal hc _) fun h => hc h.1

/-- The octal numeral of 2^63 has 22 digits. -/
theorem not_directiveBuffer_fits :
    ¬ ∀ (c : IntegerConversion) (m : Modifier) (precision : ℤ) (args : List Arg),
      (directiveBuffer argPlatform c m.code precision args).length ≤ 21 := by
  intro hall
  have hfits := hall .o .ll (-1) [.longLong 0x8000000000000000]
  rw [directiveBuffer, integerBuffer_length_le_iff (by decide) IntegerConversion.o.digitChar_eq _ _
    (by decide)] at hfits
  revert hfits
  decide

end Integers

section FloatingPoint

/-- The double without its sign, as `OutputFloatingPoint` passes it on. -/
def absoluteValue (value : BitVec 64) : BitVec 64 :=
  if value.msb = false then value else value ^^^ 0x8000000000000000#64

/-- The precision that `OutputFloatingPoint` passes on. -/
def clampedPrecision (precision : ℤ) : ℤ :=
  let precision := if precision < 0 then 6 else precision
  if 100 < precision then 100 else precision

/-- The precision is in the range that it is clamped to. -/
theorem clampedPrecision_range (precision : ℤ) :
    0 ≤ clampedPrecision precision ∧ clampedPrecision precision ≤ 100 := by
  unfold clampedPrecision
  dsimp only
  split_ifs <;> omega

variable {σ : Type} (P : Platform σ)

/-- What `ConvertFloatingPoint` stores in the buffer of `OutputFloatingPoint`. -/
def floatBuffer (value : BitVec 64) (precision : ℤ) (forcePeriod upperCase : Bool) : List UInt8 :=
  (convertFloatingPoint P (absoluteValue value) (clampedPrecision precision) forcePeriod upperCase).1

/-- These are the digits that it puts out. -/
theorem outputFloatingPoint_eq (value : BitVec 64) (positivePrefix : Option (List UInt8))
    (padRight padZero forcePeriod upperCase : Bool) (width precision : ℤ) :
    ∃ pre numExtraZeroes, outputFloatingPoint P value positivePrefix padRight padZero forcePeriod
      upperCase width precision = outputDigitString pre numExtraZeroes
        (floatBuffer P value precision forcePeriod upperCase) padRight width :=
  ⟨_, _, rfl⟩

/-- The value that is converted, with the sum and the exponent that are computed from it. -/
def roundedValue (value : BitVec 64) (precision : ℤ) : BitVec 64 :=
  P.addHalfUnit (absoluteValue value) (clampedPrecision precision)

/-- The decimal exponent that `ConvertFloatingPoint` computes. -/
def computedExponent (value : BitVec 64) (precision : ℤ) : ℤ :=
  (P.normalize (roundedValue P value precision)).1

/-- The absolute value and half a unit of the last digit. -/
def exactSum (value : BitVec 64) (precision : ℤ) : ℚ :=
  magnitude value + 1 / 2 / 10 ^ (clampedPrecision precision).toNat

/-- The arithmetic with doubles is as it should be: adding half a unit to a finite number gives a
finite number, and the decimal exponent of the sum is exact. -/
structure ExponentExact (value : BitVec 64) (precision : ℤ) : Prop where
  finite : exponent2 value ≠ 0x400 → exponent2 (roundedValue P value precision) ≠ 0x400
  lower : (10 : ℚ) ^ (computedExponent P value precision - 1) ≤ exactSum value precision
  upper : exactSum value precision < 10 ^ computedExponent P value precision

/-- The largest exponent of a number that fits into the buffer. -/
def exponentLimit (precision : ℤ) (forcePeriod : Bool) : ℤ :=
  if precision = 0 ∧ forcePeriod = false then 128 else 127 - precision

/-- The characters fit into the buffer if the exponent is not above the limit. -/
theorem numberOfDigits_le_iff {exp10 precision : ℤ} (forcePeriod : Bool) (hp : 0 ≤ precision)
    (hp' : precision ≤ 100) :
    (numberOfDigits exp10 precision forcePeriod).toNat ≤ 128 ↔
      exp10 ≤ exponentLimit precision forcePeriod := by
  unfold numberOfDigits exponentLimit
  dsimp only
  split_ifs <;> omega

/-- An exact exponent compares with a limit as the number does with its power of ten. -/
theorem exponent_le_iff {x : ℚ} {e limit : ℤ} (hlower : (10 : ℚ) ^ (e - 1) ≤ x)
    (hupper : x < 10 ^ e) : e ≤ limit ↔ x < 10 ^ limit := by
  constructor
  · intro hle
    exact hupper.trans_le (zpow_le_zpow_right₀ (by norm_num) hle)
  · intro hlt
    have hpow : (10 : ℚ) ^ (e - 1) < 10 ^ limit := hlower.trans_lt hlt
    have hexp := (zpow_lt_zpow_iff_right₀ (by norm_num : (1 : ℚ) < 10)).mp hpow
    omega

/-- **The floating point buffer.** It is large enough exactly for numbers that have few enough
digits for the precision. -/
theorem floatBuffer_fits_iff {value : BitVec 64} {precision : ℤ} (forcePeriod upperCase : Bool)
    (hvalue : exponent2 value ≠ 0x400) (hexact : ExponentExact P value precision) :
    (floatBuffer P value precision forcePeriod upperCase).length ≤ 128 ↔
      exactSum value precision <
        10 ^ exponentLimit (clampedPrecision precision) forcePeriod := by
  obtain ⟨hp, hp'⟩ := clampedPrecision_range precision
  rw [floatBuffer, convertFloatingPoint_finite P forcePeriod upperCase (hexact.finite hvalue),
    fixedPoint, length_fixedPointDigits, numberOfDigits_le_iff forcePeriod hp hp']
  exact exponent_le_iff hexact.lower hexact.upper

/-- A platform whose arithmetic with doubles has given results: for the sum with half a unit,
the decimal exponent and the scaled number. -/
def floatPlatform (sum : BitVec 64) (exp10 : ℤ) (scaled : BitVec 64) : Platform (List Arg) :=
  { argPlatform with
    addHalfUnit := fun _ _ => sum
    normalize := fun _ => (exp10, scaled) }

/-- The exponent of the numbers is exact on such a platform if it is exact for the sum. -/
theorem exponentExact_floatPlatform {sum scaled value : BitVec 64} {e precision : ℤ}
    (hfinite : exponent2 sum ≠ 0x400) (hlower : (10 : ℚ) ^ (e - 1) ≤ exactSum value precision)
    (hupper : exactSum value precision < 10 ^ e) :
    ExponentExact (floatPlatform sum e scaled) value precision :=
  ⟨fun _ => hfinite, hlower, hupper⟩

/-- The number 1 with half a unit of the sixth digit. -/
theorem exactSum_one : exactSum 0x3ff0000000000000 (-1) = 1 + 1 / 2 / 10 ^ 6 := by
  have hexponent : exponent2 0x3ff0000000000000 = 0 := by decide
  have hfraction : (fraction 0x3ff0000000000000).toNat = 0 := by decide
  have hprecision : (clampedPrecision (-1)).toNat = 6 := by decide
  rw [exactSum, magnitude, hexponent, hfraction, hprecision]
  norm_num

/-- The number 1 is written with six digits behind the point. -/
theorem floatBuffer_fits_iff_one :
    floatBuffer (floatPlatform 0x3ff000008637bd06 1 0x3fb9999a70592e70) 0x3ff0000000000000 (-1)
        false false = "1.000000".toList.map Char.toUInt8 ∧
      ((floatBuffer (floatPlatform 0x3ff000008637bd06 1 0x3fb9999a70592e70) 0x3ff0000000000000 (-1)
        false false).length ≤ 128 ↔
          exactSum 0x3ff0000000000000 (-1) < 10 ^ exponentLimit (clampedPrecision (-1)) false) := by
  refine ⟨by decide +kernel, floatBuffer_fits_iff _ false false (by decide)
    (exponentExact_floatPlatform (by decide) ?_ ?_)⟩
  · rw [exactSum_one]
    norm_num
  · rw [exactSum_one]
    norm_num

/-- The number 2^128 with half a unit of the hundredth digit. -/
theorem exactSum_large : exactSum 0x47f0000000000000 100 = 2 ^ 128 + 1 / 2 / 10 ^ 100 := by
  have hexponent : exponent2 0x47f0000000000000 = 128 := by decide
  have hfraction : (fraction 0x47f0000000000000).toNat = 0 := by decide
  have hprecision : (clampedPrecision 100).toNat = 100 := by decide
  rw [exactSum, magnitude, hexponent, hfraction, hprecision]
  norm_num

/-- The number 2^128, which has 39 digits in front of the point, does not fit into the buffer
with 100 digits behind it. -/
theorem not_floatBuffer_fits :
    ¬ ∀ (P : Platform (List Arg)) (value : BitVec 64) (precision : ℤ) (forcePeriod upperCase : Bool),
      exponent2 value ≠ 0x400 → ExponentExact P value precision →
        (floatBuffer P value precision forcePeriod upperCase).length ≤ 128 := by
  intro hall
  have hexact : ExponentExact (floatPlatform 0x47f0000000000000 39 0x3fd5c72fb1552d83)
      0x47f0000000000000 100 := by
    apply exponentExact_floatPlatform (by decide)
    · rw [exactSum_large]
      norm_num
    · rw [exactSum_large]
      norm_num
  have hfits := hall _ 0x47f0000000000000 100 false false (by decide) hexact
  revert hfits
  decide +kernel

end FloatingPoint

end WifiMcu.Format
