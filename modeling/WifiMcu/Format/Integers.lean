import WifiMcu.Format.C99

/-!
# Integer directives output the C99 text

Each step of the code is brought to the form the reference has: the parsed flags
and sizes, the digits of the backwards loop, the zeros that make up the precision,
and the filling of the field.
-/

namespace WifiMcu.Format

open Word

/-! ### Flags and sizes -/

/-- The flags after one more flag character. -/
theorem flagsOf_concat (fs : List Flag) (f : Flag) :
    flagsOf (fs ++ [f]) = (flagsOf fs).apply f := by
  simp [flagsOf]

/-- The order and repetition of flags matter only in that `-` overrides `0` and
`+` overrides a space. -/
theorem flagsOf_eq (fs : List Flag) :
    flagsOf fs =
      { positivePrefix := if .plus ∈ fs then some ['+'.toUInt8]
          else if .space ∈ fs then some [' '.toUInt8] else none
        padRight := decide (.leftJustify ∈ fs)
        padZero := decide (.zeroPad ∈ fs ∧ .leftJustify ∉ fs)
        alternate := decide (.alternate ∈ fs) } := by
  induction fs using List.reverseRecOn with
  | nil => rfl
  | append_singleton fs f ih =>
    rw [flagsOf_concat, ih]
    cases f with
    | alternate => simp [Flags.apply]
    | leftJustify => simp [Flags.apply]
    | zeroPad => by_cases h : Flag.leftJustify ∈ fs <;> simp [Flags.apply, h]
    | plus => simp [Flags.apply]
    | space =>
      by_cases hplus : Flag.plus ∈ fs <;> by_cases hspace : Flag.space ∈ fs <;>
        simp [Flags.apply, hplus, hspace]

/-- The sign of a number that is not negative. -/
theorem positivePrefix_flagsOf (fs : List Flag) :
    (flagsOf fs).positivePrefix = if .plus ∈ fs then some ['+'.toUInt8]
      else if .space ∈ fs then some [' '.toUInt8] else none := by
  rw [flagsOf_eq]

/-- It is one character at most. -/
theorem positivePrefix_length (fs : List Flag) :
    ((flagsOf fs).positivePrefix.getD []).length ≤ 2 := by
  rw [positivePrefix_flagsOf]
  split_ifs <;> decide

/-- It is missing exactly if no flag asks for it. -/
theorem positivePrefix_eq_nil (fs : List Flag) :
    (flagsOf fs).positivePrefix.getD [] = [] ↔ .plus ∉ fs ∧ .space ∉ fs := by
  rw [positivePrefix_flagsOf]
  by_cases hplus : Flag.plus ∈ fs <;> by_cases hspace : Flag.space ∈ fs <;> simp [hplus, hspace]

/-- Appending digits to a number never makes it smaller. -/
theorem le_foldl_digits (n : ℕ) (ds : List (Fin 10)) :
    n ≤ ds.foldl (fun n d => 10 * n + d.val) n := by
  induction ds generalizing n with
  | nil => exact le_rfl
  | cons d ds ih => exact le_trans (by omega) (ih (10 * n + d.val))

/-- The digit loop computes the value of a literal that is an `int`. -/
theorem literalValue_eq (n : ℕ) (ds : List (Fin 10))
    (hds : ds.foldl (fun n d => 10 * n + d.val) n < 2147483648) :
    literalValue n ds = ds.foldl (fun n d => 10 * n + d.val) n := by
  induction ds generalizing n with
  | nil => rfl
  | cons d ds ih =>
    have hle := le_foldl_digits (10 * n + d.val) ds
    rw [List.foldl_cons] at hds
    have hstep : wrap32 (wrap32 ((n : ℤ) * 10) + d.val) = ((10 * n + d.val : ℕ) : ℤ) := by
      have hproduct : wrap32 ((n : ℤ) * 10) = n * 10 := wrap32_of_range (by omega) (by omega)
      rw [hproduct, wrap32_of_range (by omega) (by omega)]
      omega
    rw [List.foldl_cons, ← ih _ hds, literalValue, List.foldl_cons, hstep]
    rfl

section

variable {σ : Type} (P : Platform σ)

/-- A width or precision that the code computes without overflow: a `*` whose
magnitude is at most `2 ^ 30`, or a literal that leaves an `int` room for a prefix. -/
def Size.Bounded (args : σ) : Size → Prop
  | .omitted => True
  | .star => |(P.vaInt args).1.toInt| ≤ 2 ^ 30
  | .literal d ds => decimalValue (d :: ds) ≤ 2147483645

/-- A width or precision whose digits, if it has any, denote an `int`. -/
def Size.LiteralFits : Size → Prop
  | .literal d ds => decimalValue (d :: ds) < 2147483648
  | _ => True

/-- A bounded width or precision is an `int`. -/
theorem Size.Bounded.literalFits {args : σ} {s : Size} (hs : s.Bounded P args) :
    s.LiteralFits := by
  cases s with
  | omitted | star => trivial
  | literal d ds =>
    have hbound : decimalValue (d :: ds) ≤ 2147483645 := hs
    show decimalValue (d :: ds) < 2147483648
    omega

/-- The code reads a width or precision that is an `int` as C99 does. -/
theorem read_eq_c99Size {s : Size} (hs : s.LiteralFits) (args : σ) :
    s.read P args = c99Size P args s := by
  cases s with
  | omitted => rfl
  | star => rfl
  | literal d ds =>
    have hvalue := literalValue_eq 0 (d :: ds) hs
    rw [Nat.cast_zero] at hvalue
    simp only [Size.read, c99Size, hvalue, decimalValue]

/-- It is an `int` then. -/
theorem c99Size_int {s : Size} (hs : s.LiteralFits) (args : σ) :
    -2147483648 ≤ (c99Size P args s).1 ∧ (c99Size P args s).1 < 2147483648 := by
  cases s with
  | omitted => simp [c99Size]
  | star =>
    have hlow := BitVec.le_toInt (P.vaInt args).1
    have hhigh := @BitVec.toInt_lt _ (P.vaInt args).1
    simp only [c99Size]
    omega
  | literal d ds =>
    have hvalue : decimalValue (d :: ds) < 2147483648 := hs
    simp only [c99Size]
    omega

/-- A bounded width or precision leaves the arithmetic of the code within an `int`. -/
theorem c99Size_range {args : σ} {s : Size} (hs : s.Bounded P args) :
    -1073741824 ≤ (c99Size P args s).1 ∧ (c99Size P args s).1 ≤ 2147483645 := by
  cases s with
  | omitted => simp [c99Size]
  | star =>
    have hrange := abs_le.mp (show |(P.vaInt args).1.toInt| ≤ 2 ^ 30 from hs)
    simp only [c99Size]
    omega
  | literal d ds =>
    have hvalue : decimalValue (d :: ds) ≤ 2147483645 := hs
    simp only [c99Size]
    omega

end

/-! ### Digits -/

/-- The backwards loop stores the numeral of its value in front of what it has stored. -/
theorem digitLoop_eq {base : ℕ} (hbase : 1 < base) {firstLetter : UInt8} {capital : Bool}
    (hchar : ∀ d < base, digitChar firstLetter d = c99Digit capital d) (n : ℕ)
    (stored : List UInt8) :
    digitLoop base hbase firstLetter n stored = numeral base capital n ++ stored := by
  induction n using Nat.strong_induction_on generalizing stored with
  | _ n ih =>
    rw [digitLoop]
    split_ifs with hn
    · simp [numeral, hn]
    · have hpos : 0 < n := Nat.pos_of_ne_zero hn
      rw [ih _ (Nat.div_lt_self hpos hbase), hchar _ (Nat.mod_lt _ (by omega)), numeral,
        numeral, Nat.digits_def' hbase hpos]
      simp

/-- A numeral does not begin with a zero. -/
theorem head_numeral_ne_zero {base : ℕ} (hbase : 1 < base) (hbase16 : base ≤ 16) (capital : Bool)
    (n : ℕ) : (numeral base capital n).head? ≠ some '0'.toUInt8 := by
  have hdigit : ∀ d < 16, d ≠ 0 → c99Digit false d ≠ '0'.toUInt8 ∧
      c99Digit true d ≠ '0'.toUInt8 := by decide
  by_cases hn : n = 0
  · simp [numeral, hn]
  · have hne : Nat.digits base n ≠ [] := Nat.digits_ne_nil_iff_ne_zero.mpr hn
    have hlast := Nat.getLast_digit_ne_zero base hn
    have hlt := Nat.digits_lt_base hbase (List.getLast_mem hne)
    rw [numeral, List.head?_reverse, List.getLast?_map, List.getLast?_eq_some_getLast hne]
    have h := hdigit _ (by omega) hlast
    cases capital
    · simpa using h.1
    · simpa using h.2

/-- The number of digits asked for by a precision: one if it is negative. -/
def minDigits (precision : ℤ) : ℕ := if precision < 0 then 1 else precision.toNat

/-- A `digitString` and its extra zeroes are the numeral, filled up with zeros to
the digits that the precision asks for. -/
theorem replicate_append_numeral {D N : List UInt8} {precision : ℤ}
    (hzero : N = [] → D = if precision ≠ 0 then ['0'.toUInt8] else [])
    (hpos : N ≠ [] → D = N) :
    List.replicate (precision - D.length).toNat '0'.toUInt8 ++ D =
      N.leftpad (minDigits precision) '0'.toUInt8 := by
  by_cases hN : N = []
  · rw [hzero hN, hN, minDigits, List.leftpad, List.append_nil, List.length_nil, Nat.sub_zero]
    rcases lt_trichotomy precision 0 with hneg | rfl | hpos
    · have hnone : (precision - 1).toNat = 0 := by omega
      simp [hneg, hneg.ne, hnone]
    · simp
    · -- the single `0` that the code stores is the last of the zeros
      have hone : precision.toNat = (precision - 1).toNat + 1 := by omega
      rw [if_pos hpos.ne', if_neg (by omega), hone, List.replicate_succ']
      rfl
  · rw [hpos hN, List.leftpad]
    have hlength : 0 < N.length := List.length_pos_iff.mpr hN
    congr 2
    unfold minDigits
    split_ifs <;> omega

/-! ### The field -/

/-- The fill character of a left-justified field does not depend on the `0` flag. -/
theorem layout_congr {left zero zero' : Bool} (h : left = false → zero = zero') (width : ℕ)
    (sign digits : List UInt8) :
    layout left zero width sign digits = layout left zero' width sign digits := by
  cases left with
  | true => rfl
  | false => rw [h rfl]

/-- The length of a prefix of at most two characters is counted correctly. -/
theorem numPrefix_eq {pre : Option (List UInt8)} (hpre : (pre.getD []).length ≤ 2) :
    numPrefix pre = (pre.getD []).length := by
  rcases pre with _ | _ | ⟨a, _ | ⟨b, _ | ⟨c, l⟩⟩⟩
  · rfl
  · rfl
  · rfl
  · rfl
  · simp at hpre

/-- Without overflow `OutputDigitString` fills a field. A negative number of extra
zeroes is zero padding, which is never asked for together with left justification. -/
theorem outputDigitString_chars {pre : Option (List UInt8)} {z width : ℤ} {D : List UInt8}
    {padRight : Bool} (hpre : (pre.getD []).length ≤ 2) (hwidth : 0 ≤ width)
    (hwidth' : width < 2147483648) (hD : D.length ≤ 128)
    (hz : z + D.length + 2 < 2147483648) (hleft : z < 0 → padRight = false) :
    (outputDigitString pre z D padRight width).chars =
      layout padRight (decide (z < 0)) width.toNat (pre.getD [])
        (List.replicate z.toNat '0'.toUInt8 ++ D) := by
  have hlead := numPrefix_eq hpre
  by_cases hneg : z < 0
  · -- the zeros take up what is left of the width, and no spaces remain
    have hroom : wrap32 (width - D.length) = width - D.length :=
      wrap32_of_range (by omega) (by omega)
    have hrest : wrap32 (width - D.length - numPrefix pre) = width - D.length - numPrefix pre :=
      wrap32_of_range (by omega) (by omega)
    have hused : wrap32 (D.length + max 0 (width - D.length - numPrefix pre)) =
        D.length + max 0 (width - D.length - numPrefix pre) :=
      wrap32_of_range (by omega) (by omega)
    have htotal : wrap32 (D.length + max 0 (width - D.length - numPrefix pre) + numPrefix pre) =
        D.length + max 0 (width - D.length - numPrefix pre) + numPrefix pre :=
      wrap32_of_range (by omega) (by omega)
    have hzeros : (max 0 (wrap32 (wrap32 (width - D.length) - numPrefix pre))).toNat =
        width.toNat - ((pre.getD []).length + D.length) := by
      rw [hroom, hrest]
      omega
    have hspaces : (max 0 (wrap32 (width - wrap32 (wrap32 (D.length + max 0 (wrap32 (wrap32
        (width - D.length) - numPrefix pre))) + numPrefix pre)))).toNat = 0 := by
      rw [hroom, hrest, hused, htotal, wrap32_of_range (by omega) (by omega)]
      omega
    have hz0 : z.toNat = 0 := by omega
    simp only [outputDigitString, if_pos hneg, repeatChar, hspaces, hzeros, hleft hneg, hz0]
    rw [hlead, List.take_length]
    simp [layout, hneg]
  · have hused : wrap32 (D.length + z) = D.length + z := wrap32_of_range (by omega) (by omega)
    have htotal : wrap32 (D.length + z + numPrefix pre) = D.length + z + numPrefix pre :=
      wrap32_of_range (by omega) (by omega)
    have hspaces : (max 0 (wrap32 (width - wrap32 (wrap32 (D.length + z) + numPrefix pre)))).toNat =
        width.toNat - ((pre.getD []).length + (z.toNat + D.length)) := by
      rw [hused, htotal, wrap32_of_range (by omega) (by omega)]
      omega
    simp only [outputDigitString, if_neg hneg, repeatChar, hspaces]
    rw [hlead, List.take_length]
    cases padRight <;> simp [layout, hneg]

/-- Only zero has no digits. -/
theorem numeral_eq_nil_iff {base : ℕ} {upper : Bool} {value : BitVec 64} :
    numeral base upper value.toNat = [] ↔ value = 0 := by
  simp [numeral, Nat.digits_eq_nil_iff_eq_zero, BitVec.toNat_eq]

/-- A precision switches the filling with zeros off. -/
theorem zeroFill_eq_false {padZero : Bool} {precision : ℤ}
    (h : ¬ (padZero = true ∧ precision < 0)) : (padZero && decide (precision < 0)) = false := by
  rw [Bool.and_eq_false_iff, decide_eq_false_iff_not]
  by_cases hp : padZero = true
  · exact Or.inr fun hneg => h ⟨hp, hneg⟩
  · exact Or.inl (Bool.eq_false_of_not_eq_true hp)

/-- The digits that `OutputUnsignedInteger` stores for a value. -/
theorem stored_digits {base : ℕ} (hbase : 1 < base) {firstLetter : UInt8} {capital : Bool}
    (hchar : ∀ d < base, digitChar firstLetter d = c99Digit capital d) (value : BitVec 64)
    (precision : ℤ) {D : List UInt8}
    (hD : D = if value = 0 then (if precision ≠ 0 then ['0'.toUInt8] else [])
      else digitLoop base hbase firstLetter value.toNat []) :
    (numeral base capital value.toNat = [] →
      D = if precision ≠ 0 then ['0'.toUInt8] else []) ∧
    (numeral base capital value.toNat ≠ [] → D = numeral base capital value.toNat) := by
  constructor
  · intro h
    rw [hD, if_pos (numeral_eq_nil_iff.mp h)]
  · intro h
    rw [hD, if_neg (mt numeral_eq_nil_iff.mpr h), digitLoop_eq hbase hchar, List.append_nil]

/-- `OutputUnsignedInteger` fills a field with its prefix and at least as many
digits as the precision asks for. -/
theorem outputUnsignedInteger_chars {value : BitVec 64} {base : ℕ} {hbase : 1 < base}
    {firstLetter : UInt8} {capital : Bool}
    (hchar : ∀ d < base, digitChar firstLetter d = c99Digit capital d)
    (hdigits : (numeral base capital value.toNat).length ≤ 21)
    {pre : Option (List UInt8)} (hpre : (pre.getD []).length ≤ 2)
    (hoctal : pre ≠ some ['0'.toUInt8]) {padRight padZero : Bool}
    (hpad : padZero = true → padRight = false) {width precision : ℤ} (hwidth : 0 ≤ width)
    (hwidth' : width < 2147483648) (hprecision : -1073741824 ≤ precision)
    (hprecision' : precision ≤ 2147483645) :
    (outputUnsignedInteger value base hbase firstLetter pre padRight padZero width
        precision).chars =
      layout padRight (padZero && decide (precision < 0)) width.toNat (pre.getD [])
        ((numeral base capital value.toNat).leftpad (minDigits precision) '0'.toUInt8) := by
  obtain ⟨D, hD⟩ : ∃ D, D = if value = 0 then (if precision ≠ 0 then ['0'.toUInt8] else [])
      else digitLoop base hbase firstLetter value.toNat [] := ⟨_, rfl⟩
  obtain ⟨hzero, hpos⟩ := stored_digits hbase hchar value precision hD
  have hlength : D.length ≤ 21 := by
    by_cases hN : numeral base capital value.toNat = []
    · rw [hzero hN]
      split_ifs <;> simp
    · rwa [hpos hN]
  simp only [outputUnsignedInteger, ← hD, if_neg hoctal]
  by_cases hfill : padZero = true ∧ precision < 0
  · rw [if_pos hfill, outputDigitString_chars hpre hwidth hwidth' (by omega) (by omega)
      fun _ => hpad hfill.1]
    rw [← replicate_append_numeral hzero hpos]
    have hnone : (precision - D.length).toNat = 0 := by omega
    simp [hfill, hnone]
  · have hwrap : wrap32 (precision - D.length) = precision - D.length :=
      wrap32_of_range (by omega) (by omega)
    have hz : (max 0 (precision - (D.length : ℤ))).toNat = (precision - D.length).toNat := by omega
    have hnonneg : ¬ max 0 (precision - (D.length : ℤ)) < 0 := by omega
    rw [if_neg hfill, hwrap, outputDigitString_chars hpre hwidth hwidth' (by omega) (by omega)
      (by omega), hz, replicate_append_numeral hzero hpos]
    simp only [hnonneg, decide_false, zeroFill_eq_false hfill]

/-- A sign that is a zero may be counted among the digits. -/
theorem layout_zero_sign (left zero : Bool) (width : ℕ) (digits : List UInt8) :
    layout left zero width ['0'.toUInt8] digits =
      layout left zero width [] ('0'.toUInt8 :: digits) := by
  have hfill : ['0'.toUInt8].length + digits.length =
      ([] : List UInt8).length + ('0'.toUInt8 :: digits).length := by
    simp only [List.length_cons, List.length_nil]
    omega
  unfold layout
  rw [hfill]
  split_ifs
  · simp
  · -- the zeros of the filling commute with the sign
    simp [← List.replicate_succ, List.replicate_succ']
  · simp

/-- Digits that begin with a zero exactly when the precision does not supply one
receive it in front. -/
theorem leftpad_octal {N : List UInt8} (hN : N.head? ≠ some '0'.toUInt8) (n : ℕ) :
    (if (N.leftpad n '0'.toUInt8).head? ≠ some '0'.toUInt8 then
        '0'.toUInt8 :: N.leftpad n '0'.toUInt8
      else N.leftpad n '0'.toUInt8) =
      '0'.toUInt8 :: (List.replicate (n - N.length - 1) '0'.toUInt8 ++ N) := by
  unfold List.leftpad
  cases hk : n - N.length with
  | zero => simp [hN]
  | succ k => simp [List.replicate_succ]

/-- With the octal prefix the digits begin with a zero, which is added only where
the precision does not supply one. -/
theorem outputUnsignedInteger_octal {value : BitVec 64}
    (hdigits : (numeral 8 false value.toNat).length ≤ 21) {padRight padZero : Bool}
    (hpad : padZero = true → padRight = false) {width precision : ℤ}
    (hvalue : value ≠ 0 ∨ precision = 0) (hwidth : 0 ≤ width)
    (hwidth' : width < 2147483648) (hprecision : -1073741824 ≤ precision)
    (hprecision' : precision ≤ 2147483645) :
    (outputUnsignedInteger value 8 (by decide) 0 (some ['0'.toUInt8]) padRight padZero width
        precision).chars =
      layout padRight (padZero && decide (precision < 0)) width.toNat []
        (let digits := (numeral 8 false value.toNat).leftpad (minDigits precision) '0'.toUInt8
        if digits.head? ≠ some '0'.toUInt8 then '0'.toUInt8 :: digits else digits) := by
  obtain ⟨D, hD⟩ : ∃ D, D = if value = 0 then (if precision ≠ 0 then ['0'.toUInt8] else [])
      else digitLoop 8 (by decide) 0 value.toNat [] := ⟨_, rfl⟩
  have hchar : ∀ d < 8, digitChar 0 d = c99Digit false d := by decide
  obtain ⟨hzero, hpos⟩ := stored_digits (by decide) hchar value precision hD
  -- in both cases of the prefix the numeral itself is stored
  have hDN : D = numeral 8 false value.toNat := by
    rcases hvalue with hne | hp
    · exact hpos (mt numeral_eq_nil_iff.mp hne)
    · by_cases hN : numeral 8 false value.toNat = []
      · rw [hzero hN, hN, if_neg (by simpa using hp)]
      · exact hpos hN
  have hlength : precision < 0 → 0 < D.length := by
    intro hneg
    have hne : value ≠ 0 := hvalue.resolve_right (by omega)
    rw [hDN, List.length_pos_iff]
    exact mt numeral_eq_nil_iff.mp hne
  have hhead : (numeral 8 false value.toNat).head? ≠ some '0'.toUInt8 :=
    head_numeral_ne_zero (by decide) (by decide) false value.toNat
  dsimp only
  rw [leftpad_octal hhead, ← layout_zero_sign, ← hDN]
  rw [← hDN] at hdigits
  simp only [outputUnsignedInteger, ← hD, if_true]
  by_cases hfill : padZero = true ∧ precision < 0
  · rw [if_pos hfill, outputDigitString_chars (by simp) hwidth hwidth' (by omega) (by omega)
      fun _ => hpad hfill.1]
    have hnone : minDigits precision - D.length - 1 = 0 := by
      have hpos := hlength hfill.2
      rw [minDigits, if_pos hfill.2]
      omega
    simp [hfill, hnone]
  · have hwrap : wrap32 (wrap32 (precision - D.length) - 1) = precision - D.length - 1 := by
      unfold wrap32
      omega
    have hz : (max 0 (precision - (D.length : ℤ) - 1)).toNat =
        minDigits precision - D.length - 1 := by
      unfold minDigits
      split_ifs with hneg
      · have := hlength hneg
        omega
      · omega
    have hnonneg : ¬ max 0 (precision - (D.length : ℤ) - 1) < 0 := by omega
    rw [if_neg hfill, hwrap, outputDigitString_chars (by simp) hwidth hwidth' (by omega) (by omega)
      (by omega), hz]
    simp only [hnonneg, decide_false, zeroFill_eq_false hfill, Option.getD_some]

/-- `OutputSignedInteger` writes the magnitude of its value behind its sign. -/
theorem outputSignedInteger_chars {value : BitVec 64} {flags : List Flag}
    (hdigits : (numeral 10 false value.toInt.natAbs).length ≤ 21) {padRight padZero : Bool}
    (hpad : padZero = true → padRight = false) {width precision : ℤ} (hwidth : 0 ≤ width)
    (hwidth' : width < 2147483648) (hprecision : -1073741824 ≤ precision)
    (hprecision' : precision ≤ 2147483645) :
    (outputSignedInteger value (flagsOf flags).positivePrefix padRight padZero width
        precision).chars =
      layout padRight (padZero && decide (precision < 0)) width.toNat (c99Sign flags value.toInt)
        ((numeral 10 false value.toInt.natAbs).leftpad (minDigits precision) '0'.toUInt8) := by
  have hchar : ∀ d < 10, digitChar 0 d = c99Digit false d := by decide
  rw [outputSignedInteger]
  by_cases hnonneg : 0 ≤ value.toInt
  · have hnat : value.toNat = value.toInt.natAbs := by
      rw [BitVec.toInt_eq_toNat_cond] at hnonneg ⊢
      have := value.isLt
      split_ifs at hnonneg ⊢ <;> omega
    have hsign : c99Sign flags value.toInt = (flagsOf flags).positivePrefix.getD [] := by
      rw [positivePrefix_flagsOf, c99Sign, if_neg (by omega)]
      split_ifs <;> rfl
    rw [if_pos hnonneg, hsign, ← hnat]
    refine outputUnsignedInteger_chars hchar (by rwa [hnat]) (positivePrefix_length flags) ?_ hpad
      hwidth hwidth' hprecision hprecision'
    rw [positivePrefix_flagsOf]
    split_ifs <;> decide
  · -- the magnitude of the most negative value is still its own wrapped negation
    have hnat : (-value).toNat = value.toInt.natAbs := by
      rw [BitVec.toInt_eq_toNat_cond] at hnonneg ⊢
      rw [BitVec.toNat_neg]
      have := value.isLt
      split_ifs at hnonneg ⊢ <;> omega
    have hsign : c99Sign flags value.toInt = (some ['-'.toUInt8]).getD [] := by
      rw [c99Sign, if_pos (by omega)]
      rfl
    rw [if_neg hnonneg, hsign, ← hnat]
    exact outputUnsignedInteger_chars hchar (by rwa [hnat]) (by simp) (by decide) hpad hwidth
      hwidth' hprecision hprecision'

/-! ### The whole directive -/

section

variable {σ : Type} (P : Platform σ)

/-- The value of a `d` or `i` directive is the reduced value of C99. -/
theorem signedValue_toInt (m : Modifier) (args : σ) :
    (signedValue P m.code args).1.toInt = c99Value P true m args := by
  cases m <;> simp [signedValue, c99Value, Modifier.code, BitVec.toInt_signExtend_of_le]

/-- The value of an unsigned directive is the reduced value of C99. -/
theorem unsignedValue_toNat (m : Modifier) (args : σ) :
    ((unsignedValue P m.code args).1.toNat : ℤ) = c99Value P false m args := by
  have hwiden {w : ℕ} (hw : w ≤ 64) (x : BitVec w) : (x.setWidth 64).toNat = x.toNat := by
    rw [BitVec.toNat_setWidth]
    exact Nat.mod_eq_of_lt (lt_of_lt_of_le x.isLt (Nat.pow_le_pow_right (by decide) hw))
  cases m <;> simp [unsignedValue, c99Value, Modifier.code, hwiden]

/-- What the sizes of a specification are, once the code has read them, if they are `int`s. -/
theorem readSizes_eq {s : Spec} {args : σ} (hwidth : s.width.LiteralFits)
    (hne : (c99Size P args s.width).1 ≠ -2147483648)
    (hprecision : ∀ p ∈ s.precision, p.LiteralFits) :
    s.readSizes P (flagsOf s.flags) args =
      (let w := c99Size P args s.width
      let p := s.precision.map (c99Size P w.2)
      ({ width := |w.1|
         precision := (p.map Prod.fst).getD (-1)
         padRight := decide (.leftJustify ∈ s.flags ∨ w.1 < 0)
         padZero := decide (.zeroPad ∈ s.flags ∧ .leftJustify ∉ s.flags ∧ ¬ w.1 < 0) },
        p.elim w.2 Prod.snd)) := by
  have hrange := c99Size_int P hwidth args
  have hsizes : Sizes.ofWidth (c99Size P args s.width).1 (flagsOf s.flags).padRight
      (flagsOf s.flags).padZero =
        { width := |(c99Size P args s.width).1|
          precision := -1
          padRight := decide (.leftJustify ∈ s.flags ∨ (c99Size P args s.width).1 < 0)
          padZero := decide (.zeroPad ∈ s.flags ∧ .leftJustify ∉ s.flags ∧
            ¬ (c99Size P args s.width).1 < 0) } := by
    rw [Sizes.ofWidth, flagsOf_eq]
    by_cases hneg : (c99Size P args s.width).1 < 0
    · rw [if_pos hneg, abs_of_neg hneg, wrap32_of_range (by omega) (by omega)]
      simp [hneg]
    · rw [if_neg hneg, abs_of_nonneg (by omega)]
      simp [hneg]
  rw [Spec.readSizes, read_eq_c99Size P hwidth args]
  cases hp : s.precision with
  | none => simp [hsizes]
  | some p => simp [hsizes, read_eq_c99Size P (hprecision p hp)]

/-- The digits that a precision asks for, as the code counts them. -/
theorem minDigits_getD (precision : Option ℤ) :
    minDigits (precision.getD (-1)) = (c99Precision precision).getD 1 := by
  cases precision with
  | none => rfl
  | some p =>
    simp only [Option.getD_some, minDigits, c99Precision, Option.bind_some]
    split_ifs <;> rfl

/-- A precision counts as absent exactly if the code sees a negative one. -/
theorem c99Precision_eq_none (precision : Option ℤ) :
    c99Precision precision = none ↔ precision.getD (-1) < 0 := by
  cases precision with
  | none => simp [c99Precision]
  | some p => by_cases hp : p < 0 <;> simp [c99Precision, hp]

/-- The field of a directive, in the terms of the code. -/
theorem c99Integer_eq (c : IntegerConversion) (flags : List Flag) (width : ℤ)
    (precision : Option ℤ) (value : ℤ) :
    c99Integer c flags width precision value =
      layout (decide (.leftJustify ∈ flags ∨ width < 0))
        (decide (.zeroPad ∈ flags ∧ .leftJustify ∉ flags ∧ ¬ width < 0) &&
          decide (precision.getD (-1) < 0)) |width|.toNat
        (if c.signed then c99Sign flags value else c99Prefix c flags value)
        (c99Digits c flags (c99Precision precision) value) := by
  have hwidth : width.natAbs = |width|.toNat := by rw [Int.abs_eq_natAbs, Int.toNat_natCast]
  rw [c99Integer, ← hwidth]
  refine layout_congr (fun hleft => ?_) _ _ _
  have hright := of_decide_eq_false hleft
  rw [not_or] at hright
  rw [← Bool.decide_and]
  simp [hright.1, hright.2, c99Precision_eq_none]

/-- Only the octal conversion has digits that its flags change. -/
theorem c99Digits_of_ne {c : IntegerConversion} (hc : c ≠ .o) (flags : List Flag)
    (precision : Option ℕ) (value : ℤ) :
    c99Digits c flags precision value =
      (numeral c.base (c = .X) value.natAbs).leftpad (precision.getD 1) '0'.toUInt8 := by
  simp [c99Digits, hc]

/-- The digits of an octal value whose alternate form needs no zero of its own. -/
theorem c99Digits_octal_plain {flags : List Flag} {precision : Option ℤ} {value : ℤ}
    (h : ¬ (.alternate ∈ flags ∧ (value ≠ 0 ∨ precision.getD (-1) = 0))) :
    c99Digits .o flags (c99Precision precision) value =
      (numeral 8 false value.natAbs).leftpad (minDigits (precision.getD (-1))) '0'.toUInt8 := by
  have hX : (IntegerConversion.o = .X) = False := by simp
  simp only [c99Digits, IntegerConversion.base, hX, decide_false, true_and, ← minDigits_getD]
  refine if_neg fun halt => ?_
  -- zero with a precision is written with a zero in front already
  have hzero : value = 0 ∧ precision.getD (-1) ≠ 0 := by
    rw [not_and, not_or, not_not] at h
    exact h halt.1
  apply halt.2
  obtain ⟨k, hk⟩ : ∃ k, minDigits (precision.getD (-1)) = k + 1 := by
    refine Nat.exists_eq_succ_of_ne_zero ?_
    unfold minDigits
    split_ifs <;> omega
  simp [hzero.1, numeral, List.leftpad, hk, List.replicate_succ]

/-- A base is at least two. -/
theorem IntegerConversion.one_lt_base (c : IntegerConversion) : 1 < c.base := by
  cases c <;> decide

/-- The letter that the code counts the digits beyond nine from. -/
def IntegerConversion.firstLetter : IntegerConversion → UInt8
  | .x => 'a'.toUInt8
  | .X => 'A'.toUInt8
  | _ => 0

/-- The digits of the code are those of C99. -/
theorem IntegerConversion.digitChar_eq (c : IntegerConversion) :
    ∀ d < c.base, digitChar c.firstLetter d = c99Digit (c = .X) d := by
  cases c <;> decide

/-- The prefix that the code chooses for an unsigned conversion. -/
def IntegerConversion.alternatePrefix (c : IntegerConversion) (alternate : Bool) (precision : ℤ)
    (value : BitVec 64) : Option (List UInt8) :=
  match c with
  | .o => if alternate = true ∧ (value ≠ 0 ∨ precision = 0) then some ['0'.toUInt8] else none
  | .x => if alternate = true ∧ value ≠ 0 then some ['0'.toUInt8, 'x'.toUInt8] else none
  | .X => if alternate = true ∧ value ≠ 0 then some ['0'.toUInt8, 'X'.toUInt8] else none
  | _ => none

/-- The branch of the `switch` for a signed conversion. -/
theorem convert_signed {c : IntegerConversion} (hc : c.signed = true) (flags : Flags)
    (sizes : Sizes) (m : Modifier) (args : σ) :
    (convert P c.byte flags sizes m.code args).chars =
      (outputSignedInteger (signedValue P m.code args).1 flags.positivePrefix sizes.padRight
        sizes.padZero sizes.width sizes.precision).chars := by
  cases c with
  | d | i => rfl
  | u | o | x | X => cases hc

/-- The branches of the `switch` for the unsigned conversions. -/
theorem convert_unsigned {c : IntegerConversion} (hc : c.signed = false) (flags : Flags)
    (sizes : Sizes) (m : Modifier) (args : σ) :
    (convert P c.byte flags sizes m.code args).chars =
      (outputUnsignedInteger (unsignedValue P m.code args).1 c.base c.one_lt_base c.firstLetter
        (c.alternatePrefix flags.alternate sizes.precision (unsignedValue P m.code args).1)
        sizes.padRight sizes.padZero sizes.width sizes.precision).chars := by
  cases c with
  | d | i => cases hc
  | u | o | x | X => rfl

/-- Apart from octal values, the prefix of the code is that of C99. -/
theorem alternatePrefix_eq {c : IntegerConversion} (hsigned : c.signed = false) (hc : c ≠ .o)
    (flags : List Flag) (precision : ℤ) (value : BitVec 64) :
    (c.alternatePrefix (flagsOf flags).alternate precision value).getD [] =
      c99Prefix c flags value.toNat := by
  have hzero : ((value.toNat : ℤ) = 0) ↔ value = 0 := by simp [BitVec.toNat_eq]
  have halternate : (flagsOf flags).alternate = decide (.alternate ∈ flags) := by
    rw [flagsOf_eq]
  cases c with
  | d | i => cases hsigned
  | o => exact absurd rfl hc
  | u => simp [IntegerConversion.alternatePrefix, c99Prefix]
  | x | X =>
    simp only [IntegerConversion.alternatePrefix, c99Prefix, halternate, ne_eq, hzero,
      decide_eq_true_eq]
    split_ifs <;> rfl

/-- A prefix other than that of an octal value is empty or has two characters. -/
theorem alternatePrefix_length (c : IntegerConversion) (alternate : Bool) (precision : ℤ)
    (value : BitVec 64) : ((c.alternatePrefix alternate precision value).getD []).length ≤ 2 := by
  cases c with
  | d | i | u => exact Nat.zero_le 2
  | o | x | X =>
    simp only [IntegerConversion.alternatePrefix]
    split_ifs <;> decide

/-- Only the octal conversion has the prefix that is counted among the digits. -/
theorem alternatePrefix_ne_zero {c : IntegerConversion} (hc : c ≠ .o) (alternate : Bool)
    (precision : ℤ) (value : BitVec 64) :
    c.alternatePrefix alternate precision value ≠ some ['0'.toUInt8] := by
  cases c with
  | d | i | u => simp [IntegerConversion.alternatePrefix]
  | o => exact absurd rfl hc
  | x | X =>
    simp only [IntegerConversion.alternatePrefix]
    split_ifs <;> simp

/-- An octal directive writes its digits, beginning with a zero in the alternate form. -/
theorem outputOctal_chars {value : BitVec 64} {flags : List Flag} {precision : Option ℤ}
    (hdigits : (numeral 8 false value.toNat).length ≤ 21) {padRight padZero : Bool}
    (hpad : padZero = true → padRight = false) {width : ℤ} (hwidth : 0 ≤ width)
    (hwidth' : width < 2147483648) (hprecision : -1073741824 ≤ precision.getD (-1))
    (hprecision' : precision.getD (-1) ≤ 2147483645) :
    (outputUnsignedInteger value 8 (by decide) 0
        (IntegerConversion.o.alternatePrefix (flagsOf flags).alternate (precision.getD (-1)) value)
        padRight padZero width (precision.getD (-1))).chars =
      layout padRight (padZero && decide (precision.getD (-1) < 0)) width.toNat []
        (c99Digits .o flags (c99Precision precision) value.toNat) := by
  have hzero : ((value.toNat : ℤ) ≠ 0) ↔ value ≠ 0 := by simp [BitVec.toNat_eq]
  have halternate : (flagsOf flags).alternate = decide (.alternate ∈ flags) := by
    rw [flagsOf_eq]
  by_cases hpre : .alternate ∈ flags ∧ ((value.toNat : ℤ) ≠ 0 ∨ precision.getD (-1) = 0)
  · rw [hzero] at hpre
    have hprefixed : IntegerConversion.o.alternatePrefix (flagsOf flags).alternate
        (precision.getD (-1)) value = some ['0'.toUInt8] := by
      rw [halternate]
      exact if_pos ⟨decide_eq_true hpre.1, hpre.2⟩
    rw [hprefixed, outputUnsignedInteger_octal hdigits hpad hpre.2 hwidth hwidth' hprecision
      hprecision', minDigits_getD]
    simp [c99Digits, hpre.1, IntegerConversion.base]
  · rw [c99Digits_octal_plain hpre, Int.natAbs_natCast]
    rw [hzero] at hpre
    have hplain : IntegerConversion.o.alternatePrefix (flagsOf flags).alternate
        (precision.getD (-1)) value = none := by
      rw [halternate]
      exact if_neg fun h => hpre ⟨of_decide_eq_true h.1, h.2⟩
    rw [hplain]
    exact outputUnsignedInteger_chars (by decide) hdigits (by decide) (by decide) hpad hwidth
      hwidth' hprecision hprecision'

/-- **An integer conversion outputs the C99 text of its value.** -/
theorem convert_integer {c : IntegerConversion} {flags : List Flag} {m : Modifier} {args : σ}
    {width : ℤ} {precision : Option ℤ}
    (hwidth : -1073741824 ≤ width ∧ width ≤ 2147483645)
    (hprecision : ∀ p ∈ precision, -1073741824 ≤ p ∧ p ≤ 2147483645)
    (hdigits : (numeral c.base (c = .X) (c99Value P c.signed m args).natAbs).length ≤ 21) :
    (convert P c.byte (flagsOf flags)
        { width := |width|
          precision := precision.getD (-1)
          padRight := decide (.leftJustify ∈ flags ∨ width < 0)
          padZero := decide (.zeroPad ∈ flags ∧ .leftJustify ∉ flags ∧ ¬ width < 0) }
        m.code args).chars = c99Integer c flags width precision (c99Value P c.signed m args) := by
  have habs : 0 ≤ |width| ∧ |width| < 2147483648 := by
    rw [Int.abs_eq_natAbs]
    omega
  have hrange : -1073741824 ≤ precision.getD (-1) ∧ precision.getD (-1) ≤ 2147483645 := by
    cases precision with
    | none => simp
    | some p => exact hprecision p rfl
  have hpad : decide (.zeroPad ∈ flags ∧ .leftJustify ∉ flags ∧ ¬ width < 0) = true →
      decide (.leftJustify ∈ flags ∨ width < 0) = false := by
    intro hzero
    have h := of_decide_eq_true hzero
    exact decide_eq_false (not_or.mpr h.2)
  rw [c99Integer_eq]
  by_cases hsigned : c.signed = true
  · have hne : c ≠ .o := by
      rintro rfl
      cases hsigned
    have hten : c.base = 10 ∧ decide (c = .X) = false := by
      revert hsigned
      cases c <;> decide
    rw [hsigned, ← signedValue_toInt, hten.1, hten.2] at hdigits
    rw [convert_signed P hsigned, if_pos hsigned, c99Digits_of_ne hne, ← minDigits_getD, hsigned,
      ← signedValue_toInt, hten.1, hten.2]
    exact outputSignedInteger_chars hdigits hpad habs.1 habs.2 hrange.1 hrange.2
  · have hunsigned := Bool.of_not_eq_true hsigned
    have hnat : (c99Value P c.signed m args).natAbs = (unsignedValue P m.code args).1.toNat := by
      rw [hunsigned, ← unsignedValue_toNat, Int.natAbs_natCast]
    rw [hnat] at hdigits
    rw [convert_unsigned P hunsigned, if_neg hsigned, hunsigned, ← unsignedValue_toNat]
    generalize (unsignedValue P m.code args).1 = value at hdigits ⊢
    by_cases hoctal : c = .o
    · subst hoctal
      have hnone : c99Prefix .o flags value.toNat = [] := by simp [c99Prefix]
      rw [hnone]
      exact outputOctal_chars hdigits hpad habs.1 habs.2 hrange.1 hrange.2
    · have hpre := alternatePrefix_eq hunsigned hoctal flags (precision.getD (-1)) value
      rw [c99Digits_of_ne hoctal, ← minDigits_getD, ← hpre]
      exact outputUnsignedInteger_chars c.digitChar_eq hdigits (alternatePrefix_length _ _ _ _)
        (alternatePrefix_ne_zero hoctal _ _ _) hpad habs.1 habs.2 hrange.1 hrange.2

/-- No specification absorbs the character of an integer conversion. -/
theorem absorbs_integer (s : Spec) (c : IntegerConversion) : s.absorbs c.byte = false := by
  have hsize (p : Size) : p.absorbs c.byte = false := by cases p <;> cases c <;> rfl
  have hmodifier (m : Modifier) : m.absorbs c.byte = false := by cases m <;> cases c <;> decide
  have hflag : Flag.ofByte c.byte = none := by cases c <;> decide
  have hdot : (c.byte == '.'.toUInt8) = false := by cases c <;> decide
  cases hprecision : s.precision <;>
    simp [Spec.absorbs, Spec.sizesAbsorb, hprecision, hsize, hflag, hmodifier, hdot]

/-- The directive of a specification and an integer conversion. -/
def integerDirective (s : Spec) (c : IntegerConversion) : Directive where
  spec := s
  conversion := c.byte
  conversion_ne_nul := by cases c <;> decide
  not_absorbed := absorbs_integer s c
  not_percent := fun _ => by cases c <;> decide

/-- The characters that an integer directive outputs. -/
theorem run_integerDirective {s : Spec} {c : IntegerConversion} {args : σ}
    (hwidth : s.width.Bounded P args)
    (hprecision : ∀ p ∈ s.precision, p.Bounded P (c99Size P args s.width).2)
    (hdigits : (numeral c.base (c = .X) (c99Argument P s c args).natAbs).length ≤ 21) :
    ((integerDirective s c).run P args).chars = c99Text P s c args := by
  have hrange := c99Size_range P hwidth
  have hne : (c99Size P args s.width).1 ≠ -2147483648 := by omega
  have hsizes := readSizes_eq P (hwidth.literalFits P) hne
    fun p hp => (hprecision p hp).literalFits P
  rw [Directive.run, integerDirective, hsizes]
  refine convert_integer P hrange ?_ hdigits
  rintro p hp
  obtain ⟨⟨value, args'⟩, hsize, rfl⟩ := Option.map_eq_some_iff.mp hp
  obtain ⟨size, hsize, heq⟩ := Option.map_eq_some_iff.mp hsize
  have h := c99Size_range P (hprecision size hsize)
  rwa [heq] at h

/-- **Integer directives output the C99 text.** Flags may come in any order and
repeat, the width and the precision may be literal, left out or taken from the
arguments, and every length modifier is covered. A call on the directive alone
outputs exactly its text. Inside a longer format the iteration that reaches the
directive adds exactly its text to the output, and goes on behind it. -/
theorem formatString_integer {s : Spec} {c : IntegerConversion} {args : σ}
    (hwidth : s.width.Bounded P args)
    (hprecision : ∀ p ∈ s.precision, p.Bounded P (c99Size P args s.width).2)
    (hdigits : (numeral c.base (c = .X) (c99Argument P s c args).natAbs).length ≤ 21) :
    (∀ junk, (formatString P ('%'.toUInt8 :: (s.bytes ++ c.byte :: 0 :: junk)) args).map
        FormatState.output = some (c99Text P s c args)) ∧
    (∀ state : FormatState σ, ∀ rest, state.args = args →
      state.format = '%'.toUInt8 :: (s.bytes ++ c.byte :: rest) →
      ∃ state', formatStep P state = some (true, state') ∧ state'.format = rest ∧
        state'.output = state.output ++ c99Text P s c args) := by
  have hrun := run_integerDirective P hwidth hprecision hdigits
  constructor
  · intro junk
    let whole : Split := ⟨[.directive (integerDirective s c)], none⟩
    have hbytes : '%'.toUInt8 :: (s.bytes ++ c.byte :: 0 :: junk) = whole.bytes ++ 0 :: junk := by
      simp [whole, Split.bytes, truncatedBytes, Piece.bytes, Directive.tail, integerDirective]
    rw [hbytes, formatString_split, Option.map_some, ← hrun]
    simp [whole, Split.result, runPieces, Piece.run]
  · rintro state rest rfl hformat
    have hbytes : state.format = (Piece.directive (integerDirective s c)).bytes ++ rest := by
      simp [hformat, Piece.bytes, Directive.tail, integerDirective]
    exact ⟨_, formatStep_piece P _ rest state hbytes, rfl, by rw [← hrun]; rfl⟩

end

/-- The `0` and `+` flags, a width and a modifier that reduces the value: `%0+6hd`
on `65578`. -/
theorem formatString_integer_short :
    (formatString argPlatform (['%', '0', '+', '6', 'h', 'd', '\x00'].map Char.toUInt8)
      [.int 65578]).map FormatState.output =
        some (['+', '0', '0', '0', '4', '2'].map Char.toUInt8) := by
  let s : Spec := ⟨[.zeroPad, .plus], .literal 6 [], none, .h, by simp⟩
  have hwidth : s.width.Bounded argPlatform [.int 65578] :=
    show decimalValue [6] ≤ 2147483645 by decide
  have htext : c99Text argPlatform s .d [.int 65578] =
      ['+', '0', '0', '0', '4', '2'].map Char.toUInt8 := by decide +kernel
  rw [← htext]
  exact (formatString_integer argPlatform (c := .d) hwidth (by simp [s]) (by decide +kernel)).1 []

end WifiMcu.Format
