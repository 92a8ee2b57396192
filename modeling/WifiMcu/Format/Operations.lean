import WifiMcu.Format.Buffers

/-!
# The results of the operations on widths and precisions

Widths and precisions are `int`s that come from the format and from the arguments. This file
collects the exact results of the operations on them, function by function, as far as the
earlier operations have given the values that they work on. An operation overflows if its
exact result is not an `int`.
-/

namespace WifiMcu.Format

open Word

/-- The operations of the digit loop of `ParseInteger`. -/
def parseDigitsResults (value : ℤ) : List UInt8 → List ℤ
  | [] => []
  | c :: format =>
    if isDigit c then
      let product := wrap32 (value * 10)
      [value * 10, product + (c.toNat - 48)] ++
        parseDigitsResults (wrap32 (product + (c.toNat - 48))) format
    else []

/-- The operations of `ParseInteger`. -/
def parseIntegerResults : List UInt8 → List ℤ
  | [] => []
  | c :: rest => if c = '*'.toUInt8 then [] else parseDigitsResults 0 (c :: rest)

/-- The operation of `ParseSizes` on the width. -/
def ofWidthResults (width : ℤ) : List ℤ := if width < 0 then [-width] else []

/-- The operations of `OutputDigitString`. -/
def outputDigitStringResults (pre : Option (List UInt8)) (numExtraZeroes : ℤ)
    (digitString : List UInt8) (width : ℤ) : List ℤ :=
  let numDigits : ℤ := digitString.length
  let zeroes := if numExtraZeroes < 0 then
      [width - numDigits, wrap32 (width - numDigits) - numPrefix pre]
    else []
  let numExtraZeroes :=
    if numExtraZeroes < 0 then max 0 (wrap32 (wrap32 (width - numDigits) - numPrefix pre))
    else numExtraZeroes
  let sum := wrap32 (numDigits + numExtraZeroes)
  let numCharacters := wrap32 (sum + numPrefix pre)
  let numPadding := max 0 (wrap32 (width - numCharacters))
  zeroes ++ [numDigits + numExtraZeroes, sum + numPrefix pre, width - numCharacters,
    numCharacters + numPadding]

/-- The operations of `OutputUnsignedInteger`. -/
def outputUnsignedIntegerResults (value : BitVec 64) (base : ℕ) (hbase : 1 < base)
    (firstLetter : UInt8) (pre : Option (List UInt8)) (padZero : Bool) (width precision : ℤ) :
    List ℤ :=
  let digitString := integerBuffer value base hbase firstLetter precision
  let numDigits : ℤ := digitString.length
  if padZero = true ∧ precision < 0 then outputDigitStringResults pre (-1) digitString width
  else
    let difference := wrap32 (precision - numDigits)
    let decrement := if pre = some ['0'.toUInt8] then [difference - 1] else []
    let numExtraZeroes :=
      max 0 (if pre = some ['0'.toUInt8] then wrap32 (difference - 1) else difference)
    [precision - numDigits] ++ decrement ++
      outputDigitStringResults pre numExtraZeroes digitString width

/-- The operations of `OutputSignedInteger`. -/
def outputSignedIntegerResults (value : BitVec 64) (positivePrefix : Option (List UInt8))
    (padZero : Bool) (width precision : ℤ) : List ℤ :=
  if 0 ≤ value.toInt then
    outputUnsignedIntegerResults value 10 one_lt_ten 0 positivePrefix padZero width precision
  else
    outputUnsignedIntegerResults (-value) 10 one_lt_ten 0 (some ['-'.toUInt8]) padZero width
      precision

section

variable {σ : Type} (P : Platform σ)

/-- The operations of `ParseSizes`. -/
def parseSizesResults (format : List UInt8) (args : σ) : List ℤ :=
  parseIntegerResults format ++
    match parseInteger P format args with
    | some (width, format, _) => ofWidthResults width ++
        (if format.head? = some '.'.toUInt8 then parseIntegerResults format.tail else [])
    | none => []

/-- The operations of `OutputFloatingPoint`. -/
def outputFloatingPointResults (value : BitVec 64) (positivePrefix : Option (List UInt8))
    (padZero forcePeriod upperCase : Bool) (width precision : ℤ) : List ℤ :=
  let absvalue := if value.msb = false then value else value ^^^ 0x8000000000000000#64
  let pre := if value.msb = false then positivePrefix else some ['-'.toUInt8]
  let precision := if precision < 0 then 6 else precision
  let precision := if 100 < precision then 100 else precision
  let numExtraZeroes := if padZero then -1 else 0
  let (buffer, kind) := convertFloatingPoint P absvalue precision forcePeriod upperCase
  let numExtraZeroes := if kind = .finite then numExtraZeroes else 0
  let pre := if kind = .nan then none else pre
  outputDigitStringResults pre numExtraZeroes buffer width

/-- The operations of a conversion. -/
def convertResults (c : UInt8) (flags : Flags) (sizes : Sizes) (modifier : ℤ) (args : σ) :
    List ℤ :=
  let padZero := sizes.padZero
  let width := sizes.width
  let precision := sizes.precision
  if c = 'd'.toUInt8 ∨ c = 'i'.toUInt8 then
    let value := (signedValue P modifier args).1
    outputSignedIntegerResults value flags.positivePrefix padZero width precision
  else if c = 'u'.toUInt8 then
    let value := (unsignedValue P modifier args).1
    outputUnsignedIntegerResults value 10 one_lt_ten 0 none padZero width precision
  else if c = 'o'.toUInt8 then
    let value := (unsignedValue P modifier args).1
    let pre := if flags.alternate = true ∧ (value ≠ 0 ∨ precision = 0) then some ['0'.toUInt8]
      else none
    outputUnsignedIntegerResults value 8 one_lt_eight 0 pre padZero width precision
  else if c = 'x'.toUInt8 then
    let value := (unsignedValue P modifier args).1
    let pre := if flags.alternate = true ∧ value ≠ 0 then some ['0'.toUInt8, 'x'.toUInt8] else none
    outputUnsignedIntegerResults value 16 one_lt_sixteen 'a'.toUInt8 pre padZero width precision
  else if c = 'X'.toUInt8 then
    let value := (unsignedValue P modifier args).1
    let pre := if flags.alternate = true ∧ value ≠ 0 then some ['0'.toUInt8, 'X'.toUInt8] else none
    outputUnsignedIntegerResults value 16 one_lt_sixteen 'A'.toUInt8 pre padZero width precision
  else if c = 'f'.toUInt8 ∨ c = 'F'.toUInt8 then
    let value := (P.vaDouble args).1
    outputFloatingPointResults P value flags.positivePrefix padZero flags.alternate
      (c = 'F'.toUInt8) width precision
  else []

/-- The operations of an iteration after a `%` that is not doubled, up to where the code
leaves the loop. -/
def directiveResults (s : FormatState σ) : List ℤ :=
  match parseFlags {} s.format with
  | some (true, flags, format) => parseSizesResults P format s.args ++
      match parseSizes P flags.padRight flags.padZero format s.args with
      | some (true, sizes, format, args) =>
        match parseLengthModifier format with
        | some (true, modifier, c :: _) => convertResults P c flags sizes modifier args
        | _ => []
      | _ => []
  | _ => []

/-- The operations of an iteration. -/
def stepResults (s : FormatState σ) : List ℤ :=
  match s.format with
  | [] => []
  | c :: format =>
    if c = '%'.toUInt8 ∧ format.head? ≠ some '%'.toUInt8 then directiveResults P { s with format }
    else []

/-- The operations of the loop of `FormatString`. -/
def loopResults (s : FormatState σ) : List ℤ :=
  stepResults P s ++
    match _ : formatStep P s with
    | some (true, s') => loopResults s'
    | _ => []
termination_by s.format.length
decreasing_by exact formatStep_consumes P ‹_›

/-- The operations of `FormatString`. -/
def formatResults (format : List UInt8) (args : σ) : List ℤ :=
  loopResults P { format, args, count := 0, output := [] }

end

/-! ### Widths and precisions in the format -/

/-- A string of digits is read without overflow exactly if its number is an `int`. -/
theorem parseDigitsResults_iff {n : ℕ} (hn : n < 2147483648) (ds : List (Fin 10))
    {tail : List UInt8} (htail : ∀ c, tail.head? = some c → isDigit c = false) :
    (∀ x ∈ parseDigitsResults n (ds.map digitByte ++ tail), InRange x) ↔
      ds.foldl (fun n d => 10 * n + d.val) n < 2147483648 := by
  induction ds generalizing n with
  | nil =>
    refine iff_of_true ?_ hn
    cases tail with
    | nil => exact fun x hx => by cases hx
    | cons c tail =>
      rw [List.map_nil, List.nil_append, parseDigitsResults, htail c rfl]
      exact fun x hx => by cases hx
  | cons d ds ih =>
    have hdigit : (((digitByte d).toNat : ℤ) - 48) = d.val := by
      rw [digitByte_toNat]
      omega
    have hd : d.val < 10 := d.isLt
    have hle := le_foldl_digits (10 * n + d.val) ds
    rw [List.map_cons, List.cons_append, parseDigitsResults, if_pos (isDigit_digitByte d),
      List.foldl_cons, hdigit, List.forall_mem_append, List.forall_mem_cons,
      List.forall_mem_singleton]
    by_cases hfits : 10 * n + d.val < 2147483648
    · have hproduct : wrap32 ((n : ℤ) * 10) = n * 10 := wrap32_of_range (by omega) (by omega)
      have hsum : wrap32 ((n : ℤ) * 10 + d.val) = ((10 * n + d.val : ℕ) : ℤ) := by
        rw [wrap32_of_range (by omega) (by omega)]
        omega
      rw [hproduct, hsum, ih hfits]
      exact and_iff_right ⟨⟨by omega, by omega⟩, by omega, by omega⟩
    · refine iff_of_false (fun h => ?_) (by omega)
      obtain ⟨⟨hproduct, hsum⟩, -⟩ := h
      rw [wrap32_of_range hproduct.1 hproduct.2] at hsum
      have hhigh := hsum.2
      omega

/-- A width or precision is read without overflow exactly if it is an `int`. -/
theorem parseIntegerResults_iff (s : Size) {tail : List UInt8}
    (htail : ∀ c, tail.head? = some c → s.absorbs c = false) :
    (∀ x ∈ parseIntegerResults (s.bytes ++ tail), InRange x) ↔ s.LiteralFits := by
  cases s with
  | omitted =>
    refine iff_of_true ?_ trivial
    cases tail with
    | nil => exact fun x hx => by cases hx
    | cons c tail =>
      have hc : isDigit c = false ∧ c ≠ '*'.toUInt8 := by
        simpa [Size.absorbs] using htail c rfl
      simp [Size.bytes, parseIntegerResults, hc.2, parseDigitsResults, hc.1]
  | star => exact iff_of_true (fun x hx => by cases hx) trivial
  | literal d ds =>
    have hiff := parseDigitsResults_iff (n := 0) (by decide) (d :: ds) htail
    rw [Size.bytes, List.cons_append, parseIntegerResults, if_neg (digitByte_ne_star d)]
    exact hiff

/-! ### The output of digits -/

/-- A prefix counts for two characters at most. -/
theorem numPrefix_le (pre : Option (List UInt8)) : numPrefix pre ≤ 2 := by
  rcases pre with _ | _ | ⟨a, _ | ⟨b, l⟩⟩ <;> simp [numPrefix]

/-- As many characters of a prefix are put out as are counted. -/
theorem length_take_numPrefix (pre : Option (List UInt8)) :
    ((pre.getD []).take (numPrefix pre)).length = numPrefix pre := by
  rcases pre with _ | _ | ⟨a, _ | ⟨b, l⟩⟩ <;> simp [numPrefix]

section

variable {pre : Option (List UInt8)} {numExtraZeroes width precision : ℤ} {D : List UInt8}

/-- The sum of the characters is an `int`. With zero padding it always is. -/
def SumFits (numDigits : ℕ) (pre : Option (List UInt8)) (numExtraZeroes : ℤ) : Prop :=
  numExtraZeroes < 0 ∨ numDigits + numExtraZeroes + numPrefix pre < 2147483648

/-- `OutputDigitString` does not overflow exactly if the sum of the characters is an `int`. -/
theorem outputDigitStringResults_iff (hwidth : 0 ≤ width) (hwidth' : width < 2147483648)
    (hD : D.length ≤ 1000) (hzeroes : numExtraZeroes < 2147483648) :
    (∀ x ∈ outputDigitStringResults pre numExtraZeroes D width, InRange x) ↔
      SumFits D.length pre numExtraZeroes := by
  have hprefix := numPrefix_le pre
  rw [outputDigitStringResults, SumFits]
  by_cases hneg : numExtraZeroes < 0
  · simp only [if_pos hneg, List.forall_mem_append, List.forall_mem_cons]
    refine iff_of_true ?_ (Or.inl hneg)
    unfold InRange wrap32
    refine ⟨⟨by omega, by omega, nofun⟩, by omega, by omega, by omega, by omega, nofun⟩
  · simp only [if_neg hneg, List.nil_append, List.forall_mem_cons]
    constructor
    · rintro ⟨hsum, hprefixed, -⟩
      rw [wrap32_of_range hsum.1 hsum.2] at hprefixed
      exact Or.inr hprefixed.2
    · intro hsum
      have hsum' := hsum.resolve_left hneg
      rw [wrap32_of_range (x := D.length + numExtraZeroes) (by omega) (by omega),
        wrap32_of_range (x := D.length + numExtraZeroes + numPrefix pre) (by omega) (by omega)]
      unfold InRange wrap32
      refine ⟨by omega, by omega, by omega, by omega, nofun⟩

/-- Without overflow it puts out its characters and fills the width. -/
theorem outputDigitString_length (hwidth : 0 ≤ width) (hwidth' : width < 2147483648)
    (hD : D.length ≤ 1000) (hfits : SumFits D.length pre numExtraZeroes) (padRight : Bool) :
    (outputDigitString pre numExtraZeroes D padRight width).chars.length =
      max width.toNat (D.length + numExtraZeroes.toNat + numPrefix pre) := by
  have hprefix := numPrefix_le pre
  have htake := length_take_numPrefix pre
  rw [SumFits] at hfits
  have hfill : wrap32 (wrap32 (width - D.length) - numPrefix pre) =
      width - D.length - numPrefix pre := by
    rw [wrap32_of_range (x := width - D.length) (by omega) (by omega),
      wrap32_of_range (by omega) (by omega)]
  obtain ⟨zeroes, hz⟩ : ∃ zeroes : ℤ, zeroes = if numExtraZeroes < 0 then
      max 0 (width - D.length - numPrefix pre) else numExtraZeroes := ⟨_, rfl⟩
  have hrange : 0 ≤ zeroes ∧ D.length + zeroes + numPrefix pre < 2147483648 := by
    rw [hz]
    split_ifs <;> omega
  -- zero padding does not make the field longer than the width
  have hlength : max width.toNat (D.length + numExtraZeroes.toNat + numPrefix pre) =
      max width.toNat (D.length + zeroes.toNat + numPrefix pre) := by
    rw [hz]
    split_ifs <;> omega
  have hsum : wrap32 (wrap32 (D.length + zeroes) + numPrefix pre) =
      D.length + zeroes + numPrefix pre := by
    rw [wrap32_of_range (x := D.length + zeroes) (by omega) (by omega),
      wrap32_of_range (by omega) (by omega)]
  have hspaces : wrap32 (width - (D.length + zeroes + numPrefix pre)) =
      width - (D.length + zeroes + numPrefix pre) := wrap32_of_range (by omega) (by omega)
  rw [outputDigitString, hlength]
  dsimp only
  rw [hfill, ← hz, hsum, hspaces]
  clear hz hfill hsum hspaces hlength hfits
  cases padRight with
  | true =>
    simp only [List.length_append, htake, repeatChar, List.length_replicate, if_true,
      List.length_nil]
    omega
  | false =>
    simp only [List.length_append, htake, repeatChar, List.length_replicate, Bool.false_eq_true,
      if_false, List.length_nil]
    omega

/-- The zero that counts both as the octal prefix and as a digit. -/
def octalZero (pre : Option (List UInt8)) : ℤ := if pre = some ['0'.toUInt8] then 1 else 0

/-- The precision leaves room for the digits and the prefix. Zero padding does without it. -/
def PrecisionFits (numDigits : ℕ) (pre : Option (List UInt8)) (padZero : Bool) (precision : ℤ) :
    Prop :=
  (padZero = true ∧ precision < 0) ∨
    (-2147483648 ≤ precision - numDigits - octalZero pre ∧
      max (numDigits : ℤ) (precision - octalZero pre) + numPrefix pre < 2147483648)

variable {value : BitVec 64} {base : ℕ} {hbase : 1 < base} {firstLetter : UInt8} {padZero : Bool}

/-- The difference of the precision and the digits, with its decrement. -/
theorem precision_sub_iff (hprecision : precision < 2147483648) (numDigits : ℕ) :
    (∀ x ∈ [precision - numDigits] ++ (if pre = some ['0'.toUInt8] then
        [wrap32 (precision - numDigits) - 1] else []), InRange x) ↔
      -2147483648 ≤ precision - numDigits - octalZero pre := by
  rw [List.forall_mem_append, List.forall_mem_singleton, octalZero]
  split_ifs with hoctal
  · rw [List.forall_mem_singleton]
    constructor
    · rintro ⟨hdifference, hdecrement⟩
      rw [wrap32_of_range hdifference.1 hdifference.2] at hdecrement
      exact hdecrement.1
    · intro hlow
      rw [wrap32_of_range (by omega) (by omega)]
      exact ⟨⟨by omega, by omega⟩, by omega, by omega⟩
  · constructor
    · rintro ⟨hdifference, -⟩
      exact (Int.sub_zero _).symm ▸ hdifference.1
    · intro hlow
      exact ⟨⟨by omega, by omega⟩, fun x hx => by cases hx⟩

/-- The extra zeros that a precision asks for. -/
theorem numExtraZeroes_eq (hprecision : precision < 2147483648) {numDigits : ℕ}
    (hlow : -2147483648 ≤ precision - numDigits - octalZero pre) :
    (if pre = some ['0'.toUInt8] then wrap32 (wrap32 (precision - numDigits) - 1)
      else wrap32 (precision - numDigits)) = precision - numDigits - octalZero pre := by
  rw [octalZero] at hlow ⊢
  split_ifs at hlow ⊢ with hoctal
  · rw [wrap32_of_range (x := precision - numDigits) (by omega) (by omega),
      wrap32_of_range (by omega) (by omega)]
  · rw [wrap32_of_range (by omega) (by omega), Int.sub_zero]

/-- The digits of a 64-bit value are few. -/
theorem length_integerBuffer_le {capital : Bool}
    (hchar : ∀ d < base, digitChar firstLetter d = c99Digit capital d) :
    (integerBuffer value base hbase firstLetter precision).length ≤ 64 := by
  rw [integerBuffer_length_le_iff hbase hchar value precision (by decide)]
  exact lt_of_lt_of_le value.isLt (Nat.pow_le_pow_left hbase 64)

/-- `OutputUnsignedInteger` does not overflow exactly if the precision leaves room for the
digits and the prefix. -/
theorem outputUnsignedIntegerResults_iff
    (hD : D = integerBuffer value base hbase firstLetter precision) (hlength : D.length ≤ 64)
    (hwidth : 0 ≤ width) (hwidth' : width < 2147483648) (hprecision : precision < 2147483648) :
    (∀ x ∈ outputUnsignedIntegerResults value base hbase firstLetter pre padZero width precision,
      InRange x) ↔ PrecisionFits D.length pre padZero precision := by
  rw [outputUnsignedIntegerResults, PrecisionFits, ← hD]
  by_cases hfill : padZero = true ∧ precision < 0
  · rw [if_pos hfill, outputDigitStringResults_iff hwidth hwidth' (by omega) (by omega)]
    exact iff_of_true (Or.inl (by decide)) (Or.inl hfill)
  · rw [if_neg hfill, List.forall_mem_append, precision_sub_iff hprecision, or_iff_right hfill]
    refine and_congr_right fun hlow => ?_
    have hoctal : 0 ≤ octalZero pre := by
      unfold octalZero
      split_ifs <;> decide
    rw [numExtraZeroes_eq hprecision hlow,
      outputDigitStringResults_iff hwidth hwidth' (by omega) (by omega), SumFits]
    omega

/-- Without overflow it puts out its digits, with as many as the precision asks for, and its
prefix in a field. -/
theorem outputUnsignedInteger_length
    (hD : D = integerBuffer value base hbase firstLetter precision) (hlength : D.length ≤ 64)
    (hwidth : 0 ≤ width) (hwidth' : width < 2147483648) (hprecision : precision < 2147483648)
    (hfits : PrecisionFits D.length pre padZero precision) (padRight : Bool) :
    (outputUnsignedInteger value base hbase firstLetter pre padRight padZero width
        precision).chars.length =
      max width.toNat (max D.length (precision - octalZero pre).toNat + numPrefix pre) := by
  have hoctal : 0 ≤ octalZero pre := by
    unfold octalZero
    split_ifs <;> decide
  rw [outputUnsignedInteger, ← integerBuffer, ← hD]
  rw [PrecisionFits] at hfits
  by_cases hfill : padZero = true ∧ precision < 0
  · rw [if_pos hfill, outputDigitString_length hwidth hwidth' (by omega) (Or.inl (by decide))]
    omega
  · have hroom := hfits.resolve_left hfill
    rw [if_neg hfill, numExtraZeroes_eq hprecision hroom.1,
      outputDigitString_length hwidth hwidth' (by omega) (Or.inr (by omega))]
    omega

end

end WifiMcu.Format
