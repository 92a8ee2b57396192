import WifiMcu.Format.Operations

/-!
# Overflow in the arithmetic on widths and precisions

A run of `FormatString` does not overflow exactly if the widths and precisions of its format
are `int`s and leave room for what is added to them. Then an integer directive puts out as
many characters as its width, its precision or its digits ask for.
-/

namespace WifiMcu.Format

open Word

/-! ### Exact sizes and values -/

/-- The number of digits that are stored for a magnitude. -/
def storedDigits (base : ℕ) (precision : ℤ) (magnitude : ℕ) : ℕ :=
  if magnitude = 0 then (if precision ≠ 0 then 1 else 0) else (Nat.digits base magnitude).length

/-- The number of digits of a magnitude. -/
def digitCount (base magnitude : ℕ) : ℕ := max 1 (Nat.digits base magnitude).length

/-- No more digits are stored than there are. -/
theorem storedDigits_le (base : ℕ) (precision : ℤ) (magnitude : ℕ) :
    storedDigits base precision magnitude ≤ digitCount base magnitude := by
  unfold storedDigits digitCount
  split_ifs <;> omega

/-- The length of the sign or the prefix in front of a value. -/
def leadLength (c : IntegerConversion) (flags : List Flag) (precision value : ℤ) : ℕ :=
  match c with
  | .d | .i => (c99Sign flags value).length
  | .u => 0
  | .o => if .alternate ∈ flags ∧ (value ≠ 0 ∨ precision = 0) then 1 else 0
  | .x | .X => if .alternate ∈ flags ∧ value ≠ 0 then 2 else 0

/-- An integer conversion has room: it fills the width with zeros, or the precision, less the
digits and the octal prefix, is an `int`, and so is the number of the characters. -/
def ConversionFits (c : IntegerConversion) (flags : List Flag) (width precision value : ℤ) :
    Prop :=
  let digits : ℤ := storedDigits c.base precision value.natAbs
  let lead : ℤ := leadLength c flags precision value
  let counted := if c = .o then lead else 0
  (.zeroPad ∈ flags ∧ .leftJustify ∉ flags ∧ ¬ width < 0 ∧ precision < 0) ∨
    (-2147483648 ≤ precision - digits - counted ∧
      max digits (precision - counted) + lead < 2147483648)

section

variable {σ : Type} (P : Platform σ)

/-- The width of a specification, its precision, and the arguments left over. -/
def Spec.exactSizes (s : Spec) (args : σ) : ℤ × ℤ × σ :=
  let width := c99Size P args s.width
  let precision := s.precision.map (c99Size P width.2)
  (width.1, (precision.map Prod.fst).getD (-1), precision.elim width.2 Prod.snd)

/-- The sizes of a specification are `int`s, and the width can be negated. -/
structure Spec.SizesFit (s : Spec) (args : σ) : Prop where
  width : s.width.LiteralFits
  width_ne : (s.exactSizes P args).1 ≠ -2147483648
  precision : ∀ p ∈ s.precision, p.LiteralFits

/-- A directive has room. -/
structure Directive.Fits (d : Directive) (args : σ) : Prop where
  sizes : d.spec.SizesFit P args
  conversion : ∀ c : IntegerConversion, d.conversion = c.byte →
    ConversionFits c d.spec.flags (d.spec.exactSizes P args).1 (d.spec.exactSizes P args).2.1
      (c99Value P c.signed d.spec.modifier (d.spec.exactSizes P args).2.2)

/-- Every directive of a sequence of pieces has room. -/
def PiecesFit (ps : List Piece) (args : σ) : Prop :=
  ∀ before d after, ps = before ++ .directive d :: after →
    d.Fits P (runPieces P before args).args

/-- Every directive of a format has room, and so have the sizes of the one that is cut off. -/
def Split.Fits (s : Split) (args : σ) : Prop :=
  PiecesFit P s.pieces args ∧
    ∀ spec ∈ s.truncated, spec.SizesFit P (runPieces P s.pieces args).args

/-- The arithmetic of a run is safe: no operation overflows, and an integer directive puts out
no more characters than its width, its precision and its digits ask for. -/
structure ArithmeticSafe (format memory : List UInt8) (args : σ) : Prop where
  results : ∀ x ∈ formatResults P memory args, InRange x
  lengths : ∀ s : Split, s.bytes = format → ∀ before d after,
    s.pieces = before ++ .directive d :: after → ∀ c : IntegerConversion, d.conversion = c.byte →
      let args := (runPieces P before args).args
      let sizes := d.spec.exactSizes P args
      let value := c99Value P c.signed d.spec.modifier sizes.2.2
      let bound : ℤ := max (max sizes.2.1 0 + 2) (digitCount c.base value.natAbs + 2)
      ((d.run P args).chars.length : ℤ) ≤ max |sizes.1| bound

/-! ### Integer conversions -/

/-- The sign or prefix that a directive passes to `OutputUnsignedInteger`. -/
def passedPrefix (c : IntegerConversion) (flags : Flags) (modifier precision : ℤ) (args : σ) :
    Option (List UInt8) :=
  if c.signed then
    if 0 ≤ (signedValue P modifier args).1.toInt then flags.positivePrefix else some ['-'.toUInt8]
  else c.alternatePrefix flags.alternate precision (unsignedValue P modifier args).1

/-- The operations of an integer conversion are those of `OutputUnsignedInteger`. -/
theorem convertResults_integer (c : IntegerConversion) (flags : Flags) (sizes : Sizes)
    (modifier : ℤ) (args : σ) :
    convertResults P c.byte flags sizes modifier args =
      outputUnsignedIntegerResults (passedValue P c modifier args) c.base c.one_lt_base
        c.firstLetter (passedPrefix P c flags modifier sizes.precision args) sizes.padZero
        sizes.width sizes.precision := by
  cases c with
  | d | i =>
    show outputSignedIntegerResults .. = _
    simp only [outputSignedIntegerResults, passedValue, passedPrefix, IntegerConversion.signed,
      if_true]
    split_ifs <;> rfl
  | u | o | x | X => rfl

/-- The output of an integer conversion is that of `OutputUnsignedInteger`. -/
theorem convert_integer_chars (c : IntegerConversion) (flags : Flags) (sizes : Sizes)
    (m : Modifier) (args : σ) :
    (convert P c.byte flags sizes m.code args).chars =
      (outputUnsignedInteger (passedValue P c m.code args) c.base c.one_lt_base c.firstLetter
        (passedPrefix P c flags m.code sizes.precision args) sizes.padRight sizes.padZero
        sizes.width sizes.precision).chars := by
  cases hc : c.signed with
  | true =>
    rw [convert_signed P hc, outputSignedInteger, passedValue, passedPrefix, if_pos hc, if_pos hc]
    cases c with
    | d | i => split_ifs <;> rfl
    | u | o | x | X => cases hc
  | false =>
    have hunsigned : ¬ c.signed = true := by rw [hc]; exact Bool.false_ne_true
    rw [convert_unsigned P hc, passedValue, passedPrefix, if_neg hunsigned, if_neg hunsigned]

/-- The value that is passed on is the magnitude of the value of the directive. -/
theorem passedValue_toNat (c : IntegerConversion) (m : Modifier) (args : σ) :
    (passedValue P c m.code args).toNat = (c99Value P c.signed m args).natAbs := by
  rw [passedValue]
  cases hc : c.signed with
  | true =>
    rw [if_pos rfl, ← signedValue_toInt]
    generalize (signedValue P m.code args).1 = value
    have hlt := value.isLt
    split_ifs with hsign
    · rw [BitVec.toInt_eq_toNat_cond] at hsign ⊢
      split_ifs at hsign ⊢ <;> omega
    · rw [BitVec.toInt_eq_toNat_cond] at hsign ⊢
      rw [BitVec.toNat_neg]
      split_ifs at hsign ⊢ <;> omega
  | false =>
    rw [if_neg Bool.false_ne_true, ← unsignedValue_toNat, Int.natAbs_natCast]

/-- The digits that are stored for it. -/
theorem length_directiveBuffer (c : IntegerConversion) (m : Modifier) (precision : ℤ) (args : σ) :
    (directiveBuffer P c m.code precision args).length =
      storedDigits c.base precision (c99Value P c.signed m args).natAbs := by
  rw [directiveBuffer, integerBuffer, storedDigits, ← passedValue_toNat]
  have hzero : passedValue P c m.code args = 0 ↔ (passedValue P c m.code args).toNat = 0 := by
    simp [BitVec.toNat_eq]
  by_cases hvalue : passedValue P c m.code args = 0
  · rw [if_pos hvalue, if_pos (hzero.mp hvalue)]
    split_ifs <;> rfl
  · rw [if_neg hvalue, if_neg (mt hzero.mpr hvalue), digitLoop_eq c.one_lt_base c.digitChar_eq,
      List.append_nil, numeral, List.length_reverse, List.length_map]

/-- The sign or the prefix that is counted for it. -/
theorem passedPrefix_spec (c : IntegerConversion) (flags : List Flag) (m : Modifier)
    (precision : ℤ) (args : σ) :
    numPrefix (passedPrefix P c (flagsOf flags) m.code precision args) =
        leadLength c flags precision (c99Value P c.signed m args) ∧
      octalZero (passedPrefix P c (flagsOf flags) m.code precision args) =
        if c = .o then (leadLength c flags precision (c99Value P c.signed m args) : ℤ) else 0 := by
  rw [passedPrefix]
  cases hc : c.signed with
  | true =>
    rw [if_pos rfl, ← signedValue_toInt, flagsOf_eq]
    have hlead (value : ℤ) : leadLength c flags precision value = (c99Sign flags value).length := by
      cases c with
      | d | i => rfl
      | u | o | x | X => cases hc
    have hne : c ≠ .o := by
      rintro rfl
      cases hc
    rw [hlead, if_neg hne, c99Sign]
    generalize (signedValue P m.code args).1.toInt = value
    by_cases hsign : 0 ≤ value
    · have hneg : ¬ value < 0 := by omega
      rw [if_pos hsign, if_neg hneg]
      dsimp only
      split_ifs <;> exact ⟨rfl, rfl⟩
    · have hneg : value < 0 := by omega
      rw [if_neg hsign, if_pos hneg]
      exact ⟨rfl, rfl⟩
  | false =>
    have hzero : (((unsignedValue P m.code args).1.toNat : ℤ) ≠ 0) ↔
        (unsignedValue P m.code args).1 ≠ 0 := by simp [BitVec.toNat_eq]
    rw [if_neg Bool.false_ne_true, ← unsignedValue_toNat, flagsOf_eq]
    generalize (unsignedValue P m.code args).1 = value at hzero ⊢
    cases c with
    | d | i => cases hc
    | u => exact ⟨rfl, rfl⟩
    | o | x | X =>
      simp only [IntegerConversion.alternatePrefix, leadLength, hzero, decide_eq_true_eq,
        reduceCtorEq, if_false, if_true]
      split_ifs <;> exact ⟨rfl, rfl⟩

/-- The sizes of a specification that fits, as the code reads them. -/
def Spec.fittingSizes (s : Spec) (args : σ) : Sizes :=
  let width := (s.exactSizes P args).1
  { width := |width|
    precision := (s.exactSizes P args).2.1
    padRight := decide (.leftJustify ∈ s.flags ∨ width < 0)
    padZero := decide (.zeroPad ∈ s.flags ∧ .leftJustify ∉ s.flags ∧ ¬ width < 0) }

variable {P} {s : Spec} {args : σ}

/-- The code reads the sizes exactly if they fit. -/
theorem Spec.SizesFit.readSizes (h : s.SizesFit P args) :
    s.readSizes P (flagsOf s.flags) args = (s.fittingSizes P args, (s.exactSizes P args).2.2) :=
  readSizes_eq P h.width h.width_ne h.precision

/-- The width is an `int` that is not negative, and the precision is an `int`. -/
theorem Spec.SizesFit.range (h : s.SizesFit P args) :
    0 ≤ (s.fittingSizes P args).width ∧ (s.fittingSizes P args).width < 2147483648 ∧
      (s.fittingSizes P args).precision < 2147483648 := by
  have hwidth := c99Size_int P h.width args
  have hne : (c99Size P args s.width).1 ≠ -2147483648 := h.width_ne
  refine ⟨abs_nonneg _, abs_lt.mpr ⟨?_, hwidth.2⟩, ?_⟩
  · show -2147483648 < (c99Size P args s.width).1
    omega
  · show ((s.precision.map (c99Size P (c99Size P args s.width).2)).map Prod.fst).getD (-1) < _
    cases hp : s.precision with
    | none => exact (by decide : (-1 : ℤ) < 2147483648)
    | some p => exact (c99Size_int P (h.precision p hp) _).2

/-- An integer conversion does not overflow exactly if it has room. -/
theorem convertResults_integer_iff (h : s.SizesFit P args) (c : IntegerConversion) (m : Modifier)
    (rest : σ) :
    (∀ x ∈ convertResults P c.byte (flagsOf s.flags) (s.fittingSizes P args) m.code rest,
      InRange x) ↔
      PrecisionFits (directiveBuffer P c m.code (s.fittingSizes P args).precision rest).length
        (passedPrefix P c (flagsOf s.flags) m.code (s.fittingSizes P args).precision rest)
        (s.fittingSizes P args).padZero (s.fittingSizes P args).precision := by
  obtain ⟨hwidth, hwidth', hprecision⟩ := h.range
  rw [convertResults_integer]
  exact outputUnsignedIntegerResults_iff rfl (length_integerBuffer_le c.digitChar_eq) hwidth
    hwidth' hprecision

/-- The room in the terms of the format and the arguments. -/
theorem precisionFits_iff (s : Spec) (args : σ) (c : IntegerConversion) (m : Modifier) (rest : σ) :
    PrecisionFits (directiveBuffer P c m.code (s.fittingSizes P args).precision rest).length
        (passedPrefix P c (flagsOf s.flags) m.code (s.fittingSizes P args).precision rest)
        (s.fittingSizes P args).padZero (s.fittingSizes P args).precision ↔
      ConversionFits c s.flags (s.exactSizes P args).1 (s.exactSizes P args).2.1
        (c99Value P c.signed m rest) := by
  obtain ⟨hlead, hoctal⟩ :=
    passedPrefix_spec P c s.flags m (s.fittingSizes P args).precision rest
  rw [PrecisionFits, ConversionFits, length_directiveBuffer, hlead, hoctal]
  have hzero : (s.fittingSizes P args).padZero = true ↔
      .zeroPad ∈ s.flags ∧ .leftJustify ∉ s.flags ∧ ¬ (s.exactSizes P args).1 < 0 :=
    decide_eq_true_iff
  rw [hzero, and_assoc, and_assoc]
  rfl

/-- **Length.** An integer directive that has room puts out as many characters as its width, its
precision or its digits ask for. -/
theorem Directive.Fits.length_le {d : Directive} (h : d.Fits P args) {c : IntegerConversion}
    (hc : d.conversion = c.byte) :
    let sizes := d.spec.exactSizes P args
    let value := c99Value P c.signed d.spec.modifier sizes.2.2
    let bound : ℤ := max (max sizes.2.1 0 + 2) (digitCount c.base value.natAbs + 2)
    ((d.run P args).chars.length : ℤ) ≤ max |sizes.1| bound := by
  intro sizes value bound
  obtain ⟨hwidth, hwidth', hprecision⟩ := h.sizes.range
  have hfits := (precisionFits_iff d.spec args c d.spec.modifier sizes.2.2).mpr
    (h.conversion c hc)
  rw [Directive.run, h.sizes.readSizes, hc, convert_integer_chars,
    outputUnsignedInteger_length rfl (length_integerBuffer_le c.digitChar_eq) hwidth hwidth'
      hprecision hfits]
  have hdigits : (directiveBuffer P c d.spec.modifier.code (d.spec.fittingSizes P args).precision
      sizes.2.2).length ≤ digitCount c.base value.natAbs := by
    rw [length_directiveBuffer]
    exact storedDigits_le c.base sizes.2.1 value.natAbs
  have hlead := numPrefix_le (passedPrefix P c (flagsOf d.spec.flags) d.spec.modifier.code
    (d.spec.fittingSizes P args).precision sizes.2.2)
  have hoctal : 0 ≤ octalZero (passedPrefix P c (flagsOf d.spec.flags) d.spec.modifier.code
      (d.spec.fittingSizes P args).precision sizes.2.2) := by
    unfold octalZero
    split_ifs <;> decide
  have hexact : (d.spec.fittingSizes P args).width = |sizes.1| ∧
      (d.spec.fittingSizes P args).precision = sizes.2.1 := ⟨rfl, rfl⟩
  rw [directiveBuffer] at hdigits
  omega

/-! ### The other conversions -/

/-- The decimal exponents are those of doubles. -/
def ExponentsBounded (P : Platform σ) : Prop := ∀ x, (P.normalize x).1 ≤ 309

/-- The text of a floating point number is short. -/
theorem length_convertFloatingPoint_le (hexponents : ExponentsBounded P) (value : BitVec 64)
    {precision : ℤ} (hprecision : precision ≤ 100) (forcePeriod upperCase : Bool) :
    (convertFloatingPoint P value precision forcePeriod upperCase).1.length ≤ 1000 := by
  have hexp10 := hexponents (P.addHalfUnit value precision)
  rw [convertFloatingPoint]
  generalize P.normalize (P.addHalfUnit value precision) = normalized at hexp10 ⊢
  obtain ⟨exp10, scaled⟩ := normalized
  by_cases hspecial : exponent2 (P.addHalfUnit value precision) = 0x400
  · simp only [if_pos hspecial]
    split_ifs <;> simp
  · simp only [if_neg hspecial, length_fixedPointDigits]
    dsimp only at hexp10
    split_ifs <;> omega

/-- A floating point conversion does not overflow. -/
theorem outputFloatingPointResults_inRange (hexponents : ExponentsBounded P) {width : ℤ}
    (hwidth : 0 ≤ width) (hwidth' : width < 2147483648) (value : BitVec 64)
    (positivePrefix : Option (List UInt8)) (padZero forcePeriod upperCase : Bool)
    (precision : ℤ) :
    ∀ x ∈ outputFloatingPointResults P value positivePrefix padZero forcePeriod upperCase width
      precision, InRange x := by
  have hlength := length_convertFloatingPoint_le hexponents (absoluteValue value)
    (clampedPrecision_range precision).2 forcePeriod upperCase
  rw [absoluteValue, clampedPrecision] at hlength
  rw [outputFloatingPointResults]
  dsimp only at hlength ⊢
  generalize convertFloatingPoint P _ _ forcePeriod upperCase = converted at hlength ⊢
  have hzeroes : (if converted.2 = .finite then (if padZero then -1 else 0) else (0 : ℤ)) ≤ 0 := by
    split_ifs <;> decide
  have hprefix (pre : Option (List UInt8)) := numPrefix_le pre
  refine (outputDigitStringResults_iff hwidth hwidth' hlength (by omega)).mpr (Or.inr ?_)
  have hpre := hprefix (if converted.2 = .nan then none
    else if value.msb = false then positivePrefix else some ['-'.toUInt8])
  omega

/-- Two integer conversions have different characters. -/
theorem IntegerConversion.byte_injective {c c' : IntegerConversion} (h : c.byte = c'.byte) :
    c = c' := by
  revert h
  cases c <;> cases c' <;> decide

/-- A conversion does not overflow exactly if it has room, if it is one of an integer. -/
theorem convertResults_iff (hexponents : ExponentsBounded P) (h : s.SizesFit P args) (b : UInt8)
    (m : Modifier) (rest : σ) :
    (∀ x ∈ convertResults P b (flagsOf s.flags) (s.fittingSizes P args) m.code rest, InRange x) ↔
      ∀ c : IntegerConversion, b = c.byte →
        ConversionFits c s.flags (s.exactSizes P args).1 (s.exactSizes P args).2.1
          (c99Value P c.signed m rest) := by
  by_cases hinteger : ∃ c : IntegerConversion, b = c.byte
  · obtain ⟨c, rfl⟩ := hinteger
    rw [convertResults_integer_iff h, precisionFits_iff]
    constructor
    · intro hfits c' hc'
      rwa [← IntegerConversion.byte_injective hc']
    · exact fun hfits => hfits c rfl
  · refine iff_of_true ?_ fun c hc => absurd ⟨c, hc⟩ hinteger
    obtain ⟨hwidth, hwidth', -⟩ := h.range
    have hother (c : IntegerConversion) : ¬ b = c.byte := fun hb => hinteger ⟨c, hb⟩
    have hsigned : ¬ (b = 'd'.toUInt8 ∨ b = 'i'.toUInt8) := not_or.mpr ⟨hother .d, hother .i⟩
    have hu : ¬ b = 'u'.toUInt8 := hother .u
    have ho : ¬ b = 'o'.toUInt8 := hother .o
    have hx : ¬ b = 'x'.toUInt8 := hother .x
    have hX : ¬ b = 'X'.toUInt8 := hother .X
    simp only [convertResults, if_neg hsigned, if_neg hu, if_neg ho, if_neg hx, if_neg hX]
    split_ifs
    · exact outputFloatingPointResults_inRange hexponents hwidth hwidth' _ _ _ _ _ _
    · exact fun x hx => by cases hx

/-! ### One directive -/

/-- The precision is read without overflow exactly if its digits denote an `int`. -/
theorem parsePrecisionResults_iff {tail : List UInt8}
    (htail : ∀ c, tail.head? = some c → s.sizesAbsorb c = false) :
    (∀ x ∈ (if (precisionBytes s.precision ++ tail).head? = some '.'.toUInt8 then
      parseIntegerResults (precisionBytes s.precision ++ tail).tail else []), InRange x) ↔
        ∀ p ∈ s.precision, p.LiteralFits := by
  cases hp : s.precision with
  | none =>
    refine iff_of_true ?_ fun p hp => by cases hp
    split_ifs with hdot
    · exact absurd rfl ((Spec.precision_stops (htail _ hdot)).2 hp)
    · exact fun x hx => by cases hx
  | some p =>
    have habsorbs : ∀ c, tail.head? = some c → p.absorbs c = false := fun c hc =>
      (Spec.precision_stops (htail c hc)).1 p hp
    rw [precisionBytes, List.cons_append, List.head?_cons, if_pos rfl, List.tail_cons,
      parseIntegerResults_iff p habsorbs]
    exact ⟨fun h q hq => Option.some.inj hq ▸ h, fun h => h p rfl⟩

/-- The sizes are read without overflow exactly if they fit. -/
theorem parseSizesResults_iff {tail : List UInt8}
    (htail : ∀ c, tail.head? = some c → s.sizesAbsorb c = false) (hne : tail ≠ []) :
    (∀ x ∈ parseSizesResults P (s.width.bytes ++ (precisionBytes s.precision ++ tail)) args,
      InRange x) ↔ s.SizesFit P args := by
  have hne' : precisionBytes s.precision ++ tail ≠ [] :=
    List.append_ne_nil_of_right_ne_nil _ hne
  rw [parseSizesResults, List.forall_mem_append,
    parseIntegerResults_iff s.width (Spec.width_stops htail),
    parseInteger_append P s.width args _ (Spec.width_stops htail) hne']
  dsimp only
  rw [List.forall_mem_append, parsePrecisionResults_iff htail]
  constructor
  · rintro ⟨hfits, hnegated, hliteral⟩
    refine ⟨hfits, fun hmin => ?_, hliteral⟩
    have hread : (s.width.read P args).1 = -2147483648 := by
      rw [read_eq_c99Size P hfits]
      exact hmin
    rw [hread] at hnegated
    exact absurd (hnegated 2147483648 (by decide)).2 (by decide)
  · rintro ⟨hfits, hne, hliteral⟩
    refine ⟨hfits, ?_, hliteral⟩
    have hrange := c99Size_int P hfits args
    have hmin : (c99Size P args s.width).1 ≠ -2147483648 := hne
    rw [read_eq_c99Size P hfits, ofWidthResults]
    split_ifs with hneg
    · rw [List.forall_mem_singleton]
      exact ⟨by omega, by omega⟩
    · exact fun x hx => by cases hx

/-- A directive, or one that is cut off, is read without overflow exactly if its sizes fit and,
if it is complete, its conversion does not overflow. -/
theorem directiveResults_iff {b : UInt8} (hb : s.absorbs b = false) (state : FormatState σ)
    {rest : List UInt8} (hformat : state.format = s.bytes ++ b :: rest) :
    (∀ x ∈ directiveResults P state, InRange x) ↔
      s.SizesFit P state.args ∧
        (b ≠ 0 → ∀ x ∈ convertResults P b (flagsOf s.flags)
          (s.readSizes P (flagsOf s.flags) state.args).1 s.modifier.code
          (s.readSizes P (flagsOf s.flags) state.args).2, InRange x) := by
  obtain ⟨more, hflags, hmore⟩ := parseFlags_spec s rest hb
  obtain ⟨more', hsizes, hmore'⟩ :=
    parseSizes_spec P s rest hb (flagsOf s.flags) state.args
  have hmodifier := parseLengthModifier_spec s rest hb
  have hresults := @parseSizesResults_iff _ P s state.args (s.modifier.bytes ++ b :: rest)
    (s.sizesAbsorb_head (Spec.stops_cons rest hb)) (by simp)
  rw [directiveResults, hformat, hflags]
  cases more with
  | false =>
    obtain ⟨rfl, hwidth, hprecision, -⟩ := hmore rfl
    refine iff_of_true (fun x hx => by cases hx) ⟨⟨?_, ?_, ?_⟩, fun h => absurd rfl h⟩
    · rw [hwidth]
      trivial
    · rw [Spec.exactSizes, hwidth]
      exact (by decide : (0 : ℤ) ≠ -2147483648)
    · rw [hprecision]
      exact nofun
  | true =>
    dsimp only
    rw [List.forall_mem_append, hresults, hsizes]
    cases more' with
    | false =>
      obtain ⟨rfl, -⟩ := hmore' rfl
      exact and_congr_right fun _ => iff_of_true (fun x hx => by cases hx) fun h => absurd rfl h
    | true =>
      dsimp only
      rw [hmodifier]
      by_cases hend : b = 0
      · subst hend
        exact and_congr_right fun _ => iff_of_true (fun x hx => by cases hx) fun h => absurd rfl h
      · rw [decide_eq_true hend]
        exact and_congr_right fun _ => ⟨fun h _ => h, fun h => h hend⟩

/-- A complete directive does not overflow exactly if it has room. -/
theorem directiveResults_directive (hexponents : ExponentsBounded P) (d : Directive)
    (state : FormatState σ) {rest : List UInt8}
    (hformat : state.format = d.spec.bytes ++ d.conversion :: rest) :
    (∀ x ∈ directiveResults P state, InRange x) ↔ d.Fits P state.args := by
  rw [directiveResults_iff d.not_absorbed state hformat]
  constructor
  · rintro ⟨hsizes, hresults⟩
    have hconversion := hresults d.conversion_ne_nul
    rw [hsizes.readSizes] at hconversion
    exact ⟨hsizes, (convertResults_iff hexponents hsizes _ _ _).mp hconversion⟩
  · rintro ⟨hsizes, hconversion⟩
    refine ⟨hsizes, fun _ => ?_⟩
    rw [hsizes.readSizes]
    exact (convertResults_iff hexponents hsizes _ _ _).mpr hconversion

/-! ### A run -/

/-- The operations of an iteration are those of its directive. -/
theorem stepResults_of_percent {format : List UInt8} (hhead : format.head? ≠ some '%'.toUInt8)
    (state : FormatState σ) (hformat : state.format = '%'.toUInt8 :: format) :
    stepResults P state = directiveResults P { state with format } := by
  rw [stepResults, hformat]
  exact if_pos ⟨rfl, hhead⟩

/-- **Step lemma.** An iteration does not overflow exactly if its piece has room, if it is a
directive. -/
theorem stepResults_piece (hexponents : ExponentsBounded P) (p : Piece) (rest : List UInt8)
    (state : FormatState σ) (hformat : state.format = p.bytes ++ rest) :
    (∀ x ∈ stepResults P state, InRange x) ↔ ∀ d, p = .directive d → d.Fits P state.args := by
  cases p with
  | literal c hnul hne =>
    refine iff_of_true ?_ fun d hd => by cases hd
    rw [stepResults, hformat]
    simp [Piece.bytes, hne]
  | percent =>
    refine iff_of_true ?_ fun d hd => by cases hd
    rw [stepResults, hformat]
    simp [Piece.bytes]
  | directive d =>
    have hbytes : state.format = '%'.toUInt8 :: (d.spec.bytes ++ d.conversion :: rest) := by
      simp [hformat, Piece.bytes, Directive.tail]
    rw [stepResults_of_percent (d.head_tail_ne_percent rest) state hbytes,
      directiveResults_directive hexponents d _ rfl]
    exact ⟨fun h d' hd => Piece.directive.inj hd ▸ h, fun h => h d rfl⟩

/-- The first piece has room, and so have the others after it. -/
theorem piecesFit_cons {p : Piece} {ps : List Piece} :
    PiecesFit P (p :: ps) args ↔
      (∀ d, p = .directive d → d.Fits P args) ∧ PiecesFit P ps (p.run P args).args := by
  constructor
  · intro h
    refine ⟨fun d hd => h [] d ps (by rw [hd, List.nil_append]), fun before d after heq => ?_⟩
    exact h (p :: before) d after (by rw [heq, List.cons_append])
  · rintro ⟨hfirst, hothers⟩ before d after heq
    rcases before with _ | ⟨q, before⟩
    · exact hfirst d (List.cons.inj heq).1
    · obtain ⟨rfl, hrest⟩ := List.cons.inj heq
      exact hothers before d after hrest

/-- The loop over complete pieces, whatever follows them. -/
theorem loopResults_pieces (hexponents : ExponentsBounded P) (ps : List Piece)
    (rest : List UInt8) (args : σ) (n : ℤ) (output : List UInt8) :
    ∃ n' output', (∀ x ∈ loopResults P ⟨ps.flatMap Piece.bytes ++ rest, args, n, output⟩,
      InRange x) ↔ PiecesFit P ps args ∧
        ∀ x ∈ loopResults P ⟨rest, (runPieces P ps args).args, n', output'⟩, InRange x := by
  induction ps generalizing args n output with
  | nil =>
    refine ⟨n, output, (and_iff_right ?_).symm⟩
    rintro before d after heq
    simp at heq
  | cons p ps ih =>
    have hbytes : (p :: ps).flatMap Piece.bytes ++ rest =
        p.bytes ++ (ps.flatMap Piece.bytes ++ rest) := by simp
    obtain ⟨n', output', hrest⟩ := ih (p.run P args).args (wrap32 (n + (p.run P args).counted))
      (output ++ (p.run P args).chars)
    refine ⟨n', output', ?_⟩
    have hstep := formatStep_piece P p (ps.flatMap Piece.bytes ++ rest)
      ⟨(p :: ps).flatMap Piece.bytes ++ rest, args, n, output⟩ hbytes
    rw [loopResults, List.forall_mem_append,
      stepResults_piece hexponents p (ps.flatMap Piece.bytes ++ rest) _ hbytes, hstep,
      piecesFit_cons, and_assoc]
    dsimp only
    rw [hrest]
    rfl

/-- The end of the loop does not overflow exactly if the sizes of a directive that is cut off
fit. -/
theorem loopResults_end (truncated : Option Spec) (junk : List UInt8) (args : σ) (n : ℤ)
    (output : List UInt8) :
    (∀ x ∈ loopResults P ⟨truncatedBytes truncated ++ 0 :: junk, args, n, output⟩, InRange x) ↔
      ∀ spec ∈ truncated, spec.SizesFit P args := by
  rw [loopResults, List.forall_mem_append, formatStep_end]
  refine (and_iff_left nofun).trans ?_
  cases truncated with
  | none =>
    have hnul : (0 : UInt8) ≠ '%'.toUInt8 := by decide
    refine iff_of_true ?_ nofun
    simp [stepResults, truncatedBytes, hnul]
  | some spec =>
    rw [stepResults_of_percent (spec.head_nul_ne_percent junk) _ rfl,
      directiveResults_iff spec.absorbs_nul _ rfl]
    simp

/-- The operations of a run do not overflow exactly if its format fits. -/
theorem formatResults_iff (hexponents : ExponentsBounded P) (s : Split) (junk : List UInt8)
    (args : σ) :
    (∀ x ∈ formatResults P (s.bytes ++ 0 :: junk) args, InRange x) ↔ s.Fits P args := by
  obtain ⟨n, output, hiff⟩ := loopResults_pieces hexponents s.pieces
    (truncatedBytes s.truncated ++ 0 :: junk) args 0 []
  rw [loopResults_end] at hiff
  rw [formatResults, Split.bytes, List.append_assoc]
  exact hiff

/-- **Width and precision arithmetic** is safe exactly if every directive has room: its literal
sizes are `int`s, its width is not the smallest `int`, and an integer conversion can subtract
its digits from the precision and add them to it. -/
theorem arithmeticSafe_iff (hexponents : ExponentsBounded P) {format : List UInt8}
    (hnul : ∀ c ∈ format, c ≠ 0) (junk : List UInt8) (args : σ) :
    ArithmeticSafe P format (format ++ 0 :: junk) args ↔
      ∀ s : Split, s.bytes = format → s.Fits P args := by
  obtain ⟨split, rfl, hunique⟩ := existsUnique_split hnul
  have hiff := formatResults_iff hexponents split junk args
  constructor
  · rintro ⟨hresults, -⟩ s hs
    rw [hunique s hs]
    exact hiff.mp hresults
  · intro hfits
    refine ⟨hiff.mpr (hfits split rfl), ?_⟩
    intro s hs before d after hpieces c hc
    exact ((hfits s hs).1 before d after hpieces).length_le hc

end

/-- The arguments -7 and 42 for `%*d`. -/
theorem arithmeticSafe_iff_negative :
    ArithmeticSafe argPlatform ['%'.toUInt8, '*'.toUInt8, 'd'.toUInt8]
      ['%'.toUInt8, '*'.toUInt8, 'd'.toUInt8, 0] [.int (-7), .int 42] := by
  have hexponents : ExponentsBounded argPlatform := fun _ => (by decide : (0 : ℤ) ≤ 309)
  have hnul : ∀ c ∈ ['%'.toUInt8, '*'.toUInt8, 'd'.toUInt8], c ≠ 0 := by decide +kernel
  refine (arithmeticSafe_iff hexponents hnul [] [.int (-7), .int 42]).mpr fun s hs => ?_
  obtain rfl : s = ⟨[.directive (integerDirective ⟨[], .star, none, .none, nofun⟩ .d)], none⟩ :=
    (existsUnique_split hnul).unique hs (by decide)
  refine ⟨piecesFit_cons.mpr ⟨?_, fun before d after heq => by simp at heq⟩, nofun⟩
  rintro d hd
  obtain rfl := Piece.directive.inj hd
  refine ⟨⟨trivial, by decide, nofun⟩, fun c hc => ?_⟩
  obtain rfl : IntegerConversion.d = c := IntegerConversion.byte_injective hc
  exact Or.inr (by decide)

/-- The width of `%2147483648d` is not an `int`. -/
theorem not_arithmeticSafe :
    ¬ ∀ (P : Platform (List Arg)), ExponentsBounded P → ∀ (format junk : List UInt8)
      (args : List Arg), (∀ c ∈ format, c ≠ 0) →
        ArithmeticSafe P format (format ++ 0 :: junk) args := by
  intro hall
  let d : Directive :=
    integerDirective ⟨[], .literal 2 [1, 4, 7, 4, 8, 3, 6, 4, 8], none, .none, nofun⟩ .d
  let s : Split := ⟨[.directive d], none⟩
  have hexponents : ExponentsBounded argPlatform := fun _ => (by decide : (0 : ℤ) ≤ 309)
  have hsafe := hall argPlatform hexponents s.bytes [] [.int 0] (by decide +kernel)
  have hfits := (formatResults_iff hexponents s [] [.int 0]).mp hsafe.results
  have hwidth := ((piecesFit_cons.mp hfits.1).1 d rfl).sizes.width
  exact absurd hwidth (by decide : ¬ decimalValue [2, 1, 4, 7, 4, 8, 3, 6, 4, 8] < 2147483648)

end WifiMcu.Format
