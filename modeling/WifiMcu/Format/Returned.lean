import WifiMcu.Format.Integers
import WifiMcu.Format.Strings
import WifiMcu.Library.Memory

/-!
# The value that FormatString returns

The cases `s` and `c` of the `switch` add what their output function returns to
`count`, and the literal characters add one each. The numeric cases drop the value
their output function returns. Hence the returned value is the number of
characters exactly if no numeric directive outputs any, as long as the number
fits into an `int`.
-/

namespace WifiMcu.Format

open Word Memory

/-! ### Strings and characters -/

/-- The number of characters that a precision leaves of a string. -/
def textLength (length : ℕ) (precision : ℤ) : ℕ :=
  if precision < 0 then length else min precision.toNat length

/-- `OutputString` outputs its text in a field and returns the length of the field. -/
theorem outputString_length {string : List UInt8} (hnul : ∀ c ∈ string, c ≠ 0)
    (hlength : string.length < 2147483648) (padRight padZero : Bool) {width : ℤ}
    (hwidth : width < 2147483648) (precision : ℤ) :
    (outputString string padRight padZero width precision).chars.length =
        max width.toNat (textLength string.length precision) ∧
    (outputString string padRight padZero width precision).count =
        max width.toNat (textLength string.length precision) := by
  have hzero : 0 ∉ string := fun hmem => hnul 0 hmem rfl
  have htext : (shownText string precision).length = textLength string.length precision := by
    rw [shownText, takeWhile_of_not_mem hzero, textLength]
    split_ifs
    · rfl
    · exact List.length_take
  rw [outputString_eq hzero hlength padRight padZero hwidth, ← htext]
  refine ⟨?_, ?_⟩
  · rw [fieldOutput]
    split_ifs <;> simp only [List.length_append, repeatChar, List.length_replicate] <;> omega
  · show max width ((shownText string precision).length : ℤ) = _
    omega

/-- A character is a text of one character, unless it is the NUL. -/
theorem outputString_byte (byte : BitVec 8) (padRight padZero : Bool) {width : ℤ}
    (hwidth : width < 2147483648) :
    (outputString [UInt8.ofBitVec byte] padRight padZero width (-1)).chars.length =
        max width.toNat (if byte = 0 then 0 else 1) ∧
    (outputString [UInt8.ofBitVec byte] padRight padZero width (-1)).count =
        max width.toNat (if byte = 0 then 0 else 1) := by
  by_cases hzero : byte = 0
  · have hnul : outputString [UInt8.ofBitVec byte] padRight padZero width (-1) =
        outputString [] padRight padZero width (-1) := by
      subst hzero
      simp [outputString, copyString]
    rw [hnul, if_pos hzero]
    exact outputString_length (by simp) (by simp) padRight padZero hwidth (-1)
  · have hbyte : ∀ c ∈ [UInt8.ofBitVec byte], c ≠ 0 := by
      intro c hmem h0
      rw [List.mem_singleton.mp hmem] at h0
      exact hzero (congrArg UInt8.toBitVec h0)
    rw [if_neg hzero]
    exact outputString_length hbyte (by simp) padRight padZero hwidth (-1)

/-! ### Numbers -/

/-- The digit loop stores at least what it is given. -/
theorem digitLoop_ne_nil {base : ℕ} (hbase : 1 < base) (firstLetter : UInt8) (n : ℕ)
    {stored : List UInt8} (h : n ≠ 0 ∨ stored ≠ []) :
    digitLoop base hbase firstLetter n stored ≠ [] := by
  induction n using Nat.strong_induction_on generalizing stored with
  | _ n ih =>
    rw [digitLoop]
    split_ifs with hn
    · exact h.resolve_left (not_not.mpr hn)
    · exact ih _ (Nat.div_lt_self (Nat.pos_of_ne_zero hn) hbase) (Or.inr (by simp))

/-- Digits are output whatever surrounds them. -/
theorem outputDigitString_ne_nil (pre : Option (List UInt8)) (z : ℤ) {D : List UInt8}
    (hD : D ≠ []) (padRight : Bool) (width : ℤ) :
    (outputDigitString pre z D padRight width).chars ≠ [] := by
  simp [outputDigitString, hD]

/-- Without digits and zeroes, the prefix and the padding are output. -/
theorem outputDigitString_eq_nil {pre : Option (List UInt8)} (hpre : (pre.getD []).length ≤ 2)
    (padRight : Bool) {width : ℤ} (hwidth : -2147483648 ≤ width)
    (hwidth' : width < 2147483648) :
    (outputDigitString pre 0 [] padRight width).chars = [] ↔ pre.getD [] = [] ∧ width ≤ 0 := by
  have hzero : wrap32 0 = 0 := by decide
  have hwrap : wrap32 width = width := wrap32_of_range hwidth hwidth'
  simp only [outputDigitString, numPrefix_eq hpre, List.take_length, repeatChar]
  by_cases hnil : pre.getD [] = []
  · cases padRight <;> simp [hnil, hzero, hwrap]
  · simp [hnil]

/-- `OutputUnsignedInteger` outputs nothing exactly if there is no digit, no prefix
and no field to fill. -/
theorem outputUnsignedInteger_eq_nil {value : BitVec 64} {base : ℕ} {hbase : 1 < base}
    {firstLetter : UInt8} {pre : Option (List UInt8)} (hpre : (pre.getD []).length ≤ 2)
    {padRight padZero : Bool} {width precision : ℤ} (hwidth : -2147483648 ≤ width)
    (hwidth' : width < 2147483648) :
    (outputUnsignedInteger value base hbase firstLetter pre padRight padZero width
        precision).chars = [] ↔
      value = 0 ∧ precision = 0 ∧ pre.getD [] = [] ∧ width ≤ 0 := by
  by_cases hempty : value = 0 ∧ precision = 0
  · obtain ⟨rfl, rfl⟩ := hempty
    have hone : max 0 (wrap32 (wrap32 0 - 1)) = 0 := by decide
    have hzero : max 0 (wrap32 0) = 0 := by decide
    have hempty := outputDigitString_eq_nil hpre padRight hwidth hwidth'
    by_cases hpre0 : pre = some ['0'.toUInt8] <;>
      simpa [outputUnsignedInteger, hone, hzero, hpre0] using hempty
  · have hdigits : (if value = 0 then (if precision ≠ 0 then ['0'.toUInt8] else [])
        else digitLoop base hbase firstLetter value.toNat []) ≠ [] := by
      split_ifs with hvalue hprecision
      · simp
      · exact absurd ⟨hvalue, not_not.mp hprecision⟩ hempty
      · refine digitLoop_ne_nil hbase firstLetter _ (Or.inl fun h => hvalue ?_)
        exact BitVec.eq_of_toNat_eq h
    refine iff_of_false (outputDigitString_ne_nil pre _ hdigits padRight width) ?_
    rintro ⟨hvalue, hprecision, -⟩
    exact hempty ⟨hvalue, hprecision⟩

section

variable {σ : Type} (P : Platform σ)

/-- A floating point number has at least one character. -/
theorem convertFloatingPoint_ne_nil (value : BitVec 64) {precision : ℤ} (hprecision : 0 ≤ precision)
    (forcePeriod upperCase : Bool) :
    (convertFloatingPoint P value precision forcePeriod upperCase).1 ≠ [] := by
  by_cases hspecial : exponent2 (P.addHalfUnit value precision) = 0x400
  · simp only [convertFloatingPoint, if_pos hspecial]
    split_ifs <;> simp
  · simp only [convertFloatingPoint, if_neg hspecial]
    rw [← List.length_pos_iff, length_fixedPointDigits]
    split_ifs <;> omega

/-- `OutputFloatingPoint` always outputs something. -/
theorem outputFloatingPoint_ne_nil (value : BitVec 64) (positivePrefix : Option (List UInt8))
    (padRight padZero forcePeriod upperCase : Bool) (width precision : ℤ) :
    (outputFloatingPoint P value positivePrefix padRight padZero forcePeriod upperCase width
      precision).chars ≠ [] := by
  simp only [outputFloatingPoint]
  refine outputDigitString_ne_nil _ _ (convertFloatingPoint_ne_nil P _ ?_ _ _) _ _
  split_ifs <;> omega

/-! ### What a piece adds to the count -/

/-- The integer conversion of a character. -/
def integerConversion (c : UInt8) : Option IntegerConversion :=
  [.d, .i, .u, .o, .x, .X].find? fun k : IntegerConversion => k.byte = c

/-- A directive takes its sizes from the arguments in front of its value. -/
def Directive.sizes (d : Directive) (args : σ) : Sizes × σ :=
  d.spec.readSizes P (flagsOf d.spec.flags) args

/-- A directive runs its conversion on the sizes it has taken. -/
theorem Directive.run_eq (d : Directive) (args : σ) :
    d.run P args = convert P d.conversion (flagsOf d.spec.flags) (d.sizes P args).1
      d.spec.modifier.code (d.sizes P args).2 :=
  rfl

/-- An integer directive is silent if its value is zero, written without digits, sign
or prefix in a field without width. -/
def Directive.Silent (d : Directive) (k : IntegerConversion) (args : σ) : Prop :=
  c99Value P k.signed d.spec.modifier (d.sizes P args).2 = 0 ∧
  (d.sizes P args).1.precision = 0 ∧ (d.sizes P args).1.width ≤ 0 ∧
  (k.signed = true → .plus ∉ d.spec.flags ∧ .space ∉ d.spec.flags) ∧
  (k = .o → .alternate ∉ d.spec.flags)

/-- A piece is counted if all its characters are: a numeric directive is only if it
has none. -/
def Piece.Counted (args : σ) : Piece → Prop
  | .literal _ _ _ => True
  | .percent => True
  | .directive d =>
    match integerConversion d.conversion with
    | some k => d.Silent P k args
    | none => d.conversion ≠ 'f'.toUInt8 ∧ d.conversion ≠ 'F'.toUInt8

/-- The number of characters that a piece adds to the count: the larger one of the
width and the text of a `%s` or `%c`. -/
def Piece.fieldLength (args : σ) : Piece → ℕ
  | .literal _ _ _ => 1
  | .percent => 1
  | .directive d =>
    let width := (d.sizes P args).1.width.toNat
    let precision := (d.sizes P args).1.precision
    if d.conversion = 's'.toUInt8 then
      max width (textLength
        (((P.vaString (d.sizes P args).2).1.map (·.bytes.length)).getD 6) precision)
    else if d.conversion = 'c'.toUInt8 then
      max width (if (P.vaInt (d.sizes P args).2).1.setWidth 8 = 0 then 0 else 1)
    else 0

/-- The arguments that a piece leaves. -/
def Piece.argsAfter (args : σ) : Piece → σ
  | .literal _ _ _ => args
  | .percent => args
  | .directive d => takeValue P d.conversion d.spec.modifier (d.sizes P args).2

/-- Every piece of a sequence is counted. -/
def PiecesCounted : List Piece → σ → Prop
  | [], _ => True
  | p :: ps, args => p.Counted P args ∧ PiecesCounted ps (p.argsAfter P args)

instance (d : Directive) (k : IntegerConversion) (args : σ) : Decidable (d.Silent P k args) :=
  inferInstanceAs (Decidable (_ ∧ _ ∧ _ ∧ _ ∧ _))

instance (args : σ) : (p : Piece) → Decidable (p.Counted P args)
  | .literal _ _ _ => isTrue trivial
  | .percent => isTrue trivial
  | .directive d =>
    match h : integerConversion d.conversion with
    | some k => decidable_of_iff (d.Silent P k args) (by simp only [Piece.Counted, h])
    | none => decidable_of_iff (d.conversion ≠ 'f'.toUInt8 ∧ d.conversion ≠ 'F'.toUInt8)
        (by simp only [Piece.Counted, h])

instance decidablePiecesCounted : (ps : List Piece) → (args : σ) →
    Decidable (PiecesCounted P ps args)
  | [], _ => isTrue trivial
  | p :: ps, args =>
    have := decidablePiecesCounted ps (p.argsAfter P args)
    inferInstanceAs (Decidable (_ ∧ _))

/-- The characters that a sequence of pieces adds to the count. -/
def fieldsLength : List Piece → σ → ℕ
  | [], _ => 0
  | p :: ps, args => p.fieldLength P args + fieldsLength ps (p.argsAfter P args)

/-- The pieces leave the arguments that they do not take. -/
theorem Piece.argsAfter_eq (p : Piece) (args : σ) :
    p.argsAfter P args = (p.run P args).args := by
  cases p with
  | literal c hnul hne => rfl
  | percent => rfl
  | directive d => exact (convert_args P _ _ _ _ _).symm

/-- A width is an `int`. -/
theorem readSizes_width (s : Spec) (flags : Flags) (args : σ) :
    -2147483648 ≤ (s.readSizes P flags args).1.width ∧
      (s.readSizes P flags args).1.width < 2147483648 := by
  have hliteral (value : ℤ) (d : Fin 10) (ds : List (Fin 10)) :
      -2147483648 ≤ literalValue value (d :: ds) ∧ literalValue value (d :: ds) < 2147483648 := by
    induction ds generalizing value d with
    | nil =>
      have h := wrap32_range (wrap32 (value * 10) + d.val)
      simpa only [literalValue, List.foldl_cons, List.foldl_nil] using h
    | cons e ds ih => exact ih (wrap32 (wrap32 (value * 10) + d.val)) e
  have hread : -2147483648 ≤ (s.width.read P args).1 ∧ (s.width.read P args).1 < 2147483648 := by
    cases s.width with
    | omitted => simp [Size.read]
    | star =>
      have hlow := BitVec.le_toInt (P.vaInt args).1
      have hhigh := BitVec.toInt_lt (x := (P.vaInt args).1)
      simp only [Size.read]
      omega
    | literal d ds => simpa only [Size.read] using hliteral 0 d ds
  have hwidth : (s.readSizes P flags args).1.width =
      (Sizes.ofWidth (s.width.read P args).1 flags.padRight flags.padZero).width := by
    cases hp : s.precision <;> simp [Spec.readSizes, hp]
  rw [hwidth, Sizes.ofWidth]
  split_ifs
  · exact wrap32_range _
  · exact hread

/-- The integer conversion of a character is the one that has the character. -/
theorem integerConversion_eq_some {c : UInt8} {k : IntegerConversion} :
    integerConversion c = some k ↔ k.byte = c := by
  constructor
  · intro h
    simpa using List.find?_some h
  · rintro rfl
    cases k <;> rfl

/-- A string or character is output in full, as many characters as it adds. -/
theorem run_text (d : Directive) (args : σ)
    (hd : d.conversion = 's'.toUInt8 ∨ d.conversion = 'c'.toUInt8) :
    (d.run P args).counted = (Piece.directive d).fieldLength P args ∧
      (d.run P args).chars.length = (Piece.directive d).fieldLength P args := by
  have hwidth : (d.sizes P args).1.width < 2147483648 := (readSizes_width P d.spec _ args).2
  have hcs : 'c'.toUInt8 ≠ 's'.toUInt8 := by decide
  have hnull : ∀ c ∈ ['(', 'n', 'u', 'l', 'l', ')'].map Char.toUInt8, c ≠ 0 := by
    decide +kernel
  rw [Directive.run_eq]
  simp only [Piece.fieldLength]
  generalize d.sizes P args = taken at hwidth ⊢
  rcases hd with hs | hc
  · simp only [convert, if_pos hs]
    cases (P.vaString taken.2).1 with
    | none =>
      have h := outputString_length hnull (by decide) taken.1.padRight taken.1.padZero hwidth
        taken.1.precision
      exact ⟨h.2, h.1⟩
    | some string =>
      have h := outputString_length string.not_nul string.length_lt taken.1.padRight
        taken.1.padZero hwidth taken.1.precision
      exact ⟨h.2, h.1⟩
  · simp only [convert, hc, if_neg hcs, if_true]
    have h := outputString_byte ((P.vaInt taken.2).1.setWidth 8) taken.1.padRight taken.1.padZero
      hwidth
    exact ⟨h.2, h.1⟩

/-- The other conversions add nothing. -/
theorem convert_counted {c : UInt8} (hs : c ≠ 's'.toUInt8) (hc : c ≠ 'c'.toUInt8) (flags : Flags)
    (sizes : Sizes) (modifier : ℤ) (args : σ) :
    (convert P c flags sizes modifier args).counted = 0 := by
  unfold convert
  rw [if_neg hs, if_neg hc]
  split_ifs <;> rfl

/-- A signed conversion outputs nothing exactly for a zero without digits, width and sign. -/
theorem convert_signed_eq_nil {k : IntegerConversion} (hsigned : k.signed = true)
    (flags : List Flag) {sizes : Sizes}
    (hwidth : -2147483648 ≤ sizes.width ∧ sizes.width < 2147483648) (m : Modifier) (args : σ) :
    (convert P k.byte (flagsOf flags) sizes m.code args).chars = [] ↔
      c99Value P true m args = 0 ∧ sizes.precision = 0 ∧ sizes.width ≤ 0 ∧
        .plus ∉ flags ∧ .space ∉ flags := by
  rw [convert_signed P hsigned, ← signedValue_toInt, outputSignedInteger]
  generalize (signedValue P m.code args).1 = value
  have hzero : value.toInt = 0 ↔ value = 0 := by
    constructor
    · intro h
      exact BitVec.eq_of_toInt_eq (by simpa using h)
    · rintro rfl
      rfl
  split_ifs with hvalue
  · rw [outputUnsignedInteger_eq_nil (positivePrefix_length flags) hwidth.1 hwidth.2,
      positivePrefix_eq_nil, hzero]
    tauto
  · rw [outputUnsignedInteger_eq_nil (by simp) hwidth.1 hwidth.2]
    refine iff_of_false (fun h => by simp at h) ?_
    rintro ⟨h, -⟩
    omega

/-- An unsigned conversion outputs nothing exactly for a zero without digits and width, unless
it is an octal one with its prefix. -/
theorem convert_unsigned_eq_nil {k : IntegerConversion} (hunsigned : k.signed = false)
    (flags : List Flag) {sizes : Sizes}
    (hwidth : -2147483648 ≤ sizes.width ∧ sizes.width < 2147483648) (m : Modifier) (args : σ) :
    (convert P k.byte (flagsOf flags) sizes m.code args).chars = [] ↔
      c99Value P false m args = 0 ∧ sizes.precision = 0 ∧ sizes.width ≤ 0 ∧
        (k = .o → .alternate ∉ flags) := by
  rw [convert_unsigned P hunsigned, ← unsignedValue_toNat,
    outputUnsignedInteger_eq_nil (alternatePrefix_length _ _ _ _) hwidth.1 hwidth.2]
  generalize (unsignedValue P m.code args).1 = value
  have hzero : (value.toNat : ℤ) = 0 ↔ value = 0 := by simp [BitVec.toNat_eq]
  have halternate : (flagsOf flags).alternate = decide (.alternate ∈ flags) := by
    rw [flagsOf_eq]
  have hpre (hvalue : value = 0) (hprecision : sizes.precision = 0) :
      (k.alternatePrefix (flagsOf flags).alternate sizes.precision value).getD [] = [] ↔
        (k = .o → .alternate ∉ flags) := by
    by_cases h : Flag.alternate ∈ flags <;> cases k <;>
      simp [IntegerConversion.alternatePrefix, halternate, hvalue, hprecision, h]
  rw [hzero]
  constructor
  · rintro ⟨hvalue, hprecision, hempty, hle⟩
    exact ⟨hvalue, hprecision, hle, (hpre hvalue hprecision).mp hempty⟩
  · rintro ⟨hvalue, hprecision, hle, hoctal⟩
    exact ⟨hvalue, hprecision, (hpre hvalue hprecision).mpr hoctal, hle⟩

/-- An integer directive outputs nothing exactly if it is silent. -/
theorem run_integer (d : Directive) {k : IntegerConversion} (hk : k.byte = d.conversion)
    (args : σ) : (d.run P args).chars = [] ↔ d.Silent P k args := by
  have hwidth : -2147483648 ≤ (d.sizes P args).1.width ∧ (d.sizes P args).1.width < 2147483648 :=
    readSizes_width P d.spec _ args
  rw [Directive.run_eq, Directive.Silent, ← hk]
  cases hsigned : k.signed with
  | true =>
    have hoctal : k ≠ .o := by
      rintro rfl
      cases hsigned
    rw [convert_signed_eq_nil P hsigned d.spec.flags hwidth]
    simp [hoctal]
  | false =>
    rw [convert_unsigned_eq_nil P hsigned d.spec.flags hwidth]
    simp

/-- **A piece adds its field to the count, which are all its characters exactly if it
is counted.** -/
theorem Piece.run_counted (p : Piece) (args : σ) :
    (p.run P args).counted = p.fieldLength P args ∧
      p.fieldLength P args ≤ (p.run P args).chars.length ∧
      (p.fieldLength P args = (p.run P args).chars.length ↔ p.Counted P args) := by
  cases p with
  | literal c hnul hne => simp [Piece.run, Piece.fieldLength, Piece.Counted]
  | percent => simp [Piece.run, Piece.fieldLength, Piece.Counted]
  | directive d =>
    by_cases htext : d.conversion = 's'.toUInt8 ∨ d.conversion = 'c'.toUInt8
    · obtain ⟨hcounted, hlength⟩ := run_text P d args htext
      refine ⟨hcounted, hlength.ge, iff_of_true hlength.symm ?_⟩
      have hnone : integerConversion d.conversion = none ∧ d.conversion ≠ 'f'.toUInt8 ∧
          d.conversion ≠ 'F'.toUInt8 := by
        rcases htext with h | h <;> rw [h] <;> decide
      simpa only [Piece.Counted, hnone.1] using hnone.2
    rw [not_or] at htext
    have hfield : (Piece.directive d).fieldLength P args = 0 := by
      simp only [Piece.fieldLength, if_neg htext.1, if_neg htext.2]
    have hlength : 0 = (d.run P args).chars.length ↔ (d.run P args).chars = [] := by
      rw [eq_comm, List.length_eq_zero_iff]
    rw [hfield, Piece.run, hlength]
    refine ⟨convert_counted P htext.1 htext.2 _ _ _ _, Nat.zero_le _, ?_⟩
    cases hinteger : integerConversion d.conversion with
    | some k =>
      have hsilent := run_integer P d (integerConversion_eq_some.mp hinteger) args
      simpa only [Piece.Counted, hinteger] using hsilent
    | none =>
      simp only [Piece.Counted, hinteger]
      by_cases hfloat : d.conversion = 'f'.toUInt8 ∨ d.conversion = 'F'.toUInt8
      · have hchars : (d.run P args).chars ≠ [] := by
          rcases hfloat with h | h <;> rw [Directive.run_eq, h] <;>
            exact outputFloatingPoint_ne_nil P _ _ _ _ _ _ _ _
        exact iff_of_false hchars (by tauto)
      · have hunknown : d.conversion ∉ knownConversions := by
          have hne (k : IntegerConversion) : d.conversion ≠ k.byte := by
            intro hk
            rw [integerConversion_eq_some.mpr hk.symm] at hinteger
            cases hinteger
          have hd := hne .d
          have hi := hne .i
          have hu := hne .u
          have ho := hne .o
          have hx := hne .x
          have hX := hne .X
          simp only [IntegerConversion.byte] at hd hi hu ho hx hX
          simp only [knownConversions, List.map_cons, List.map_nil, List.mem_cons,
            List.not_mem_nil, or_false]
          tauto
        exact iff_of_true (convert_unknown P hunknown _ _ _ _) (not_or.mp hfloat)

/-- A sequence of pieces adds its fields to the count, which are all its characters
exactly if every piece is counted. -/
theorem runPieces_counted (ps : List Piece) (args : σ) :
    (runPieces P ps args).counted = fieldsLength P ps args ∧
      fieldsLength P ps args ≤ (runPieces P ps args).chars.length ∧
      (fieldsLength P ps args = (runPieces P ps args).chars.length ↔ PiecesCounted P ps args) := by
  induction ps generalizing args with
  | nil => simp [runPieces, fieldsLength, PiecesCounted]
  | cons p ps ih =>
    obtain ⟨hcounted, hle, hiff⟩ := p.run_counted P args
    obtain ⟨hcounted', hle', hiff'⟩ := ih (p.run P args).args
    simp only [runPieces, fieldsLength, PiecesCounted, p.argsAfter_eq, List.length_append,
      hcounted, hcounted', ← hiff, ← hiff']
    refine ⟨by push_cast; rfl, by omega, ?_⟩
    omega

/-! ### printf and sprintf -/

/-- The bytes that `printf` sends are the characters. -/
theorem runOutput_printf (sent output : List UInt8) :
    runOutput printfOutputFunction sent output = sent ++ output := by
  induction output generalizing sent with
  | nil => simp [runOutput]
  | cons c output ih =>
    have h := ih (sent ++ [c])
    simp only [runOutput, List.foldl_cons, printfOutputFunction] at h ⊢
    rw [h]
    simp

/-- The characters that `sprintf` stores are a block behind which its pointer ends. -/
theorem runOutput_sprintf (memory : ℕ → UInt8) (buffer : ℕ) (output : List UInt8) :
    runOutput sprintfOutputFunction (memory, buffer) output =
      (writeBlock memory buffer output, buffer + output.length) := by
  induction output generalizing memory buffer with
  | nil => simp [runOutput]
  | cons c output ih =>
    have h := ih (Function.update memory buffer c) (buffer + 1)
    simp only [runOutput, List.foldl_cons, sprintfOutputFunction] at h ⊢
    rw [h, writeBlock_cons, List.length_cons]
    congr 1
    omega

/-- `sprintf` stores the characters and a NUL behind the last one. -/
theorem sprintf_eq (memory : ℕ → UInt8) (buffer : ℕ) (format : List UInt8) (args : σ) :
    sprintf P memory buffer format args = (formatString P format args).map fun s =>
      (s.count, writeBlock memory buffer (s.output ++ [0])) := by
  simp only [sprintf, runOutput_sprintf, ← writeBlock_singleton, writeBlock_append]

/-- The returned values are the number of characters: `FormatString` returns the
number of its calls of `outputfunc`, `printf` that of the bytes sent, and `sprintf`
the length of the text stored, with the terminating NUL at the returned index. -/
def CountsCharacters (format : List UInt8) (args : σ) : Prop :=
  ∃ s, formatString P format args = some s ∧ s.count = s.output.length ∧
    printf P format args = some ((s.output.length : ℤ), s.output) ∧
    ∀ (memory : ℕ → UInt8) (buffer : ℕ), ∃ memory',
      sprintf P memory buffer format args = some ((s.output.length : ℤ), memory') ∧
      readBlock memory' buffer s.output.length = s.output ∧
      memory' (buffer + s.output.length) = 0

/-- `printf` and `sprintf` return the number of characters if `FormatString` does. -/
theorem countsCharacters_iff {format : List UInt8} {args : σ} {s : FormatState σ}
    (hs : formatString P format args = some s) :
    CountsCharacters P format args ↔ s.count = s.output.length := by
  constructor
  · rintro ⟨s', hs', hcount, -⟩
    rw [hs, Option.some_inj] at hs'
    subst hs'
    exact hcount
  · intro hcount
    refine ⟨s, hs, hcount, ?_, fun memory buffer =>
      ⟨writeBlock memory buffer (s.output ++ [0]), ?_, ?_, ?_⟩⟩
    · rw [printf, hs, Option.map_some, runOutput_printf, List.nil_append, hcount]
    · rw [sprintf_eq, hs, Option.map_some, hcount]
    · exact readBlock_writeBlock_append memory buffer s.output [0]
    · have hlast : s.output.length < (s.output ++ [0]).length := by simp
      rw [writeBlock_get hlast]
      simp

/-- **When the returned value is the number of characters.** This is so exactly if
every piece of the format is counted and its fields fit into an `int`. -/
theorem formatString_count_iff {f : List UInt8} (hnul : ∀ c ∈ f, c ≠ 0) (junk : List UInt8)
    (args : σ) :
    CountsCharacters P (f ++ 0 :: junk) args ↔
      PiecesCounted P (splitFormat f).pieces args ∧
        fieldsLength P (splitFormat f).pieces args < 2147483648 := by
  have hsplit := formatString_split P (splitFormat f) junk args
  rw [bytes_splitFormat hnul] at hsplit
  obtain ⟨hcounted, hle, hiff⟩ := runPieces_counted P (splitFormat f).pieces args
  rw [countsCharacters_iff P hsplit, ← hiff]
  simp only [Split.result, hcounted]
  generalize fieldsLength P (splitFormat f).pieces args = n at hle ⊢
  unfold wrap32
  omega

end

/-- `%d` outputs one character for `5`, and zero is returned. -/
theorem formatString_count_digit :
    ¬ CountsCharacters argPlatform (['%', 'd', '\x00'].map Char.toUInt8) [.int 5] := by
  have hs : formatString argPlatform (['%', 'd', '\x00'].map Char.toUInt8) [.int 5] =
      some ⟨[0], [], 0, ['5'.toUInt8]⟩ := by decide +kernel
  rw [countsCharacters_iff argPlatform hs]
  decide

/-- Literal characters and a string are counted. -/
theorem formatString_count_text :
    CountsCharacters argPlatform (['%', '4', 's', '!', '\x00'].map Char.toUInt8)
      [.string none] :=
  (formatString_count_iff argPlatform (f := ['%', '4', 's', '!'].map Char.toUInt8)
    (by decide +kernel) [] _).mpr (by decide +kernel)

end WifiMcu.Format
