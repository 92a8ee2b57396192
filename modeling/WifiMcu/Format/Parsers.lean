import WifiMcu.Format.Syntax
import WifiMcu.Library.Word

/-!
# The parsers of FormatString.c

`ParseFlags`, `ParseSizes`, `ParseInteger` and `ParseLengthModifier` move one
cursor through the format and one `va_list` through the arguments. The cursor is
the list of bytes readable from it on, the NUL and whatever lies behind it
included; reading from an empty list is a read outside the string, and yields
`none`. Each parser has one lemma that says what it does with the characters of
the component it is meant for.
-/

namespace WifiMcu.Format

open Word

/-- A C string: the bytes before its NUL. No object in the 32-bit address space of
the target has more bytes than an `int` can count. -/
structure CString where
  bytes : List UInt8
  not_nul : ∀ c ∈ bytes, c ≠ 0
  length_lt : bytes.length < 2147483648
  deriving DecidableEq

/-- What the compiler's `<stdarg.h>` and `<math.h>` supply: the values that
`va_arg` takes from a list of type `σ` and where it leaves the list, the sum
`absvalue + 0.5 / pow(10, precision)`, and the scaling of a double to
`0.1 <= x < 1.0` together with its decimal exponent. A null pointer to a string
is `none`. -/
structure Platform (σ : Type) where
  vaInt : σ → BitVec 32 × σ
  vaLong : σ → BitVec 32 × σ
  vaLongLong : σ → BitVec 64 × σ
  vaString : σ → Option CString × σ
  vaDouble : σ → BitVec 64 × σ
  addHalfUnit : BitVec 64 → ℤ → BitVec 64
  normalize : BitVec 64 → ℤ × BitVec 64

/-- The results of `ParseFlags`. A prefix is a C string, and `none` is its null pointer. -/
structure Flags where
  positivePrefix : Option (List UInt8) := none
  padRight : Bool := false
  padZero : Bool := false
  alternate : Bool := false
  deriving DecidableEq

/-- `ParseFlags`: the returned truth value, the flags, and the cursor. -/
def parseFlags (flags : Flags) : List UInt8 → Option (Bool × Flags × List UInt8)
  | [] => none
  | c :: format =>
    if c = '#'.toUInt8 then parseFlags { flags with alternate := true } format
    else if c = '-'.toUInt8 then
      parseFlags { flags with padRight := true, padZero := false } format
    else if c = '0'.toUInt8 then
      parseFlags (if flags.padRight then flags else { flags with padZero := true }) format
    else if c = '+'.toUInt8 then
      parseFlags { flags with positivePrefix := some ['+'.toUInt8] } format
    else if c = ' '.toUInt8 then
      parseFlags (if flags.positivePrefix.isSome then flags
        else { flags with positivePrefix := some [' '.toUInt8] }) format
    else if c = 0 then some (false, flags, c :: format)
    else some (true, flags, c :: format)

/-- The digit loop of `ParseInteger`. -/
def parseDigits (value : ℤ) : List UInt8 → Option (ℤ × List UInt8)
  | [] => none
  | c :: format =>
    if isDigit c then parseDigits (wrap32 (wrap32 (value * 10) + (c.toNat - 48))) format
    else some (value, c :: format)

section

variable {σ : Type} (P : Platform σ)

/-- `ParseInteger`: the value, the cursor and the arguments left over. -/
def parseInteger (format : List UInt8) (args : σ) : Option (ℤ × List UInt8 × σ) :=
  match format with
  | [] => none
  | c :: rest =>
    if c = '*'.toUInt8 then some ((P.vaInt args).1.toInt, rest, (P.vaInt args).2)
    else (parseDigits 0 (c :: rest)).map fun (value, format) => (value, format, args)

/-- The variables that `ParseSizes` sets, two of which `ParseFlags` set before. -/
structure Sizes where
  width : ℤ
  precision : ℤ
  padRight : Bool
  padZero : Bool
  deriving DecidableEq

/-- The width as `ParseSizes` leaves it: a negative one is negated and acts as
if the `-` flag had been used. -/
def Sizes.ofWidth (width : ℤ) (padRight padZero : Bool) : Sizes :=
  if width < 0 then ⟨wrap32 (-width), -1, true, false⟩ else ⟨width, -1, padRight, padZero⟩

/-- `ParseSizes`: the returned truth value, the sizes, the cursor and the
arguments left over. -/
def parseSizes (padRight padZero : Bool) (format : List UInt8) (args : σ) :
    Option (Bool × Sizes × List UInt8 × σ) := do
  let (width, format, args) ← parseInteger P format args
  let sizes := Sizes.ofWidth width padRight padZero
  let c ← format.head?
  if c = '.'.toUInt8 then
    let (precision, format, args) ← parseInteger P format.tail args
    let c ← format.head?
    return (c ≠ 0, { sizes with precision }, format, args)
  else return (c ≠ 0, sizes, format, args)

/-- `ParseLengthModifier`: the returned truth value, the modifier and the cursor. -/
def parseLengthModifier (format : List UInt8) : Option (Bool × ℤ × List UInt8) := do
  let c ← format.head?
  if c = 'l'.toUInt8 then
    let c ← format.tail.head?
    if c = 'l'.toUInt8 then
      let c ← format.tail.tail.head?
      return (c ≠ 0, 2, format.tail.tail)
    else return (c ≠ 0, 1, format.tail)
  else if c = 'h'.toUInt8 then
    let c ← format.tail.head?
    if c = 'h'.toUInt8 then
      let c ← format.tail.tail.head?
      return (c ≠ 0, -2, format.tail.tail)
    else return (c ≠ 0, -1, format.tail)
  else return (c ≠ 0, 0, format)

/-! ### What the parsers do with the component they are meant for -/

/-- One iteration of `ParseFlags` on a flag character. -/
def Flags.apply (flags : Flags) : Flag → Flags
  | .alternate => { flags with alternate := true }
  | .leftJustify => { flags with padRight := true, padZero := false }
  | .zeroPad => if flags.padRight then flags else { flags with padZero := true }
  | .plus => { flags with positivePrefix := some ['+'.toUInt8] }
  | .space => if flags.positivePrefix.isSome then flags
      else { flags with positivePrefix := some [' '.toUInt8] }

/-- The value of a literal, as the digit loop computes it. -/
def literalValue (value : ℤ) (ds : List (Fin 10)) : ℤ :=
  ds.foldl (fun value d => wrap32 (wrap32 (value * 10) + d.val)) value

/-- The value of a width or precision and the arguments left over: one `int` is
taken for a `*` and none otherwise. -/
def Size.read (args : σ) : Size → ℤ × σ
  | .omitted => (0, args)
  | .star => ((P.vaInt args).1.toInt, (P.vaInt args).2)
  | .literal d ds => (literalValue 0 (d :: ds), args)

/-- The value `ParseLengthModifier` stores for a length modifier. -/
def Modifier.code : Modifier → ℤ
  | .none => 0
  | .h => -1
  | .hh => -2
  | .l => 1
  | .ll => 2

/-- The sizes of a specification and the arguments left over: the width first,
then the precision. -/
def Spec.readSizes (s : Spec) (flags : Flags) (args : σ) : Sizes × σ :=
  let (width, args) := s.width.read P args
  let sizes := Sizes.ofWidth width flags.padRight flags.padZero
  match s.precision with
  | none => (sizes, args)
  | some p => ({ sizes with precision := (p.read P args).1 }, (p.read P args).2)

end

/-- `ParseFlags` takes a run of flag characters, whatever follows it. -/
theorem parseFlags_append (fs : List Flag) (flags : Flags) (tail : List UInt8)
    (htail : ∀ c, tail.head? = some c → Flag.ofByte c = none) :
    parseFlags flags (fs.map Flag.byte ++ tail) =
      tail.head?.map fun c => (decide (c ≠ 0), fs.foldl Flags.apply flags, tail) := by
  induction fs generalizing flags with
  | nil =>
    cases tail with
    | nil => rfl
    | cons c tail =>
      have hc := htail c rfl
      unfold Flag.ofByte at hc
      split_ifs at hc with h1 h2 h3 h4 h5
      rw [List.map_nil, List.nil_append, parseFlags, if_neg h1, if_neg h2, if_neg h3, if_neg h4,
        if_neg h5]
      by_cases h0 : c = 0 <;> simp [h0]
  | cons f fs ih =>
    rw [List.map_cons, List.cons_append, List.foldl_cons, ← ih (flags.apply f)]
    cases f <;> rfl

/-- The digit loop takes a run of digits, whatever follows it. -/
theorem parseDigits_append (ds : List (Fin 10)) (value : ℤ) (tail : List UInt8)
    (htail : ∀ c, tail.head? = some c → isDigit c = false) (hne : tail ≠ []) :
    parseDigits value (ds.map digitByte ++ tail) = some (literalValue value ds, tail) := by
  induction ds generalizing value with
  | nil =>
    cases tail with
    | nil => exact absurd rfl hne
    | cons c tail => simp [parseDigits, htail c rfl, literalValue]
  | cons d ds ih =>
    rw [List.map_cons, List.cons_append, parseDigits, if_pos (isDigit_digitByte d), ih,
      digitByte_toNat]
    have hvalue : ((48 + d.val : ℕ) : ℤ) - 48 = d.val := by omega
    rw [hvalue]
    rfl

/-- A digit character is not a `*`. -/
theorem digitByte_ne_star (d : Fin 10) : digitByte d ≠ '*'.toUInt8 := by
  revert d; decide

/-- What does not continue the sizes of a specification does not continue its precision, or
begin one. -/
theorem Spec.precision_stops {s : Spec} {c : UInt8} (hc : s.sizesAbsorb c = false) :
    (∀ p ∈ s.precision, p.absorbs c = false) ∧ (s.precision = none → c ≠ '.'.toUInt8) := by
  cases hprecision : s.precision with
  | none =>
    simp only [Spec.sizesAbsorb, hprecision, Bool.or_eq_false_iff, beq_eq_false_iff_ne] at hc
    exact ⟨fun p hp => (by cases hp), fun _ => hc.1.1⟩
  | some p =>
    simp only [Spec.sizesAbsorb, hprecision] at hc
    exact ⟨fun q hq => Option.some.inj hq ▸ hc, fun hnone => (by cases hnone)⟩

/-- The character after the width of a specification does not continue it. -/
theorem Spec.width_stops {s : Spec} {tail : List UInt8}
    (htail : ∀ c, tail.head? = some c → s.sizesAbsorb c = false) (c : UInt8)
    (hc : (precisionBytes s.precision ++ tail).head? = some c) : s.width.absorbs c = false := by
  cases hprecision : s.precision with
  | none =>
    rw [hprecision] at hc
    have habsorbs := htail c hc
    simp only [Spec.sizesAbsorb, hprecision, Bool.or_eq_false_iff] at habsorbs
    exact habsorbs.1.2
  | some p =>
    rw [hprecision] at hc
    obtain rfl := Option.some.inj hc
    cases s.width <;> rfl

section

variable {σ : Type} (P : Platform σ)

/-- `ParseInteger` takes a width or precision and its argument, if it has one. -/
theorem parseInteger_append (s : Size) (args : σ) (tail : List UInt8)
    (htail : ∀ c, tail.head? = some c → s.absorbs c = false) (hne : tail ≠ []) :
    parseInteger P (s.bytes ++ tail) args = some ((s.read P args).1, tail, (s.read P args).2) := by
  cases s with
  | omitted =>
    obtain ⟨c, rest, rfl⟩ := List.exists_cons_of_ne_nil hne
    have hc : isDigit c = false ∧ c ≠ '*'.toUInt8 := by
      simpa [Size.absorbs] using htail c rfl
    simp [Size.bytes, Size.read, parseInteger, hc.2, parseDigits, hc.1]
  | star => rfl
  | literal d ds =>
    have hdigits := parseDigits_append (d :: ds) 0 tail htail hne
    simp only [List.map_cons, List.cons_append] at hdigits
    simp only [Size.bytes, Size.read, List.cons_append, parseInteger, if_neg (digitByte_ne_star d),
      hdigits, Option.map_some]

/-- `ParseSizes` takes the width and the precision of a specification. -/
theorem parseSizes_append (s : Spec) (flags : Flags) (args : σ) (tail : List UInt8)
    (htail : ∀ c, tail.head? = some c → s.sizesAbsorb c = false) (hne : tail ≠ []) :
    parseSizes P flags.padRight flags.padZero
        (s.width.bytes ++ (precisionBytes s.precision ++ tail)) args =
      tail.head?.map fun c =>
        (decide (c ≠ 0), (s.readSizes P flags args).1, tail, (s.readSizes P flags args).2) := by
  have hwidth := parseInteger_append P s.width args _ (Spec.width_stops htail)
    (List.append_ne_nil_of_right_ne_nil _ hne)
  obtain ⟨c, rest, rfl⟩ := List.exists_cons_of_ne_nil hne
  obtain ⟨hp, hdot⟩ := Spec.precision_stops (htail c rfl)
  cases hprecision : s.precision with
  | none =>
    rw [hprecision, precisionBytes, List.nil_append] at hwidth
    simp [parseSizes, precisionBytes, hwidth, hdot hprecision, Spec.readSizes, hprecision]
  | some p =>
    rw [hprecision, precisionBytes, List.cons_append] at hwidth
    have hread := parseInteger_append P p (s.width.read P args).2 (c :: rest)
      (by rintro d ⟨⟩; exact hp p hprecision) hne
    simp [parseSizes, precisionBytes, hwidth, hread, Spec.readSizes, hprecision]

end

/-- `ParseLengthModifier` takes a length modifier, whatever follows it. -/
theorem parseLengthModifier_append (m : Modifier) {c : UInt8} (rest : List UInt8)
    (hc : m.absorbs c = false) :
    parseLengthModifier (m.bytes ++ c :: rest) = some (decide (c ≠ 0), m.code, c :: rest) := by
  have hhl : 'h'.toUInt8 ≠ 'l'.toUInt8 := by decide
  cases m <;> simp only [Modifier.absorbs, Bool.or_eq_false_iff, beq_eq_false_iff_ne] at hc <;>
    simp [Modifier.bytes, Modifier.code, parseLengthModifier, hhl, hc]

/-! ### What follows a component does not continue it -/

/-- The end of the string continues nothing. -/
@[simp] theorem Spec.absorbs_nul (s : Spec) : s.absorbs 0 = false := by
  have hsize (p : Size) : p.absorbs 0 = false := by cases p <;> rfl
  have hflag : Flag.ofByte 0 = none := by decide
  have hdot : ((0 : UInt8) == '.'.toUInt8) = false := by decide
  have hmodifier : s.modifier.absorbs 0 = false := by cases s.modifier <;> rfl
  cases hprecision : s.precision <;>
    simp [Spec.absorbs, Spec.sizesAbsorb, hprecision, hsize, hflag, hmodifier, hdot]

/-- A specification ends before a character it does not absorb. -/
theorem Spec.stops_cons {s : Spec} {c : UInt8} (rest : List UInt8) (hc : s.absorbs c = false) :
    s.Stops (c :: rest) := by
  rintro d ⟨⟩
  exact hc

/-- The character after the sizes of a specification does not continue them. -/
theorem Spec.sizesAbsorb_head (s : Spec) {rest : List UInt8} (hstops : s.Stops rest) (d : UInt8)
    (hd : (s.modifier.bytes ++ rest).head? = some d) : s.sizesAbsorb d = false := by
  have hletter (b : UInt8) (hb : b = 'h'.toUInt8 ∨ b = 'l'.toUInt8) : s.sizesAbsorb b = false := by
    have hsize (p : Size) : p.absorbs b = false := by rcases hb with rfl | rfl <;> cases p <;> rfl
    have hflag : Flag.ofByte b = none := by rcases hb with rfl | rfl <;> decide
    have hdot : (b == '.'.toUInt8) = false := by rcases hb with rfl | rfl <;> decide
    cases hprecision : s.precision <;> simp [Spec.sizesAbsorb, hprecision, hsize, hflag, hdot]
  cases hm : s.modifier with
  | none =>
    have hc := hstops d (by simpa [hm, Modifier.bytes] using hd)
    simp only [Spec.absorbs, hm, Bool.or_eq_false_iff] at hc
    simpa using hc.2
  | h | hh =>
    obtain rfl : 'h'.toUInt8 = d := by simpa [hm, Modifier.bytes] using hd
    exact hletter _ (Or.inl rfl)
  | l | ll =>
    obtain rfl : 'l'.toUInt8 = d := by simpa [hm, Modifier.bytes] using hd
    exact hletter _ (Or.inr rfl)

/-- The character after the flags of a specification is not a flag. -/
theorem Spec.ofByte_head (s : Spec) {rest : List UInt8} (hstops : s.Stops rest) (d : UInt8)
    (hd : (s.width.bytes ++ (precisionBytes s.precision ++ (s.modifier.bytes ++ rest))).head? =
      some d) : Flag.ofByte d = none := by
  have hdigit : ∀ first : Fin 10, first ≠ 0 → Flag.ofByte (digitByte first) = none := by decide
  cases hwidth : s.width with
  | star =>
    obtain rfl : '*'.toUInt8 = d := by simpa [hwidth, Size.bytes] using hd
    decide
  | literal first others =>
    obtain rfl : digitByte first = d := by simpa [hwidth, Size.bytes] using hd
    exact hdigit first fun h => s.width_wf others (by rw [hwidth, h])
  | omitted =>
    cases hprecision : s.precision with
    | some p =>
      obtain rfl : '.'.toUInt8 = d := by
        simpa [hwidth, hprecision, Size.bytes, precisionBytes] using hd
      decide
    | none =>
      have hhead := s.sizesAbsorb_head hstops d (by
        simpa [hwidth, hprecision, Size.bytes, precisionBytes] using hd)
      simp only [Spec.sizesAbsorb, hprecision, hwidth, Bool.or_eq_false_iff, BEq.rfl,
        Bool.true_and, Option.isSome_eq_false_iff, Option.isNone_iff_eq_none] at hhead
      exact hhead.2

end WifiMcu.Format
