import WifiMcu.Format.Output

/-!
# FormatString, printf and sprintf

The loop of `FormatString` runs on the cursor, the arguments, the count it will
return and the characters passed to `outputfunc` so far. One iteration is
`formatStep`; it either leaves the loop or shortens the format that remains,
which is why the loop terminates on every readable string. `printf` and `sprintf`
replay the characters through their own output functions.
-/

namespace WifiMcu.Format

open Word

/-- The variables of `FormatString` and the characters it has output. -/
structure FormatState (σ : Type) where
  format : List UInt8
  args : σ
  count : ℤ
  output : List UInt8
  deriving DecidableEq

section

variable {σ : Type} (P : Platform σ)

/-- The value of a `d` or `i` directive for a modifier, widened to 64 bits. -/
def signedValue (modifier : ℤ) (args : σ) : BitVec 64 × σ :=
  if modifier = 1 then ((P.vaLong args).1.signExtend 64, (P.vaLong args).2)
  else if modifier = 2 then P.vaLongLong args
  else if modifier = -1 then (((P.vaInt args).1.setWidth 16).signExtend 64, (P.vaInt args).2)
  else if modifier = -2 then (((P.vaInt args).1.setWidth 8).signExtend 64, (P.vaInt args).2)
  else ((P.vaInt args).1.signExtend 64, (P.vaInt args).2)

/-- The value of a `u`, `o`, `x` or `X` directive for a modifier, widened to 64 bits. -/
def unsignedValue (modifier : ℤ) (args : σ) : BitVec 64 × σ :=
  if modifier = 1 then ((P.vaLong args).1.setWidth 64, (P.vaLong args).2)
  else if modifier = 2 then P.vaLongLong args
  else if modifier = -1 then (((P.vaInt args).1.setWidth 16).setWidth 64, (P.vaInt args).2)
  else if modifier = -2 then (((P.vaInt args).1.setWidth 8).setWidth 64, (P.vaInt args).2)
  else ((P.vaInt args).1.setWidth 64, (P.vaInt args).2)

/-- What a conversion outputs and adds to `count`. -/
structure Converted (σ : Type) where
  chars : List UInt8
  counted : ℤ
  args : σ

/-- The `switch` on the conversion character. Only the cases `s` and `c` use the
value that their output function returns. -/
def convert (c : UInt8) (flags : Flags) (sizes : Sizes) (modifier : ℤ) (args : σ) : Converted σ :=
  let padRight := sizes.padRight
  let padZero := sizes.padZero
  let width := sizes.width
  let precision := sizes.precision
  if c = 's'.toUInt8 then
    let (string, args) := P.vaString args
    let string := string.elim (['(', 'n', 'u', 'l', 'l', ')'].map Char.toUInt8) CString.bytes
    let e := outputString string padRight padZero width precision
    ⟨e.chars, e.count, args⟩
  else if c = 'c'.toUInt8 then
    let (value, args) := P.vaInt args
    let e := outputString [UInt8.ofBitVec (value.setWidth 8)] padRight padZero width (-1)
    ⟨e.chars, e.count, args⟩
  else if c = 'd'.toUInt8 ∨ c = 'i'.toUInt8 then
    let (value, args) := signedValue P modifier args
    let e := outputSignedInteger value flags.positivePrefix padRight padZero width precision
    ⟨e.chars, 0, args⟩
  else if c = 'u'.toUInt8 then
    let (value, args) := unsignedValue P modifier args
    let e := outputUnsignedInteger value 10 one_lt_ten 0 none padRight padZero width precision
    ⟨e.chars, 0, args⟩
  else if c = 'o'.toUInt8 then
    let (value, args) := unsignedValue P modifier args
    let pre := if flags.alternate = true ∧ (value ≠ 0 ∨ precision = 0) then some ['0'.toUInt8]
      else none
    let e := outputUnsignedInteger value 8 one_lt_eight 0 pre padRight padZero width precision
    ⟨e.chars, 0, args⟩
  else if c = 'x'.toUInt8 then
    let (value, args) := unsignedValue P modifier args
    let pre := if flags.alternate = true ∧ value ≠ 0 then some ['0'.toUInt8, 'x'.toUInt8] else none
    let e := outputUnsignedInteger value 16 one_lt_sixteen 'a'.toUInt8 pre padRight padZero width
      precision
    ⟨e.chars, 0, args⟩
  else if c = 'X'.toUInt8 then
    let (value, args) := unsignedValue P modifier args
    let pre := if flags.alternate = true ∧ value ≠ 0 then some ['0'.toUInt8, 'X'.toUInt8] else none
    let e := outputUnsignedInteger value 16 one_lt_sixteen 'A'.toUInt8 pre padRight padZero width
      precision
    ⟨e.chars, 0, args⟩
  else if c = 'f'.toUInt8 ∨ c = 'F'.toUInt8 then
    let (value, args) := P.vaDouble args
    let e := outputFloatingPoint P value flags.positivePrefix padRight padZero flags.alternate
      (c = 'F'.toUInt8) width precision
    ⟨e.chars, 0, args⟩
  else ⟨[], 0, args⟩

/-- The part of an iteration after a `%` that is not doubled. The first component
is `false` where the code leaves the loop with `break`. -/
def formatDirective (s : FormatState σ) : Option (Bool × FormatState σ) := do
  let (more, flags, format) ← parseFlags {} s.format
  if !more then return (false, { s with format })
  let (more, sizes, format, args) ← parseSizes P flags.padRight flags.padZero format s.args
  if !more then return (false, { s with format, args })
  let (more, modifier, format) ← parseLengthModifier format
  if !more then return (false, { s with format, args })
  let c ← format.head?
  let converted := convert P c flags sizes modifier args
  return (true,
    { format := format.tail
      args := converted.args
      count := wrap32 (s.count + converted.counted)
      output := s.output ++ converted.chars })

/-- One iteration of the loop of `FormatString`, its test included. `none` is a
read outside the format string. -/
def formatStep (s : FormatState σ) : Option (Bool × FormatState σ) := do
  let c ← s.format.head?
  if c = 0 then return (false, s)
  else if c = '%'.toUInt8 then
    let format := s.format.tail
    let c ← format.head?
    if c = '%'.toUInt8 then
      return (true,
        { s with
          format := format.tail
          count := wrap32 (s.count + 1)
          output := s.output ++ ['%'.toUInt8] })
    else formatDirective P { s with format }
  else
    return (true,
      { s with
        format := s.format.tail
        count := wrap32 (s.count + 1)
        output := s.output ++ [c] })

end

/-! ### Every iteration that goes on consumes part of the format -/

/-- `ParseFlags` never moves the cursor back. -/
theorem parseFlags_length {flags flags' : Flags} {format format' : List UInt8} {more : Bool}
    (h : parseFlags flags format = some (more, flags', format')) :
    format'.length ≤ format.length := by
  induction format generalizing flags with
  | nil => simp [parseFlags] at h
  | cons c format ih =>
    rw [parseFlags] at h
    -- a flag character is passed over; any other one ends the loop where it stands
    split_ifs at h <;> first
      | exact Nat.le_succ_of_le (ih h)
      | (cases h; exact Nat.le_refl _)

/-- The digit loop never moves the cursor back. -/
theorem parseDigits_length {value value' : ℤ} {format format' : List UInt8}
    (h : parseDigits value format = some (value', format')) :
    format'.length ≤ format.length := by
  induction format generalizing value with
  | nil => simp [parseDigits] at h
  | cons c format ih =>
    rw [parseDigits] at h
    split_ifs at h
    · exact Nat.le_succ_of_le (ih h)
    · cases h
      exact Nat.le_refl _

section

variable {σ : Type} (P : Platform σ)

/-- `ParseInteger` never moves the cursor back. -/
theorem parseInteger_length {value : ℤ} {format format' : List UInt8} {args args' : σ}
    (h : parseInteger P format args = some (value, format', args')) :
    format'.length ≤ format.length := by
  cases format with
  | nil => simp [parseInteger] at h
  | cons c rest =>
    rw [parseInteger] at h
    split_ifs at h
    · cases h
      exact Nat.le_succ _
    · obtain ⟨⟨value, format⟩, hdigits, heq⟩ := Option.map_eq_some_iff.mp h
      cases heq
      exact parseDigits_length hdigits

/-- `ParseSizes` never moves the cursor back. -/
theorem parseSizes_length {padRight padZero more : Bool} {sizes : Sizes}
    {format format' : List UInt8} {args args' : σ}
    (h : parseSizes P padRight padZero format args = some (more, sizes, format', args')) :
    format'.length ≤ format.length := by
  simp only [parseSizes, Option.bind_eq_bind, Option.bind_eq_some_iff] at h
  obtain ⟨⟨width, format1, args1⟩, hwidth, c, hc, h⟩ := h
  have hlength := parseInteger_length P hwidth
  split_ifs at h
  · simp only [Option.bind_eq_some_iff] at h
    obtain ⟨⟨precision, format2, args2⟩, hprecision, d, hd, h⟩ := h
    have hlength' := parseInteger_length P hprecision
    simp only [List.length_tail] at hlength'
    cases h
    show format2.length ≤ format.length
    omega
  · cases h
    exact hlength

/-- `ParseLengthModifier` never moves the cursor back. -/
theorem parseLengthModifier_length {more : Bool} {modifier : ℤ} {format format' : List UInt8}
    (h : parseLengthModifier format = some (more, modifier, format')) :
    format'.length ≤ format.length := by
  simp only [parseLengthModifier, Option.bind_eq_bind, Option.bind_eq_some_iff] at h
  obtain ⟨c, hc, h⟩ := h
  split_ifs at h
  case neg =>
    cases h
    exact Nat.le_refl _
  all_goals
    simp only [Option.bind_eq_some_iff] at h
    obtain ⟨d, hd, h⟩ := h
    split_ifs at h
    · simp only [Option.bind_eq_some_iff] at h
      obtain ⟨e, he, h⟩ := h
      cases h
      simp only [List.length_tail]
      omega
    · cases h
      simp only [List.length_tail]
      omega

/-- A directive that is output leaves less than the format after its `%`. -/
theorem formatDirective_consumes {s s' : FormatState σ}
    (h : formatDirective P s = some (true, s')) : s'.format.length < s.format.length := by
  simp only [formatDirective, Option.bind_eq_bind, Option.bind_eq_some_iff] at h
  obtain ⟨⟨more, flags, format1⟩, hflags, h⟩ := h
  have hlength1 := parseFlags_length hflags
  split_ifs at h
  · cases h
  simp only [Option.bind_eq_some_iff] at h
  obtain ⟨⟨more, sizes, format2, args2⟩, hsizes, h⟩ := h
  have hlength2 := parseSizes_length P hsizes
  split_ifs at h
  · cases h
  simp only [Option.bind_eq_some_iff] at h
  obtain ⟨⟨more, modifier, format3⟩, hmodifier, h⟩ := h
  have hlength3 := parseLengthModifier_length hmodifier
  split_ifs at h
  · cases h
  simp only [Option.bind_eq_some_iff] at h
  obtain ⟨c, hc, h⟩ := h
  have hpos := List.length_pos_of_mem (List.mem_of_mem_head? hc)
  cases h
  simp only [List.length_tail]
  omega

/-- An iteration after which the loop goes on consumes at least one format byte. -/
theorem formatStep_consumes {s s' : FormatState σ} (h : formatStep P s = some (true, s')) :
    s'.format.length < s.format.length := by
  simp only [formatStep, Option.bind_eq_bind, Option.bind_eq_some_iff] at h
  obtain ⟨c, hc, h⟩ := h
  have hpos := List.length_pos_of_mem (List.mem_of_mem_head? hc)
  split_ifs at h
  · cases h
  · simp only [Option.bind_eq_some_iff] at h
    obtain ⟨d, hd, h⟩ := h
    split_ifs at h
    · cases h
      simp only [List.length_tail]
      omega
    · have hlength := formatDirective_consumes P h
      simp only [List.length_tail] at hlength
      omega
  · cases h
    simp only [List.length_tail]
    omega

/-- The loop `while(*format)` of `FormatString`. -/
def formatLoop (s : FormatState σ) : Option (FormatState σ) :=
  match _ : formatStep P s with
  | none => none
  | some (false, s') => some s'
  | some (true, s') => formatLoop s'
termination_by s.format.length
decreasing_by exact formatStep_consumes P ‹_›

/-- `FormatString`: the state in which the loop ends, whose `count` is the
returned value and whose `output` are the calls of `outputfunc` in order. -/
def formatString (format : List UInt8) (args : σ) : Option (FormatState σ) :=
  formatLoop P { format, args, count := 0, output := [] }

/-- Output functions with a context of type `γ` are called on the characters in order. -/
def runOutput {γ : Type} (outputFunc : γ → UInt8 → γ) (context : γ) (output : List UInt8) : γ :=
  output.foldl outputFunc context

/-- `PrintfOutputFunction`: the context is the sequence of bytes sent by the USART. -/
def printfOutputFunction (sent : List UInt8) (c : UInt8) : List UInt8 := sent ++ [c]

/-- `printf`: the returned value and the bytes sent. -/
def printf (format : List UInt8) (args : σ) : Option (ℤ × List UInt8) :=
  (formatString P format args).map fun s =>
    (s.count, runOutput printfOutputFunction [] s.output)

/-- `SprintfOutputFunction`: the context is the memory and the moving pointer. -/
def sprintfOutputFunction (context : (ℕ → UInt8) × ℕ) (c : UInt8) : (ℕ → UInt8) × ℕ :=
  (Function.update context.1 context.2 c, context.2 + 1)

/-- `sprintf` into the memory at address `buffer`: the returned value and the memory. -/
def sprintf (memory : ℕ → UInt8) (buffer : ℕ) (format : List UInt8) (args : σ) :
    Option (ℤ × (ℕ → UInt8)) :=
  (formatString P format args).map fun s =>
    let context := runOutput sprintfOutputFunction (memory, buffer) s.output
    (s.count, Function.update context.1 context.2 0)

end

/-- One argument of a call, with its promoted type. -/
inductive Arg
  | int (value : BitVec 32)
  | long (value : BitVec 32)
  | longLong (value : BitVec 64)
  | string (value : Option CString)
  | double (value : BitVec 64)
  deriving DecidableEq

/-- Argument lists as lists of typed arguments. Taking an argument of another type,
or from an empty list, is undefined in C; here it yields zero. The functions of
`<math.h>` leave their argument alone, as they may for a format without `%f`. -/
def argPlatform : Platform (List Arg) where
  vaInt
    | .int value :: args => (value, args)
    | args => (0, args)
  vaLong
    | .long value :: args => (value, args)
    | args => (0, args)
  vaLongLong
    | .longLong value :: args => (value, args)
    | args => (0, args)
  vaString
    | .string value :: args => (value, args)
    | args => (none, args)
  vaDouble
    | .double value :: args => (value, args)
    | args => (0, args)
  addHalfUnit value _ := value
  normalize value := (0, value)

end WifiMcu.Format
