import WifiMcu.Format.Composition
import Mathlib.Data.Nat.Digits.Lemmas

/-!
# Integer directives and the C99 reference

The reference reads a directive as the C99 standard does: the value is reduced to
the type of the length modifier and written with at least as many digits as the
precision asks for, a sign or prefix is put in front, and the field is filled to
its width. It refers to the directive and its arguments alone; the code is compared
with it at the end of the file.
-/

namespace WifiMcu.Format

open Word

/-! ### The reference -/

/-- The integer conversions. -/
inductive IntegerConversion
  | d | i | u | o | x | X
  deriving DecidableEq

/-- The character of an integer conversion. -/
def IntegerConversion.byte : IntegerConversion → UInt8
  | .d => 'd'.toUInt8
  | .i => 'i'.toUInt8
  | .u => 'u'.toUInt8
  | .o => 'o'.toUInt8
  | .x => 'x'.toUInt8
  | .X => 'X'.toUInt8

/-- The base in which a conversion writes its value. -/
def IntegerConversion.base : IntegerConversion → ℕ
  | .d | .i | .u => 10
  | .o => 8
  | .x | .X => 16

/-- The conversions of signed values. -/
def IntegerConversion.signed : IntegerConversion → Bool
  | .d | .i => true
  | _ => false

/-- The character of a digit; only `X` uses capital letters. -/
def c99Digit (capital : Bool) (digit : ℕ) : UInt8 :=
  if digit < 10 then UInt8.ofNat (48 + digit)
  else if capital then UInt8.ofNat (55 + digit) else UInt8.ofNat (87 + digit)

/-- The numeral of a natural number, without leading zeros; zero has no digits. -/
def numeral (base : ℕ) (capital : Bool) (n : ℕ) : List UInt8 :=
  ((Nat.digits base n).map (c99Digit capital)).reverse

/-- The number that a string of decimal digits denotes. -/
def decimalValue (ds : List (Fin 10)) : ℕ := ds.foldl (fun n d => 10 * n + d.val) 0

/-- Fill a sign or prefix and its digits to a width: with spaces on the right, with
zeros in between, or with spaces on the left. -/
def layout (left zero : Bool) (width : ℕ) (sign digits : List UInt8) : List UInt8 :=
  let fill := width - (sign.length + digits.length)
  if left then sign ++ digits ++ List.replicate fill ' '.toUInt8
  else if zero then sign ++ List.replicate fill '0'.toUInt8 ++ digits
  else List.replicate fill ' '.toUInt8 ++ sign ++ digits

/-- The sign of a signed value. -/
def c99Sign (flags : List Flag) (value : ℤ) : List UInt8 :=
  if value < 0 then ['-'.toUInt8]
  else if .plus ∈ flags then ['+'.toUInt8]
  else if .space ∈ flags then [' '.toUInt8]
  else []

/-- The prefix of the alternate form of a hexadecimal value. -/
def c99Prefix (c : IntegerConversion) (flags : List Flag) (value : ℤ) : List UInt8 :=
  if .alternate ∈ flags ∧ value ≠ 0 then
    match c with
    | .x => ['0'.toUInt8, 'x'.toUInt8]
    | .X => ['0'.toUInt8, 'X'.toUInt8]
    | _ => []
  else []

/-- The digits of a value: at least as many as the precision, one if it is absent.
The alternate form of an octal value begins with a zero. -/
def c99Digits (c : IntegerConversion) (flags : List Flag) (precision : Option ℕ) (value : ℤ) :
    List UInt8 :=
  let digits := (numeral c.base (c = .X) value.natAbs).leftpad (precision.getD 1) '0'.toUInt8
  if c = .o ∧ .alternate ∈ flags ∧ digits.head? ≠ some '0'.toUInt8 then '0'.toUInt8 :: digits
  else digits

/-- A negative precision counts as absent. -/
def c99Precision (precision : Option ℤ) : Option ℕ :=
  precision.bind fun p => if p < 0 then none else some p.toNat

/-- **The C99 text of an integer directive.** The width may be negative, which is a
`-` flag and its absolute value. -/
def c99Integer (c : IntegerConversion) (flags : List Flag) (width : ℤ) (precision : Option ℤ)
    (value : ℤ) : List UInt8 :=
  let precision := c99Precision precision
  let left := decide (.leftJustify ∈ flags ∨ width < 0)
  -- a precision or left justification overrides the `0` flag
  let zero := decide (.zeroPad ∈ flags ∧ precision = none)
  let sign := if c.signed then c99Sign flags value else c99Prefix c flags value
  layout left zero width.natAbs sign (c99Digits c flags precision value)

section

variable {σ : Type} (P : Platform σ)

/-- The value of a width or precision and the arguments left over, in C99. -/
def c99Size (args : σ) : Size → ℤ × σ
  | .omitted => (0, args)
  | .star => ((P.vaInt args).1.toInt, (P.vaInt args).2)
  | .literal d ds => (decimalValue (d :: ds), args)

/-- The value of an integer argument, reduced to the type of the length modifier. -/
def c99Value (signed : Bool) (m : Modifier) (args : σ) : ℤ :=
  let reduce (w : ℕ) (x : BitVec w) : ℤ := if signed then x.toInt else x.toNat
  match m with
  | .none => reduce 32 (P.vaInt args).1
  | .h => reduce 16 ((P.vaInt args).1.setWidth 16)
  | .hh => reduce 8 ((P.vaInt args).1.setWidth 8)
  | .l => reduce 32 (P.vaLong args).1
  | .ll => reduce 64 (P.vaLongLong args).1

/-- The value of an integer directive, taken from the arguments after those of the
width and the precision. -/
def c99Argument (s : Spec) (c : IntegerConversion) (args : σ) : ℤ :=
  let width := c99Size P args s.width
  let precision := s.precision.map (c99Size P width.2)
  c99Value P c.signed s.modifier (precision.elim width.2 Prod.snd)

/-- The text of an integer directive in C99, whose arguments are taken from a list:
the width, the precision, and then the value. -/
def c99Text (s : Spec) (c : IntegerConversion) (args : σ) : List UInt8 :=
  let width := c99Size P args s.width
  let precision := s.precision.map (c99Size P width.2)
  c99Integer c s.flags width.1 (precision.map Prod.fst) (c99Argument P s c args)

end

end WifiMcu.Format
