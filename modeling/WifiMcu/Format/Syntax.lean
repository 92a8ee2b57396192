import Mathlib.Data.List.Basic
import Mathlib.Tactic.Common

/-!
# Format strings as syntax

`FormatString` reads its format byte by byte. This file describes the same bytes
as a sequence of pieces: literal bytes, `%%`, complete directives, and at most
one directive that the end of the string cuts off. A directive is kept with the
spelling it has in the format, so that `bytes` recovers the string exactly.
-/

namespace WifiMcu.Format

/-- The five flag characters of a directive. -/
inductive Flag
  | alternate | leftJustify | zeroPad | plus | space
  deriving DecidableEq

/-- The character of a flag. -/
def Flag.byte : Flag → UInt8
  | .alternate => '#'.toUInt8
  | .leftJustify => '-'.toUInt8
  | .zeroPad => '0'.toUInt8
  | .plus => '+'.toUInt8
  | .space => ' '.toUInt8

/-- The flag a character stands for, if it is one. -/
def Flag.ofByte (c : UInt8) : Option Flag :=
  if c = '#'.toUInt8 then some .alternate
  else if c = '-'.toUInt8 then some .leftJustify
  else if c = '0'.toUInt8 then some .zeroPad
  else if c = '+'.toUInt8 then some .plus
  else if c = ' '.toUInt8 then some .space
  else none

/-- Reading the character of a flag gives the flag back. -/
@[simp] theorem Flag.ofByte_byte (f : Flag) : Flag.ofByte f.byte = some f := by
  cases f <;> decide

/-- Only the character of a flag reads as that flag. -/
theorem Flag.byte_of_ofByte {c : UInt8} {f : Flag} (h : Flag.ofByte c = some f) :
    f.byte = c := by
  unfold Flag.ofByte at h
  split_ifs at h with halternate hleft hzero hplus hspace
  all_goals obtain rfl := Option.some.inj h
  · exact halternate.symm
  · exact hleft.symm
  · exact hzero.symm
  · exact hplus.symm
  · exact hspace.symm

/-- The test `*format >= '0' && *format <= '9'`. -/
def isDigit (c : UInt8) : Bool := '0'.toUInt8 ≤ c && c ≤ '9'.toUInt8

/-- The character of a decimal digit. -/
def digitByte (d : Fin 10) : UInt8 := '0'.toUInt8 + UInt8.ofNat d.val

/-- The value `*format - '0'` of a digit character. -/
def digitOfByte (c : UInt8) : Fin 10 := Fin.ofNat 10 (c.toNat - 48)

/-- The character of a digit passes the digit test. -/
@[simp] theorem isDigit_digitByte (d : Fin 10) : isDigit (digitByte d) = true := by
  revert d; decide

/-- The value of the character of a digit is the digit. -/
@[simp] theorem digitOfByte_digitByte (d : Fin 10) : digitOfByte (digitByte d) = d := by
  revert d; decide

/-- The numerical value the code computes from the character of a digit. -/
@[simp] theorem digitByte_toNat (d : Fin 10) : (digitByte d).toNat = 48 + d.val := by
  revert d; decide

/-- A character that passes the digit test is the character of its value. -/
theorem digitByte_digitOfByte {c : UInt8} (h : isDigit c = true) :
    digitByte (digitOfByte c) = c := by
  have hrange : '0'.toUInt8.toNat ≤ c.toNat ∧ c.toNat ≤ '9'.toUInt8.toNat := by
    simpa only [isDigit, Bool.and_eq_true, decide_eq_true_eq, UInt8.le_iff_toNat_le] using h
  obtain ⟨hlow, hhigh⟩ : 48 ≤ c.toNat ∧ c.toNat ≤ 57 := hrange
  apply UInt8.toNat_inj.mp
  rw [digitByte_toNat]
  simp only [digitOfByte, Fin.ofNat]
  omega

/-- A field width, or what follows the `.` of a precision: nothing, a `*`, or a
nonempty string of digits. -/
inductive Size
  | omitted
  | star
  | literal (first : Fin 10) (others : List (Fin 10))
  deriving DecidableEq

/-- The characters of a width or precision. -/
def Size.bytes : Size → List UInt8
  | .omitted => []
  | .star => ['*'.toUInt8]
  | .literal d ds => digitByte d :: ds.map digitByte

/-- The length modifiers `ParseLengthModifier` knows. -/
inductive Modifier
  | none | h | hh | l | ll
  deriving DecidableEq

/-- The characters of a length modifier. -/
def Modifier.bytes : Modifier → List UInt8
  | .none => []
  | .h => ['h'.toUInt8]
  | .hh => ['h'.toUInt8, 'h'.toUInt8]
  | .l => ['l'.toUInt8]
  | .ll => ['l'.toUInt8, 'l'.toUInt8]

/-- What stands between the `%` and the conversion character of a directive. A
width that begins with `0` does not exist: that `0` is a flag. -/
structure Spec where
  flags : List Flag
  width : Size
  precision : Option Size
  modifier : Modifier
  width_wf : ∀ ds, width ≠ .literal 0 ds
  deriving DecidableEq

/-- The characters of the precision, with its `.`. -/
def precisionBytes : Option Size → List UInt8
  | none => []
  | some p => '.'.toUInt8 :: p.bytes

/-- Only a width that is left out has no characters. -/
theorem Size.bytes_eq_nil_iff {s : Size} : s.bytes = [] ↔ s = .omitted := by
  cases s <;> simp [Size.bytes]

/-- Only a precision that is left out has no characters. -/
theorem precisionBytes_eq_nil_iff {p : Option Size} : precisionBytes p = [] ↔ p = none := by
  cases p <;> simp [precisionBytes]

/-- Only the absent length modifier has no characters. -/
theorem Modifier.bytes_eq_nil_iff {m : Modifier} : m.bytes = [] ↔ m = .none := by
  cases m <;> simp [Modifier.bytes]

/-- A length modifier is written with the letters `h` and `l`. -/
theorem Modifier.mem_bytes {m : Modifier} {c : UInt8} (h : c ∈ m.bytes) :
    c = 'h'.toUInt8 ∨ c = 'l'.toUInt8 := by
  cases m with
  | none => cases h
  | h | hh => exact Or.inl (by simpa [Modifier.bytes] using h)
  | l | ll => exact Or.inr (by simpa [Modifier.bytes] using h)

/-- The characters of a specification. -/
def Spec.bytes (s : Spec) : List UInt8 :=
  s.flags.map Flag.byte ++ (s.width.bytes ++ (precisionBytes s.precision ++ s.modifier.bytes))

/-- A width or precision is continued by a digit, and an empty one by a `*` too. -/
def Size.absorbs (c : UInt8) : Size → Bool
  | .omitted => isDigit c || c == '*'.toUInt8
  | .star => false
  | .literal _ _ => isDigit c

/-- A length modifier is continued by a second `h` or `l`. -/
def Modifier.absorbs (c : UInt8) : Modifier → Bool
  | .none => c == 'h'.toUInt8 || c == 'l'.toUInt8
  | .h => c == 'h'.toUInt8
  | .l => c == 'l'.toUInt8
  | .hh => false
  | .ll => false

/-- The characters that continue the flags, the width or the precision of a
specification without a length modifier. -/
def Spec.sizesAbsorb (s : Spec) (c : UInt8) : Bool :=
  match s.precision with
  | some p => p.absorbs c
  | none => c == '.'.toUInt8 || s.width.absorbs c ||
      (s.width == .omitted && (Flag.ofByte c).isSome)

/-- The characters that the last component present would swallow. No conversion
character is one of these. -/
def Spec.absorbs (s : Spec) (c : UInt8) : Bool :=
  s.modifier.absorbs c || (s.modifier == .none && s.sizesAbsorb c)

/-- What follows a specification does not continue it. -/
def Spec.Stops (s : Spec) (rest : List UInt8) : Prop :=
  ∀ c, rest.head? = some c → s.absorbs c = false

/-- A complete directive: a specification and its conversion character. The
conversion may be unknown, but it is neither NUL nor part of the specification,
and `%%` is not a directive. -/
structure Directive where
  spec : Spec
  conversion : UInt8
  conversion_ne_nul : conversion ≠ 0
  not_absorbed : spec.absorbs conversion = false
  not_percent : spec.bytes = [] → conversion ≠ '%'.toUInt8
  deriving DecidableEq

/-- The characters of a directive after its `%`. -/
def Directive.tail (d : Directive) : List UInt8 := d.spec.bytes ++ [d.conversion]

/-- One complete piece of a format string. -/
inductive Piece
  | literal (c : UInt8) (not_nul : c ≠ 0) (not_percent : c ≠ '%'.toUInt8)
  | percent
  | directive (d : Directive)
  deriving DecidableEq

/-- The characters of a piece. -/
def Piece.bytes : Piece → List UInt8
  | .literal c _ _ => [c]
  | .percent => ['%'.toUInt8, '%'.toUInt8]
  | .directive d => '%'.toUInt8 :: d.tail

/-- The characters of a directive that the end of the string cuts off before its
conversion character. -/
def truncatedBytes : Option Spec → List UInt8
  | none => []
  | some s => '%'.toUInt8 :: s.bytes

/-- A format string: complete pieces and at most one truncated directive. -/
structure Split where
  pieces : List Piece
  truncated : Option Spec
  deriving DecidableEq

/-- The format string that a splitting spells. -/
def Split.bytes (s : Split) : List UInt8 :=
  s.pieces.flatMap Piece.bytes ++ truncatedBytes s.truncated

end WifiMcu.Format
