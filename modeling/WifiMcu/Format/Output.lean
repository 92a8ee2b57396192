import WifiMcu.Format.Parsers
import Mathlib.Data.List.Basic

/-!
# The output functions of FormatString.c

Every output function is modelled by the characters it hands to `outputfunc`, in
order, and the `int` it returns. The digit buffers are lists: how many bytes the
fixed arrays behind them have to hold is a question about the length of the list.
-/

namespace WifiMcu.Format

open Word

/-- The characters passed to `outputfunc` and the returned count. -/
structure Emitted where
  chars : List UInt8
  count : ℤ
  deriving DecidableEq

/-- A `for` loop that outputs the same character `n` times. -/
def repeatChar (c : Char) (n : ℤ) : List UInt8 := List.replicate n.toNat c.toUInt8

/-- The length of a prefix as `OutputDigitString` counts it: 0, 1 or 2. -/
def numPrefix : Option (List UInt8) → ℕ
  | none => 0
  | some [] => 0
  | some [_] => 1
  | some (_ :: _ :: _) => 2

/-- `OutputDigitString`. A null prefix is `none`; `numDigits` is the length of
`digitString`. -/
def outputDigitString (pre : Option (List UInt8)) (numExtraZeroes : ℤ) (digitString : List UInt8)
    (padRight : Bool) (width : ℤ) : Emitted :=
  let numDigits : ℤ := digitString.length
  -- a negative count asks for zero padding up to the width
  let numExtraZeroes :=
    if numExtraZeroes < 0 then max 0 (wrap32 (wrap32 (width - numDigits) - numPrefix pre))
    else numExtraZeroes
  let numCharacters := wrap32 (wrap32 (numDigits + numExtraZeroes) + numPrefix pre)
  let numPadding := max 0 (wrap32 (width - numCharacters))
  { chars :=
      (if padRight then [] else repeatChar ' ' numPadding) ++ (pre.getD []).take (numPrefix pre) ++
        repeatChar '0' numExtraZeroes ++ digitString ++
        (if padRight then repeatChar ' ' numPadding else [])
    count := wrap32 (numCharacters + numPadding) }

/-- The character that the digit loop stores for a digit. -/
def digitChar (firstLetter : UInt8) (digit : ℕ) : UInt8 :=
  if 10 ≤ digit then UInt8.ofNat digit - 10 + firstLetter else UInt8.ofNat digit + '0'.toUInt8

/-- The loop of `OutputUnsignedInteger` that stores the digits from the end of
the buffer backwards. -/
def digitLoop (base : ℕ) (hbase : 1 < base) (firstLetter : UInt8) (value : ℕ)
    (digitString : List UInt8) : List UInt8 :=
  if _ : value = 0 then digitString
  else digitLoop base hbase firstLetter (value / base)
    (digitChar firstLetter (value % base) :: digitString)
termination_by value
decreasing_by exact Nat.div_lt_self (Nat.pos_of_ne_zero ‹_›) hbase

/-- `OutputUnsignedInteger`. -/
def outputUnsignedInteger (value : BitVec 64) (base : ℕ) (hbase : 1 < base) (firstLetter : UInt8)
    (pre : Option (List UInt8)) (padRight padZero : Bool) (width precision : ℤ) : Emitted :=
  let digitString :=
    if value = 0 then (if precision ≠ 0 then ['0'.toUInt8] else [])
    else digitLoop base hbase firstLetter value.toNat []
  let numDigits : ℤ := digitString.length
  let numExtraZeroes :=
    if padZero = true ∧ precision < 0 then -1
    else max 0 (if pre = some ['0'.toUInt8] then wrap32 (wrap32 (precision - numDigits) - 1)
      else wrap32 (precision - numDigits))
  outputDigitString pre numExtraZeroes digitString padRight width

/-- The bases of the conversions have more than one digit. -/
theorem one_lt_eight : 1 < 8 := by decide

@[inherit_doc one_lt_eight] theorem one_lt_ten : 1 < 10 := by decide

@[inherit_doc one_lt_eight] theorem one_lt_sixteen : 1 < 16 := by decide

/-- `OutputSignedInteger`. -/
def outputSignedInteger (value : BitVec 64) (positivePrefix : Option (List UInt8))
    (padRight padZero : Bool) (width precision : ℤ) : Emitted :=
  if 0 ≤ value.toInt then
    outputUnsignedInteger value 10 one_lt_ten 0 positivePrefix padRight padZero width precision
  else
    outputUnsignedInteger (-value) 10 one_lt_ten 0 (some ['-'.toUInt8]) padRight padZero width
      precision

/-- The printing loop of `OutputString`. It ends at the NUL, which stands behind
the last byte of the list, or where the precision ends. -/
def copyString : Option ℕ → List UInt8 → List UInt8
  | _, [] => []
  | limit, c :: string =>
    if c ≠ 0 ∧ limit ≠ some 0 then c :: copyString (limit.map (· - 1)) string else []

/-- `OutputString`. A string is the bytes before its NUL. -/
def outputString (string : List UInt8) (padRight padZero : Bool) (width precision : ℤ) : Emitted :=
  let length := wrap32 (string.takeWhile (· ≠ 0)).length
  let length := if 0 ≤ precision ∧ precision < length then precision else length
  let left :=
    if 0 < width ∧ padRight = false then
      repeatChar (if padZero then '0' else ' ') (wrap32 (width - length))
    else []
  let text := copyString (if 0 ≤ precision then some precision.toNat else none) string
  let count := wrap32 (left.length + text.length)
  { chars := left ++ text ++ repeatChar ' ' (width - count)
    count := max count width }

/-- The digit loop of `ConvertFloatingPoint`, from index `i` on. -/
def fixedPointDigits (firstDigit decimalPoint : ℤ) :
    (remaining : ℕ) → (i : ℤ) → (mant : BitVec 64) → List UInt8
  | 0, _, _ => []
  | remaining + 1, i, mant =>
    if i = decimalPoint then
      '.'.toUInt8 :: fixedPointDigits firstDigit decimalPoint remaining (i + 1) mant
    else if i < firstDigit then
      '0'.toUInt8 :: fixedPointDigits firstDigit decimalPoint remaining (i + 1) mant
    else
      let mant := (mant &&& 0x00ffffffffffffff#64) * 10#64
      UInt8.ofNat ((mant >>> 56).toNat + 48) ::
        fixedPointDigits firstDigit decimalPoint remaining (i + 1) mant

/-- The loop stores as many characters as it is told to. -/
theorem length_fixedPointDigits (firstDigit decimalPoint : ℤ) (n : ℕ) (i : ℤ) (mant : BitVec 64) :
    (fixedPointDigits firstDigit decimalPoint n i mant).length = n := by
  induction n generalizing i mant with
  | zero => rfl
  | succ n ih =>
    rw [fixedPointDigits]
    split_ifs
    · rw [List.length_cons, ih]
    · rw [List.length_cons, ih]
    · dsimp only
      rw [List.length_cons, ih]

/-- The exponent field of a double, without its bias. -/
def exponent2 (x : BitVec 64) : ℤ := ((x >>> 52) &&& 0x7ff#64).toNat - 1023

/-- The fraction field of a double. -/
def fraction (x : BitVec 64) : BitVec 64 := x &&& 0x000fffffffffffff#64

/-- How `ConvertFloatingPoint` classifies its argument. -/
inductive FloatClass
  | finite | inf | nan
  deriving DecidableEq

section

variable {σ : Type} (P : Platform σ)

/-- `ConvertFloatingPoint`: the bytes stored in the buffer and the class. -/
def convertFloatingPoint (absvalue : BitVec 64) (precision : ℤ) (forcePeriod upperCase : Bool) :
    List UInt8 × FloatClass :=
  let absvalue := P.addHalfUnit absvalue precision
  let letters (s : List Char) := s.map fun c => if upperCase then c.toUInt8 else c.toUInt8 + 32
  if exponent2 absvalue = 0x400 then
    if fraction absvalue ≠ 0 then (letters ['N', 'A', 'N'], .nan)
    else (letters ['I', 'N', 'F'], .inf)
  else
    let (exp10, absvalue) := P.normalize absvalue
    let numberOfDigits := if 0 < exp10 then exp10 + precision + 1 else precision + 2
    let firstDigit := if 0 < exp10 then 0 else -exp10 + 2
    let decimalPoint := if 0 < exp10 then exp10 else 1
    let numberOfDigits :=
      if precision = 0 ∧ forcePeriod = false then numberOfDigits - 1 else numberOfDigits
    let exp2 := if exponent2 absvalue = -1023 then -1022 else exponent2 absvalue
    let mant := if exponent2 absvalue = -1023 then fraction absvalue
      else fraction absvalue ||| 0x0010000000000000#64
    let mant := mant <<< (exp2 + 4).toNat
    (fixedPointDigits firstDigit decimalPoint numberOfDigits.toNat 0 mant, .finite)

/-- `OutputFloatingPoint`. -/
def outputFloatingPoint (value : BitVec 64) (positivePrefix : Option (List UInt8))
    (padRight padZero forcePeriod upperCase : Bool) (width precision : ℤ) : Emitted :=
  let absvalue := if value.msb = false then value else value ^^^ 0x8000000000000000#64
  let pre := if value.msb = false then positivePrefix else some ['-'.toUInt8]
  let precision := if precision < 0 then 6 else precision
  let precision := if 100 < precision then 100 else precision
  let numExtraZeroes := if padZero then -1 else 0
  let (buffer, kind) := convertFloatingPoint P absvalue precision forcePeriod upperCase
  let numExtraZeroes := if kind = .finite then numExtraZeroes else 0
  let pre := if kind = .nan then none else pre
  outputDigitString pre numExtraZeroes buffer padRight width

end

end WifiMcu.Format
