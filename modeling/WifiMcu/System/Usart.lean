import WifiMcu.Library.Rounding
import WifiMcu.System.Clocks
import Mathlib.Data.Rat.Floor

/-!
# The baud rate of a USART

`USART.h` divides the clock of the peripheral by the baud rate and writes the quotient to
the baud rate register. With oversampling by 8 the three lowest bits are set apart from the
rest by a bit that is kept 0, and the hardware puts the two parts together again.
-/

namespace WifiMcu.System

open Bits

/-- The USARTs on the APB2, `USART1` and `USART6`, at their addresses. -/
def usart1 : BitVec 32 := 0x40011000

@[inherit_doc usart1] def usart6 : BitVec 32 := 0x40011400

/-- `USART_CR1_OVER8`: oversampling by 8 instead of 16. -/
def usartCr1Over8 : BitVec 32 := 0x00008000

/-- What `PCLK1Frequency` and `PCLK2Frequency` return. -/
structure ApbClocks where
  pclk1 : BitVec 32
  pclk2 : BitVec 32

/-- What they return for the contents of `RCC->CFGR` and `RCC->PLLCFGR`. -/
def apbClocks (build : Build) (cfgr pllcfgr : BitVec 32) : ApbClocks where
  pclk1 := pclk1Frequency build cfgr pllcfgr
  pclk2 := pclk2Frequency build cfgr pllcfgr

/-- A USART: its address, and those of its registers that set the baud rate. -/
structure Usart where
  address : BitVec 32
  brr : BitVec 32
  cr1 : BitVec 32
deriving DecidableEq

namespace Usart

/-- The clock that a USART runs on, `clock`. -/
def clock (usart : Usart) (clocks : ApbClocks) : BitVec 32 :=
  if usart.address = usart1 ∨ usart.address = usart6 then clocks.pclk2 else clocks.pclk1

/-- Whether a USART samples 8 times a bit. -/
def over8 (usart : Usart) : Bool := decide (usart.cr1 &&& usartCr1Over8 ≠ 0)

/-- The local variable `divider`. -/
def divider (usart : Usart) (clocks : ApbClocks) (baudrate : BitVec 32) : BitVec 32 :=
  (usart.clock clocks + baudrate / 2) / baudrate

end Usart

/-- `SetUSARTBaudRate`. -/
def setUsartBaudRate (clocks : ApbClocks) (usart : Usart) (baudrate : BitVec 32) : Usart :=
  let divider := usart.divider clocks baudrate
  if usart.over8 then
    { usart with brr := ((divider &&& ~~~0x7) <<< 1) ||| (divider &&& 0x7) }
  else { usart with brr := divider }

/-! ### The hardware -/

namespace Usart

/-- The divider that the hardware recovers from the register. -/
def recovered (usart : Usart) : ℕ :=
  if usart.over8 then 8 * field usart.brr 4 12 + field usart.brr 0 3 else field usart.brr 0 16

/-- The dividers that the register has room for. -/
def dividerLimit (usart : Usart) : ℕ := if usart.over8 then 2 ^ 15 else 2 ^ 16

/-- The baud rate register holds a divider nearest to the quotient of the clock and the baud
rate, and its reserved bits are 0. -/
structure RunsAt (usart : Usart) (clock baudrate : ℕ) : Prop where
  error_le : |(clock : ℚ) - usart.recovered * baudrate| ≤ baudrate / 2
  nearest : ∀ n : ℤ, |(clock : ℚ) / baudrate - usart.recovered| ≤ |(clock : ℚ) / baudrate - n|
  reserved : usart.brr.toNat < 2 ^ 16
  kept : usart.over8 = true → usart.brr.getLsbD 3 = false

end Usart

section

variable {clocks : ApbClocks} {usart : Usart} {baudrate : BitVec 32}

/-! ### What is written -/

/-- The baud rate is set with the oversampling as it is. -/
@[simp] theorem over8_setUsartBaudRate :
    (setUsartBaudRate clocks usart baudrate).over8 = usart.over8 := by
  unfold setUsartBaudRate
  dsimp only
  split_ifs <;> rfl

/-- The value that is written to `BRR`. -/
theorem brr_setUsartBaudRate : (setUsartBaudRate clocks usart baudrate).brr =
    if usart.over8 then ((usart.divider clocks baudrate &&& ~~~0x7) <<< 1) |||
      (usart.divider clocks baudrate &&& 0x7)
    else usart.divider clocks baudrate := by
  unfold setUsartBaudRate
  dsimp only
  split_ifs <;> rfl

/-- The three lowest bits of the divider stay where they are, and the others move up by
one. -/
theorem getLsbD_split (divider : BitVec 32) {i : ℕ} (hi : i < 32) :
    (((divider &&& ~~~0x7) <<< 1) ||| (divider &&& 0x7)).getLsbD i =
      if i < 3 then divider.getLsbD i else decide (3 < i) && divider.getLsbD (i - 1) := by
  have hmask : ∀ j < 32, (0x7 : BitVec 32).getLsbD j = decide (j < 3) := by decide
  have hprev : i - 1 < 32 := by omega
  rw [BitVec.getLsbD_or, BitVec.getLsbD_shiftLeft, getLsbD_and_not, BitVec.getLsbD_and,
    hmask i hi, hmask (i - 1) hprev]
  split_ifs with hlow
  · have hbelow : i - 1 < 3 := by omega
    simp [hlow, hbelow]
  · have habove : decide (3 < i) = !decide (i - 1 < 3) := by
      rw [← decide_not, decide_eq_decide]
      omega
    have hshifted : ¬ i < 1 := by omega
    rw [habove]
    simp [hi, hlow, hshifted, Bool.and_comm]

/-- The two parts of a split divider are two parts of the divider. -/
theorem field_split (divider : BitVec 32) :
    field (((divider &&& ~~~0x7) <<< 1) ||| (divider &&& 0x7)) 0 3 = field divider 0 3 ∧
      field (((divider &&& ~~~0x7) <<< 1) ||| (divider &&& 0x7)) 4 12 = field divider 3 12 := by
  constructor
  · apply field_congr
    intro i hi
    rw [getLsbD_split divider (by omega), if_pos (by omega)]
  · apply field_eq (field_lt divider 3 12)
    intro i hi
    have habove : 3 < 4 + i := by omega
    have hprev : 4 + i - 1 = 3 + i := by omega
    rw [getLsbD_split divider (by omega), if_neg (by omega), testBit_field, hprev]
    simp [habove, hi]

/-- The hardware recovers the divider, as far as the register has room for it. -/
theorem recovered_setUsartBaudRate :
    (setUsartBaudRate clocks usart baudrate).recovered =
      (usart.divider clocks baudrate).toNat % usart.dividerLimit := by
  rw [Usart.recovered, over8_setUsartBaudRate, brr_setUsartBaudRate, Usart.dividerLimit]
  cases usart.over8 with
  | true =>
    obtain ⟨hlow, hhigh⟩ := field_split (usart.divider clocks baudrate)
    rw [if_pos rfl, if_pos rfl, if_pos rfl, hlow, hhigh, Nat.add_comm]
    have hjoin := field_add (usart.divider clocks baudrate) 0 3 12
    rw [field_eq_mod _ 0 (3 + 12), Nat.pow_zero, Nat.div_one] at hjoin
    exact hjoin.symm
  | false =>
    rw [if_neg Bool.false_ne_true, if_neg Bool.false_ne_true, if_neg Bool.false_ne_true,
      field_eq_mod, Nat.pow_zero, Nat.div_one]

/-- A divider that the register has room for leaves the reserved bits 0. -/
theorem brr_setUsartBaudRate_lt
    (hfits : (usart.divider clocks baudrate).toNat < usart.dividerLimit) :
    (setUsartBaudRate clocks usart baudrate).brr.toNat < 2 ^ 16 := by
  rw [brr_setUsartBaudRate]
  rw [Usart.dividerLimit] at hfits
  cases hover : usart.over8 with
  | true =>
    rw [hover, if_pos rfl] at hfits
    rw [if_pos rfl]
    apply Nat.lt_pow_two_of_testBit
    intro i hi
    rw [BitVec.testBit_toNat]
    by_cases hlt : i < 32
    · have hbit : (usart.divider clocks baudrate).getLsbD (i - 1) = false := by
        rw [← BitVec.testBit_toNat]
        exact Nat.testBit_lt_two_pow
          (hfits.trans_le (Nat.pow_le_pow_right (by decide) (by omega)))
      rw [getLsbD_split _ hlt, if_neg (by omega), hbit, Bool.and_false]
    · exact BitVec.getLsbD_of_ge _ i (Nat.not_lt.mp hlt)
  | false =>
    rwa [hover, if_neg Bool.false_ne_true] at hfits

/-! ### The divider -/

/-- Without overflow the divider is the rounded quotient. -/
theorem toNat_divider
    (hsum : (usart.clock clocks).toNat + baudrate.toNat / 2 < 2 ^ 32) :
    (usart.divider clocks baudrate).toNat =
      ((usart.clock clocks).toNat + baudrate.toNat / 2) / baudrate.toNat := by
  have hhalf : (baudrate / 2).toNat = baudrate.toNat / 2 := BitVec.toNat_udiv
  rw [Usart.divider, BitVec.toNat_udiv, BitVec.toNat_add, hhalf, Nat.mod_eq_of_lt hsum]

/-- The hardware recovers the divider if it fits into the register. -/
theorem recovered_of_fits
    (hfits : (usart.divider clocks baudrate).toNat < usart.dividerLimit) :
    (setUsartBaudRate clocks usart baudrate).recovered =
      (usart.divider clocks baudrate).toNat := by
  rw [recovered_setUsartBaudRate, Nat.mod_eq_of_lt hfits]

/-- Without overflow a divider that fits is the nearest one. -/
theorem runsAt_setUsartBaudRate (hbaudrate : 0 < baudrate.toNat)
    (hsum : (usart.clock clocks).toNat + baudrate.toNat / 2 < 2 ^ 32)
    (hfits : (usart.divider clocks baudrate).toNat < usart.dividerLimit) :
    (setUsartBaudRate clocks usart baudrate).RunsAt (usart.clock clocks).toNat
      baudrate.toNat := by
  have hdivider := toNat_divider hsum
  have hrecovered := recovered_of_fits hfits
  refine ⟨?_, fun n => ?_, brr_setUsartBaudRate_lt hfits, fun hover => ?_⟩
  · rw [hrecovered, hdivider]
    exact Rounding.abs_sub_round_div_mul_le hbaudrate _
  · have hround := Rounding.round_div (α := ℚ) hbaudrate (usart.clock clocks).toNat
    have hle := round_le ((usart.clock clocks).toNat / baudrate.toNat : ℚ) n
    rwa [hround, Int.cast_natCast, ← hdivider, ← hrecovered] at hle
  · rw [over8_setUsartBaudRate] at hover
    rw [brr_setUsartBaudRate, if_pos hover]
    exact getLsbD_split _ (by decide)

/-- **The baud rate.** If the divider fits into the register, the hardware recovers from it
an integer that is nearest to the quotient of the clock and the baud rate. With the other
oversampling it recovers the same integer, if this fits as well. -/
theorem setUsartBaudRate_nearest (clocks : ApbClocks) (usart : Usart) (baudrate : BitVec 32)
    (hbaudrate : 0 < baudrate.toNat)
    (hsum : (usart.clock clocks).toNat + baudrate.toNat / 2 < 2 ^ 32)
    (hfits : (usart.divider clocks baudrate).toNat < usart.dividerLimit) :
    (setUsartBaudRate clocks usart baudrate).RunsAt (usart.clock clocks).toNat baudrate.toNat ∧
      ∀ cr1, (usart.divider clocks baudrate).toNat < { usart with cr1 }.dividerLimit →
        (setUsartBaudRate clocks { usart with cr1 } baudrate).recovered =
          (setUsartBaudRate clocks usart baudrate).recovered := by
  refine ⟨runsAt_setUsartBaudRate hbaudrate hsum hfits, fun cr1 hfits' => ?_⟩
  -- the divider does not depend on the oversampling
  exact (recovered_of_fits hfits').trans (recovered_of_fits hfits).symm

end

/-- `USART2` with oversampling by 8, on the clock that the board gives it. -/
theorem setUsartBaudRate_nearest_usart2 :
    (setUsartBaudRate (apbClocks ⟨26000000, by decide⟩ 0x0000940A 0x00424B0D)
      ⟨0x40004400, 0, 0xA008⟩ 115200).RunsAt 25000000 115200 := by
  have hclock : (Usart.clock ⟨0x40004400, 0, 0xA008⟩
      (apbClocks ⟨26000000, by decide⟩ 0x0000940A 0x00424B0D)).toNat = 25000000 := by
    decide
  have hnearest := setUsartBaudRate_nearest
    (apbClocks ⟨26000000, by decide⟩ 0x0000940A 0x00424B0D) ⟨0x40004400, 0, 0xA008⟩ 115200
    (by decide) (by decide) (by decide)
  rw [hclock] at hnearest
  exact hnearest.1

/-- There the register reads 0x1B1, which stands for 217. -/
example : (setUsartBaudRate (apbClocks ⟨26000000, by decide⟩ 0x0000940A 0x00424B0D)
    ⟨0x40004400, 0, 0xA008⟩ 115200) = ⟨0x40004400, 0x1B1, 0xA008⟩ := by decide

end WifiMcu.System
