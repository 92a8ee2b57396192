import Mathlib.Data.Finset.SymmDiff
import Mathlib.Data.Fintype.Basic
import WifiMcu.Library.Transition
import WifiMcu.Gpio.Port

/-!
# The LEDs

The LEDs of a board are on neighbouring pins of one port. The functions of `LED.h` write to
the output register of this port in three ways. They are compared with a set of LEDs that
are lit, next to the other pins of the port.
-/

namespace WifiMcu.Gpio

open Bits Transition

/-- `NumberOfLEDs`, `FirstLEDPin` and `LEDsAreInverted` of a board. -/
structure Board where
  numberOfLeds : ℕ
  firstLedPin : ℕ
  ledsAreInverted : Bool
  fits : firstLedPin + numberOfLeds ≤ 16

variable (b : Board)

/-- `LEDMask`. -/
def Board.ledMask : BitVec 32 := (1#32 <<< b.numberOfLeds) - 1#32

/-- `SetLEDs`. -/
def setLeds (leds : BitVec 32) (gpio : Port) : Port :=
  let val : BitVec 16 := gpio.readOdr.setWidth 16
  let val : BitVec 16 := (val.setWidth 32 &&& ~~~(b.ledMask <<< b.firstLedPin)).setWidth 16
  let leds := if b.ledsAreInverted then leds ^^^ b.ledMask else leds
  let val : BitVec 16 := (val.setWidth 32 ||| leds <<< b.firstLedPin).setWidth 16
  gpio.writeOdr (val.setWidth 32)

/-- The pins that `ToggleLEDs`, `TurnOnLEDs` and `TurnOffLEDs` pass on. -/
def Board.pins (leds : BitVec 32) : BitVec 16 :=
  ((leds &&& b.ledMask) <<< b.firstLedPin).setWidth 16

/-- `ToggleLEDs`. -/
def toggleLeds (leds : BitVec 32) (gpio : Port) : Port := toggleGPIOPins (b.pins leds) gpio

/-- `TurnOnLEDs`. -/
def turnOnLeds (leds : BitVec 32) (gpio : Port) : Port := setGPIOPinsHigh (b.pins leds) gpio

/-- `TurnOffLEDs`. -/
def turnOffLeds (leds : BitVec 32) (gpio : Port) : Port := setGPIOPinsLow (b.pins leds) gpio

/-- The calls of the driver. -/
inductive LedCall
  | setLeds (leds : BitVec 32)
  | turnOnLeds (leds : BitVec 32)
  | turnOffLeds (leds : BitVec 32)
  | toggleLeds (leds : BitVec 32)
  deriving DecidableEq

/-- What a call does. -/
def Port.ledCall (gpio : Port) : LedCall → Port
  | .setLeds leds => setLeds b leds gpio
  | .turnOnLeds leds => turnOnLeds b leds gpio
  | .turnOffLeds leds => turnOffLeds b leds gpio
  | .toggleLeds leds => toggleLeds b leds gpio

/-- The LEDs that are lit, and the levels of the pins that are not LEDs. -/
@[ext] structure LedState where
  lit : Finset (Fin b.numberOfLeds)
  others : Finset (Fin 16)
  deriving DecidableEq

/-- A pin of the port is an LED. -/
def Board.IsLedPin (pin : ℕ) : Prop :=
  b.firstLedPin ≤ pin ∧ pin < b.firstLedPin + b.numberOfLeds

instance : DecidablePred b.IsLedPin := fun _ => inferInstanceAs (Decidable (_ ∧ _))

/-- The LEDs that a port lights: those on high pins, or on low pins if the LEDs are
inverted. -/
def Port.leds (gpio : Port) : LedState b where
  lit := Finset.univ.filter fun led =>
    gpio.odr.getLsbD (b.firstLedPin + led) ≠ b.ledsAreInverted
  others := Finset.univ.filter fun pin => ¬ b.IsLedPin pin ∧ gpio.odr.getLsbD pin

/-- The LEDs that an argument names. -/
def Board.named (leds : BitVec 32) : Finset (Fin b.numberOfLeds) :=
  Finset.univ.filter fun led => leds.getLsbD led

/-- What a call is for: it sets the LEDs that are lit, adds or removes some, or toggles
some, and leaves the other pins alone. -/
def LedState.call (s : LedState b) : LedCall → LedState b
  | .setLeds leds => { s with lit := b.named leds }
  | .turnOnLeds leds => { s with lit := s.lit ∪ b.named leds }
  | .turnOffLeds leds => { s with lit := s.lit \ b.named leds }
  | .toggleLeds leds => { s with lit := symmDiff s.lit (b.named leds) }

/-- The calls that do what they are for: `SetLEDs` if the bits of its argument beyond the LEDs
belong to pins that are high already, `TurnOnLEDs` and `TurnOffLEDs` if the LEDs are not
inverted or none is named, `ToggleLEDs` if no pin of the port is high. -/
def LedCall.Right (gpio : Port) : LedCall → Prop
  | .setLeds leds => ∀ pin < 16, b.firstLedPin + b.numberOfLeds ≤ pin →
      leds.getLsbD (pin - b.firstLedPin) → gpio.odr.getLsbD pin
  | .turnOnLeds leds => b.ledsAreInverted → leds &&& b.ledMask = 0
  | .turnOffLeds leds => b.ledsAreInverted → leds &&& b.ledMask = 0
  | .toggleLeds _ => gpio.odr = 0

section Bits

/-- The bits of `LEDMask`. -/
theorem getLsbD_ledMask {i : ℕ} (hi : i < 32) :
    b.ledMask.getLsbD i = decide (i < b.numberOfLeds) := by
  rw [Board.ledMask, shiftLeft_sub_one, BitVec.getLsbD_ofNat, decide_eq_true hi, Bool.true_and,
    Nat.testBit_two_pow_sub_one]

/-- The bits of `LEDMask`, moved to the pins of the LEDs. -/
theorem getLsbD_ledMask_shiftLeft {pin : ℕ} (hpin : pin < 32) :
    (b.ledMask <<< b.firstLedPin).getLsbD pin = decide (b.IsLedPin pin) := by
  rw [Board.ledMask, shiftLeft_sub_one, getLsbD_fieldMask hpin, ← Bool.decide_and]
  rfl

/-- The pins that are passed on are those of the LEDs that are named. -/
theorem getLsbD_pins (leds : BitVec 32) {pin : ℕ} (hpin : pin < 16) :
    (b.pins leds).getLsbD pin =
      (decide (b.IsLedPin pin) && leds.getLsbD (pin - b.firstLedPin)) := by
  rw [Board.pins, BitVec.getLsbD_setWidth, BitVec.shiftLeft_and_distrib, BitVec.getLsbD_and,
    getLsbD_ledMask_shiftLeft b (by omega), BitVec.getLsbD_shiftLeft]
  by_cases hled : b.IsLedPin pin
  · have hfirst := hled.1
    simp [hled, hpin]
    omega
  · simp [hled]

/-- The polarity inverts the bits of the LEDs. -/
theorem getLsbD_inverted (leds : BitVec 32) {i : ℕ} (hi : i < 32) :
    (if b.ledsAreInverted then leds ^^^ b.ledMask else leds).getLsbD i =
      (leds.getLsbD i ^^ (b.ledsAreInverted && decide (i < b.numberOfLeds))) := by
  cases b.ledsAreInverted <;> simp [getLsbD_ledMask b hi]

variable (leds : BitVec 32) (gpio : Port) {pin : ℕ} (hpin : pin < 16)

include hpin

/-- The level of a pin after `SetLEDs`. -/
theorem getLsbD_setLeds :
    (setLeds b leds gpio).odr.getLsbD pin =
      if b.IsLedPin pin then leds.getLsbD (pin - b.firstLedPin) ^^ b.ledsAreInverted
      else gpio.odr.getLsbD pin ||
        (decide (b.firstLedPin ≤ pin) && leds.getLsbD (pin - b.firstLedPin)) := by
  have hpin' : pin < 32 := by omega
  simp only [setLeds, Port.readOdr, Port.writeOdr, BitVec.getLsbD_setWidth, getLsbD_and_not,
    BitVec.getLsbD_or, BitVec.getLsbD_shiftLeft, getLsbD_ledMask_shiftLeft b hpin',
    getLsbD_inverted b leds (by omega : pin - b.firstLedPin < 32), hpin, hpin', decide_true,
    Bool.true_and]
  split_ifs with hled
  · have hfirst : ¬ pin < b.firstLedPin := not_lt.mpr hled.1
    have hindex : pin - b.firstLedPin < b.numberOfLeds := Nat.sub_lt_left_of_lt_add hled.1 hled.2
    simp [hled, hfirst, hindex]
  · by_cases hfirst : b.firstLedPin ≤ pin
    · have habove : ¬ pin < b.firstLedPin + b.numberOfLeds := fun h => hled ⟨hfirst, h⟩
      have hindex : ¬ pin - b.firstLedPin < b.numberOfLeds := by omega
      simp [hled, hfirst, hindex, not_lt.mpr hfirst]
    · simp [hled, hfirst, not_le.mp hfirst]

/-- The level of a pin after `TurnOnLEDs`. -/
theorem getLsbD_turnOnLeds :
    (turnOnLeds b leds gpio).odr.getLsbD pin =
      (gpio.odr.getLsbD pin || (b.pins leds).getLsbD pin) := by
  simp [turnOnLeds, setGPIOPinsHigh, Port.writeBsrr, hpin]

/-- The level of a pin after `TurnOffLEDs`. -/
theorem getLsbD_turnOffLeds :
    (turnOffLeds b leds gpio).odr.getLsbD pin =
      (gpio.odr.getLsbD pin && !(b.pins leds).getLsbD pin) := by
  have hinside : 16 + pin < 32 := by omega
  have hupper : ¬ 16 + pin < 16 := by omega
  simp [turnOffLeds, setGPIOPinsLow, Port.writeBsrr, hpin, hinside, hupper]

/-- The level of a pin after `ToggleLEDs`. -/
theorem getLsbD_toggleLeds :
    (toggleLeds b leds gpio).odr.getLsbD pin = (b.pins leds).getLsbD pin := by
  simp [toggleLeds, toggleGPIOPins, Port.writeOdr, hpin]

end Bits

/-- The pin of an LED. -/
theorem isLedPin_add (led : Fin b.numberOfLeds) : b.IsLedPin (b.firstLedPin + led) :=
  ⟨Nat.le_add_right _ _, Nat.add_lt_add_left led.isLt _⟩

/-- The pin of an LED is a pin of the port. -/
theorem add_lt_sixteen (led : Fin b.numberOfLeds) : b.firstLedPin + led < 16 := by
  have hfits := b.fits
  have hled := led.isLt
  omega

/-- An LED pin is the pin of an LED. -/
theorem exists_led {pin : ℕ} (h : b.IsLedPin pin) :
    ∃ led : Fin b.numberOfLeds, pin = b.firstLedPin + led :=
  ⟨⟨pin - b.firstLedPin, Nat.sub_lt_left_of_lt_add h.1 h.2⟩, (Nat.add_sub_cancel' h.1).symm⟩

/-- What a port must be like to light some LEDs, and to have the other pins as another
port has them. -/
theorem leds_eq_iff {gpio gpio' : Port} {lit : Finset (Fin b.numberOfLeds)} :
    gpio'.leds b = { gpio.leds b with lit := lit } ↔
      (∀ led : Fin b.numberOfLeds,
        gpio'.odr.getLsbD (b.firstLedPin + led) = (decide (led ∈ lit) ^^ b.ledsAreInverted)) ∧
      ∀ pin < 16, ¬ b.IsLedPin pin → gpio'.odr.getLsbD pin = gpio.odr.getLsbD pin := by
  rw [LedState.ext_iff]
  refine and_congr ?_ ?_
  · rw [Finset.ext_iff]
    refine forall_congr' fun led => ?_
    simp only [Port.leds, Finset.mem_filter, Finset.mem_univ, true_and]
    by_cases hlit : led ∈ lit
    · simp [hlit, ← Bool.eq_not]
    · simp [hlit]
  · rw [Finset.ext_iff]
    simp only [Port.leds, Finset.mem_filter, Finset.mem_univ, true_and]
    constructor
    · intro h pin hpin hother
      have hsame := h ⟨pin, hpin⟩
      simpa [hother, Bool.coe_iff_coe] using hsame
    · intro h pin
      exact and_congr_right fun hother => by rw [h pin pin.isLt hother]

/-- Whether a port lights an LED. -/
theorem decide_mem_lit (gpio : Port) (led : Fin b.numberOfLeds) :
    decide (led ∈ (gpio.leds b).lit) =
      (gpio.odr.getLsbD (b.firstLedPin + led) ^^ b.ledsAreInverted) := by
  simp only [Port.leds, Finset.mem_filter, Finset.mem_univ, true_and]
  cases gpio.odr.getLsbD (b.firstLedPin + led) <;> cases b.ledsAreInverted <;> rfl

/-- Whether an argument names an LED. -/
theorem decide_mem_named (leds : BitVec 32) (led : Fin b.numberOfLeds) :
    decide (led ∈ b.named leds) = leds.getLsbD led := by
  simp [Board.named]

/-- The pin of an LED is passed on if the LED is named. -/
theorem getLsbD_pins_add (leds : BitVec 32) (led : Fin b.numberOfLeds) :
    (b.pins leds).getLsbD (b.firstLedPin + led) = leds.getLsbD led := by
  rw [getLsbD_pins b leds (add_lt_sixteen b led), decide_eq_true (isLedPin_add b led),
    Nat.add_sub_cancel_left, Bool.true_and]

/-- No other pin is passed on. -/
theorem getLsbD_pins_of_not (leds : BitVec 32) {pin : ℕ} (hpin : pin < 16)
    (h : ¬ b.IsLedPin pin) : (b.pins leds).getLsbD pin = false := by
  rw [getLsbD_pins b leds hpin, decide_eq_false h, Bool.false_and]

/-- An argument that names no LED. -/
theorem and_ledMask_eq_zero_iff (leds : BitVec 32) :
    leds &&& b.ledMask = 0 ↔ ∀ led : Fin b.numberOfLeds, leds.getLsbD led = false := by
  have hfits := b.fits
  rw [eq_zero_iff]
  constructor
  · intro h led
    have hi : (led : ℕ) < 32 := by omega
    have hbit := h led hi
    rw [BitVec.getLsbD_and, getLsbD_ledMask b hi, decide_eq_true led.isLt, Bool.and_true] at hbit
    exact hbit
  · intro h i hi
    rw [BitVec.getLsbD_and, getLsbD_ledMask b hi]
    by_cases hled : i < b.numberOfLeds
    · rw [h ⟨i, hled⟩, Bool.false_and]
    · rw [decide_eq_false hled, Bool.and_false]

section Call

variable (leds : BitVec 32) (gpio : Port)

/-- **SetLEDs.** It does what it is for if the bits beyond the LEDs do no harm. -/
theorem leds_setLeds_iff :
    (setLeds b leds gpio).leds b = (gpio.leds b).call b (.setLeds leds) ↔
      LedCall.Right b gpio (.setLeds leds) := by
  have hlit : ∀ led : Fin b.numberOfLeds, (setLeds b leds gpio).odr.getLsbD (b.firstLedPin + led) =
      (decide (led ∈ b.named leds) ^^ b.ledsAreInverted) := by
    intro led
    rw [getLsbD_setLeds b leds gpio (add_lt_sixteen b led), if_pos (isLedPin_add b led),
      Nat.add_sub_cancel_left, decide_mem_named]
  refine (leds_eq_iff b).trans ((and_iff_right hlit).trans ?_)
  refine forall_congr' fun pin => imp_congr_right fun hpin => ?_
  rw [getLsbD_setLeds b leds gpio hpin]
  constructor
  · intro h habove hbit
    have hother : ¬ b.IsLedPin pin := fun hled => absurd hled.2 (not_lt.mpr habove)
    have hfirst : b.firstLedPin ≤ pin := (Nat.le_add_right _ _).trans habove
    have hlevel := h hother
    rw [if_neg hother, decide_eq_true hfirst, hbit, Bool.and_self, Bool.or_true] at hlevel
    exact hlevel.symm
  · intro h hother
    rw [if_neg hother]
    by_cases hfirst : b.firstLedPin ≤ pin
    · have habove : b.firstLedPin + b.numberOfLeds ≤ pin := not_lt.mp fun h => hother ⟨hfirst, h⟩
      cases hbit : leds.getLsbD (pin - b.firstLedPin) with
      | false => simp
      | true => simp [h habove hbit]
    · simp [hfirst]

variable {leds gpio} in
/-- A call that changes the levels of the pins of the LEDs that are named, and of no other pins,
is compared LED by LED. -/
theorem leds_eq_iff_of_pins {gpio' : Port} {lit : Finset (Fin b.numberOfLeds)}
    (level : Bool → Bool → Bool)
    (hodr : ∀ pin < 16, gpio'.odr.getLsbD pin =
      level (gpio.odr.getLsbD pin) ((b.pins leds).getLsbD pin))
    (hkeep : ∀ old, level old false = old)
    (hlit : ∀ led : Fin b.numberOfLeds,
      level (gpio.odr.getLsbD (b.firstLedPin + led)) (leds.getLsbD led) =
        (decide (led ∈ lit) ^^ b.ledsAreInverted) ↔
      (b.ledsAreInverted = true → leds.getLsbD led = false)) :
    gpio'.leds b = { gpio.leds b with lit := lit } ↔
      (b.ledsAreInverted = true → leds &&& b.ledMask = 0) := by
  have hothers : ∀ pin < 16, ¬ b.IsLedPin pin →
      gpio'.odr.getLsbD pin = gpio.odr.getLsbD pin := by
    intro pin hpin hother
    rw [hodr pin hpin, getLsbD_pins_of_not b leds hpin hother, hkeep]
  refine (leds_eq_iff b).trans ((and_iff_left hothers).trans ?_)
  rw [and_ledMask_eq_zero_iff, ← forall_comm]
  refine forall_congr' fun led => ?_
  rw [hodr _ (add_lt_sixteen b led), getLsbD_pins_add]
  exact hlit led

/-- **TurnOnLEDs.** It does what it is for if the LEDs are not inverted. -/
theorem leds_turnOnLeds_iff :
    (turnOnLeds b leds gpio).leds b = (gpio.leds b).call b (.turnOnLeds leds) ↔
      LedCall.Right b gpio (.turnOnLeds leds) := by
  apply leds_eq_iff_of_pins b or (fun pin hpin => getLsbD_turnOnLeds b leds gpio hpin) Bool.or_false
  intro led
  simp only [Finset.mem_union, Bool.decide_or, decide_mem_lit, decide_mem_named]
  cases gpio.odr.getLsbD (b.firstLedPin + led) <;> cases leds.getLsbD led <;>
    cases b.ledsAreInverted <;> decide

/-- **TurnOffLEDs.** It does what it is for if the LEDs are not inverted. -/
theorem leds_turnOffLeds_iff :
    (turnOffLeds b leds gpio).leds b = (gpio.leds b).call b (.turnOffLeds leds) ↔
      LedCall.Right b gpio (.turnOffLeds leds) := by
  apply leds_eq_iff_of_pins b (fun old pin => old && !pin)
    (fun pin hpin => getLsbD_turnOffLeds b leds gpio hpin) Bool.and_true
  intro led
  simp only [Finset.mem_sdiff, Bool.decide_and, decide_not, decide_mem_lit, decide_mem_named]
  cases gpio.odr.getLsbD (b.firstLedPin + led) <;> cases leds.getLsbD led <;>
    cases b.ledsAreInverted <;> decide

/-- **ToggleLEDs.** It does what it is for if no pin is high. -/
theorem leds_toggleLeds_iff :
    (toggleLeds b leds gpio).leds b = (gpio.leds b).call b (.toggleLeds leds) ↔
      LedCall.Right b gpio (.toggleLeds leds) := by
  have hlit : ∀ led : Fin b.numberOfLeds,
      (toggleLeds b leds gpio).odr.getLsbD (b.firstLedPin + led) =
        (decide (led ∈ symmDiff (gpio.leds b).lit (b.named leds)) ^^ b.ledsAreInverted) ↔
      gpio.odr.getLsbD (b.firstLedPin + led) = false := by
    intro led
    rw [getLsbD_toggleLeds b leds gpio (add_lt_sixteen b led), getLsbD_pins_add]
    simp only [Finset.mem_symmDiff, Bool.decide_or, Bool.decide_and, decide_not, decide_mem_lit,
      decide_mem_named]
    cases gpio.odr.getLsbD (b.firstLedPin + led) <;> cases leds.getLsbD led <;>
      cases b.ledsAreInverted <;> decide
  have hothers : ∀ pin < 16, ¬ b.IsLedPin pin →
      ((toggleLeds b leds gpio).odr.getLsbD pin = gpio.odr.getLsbD pin ↔
        gpio.odr.getLsbD pin = false) := by
    intro pin hpin hother
    rw [getLsbD_toggleLeds b leds gpio hpin, getLsbD_pins_of_not b leds hpin hother]
    exact eq_comm
  refine (leds_eq_iff b).trans (Iff.trans ?_ eq_zero_iff.symm)
  constructor
  · rintro ⟨hled, hother⟩ pin hpin
    by_cases hpinled : b.IsLedPin pin
    · obtain ⟨led, rfl⟩ := exists_led b hpinled
      exact (hlit led).mp (hled led)
    · exact (hothers pin hpin hpinled).mp (hother pin hpin hpinled)
  · intro hlow
    exact ⟨fun led => (hlit led).mpr (hlow _ (add_lt_sixteen b led)),
      fun pin hpin hother => (hothers pin hpin hother).mpr (hlow pin hpin)⟩

end Call

/-- One call does what it is for exactly if it is right. -/
theorem leds_ledCall_iff (gpio : Port) (call : LedCall) :
    (gpio.ledCall b call).leds b = (gpio.leds b).call b call ↔ call.Right b gpio := by
  cases call with
  | setLeds leds => exact leds_setLeds_iff b leds gpio
  | turnOnLeds leds => exact leds_turnOnLeds_iff b leds gpio
  | turnOffLeds leds => exact leds_turnOffLeds_iff b leds gpio
  | toggleLeds leds => exact leds_toggleLeds_iff b leds gpio

/-- **The LED driver.** It follows the set of LEDs that are lit, from the beginning to the
end of the calls, exactly if all calls are right. -/
theorem leds_refines_iff (gpio : Port) (calls : List LedCall) :
    (∀ first, first <+: calls → (first.foldl (Port.ledCall b) gpio).leds b =
      first.foldl (LedState.call b) (gpio.leds b)) ↔
      Along (total (Port.ledCall b)) (fun gpio call => call.Right b gpio) gpio calls :=
  refines_iff (Port.ledCall b) (LedState.call b) (Port.leds b) (leds_ledCall_iff b) gpio calls

/-- The board `WIFIMCU`. -/
def wifiMcu : Board := ⟨1, 4, true, by decide⟩

/-- A port where all registers are 0 but the one for the output. -/
def Port.ofOdr (odr : BitVec 16) : Port := ⟨0, 0, 0, 0, odr, fun _ => 0⟩

/-- On this board `ToggleLEDs` does not light the LED if it was not lit, and sets the pins next
to it low. -/
theorem not_leds_refines :
    ¬ ∀ first, first <+: [LedCall.toggleLeds 1] →
      (first.foldl (Port.ledCall wifiMcu) (Port.ofOdr 0x0011)).leds wifiMcu =
        first.foldl (LedState.call wifiMcu) ((Port.ofOdr 0x0011).leds wifiMcu) := by
  intro h
  exact absurd (h _ List.prefix_rfl) (by decide)

end WifiMcu.Gpio
