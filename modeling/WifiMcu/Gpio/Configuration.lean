import Mathlib.Tactic.IntervalCases
import WifiMcu.Library.LastWrite
import WifiMcu.Gpio.Port

/-!
# The configuration of pins

Every pin of a port has a field for each of its attributes, in one of the registers of the
port. A call sets the field of all the pins that it names to one value. After any calls, a
field has the value of the last call for it, and nothing but the fields of the pins that
were named has changed.
-/

namespace WifiMcu.Gpio

open Bits LastWrite

/-- The attributes of a pin. -/
inductive Attribute
  | mode
  | outputType
  | speed
  | pull
  | alternateFunction
  deriving DecidableEq

/-- The value of an attribute of a pin: its field in the registers. -/
def Port.attribute (gpio : Port) : Fin 16 × Attribute → ℕ
  | (pin, .mode) => field gpio.moder (2 * pin) 2
  | (pin, .outputType) => field gpio.otyper pin 1
  | (pin, .speed) => field gpio.ospeedr (2 * pin) 2
  | (pin, .pull) => field gpio.pupdr (2 * pin) 2
  | (pin, .alternateFunction) => field (gpio.afr (pin / 8)) (4 * (pin % 8)) 4

/-- The calls that configure pins. -/
inductive GpioCall
  | setGPIOInputMode (pins : BitVec 16)
  | setGPIOOutputMode (pins : BitVec 16)
  | setGPIOAlternateFunctionMode (pins : BitVec 16)
  | setGPIOAnalogMode (pins : BitVec 16)
  | setGPIOPushPullOutput (pins : BitVec 16)
  | setGPIOOpenDrainOutput (pins : BitVec 16)
  | setGPIOSpeed2MHz (pins : BitVec 16)
  | setGPIOSpeed25MHz (pins : BitVec 16)
  | setGPIOSpeed50MHz (pins : BitVec 16)
  | setGPIOSpeed100MHz (pins : BitVec 16)
  | setGPIONoPullResistor (pins : BitVec 16)
  | setGPIOPullUpResistor (pins : BitVec 16)
  | setGPIOPullDownResistor (pins : BitVec 16)
  | selectAlternateFunctionForGPIOPin (pin function : Fin 16)
  deriving DecidableEq

/-- What a call does. -/
def Port.call (gpio : Port) : GpioCall → Port
  | .setGPIOInputMode pins => setGPIOInputMode pins gpio
  | .setGPIOOutputMode pins => setGPIOOutputMode pins gpio
  | .setGPIOAlternateFunctionMode pins => setGPIOAlternateFunctionMode pins gpio
  | .setGPIOAnalogMode pins => setGPIOAnalogMode pins gpio
  | .setGPIOPushPullOutput pins => setGPIOPushPullOutput pins gpio
  | .setGPIOOpenDrainOutput pins => setGPIOOpenDrainOutput pins gpio
  | .setGPIOSpeed2MHz pins => setGPIOSpeed2MHz pins gpio
  | .setGPIOSpeed25MHz pins => setGPIOSpeed25MHz pins gpio
  | .setGPIOSpeed50MHz pins => setGPIOSpeed50MHz pins gpio
  | .setGPIOSpeed100MHz pins => setGPIOSpeed100MHz pins gpio
  | .setGPIONoPullResistor pins => setGPIONoPullResistor pins gpio
  | .setGPIOPullUpResistor pins => setGPIOPullUpResistor pins gpio
  | .setGPIOPullDownResistor pins => setGPIOPullDownResistor pins gpio
  | .selectAlternateFunctionForGPIOPin pin function =>
    selectAlternateFunctionForGPIOPin pin function gpio

/-- The attribute that a call is for, and the value that it sets. -/
def GpioCall.sets : GpioCall → Attribute × ℕ
  | .setGPIOInputMode _ => (.mode, 0)
  | .setGPIOOutputMode _ => (.mode, 1)
  | .setGPIOAlternateFunctionMode _ => (.mode, 2)
  | .setGPIOAnalogMode _ => (.mode, 3)
  | .setGPIOPushPullOutput _ => (.outputType, 0)
  | .setGPIOOpenDrainOutput _ => (.outputType, 1)
  | .setGPIOSpeed2MHz _ => (.speed, 0)
  | .setGPIOSpeed25MHz _ => (.speed, 1)
  | .setGPIOSpeed50MHz _ => (.speed, 2)
  | .setGPIOSpeed100MHz _ => (.speed, 3)
  | .setGPIONoPullResistor _ => (.pull, 0)
  | .setGPIOPullUpResistor _ => (.pull, 1)
  | .setGPIOPullDownResistor _ => (.pull, 2)
  | .selectAlternateFunctionForGPIOPin _ function => (.alternateFunction, function)

/-- The pins that a call names. -/
def GpioCall.pins : GpioCall → BitVec 16
  | .setGPIOInputMode pins => pins
  | .setGPIOOutputMode pins => pins
  | .setGPIOAlternateFunctionMode pins => pins
  | .setGPIOAnalogMode pins => pins
  | .setGPIOPushPullOutput pins => pins
  | .setGPIOOpenDrainOutput pins => pins
  | .setGPIOSpeed2MHz pins => pins
  | .setGPIOSpeed25MHz pins => pins
  | .setGPIOSpeed50MHz pins => pins
  | .setGPIOSpeed100MHz pins => pins
  | .setGPIONoPullResistor pins => pins
  | .setGPIOPullUpResistor pins => pins
  | .setGPIOPullDownResistor pins => pins
  | .selectAlternateFunctionForGPIOPin pin _ => 1#16 <<< (pin : ℕ)

/-- The value that a call sets an attribute of a pin to, if it is for this attribute and
names the pin. -/
def GpioCall.assigns (call : GpioCall) (key : Fin 16 × Attribute) : Option ℕ :=
  if call.sets.1 = key.2 ∧ call.pins.getLsbD key.1 then some call.sets.2 else none

/-- The bits of the mask for two-bit fields. -/
theorem getLsbD_interleaveZeros (bits : BitVec 16) {j : ℕ} (hj : j < 32) :
    (interleaveZeros (bits.setWidth 32)).getLsbD j =
      (decide (j % 2 = 0) && bits.getLsbD (j / 2)) := by
  unfold interleaveZeros
  simp only [BitVec.getLsbD_and, BitVec.getLsbD_or, BitVec.getLsbD_shiftLeft,
    BitVec.getLsbD_setWidth]
  interval_cases j <;> simp

/-- The mask has a bit at the lower end of each field that is named, and no other ones. -/
theorem getLsbD_interleaveZeros_add (bits : BitVec 16) {i b : ℕ} (hi : i < 16) (hb : b < 2) :
    (interleaveZeros (bits.setWidth 32)).getLsbD (2 * i + b) =
      (bits.getLsbD i && decide (b = 0)) := by
  rw [getLsbD_interleaveZeros bits (by omega), Bool.and_comm]
  have hdiv : (2 * i + b) / 2 = i := by omega
  have hmod : (2 * i + b) % 2 = b := by omega
  rw [hdiv, hmod]

/-- The mask, moved up by one. -/
theorem getLsbD_interleaveZeros_shiftLeft (bits : BitVec 16) {i b : ℕ} (hi : i < 16) (hb : b < 2) :
    (interleaveZeros (bits.setWidth 32) <<< 1).getLsbD (2 * i + b) =
      (bits.getLsbD i && decide (b = 1)) := by
  rw [BitVec.getLsbD_shiftLeft, getLsbD_interleaveZeros bits (by omega)]
  by_cases hone : b = 1
  · subst hone
    simp
    omega
  · obtain rfl : b = 0 := by omega
    have hodd : 1 ≤ i → (2 * i - 1) % 2 = 1 := by omega
    rcases i with _ | i
    · simp
    · simp [hodd]

/-- The mask and the mask moved up by one have no bits in common. -/
theorem interleaveZeros_and_shiftLeft (bits : BitVec 16) :
    interleaveZeros (bits.setWidth 32) &&& interleaveZeros (bits.setWidth 32) <<< 1 = 0#32 := by
  apply BitVec.eq_of_getLsbD_eq
  intro j hj
  have hj' : j = 2 * (j / 2) + j % 2 := by omega
  rw [hj', BitVec.getLsbD_and, getLsbD_interleaveZeros_add bits (by omega) (by omega),
    getLsbD_interleaveZeros_shiftLeft bits (by omega) (by omega), BitVec.getLsbD_zero]
  rcases Nat.mod_two_eq_zero_or_one j with heven | hodd
  · simp [heven]
  · simp [hodd]

/-- The mask times a state has the state in each field that is named. -/
theorem getLsbD_interleaveZeros_mul (bits : BitVec 16) {state i b : ℕ} (hstate : state < 4)
    (hi : i < 16) (hb : b < 2) :
    (interleaveZeros (bits.setWidth 32) * BitVec.ofNat 32 state).getLsbD (2 * i + b) =
      (bits.getLsbD i && state.testBit b) := by
  have hlow := getLsbD_interleaveZeros_add bits hi hb
  have hhigh := getLsbD_interleaveZeros_shiftLeft bits hi hb
  obtain rfl | rfl : b = 0 ∨ b = 1 := by omega
  all_goals
    interval_cases state
    · simp
    · rw [BitVec.mul_one, hlow]
      rfl
    · rw [mul_two_eq_shiftLeft, hhigh]
      rfl
    · rw [mul_three_eq_or (interleaveZeros_and_shiftLeft bits), BitVec.getLsbD_or, hlow, hhigh,
        ← Bool.and_or_distrib_left]
      rfl

/-- **SetDoubleBits.** The fields that are named get the bits of the state, the other ones
stay as they are. -/
theorem getLsbD_setDoubleBits (original : BitVec 32) (bits : BitVec 16) {state i b : ℕ}
    (hstate : state < 4) (hi : i < 16) (hb : b < 2) :
    (setDoubleBits original bits (BitVec.ofNat 32 state)).getLsbD (2 * i + b) =
      if bits.getLsbD i then state.testBit b else original.getLsbD (2 * i + b) := by
  have hclear : (interleaveZeros (bits.setWidth 32) * 3).getLsbD (2 * i + b) =
      (bits.getLsbD i && Nat.testBit 3 b) :=
    getLsbD_interleaveZeros_mul bits (by decide) hi hb
  have hset := getLsbD_interleaveZeros_mul bits hstate hi hb
  have hthree : Nat.testBit 3 b = true := by
    obtain rfl | rfl : b = 0 ∨ b = 1 := by omega
    all_goals rfl
  unfold setDoubleBits
  dsimp only
  rw [BitVec.getLsbD_or, getLsbD_and_not, hclear, hset]
  cases hnamed : bits.getLsbD i <;> simp [hthree]

/-- The number in a two-bit field. -/
theorem field_setDoubleBits (original : BitVec 32) (bits : BitVec 16) {state : ℕ}
    (hstate : state < 4) (pin : Fin 16) :
    field (setDoubleBits original bits (BitVec.ofNat 32 state)) (2 * pin) 2 =
      if bits.getLsbD pin then state else field original (2 * pin) 2 := by
  have hbits := fun b hb => getLsbD_setDoubleBits original bits (b := b) hstate pin.isLt hb
  split_ifs with hnamed
  · simp only [hnamed, if_true] at hbits
    exact field_eq hstate hbits
  · simp only [hnamed] at hbits
    exact field_congr hbits

/-- **SetBits.** The bits that are named get the state, the other ones stay as they are. -/
theorem getLsbD_setBits (original : BitVec 32) (bits : BitVec 16) {state : ℕ}
    (hstate : state < 2) {i : ℕ} (hi : i < 32) :
    (setBits original (bits.setWidth 32) (BitVec.ofNat 32 state)).getLsbD i =
      if bits.getLsbD i then state.testBit 0 else original.getLsbD i := by
  unfold setBits
  interval_cases state
  · have hzero : 0#32 = 0 := rfl
    rw [if_pos hzero, getLsbD_and_not, BitVec.getLsbD_setWidth, decide_eq_true hi]
    cases bits.getLsbD i <;> simp
  · rw [if_neg (by decide), BitVec.getLsbD_or, BitVec.getLsbD_setWidth, decide_eq_true hi]
    cases bits.getLsbD i <;> simp

/-- The number in a one-bit field. -/
theorem field_setBits (original : BitVec 32) (bits : BitVec 16) {state : ℕ} (hstate : state < 2)
    (pin : Fin 16) :
    field (setBits original (bits.setWidth 32) (BitVec.ofNat 32 state)) pin 1 =
      if bits.getLsbD pin then state else field original pin 1 := by
  have hbit := getLsbD_setBits original bits hstate (i := pin) (by omega)
  split_ifs at hbit ⊢
  · apply field_eq hstate
    intro b hb
    obtain rfl : b = 0 := by omega
    exact hbit
  · apply field_congr
    intro b hb
    obtain rfl : b = 0 := by omega
    exact hbit

/-- **SelectAlternateFunctionForGPIOPin.** The field of the pin in its register gets the
number of the function, the other ones stay as they are. -/
theorem getLsbD_selectAlternateFunction (gpio : Port) (pin k : ℕ) {function b : ℕ}
    (hfunction : function < 16) (hb : b < 4) :
    ((selectAlternateFunctionForGPIOPin pin function gpio).afr (k / 8)).getLsbD
        (4 * (k % 8) + b) =
      if pin = k then function.testBit b else (gpio.afr (k / 8)).getLsbD (4 * (k % 8) + b) := by
  have hposition : (pin &&& 0x07) * 4 = 4 * (pin % 8) := by
    rw [Nat.mul_comm]
    exact congrArg _ (Nat.and_two_pow_sub_one_eq_mod pin 3)
  have hregindex : pin >>> 3 = pin / 8 := Nat.shiftRight_eq_div_pow pin 3
  unfold selectAlternateFunctionForGPIOPin
  dsimp only
  rw [hposition, hregindex]
  by_cases hword : k / 8 = pin / 8
  · have hbits := getLsbD_clear_or_shiftLeft (gpio.afr (pin / 8)) (p := 4 * (pin % 8)) (n := 4)
      (j := 4 * (k % 8) + b) hfunction (by omega)
    rw [hword, Function.update_self]
    apply hbits.trans
    by_cases hpin : pin = k
    · subst hpin
      rw [if_pos (by omega), if_pos rfl, Nat.add_sub_cancel_left]
    · rw [if_neg (by omega), if_neg hpin]
  · rw [Function.update_of_ne hword, if_neg]
    rintro rfl
    exact hword rfl

/-- The number in the field for the alternate function of a pin. -/
theorem field_selectAlternateFunction (gpio : Port) (pin function k : Fin 16) :
    field ((selectAlternateFunctionForGPIOPin pin function gpio).afr (k / 8)) (4 * (k % 8)) 4 =
      if pin = k then (function : ℕ) else field (gpio.afr (k / 8)) (4 * (k % 8)) 4 := by
  have hbits := fun b hb =>
    getLsbD_selectAlternateFunction gpio pin k (b := b) function.isLt hb
  split_ifs with hpin
  · simp only [hpin, if_true] at hbits
    subst hpin
    exact field_eq function.isLt hbits
  · simp only [Fin.val_inj, hpin, if_false] at hbits
    exact field_congr hbits

/-- Words with the same numbers in all their fields of one width are the same. -/
theorem eq_of_fields {x y : BitVec 32} {n : ℕ} (hn : 0 < n)
    (h : ∀ i < 32 / n, field x (n * i) n = field y (n * i) n) (hdvd : 32 % n = 0) : x = y := by
  apply BitVec.eq_of_getLsbD_eq
  intro j hj
  have hfield := congrArg (fun v => v.testBit (j % n))
    (h (j / n) (Nat.div_lt_div_of_lt_of_dvd (Nat.dvd_of_mod_eq_zero hdvd) hj))
  simpa [testBit_field, Nat.mod_lt j hn, Nat.div_add_mod] using hfield

section Call

variable (gpio : Port) (pins : BitVec 16) (pin : Fin 16) (a : Attribute)

/-- A call that sets two-bit fields of `MODER`. -/
theorem attribute_moder (state : ℕ) (hstate : state < 4) :
    { gpio with moder := setDoubleBits gpio.moder pins (BitVec.ofNat 32 state) }.attribute (pin, a) =
      if .mode = a ∧ pins.getLsbD pin then state else gpio.attribute (pin, a) := by
  cases a <;> simp [Port.attribute, field_setDoubleBits _ _ hstate]

/-- A call that sets bits of `OTYPER`. -/
theorem attribute_otyper (state : ℕ) (hstate : state < 2) :
    { gpio with otyper := setBits gpio.otyper (pins.setWidth 32) (BitVec.ofNat 32 state) }.attribute
        (pin, a) =
      if .outputType = a ∧ pins.getLsbD pin then state else gpio.attribute (pin, a) := by
  cases a <;> simp [Port.attribute, field_setBits _ _ hstate]

/-- A call that sets two-bit fields of `OSPEEDR`. -/
theorem attribute_ospeedr (state : ℕ) (hstate : state < 4) :
    { gpio with ospeedr := setDoubleBits gpio.ospeedr pins (BitVec.ofNat 32 state) }.attribute
        (pin, a) =
      if .speed = a ∧ pins.getLsbD pin then state else gpio.attribute (pin, a) := by
  cases a <;> simp [Port.attribute, field_setDoubleBits _ _ hstate]

/-- A call that sets two-bit fields of `PUPDR`. -/
theorem attribute_pupdr (state : ℕ) (hstate : state < 4) :
    { gpio with pupdr := setDoubleBits gpio.pupdr pins (BitVec.ofNat 32 state) }.attribute (pin, a) =
      if .pull = a ∧ pins.getLsbD pin then state else gpio.attribute (pin, a) := by
  cases a <;> simp [Port.attribute, field_setDoubleBits _ _ hstate]

/-- A call that sets the four-bit field of a pin. -/
theorem attribute_selectAlternateFunction (named function : Fin 16) :
    (selectAlternateFunctionForGPIOPin named function gpio).attribute (pin, a) =
      if .alternateFunction = a ∧ (1#16 <<< (named : ℕ)).getLsbD pin then (function : ℕ)
      else gpio.attribute (pin, a) := by
  have hbit : (1#16 <<< (named : ℕ)).getLsbD pin = decide (named = pin) := by
    rw [getLsbD_bit, decide_eq_true named.isLt, Bool.true_and]
    simp only [Fin.val_inj]
  rw [hbit]
  cases a with
  | alternateFunction =>
    simpa [Port.attribute] using field_selectAlternateFunction gpio named function pin
  | _ => rfl

/-- **One call.** It sets the fields of the pins that it names to its value, and leaves all
other fields alone. -/
theorem attribute_call (call : GpioCall) :
    (gpio.call call).attribute (pin, a) = (call.assigns (pin, a)).getD (gpio.attribute (pin, a)) := by
  have hassigns : (call.assigns (pin, a)).getD (gpio.attribute (pin, a)) =
      if call.sets.1 = a ∧ call.pins.getLsbD pin then call.sets.2 else gpio.attribute (pin, a) := by
    rw [GpioCall.assigns]
    split_ifs <;> rfl
  rw [hassigns]
  cases call with
  | setGPIOInputMode pins => exact attribute_moder gpio pins pin a 0 (by decide)
  | setGPIOOutputMode pins => exact attribute_moder gpio pins pin a 1 (by decide)
  | setGPIOAlternateFunctionMode pins => exact attribute_moder gpio pins pin a 2 (by decide)
  | setGPIOAnalogMode pins => exact attribute_moder gpio pins pin a 3 (by decide)
  | setGPIOPushPullOutput pins => exact attribute_otyper gpio pins pin a 0 (by decide)
  | setGPIOOpenDrainOutput pins => exact attribute_otyper gpio pins pin a 1 (by decide)
  | setGPIOSpeed2MHz pins => exact attribute_ospeedr gpio pins pin a 0 (by decide)
  | setGPIOSpeed25MHz pins => exact attribute_ospeedr gpio pins pin a 1 (by decide)
  | setGPIOSpeed50MHz pins => exact attribute_ospeedr gpio pins pin a 2 (by decide)
  | setGPIOSpeed100MHz pins => exact attribute_ospeedr gpio pins pin a 3 (by decide)
  | setGPIONoPullResistor pins => exact attribute_pupdr gpio pins pin a 0 (by decide)
  | setGPIOPullUpResistor pins => exact attribute_pupdr gpio pins pin a 1 (by decide)
  | setGPIOPullDownResistor pins => exact attribute_pupdr gpio pins pin a 2 (by decide)
  | selectAlternateFunctionForGPIOPin named function =>
    exact attribute_selectAlternateFunction gpio pin a named function

/-- What no field of a pin covers: the upper half of `OTYPER`, what follows the two words
for the alternate functions, and the register for the output. -/
structure SameBeyondFields (gpio gpio' : Port) : Prop where
  otyper : ∀ i, 16 ≤ i → gpio'.otyper.getLsbD i = gpio.otyper.getLsbD i
  afr : ∀ regindex, 2 ≤ regindex → gpio'.afr regindex = gpio.afr regindex
  odr : gpio'.odr = gpio.odr

/-- A call does not change what no field covers. -/
theorem sameBeyondFields_call (call : GpioCall) : SameBeyondFields gpio (gpio.call call) := by
  have hotyper : ∀ (bits : BitVec 16) (state : ℕ), state < 2 → ∀ i, 16 ≤ i →
      (setBits gpio.otyper (bits.setWidth 32) (BitVec.ofNat 32 state)).getLsbD i =
        gpio.otyper.getLsbD i := by
    intro bits state hstate i hi
    by_cases hlt : i < 32
    · rw [getLsbD_setBits gpio.otyper bits hstate hlt, BitVec.getLsbD_of_ge bits i hi]
      rfl
    · rw [BitVec.getLsbD_of_ge _ i (by omega), BitVec.getLsbD_of_ge _ i (by omega)]
  cases call with
  | setGPIOPushPullOutput bits => exact ⟨hotyper bits 0 (by decide), fun _ _ => rfl, rfl⟩
  | setGPIOOpenDrainOutput bits => exact ⟨hotyper bits 1 (by decide), fun _ _ => rfl, rfl⟩
  | selectAlternateFunctionForGPIOPin named function =>
    refine ⟨fun _ _ => rfl, fun regindex hregindex => ?_, rfl⟩
    have hne : regindex ≠ (named : ℕ) >>> 3 := by
      rw [Nat.shiftRight_eq_div_pow]
      omega
    exact Function.update_of_ne hne _ _
  | _ => exact ⟨fun _ _ => rfl, fun _ _ => rfl, rfl⟩

end Call

/-- The fields, and what is beyond them, are all there is of a port. -/
theorem SameBeyondFields.eq_of_attributes {gpio gpio' : Port} (h : SameBeyondFields gpio gpio')
    (hattributes : ∀ key, gpio'.attribute key = gpio.attribute key) : gpio' = gpio := by
  apply Port.ext
  · exact eq_of_fields (by decide) (fun i hi => hattributes (⟨i, hi⟩, .mode)) rfl
  · apply BitVec.eq_of_getLsbD_eq
    intro j hj
    by_cases hpin : j < 16
    · have hbit := congrArg (fun v => v.testBit 0) (hattributes (⟨j, hpin⟩, .outputType))
      simp only [Port.attribute, testBit_field] at hbit
      simpa using hbit
    · exact h.otyper j (not_lt.mp hpin)
  · exact eq_of_fields (by decide) (fun i hi => hattributes (⟨i, hi⟩, .speed)) rfl
  · exact eq_of_fields (by decide) (fun i hi => hattributes (⟨i, hi⟩, .pull)) rfl
  · exact h.odr
  · funext r
    by_cases hr : r < 2
    · apply eq_of_fields (n := 4) (by decide) (fun i hi => ?_) rfl
      have hfield := hattributes (⟨8 * r + i, by omega⟩, .alternateFunction)
      have hdiv : (8 * r + i) / 8 = r := by omega
      have hmod : (8 * r + i) % 8 = i := by omega
      simpa only [Port.attribute, hdiv, hmod] using hfield
    · exact h.afr r (not_lt.mp hr)

/-- The last writer wins: after the calls, every attribute of every pin has the value of
the last call for it that names the pin, and its initial value if there is none; what no
field of a pin covers is unchanged. -/
structure LastWriterWins (gpio : Port) (calls : List GpioCall) : Prop where
  attributes : ∀ pin a, (calls.foldl Port.call gpio).attribute (pin, a) =
    (lastWrite GpioCall.assigns (pin, a) calls).getD (gpio.attribute (pin, a))
  beyond : SameBeyondFields gpio (calls.foldl Port.call gpio)

/-- **Configuration.** The last writer wins, for every initial content of the registers and
all calls. -/
theorem lastWriterWins (gpio : Port) (calls : List GpioCall) : LastWriterWins gpio calls := by
  constructor
  · intro pin a
    exact foldl_view (fun gpio call key => attribute_call gpio key.1 key.2 call) gpio calls (pin, a)
  · induction calls generalizing gpio with
    | nil => exact ⟨fun _ _ => rfl, fun _ _ => rfl, rfl⟩
    | cons call calls ih =>
      have hfirst := sameBeyondFields_call gpio call
      have hrest := ih (gpio.call call)
      exact ⟨fun i hi => (hrest.otyper i hi).trans (hfirst.otyper i hi),
        fun r hr => (hrest.afr r hr).trans (hfirst.afr r hr), hrest.odr.trans hfirst.odr⟩

end WifiMcu.Gpio
