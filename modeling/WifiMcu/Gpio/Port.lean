import Mathlib.Logic.Function.Basic
import WifiMcu.Library.Bits

/-!
# GPIO ports

The registers of a port, and the functions of `GPIO.h` that configure its pins and that
write to them.
-/

namespace WifiMcu.Gpio

/-- The registers of a port that are used. `ODR` has one bit for each pin, its upper half
is reserved. -/
@[ext] structure Port where
  moder : BitVec 32
  otyper : BitVec 32
  ospeedr : BitVec 32
  pupdr : BitVec 32
  odr : BitVec 16
  afr : ℕ → BitVec 32

/-- `InterleaveZeros`. -/
def interleaveZeros (val : BitVec 32) : BitVec 32 :=
  let val := (val ||| val <<< 8) &&& 0x00ff00ff
  let val := (val ||| val <<< 4) &&& 0x0f0f0f0f
  let val := (val ||| val <<< 2) &&& 0x33333333
  let val := (val ||| val <<< 1) &&& 0x55555555
  val

/-- `SetBits`. -/
def setBits (original bits state : BitVec 32) : BitVec 32 :=
  if state = 0 then original &&& ~~~bits else original ||| bits

/-- `SetDoubleBits`. -/
def setDoubleBits (original : BitVec 32) (bits : BitVec 16) (state : BitVec 32) : BitVec 32 :=
  let mask := interleaveZeros (bits.setWidth 32)
  (original &&& ~~~(mask * 3)) ||| (mask * state)

section Configuration

variable (pins : BitVec 16) (gpio : Port)

/-- `SetGPIOInputMode`. -/
def setGPIOInputMode : Port :=
  { gpio with moder := setDoubleBits gpio.moder pins 0 }

/-- `SetGPIOOutputMode`. -/
def setGPIOOutputMode : Port :=
  { gpio with moder := setDoubleBits gpio.moder pins 1 }

/-- `SetGPIOAlternateFunctionMode`. -/
def setGPIOAlternateFunctionMode : Port :=
  { gpio with moder := setDoubleBits gpio.moder pins 2 }

/-- `SetGPIOAnalogMode`. -/
def setGPIOAnalogMode : Port :=
  { gpio with moder := setDoubleBits gpio.moder pins 3 }

/-- `SetGPIOPushPullOutput`. -/
def setGPIOPushPullOutput : Port :=
  { gpio with otyper := setBits gpio.otyper (pins.setWidth 32) 0 }

/-- `SetGPIOOpenDrainOutput`. -/
def setGPIOOpenDrainOutput : Port :=
  { gpio with otyper := setBits gpio.otyper (pins.setWidth 32) 1 }

/-- `SetGPIOSpeed2MHz`. -/
def setGPIOSpeed2MHz : Port :=
  { gpio with ospeedr := setDoubleBits gpio.ospeedr pins 0 }

/-- `SetGPIOSpeed25MHz`. -/
def setGPIOSpeed25MHz : Port :=
  { gpio with ospeedr := setDoubleBits gpio.ospeedr pins 1 }

/-- `SetGPIOSpeed50MHz`. -/
def setGPIOSpeed50MHz : Port :=
  { gpio with ospeedr := setDoubleBits gpio.ospeedr pins 2 }

/-- `SetGPIOSpeed100MHz`. -/
def setGPIOSpeed100MHz : Port :=
  { gpio with ospeedr := setDoubleBits gpio.ospeedr pins 3 }

/-- `SetGPIONoPullResistor`. -/
def setGPIONoPullResistor : Port :=
  { gpio with pupdr := setDoubleBits gpio.pupdr pins 0 }

/-- `SetGPIOPullUpResistor`. -/
def setGPIOPullUpResistor : Port :=
  { gpio with pupdr := setDoubleBits gpio.pupdr pins 1 }

/-- `SetGPIOPullDownResistor`. -/
def setGPIOPullDownResistor : Port :=
  { gpio with pupdr := setDoubleBits gpio.pupdr pins 2 }

end Configuration

/-- `SelectAlternateFunctionForGPIOPin`. -/
def selectAlternateFunctionForGPIOPin (pin function : ℕ) (gpio : Port) : Port :=
  let regindex := pin >>> 3
  let position := (pin &&& 0x07) * 4
  let value := (gpio.afr regindex &&& ~~~(0x0f#32 <<< position)) |||
    BitVec.ofNat 32 function <<< position
  { gpio with afr := Function.update gpio.afr regindex value }

section Output

/-- Reading `ODR`. -/
def Port.readOdr (gpio : Port) : BitVec 32 := gpio.odr.setWidth 32

/-- Writing `ODR`. -/
def Port.writeOdr (gpio : Port) (value : BitVec 32) : Port := { gpio with odr := value.setWidth 16 }

/-- Writing `BSRR`: a 1 in the lower half sets its bit in `ODR`, a 1 in the upper half
resets it unless it is set as well. -/
def Port.writeBsrr (gpio : Port) (value : BitVec 32) : Port :=
  { gpio with odr := (gpio.odr &&& ~~~(value >>> 16).setWidth 16) ||| value.setWidth 16 }

/-- `SetGPIOPinsHigh`. -/
def setGPIOPinsHigh (pins : BitVec 16) (gpio : Port) : Port :=
  gpio.writeBsrr (pins.setWidth 32)

/-- `SetGPIOPinsLow`. -/
def setGPIOPinsLow (pins : BitVec 16) (gpio : Port) : Port :=
  gpio.writeBsrr (pins.setWidth 32 <<< 16)

/-- `ToggleGPIOPins`. -/
def toggleGPIOPins (pins : BitVec 16) (gpio : Port) : Port :=
  gpio.writeOdr (pins.setWidth 32)

end Output

end WifiMcu.Gpio
