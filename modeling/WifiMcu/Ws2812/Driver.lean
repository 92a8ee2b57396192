import WifiMcu.Library.Memory
import WifiMcu.Library.Transition
import WifiMcu.Library.Word

/-!
# The WS2812 driver

The driver keeps two half buffers of three LEDs each. The DMA stream takes one
slot after the other from the whole buffer, in a circle, and raises an interrupt
flag at the end of each half, whose handler refills that half. A slot is the
compare value that shapes one bit on the wire. Reading `leds[]` outside of the
array is undefined behaviour, and is modelled by `none`.
-/

namespace WifiMcu.Ws2812

open Word Memory

/-- `WS2812_BIT_BUFFER_SIZE`. -/
def bitBufferSize : ℕ := 24 * 6

/-- `PCLK1_FREQ`. -/
def pclk1Freq : ℕ := 25000000

/-- `TIM4_FREQ`. -/
def tim4Freq : ℕ := pclk1Freq * 2

/-- `PERIOD_900NS`, the compare value of a 1. -/
def period900ns : ℕ := tim4Freq / 1111111

/-- `PERIOD_350NS`, the compare value of a 0. -/
def period350ns : ℕ := tim4Freq / 2857142

/-- `ws2812_led_t` by its colours. -/
structure Led where
  unused : BitVec 8
  b : BitVec 8
  r : BitVec 8
  g : BitVec 8
  deriving DecidableEq

/-- The member `grbu` of `ws2812_led_t`, which lies over the colours: the first one
is the lowest byte. -/
def Led.grbu (led : Led) : BitVec 32 := led.g ++ led.r ++ led.b ++ led.unused

/-- `enum ws2812_stage`. -/
inductive Stage
  | idle | sending | done | reset
  deriving DecidableEq

/-- `struct ws2812_status`. The memory that `leds` points to is a list. -/
structure Status where
  leds : List Led
  ledCount : ℤ
  ledsSent : ℤ
  stage : Stage
  bitBuffer : ℕ → ℕ

/-- The entry of `leds[]` at an index. -/
def readLed (leds : List Led) (index : ℤ) : Option Led :=
  if 0 ≤ index then leds[index.toNat]? else none

/-- The first loop of `ws2812_fill_bit_buffer` from index `i` on: the slots it
stores, the final value of `led`, and whether it was left by `break`. -/
def sendLoop (s : Status) : (remaining : ℕ) → (i : ℕ) → (led : ℤ) → Option (List ℕ × ℤ × Bool)
  | 0, _, led => some ([], led, false)
  | remaining + 1, i, led =>
    if (i : ℤ) < wrap32 ((s.ledCount - s.ledsSent) * 24) then do
      let color ← readLed s.leds (s.ledsSent + (i / 24 : ℕ))
      let slot := if color.grbu >>> (31 - i % 24) &&& 1#32 ≠ 0 then period900ns else period350ns
      let (slots, led, left) ← sendLoop s remaining (i + 1) (s.ledsSent + (i / 24 : ℕ))
      return (slot :: slots, led, left)
    else some ([], led, true)

/-- `ws2812_fill_bit_buffer`. What the first loop leaves of the half is set to zero. -/
def fillBitBuffer (s : Status) (high : Bool) : Option Status := do
  let bitcount := bitBufferSize / 2
  let offset := if high then bitcount else 0
  let (slots, led, left) ← sendLoop s bitcount 0 s.ledsSent
  let zeros := List.replicate (bitcount - slots.length) 0
  return { s with
    stage := if left then .done else .sending
    bitBuffer := writeBlock s.bitBuffer offset (slots ++ zeros)
    ledsSent := led + 1 }

/-- `ws2812_fill_low_bit_buffer`. -/
def fillLowBitBuffer (s : Status) : Option Status := fillBitBuffer s false

/-- `ws2812_fill_high_bit_buffer`. -/
def fillHighBitBuffer (s : Status) : Option Status := fillBitBuffer s true

/-- `ws2812_init_bit_buffer`. -/
def initBitBuffer (s : Status) : Option Status := do
  let s ← fillLowBitBuffer s
  fillHighBitBuffer s

/-- `ws2812_clear_bit_buffer`. -/
def clearBitBuffer (s : Status) : Status :=
  { s with bitBuffer := writeBlock s.bitBuffer 0 (List.replicate bitBufferSize 0) }

/-- `ws2812_is_sending`. -/
def isSending (s : Status) : Bool := s.stage ≠ .idle

/-- The driver together with its DMA stream and timer: the interrupt flags, the
enable bit of the stream, the slot it takes next and the compare register. Two
entries keep a record for the statements about the driver: the compare values
clocked out since the last call of `ws2812_send`, and the number of interrupts
handled since then. -/
structure Machine where
  status : Status
  htif : Bool
  tcif : Bool
  enabled : Bool
  position : ℕ
  compare : ℕ
  clocked : List ℕ
  interrupts : ℕ

/-- The state after `ws2812_init`, with the static variables zero. -/
def Machine.init : Machine where
  status := { leds := [], ledCount := 0, ledsSent := 0, stage := .idle, bitBuffer := fun _ => 0 }
  htif := false
  tcif := false
  enabled := false
  position := 0
  compare := 0
  clocked := []
  interrupts := 0

/-- `ws2812_dma_start`. A stream that is disabled begins with the first slot; on a
running stream the call has no effect. -/
def dmaStart (m : Machine) : Machine :=
  if m.enabled then m else { m with enabled := true, position := 0 }

/-- `ws2812_dma_stop`. -/
def dmaStop (m : Machine) : Machine := { m with enabled := false }

/-- `ws2812_send`. -/
def send (m : Machine) (leds : List Led) (ledCount : ℤ) : Option Machine := do
  let status ← initBitBuffer { m.status with leds, ledCount, ledsSent := 0 }
  return dmaStart { m with status, clocked := [], interrupts := 0 }

/-- The part of the handler that follows the test of a flag. The two parts differ
in the half that they refill. -/
def serveHalf (m : Machine) (high : Bool) : Option Machine :=
  if m.status.stage ≠ .idle then
    if m.status.stage = .done then do
      let status ← fillBitBuffer m.status high
      return { m with status := { status with stage := .idle } }
    else do
      let status ← fillBitBuffer m.status high
      return { m with status }
  else
    some { dmaStop { m with status := clearBitBuffer m.status } with compare := 0 }

/-- `DMA1_Stream6_IRQHandler`. -/
def irqHandler (m : Machine) : Option Machine := do
  let m ← if m.htif then serveHalf { m with htif := false } false else some m
  let m ← if m.tcif then serveHalf { m with tcif := false } true else some m
  return { m with interrupts := m.interrupts + 1 }

/-- The DMA stream takes the next slot. At the end of a half it raises a flag, and
the handler runs to completion before the next slot is taken. -/
def tick (m : Machine) : Option Machine :=
  if m.enabled then
    let slot := m.status.bitBuffer m.position
    let m := { m with compare := slot, clocked := m.clocked ++ [slot] }
    if m.position + 1 = bitBufferSize / 2 then
      irqHandler { m with position := m.position + 1, htif := true }
    else if m.position + 1 = bitBufferSize then
      irqHandler { m with position := 0, tcif := true }
    else some { m with position := m.position + 1 }
  else some m

/-- What happens to the driver: the next slot is due, or a frame is sent, whose number
of LEDs may be any `int`. -/
inductive Action
  | tick
  | send (leds : List Led) (ledCount : ℤ)

/-- One step of the driver. `ws2812_send` is only called while `ws2812_is_sending()`
returns false, and with a pointer to `led_count` LEDs: to none if `led_count` is
negative. -/
def step (m : Machine) : Action → Option Machine
  | .tick => tick m
  | .send leds ledCount =>
    if isSending m.status ∨ leds.length ≠ ledCount.toNat then none else send m leds ledCount

end WifiMcu.Ws2812
