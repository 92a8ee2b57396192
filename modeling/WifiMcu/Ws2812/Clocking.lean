import WifiMcu.Ws2812.Frame

/-!
# The DMA clocks out the half buffers

Within a half the stream takes slot after slot and nothing else changes. The tick
that takes the last slot of a half runs the handler, which serves that half while
the stream goes on in the other one.
-/

namespace WifiMcu.Ws2812

open Memory Transition

/-- The position of the first slot of a half. -/
def halfStart (high : Bool) : ℕ := if high then 72 else 0

/-- The machine after a number of ticks. -/
def ticks (k : ℕ) (m : Machine) : Option Machine := run step m (List.replicate k .tick)

/-- No ticks change nothing. -/
@[simp] theorem ticks_zero (m : Machine) : ticks 0 m = some m := rfl

/-- Ticks after one tick. -/
theorem ticks_succ (k : ℕ) (m : Machine) : ticks (k + 1) m = (tick m).bind (ticks k) := rfl

/-- Ticks after ticks. -/
theorem ticks_add (j k : ℕ) (m : Machine) : ticks (j + k) m = (ticks j m).bind (ticks k) := by
  rw [ticks, ← List.replicate_append_replicate, run_append]
  rfl

/-- The stream takes a slot. -/
def Machine.takeSlot (m : Machine) (position : ℕ) : Machine :=
  { m with
    compare := m.status.bitBuffer m.position
    clocked := m.clocked ++ [m.status.bitBuffer m.position]
    position := position }

/-- The handler has run once more. -/
def Machine.countInterrupt (m : Machine) : Machine := { m with interrupts := m.interrupts + 1 }

/-- No interrupt is pending. -/
def Machine.Quiet (m : Machine) : Prop := m.htif = false ∧ m.tcif = false

/-- A slot before the last one of its half is only taken. -/
theorem tick_within {m : Machine} (henabled : m.enabled = true)
    (hposition : m.position + 1 ≠ 72 ∧ m.position + 1 ≠ 144) :
    tick m = some (m.takeSlot (m.position + 1)) := by
  have hsize : bitBufferSize = 144 := rfl
  simp only [tick, if_pos henabled, hsize, if_neg hposition.1, if_neg hposition.2]
  rfl

/-- Serving a half leaves the flags and the record of the wire alone. -/
theorem serveHalf_frame {m m' : Machine} {high : Bool} (h : serveHalf m high = some m') :
    m'.htif = m.htif ∧ m'.tcif = m.tcif ∧ m'.position = m.position ∧ m'.clocked = m.clocked ∧
      m'.interrupts = m.interrupts := by
  rw [serveHalf] at h
  split_ifs at h
  · obtain ⟨status, -, heq⟩ := Option.bind_eq_some_iff.mp h
    cases heq
    exact ⟨rfl, rfl, rfl, rfl, rfl⟩
  · obtain ⟨status, -, heq⟩ := Option.bind_eq_some_iff.mp h
    cases heq
    exact ⟨rfl, rfl, rfl, rfl, rfl⟩
  · cases h
    exact ⟨rfl, rfl, rfl, rfl, rfl⟩

/-- The handler serves the low half for the half-transfer flag. -/
theorem irqHandler_htif {m : Machine} (hquiet : m.Quiet) :
    irqHandler { m with htif := true } = (serveHalf m false).map Machine.countInterrupt := by
  rcases m with ⟨status, htif, tcif, enabled, position, compare, clocked, interrupts⟩
  obtain ⟨rfl, rfl⟩ : htif = false ∧ tcif = false := hquiet
  simp only [irqHandler, if_true, Option.bind_eq_bind]
  cases hserve : serveHalf ⟨status, false, false, enabled, position, compare, clocked, interrupts⟩
      false with
  | none => rfl
  | some m' =>
    have htcif : m'.tcif = false := (serveHalf_frame hserve).2.1
    simp [htcif, Machine.countInterrupt]

/-- The handler serves the high half for the transfer-complete flag. -/
theorem irqHandler_tcif {m : Machine} (hquiet : m.Quiet) :
    irqHandler { m with tcif := true } = (serveHalf m true).map Machine.countInterrupt := by
  rcases m with ⟨status, htif, tcif, enabled, position, compare, clocked, interrupts⟩
  obtain ⟨rfl, rfl⟩ : htif = false ∧ tcif = false := hquiet
  simp only [irqHandler, Bool.false_eq_true, if_false, if_true, Option.bind_eq_bind,
    Option.bind_some]
  cases serveHalf ⟨status, false, false, enabled, position, compare, clocked, interrupts⟩ true with
  | none => rfl
  | some m' => rfl

/-- With the last slot of a half the handler serves that half. -/
theorem tick_boundary {m : Machine} (henabled : m.enabled = true) (hquiet : m.Quiet) {high : Bool}
    (hposition : m.position + 1 = halfStart high + 72) :
    tick m = (serveHalf (m.takeSlot (halfStart !high)) high).map Machine.countInterrupt := by
  have hsize : bitBufferSize = 144 := rfl
  have hquiet' : (m.takeSlot (halfStart !high)).Quiet := hquiet
  cases high with
  | false =>
    have hposition' : m.position + 1 = 72 := hposition
    rw [← irqHandler_htif hquiet']
    simp only [tick, if_pos henabled, hsize, hposition']
    rfl
  | true =>
    have hposition' : m.position + 1 = 144 := hposition
    rw [← irqHandler_tcif hquiet']
    simp only [tick, if_pos henabled, hsize, hposition']
    rfl

/-! ### Serving a half -/

/-- The status after a half has been filled again: a driver that was done is idle. -/
def Status.refill (s : Status) (high : Bool) : Status :=
  { s with
    stage := if s.stage = .done then .idle else if s.rest.length < 3 then .done else .sending
    bitBuffer := writeBlock s.bitBuffer (halfStart high) (chunk s.rest)
    ledsSent := s.ledsSent + max 1 (min 3 s.rest.length) }

/-- While the driver is not idle, the half that has been clocked out is filled again. -/
theorem serveHalf_refill {m : Machine} (hfits : m.status.Fits) (hstage : m.status.stage ≠ .idle)
    (high : Bool) : serveHalf m high = some { m with status := m.status.refill high } := by
  rw [serveHalf, if_pos hstage, fillBitBuffer_eq hfits, Status.refill]
  by_cases hdone : m.status.stage = .done
  · rw [if_pos hdone, if_pos hdone]
    rfl
  · rw [if_neg hdone, if_neg hdone]
    rfl

/-- An idle driver clears its buffer and stops the stream. -/
theorem serveHalf_idle {m : Machine} (hstage : m.status.stage = .idle) (high : Bool) :
    serveHalf m high = some { m with
      status := clearBitBuffer m.status
      enabled := false
      compare := 0 } := by
  rw [serveHalf, if_neg (by rw [hstage]; decide)]
  rfl

/-- The state after `ws2812_send` has filled both halves. -/
theorem send_eq {leds : List Led} {ledCount : ℤ} (hcount : ledCount.toNat = leds.length)
    (hlow : -2147483648 ≤ 24 * (ledCount - 2)) (hslots : 24 * leds.length < 2147483648)
    (m : Machine) :
    send m leds ledCount = some (dmaStart { m with
      status :=
        { leds := leds
          ledCount := ledCount
          ledsSent := max 1 (min 3 leds.length) + max 1 (min 3 (leds.drop 3).length)
          stage := if (leds.drop 3).length < 3 then .done else .sending
          bitBuffer := writeBlock (writeBlock m.status.bitBuffer 0 (chunk leds)) 72
            (chunk (leds.drop 3)) }
      clocked := []
      interrupts := 0 }) := by
  let s0 : Status := { m.status with leds := leds, ledCount := ledCount, ledsSent := 0 }
  have hfits : s0.Fits := by
    refine ⟨hcount, hslots, Int.le_refl 0, ?_⟩
    show -2147483648 ≤ (ledCount - 0) * 24
    omega
  let s1 : Status := { s0 with
    stage := if leds.length < 3 then .done else .sending
    bitBuffer := writeBlock m.status.bitBuffer 0 (chunk leds)
    ledsSent := 0 + max 1 (min 3 leds.length) }
  have hlow : fillLowBitBuffer s0 = some s1 := fillBitBuffer_eq hfits false
  have hfits1 : s1.Fits := by
    refine ⟨hcount, hslots, ?_, ?_⟩
    · show (0 : ℤ) ≤ 0 + max 1 (min 3 leds.length)
      omega
    · show -2147483648 ≤ (ledCount - (0 + max 1 (min 3 leds.length))) * 24
      omega
  have hrest1 : s1.rest = leds.drop 3 := rest_fill hfits rfl rfl
  have hhigh := fillBitBuffer_eq hfits1 true
  rw [hrest1] at hhigh
  have hsent : s1.ledsSent = max 1 (min 3 leds.length) := Int.zero_add _
  rw [hsent] at hhigh
  rw [send, initBitBuffer, hlow]
  simp only [Option.bind_eq_bind, Option.bind_some, fillHighBitBuffer, hhigh]
  rfl

/-- A half that has been filled holds its chunk. -/
theorem readBlock_filled (buffer : ℕ → ℕ) (high : Bool) (leds : List Led) :
    readBlock (writeBlock buffer (halfStart high) (chunk leds)) (halfStart high) 72 =
      chunk leds := by
  have h := readBlock_writeBlock buffer (halfStart high) (chunk leds)
  rwa [length_chunk] at h

/-- Filling one half leaves the other one alone. -/
theorem readBlock_other (buffer : ℕ → ℕ) (high : Bool) (leds : List Led) :
    readBlock (writeBlock buffer (halfStart high) (chunk leds)) (halfStart !high) 72 =
      readBlock buffer (halfStart !high) 72 := by
  refine readBlock_congr fun i hi hi' => ?_
  cases high with
  | false => exact writeBlock_of_le (by rw [length_chunk]; exact hi)
  | true => exact writeBlock_of_lt (by simpa [halfStart] using hi') _

/-! ### A whole half -/

/-- The ticks within a half take its slots one after the other. -/
theorem ticks_within {m : Machine} (henabled : m.enabled = true) {high : Bool} {k : ℕ}
    (hlow : halfStart high ≤ m.position) (hhigh : m.position + k < halfStart high + 72) :
    ticks k m = some { m with
      position := m.position + k
      compare := (readBlock m.status.bitBuffer m.position k).getLastD m.compare
      clocked := m.clocked ++ readBlock m.status.bitBuffer m.position k } := by
  induction k generalizing m with
  | zero => simp [readBlock]
  | succ k ih =>
    have hnext : m.position + 1 ≠ 72 ∧ m.position + 1 ≠ 144 := by
      cases high <;> simp only [halfStart, if_true, Bool.false_eq_true, if_false] at hlow hhigh <;>
        omega
    have htake : (m.takeSlot (m.position + 1)).position = m.position + 1 := rfl
    have hsum : m.position + 1 + k = m.position + (k + 1) := by omega
    rw [ticks_succ, tick_within henabled hnext, Option.bind_some,
      @ih (m.takeSlot (m.position + 1)) henabled (by omega) (by omega)]
    simp only [Machine.takeSlot, readBlock, List.getLastD_cons, hsum, List.append_assoc,
      List.singleton_append]

/-- **The ticks of a whole half** take its 72 slots, and then the handler serves it. -/
theorem ticks_half {m : Machine} (henabled : m.enabled = true) (hquiet : m.Quiet) {high : Bool}
    (hposition : m.position = halfStart high) :
    ticks 72 m = (serveHalf { m with
      position := halfStart !high
      compare := (readBlock m.status.bitBuffer m.position 72).getLastD m.compare
      clocked := m.clocked ++ readBlock m.status.bitBuffer m.position 72 } high).map
        Machine.countInterrupt := by
  let m1 : Machine := { m with
    position := m.position + 71
    compare := (readBlock m.status.bitBuffer m.position 71).getLastD m.compare
    clocked := m.clocked ++ readBlock m.status.bitBuffer m.position 71 }
  have hwithin : ticks 71 m = some m1 :=
    @ticks_within m henabled high 71 (by omega) (by omega)
  have hlast : m1.position + 1 = halfStart high + 72 := by
    show m.position + 71 + 1 = halfStart high + 72
    omega
  have hboundary := tick_boundary (m := m1) henabled hquiet hlast
  have hone (o : Option Machine) : o.bind (ticks 0) = o := by
    cases o <;> rfl
  rw [ticks_add 71 1, hwithin, Option.bind_some, ticks_succ, hone, hboundary]
  simp only [m1, Machine.takeSlot, readBlock_concat _ _ 71, List.getLastD_concat,
    List.append_assoc]

end WifiMcu.Ws2812
