import WifiMcu.Ws2812.Driver

/-!
# Frames and the filling of a half buffer

A frame is the sequence of its LEDs, and each LED is 24 slots: its green, red and
blue byte, the highest bit first. Filling a half buffer takes the next three LEDs
of the frame, or pads those that are left with zero slots.
-/

namespace WifiMcu.Ws2812

open Word Memory

/-! ### The slots of a frame -/

/-- The compare value of a bit. -/
def bitSlot (bit : Bool) : ℕ := if bit then period900ns else period350ns

/-- The slots of a colour, the highest bit first. -/
def colorSlots (color : BitVec 8) : List ℕ := (List.range 8).map fun i => bitSlot (color.getMsbD i)

/-- The slots of an LED: green, red, blue. -/
def Led.slots (led : Led) : List ℕ := colorSlots led.g ++ colorSlots led.r ++ colorSlots led.b

/-- The slots of a sequence of LEDs. -/
def frameSlots (leds : List Led) : List ℕ := leds.flatMap Led.slots

/-- What a half buffer holds when `leds` are still to be sent: up to three of them, and
zero slots for those that are missing. -/
def chunk (leds : List Led) : List ℕ :=
  frameSlots (leds.take 3) ++ List.replicate (24 * (3 - leds.length)) 0

/-- No slot of an LED is zero. -/
theorem bitSlot_ne_zero (bit : Bool) : bitSlot bit ≠ 0 := by
  revert bit; decide

/-- An LED has 24 slots. -/
@[simp] theorem Led.length_slots (led : Led) : led.slots.length = 24 := by
  simp [Led.slots, colorSlots]

/-- A frame has 24 slots for each LED. -/
@[simp] theorem length_frameSlots (leds : List Led) :
    (frameSlots leds).length = 24 * leds.length := by
  induction leds with
  | nil => rfl
  | cons led leds ih =>
    rw [frameSlots] at ih ⊢
    rw [List.flatMap_cons, List.length_append, ih, Led.length_slots, List.length_cons]
    omega

/-- The slots of two sequences of LEDs, one behind the other. -/
theorem frameSlots_append (leds leds' : List Led) :
    frameSlots (leds ++ leds') = frameSlots leds ++ frameSlots leds' := by
  simp [frameSlots]

/-- A chunk fills a half buffer. -/
@[simp] theorem length_chunk (leds : List Led) : (chunk leds).length = 72 := by
  simp only [chunk, List.length_append, length_frameSlots, List.length_take,
    List.length_replicate]
  omega

/-- All slots of a frame are nonzero. -/
theorem ne_zero_of_mem_frameSlots {leds : List Led} {slot : ℕ} (h : slot ∈ frameSlots leds) :
    slot ≠ 0 := by
  simp only [frameSlots, List.mem_flatMap, Led.slots, colorSlots, List.mem_append,
    List.mem_map] at h
  obtain ⟨led, -, (⟨i, -, rfl⟩ | ⟨i, -, rfl⟩) | ⟨i, -, rfl⟩⟩ := h
  · exact bitSlot_ne_zero _
  · exact bitSlot_ne_zero _
  · exact bitSlot_ne_zero _

/-- The nonzero slots of a chunk are those of its LEDs. -/
theorem filter_chunk (leds : List Led) :
    (chunk leds).filter (· ≠ 0) = frameSlots (leds.take 3) := by
  rw [chunk, List.filter_append, List.filter_eq_self.mpr fun slot h => by
    simpa using ne_zero_of_mem_frameSlots h]
  simp

/-! ### The bits of an LED -/

/-- The test of the code for a single bit. -/
theorem shift_and_one_ne_zero (x : BitVec 32) (k : ℕ) :
    x >>> k &&& 1#32 ≠ 0 ↔ x.getLsbD k = true := by
  simp [BitVec.toNat_eq, BitVec.getLsbD, Nat.testBit, Nat.and_comm]

/-- The slot that the code computes for bit `31 - i` of `grbu` is the slot `i` of the LED. -/
theorem slots_eq (led : Led) :
    led.slots = (List.range 24).map fun i => bitSlot (led.grbu.getLsbD (31 - i)) := by
  have hrange : List.range 24 = List.range 8 ++ (List.range 8).map (8 + ·) ++
      (List.range 8).map (16 + ·) := by decide
  have hbits : ∀ i < 8, led.g.getMsbD i = led.grbu.getLsbD (31 - i) ∧
      led.r.getMsbD i = led.grbu.getLsbD (31 - (8 + i)) ∧
      led.b.getMsbD i = led.grbu.getLsbD (31 - (16 + i)) := by
    intro i hi
    have hmsb (x : BitVec 8) : x.getMsbD i = x.getLsbD (7 - i) := by
      simp [BitVec.getMsbD, hi]
    have hg : 31 - i - 8 - 8 - 8 = 7 - i := by omega
    have hr : 31 - (8 + i) - 8 - 8 = 7 - i := by omega
    have hb : 31 - (16 + i) - 8 = 7 - i := by omega
    simp only [hmsb, Led.grbu, BitVec.getLsbD_append]
    refine ⟨?_, ?_, ?_⟩
    · rw [if_neg (by omega), if_neg (by omega), if_neg (by omega), hg]
    · rw [if_neg (by omega), if_neg (by omega), if_pos (by omega), hr]
    · rw [if_neg (by omega), if_pos (by omega), hb]
  rw [hrange, List.map_append, List.map_append, List.map_map, List.map_map]
  refine congrArg₂ _ (congrArg₂ _ ?_ ?_) ?_ <;>
    refine List.map_congr_left fun i hi => ?_ <;>
    have h := hbits i (List.mem_range.mp hi)
  · rw [h.1]
  · rw [h.2.1]
    rfl
  · rw [h.2.2]
    rfl

/-! ### Filling a half buffer -/

/-- The slot that the first loop stores at index `i`. -/
def slotAt (leds : List Led) (i : ℕ) : ℕ :=
  (leds[i / 24]?).elim 0 fun led => bitSlot (led.grbu.getLsbD (31 - i % 24))

/-- The slots of a frame by their indices. -/
theorem frameSlots_eq (leds : List Led) :
    frameSlots leds = (List.range (24 * leds.length)).map (slotAt leds) := by
  induction leds with
  | nil => rfl
  | cons led leds ih =>
    have hlength : 24 * (led :: leds).length = 24 + 24 * leds.length := by
      rw [List.length_cons]
      omega
    rw [hlength, List.range_add, List.map_append, List.map_map]
    rw [frameSlots] at ih ⊢
    rw [List.flatMap_cons, ih, slots_eq]
    refine congrArg₂ _ (List.map_congr_left fun i hi => ?_) (List.map_congr_left fun i _ => ?_)
    · have hlt := List.mem_range.mp hi
      have hdiv : i / 24 = 0 := by omega
      have hmod : i % 24 = i := by omega
      simp [slotAt, hdiv, hmod]
    · have hdiv : (24 + i) / 24 = i / 24 + 1 := by omega
      have hmod : (24 + i) % 24 = i % 24 := by omega
      simp [slotAt, hdiv, hmod]

/-- The LED of a slot is one of those that are left. -/
theorem readLed_slot {s : Status} {sent i : ℕ} (hsent : s.ledsSent = sent)
    (h : i / 24 < (s.leds.drop sent).length) :
    readLed s.leds (s.ledsSent + (i / 24 : ℕ)) = some ((s.leds.drop sent).get ⟨i / 24, h⟩) := by
  have hindex : (s.ledsSent + (i / 24 : ℕ)).toNat = sent + i / 24 := by
    rw [hsent]
    omega
  rw [readLed, if_pos (by omega), hindex, ← List.getElem?_drop, List.getElem?_eq_getElem h]
  rfl

/-- The LED of the last slot stored does not depend on where the counting starts. -/
theorem lastLed_succ {s : Status} {sent i limit : ℕ} (hsent : s.ledsSent = sent) (hlt : i < limit)
    (remaining : ℕ) :
    (if i + 1 < limit ∧ 0 < remaining then
        ((sent + (min (i + 1 + remaining) limit - 1) / 24 : ℕ) : ℤ)
      else s.ledsSent + (i / 24 : ℕ)) =
      ((sent + (min (i + (remaining + 1)) limit - 1) / 24 : ℕ) : ℤ) := by
  rw [hsent]
  split_ifs with h
  · have hnext : i + 1 + remaining = i + (remaining + 1) := by omega
    rw [hnext]
  · have hlast : (min (i + (remaining + 1)) limit - 1) / 24 = i / 24 := by
      congr 1
      omega
    rw [hlast]
    push_cast
    rfl

/-- The first loop stores the slots of the LEDs that are left, up to the end of the
half buffer. -/
theorem sendLoop_eq {s : Status} {sent limit : ℕ} (hsent : s.ledsSent = sent)
    (hlimit : ∀ i : ℕ, (i : ℤ) < wrap32 ((s.ledCount - s.ledsSent) * 24) ↔ i < limit)
    (hleds : limit ≤ 24 * (s.leds.drop sent).length) (remaining : ℕ) {i : ℕ} (hi : i ≤ limit)
    (led : ℤ) :
    sendLoop s remaining i led =
      some ((List.range' i (min remaining (limit - i))).map (slotAt (s.leds.drop sent)),
        if i < limit ∧ 0 < remaining then
          ((sent + (min (i + remaining) limit - 1) / 24 : ℕ) : ℤ) else led,
        decide (limit < i + remaining)) := by
  induction remaining generalizing i led with
  | zero => simp [sendLoop, hi]
  | succ remaining ih =>
    by_cases hlt : i < limit
    · have hget : i / 24 < (s.leds.drop sent).length := by omega
      have hcount : min (remaining + 1) (limit - i) = min remaining (limit - (i + 1)) + 1 := by
        omega
      have hslot : slotAt (s.leds.drop sent) i =
          bitSlot (((s.leds.drop sent).get ⟨i / 24, hget⟩).grbu.getLsbD (31 - i % 24)) := by
        rw [slotAt, List.getElem?_eq_getElem hget]
        rfl
      have hleft : decide (limit < i + 1 + remaining) = decide (limit < i + (remaining + 1)) := by
        congr 2
        omega
      have hnext := ih (i := i + 1) (by omega) (s.ledsSent + (i / 24 : ℕ))
      rw [hleft, lastLed_succ hsent hlt] at hnext
      rw [sendLoop, if_pos ((hlimit i).mpr hlt), readLed_slot hsent hget, hnext, hcount,
        List.range'_succ, if_pos ⟨hlt, Nat.succ_pos _⟩]
      simp only [Option.bind_eq_bind, Option.bind_some, List.map_cons, hslot, bitSlot,
        shift_and_one_ne_zero]
      rfl
    · have hzero : min (remaining + 1) (limit - i) = 0 := by omega
      have hbreak : limit < i + (remaining + 1) := by omega
      rw [sendLoop, if_neg (mt (hlimit i).mp hlt), hzero, if_neg (by omega)]
      simp [hbreak]

/-- The LEDs of the frame that no half buffer has been filled with yet. -/
def Status.rest (s : Status) : List Led := s.leds.drop s.ledsSent.toNat

/-- `leds` points to `led_count` LEDs, and an `int` can count the slots of those that the
send counter leaves. -/
structure Status.Fits (s : Status) : Prop where
  count : s.ledCount.toNat = s.leds.length
  slots : 24 * s.leds.length < 2147483648
  sent_nonneg : 0 ≤ s.ledsSent
  low : -2147483648 ≤ (s.ledCount - s.ledsSent) * 24

/-- The first loop takes up to three LEDs. -/
theorem sendLoop_fits {s : Status} (h : s.Fits) :
    sendLoop s 72 0 s.ledsSent = some (frameSlots (s.rest.take 3),
      s.ledsSent + max 1 (min 3 s.rest.length) - 1, decide (s.rest.length < 3)) := by
  obtain ⟨hcount, hslots, hnonneg, hlow⟩ := h
  obtain ⟨sent, hsent⟩ := Int.eq_ofNat_of_zero_le hnonneg
  have hrest : s.rest = s.leds.drop sent := by rw [Status.rest, hsent, Int.toNat_natCast]
  have hlength : s.rest.length = s.leds.length - sent := by rw [hrest, List.length_drop]
  have hlimit (i : ℕ) : (i : ℤ) < wrap32 ((s.ledCount - s.ledsSent) * 24) ↔
      i < 24 * s.rest.length := by
    rw [wrap32_of_range (by omega) (by omega)]
    omega
  have hleds : 24 * s.rest.length ≤ 24 * (s.leds.drop sent).length :=
    Nat.le_of_eq (by rw [hrest])
  rw [sendLoop_eq hsent hlimit hleds 72 (Nat.zero_le _), ← hrest, frameSlots_eq,
    ← List.range_eq_range']
  have hslots : (List.range (min 72 (24 * s.rest.length - 0))).map (slotAt s.rest) =
      (List.range (24 * (s.rest.take 3).length)).map (slotAt (s.rest.take 3)) := by
    have hmin : min 72 (24 * s.rest.length - 0) = 24 * (s.rest.take 3).length := by
      rw [List.length_take]
      omega
    rw [hmin]
    refine List.map_congr_left fun i hi => ?_
    have hlt := List.mem_range.mp hi
    rw [List.length_take] at hlt
    rw [slotAt, slotAt, List.getElem?_take_of_lt (by omega)]
  have hled : (if 0 < 24 * s.rest.length ∧ 0 < 72 then
      ((sent + (min (0 + 72) (24 * s.rest.length) - 1) / 24 : ℕ) : ℤ) else s.ledsSent) =
        s.ledsSent + max 1 (min 3 s.rest.length) - 1 := by
    rw [hsent]
    split_ifs <;> omega
  have hleft : decide (24 * s.rest.length < 0 + 72) = decide (s.rest.length < 3) :=
    decide_eq_decide.mpr (by omega)
  rw [hslots, hled, hleft]

/-- **Filling a half buffer.** The half holds the next chunk of the frame, whose LEDs
are no longer left. The stage says whether the chunk was full. -/
theorem fillBitBuffer_eq {s : Status} (h : s.Fits) (high : Bool) :
    fillBitBuffer s high = some { s with
      stage := if s.rest.length < 3 then .done else .sending
      bitBuffer := writeBlock s.bitBuffer (if high then 72 else 0) (chunk s.rest)
      ledsSent := s.ledsSent + max 1 (min 3 s.rest.length) } := by
  have hzeros : 72 - (frameSlots (s.rest.take 3)).length = 24 * (3 - s.rest.length) := by
    rw [length_frameSlots, List.length_take]
    omega
  have hhalf : bitBufferSize / 2 = 72 := rfl
  simp only [fillBitBuffer, hhalf, sendLoop_fits h, Option.bind_eq_bind, Option.bind_some, hzeros,
    Int.sub_add_cancel, chunk, decide_eq_true_eq]
  rfl

/-- Filling a half takes its LEDs from those that are left. -/
theorem rest_fill {s : Status} (h : s.Fits) {t : Status} (hleds : t.leds = s.leds)
    (hsent : t.ledsSent = s.ledsSent + max 1 (min 3 s.rest.length)) :
    t.rest = s.rest.drop 3 := by
  have hnonneg := h.sent_nonneg
  rw [Status.rest, hleds, Status.rest, List.drop_drop]
  have hlength : s.rest.length = s.leds.length - s.ledsSent.toNat := by
    rw [Status.rest, List.length_drop]
  by_cases hfull : 3 ≤ s.rest.length
  · congr 1
    omega
  · rw [List.drop_of_length_le (by omega), List.drop_of_length_le (by omega)]

end WifiMcu.Ws2812
