import WifiMcu.Ws2812.Clocking

/-!
# When an idle driver has sent its frame

The slots that the stream has clocked out since a frame was sent, those it will
still take from the buffer, and those of the LEDs that are left make up the frame.
The driver calls itself idle with the interrupt that fills a half after the last
LEDs were filled in, while the other half is still to be clocked out. Whether that
half is empty depends on the length of the frame. An idle driver whose stream has
not been stopped yet may be sent a frame too; only one without LEDs is whole then.
-/

namespace WifiMcu.Ws2812

open Memory Transition

/-! ### Slots that carry a bit -/

/-- The nonzero slots of a sequence. -/
def litSlots (slots : List ℕ) : List ℕ := slots.filter (· ≠ 0)

/-- The nonzero slots of two sequences, one behind the other. -/
@[simp] theorem litSlots_append (a b : List ℕ) : litSlots (a ++ b) = litSlots a ++ litSlots b :=
  List.filter_append a b

/-- The nonzero slots of a chunk are those of its LEDs. -/
@[simp] theorem litSlots_chunk (leds : List Led) :
    litSlots (chunk leds) = frameSlots (leds.take 3) :=
  filter_chunk leds

/-- Whether the stream is in the high half. -/
def Machine.inHigh (m : Machine) : Bool := 72 ≤ m.position

/-- The slots of the half that the stream is in and has not taken yet. -/
def Machine.halfPending (m : Machine) : List ℕ :=
  readBlock m.status.bitBuffer m.position (halfStart m.inHigh + 72 - m.position)

/-- The slots of the half that the stream takes next. -/
def Machine.nextHalf (m : Machine) : List ℕ :=
  readBlock m.status.bitBuffer (halfStart !m.inHigh) 72

/-- The slots that are still to be taken before the half that the stream is in is
filled a second time. -/
def Machine.pending (m : Machine) : List ℕ := m.halfPending ++ m.nextHalf

/-- **Honesty of an idle driver.** No slot that the stream takes before it is stopped
carries a bit, and all the slots of the last frame have been clocked out. -/
def FrameClocked (m : Machine) : Prop :=
  (∀ k m', ticks k m = some m' → m'.enabled = true →
    m'.status.bitBuffer m'.position = 0) ∧
  (litSlots m.clocked).Perm (frameSlots m.status.leds)

/-- When a frame may be sent so that the driver is idle only after the frame: an `int`
counts its slots, and the half that is filled last does not hold any LED. A stream that
still runs takes slots while the halves are filled, so only a frame without LEDs may be
sent there. -/
def SendsWhole (m : Machine) : Action → Prop
  | .tick => True
  | .send _ ledCount =>
    -2147483648 ≤ 24 * (ledCount - 2) ∧ 24 * ledCount < 2147483648 ∧
      if m.enabled then ledCount ≤ 0 else ledCount ≤ 2 ∨ 3 ∣ ledCount

/-- What holds in every state of the driver if every frame is sent at a suitable slot. -/
structure Conserved (m : Machine) : Prop where
  quiet : m.Quiet
  position_lt : m.position < 144
  count : m.status.ledCount.toNat = m.status.leds.length
  low : -2147483648 ≤ 24 * (m.status.ledCount - 2)
  slots : 24 * m.status.leds.length < 2147483648
  sent_nonneg : 0 ≤ m.status.ledsSent
  not_reset : m.status.stage ≠ .reset
  stopped : m.enabled = false → m.status.stage = .idle ∧
    (litSlots m.clocked).Perm (frameSlots m.status.leds)
  running : m.enabled = true →
    (litSlots (m.clocked ++ m.pending) ++ frameSlots m.status.rest).Perm
      (frameSlots m.status.leds)
  sending : m.status.stage = .sending →
    3 ∣ m.status.rest.length ∧ m.status.ledsSent ≤ m.status.leds.length
  done : m.status.stage = .done → m.status.rest = [] ∧
    m.status.ledsSent ≤ m.status.leds.length + 2 ∧ litSlots m.nextHalf = []
  idle : m.status.stage = .idle → m.enabled = true →
    m.status.rest = [] ∧ litSlots m.pending = []

/-- The driver is idle and stopped at first. -/
theorem conserved_init : Conserved Machine.init where
  quiet := ⟨rfl, rfl⟩
  position_lt := by decide
  count := rfl
  low := by decide
  slots := by decide
  sent_nonneg := by decide
  not_reset := by decide
  stopped _ := ⟨rfl, List.Perm.refl _⟩
  running h := by cases h
  sending h := by cases h
  done h := by cases h
  idle _ h := by cases h

/-! ### A tick -/

/-- The first pending slot is the one that the stream takes. -/
theorem pending_eq_cons {m : Machine} (h : m.position < 144) :
    ∃ l, m.pending = m.status.bitBuffer m.position :: l := by
  obtain ⟨n, hn⟩ : ∃ n, halfStart m.inHigh + 72 - m.position = n + 1 := by
    refine Nat.exists_eq_succ_of_ne_zero ?_
    unfold Machine.inHigh halfStart
    split_ifs with hhigh
    · omega
    · have := of_decide_eq_false (Bool.of_not_eq_true hhigh)
      omega
  refine ⟨readBlock m.status.bitBuffer (m.position + 1) n ++ m.nextHalf, ?_⟩
  rw [Machine.pending, Machine.halfPending, hn, readBlock, List.cons_append]

/-- Within a half the pending slots are those after the one taken. -/
theorem pending_within {m : Machine} (h : m.position < 144)
    (hnext : m.position + 1 ≠ 72 ∧ m.position + 1 ≠ 144) :
    m.pending = m.status.bitBuffer m.position :: (m.takeSlot (m.position + 1)).pending ∧
      (m.takeSlot (m.position + 1)).nextHalf = m.nextHalf := by
  have hhigh : (m.takeSlot (m.position + 1)).inHigh = m.inHigh := by
    show decide (72 ≤ m.position + 1) = decide (72 ≤ m.position)
    rw [decide_eq_decide]
    omega
  have hnextHalf : (m.takeSlot (m.position + 1)).nextHalf = m.nextHalf := by
    rw [Machine.nextHalf, hhigh]
    rfl
  have hcount : halfStart m.inHigh + 72 - m.position =
      halfStart m.inHigh + 72 - (m.position + 1) + 1 := by
    unfold Machine.inHigh halfStart
    split_ifs with hhigh'
    · have := of_decide_eq_true hhigh'
      omega
    · have := of_decide_eq_false (Bool.of_not_eq_true hhigh')
      omega
  refine ⟨?_, hnextHalf⟩
  rw [Machine.pending, Machine.pending, hnextHalf, Machine.halfPending, Machine.halfPending, hhigh,
    hcount, readBlock, List.cons_append]
  rfl

/-- The last slot of a half is followed by the other half. -/
theorem pending_boundary {m : Machine}
    (hlast : m.position + 1 = halfStart m.inHigh + 72) :
    m.pending = m.status.bitBuffer m.position :: m.nextHalf := by
  have hone : halfStart m.inHigh + 72 - m.position = 0 + 1 := by omega
  rw [Machine.pending, Machine.halfPending, hone]
  rfl

/-- A slot taken within a half goes from the pending slots to those clocked out. -/
theorem Conserved.takeSlot {m : Machine} (h : Conserved m) (henabled : m.enabled = true)
    (hnext : m.position + 1 ≠ 72 ∧ m.position + 1 ≠ 144) :
    Conserved (m.takeSlot (m.position + 1)) := by
  obtain ⟨hpending, hhalf⟩ := pending_within h.position_lt hnext
  have hlt := h.position_lt
  have hclocked : (m.takeSlot (m.position + 1)).clocked ++ (m.takeSlot (m.position + 1)).pending =
      m.clocked ++ m.pending := by
    rw [hpending, Machine.takeSlot, List.append_assoc]
    rfl
  refine ⟨h.quiet, ?_, h.count, h.low, h.slots, h.sent_nonneg, h.not_reset, ?_, ?_, h.sending,
    ?_, ?_⟩
  · show m.position + 1 < 144
    omega
  · intro hstopped
    exact absurd (henabled.symm.trans hstopped) (by decide)
  · intro _
    rw [hclocked]
    exact h.running henabled
  · intro hdone
    rw [hhalf]
    exact h.done hdone
  · intro hidle _
    obtain ⟨hrest, hnone⟩ := h.idle hidle henabled
    refine ⟨hrest, ?_⟩
    rw [hpending] at hnone
    have hcons := List.filter_eq_nil_iff.mp hnone
    exact List.filter_eq_nil_iff.mpr fun slot hslot => hcons slot (List.mem_cons_of_mem _ hslot)

/-- The state may be filled again as long as the driver is not idle. -/
theorem Conserved.fits {m : Machine} (h : Conserved m) (hstage : m.status.stage ≠ .idle) :
    m.status.Fits := by
  have hle : m.status.ledsSent ≤ m.status.leds.length + 2 := by
    cases hs : m.status.stage with
    | idle => exact absurd hs hstage
    | sending =>
      have := (h.sending hs).2
      omega
    | done =>
      have := (h.done hs).2.1
      omega
    | reset => exact absurd hs h.not_reset
  have hcount := h.count
  have hlow := h.low
  exact ⟨hcount, h.slots, h.sent_nonneg, by omega⟩

/-- The slots of a frame are those of its first three LEDs and of the other ones. -/
theorem frameSlots_take_drop (leds : List Led) :
    frameSlots (leds.take 3) ++ frameSlots (leds.drop 3) = frameSlots leds := by
  rw [← frameSlots_append, List.take_append_drop]

/-- The machine behind the interrupt at the end of a half that fills this half again. -/
def Machine.refilled (m : Machine) : Machine :=
  ({ m.takeSlot (halfStart !m.inHigh) with status := m.status.refill m.inHigh }).countInterrupt

/-- The stream has gone on to the other half. -/
theorem inHigh_refilled (m : Machine) : m.refilled.inHigh = !m.inHigh := by
  show decide (72 ≤ halfStart !m.inHigh) = !m.inHigh
  cases m.inHigh <;> rfl

/-- The slots of the other half are those that the stream takes now. -/
theorem halfPending_refilled (m : Machine) : m.refilled.halfPending = m.nextHalf := by
  have hposition : m.refilled.position = halfStart !m.inHigh := rfl
  rw [Machine.halfPending, inHigh_refilled, hposition, Nat.add_sub_cancel_left]
  exact readBlock_other _ _ _

/-- The half that was filled is taken next. -/
theorem nextHalf_refilled (m : Machine) : m.refilled.nextHalf = chunk m.status.rest := by
  rw [Machine.nextHalf, inHigh_refilled, Bool.not_not]
  exact readBlock_filled _ _ _

/-- The LEDs in the half that was filled are no longer left. -/
theorem rest_refilled {m : Machine} (h : m.status.Fits) :
    m.refilled.status.rest = m.status.rest.drop 3 :=
  rest_fill h rfl rfl

/-- The send counter goes on by the LEDs in the half, at least by one. -/
theorem ledsSent_refilled (m : Machine) : m.refilled.status.ledsSent =
    m.status.ledsSent + max 1 (min 3 m.status.rest.length) := rfl

/-- The stage follows from the LEDs in the half, unless the driver was done. -/
theorem stage_refilled (m : Machine) : m.refilled.status.stage =
    if m.status.stage = .done then .idle
    else if m.status.rest.length < 3 then .done else .sending := rfl

/-- A driver that is not idle and not done is sending. -/
theorem Conserved.stage_eq_sending {m : Machine} (h : Conserved m)
    (hidle : m.status.stage ≠ .idle) (hdone : m.status.stage ≠ .done) :
    m.status.stage = .sending := by
  cases hs : m.status.stage with
  | idle => exact absurd hs hidle
  | sending => rfl
  | done => exact absurd hs hdone
  | reset => exact absurd hs h.not_reset

/-- Filling a half moves LEDs from those left to the pending slots. -/
theorem Conserved.running_refilled {m : Machine} (h : Conserved m) (henabled : m.enabled = true)
    (hlast : m.position + 1 = halfStart m.inHigh + 72) (hfits : m.status.Fits) :
    (litSlots (m.refilled.clocked ++ m.refilled.pending) ++
      frameSlots m.refilled.status.rest).Perm (frameSlots m.status.leds) := by
  have hrunning := h.running henabled
  have hclocked : m.refilled.clocked = m.clocked ++ [m.status.bitBuffer m.position] := rfl
  rw [pending_boundary hlast, ← frameSlots_take_drop m.status.rest,
    ← List.singleton_append] at hrunning
  rw [Machine.pending, hclocked, halfPending_refilled, nextHalf_refilled, rest_refilled hfits]
  simp only [litSlots_append, litSlots_chunk, List.append_assoc] at hrunning ⊢
  exact hrunning

/-- A driver that is still sending has filled the half with three LEDs. -/
theorem Conserved.sending_refilled {m : Machine} (h : Conserved m)
    (hstage : m.status.stage ≠ .idle) (hsending : m.refilled.status.stage = .sending) :
    3 ∣ m.refilled.status.rest.length ∧ m.refilled.status.ledsSent ≤ m.status.leds.length := by
  have hfull : m.status.stage ≠ .done ∧ ¬ m.status.rest.length < 3 := by
    rw [stage_refilled] at hsending
    split_ifs at hsending with hdone hshort
    exact ⟨hdone, hshort⟩
  obtain ⟨hdvd, hle⟩ := h.sending (h.stage_eq_sending hstage hfull.1)
  have hlength : m.status.rest.length = m.status.leds.length - m.status.ledsSent.toNat := by
    rw [Status.rest, List.length_drop]
  have hnonneg := h.sent_nonneg
  rw [rest_refilled (h.fits hstage), ledsSent_refilled, List.length_drop]
  omega

/-- A driver that is done has filled the half with zero slots. -/
theorem Conserved.done_refilled {m : Machine} (h : Conserved m)
    (hstage : m.status.stage ≠ .idle) (hdone : m.refilled.status.stage = .done) :
    m.refilled.status.rest = [] ∧ m.refilled.status.ledsSent ≤ m.status.leds.length + 2 ∧
      litSlots m.refilled.nextHalf = [] := by
  have hpartial : m.status.stage ≠ .done ∧ m.status.rest.length < 3 := by
    rw [stage_refilled] at hdone
    split_ifs at hdone with hdone' hshort
    exact ⟨hdone', hshort⟩
  obtain ⟨hdvd, hle⟩ := h.sending (h.stage_eq_sending hstage hpartial.1)
  have hnil : m.status.rest = [] := by
    rw [← List.length_eq_zero_iff]
    omega
  rw [rest_refilled (h.fits hstage), ledsSent_refilled, nextHalf_refilled, hnil]
  refine ⟨rfl, ?_, rfl⟩
  simp only [List.length_nil]
  omega

/-- A driver that has become idle has only zero slots left. -/
theorem Conserved.idle_refilled {m : Machine} (h : Conserved m)
    (hstage : m.status.stage ≠ .idle) (hidle : m.refilled.status.stage = .idle) :
    m.refilled.status.rest = [] ∧ litSlots m.refilled.pending = [] := by
  have hdone : m.status.stage = .done := by
    rw [stage_refilled] at hidle
    split_ifs at hidle with hdone
    exact hdone
  obtain ⟨hnil, -, hnone⟩ := h.done hdone
  rw [rest_refilled (h.fits hstage), Machine.pending, halfPending_refilled, nextHalf_refilled,
    litSlots_append, hnone, hnil]
  exact ⟨rfl, rfl⟩

/-- The last slot of a half is taken, and the half is filled again. -/
theorem Conserved.refill {m : Machine} (h : Conserved m) (henabled : m.enabled = true)
    (hlast : m.position + 1 = halfStart m.inHigh + 72) (hstage : m.status.stage ≠ .idle) :
    Conserved m.refilled where
  quiet := h.quiet
  position_lt := by
    show (halfStart !m.inHigh) < 144
    cases m.inHigh <;> decide
  count := h.count
  low := h.low
  slots := h.slots
  sent_nonneg := by
    have hnonneg := h.sent_nonneg
    rw [ledsSent_refilled]
    omega
  not_reset := by
    rw [stage_refilled]
    split_ifs <;> decide
  stopped hstopped := absurd (henabled.symm.trans hstopped) (by decide)
  running _ := h.running_refilled henabled hlast (h.fits hstage)
  sending := h.sending_refilled hstage
  done := h.done_refilled hstage
  idle hidle _ := h.idle_refilled hstage hidle

/-- The last slot of a half is taken, and an idle driver stops. -/
theorem Conserved.stop {m : Machine} (h : Conserved m) (henabled : m.enabled = true)
    (hlast : m.position + 1 = halfStart m.inHigh + 72) (hidle : m.status.stage = .idle) :
    Conserved ({ m.takeSlot (halfStart !m.inHigh) with
      status := clearBitBuffer m.status
      enabled := false
      compare := 0 }).countInterrupt := by
  obtain ⟨hrest, hnone⟩ := h.idle hidle henabled
  have hrunning := h.running henabled
  have hpending := pending_boundary hlast
  refine ⟨h.quiet, ?_, h.count, h.low, h.slots, h.sent_nonneg, h.not_reset, ?_, ?_, ?_, ?_, ?_⟩
  · show (halfStart !m.inHigh) < 144
    cases m.inHigh <;> decide
  · intro _
    refine ⟨hidle, ?_⟩
    show (litSlots (m.clocked ++ [m.status.bitBuffer m.position])).Perm
      (frameSlots m.status.leds)
    rw [litSlots_append, hnone, hrest] at hrunning
    have hslot : litSlots [m.status.bitBuffer m.position] = [] := by
      rw [hpending] at hnone
      have hcons := List.filter_eq_nil_iff.mp hnone
      exact List.filter_eq_nil_iff.mpr fun slot hslot =>
        hcons slot (List.mem_cons.mpr (Or.inl (List.mem_singleton.mp hslot)))
    rw [litSlots_append, hslot]
    simpa [frameSlots] using hrunning
  · intro h'
    cases h'
  · intro hsending
    exact h.sending hsending
  · intro hdone
    exact absurd (hidle.symm.trans hdone) (by decide)
  · intro _ h'
    cases h'

/-- Every tick has a result and keeps what holds of the driver. An idle driver stays idle. -/
theorem Conserved.tick {m : Machine} (h : Conserved m) :
    ∃ m', tick m = some m' ∧ Conserved m' ∧
      (m.status.stage = .idle → m'.status.stage = .idle) := by
  by_cases henabled : m.enabled = true
  · by_cases hnext : m.position + 1 ≠ 72 ∧ m.position + 1 ≠ 144
    · exact ⟨_, tick_within henabled hnext, h.takeSlot henabled hnext, fun hidle => hidle⟩
    · have hlt := h.position_lt
      have hlast : m.position + 1 = halfStart m.inHigh + 72 := by
        unfold Machine.inHigh halfStart
        split_ifs with hhigh
        · have := of_decide_eq_true hhigh
          omega
        · have := of_decide_eq_false (Bool.of_not_eq_true hhigh)
          omega
      have htick := tick_boundary henabled h.quiet hlast
      by_cases hidle : m.status.stage = .idle
      · rw [serveHalf_idle (m := m.takeSlot (halfStart !m.inHigh)) hidle, Option.map_some] at htick
        exact ⟨_, htick, h.stop henabled hlast hidle, fun _ => hidle⟩
      · rw [serveHalf_refill (m := m.takeSlot (halfStart !m.inHigh)) (h.fits hidle) hidle,
          Option.map_some] at htick
        exact ⟨_, htick, h.refill henabled hlast hidle, fun hidle' => absurd hidle' hidle⟩
  · refine ⟨m, ?_, h, fun hidle => hidle⟩
    rw [Ws2812.tick, if_neg henabled]

/-- The driver goes on for any number of ticks. An idle driver stays idle. -/
theorem Conserved.ticks {m m' : Machine} (h : Conserved m) (hidle : m.status.stage = .idle)
    {k : ℕ} (hticks : ticks k m = some m') : Conserved m' ∧ m'.status.stage = .idle := by
  induction k generalizing m with
  | zero =>
    cases hticks
    exact ⟨h, hidle⟩
  | succ k ih =>
    obtain ⟨m1, htick, h1, hidle1⟩ := h.tick
    rw [ticks_succ, htick] at hticks
    exact ih h1 (hidle1 hidle) hticks

/-! ### Sending a frame -/

/-- What `ws2812_send` leaves behind: both halves are filled, and the stream is at the
first slot or where it was running. -/
structure Sent (leds : List Led) (ledCount : ℤ) (m : Machine) : Prop where
  enabled : m.enabled = true
  clocked : m.clocked = []
  leds_eq : m.status.leds = leds
  count : m.status.ledCount = ledCount
  sent : m.status.ledsSent = max 1 (min 3 leds.length) + max 1 (min 3 (leds.drop 3).length)
  stage : m.status.stage = if (leds.drop 3).length < 3 then .done else .sending
  low : readBlock m.status.bitBuffer 0 72 = chunk leds
  high : readBlock m.status.bitBuffer 72 72 = chunk (leds.drop 3)

/-- `ws2812_send` fills both halves. -/
theorem sent_send {m m' : Machine} {leds : List Led} {ledCount : ℤ}
    (hcount : ledCount.toNat = leds.length) (hlow : -2147483648 ≤ 24 * (ledCount - 2))
    (hslots : 24 * leds.length < 2147483648) (hsend : Ws2812.send m leds ledCount = some m') :
    Sent leds ledCount m' ∧ m'.htif = m.htif ∧ m'.tcif = m.tcif ∧
      m'.position = if m.enabled then m.position else 0 := by
  rw [send_eq hcount hlow hslots m, Option.some_inj, dmaStart] at hsend
  have hlow := readBlock_other (writeBlock m.status.bitBuffer 0 (chunk leds)) true (leds.drop 3)
  have hlow' := hlow.trans (readBlock_filled m.status.bitBuffer false leds)
  have hhigh := readBlock_filled (writeBlock m.status.bitBuffer 0 (chunk leds)) true (leds.drop 3)
  by_cases henabled : m.enabled = true
  · rw [if_pos henabled] at hsend ⊢
    subst hsend
    exact ⟨⟨henabled, rfl, rfl, rfl, rfl, rfl, hlow', hhigh⟩, rfl, rfl, rfl⟩
  · rw [if_neg henabled] at hsend ⊢
    subst hsend
    exact ⟨⟨rfl, rfl, rfl, rfl, rfl, rfl, hlow', hhigh⟩, rfl, rfl, rfl⟩

/-- The LEDs behind those in the buffer. -/
theorem Sent.rest {leds : List Led} {ledCount : ℤ} {m : Machine} (h : Sent leds ledCount m) :
    m.status.rest = leds.drop 6 := by
  have hsent := h.sent
  rw [List.length_drop] at hsent
  rw [Status.rest, h.leds_eq]
  by_cases hfull : 6 ≤ leds.length
  · congr 1
    omega
  · rw [List.drop_of_length_le (by omega), List.drop_of_length_le (by omega)]

/-- The slots of the two chunks and of the LEDs behind them. -/
theorem frameSlots_chunks (leds : List Led) :
    litSlots (chunk leds) ++ litSlots (chunk (leds.drop 3)) ++ frameSlots (leds.drop 6) =
      frameSlots leds := by
  have hdrop : leds.drop 6 = (leds.drop 3).drop 3 := by rw [List.drop_drop]
  rw [litSlots_chunk, litSlots_chunk, hdrop, List.append_assoc, frameSlots_take_drop,
    frameSlots_take_drop]

/-- An empty frame fills the buffer with zero slots. -/
theorem Sent.litSlots_nil {ledCount : ℤ} {m : Machine} (h : Sent [] ledCount m) {start n : ℕ}
    (hn : start + n ≤ 144) : litSlots (readBlock m.status.bitBuffer start n) = [] := by
  refine List.filter_eq_nil_iff.mpr fun slot hslot => ?_
  obtain ⟨i, hi, hi', rfl⟩ := mem_readBlock.mp hslot
  have hmem : m.status.bitBuffer i ∈ chunk [] := by
    by_cases hlow : i < 72
    · rw [← h.low]
      exact mem_readBlock.mpr ⟨i, Nat.zero_le i, by omega, rfl⟩
    · have hhigh := h.high
      rw [List.drop_nil] at hhigh
      rw [← hhigh]
      exact mem_readBlock.mpr ⟨i, by omega, by omega, rfl⟩
  simpa using (List.mem_replicate.mp hmem).2

/-- After a frame was sent, what holds of the driver is a question of the two halves. -/
theorem Sent.conserved {leds : List Led} {ledCount : ℤ} {m : Machine} (h : Sent leds ledCount m)
    (hcount : ledCount.toNat = leds.length) (hlow : -2147483648 ≤ 24 * (ledCount - 2))
    (hslots : 24 * leds.length < 2147483648) (hquiet : m.Quiet) (hposition : m.position < 144)
    (hdvd : 6 ≤ leds.length → 3 ∣ leds.length)
    (hrunning : (litSlots m.pending ++ frameSlots (leds.drop 6)).Perm (frameSlots leds))
    (hnext : leds.length < 6 → litSlots m.nextHalf = []) : Conserved m := by
  have hrest := h.rest
  have hleds := h.leds_eq
  have hsent := h.sent
  have hstage := h.stage
  rw [List.length_drop] at hsent hstage
  refine ⟨hquiet, hposition, ?_, ?_, ?_, ?_, ?_, ?_, ?_, ?_, ?_, ?_⟩
  · rw [h.count, hcount, hleds]
  · rwa [h.count]
  · rwa [hleds]
  · omega
  · rw [hstage]
    split_ifs <;> decide
  · intro hstopped
    exact absurd (h.enabled.symm.trans hstopped) (by decide)
  · intro _
    rwa [h.clocked, List.nil_append, hrest, hleds]
  · intro hsending
    have hfull : ¬ leds.length - 3 < 3 := by
      intro hlt
      rw [hstage, if_pos hlt] at hsending
      cases hsending
    have hthree := hdvd (by omega)
    rw [hrest, List.length_drop, hleds]
    omega
  · intro hdone
    have hpartial : leds.length - 3 < 3 := by
      by_contra hge
      rw [hstage, if_neg hge] at hdone
      cases hdone
    refine ⟨?_, ?_, hnext (by omega)⟩
    · rw [hrest, List.drop_of_length_le (by omega)]
    · rw [hleds]
      omega
  · intro hidle
    rw [hstage] at hidle
    split_ifs at hidle

/-- An empty frame may be sent wherever the stream stands: nothing carries a bit. -/
theorem Sent.conserved_nil {ledCount : ℤ} {m : Machine} (h : Sent [] ledCount m)
    (hcount : ledCount.toNat = ([] : List Led).length)
    (hlow : -2147483648 ≤ 24 * (ledCount - 2)) (hquiet : m.Quiet) (hposition : m.position < 144) :
    Conserved m := by
  have hle (high : Bool) : halfStart high ≤ 72 := by cases high <;> decide
  have hhalf : litSlots m.halfPending = [] := by
    apply h.litSlots_nil
    have := hle m.inHigh
    omega
  have hnext : litSlots m.nextHalf = [] := by
    apply h.litSlots_nil
    have := hle (!m.inHigh)
    omega
  refine h.conserved hcount hlow (by decide) hquiet hposition (by simp) ?_ fun _ => hnext
  rw [Machine.pending, litSlots_append, hhalf, hnext]
  exact List.Perm.refl _

/-- Before the first slot the halves are taken in the order in which they were filled, and
the last one may be short of LEDs only if it has none. -/
theorem Sent.conserved_first {leds : List Led} {ledCount : ℤ} {m : Machine}
    (h : Sent leds ledCount m) (hcount : ledCount.toNat = leds.length)
    (hlow : -2147483648 ≤ 24 * (ledCount - 2)) (hslots : 24 * leds.length < 2147483648)
    (hquiet : m.Quiet) (hposition : m.position = 0)
    (hlength : leds.length ≤ 2 ∨ 3 ∣ leds.length) : Conserved m := by
  have hhalf : m.halfPending = chunk leds ∧ m.nextHalf = chunk (leds.drop 3) := by
    rw [Machine.halfPending, Machine.nextHalf, Machine.inHigh, hposition]
    exact ⟨h.low, h.high⟩
  refine h.conserved hcount hlow hslots hquiet (by omega) (by omega) ?_ ?_
  · rw [Machine.pending, hhalf.1, hhalf.2, litSlots_append, frameSlots_chunks]
  · intro hshort
    rw [hhalf.2, List.drop_of_length_le (by omega)]
    rfl

/-- Sending a frame at a suitable slot keeps what holds of the driver. -/
theorem Conserved.send {m m' : Machine} (h : Conserved m) {leds : List Led} {ledCount : ℤ}
    (hcount : ledCount.toNat = leds.length) (hwhole : SendsWhole m (.send leds ledCount))
    (hsend : Ws2812.send m leds ledCount = some m') : Conserved m' := by
  obtain ⟨hlow, hhigh, hwhere⟩ := hwhole
  have hslots : 24 * leds.length < 2147483648 := by omega
  obtain ⟨hsent, hhtif, htcif, hposition⟩ := sent_send hcount hlow hslots hsend
  have hquiet : m'.Quiet := ⟨hhtif.trans h.quiet.1, htcif.trans h.quiet.2⟩
  by_cases henabled : m.enabled = true
  · rw [if_pos henabled] at hwhere hposition
    obtain rfl : leds = [] := List.eq_nil_of_length_eq_zero (by omega)
    have hlt := h.position_lt
    exact hsent.conserved_nil hcount hlow hquiet (by omega)
  · rw [if_neg henabled] at hwhere hposition
    exact hsent.conserved_first hcount hlow hslots hquiet hposition (by omega)

/-- Every step that sends frames at suitable slots keeps what holds of the driver. -/
theorem Conserved.step {m m' : Machine} {a : Action} (h : Conserved m) (hwhole : SendsWhole m a)
    (hstep : Ws2812.step m a = some m') : Conserved m' := by
  cases a with
  | tick =>
    obtain ⟨m1, htick, h1, -⟩ := h.tick
    rw [Ws2812.step, htick] at hstep
    cases hstep
    exact h1
  | send leds ledCount =>
    rw [Ws2812.step] at hstep
    split_ifs at hstep with hmay
    have hcount : leds.length = ledCount.toNat := by
      by_contra hne
      exact hmay (Or.inr hne)
    exact h.send hcount.symm hwhole hstep

/-- An idle driver has sent its frame. -/
theorem Conserved.frameClocked {m : Machine} (h : Conserved m) (hidle : m.status.stage = .idle) :
    FrameClocked m := by
  constructor
  · intro k m' hticks henabled
    obtain ⟨h', hidle'⟩ := h.ticks hidle hticks
    obtain ⟨l, hl⟩ := pending_eq_cons h'.position_lt
    have hnone := (h'.idle hidle' henabled).2
    rw [hl] at hnone
    simpa using List.filter_eq_nil_iff.mp hnone _ (List.mem_cons_self ..)
  · by_cases henabled : m.enabled = true
    · obtain ⟨hrest, hnone⟩ := h.idle hidle henabled
      have hrunning := h.running henabled
      rw [litSlots_append, hnone, hrest] at hrunning
      simpa [frameSlots] using hrunning
    · exact (h.stopped (Bool.of_not_eq_true henabled)).2

/-- **When `ws2812_is_sending()` is honest.** In every run from `ws2812_init` whose frames
are all sent at suitable slots, the driver reports that it is not sending only once
every slot of the last frame that carries a bit has been clocked out, and the stream
takes only zero slots before it is stopped. -/
theorem idle_frameClocked {as : List Action} {m : Machine}
    (hwhole : Along step SendsWhole Machine.init as) (hrun : run step Machine.init as = some m)
    (hidle : isSending m.status = false) : FrameClocked m := by
  have hconserved : Conserved m :=
    hwhole.invariant (fun _ _ _ h hguard hstep => h.step hguard hstep) conserved_init hrun
  have hstage : m.status.stage = .idle := by simpa [isSending] using hidle
  exact hconserved.frameClocked hstage

/-- Six LEDs sent to a stopped driver, and the ticks until it is idle. -/
theorem idle_frameClocked_six : ∃ m, run step Machine.init
    (.send (List.replicate 6 ⟨0, 1, 2, 3⟩) 6 :: List.replicate 144 .tick) = some m ∧
      isSending m.status = false ∧ FrameClocked m := by
  have hidle : ((run step Machine.init (.send (List.replicate 6 ⟨0, 1, 2, 3⟩) 6 ::
      List.replicate 144 .tick)).map fun m => isSending m.status) = some false := by
    decide +kernel
  obtain ⟨m, hrun, hsending⟩ := Option.map_eq_some_iff.mp hidle
  have hticks (k : ℕ) (m : Machine) : Along step SendsWhole m (List.replicate k .tick) := by
    induction k generalizing m with
    | zero => exact trivial
    | succ k ih => exact ⟨trivial, fun m' _ => ih m'⟩
  have hwhole : SendsWhole Machine.init (.send (List.replicate 6 ⟨0, 1, 2, 3⟩) 6) :=
    ⟨by decide, by decide, Or.inr (by decide)⟩
  have halong : Along step SendsWhole Machine.init
      (.send (List.replicate 6 ⟨0, 1, 2, 3⟩) 6 :: List.replicate 144 .tick) :=
    ⟨hwhole, fun m' _ => hticks 144 m'⟩
  exact ⟨m, hrun, hsending, idle_frameClocked halong hrun hsending⟩

/-- Four LEDs sent to a stopped driver: with the first interrupt the driver is idle, and
the fourth LED is still to be clocked out. -/
theorem idle_not_frameClocked : ¬ ∀ as m, run step Machine.init as = some m →
    isSending m.status = false → FrameClocked m := by
  intro hall
  have hidle : ((run step Machine.init (.send (List.replicate 4 ⟨0, 1, 2, 3⟩) 4 ::
      List.replicate 72 .tick)).map fun m =>
        (isSending m.status, m.enabled, m.status.bitBuffer m.position)) =
          some (false, true, 17) := by
    decide +kernel
  obtain ⟨m, hrun, hstate⟩ := Option.map_eq_some_iff.mp hidle
  obtain ⟨hsending, henabled, hslot⟩ : isSending m.status = false ∧ m.enabled = true ∧
      m.status.bitBuffer m.position = 17 := by simpa using hstate
  have hzero := (hall _ m hrun hsending).1 0 m rfl henabled
  omega

end WifiMcu.Ws2812
