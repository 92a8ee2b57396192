import WifiMcu.Ws2812.Clocking

/-!
# The colours on the wire

From a stopped driver, chunk after chunk of the frame is clocked out: while the
half with one chunk is clocked out the other one holds the next chunk. The
invariant after `k` halves says which chunks the halves hold, and in which stage
the driver is. The last LEDs have been filled in after a third of the LEDs in
halves, the driver is idle one half later, and stops after the next one.
-/

namespace WifiMcu.Ws2812

open Memory

/-- The stage after `k` halves of a frame of `n` LEDs: one half after the one in which
the last LEDs were filled in, the driver is idle. -/
def stageAfter (n k : ℕ) : Stage :=
  if 3 * (k + 2) ≤ n then .sending else if k = n / 3 - 1 then .done else .idle

/-- The stage changes with each half: where fewer than three LEDs are left, the driver is
done, and idle one half later. -/
theorem stageAfter_succ {n k : ℕ} (hk : k ≤ n / 3 - 1) :
    stageAfter n (k + 1) = if stageAfter n k = .done then .idle
      else if n - 3 * (k + 2) < 3 then .done else .sending := by
  unfold stageAfter
  by_cases hsending : 3 * (k + 2) ≤ n
  · have hne : Stage.sending ≠ .done := by decide
    rw [if_pos hsending, if_neg hne]
    by_cases hnext : 3 * (k + 1 + 2) ≤ n
    · rw [if_pos hnext, if_neg (by omega)]
    · rw [if_neg hnext, if_pos (by omega), if_pos (by omega)]
  · have hlast : k = n / 3 - 1 := by omega
    rw [if_neg hsending, if_pos hlast, if_pos rfl, if_neg (by omega), if_neg (by omega)]

/-- Whether the high half is clocked out after `k` halves. -/
def highAfter (k : ℕ) : Bool := k % 2 = 1

/-- The halves are clocked out in turn. -/
theorem highAfter_succ (k : ℕ) : highAfter (k + 1) = !highAfter k := by
  rw [highAfter, highAfter, ← decide_not, decide_eq_decide]
  omega

/-- The slots of the first `k` chunks of a frame. -/
def firstChunks (leds : List Led) (k : ℕ) : List ℕ :=
  (List.range k).flatMap fun j => chunk (leds.drop (3 * j))

/-- One more chunk. -/
theorem firstChunks_succ (leds : List Led) (k : ℕ) :
    firstChunks leds (k + 1) = firstChunks leds k ++ chunk (leds.drop (3 * k)) := by
  simp [firstChunks, List.range_succ]

/-- The chunks of a frame are its slots, followed by zero slots. -/
theorem firstChunks_eq (leds : List Led) (k : ℕ) :
    firstChunks leds k = frameSlots (leds.take (3 * k)) ++
      List.replicate (72 * k - 24 * leds.length) 0 := by
  induction k with
  | zero => simp [firstChunks, frameSlots]
  | succ k ih =>
    have htake : leds.take (3 * (k + 1)) = leds.take (3 * k) ++ (leds.drop (3 * k)).take 3 :=
      List.take_add
    rw [firstChunks_succ, ih, htake, frameSlots_append, chunk]
    by_cases hle : 3 * k ≤ leds.length
    · have hnone : 72 * k - 24 * leds.length = 0 := by omega
      have hzeros : 24 * (3 - (leds.drop (3 * k)).length) = 72 * (k + 1) - 24 * leds.length := by
        rw [List.length_drop]
        omega
      rw [hnone, hzeros, List.replicate_zero, List.append_nil, List.append_assoc]
    · have hzeros : 72 * (k + 1) - 24 * leds.length = 72 * k - 24 * leds.length + 72 := by omega
      rw [List.drop_of_length_le (by omega), hzeros, ← List.replicate_append_replicate]
      simp [frameSlots]

/-- The driver while it sends `leds`, after `k` halves. -/
structure AfterHalves (leds : List Led) (k : ℕ) (m : Machine) : Prop where
  enabled : m.enabled = true
  quiet : m.Quiet
  position : m.position = halfStart (highAfter k)
  current : readBlock m.status.bitBuffer (halfStart (highAfter k)) 72 = chunk (leds.drop (3 * k))
  other : readBlock m.status.bitBuffer (halfStart !highAfter k) 72 =
    chunk (leds.drop (3 * (k + 1)))
  leds_eq : m.status.leds = leds
  count : m.status.ledCount = leds.length
  sent : 3 * (k + 2) ≤ leds.length → m.status.ledsSent = 3 * (k + 2)
  sent_le : ¬ 3 * (k + 2) ≤ leds.length → leds.length ≤ m.status.ledsSent ∧
    (k ≤ leds.length / 3 - 1 → m.status.ledsSent ≤ leds.length + 2)
  stage : m.status.stage = stageAfter leds.length k
  clocked : m.clocked = firstChunks leds k
  interrupts : m.interrupts = k

/-- The LEDs that are left after `k` halves are those behind the two chunks in the buffer. -/
theorem AfterHalves.rest {leds : List Led} {k : ℕ} {m : Machine} (h : AfterHalves leds k m) :
    m.status.rest = leds.drop (3 * (k + 2)) := by
  rw [Status.rest, h.leds_eq]
  by_cases hfull : 3 * (k + 2) ≤ leds.length
  · rw [h.sent hfull]
    congr 1
  · have hsent := (h.sent_le hfull).1
    rw [List.drop_of_length_le (by omega), List.drop_of_length_le (by omega)]

/-- The state may be filled again as long as the driver is not idle. -/
theorem AfterHalves.fits {leds : List Led} {k : ℕ} {m : Machine} (h : AfterHalves leds k m)
    (hslots : 24 * leds.length < 2147483648) (hk : k ≤ leds.length / 3 - 1) :
    m.status.Fits := by
  have hleds := h.leds_eq
  by_cases hfull : 3 * (k + 2) ≤ leds.length
  · have hsent := h.sent hfull
    refine ⟨?_, ?_, ?_, ?_⟩
    · rw [h.count, hleds, Int.toNat_natCast]
    · rwa [hleds]
    · omega
    · rw [h.count]
      omega
  · have hsent := h.sent_le hfull
    refine ⟨?_, ?_, ?_, ?_⟩
    · rw [h.count, hleds, Int.toNat_natCast]
    · rwa [hleds]
    · omega
    · rw [h.count]
      have hle := hsent.2 hk
      omega

/-- After `ws2812_send` the first two chunks are in the buffer. -/
theorem afterHalves_send {leds : List Led} (hslots : 24 * leds.length < 2147483648) {m : Machine}
    (henabled : m.enabled = false) (hquiet : m.Quiet) :
    ∃ m', send m leds leds.length = some m' ∧ AfterHalves leds 0 m' := by
  refine ⟨_, send_eq (Int.toNat_natCast _) (by omega) hslots m, ?_⟩
  rw [dmaStart, if_neg (by simp [henabled])]
  have hdrop : (leds.drop 3).length = leds.length - 3 := List.length_drop
  refine ⟨rfl, hquiet, rfl, ?_, ?_, rfl, rfl, ?_, ?_, ?_, rfl, rfl⟩
  · have hother := readBlock_other (writeBlock m.status.bitBuffer 0 (chunk leds)) true
      (leds.drop 3)
    exact hother.trans (readBlock_filled m.status.bitBuffer false leds)
  · exact readBlock_filled (writeBlock m.status.bitBuffer 0 (chunk leds)) true (leds.drop 3)
  · intro hfull
    simp only [hdrop]
    omega
  · intro hpartial
    simp only [hdrop]
    omega
  · simp only [stageAfter, hdrop]
    split_ifs <;> first | rfl | omega

/-- One more half while LEDs are left or have just been filled in. -/
theorem AfterHalves.step {leds : List Led} {k : ℕ} {m : Machine} (h : AfterHalves leds k m)
    (hslots : 24 * leds.length < 2147483648) (hk : k ≤ leds.length / 3 - 1) :
    ∃ m', ticks 72 m = some m' ∧ AfterHalves leds (k + 1) m' := by
  have hfits := h.fits hslots hk
  have hrest := h.rest
  have hcount := h.count
  have hlength : m.status.rest.length = leds.length - 3 * (k + 2) := by
    rw [hrest, List.length_drop]
  have hstage : m.status.stage ≠ .idle := by
    rw [h.stage, stageAfter]
    split_ifs <;> first | decide | omega
  have hcurrent : readBlock m.status.bitBuffer m.position 72 = chunk (leds.drop (3 * k)) := by
    rw [h.position, h.current]
  have hserve := serveHalf_refill (m := { m with
    position := halfStart !highAfter k
    compare := (chunk (leds.drop (3 * k))).getLastD m.compare
    clocked := m.clocked ++ chunk (leds.drop (3 * k)) }) hfits hstage (highAfter k)
  have hticks := ticks_half h.enabled h.quiet h.position
  rw [hcurrent, hserve, Option.map_some] at hticks
  refine ⟨_, hticks, h.enabled, h.quiet, ?_, ?_, ?_, h.leds_eq, h.count, ?_, ?_, ?_, ?_, ?_⟩
  · rw [highAfter_succ]
    rfl
  · rw [highAfter_succ]
    exact (readBlock_other _ _ _).trans h.other
  · rw [highAfter_succ, Bool.not_not, ← hrest]
    exact readBlock_filled _ _ _
  · intro hfull
    have hsent := h.sent (by omega)
    simp only [Machine.countInterrupt, Status.refill, hlength, hsent]
    omega
  · intro hpartial
    simp only [Machine.countInterrupt, Status.refill, hlength]
    by_cases hfull : 3 * (k + 2) ≤ leds.length
    · have hsent := h.sent hfull
      omega
    · have hsent := h.sent_le hfull
      omega
  · simp only [Machine.countInterrupt, Status.refill, hlength, h.stage]
    exact (stageAfter_succ hk).symm
  · simp only [Machine.countInterrupt]
    rw [h.clocked, firstChunks_succ]
  · simp only [Machine.countInterrupt]
    rw [h.interrupts]

/-- The half after which an idle driver stops. -/
theorem AfterHalves.stop {leds : List Led} {k : ℕ} {m : Machine} (h : AfterHalves leds k m)
    (hk : k = leds.length / 3 - 1 + 1) :
    ∃ m', ticks 72 m = some m' ∧ m'.enabled = false ∧ m'.clocked = firstChunks leds (k + 1) ∧
      m'.interrupts = k + 1 := by
  have hcurrent : readBlock m.status.bitBuffer m.position 72 = chunk (leds.drop (3 * k)) := by
    rw [h.position, h.current]
  have hstage : m.status.stage = .idle := by
    rw [h.stage, stageAfter, if_neg (by omega), if_neg (by omega)]
  have hserve := serveHalf_idle (m := { m with
    position := halfStart !highAfter k
    compare := (chunk (leds.drop (3 * k))).getLastD m.compare
    clocked := m.clocked ++ chunk (leds.drop (3 * k)) }) hstage (highAfter k)
  have hticks := ticks_half h.enabled h.quiet h.position
  rw [hcurrent, hserve, Option.map_some] at hticks
  refine ⟨_, hticks, rfl, ?_, ?_⟩
  · simp only [Machine.countInterrupt]
    rw [h.clocked, firstChunks_succ]
  · simp only [Machine.countInterrupt]
    rw [h.interrupts]

/-- The state after `k` halves, as long as the driver has not stopped. -/
theorem afterHalves_ticks {leds : List Led} (hslots : 24 * leds.length < 2147483648) {m : Machine}
    (hm : AfterHalves leds 0 m) {k : ℕ} (hk : k ≤ leds.length / 3 - 1 + 1) :
    ∃ m', ticks (72 * k) m = some m' ∧ AfterHalves leds k m' := by
  induction k with
  | zero => exact ⟨m, rfl, hm⟩
  | succ k ih =>
    obtain ⟨m1, hm1, hafter⟩ := ih (by omega)
    obtain ⟨m2, hm2, hafter'⟩ := hafter.step hslots (by omega)
    refine ⟨m2, ?_, hafter'⟩
    rw [Nat.mul_succ, ticks_add, hm1, Option.bind_some, hm2]

/-- The stream runs until the last half has been clocked out. -/
theorem afterHalves_enabled {leds : List Led} (hslots : 24 * leds.length < 2147483648)
    {m : Machine} (hm : AfterHalves leds 0 m) {t : ℕ}
    (ht : t < 72 * max 2 (leds.length / 3 + 1)) :
    ∃ m', ticks t m = some m' ∧ m'.enabled = true := by
  obtain ⟨m1, hm1, hafter⟩ := afterHalves_ticks hslots hm (k := t / 72) (by omega)
  have hposition := hafter.position
  have hwithin := @ticks_within m1 hafter.enabled (highAfter (t / 72)) (t % 72) (by omega)
    (by omega)
  have hdiv : 72 * (t / 72) + t % 72 = t := by omega
  have hsplit := ticks_add (72 * (t / 72)) (t % 72) m
  rw [hdiv, hm1, Option.bind_some, hwithin] at hsplit
  exact ⟨_, hsplit, hafter.enabled⟩

/-- With the last half the stream stops, and everything has been clocked out. -/
theorem afterHalves_stopped {leds : List Led} (hslots : 24 * leds.length < 2147483648)
    {m : Machine} (hm : AfterHalves leds 0 m) :
    ∃ stopped, ticks (72 * max 2 (leds.length / 3 + 1)) m = some stopped ∧
      stopped.enabled = false ∧ stopped.interrupts = max 2 (leds.length / 3 + 1) ∧
      stopped.clocked = frameSlots leds ++
        List.replicate (72 * max 2 (leds.length / 3 + 1) - 24 * leds.length) 0 := by
  have hmax : max 2 (leds.length / 3 + 1) = leds.length / 3 - 1 + 1 + 1 := by omega
  obtain ⟨m1, hm1, hafter⟩ := afterHalves_ticks hslots hm (Nat.le_refl _)
  obtain ⟨m2, hm2, hstopped, hclocked, hinterrupts⟩ := hafter.stop rfl
  rw [← hmax] at hclocked hinterrupts
  refine ⟨m2, ?_, hstopped, hinterrupts, ?_⟩
  · rw [hmax, Nat.mul_succ, ticks_add, hm1, Option.bind_some, hm2]
  · rw [hclocked, firstChunks_eq, List.take_of_length_le (by omega)]

/-- **The driver puts exactly the given colours on the wire.** From a stopped driver,
`ws2812_send` starts the stream, which is stopped again after
`max 2 (led_count / 3 + 1)` half buffers, and not before. The compare values clocked
out until then are the slots of the LEDs in order, followed only by zero slots.
Every tick has a result, so that no entry outside of `leds[]` is ever read. -/
theorem send_clocks_frame {leds : List Led} (hslots : 24 * leds.length < 2147483648) {m : Machine}
    (henabled : m.enabled = false) (hquiet : m.Quiet) :
    ∃ start, send m leds leds.length = some start ∧
      (∀ t < 72 * max 2 (leds.length / 3 + 1), ∃ m', ticks t start = some m' ∧
        m'.enabled = true) ∧
      ∃ stopped, ticks (72 * max 2 (leds.length / 3 + 1)) start = some stopped ∧
        stopped.enabled = false ∧ stopped.interrupts = max 2 (leds.length / 3 + 1) ∧
        stopped.clocked = frameSlots leds ++
          List.replicate (72 * max 2 (leds.length / 3 + 1) - 24 * leds.length) 0 := by
  obtain ⟨start, hstart, hbegin⟩ := afterHalves_send hslots henabled hquiet
  refine ⟨start, hstart, ?_, ?_⟩
  · intro t ht
    exact afterHalves_enabled hslots hbegin ht
  · exact afterHalves_stopped hslots hbegin

/-- One LED, whose green byte has only its highest bit set, from the initial state. -/
theorem send_clocks_frame_single :
    ∃ start, send Machine.init [⟨0, 0, 0, 0x80⟩] 1 = some start ∧
      ∃ stopped, ticks 144 start = some stopped ∧ stopped.enabled = false ∧
        stopped.interrupts = 2 ∧
        stopped.clocked = 45 :: List.replicate 23 17 ++ List.replicate 120 0 := by
  obtain ⟨start, hstart, -, stopped, hticks, henabled, hinterrupts, hclocked⟩ :=
    @send_clocks_frame [⟨0, 0, 0, 0x80⟩] (by decide) Machine.init rfl ⟨rfl, rfl⟩
  refine ⟨start, hstart, stopped, hticks, henabled, hinterrupts, ?_⟩
  rw [hclocked]
  decide

end WifiMcu.Ws2812
