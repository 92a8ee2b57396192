import WifiMcu.Ws2812.Sending

/-!
# The latch gap

The LEDs take over a frame when the line has been low for 50 µs. Until the stream is
stopped the driver only sends zero slots behind the data. How many there are depends on
how far the last LEDs fill their half.
-/

namespace WifiMcu.Ws2812

/-- The slots of 1.25 µs in the reset time of 50 µs. -/
def resetSlots : ℕ := 50000 / 1250

/-- The stream stops when it has taken `t` more slots, and not before. -/
def StopsAfter (t : ℕ) (m stopped : Machine) : Prop :=
  ticks t m = some stopped ∧ stopped.enabled = false ∧
    ∀ u < t, ∃ m', ticks u m = some m' ∧ m'.enabled = true

/-- The stream stops once. -/
theorem StopsAfter.unique {t t' : ℕ} {m stopped stopped' : Machine} (h : StopsAfter t m stopped)
    (h' : StopsAfter t' m stopped') : t = t' ∧ stopped = stopped' := by
  have hle {u u' : ℕ} {s s' : Machine} (hs : StopsAfter u m s) (hs' : StopsAfter u' m s') :
      u' ≤ u := by
    by_contra hlt
    obtain ⟨m', hm', henabled⟩ := hs'.2.2 u (by omega)
    rw [hs.1] at hm'
    rw [← Option.some.inj hm', hs.2.1] at henabled
    cases henabled
  obtain rfl : t = t' := Nat.le_antisymm (hle h' h) (hle h h')
  exact ⟨rfl, Option.some.inj (h.1.symm.trans h'.1)⟩

/-- A frame is sent, and between its last slot and the stop of the stream there are
enough zero slots. -/
def LatchGap (m : Machine) (leds : List Led) : Prop :=
  ∃ start t stopped gap, send m leds leds.length = some start ∧ StopsAfter t start stopped ∧
    stopped.clocked = frameSlots leds ++ List.replicate gap 0 ∧ resetSlots ≤ gap

/-- The zero slots are those that the LEDs leave of the halves clocked out. -/
theorem latchGap_iff_le {leds : List Led} (hslots : 24 * leds.length < 2147483648) {m : Machine}
    (henabled : m.enabled = false) (hquiet : m.Quiet) :
    LatchGap m leds ↔ resetSlots ≤ 72 * max 2 (leds.length / 3 + 1) - 24 * leds.length := by
  obtain ⟨start, hstart, hbegin⟩ := afterHalves_send hslots henabled hquiet
  obtain ⟨stopped, hticks, hstopped, -, hclocked⟩ := afterHalves_stopped hslots hbegin
  have hstops : StopsAfter (72 * max 2 (leds.length / 3 + 1)) start stopped :=
    ⟨hticks, hstopped, fun u hu => afterHalves_enabled hslots hbegin hu⟩
  constructor
  · rintro ⟨start', t, stopped', gap, hstart', hstops', hclocked', hgap⟩
    obtain rfl : start = start' := Option.some.inj (hstart.symm.trans hstart')
    obtain ⟨-, rfl⟩ := hstops.unique hstops'
    have hlength := congrArg List.length (hclocked.symm.trans hclocked')
    simp only [List.length_append, List.length_replicate] at hlength
    omega
  · intro hgap
    exact ⟨start, _, stopped, _, hstart, hstops, hclocked, hgap⟩

/-- **The latch gap.** The zero slots behind a frame last for the reset time, unless there
are more than two LEDs and the last two of them are alone in their half. The fills multiply
the number of LEDs by 24, which must be an `int`. -/
theorem latchGap_iff {leds : List Led} (hslots : 24 * leds.length < 2147483648) {m : Machine}
    (henabled : m.enabled = false) (hquiet : m.Quiet) :
    LatchGap m leds ↔ leds.length ≤ 2 ∨ leds.length % 3 ≠ 2 := by
  have hreset : resetSlots = 40 := rfl
  rw [latchGap_iff_le hslots henabled hquiet, hreset]
  omega

/-- From the initial state one LED is followed by a latch gap. -/
theorem latchGap_iff_single :
    LatchGap Machine.init [⟨0, 0, 0, 0⟩] ∧
      (LatchGap Machine.init [⟨0, 0, 0, 0⟩] ↔
        [(⟨0, 0, 0, 0⟩ : Led)].length ≤ 2 ∨ [(⟨0, 0, 0, 0⟩ : Led)].length % 3 ≠ 2) := by
  have hiff := @latchGap_iff [⟨0, 0, 0, 0⟩] (by decide) Machine.init rfl ⟨rfl, rfl⟩
  exact ⟨hiff.mpr (by decide), hiff⟩

/-- Five LEDs are followed by 24 zero slots only. -/
theorem not_latchGap :
    ¬ ∀ (m : Machine) (leds : List Led), m.enabled = false → m.Quiet → 1 ≤ leds.length →
      LatchGap m leds := by
  intro hall
  have hgap := hall Machine.init (List.replicate 5 ⟨0, 0, 0, 0⟩) rfl ⟨rfl, rfl⟩ (by decide)
  have hle := (latchGap_iff_le (by decide) rfl ⟨rfl, rfl⟩).mp hgap
  revert hle
  decide

end WifiMcu.Ws2812
