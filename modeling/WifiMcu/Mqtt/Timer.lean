import WifiMcu.Library.Counter
import Mathlib.Data.Int.Notation

/-!
# Timers under polling

A timer remembers when it was set and for how many ticks. A poll that finds time left sets
it again for the ticks that remain, and a poll that finds none leaves it as it is.
-/

namespace WifiMcu.Mqtt

open Counter

/-- `xTickCount`, which `xTaskIncrementTick` increments with every tick, and
`xNumOfOverflows`, which counts how often it has wrapped to 0. -/
abbrev Ticks := Counter.State 32

/-- `portMAX_DELAY`. -/
def portMaxDelay : BitVec 32 := 0xffffffff

/-- `configTICK_RATE_HZ`. -/
def configTickRateHz : BitVec 32 := 1000

/-- `portTICK_PERIOD_MS`. -/
def portTickPeriodMs : BitVec 32 := 1000 / configTickRateHz

/-- `TimeOut_t`. -/
structure TimeOut where
  overflowCount : BitVec 32
  timeOnEntering : BitVec 32
  deriving DecidableEq

/-- `Timer`. -/
structure Timer where
  ticksToWait : BitVec 32
  timeOut : TimeOut
  deriving DecidableEq

/-- `vTaskSetTimeOutState`. -/
def setTimeOutState (k : Ticks) : TimeOut := ⟨k.wraps, k.count⟩

/-- `xTaskCheckForTimeOut`: whether the time is over, and the two variables it may change. -/
def checkForTimeOut (k : Ticks) (timeOut : TimeOut) (ticksToWait : BitVec 32) :
    Bool × TimeOut × BitVec 32 :=
  if ticksToWait = portMaxDelay then (false, timeOut, ticksToWait)
  else if k.wraps ≠ timeOut.overflowCount ∧ timeOut.timeOnEntering ≤ k.count then
    (true, timeOut, ticksToWait)
  else if k.count - timeOut.timeOnEntering < ticksToWait then
    (false, setTimeOutState k, ticksToWait - (k.count - timeOut.timeOnEntering))
  else (true, timeOut, ticksToWait)

/-- `TimerCountdownMS`. The number of overflows and the tick count are read one after the other,
and no tick comes between. -/
def Timer.countdownMs (k : Ticks) (timeoutMs : BitVec 32) : Timer :=
  { ticksToWait := timeoutMs / portTickPeriodMs
    timeOut := setTimeOutState k }

/-- `TimerLeftMS`. The number of ticks is unsigned, so that the test for a negative one
always fails. -/
def Timer.leftMs (k : Ticks) (timer : Timer) : ℤ × Timer :=
  let (_, timeOut, ticksToWait) := checkForTimeOut k timer.timeOut timer.ticksToWait
  ((ticksToWait * portTickPeriodMs).toInt, ⟨ticksToWait, timeOut⟩)

/-- `TimerIsExpired`. -/
def Timer.isExpired (k : Ticks) (timer : Timer) : Bool × Timer :=
  let (expired, timeOut, ticksToWait) := checkForTimeOut k timer.timeOut timer.ticksToWait
  (expired, ⟨ticksToWait, timeOut⟩)

/-- The two ways to poll a timer. -/
inductive Poll
  | isExpired | leftMs
  deriving DecidableEq

/-- What a poll returns. -/
inductive Answer
  | isExpired (expired : Bool)
  | leftMs (ms : ℤ)
  deriving DecidableEq

/-- Poll a timer. -/
def poll (k : Ticks) (timer : Timer) : Poll → Answer × Timer
  | .isExpired => (.isExpired (Timer.isExpired k timer).1, (Timer.isExpired k timer).2)
  | .leftMs => (.leftMs (Timer.leftMs k timer).1, (Timer.leftMs k timer).2)

/-- The answers of a timer to polls, each at a number of ticks after it was armed. The tick
count at that time is `armed`, counted from the start of the scheduler. -/
def answers (armed : ℕ) (timer : Timer) : List (Poll × ℕ) → List Answer
  | [] => []
  | (p, elapsed) :: ps =>
    let (answer, timer) := poll (after 32 (armed + elapsed)) timer p
    answer :: answers armed timer ps

/-- What a poll should return: whether the time is over, or how much of it is left. -/
def exactAnswer (ms : ℕ) : Poll × ℕ → Answer
  | (.isExpired, elapsed) => .isExpired (decide (ms ≤ elapsed))
  | (.leftMs, elapsed) => .leftMs (ms - elapsed : ℕ)

/-! ### One poll -/

/-- A timer that was armed for `ms` ticks and set again for the last time `since` ticks
later, when there was time left. -/
def Armed (armed ms since : ℕ) (timer : Timer) : Prop :=
  (since = 0 ∨ since < ms) ∧
    timer = ⟨BitVec.ofNat 32 (ms - since), setTimeOutState (after 32 (armed + since))⟩

/-- A tick is a millisecond. -/
theorem portTickPeriodMs_eq : portTickPeriodMs = 1#32 := by decide

/-- A timer is set when it is armed. -/
theorem armed_countdownMs (armed ms : ℕ) :
    Armed armed ms 0 (Timer.countdownMs (after 32 armed) (BitVec.ofNat 32 ms)) := by
  refine ⟨Or.inl rfl, ?_⟩
  rw [Timer.countdownMs, portTickPeriodMs_eq, BitVec.udiv_one]
  rfl

section

variable {armed ms since elapsed : ℕ} {timer : Timer}

/-- The ticks that an armed timer waits for. -/
theorem Armed.toNat_ticksToWait (h : Armed armed ms since timer) (hms : ms < 2147483648) :
    timer.ticksToWait.toNat = ms - since := by
  rw [h.2]
  exact Nat.mod_eq_of_lt (by omega)

/-- **Check.** A check finds out whether the time is over. If it is not, the timer is set
for the rest, and if it is, nothing changes. -/
theorem Armed.checkForTimeOut (h : Armed armed ms since timer) (hms : ms < 2147483648)
    (hsince : since ≤ elapsed) (helapsed : elapsed < 4294967296) :
    (elapsed < ms ∧ ∃ timer', Armed armed ms elapsed timer' ∧
      Mqtt.checkForTimeOut (after 32 (armed + elapsed)) timer.timeOut timer.ticksToWait =
        (false, timer'.timeOut, timer'.ticksToWait)) ∨
    (ms ≤ elapsed ∧
      Mqtt.checkForTimeOut (after 32 (armed + elapsed)) timer.timeOut timer.ticksToWait =
        (true, timer.timeOut, timer.ticksToWait)) := by
  have hwait := h.toNat_ticksToWait hms
  have htimeOut : timer.timeOut = setTimeOutState (after 32 (armed + since)) := by rw [h.2]
  have hmax : timer.ticksToWait ≠ portMaxDelay := by
    intro heq
    rw [heq] at hwait
    have : portMaxDelay.toNat = 4294967295 := rfl
    omega
  have hlt : armed + elapsed - (armed + since) < 2 ^ 32 := by omega
  -- the tick count may have wrapped, but it has not passed the last setting again
  have hpassed : ¬ ((after 32 (armed + elapsed)).wraps ≠ timer.timeOut.overflowCount ∧
      timer.timeOut.timeOnEntering ≤ (after 32 (armed + elapsed)).count) := by
    rintro ⟨hwraps, hle⟩
    rw [htimeOut] at hwraps hle
    have hcount := count_lt_of_wraps_ne (Nat.add_le_add_left hsince armed) hlt hwraps
    exact absurd hle (BitVec.not_le.mpr hcount)
  have hdifference :
      ((after 32 (armed + elapsed)).count - timer.timeOut.timeOnEntering).toNat =
        elapsed - since := by
    rw [htimeOut]
    have hsub := toNat_count_sub (Nat.add_le_add_left hsince armed) hlt
    rw [Nat.add_sub_add_left] at hsub
    exact hsub
  have hcompare : (after 32 (armed + elapsed)).count - timer.timeOut.timeOnEntering <
      timer.ticksToWait ↔ elapsed - since < ms - since := by
    rw [BitVec.lt_def, hdifference, hwait]
  rw [Mqtt.checkForTimeOut, if_neg hmax, if_neg hpassed]
  by_cases hleft : elapsed < ms
  · left
    refine ⟨hleft, ⟨BitVec.ofNat 32 (ms - elapsed), setTimeOutState (after 32 (armed + elapsed))⟩,
      ⟨Or.inr hleft, rfl⟩, ?_⟩
    rw [if_pos (hcompare.mpr (by omega))]
    have hrest : timer.ticksToWait -
        ((after 32 (armed + elapsed)).count - timer.timeOut.timeOnEntering) =
          BitVec.ofNat 32 (ms - elapsed) := by
      apply BitVec.eq_of_toNat_eq
      rw [BitVec.toNat_sub, hdifference, hwait, BitVec.toNat_ofNat]
      omega
    rw [hrest]
  · right
    refine ⟨by omega, ?_⟩
    have hover := h.1
    rw [if_neg (fun hlt => absurd (hcompare.mp hlt) (by omega))]

/-- The number of milliseconds that is returned for an armed timer. -/
theorem Armed.toInt_ticksToWait (h : Armed armed ms since timer) (hms : ms < 2147483648) :
    (timer.ticksToWait * portTickPeriodMs).toInt = (ms - since : ℕ) := by
  have hwait := h.toNat_ticksToWait hms
  rw [portTickPeriodMs_eq, BitVec.mul_one, BitVec.toInt_eq_toNat_of_lt (by omega), hwait]

/-- **Step lemma.** A poll leaves the timer armed, and its answer is exact unless it asks for
the time that is left when none is. -/
theorem Armed.poll (h : Armed armed ms since timer) (hms : ms < 2147483648)
    (hsince : since ≤ elapsed) (helapsed : elapsed < 4294967296) (p : Poll) :
    (∃ since' ≤ elapsed, Armed armed ms since' (Mqtt.poll (after 32 (armed + elapsed)) timer p).2) ∧
      ((Mqtt.poll (after 32 (armed + elapsed)) timer p).1 = exactAnswer ms (p, elapsed) ↔
        (ms = 0 ∨ (p = .leftMs → elapsed < ms))) := by
  rcases h.checkForTimeOut hms hsince helapsed with ⟨hleft, timer', harmed, hcheck⟩ | ⟨hover, hcheck⟩
  · have hms' := harmed.toInt_ticksToWait hms
    have hfalse : decide (ms ≤ elapsed) = false := decide_eq_false (by omega)
    cases p with
    | isExpired =>
      rw [Mqtt.poll, Timer.isExpired, hcheck]
      refine ⟨⟨elapsed, Nat.le_refl _, harmed⟩, iff_of_true ?_ (Or.inr fun hp => by cases hp)⟩
      rw [exactAnswer, hfalse]
    | leftMs =>
      rw [Mqtt.poll, Timer.leftMs, hcheck]
      refine ⟨⟨elapsed, Nat.le_refl _, harmed⟩, iff_of_true ?_ (Or.inr fun _ => hleft)⟩
      dsimp only
      rw [hms', exactAnswer]
  · have hms' := h.toInt_ticksToWait hms
    have htrue : decide (ms ≤ elapsed) = true := decide_eq_true hover
    cases p with
    | isExpired =>
      rw [Mqtt.poll, Timer.isExpired, hcheck]
      refine ⟨⟨since, hsince, h⟩, iff_of_true ?_ (Or.inr fun hp => by cases hp)⟩
      rw [exactAnswer, htrue]
    | leftMs =>
      rw [Mqtt.poll, Timer.leftMs, hcheck]
      refine ⟨⟨since, hsince, h⟩, ?_⟩
      dsimp only
      rw [hms', exactAnswer, Nat.sub_eq_zero_of_le hover, Answer.leftMs.injEq]
      have hsince' := h.1
      constructor
      · intro hzero
        left
        omega
      · rintro (rfl | hleft)
        · simp
        · exact absurd (hleft rfl) (by omega)

/-! ### Any number of polls -/

/-- From any state of an armed timer, all answers are exact unless a poll asks for the time
that is left when none is. -/
theorem Armed.answers_iff (h : Armed armed ms since timer) (hms : ms < 2147483648)
    {ps : List (Poll × ℕ)} (hsince : ∀ p ∈ ps, since ≤ p.2)
    (horder : ps.Pairwise fun p q => p.2 ≤ q.2) (helapsed : ∀ p ∈ ps, p.2 < 4294967296) :
    answers armed timer ps = ps.map (exactAnswer ms) ↔
      ms = 0 ∨ ∀ e, (Poll.leftMs, e) ∈ ps → e < ms := by
  induction ps generalizing since timer with
  | nil => exact iff_of_true rfl (Or.inr fun e he => by cases he)
  | cons q ps ih =>
    obtain ⟨p, e⟩ := q
    rw [List.forall_mem_cons] at hsince helapsed
    rw [List.pairwise_cons] at horder
    obtain ⟨⟨since', hsince', harmed⟩, hanswer⟩ := h.poll hms hsince.1 helapsed.1 p
    have hrest := ih harmed (fun q hq => Nat.le_trans hsince' (horder.1 q hq)) horder.2 helapsed.2
    rw [answers, List.map_cons, List.cons.injEq, hanswer, hrest]
    constructor
    · rintro ⟨rfl | hfirst, hothers⟩
      · exact Or.inl rfl
      · refine hothers.imp_right fun hothers e' he' => ?_
        rcases List.mem_cons.mp he' with heq | hmem
        · obtain ⟨rfl, rfl⟩ := Prod.mk.inj heq
          exact hfirst rfl
        · exact hothers e' hmem
    · rintro (rfl | hall)
      · exact ⟨Or.inl rfl, Or.inl rfl⟩
      · refine ⟨Or.inr fun hp => hall e (hp ▸ List.mem_cons_self), Or.inr fun e' he' => ?_⟩
        exact hall e' (List.mem_cons_of_mem _ he')

end

/-- **Timers under polling.** After `TimerCountdownMS`, whenever and however often a timer is
polled, all answers are exact, unless `TimerLeftMS` is called when the time is over. It then
returns what was left at an earlier poll. -/
theorem answers_exact_iff {armed ms : ℕ} (hms : ms < 2147483648) {ps : List (Poll × ℕ)}
    (horder : ps.Pairwise fun p q => p.2 ≤ q.2) (helapsed : ∀ p ∈ ps, p.2 < 4294967296) :
    answers armed (Timer.countdownMs (after 32 armed) (BitVec.ofNat 32 ms)) ps =
        ps.map (exactAnswer ms) ↔
      ms = 0 ∨ ∀ e, (Poll.leftMs, e) ∈ ps → e < ms :=
  (armed_countdownMs armed ms).answers_iff hms (fun _ _ => Nat.zero_le _) horder helapsed

/-- Ten milliseconds, polled twice before they are over and once afterwards, with a tick count
that wraps in between. -/
theorem answers_exact_iff_wrap :
    answers 4294967290 (Timer.countdownMs (after 32 4294967290) (BitVec.ofNat 32 10))
        [(.leftMs, 4), (.isExpired, 8), (.isExpired, 10)] =
      [.leftMs 6, .isExpired false, .isExpired true] := by
  have hiff := (@answers_exact_iff 4294967290 10 (by decide)
    [(.leftMs, 4), (.isExpired, 8), (.isExpired, 10)] (by decide) (by decide)).mpr
  refine hiff (Or.inr ?_)
  intro e he
  simp only [List.mem_cons, Prod.mk.injEq, reduceCtorEq, false_and, List.not_mem_nil, or_false,
    true_and] at he
  omega

/-- A timer of one millisecond still has one millisecond left when it is over. -/
theorem not_answers_exact :
    ¬ ∀ (armed ms : ℕ) (ps : List (Poll × ℕ)), ms < 2147483648 →
      (ps.Pairwise fun p q => p.2 ≤ q.2) → (∀ p ∈ ps, p.2 < 4294967296) →
        answers armed (Timer.countdownMs (after 32 armed) (BitVec.ofNat 32 ms)) ps =
          ps.map (exactAnswer ms) := by
  intro hall
  have heq := hall 0 1 [(.leftMs, 1)] (by decide) (by decide) (by decide)
  revert heq
  decide

end WifiMcu.Mqtt
