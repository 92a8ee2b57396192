import WifiMcu.Sdio.Transfer

/-!
# Stale tokens

A token in the semaphore should belong to the attempt that takes it. It does as long
as every attempt is signalled at most once, by an error or by the start of the DMA
stream, after its command has been sent and before its wait has ended, and a wait does
not end while a run of the stream is pending. Neither the interrupt handler nor the
timeout of the wait sees to that.
-/

namespace WifiMcu.Sdio

open Transition

/-- What should hold in the states reached: an attempt starts with an empty semaphore; a
call returns with an empty semaphore and a stopped stream; and if CMD53 has succeeded,
its last attempt has taken the token of its own completion. -/
structure Clean (s : State) : Prop where
  attempt : s.pc = .attempt → s.tokens = []
  returned : ∀ result, s.pc = .returned (some result) → s.tokens = [] ∧ s.enabled = false
  success : s.pc = .returned (some .success) → s.request.command = sdioCmd53 →
    s.taken = some ⟨.dma, s.attempt⟩

/-- The number of signals that an interrupt gives: a token for an error, and a token or
the start of the stream for the answer to a command. -/
def signals (sta resp1 : BitVec 32) (enabled : Bool) : ℕ :=
  (if hasBits sta irqErrorsMask then 1 else 0) +
    if hasBits sta (staCmdrend ||| staCmdsent) then
      if hasBits resp1 0x800 then 1 else if enabled then 0 else 1
    else 0

/-- An interrupt gives no signal, or the only one to an attempt that has sent its command
and waits. A wait does not time out while a run of the stream is pending. -/
def SignalsOnce (s : State) : Action → Prop
  | .sdioIrq sta resp1 =>
    signals sta resp1 s.enabled = 0 ∨
      signals sta resp1 s.enabled = 1 ∧ s.pc = .wait ∧ s.tokens = [] ∧ s.runs = []
  | .timeout => s.runs = []
  | _ => True

/-- No signal is left over. -/
def Settled (s : State) : Prop := s.tokens = [] ∧ s.runs = [] ∧ s.enabled = false

/-- A token belongs to the current attempt, and the failure that it may stand for is
marked. -/
def Own (s : State) (token : Token) : Prop :=
  token = ⟨.dma, s.attempt⟩ ∨ token = ⟨.error, s.attempt⟩ ∧ s.failed = true

/-- At most one signal is pending, and it belongs to the current attempt. -/
structure Pending (s : State) : Prop where
  single : s.tokens.length + s.runs.length ≤ 1
  enabled : s.enabled = true → s.runs ≠ []
  token : ∀ token ∈ s.tokens, Own s token
  run : ∀ attempt ∈ s.runs, attempt = s.attempt

/-- The invariant, by the place of the caller. -/
def Inv (s : State) : Prop :=
  match s.pc with
  | .retry | .attempt | .enable | .setup | .send => Settled s
  | .wait => Pending s ∧ s.commanded = s.attempt
  | .check => Settled s ∧ ∃ token, s.taken = some token ∧ Own s token
  | .status | .poll | .finish => Settled s ∧ s.taken = some ⟨.dma, s.attempt⟩
  | .sendOther | .pollOther => Settled s ∧ s.request.command ≠ sdioCmd53
  | .respond | .returned (some .success) =>
    Settled s ∧ (s.request.command = sdioCmd53 → s.taken = some ⟨.dma, s.attempt⟩)
  | .returned _ => Settled s

/-- Nothing is pending in the initial state. -/
theorem inv_init : Inv State.init := ⟨rfl, rfl, rfl⟩

/-- A state in which nothing is pending has no pending signal that is not its own. -/
theorem Settled.pending {s : State} (h : Settled s) : Pending s := by
  obtain ⟨htokens, hruns, henabled⟩ := h
  constructor
  · rw [htokens, hruns]
    exact Nat.zero_le 1
  · intro htrue
    rw [henabled] at htrue
    cases htrue
  · rw [htokens]
    intro token htoken
    cases htoken
  · rw [hruns]
    intro attempt hattempt
    cases hattempt

/-- Where the caller does not wait, nothing is pending. -/
theorem Inv.settled {s : State} (h : Inv s) (hpc : s.pc ≠ .wait) : Settled s := by
  unfold Inv at h
  split at h
  all_goals first
    | exact h
    | exact h.1
    | next hwait => exact absurd hwait hpc

/-- Where the caller waits, at most one signal is pending, to the command it has sent. -/
theorem Inv.waiting {s : State} (h : Inv s) (hpc : s.pc = .wait) :
    Pending s ∧ s.commanded = s.attempt := by
  unfold Inv at h
  rwa [hpc] at h

/-- Everywhere at most one signal is pending. -/
theorem Inv.pending {s : State} (h : Inv s) : Pending s := by
  by_cases hpc : s.pc = .wait
  · exact (h.waiting hpc).1
  · exact (h.settled hpc).pending

/-- Where the caller waits, that is all the invariant says. -/
theorem Pending.inv {s : State} (h : Pending s) (hcommanded : s.commanded = s.attempt)
    (hpc : s.pc = .wait) : Inv s := by
  unfold Inv
  rw [hpc]
  exact ⟨h, hcommanded⟩

/-- Where a run is pending, the caller waits. -/
theorem Inv.wait_of_runs {s : State} (h : Inv s) (hruns : s.runs ≠ []) : s.pc = .wait := by
  by_contra hpc
  exact hruns (h.settled hpc).2.1

/-- An empty semaphore takes a token. -/
theorem give_of_nil {s : State} (h : s.tokens = []) (token : Token) :
    give token s = { s with tokens := [token] } := by
  rw [give, h, if_pos (by decide)]
  rfl

/-- The signal of an error leaves the stream alone. -/
@[simp] theorem enabled_signalError (s : State) : (signalError s).enabled = s.enabled := by
  unfold signalError give
  split_ifs <;> rfl

/-- A stream that is enabled already is not started again. -/
theorem startStream_of_enabled {s : State} (h : s.enabled = true) : startStream s = s := by
  rw [startStream, if_pos h]

/-- The signals that an interrupt gives. -/
theorem sdioIrqHandler_cases (sta resp1 : BitVec 32) (s : State) :
    (signals sta resp1 s.enabled = 0 ∧ sdioIrqHandler sta resp1 s = s) ∨
      (signals sta resp1 s.enabled = 1 ∧ (sdioIrqHandler sta resp1 s = signalError s ∨
        s.enabled = false ∧ sdioIrqHandler sta resp1 s = startStream s)) ∨
      signals sta resp1 s.enabled = 2 := by
  unfold signals sdioIrqHandler
  cases herror : hasBits sta irqErrorsMask <;>
    cases hanswer : hasBits sta (staCmdrend ||| staCmdsent) <;>
      cases hresp : hasBits resp1 0x800 <;> cases henabled : s.enabled
  all_goals simp [startStream_of_enabled, henabled]

/-- The only signal of an attempt, if it is an error, is pending after it. -/
theorem Pending.signalError {s : State} (h : Pending s) (hcommanded : s.commanded = s.attempt)
    (htokens : s.tokens = []) (hruns : s.runs = []) : Pending (signalError s) := by
  rw [Sdio.signalError, give_of_nil (s := { s with failed := true }) htokens, hcommanded]
  constructor
  · show 1 + s.runs.length ≤ 1
    rw [hruns]
    exact Nat.le_refl 1
  · intro henabled
    exact h.enabled henabled
  · intro token htoken
    exact Or.inr ⟨List.mem_singleton.mp htoken, rfl⟩
  · exact h.run

/-- The only signal of an attempt, if it is the start of the stream, is pending after it. -/
theorem Pending.startStream {s : State} (h : Pending s) (hcommanded : s.commanded = s.attempt)
    (htokens : s.tokens = []) (hruns : s.runs = []) (hdisabled : s.enabled = false) :
    Pending (startStream s) := by
  rw [Sdio.startStream, if_neg (by rw [hdisabled]; exact Bool.false_ne_true), hruns, hcommanded]
  constructor
  · show s.tokens.length + 1 ≤ 1
    rw [htokens]
    exact Nat.le_refl 1
  · intro _ hnil
    cases hnil
  · exact h.token
  · intro attempt hattempt
    exact List.mem_singleton.mp hattempt

/-- Signals do not move the caller and send no command. -/
theorem signalError_frame (s : State) : (signalError s).pc = s.pc ∧
    (signalError s).commanded = s.commanded ∧ (signalError s).attempt = s.attempt := by
  unfold signalError give
  split_ifs <;> exact ⟨rfl, rfl, rfl⟩

/-- Starting the stream does not move the caller and sends no command. -/
theorem startStream_frame (s : State) : (startStream s).pc = s.pc ∧
    (startStream s).commanded = s.commanded ∧ (startStream s).attempt = s.attempt := by
  unfold startStream
  split_ifs <;> exact ⟨rfl, rfl, rfl⟩

/-- **SDIO interrupts.** An interrupt that signals once keeps the invariant. -/
theorem Inv.sdioIrq {s : State} {sta resp1 : BitVec 32} (h : Inv s)
    (honce : SignalsOnce s (.sdioIrq sta resp1)) : Inv (sdioIrqHandler sta resp1 s) := by
  rcases honce with hzero | ⟨hone, hpc, htokens, hruns⟩
  · rcases sdioIrqHandler_cases sta resp1 s with ⟨-, heq⟩ | ⟨hone, -⟩ | htwo
    · rw [heq]
      exact h
    · omega
    · omega
  · obtain ⟨hpending, hcommanded⟩ := h.waiting hpc
    rcases sdioIrqHandler_cases sta resp1 s with ⟨hzero, -⟩ | ⟨-, heq | ⟨hdisabled, heq⟩⟩ | htwo
    · omega
    · obtain ⟨hpc', hcommanded', hattempt'⟩ := signalError_frame s
      rw [heq]
      apply (hpending.signalError hcommanded htokens hruns).inv
      · rw [hcommanded', hattempt', hcommanded]
      · rw [hpc', hpc]
    · obtain ⟨hpc', hcommanded', hattempt'⟩ := startStream_frame s
      rw [heq]
      apply (hpending.startStream hcommanded htokens hruns hdisabled).inv
      · rw [hcommanded', hattempt', hcommanded]
      · rw [hpc', hpc]
    · omega

/-- The enable bit of the stream can be cleared. -/
theorem hasBits_clear (cr : BitVec 32) : hasBits (cr &&& ~~~dmaSxcrEn) dmaSxcrEn = false := by
  simp [hasBits, dmaSxcrEn, BitVec.and_assoc]

/-- **DMA interrupts.** The end of the only run keeps the invariant. -/
theorem Inv.dmaIrq {s s' : State} (h : Inv s) (hstep : dmaIrqHandler s = some s') : Inv s' := by
  unfold dmaIrqHandler at hstep
  match hruns : s.runs with
  | [] =>
    rw [hruns] at hstep
    cases hstep
  | attempt :: runs =>
    rw [hruns] at hstep
    have hpc := h.wait_of_runs (by rw [hruns]; exact List.cons_ne_nil _ _)
    obtain ⟨hpending, hcommanded⟩ := h.waiting hpc
    have hsingle := hpending.single
    rw [hruns, List.length_cons] at hsingle
    obtain rfl : runs = [] := List.length_eq_zero_iff.mp (by omega)
    have htokens : s.tokens = [] := List.length_eq_zero_iff.mp (by omega)
    have hattempt : attempt = s.attempt :=
      hpending.run attempt (by rw [hruns]; exact List.mem_cons_self)
    obtain rfl := Option.some.inj hstep
    rw [if_pos rfl, give_of_nil (s := { s with runs := [], cr := s.cr &&& ~~~dmaSxcrEn }) htokens]
    refine Pending.inv ⟨Nat.le_refl 1, ?_, ?_, ?_⟩ hcommanded hpc
    · intro henabled
      have hdisabled := hasBits_clear s.cr
      rw [show hasBits (s.cr &&& ~~~dmaSxcrEn) dmaSxcrEn = true from henabled] at hdisabled
      cases hdisabled
    · intro token htoken
      rw [List.mem_singleton.mp htoken, hattempt]
      exact Or.inl rfl
    · intro attempt hmem
      cases hmem

/-- The label `retry` is reached with nothing pending. -/
theorem Settled.retryStep {s : State} (h : Settled s) : Inv (retryStep s) := by
  unfold Sdio.retryStep
  dsimp only
  split_ifs with hexceeded hdata
  · exact h
  · exact h
  · exact ⟨h, hdata⟩

/-- The set-up of the DMA controller disables the stream. -/
theorem enabled_setupStep (s : State) : (setupStep s).enabled = false := by
  show hasBits ((if s.request.direction = .write then dmaSxcrDir0 else 0) ||| dmaSxcrMode |||
    dmaSxcrTcie) dmaSxcrEn = false
  split_ifs <;> decide

/-- The token that is taken is the only signal of the attempt. -/
theorem Pending.takeStep {s s' : State} (h : Pending s) (hstep : takeStep s = some s') :
    Inv s' := by
  unfold Sdio.takeStep at hstep
  match htokens : s.tokens with
  | [] =>
    rw [htokens] at hstep
    cases hstep
  | token :: tokens =>
    rw [htokens] at hstep
    have hsingle := h.single
    rw [htokens, List.length_cons] at hsingle
    have hruns : s.runs = [] := List.length_eq_zero_iff.mp (by omega)
    obtain rfl : tokens = [] := List.length_eq_zero_iff.mp (by omega)
    obtain rfl := Option.some.inj hstep
    refine ⟨⟨rfl, hruns, ?_⟩, token, rfl, h.token token (by rw [htokens]; exact List.mem_cons_self)⟩
    exact Bool.of_not_eq_true fun henabled => h.enabled henabled hruns

/-- A failed attempt is repeated, and one that has not failed has taken the token of its
own completion. -/
theorem inv_check {s : State} {token : Token} (h : Settled s) (htaken : s.taken = some token)
    (hown : Own s token) : Inv { s with pc := if s.failed then .retry else .status } := by
  cases hfailed : s.failed with
  | true => exact h
  | false =>
    refine ⟨h, ?_⟩
    rcases hown with rfl | ⟨-, htrue⟩
    · exact htaken
    · rw [hfailed] at htrue
      cases htrue

/-- A timeout of the card makes the caller repeat the attempt, and otherwise it goes on. -/
theorem inv_status {s : State} (h : Settled s) (htaken : s.taken = some ⟨.dma, s.attempt⟩)
    (sta : BitVec 32) :
    Inv { s with
      tries := 0
      pc := if hasBits sta (staDtimeout ||| staCtimeout) then .retry else .poll } := by
  split_ifs
  · exact h
  · exact ⟨h, htaken⟩

/-- The loop that waits for the hardware leaves the token taken alone. -/
theorem Settled.pollStep {s : State} (h : Settled s) (htaken : s.taken = some ⟨.dma, s.attempt⟩)
    (sta : BitVec 32) : Inv (pollStep sta s) := by
  unfold Sdio.pollStep
  dsimp only
  split_ifs
  · exact h
  · exact ⟨h, htaken⟩
  · exact h
  · exact ⟨h, htaken⟩

/-- The loop that waits for another command has nothing to do with the semaphore. -/
theorem Settled.pollOtherStep {s : State} (h : Settled s) (hother : s.request.command ≠ sdioCmd53)
    (sta : BitVec 32) : Inv (pollOtherStep sta s) := by
  unfold Sdio.pollOtherStep
  dsimp only
  split_ifs
  · exact h
  · exact ⟨h, fun hdata => (hother hdata).elim⟩
  · exact h
  · exact ⟨h, hother⟩

/-- **Caller.** A step of the caller keeps the invariant. -/
theorem Inv.callerStep {s s' : State} {sta resp1 : BitVec 32} (h : Inv s)
    (hstep : callerStep sta resp1 s = some s') : Inv s' := by
  unfold Sdio.callerStep at hstep
  unfold Inv at h
  cases hpc : s.pc
  all_goals rw [hpc] at h hstep
  case returned => cases hstep
  case wait => exact h.1.takeStep hstep
  all_goals obtain rfl := Option.some.inj hstep
  case retry => exact Settled.retryStep h
  case attempt => exact h
  case enable => exact h
  case setup => exact ⟨h.1, h.2.1, enabled_setupStep s⟩
  case send =>
    have hsettled : Settled (sendCommand .wait s) := h
    exact ⟨hsettled.pending, rfl⟩
  case check =>
    obtain ⟨hsettled, token, htaken, hown⟩ := h
    exact inv_check hsettled htaken hown
  case status => exact inv_status h.1 h.2 sta
  case poll => exact Settled.pollStep h.1 h.2 sta
  case finish => exact ⟨h.1, fun _ => h.2⟩
  case sendOther => exact h
  case pollOther => exact Settled.pollOtherStep h.1 h.2 sta
  case respond => exact h

/-- **Timeout.** A wait that ends with no run of the stream pending keeps the invariant. -/
theorem Inv.timeoutStep {s s' : State} (h : Inv s) (hruns : s.runs = [])
    (hstep : timeoutStep s = some s') : Inv s' := by
  unfold Sdio.timeoutStep at hstep
  split_ifs at hstep with hwait
  obtain rfl := Option.some.inj hstep
  exact ⟨hwait.2, hruns, Bool.of_not_eq_true fun henabled => h.pending.enabled henabled hruns⟩

/-- **Step lemma.** Every step that signals once keeps the invariant. -/
theorem Inv.step {s s' : State} {a : Action} (h : Inv s) (honce : SignalsOnce s a)
    (hstep : step s a = some s') : Inv s' := by
  cases a with
  | call request data =>
    unfold Sdio.step at hstep
    cases hpc : s.pc
    all_goals rw [hpc] at hstep
    case returned =>
      obtain rfl := Option.some.inj hstep
      obtain ⟨htokens, hruns, -⟩ := h.settled (by rw [hpc]; exact nofun)
      exact ⟨htokens, hruns, show hasBits 0 dmaSxcrEn = false by decide⟩
    all_goals cases hstep
  | caller sta resp1 => exact h.callerStep hstep
  | timeout => exact h.timeoutStep honce hstep
  | sdioIrq sta resp1 =>
    unfold Sdio.step at hstep
    dsimp only at hstep
    split_ifs at hstep
    obtain rfl := Option.some.inj hstep
    exact h.sdioIrq honce
  | dmaIrq => exact h.dmaIrq hstep
  | receive receiveBuffer =>
    unfold Sdio.step at hstep
    dsimp only at hstep
    split_ifs at hstep with henabled
    obtain rfl := Option.some.inj hstep
    have hpc := h.wait_of_runs (h.pending.enabled henabled.1)
    obtain ⟨hpending, hcommanded⟩ := h.waiting hpc
    exact Pending.inv ⟨hpending.single, hpending.enabled, hpending.token, hpending.run⟩
      hcommanded hpc

/-- The invariant gives what should hold in a state. -/
theorem Inv.clean {s : State} (h : Inv s) : Clean s := by
  constructor
  · intro hpc
    exact (h.settled (by rw [hpc]; exact nofun)).1
  · intro result hpc
    obtain ⟨htokens, -, henabled⟩ := h.settled (by rw [hpc]; exact nofun)
    exact ⟨htokens, henabled⟩
  · intro hpc
    unfold Inv at h
    rw [hpc] at h
    exact h.2

/-- **When no completion is stale.** In every run whose interrupts and timeouts signal once,
every attempt starts with an empty semaphore, every call returns with an empty
semaphore and a stopped stream, and CMD53 succeeds with its own completion only. -/
theorem run_clean {as : List Action} {s : State} (honce : Along step SignalsOnce State.init as)
    (hrun : run step State.init as = some s) : Clean s :=
  (honce.invariant (fun _ _ _ h honce hstep => h.step honce hstep) inv_init hrun).clean

/-- Whether a step signals once can be decided. -/
instance (s : State) (a : Action) : Decidable (SignalsOnce s a) := by
  cases a <;> unfold SignalsOnce <;> infer_instance

/-- The steps of a call of CMD53 that reads four bytes, up to its wait. -/
def sendRead : List Action :=
  .call ⟨.read, sdioCmd53, .byte, 4, 0, 4, true, false⟩ (fun _ => 0) ::
    List.replicate 5 (.caller 0 0)

/-- A read of four bytes: the command is answered, the stream moves the data, and the
caller takes the token and returns. -/
theorem run_clean_read : ∃ s,
    run step State.init (sendRead ++ [.sdioIrq staCmdrend 0, .dmaIrq] ++
      List.replicate 6 (.caller 0 0)) = some s ∧
      s.pc = .returned (some .success) ∧ Clean s := by
  have hreturned : ((run step State.init (sendRead ++ [.sdioIrq staCmdrend 0, .dmaIrq] ++
      List.replicate 6 (.caller 0 0))).map fun s => s.pc) = some (.returned (some .success)) := by
    decide +kernel
  obtain ⟨s, hrun, hpc⟩ := Option.map_eq_some_iff.mp hreturned
  exact ⟨s, hrun, hpc, run_clean (by decide +kernel) hrun⟩

/-- The command is answered, and the wait times out while the stream is running: the call
returns with the stream enabled. -/
theorem not_run_clean : ¬ ∀ as s, run step State.init as = some s → Clean s := by
  intro hall
  have htimeout : ((run step State.init (sendRead ++ [.sdioIrq staCmdrend 0, .timeout])).map
      fun s => (s.pc, s.enabled)) = some (.returned (some .timeout), true) := by
    decide +kernel
  obtain ⟨s, hrun, hstate⟩ := Option.map_eq_some_iff.mp htimeout
  obtain ⟨hpc, henabled⟩ := Prod.mk.inj hstate
  have hdisabled := ((hall _ s hrun).returned .timeout hpc).2
  rw [henabled] at hdisabled
  cases hdisabled

end WifiMcu.Sdio
