import WifiMcu.Sdio.Transfer
import Mathlib.Data.List.Induction

/-!
# How a transfer returns

Whatever the hardware and the interrupts do, a call of `host_platform_sdio_transfer`
ends after five attempts at the latest. Before its copy of the data that was read it
leaves the buffer of its caller alone, and it disables the command interrupts on every
way out on which it has enabled them.
-/

namespace WifiMcu.Sdio

open Memory Transition

/-- An action of the caller in the middle of a call. -/
def Action.isCaller : Action → Bool
  | .caller _ _ | .timeout => true
  | _ => false

/-- A call of `host_platform_sdio_transfer`. -/
def Action.isCall : Action → Bool
  | .call _ _ => true
  | _ => false

/-- The DMA stream writes to the receive buffer. -/
def Action.isReceive : Action → Bool
  | .receive _ => true
  | _ => false

/-- What no interrupt changes. -/
structure Caller where
  mask : BitVec 32
  data : ℕ → UInt8
  response : BitVec 32
  request : Request
  outertries : ℕ
  tries : ℕ
  pc : Pc

/-- What no interrupt changes in a state. -/
def State.caller (s : State) : Caller :=
  ⟨s.mask, s.data, s.response, s.request, s.outertries, s.tries, s.pc⟩

/-- A step of the caller counts. -/
def callerWeight (_ : State) (a : Action) : ℕ := if a.isCaller then 1 else 0

/-- A step that sends a command, which each attempt does once, counts. -/
def commandWeight (s : State) (a : Action) : ℕ :=
  if a.isCaller ∧ (s.pc = .send ∨ s.pc = .sendOther) then 1 else 0

/-- A bound for the steps of one attempt. -/
def attemptSteps : ℕ := 10 + max maxNormalCommandWaitLoops maxDmaCommandWaitLoops

/-- A bound for the steps that the caller still makes in its attempt. -/
def Pc.remaining (tries : ℕ) : Pc → ℕ
  | .returned _ => 0
  | .respond | .retry => 1
  | .finish => 2
  | .poll => 3 + (maxDmaCommandWaitLoops - tries)
  | .status => 4 + maxDmaCommandWaitLoops
  | .check => 5 + maxDmaCommandWaitLoops
  | .wait => 6 + maxDmaCommandWaitLoops
  | .send => 7 + maxDmaCommandWaitLoops
  | .setup => 8 + maxDmaCommandWaitLoops
  | .enable => 9 + maxDmaCommandWaitLoops
  | .attempt => 10 + maxDmaCommandWaitLoops
  | .pollOther => 3 + (maxNormalCommandWaitLoops - tries)
  | .sendOther => 4 + maxNormalCommandWaitLoops

/-- A bound for the steps that the caller still makes. -/
def Caller.remaining (c : Caller) : ℕ :=
  (maxTransferRetries - c.outertries) * attemptSteps + c.pc.remaining c.tries

/-- The caller has not sent the command of its attempt yet. -/
def Pc.beforeCommand : Pc → Bool
  | .attempt | .enable | .setup | .send | .sendOther => true
  | _ => false

/-- A bound for the commands that are still sent. -/
def Caller.commands (c : Caller) : ℕ :=
  maxTransferRetries - c.outertries + if c.pc.beforeCommand then 1 else 0

/-- The buffer of the caller is as it was before the call, and the response is cleared. -/
def Caller.Untouched (c : Caller) (data : ℕ → UInt8) : Prop :=
  c.data = data ∧ (c.request.hasResponse = true → c.response = 0)

/-- The parameters that byte mode leaves alone are those of the call. -/
structure SameRequest (r r' : Request) : Prop where
  direction : r'.direction = r.direction
  command : r'.command = r.command
  dataSize : r'.dataSize = r.dataSize
  hasResponse : r'.hasResponse = r.hasResponse

/-- What holds at each place of the caller during a call. -/
def Caller.At (c : Caller) (data : ℕ → UInt8) : Prop :=
  match c.pc with
  | .retry => c.Untouched data
  | .sendOther | .pollOther => c.Untouched data ∧ c.request.command ≠ sdioCmd53
  | .respond | .returned (some .success) =>
    (c.request.command = sdioCmd53 → c.mask = maskSdioitie) ∧
      (c.request.command ≠ sdioCmd53 → c.data = data)
  | .returned none => False
  | .returned (some _) => c.Untouched data ∧ c.mask = maskSdioitie
  | _ => c.Untouched data ∧ c.request.command = sdioCmd53

/-! ### Interrupts -/

/-- A token in the semaphore is nothing that the caller sees. -/
@[simp] theorem caller_give (token : Token) (s : State) : (give token s).caller = s.caller := by
  unfold give
  split_ifs <;> rfl

/-- The signal of an error is nothing that the caller sees. -/
@[simp] theorem caller_signalError (s : State) : (signalError s).caller = s.caller :=
  caller_give _ _

/-- The start of the stream is nothing that the caller sees. -/
@[simp] theorem caller_startStream (s : State) : (startStream s).caller = s.caller := by
  unfold startStream
  split_ifs <;> rfl

/-- `SDIO_IRQHandler` changes nothing that belongs to the caller. -/
@[simp] theorem caller_sdioIrqHandler (intstatus resp1 : BitVec 32) (s : State) :
    (sdioIrqHandler intstatus resp1 s).caller = s.caller := by
  unfold sdioIrqHandler
  dsimp only
  split_ifs <;> simp

/-- `DMA2_Stream3_IRQHandler` changes nothing that belongs to the caller. -/
theorem caller_dmaIrqHandler {s s' : State} (h : dmaIrqHandler s = some s') :
    s'.caller = s.caller := by
  unfold dmaIrqHandler at h
  split at h
  · cases h
  · obtain rfl := Option.some.inj h
    exact caller_give _ _

/-- **Frame.** A step that is not one of the caller leaves alone what no interrupt
changes. -/
theorem caller_step {s s' : State} {a : Action} (hcall : a.isCall = false)
    (hcaller : a.isCaller = false) (hstep : step s a = some s') : s'.caller = s.caller := by
  cases a with
  | call request data => cases hcall
  | caller sta resp1 => cases hcaller
  | timeout => cases hcaller
  | sdioIrq sta resp1 =>
    rw [step] at hstep
    split_ifs at hstep
    obtain rfl := Option.some.inj hstep
    exact caller_sdioIrqHandler sta resp1 s
  | dmaIrq => exact caller_dmaIrqHandler hstep
  | receive receiveBuffer =>
    rw [step] at hstep
    split_ifs at hstep
    obtain rfl := Option.some.inj hstep
    rfl

/-! ### Steps of the caller -/

/-- The place behind one from which the caller may just go on. -/
def Pc.next : Pc → Option Pc
  | .attempt => some .enable
  | .setup => some .send
  | .send => some .wait
  | .wait => some .check
  | .check => some .status
  | .status => some .poll
  | .poll => some .finish
  | .sendOther => some .pollOther
  | .pollOther => some .respond
  | _ => none

/-- The caller goes on to the response from the loop that waits for another command. -/
theorem Pc.eq_pollOther_of_next {pc : Pc} (h : pc.next = some .respond) : pc = .pollOther := by
  cases pc <;> cases h
  rfl

/-- The caller does not just go on to its return. -/
theorem Pc.next_ne_returned {pc : Pc} {result : Option Result} (h : pc.next = some (.returned result)) :
    False := by
  cases pc <;> cases h

/-- The place is one from which the caller may go back to the label `retry`. -/
def Pc.mayFail : Pc → Bool
  | .check | .status | .poll | .pollOther => true
  | _ => false

/-- What a step does to the part of the state that belongs to the caller. -/
inductive Caller.Next (receiveBuffer : ℕ → UInt8) (c : Caller) : Caller → Prop
  /-- There are no retries left. -/
  | exceeded (hpc : c.pc = .retry) (htries : maxTransferRetries ≤ c.outertries) :
    Next receiveBuffer c
      { c with
        outertries := c.outertries + 1
        mask := maskSdioitie
        pc := .returned (some .retriesExceeded) }
  /-- An attempt begins. -/
  | begin (pc : Pc) (hpc : c.pc = .retry) (htries : c.outertries < maxTransferRetries)
    (hcommand : pc = .attempt ∧ c.request.command = sdioCmd53 ∨
      pc = .sendOther ∧ c.request.command ≠ sdioCmd53) :
    Next receiveBuffer c { c with outertries := c.outertries + 1, pc }
  /-- The caller goes on. -/
  | forward (tries : ℕ) (pc : Pc) (hpc : c.pc.next = some pc) : Next receiveBuffer c { c with tries, pc }
  /-- The caller goes back. -/
  | back (tries : ℕ) (hpc : c.pc.mayFail = true) : Next receiveBuffer c { c with tries, pc := .retry }
  /-- The caller stays in the loop that waits for the hardware to finish. -/
  | pollAgain (hpc : c.pc = .poll) (htries : c.tries + 1 < maxDmaCommandWaitLoops) :
    Next receiveBuffer c { c with tries := c.tries + 1 }
  /-- The caller stays in the loop that waits for another command. -/
  | pollOtherAgain (hpc : c.pc = .pollOther) (htries : c.tries + 1 < maxNormalCommandWaitLoops) :
    Next receiveBuffer c { c with tries := c.tries + 1 }
  /-- The interrupts are enabled. -/
  | enable (mask : BitVec 32) (hpc : c.pc = .enable) :
    Next receiveBuffer c { c with mask, request := convertByteMode c.request, pc := .setup }
  /-- The data is copied, and the interrupts are disabled. -/
  | finish (data : ℕ → UInt8) (hpc : c.pc = .finish)
    (hdata : data = if c.request.direction = .read then
      writeBlock c.data 0 (readBlock receiveBuffer 0 c.request.dataSize) else c.data) :
    Next receiveBuffer c { c with data, mask := maskSdioitie, pc := .respond }
  /-- The response is returned. -/
  | respond (response : BitVec 32) (hpc : c.pc = .respond) :
    Next receiveBuffer c { c with response, pc := .returned (some .success) }
  /-- The wait times out. -/
  | timeout (hpc : c.pc = .wait) :
    Next receiveBuffer c { c with mask := maskSdioitie, pc := .returned (some .timeout) }

/-- **Step lemma.** What a step of the caller does. -/
theorem next_callerStep {s s' : State} {sta resp1 : BitVec 32}
    (hstep : callerStep sta resp1 s = some s') : s.caller.Next s.receiveBuffer s'.caller := by
  unfold callerStep at hstep
  cases hpc : s.pc
  all_goals rw [hpc] at hstep; dsimp only at hstep
  case returned => cases hstep
  case wait =>
    unfold takeStep at hstep
    split at hstep
    · cases hstep
    · obtain rfl := Option.some.inj hstep
      exact .forward s.tries .check (by rw [State.caller, hpc]; rfl)
  all_goals obtain rfl := Option.some.inj hstep
  case retry =>
    unfold retryStep
    dsimp only
    split_ifs with hexceeded hdata
    · exact .exceeded hpc (Nat.le_of_lt_succ hexceeded)
    · exact .begin .attempt hpc (Nat.not_lt.mp hexceeded) (Or.inl ⟨rfl, hdata⟩)
    · exact .begin .sendOther hpc (Nat.not_lt.mp hexceeded) (Or.inr ⟨rfl, hdata⟩)
  case attempt => exact .forward s.tries .enable (congrArg Pc.next hpc)
  case enable => exact .enable _ hpc
  case setup => exact .forward s.tries .send (congrArg Pc.next hpc)
  case send => exact .forward 0 .wait (congrArg Pc.next hpc)
  case check =>
    split_ifs
    · exact .back s.tries (congrArg Pc.mayFail hpc)
    · exact .forward s.tries .status (congrArg Pc.next hpc)
  case status =>
    split_ifs
    · exact .back 0 (congrArg Pc.mayFail hpc)
    · exact .forward 0 .poll (congrArg Pc.next hpc)
  case poll =>
    unfold pollStep
    dsimp only
    split_ifs with herror hdone htries
    · exact .back s.tries (congrArg Pc.mayFail hpc)
    · exact .forward s.tries .finish (congrArg Pc.next hpc)
    · exact .back (s.tries + 1) (congrArg Pc.mayFail hpc)
    · rw [← hpc]
      exact .pollAgain hpc (Nat.not_le.mp htries)
  case finish => exact .finish _ hpc rfl
  case sendOther => exact .forward 0 .pollOther (congrArg Pc.next hpc)
  case pollOther =>
    unfold pollOtherStep
    dsimp only
    split_ifs with herror hdone htries
    · exact .back s.tries (congrArg Pc.mayFail hpc)
    · exact .forward s.tries .respond (congrArg Pc.next hpc)
    · exact .back (s.tries + 1) (congrArg Pc.mayFail hpc)
    · rw [← hpc]
      exact .pollOtherAgain hpc (Nat.not_le.mp htries)
  case respond => exact .respond _ hpc

/-- The end of a wait is a step of the caller as well. -/
theorem next_timeoutStep {s s' : State} (hstep : timeoutStep s = some s') :
    s.caller.Next s.receiveBuffer s'.caller := by
  unfold timeoutStep at hstep
  split_ifs at hstep with hwait
  obtain rfl := Option.some.inj hstep
  exact .timeout hwait.1

/-- Every step during a call is one of the caller or leaves its part of the state alone. -/
theorem step_cases {s s' : State} {a : Action} (hcall : a.isCall = false)
    (hstep : step s a = some s') :
    (a.isCaller = true ∧ s.caller.Next s.receiveBuffer s'.caller) ∨
      (a.isCaller = false ∧ s'.caller = s.caller) := by
  cases a with
  | caller sta resp1 => exact Or.inl ⟨rfl, next_callerStep hstep⟩
  | timeout => exact Or.inl ⟨rfl, next_timeoutStep hstep⟩
  | call request data => cases hcall
  | sdioIrq sta resp1 => exact Or.inr ⟨rfl, caller_step rfl rfl hstep⟩
  | dmaIrq => exact Or.inr ⟨rfl, caller_step rfl rfl hstep⟩
  | receive receiveBuffer => exact Or.inr ⟨rfl, caller_step rfl rfl hstep⟩

/-- Where the caller goes on, it comes closer to its return, wherever it starts to count. -/
theorem remaining_next {pc pc' : Pc} (h : pc.next = some pc') (tries tries' : ℕ) :
    1 + pc'.remaining tries' ≤ pc.remaining tries := by
  cases pc <;> cases h <;> simp only [Pc.remaining] <;> omega

/-- **Progress.** Every step of the caller brings it closer to its return. -/
theorem Caller.Next.remaining {receiveBuffer : ℕ → UInt8} {c c' : Caller}
    (h : c.Next receiveBuffer c') : 1 + c'.remaining ≤ c.remaining := by
  unfold Caller.remaining
  cases h with
  | exceeded hpc htries =>
    have hnone : maxTransferRetries - c.outertries = 0 := Nat.sub_eq_zero_of_le htries
    have hnone' : maxTransferRetries - (c.outertries + 1) = 0 := by omega
    simp only [hpc, hnone, hnone', Pc.remaining]
    omega
  | begin pc hpc htries hcommand =>
    have hsplit : maxTransferRetries - c.outertries =
        maxTransferRetries - (c.outertries + 1) + 1 := by omega
    have hattempt : pc.remaining c.tries ≤ attemptSteps := by
      rcases hcommand with ⟨rfl, -⟩ | ⟨rfl, -⟩
      · exact Nat.add_le_add_left (Nat.le_max_right _ _) 10
      · exact Nat.add_le_add (by decide) (Nat.le_max_left _ _)
    have hretry : c.pc.remaining c.tries = 1 := by rw [hpc]; rfl
    rw [hsplit, Nat.succ_mul, hretry]
    dsimp only
    omega
  | forward tries pc hpc =>
    have hnext := remaining_next hpc c.tries tries
    dsimp only
    omega
  | back tries hpc =>
    have hretry : 2 ≤ c.pc.remaining c.tries := by
      cases hplace : c.pc <;> rw [hplace] at hpc <;> cases hpc <;> simp only [Pc.remaining] <;> omega
    have hback : Pc.remaining tries .retry = 1 := rfl
    dsimp only
    omega
  | pollAgain hpc htries =>
    simp only [hpc, Pc.remaining]
    omega
  | pollOtherAgain hpc htries =>
    simp only [hpc, Pc.remaining]
    omega
  | enable mask hpc =>
    simp only [hpc, Pc.remaining]
    omega
  | finish data hpc hdata =>
    simp only [hpc, Pc.remaining]
    omega
  | respond response hpc =>
    simp only [hpc, Pc.remaining]
    omega
  | timeout hpc =>
    simp only [hpc, Pc.remaining]
    omega

/-- **Attempts.** Each attempt sends its command once, and there are no more attempts than
retries are left. -/
theorem Caller.Next.commands {receiveBuffer : ℕ → UInt8} {c c' : Caller}
    (h : c.Next receiveBuffer c') :
    (if c.pc = .send ∨ c.pc = .sendOther then 1 else 0) + c'.commands ≤ c.commands := by
  unfold Caller.commands
  cases h with
  | exceeded hpc htries => simp [hpc, Pc.beforeCommand]; omega
  | begin pc hpc htries hcommand =>
    have hbefore : pc.beforeCommand = true := by
      rcases hcommand with ⟨rfl, -⟩ | ⟨rfl, -⟩ <;> rfl
    rw [hpc, hbefore]
    simp [Pc.beforeCommand]
    omega
  | forward tries pc hpc =>
    cases hplace : c.pc <;> rw [hplace] at hpc <;> cases hpc <;> simp [Pc.beforeCommand, Nat.add_comm]
  | back tries hpc =>
    cases hplace : c.pc <;> rw [hplace] at hpc <;> cases hpc <;> simp [Pc.beforeCommand]
  | pollAgain hpc htries => simp [hpc, Pc.beforeCommand]
  | pollOtherAgain hpc htries => simp [hpc, Pc.beforeCommand]
  | enable mask hpc => simp [hpc, Pc.beforeCommand]
  | finish data hpc hdata => simp [hpc, Pc.beforeCommand]
  | respond response hpc => simp [hpc, Pc.beforeCommand]
  | timeout hpc => simp [hpc, Pc.beforeCommand]

/-- Parameters that two steps keep are the same after both. -/
theorem SameRequest.trans {r r' r'' : Request} (h : SameRequest r r') (h' : SameRequest r' r'') :
    SameRequest r r'' :=
  ⟨h'.direction.trans h.direction, h'.command.trans h.command, h'.dataSize.trans h.dataSize,
    h'.hasResponse.trans h.hasResponse⟩

/-- Byte mode does not change the other parameters. -/
theorem sameRequest_convertByteMode (r : Request) : SameRequest r (convertByteMode r) := by
  unfold convertByteMode
  split_ifs
  · exact ⟨rfl, rfl, rfl, rfl⟩
  · exact ⟨rfl, rfl, rfl, rfl⟩

/-- A step of the caller keeps the parameters. -/
theorem Caller.Next.sameRequest {receiveBuffer : ℕ → UInt8} {c c' : Caller}
    (h : c.Next receiveBuffer c') : SameRequest c.request c'.request := by
  cases h with
  | enable mask hpc => exact sameRequest_convertByteMode c.request
  | _ => exact ⟨rfl, rfl, rfl, rfl⟩

/-- **Frame.** A step of the caller keeps what holds at its places. -/
theorem Caller.Next.at {receiveBuffer data : ℕ → UInt8} {c c' : Caller}
    (h : c.Next receiveBuffer c') (hat : c.At data) : c'.At data := by
  unfold Caller.At at hat
  cases h with
  | exceeded hpc htries =>
    rw [hpc] at hat
    exact ⟨hat, rfl⟩
  | begin pc hpc htries hcommand =>
    rw [hpc] at hat
    rcases hcommand with ⟨rfl, hdata⟩ | ⟨rfl, hother⟩
    · exact ⟨hat, hdata⟩
    · exact ⟨hat, hother⟩
  | forward tries pc hpc =>
    cases hplace : c.pc <;> rw [hplace] at hpc hat <;> cases hpc
    case forward.pollOther.refl => exact ⟨fun hdata => (hat.2 hdata).elim, fun _ => hat.1.1⟩
    all_goals exact hat
  | back tries hpc =>
    cases hplace : c.pc <;> rw [hplace] at hpc hat <;> cases hpc <;> exact hat.1
  | pollAgain hpc htries =>
    simp only [hpc] at hat ⊢
    exact hat
  | pollOtherAgain hpc htries =>
    simp only [hpc] at hat ⊢
    exact hat
  | enable mask hpc =>
    rw [hpc] at hat
    have hsame := sameRequest_convertByteMode c.request
    exact ⟨⟨hat.1.1, fun hgiven => hat.1.2 (hsame.hasResponse ▸ hgiven)⟩,
      hsame.command.trans hat.2⟩
  | finish newData hpc hdata =>
    rw [hpc] at hat
    exact ⟨fun _ => rfl, fun hother => (hother hat.2).elim⟩
  | respond response hpc =>
    rw [hpc] at hat
    exact hat
  | timeout hpc =>
    rw [hpc] at hat
    exact ⟨hat.1, rfl⟩

/-! ### Runs of a call -/

/-- The first step of a call: nothing has happened to the buffer of the caller. -/
theorem at_call {s t : State} {request : Request} {data : ℕ → UInt8}
    (hcall : step s (.call request data) = some t) :
    t.caller.At data ∧ t.request = request ∧ t.pc = .retry ∧ t.outertries = 0 := by
  rw [step] at hcall
  split at hcall
  · obtain rfl := Option.some.inj hcall
    refine ⟨⟨rfl, fun hgiven => ?_⟩, rfl, rfl, rfl⟩
    exact if_pos hgiven
  · cases hcall

/-- What holds during a call: what does at the place of the caller, and the parameters are
those of the call. -/
structure InCall (request : Request) (data : ℕ → UInt8) (s : State) : Prop where
  at_pc : s.caller.At data
  request : SameRequest request s.request

/-- Every step during a call keeps what holds during it. -/
theorem InCall.step {request : Request} {data : ℕ → UInt8} {s s' : State} {a : Action}
    (h : InCall request data s) (hcall : a.isCall = false) (hstep : step s a = some s') :
    InCall request data s' := by
  rcases step_cases hcall hstep with ⟨-, hnext⟩ | ⟨-, heq⟩
  · exact ⟨hnext.at h.at_pc, h.request.trans hnext.sameRequest⟩
  · have hrequest : s'.request = s.request := congrArg Caller.request heq
    exact ⟨heq ▸ h.at_pc, hrequest ▸ h.request⟩

/-- What holds at the beginning of a call holds throughout. -/
theorem InCall.run {request : Request} {data : ℕ → UInt8} {t s' : State} {as : List Action}
    (h : InCall request data t) (hduring : ∀ a ∈ as, a.isCall = false)
    (hrun : run Sdio.step t as = some s') : InCall request data s' :=
  (along_of_forall (fun a ha _ => hduring a ha) t).invariant
    (fun _ _ _ h hcall hstep => h.step hcall hstep) h hrun

/-- A token in the semaphore leaves the receive buffer alone. -/
@[simp] theorem receiveBuffer_give (token : Token) (s : State) :
    (give token s).receiveBuffer = s.receiveBuffer := by
  unfold give
  split_ifs <;> rfl

/-- `SDIO_IRQHandler` leaves the receive buffer alone. -/
theorem receiveBuffer_sdioIrqHandler (intstatus resp1 : BitVec 32) (s : State) :
    (sdioIrqHandler intstatus resp1 s).receiveBuffer = s.receiveBuffer := by
  unfold sdioIrqHandler signalError startStream
  dsimp only
  split_ifs <;> simp

/-- The caller only reads from the receive buffer. -/
theorem receiveBuffer_callerStep {s s' : State} {sta resp1 : BitVec 32}
    (hstep : callerStep sta resp1 s = some s') : s'.receiveBuffer = s.receiveBuffer := by
  unfold callerStep at hstep
  cases hpc : s.pc
  all_goals rw [hpc] at hstep; dsimp only at hstep
  case returned => cases hstep
  case wait =>
    unfold takeStep at hstep
    split at hstep
    · cases hstep
    · obtain rfl := Option.some.inj hstep
      rfl
  all_goals obtain rfl := Option.some.inj hstep
  case retry =>
    unfold retryStep
    dsimp only
    split_ifs <;> rfl
  case poll =>
    unfold pollStep
    dsimp only
    split_ifs <;> rfl
  case pollOther =>
    unfold pollOtherStep
    dsimp only
    split_ifs <;> rfl
  all_goals rfl

/-- Only the DMA stream writes to the receive buffer. -/
theorem receiveBuffer_step {s s' : State} {a : Action} (hcall : a.isCall = false)
    (hreceive : a.isReceive = false) (hstep : step s a = some s') :
    s'.receiveBuffer = s.receiveBuffer := by
  cases a with
  | call request data => cases hcall
  | caller sta resp1 => exact receiveBuffer_callerStep hstep
  | timeout =>
    rw [step, timeoutStep] at hstep
    split_ifs at hstep
    obtain rfl := Option.some.inj hstep
    rfl
  | sdioIrq sta resp1 =>
    rw [step] at hstep
    split_ifs at hstep
    obtain rfl := Option.some.inj hstep
    exact receiveBuffer_sdioIrqHandler sta resp1 s
  | dmaIrq =>
    rw [step] at hstep
    unfold dmaIrqHandler at hstep
    split at hstep
    · cases hstep
    · obtain rfl := Option.some.inj hstep
      exact receiveBuffer_give _ _
  | receive receiveBuffer => cases hreceive

/-- The data that a call has copied are those that were in the receive buffer when the
hardware had finished. -/
structure Copied (t s' : State) (data : ℕ → UInt8) (size : ℕ) (as : List Action) : Prop where
  copied : ∃ before after u, as = before ++ after ∧ run step t before = some u ∧
    u.pc = .finish ∧ s'.data = writeBlock data 0 (readBlock u.receiveBuffer 0 size) ∧
    ((∀ a ∈ after, a.isReceive = false) → s'.receiveBuffer = u.receiveBuffer)

/-- A step that leaves the data as they are leaves them copied. -/
theorem Copied.concat {t u s' : State} {data : ℕ → UInt8} {size : ℕ} {as : List Action}
    {a : Action} (h : Copied t u data size as) (hduring : a.isCall = false)
    (hstep : step u a = some s') (heq : s'.data = u.data) :
    Copied t s' data size (as ++ [a]) := by
  obtain ⟨before, after, v, rfl, hv, hfinish, hcopy, hbuffer⟩ := h
  refine ⟨before, after ++ [a], v, List.append_assoc _ _ _, hv, hfinish, heq.trans hcopy, ?_⟩
  intro hnone
  have hlast := receiveBuffer_step hduring (hnone a (by simp)) hstep
  exact hlast.trans (hbuffer fun b hb => hnone b (List.mem_append_left _ hb))

/-- Behind its copy, a call of CMD53 that reads has copied the data. -/
theorem run_copied {t s' : State} {request : Request} {data : ℕ → UInt8} {as : List Action}
    (hduring : ∀ a ∈ as, a.isCall = false) (h : InCall request data t) (hretry : t.pc = .retry)
    (hread : request.direction = .read) (hdata : request.command = sdioCmd53)
    (hplace : s'.pc = .respond ∨ s'.pc = .returned (some .success))
    (hrun : run step t as = some s') : Copied t s' data request.dataSize as := by
  induction as using List.reverseRecOn generalizing s' with
  | nil =>
    obtain rfl := Option.some.inj hrun
    rw [hretry] at hplace
    rcases hplace with hplace | hplace <;> cases hplace
  | append_singleton as a ih =>
    obtain ⟨u, hu, hstep⟩ := (run_concat_eq_some step).mp hrun
    have hduring' : ∀ b ∈ as, b.isCall = false := fun b hb =>
      hduring b (List.mem_append_left _ hb)
    obtain ⟨huat, hurequest⟩ := h.run hduring' hu
    -- behind the copy nothing changes the data any more
    have hlater (hplace' : u.pc = .respond ∨ u.pc = .returned (some .success))
        (heq : s'.data = u.data) : Copied t s' data request.dataSize (as ++ [a]) :=
      (ih hduring' hplace' hu).concat (hduring a (by simp)) hstep heq
    rcases step_cases (hduring a (by simp)) hstep with ⟨hcaller, hnext⟩ | ⟨-, heq⟩
    · generalize hc : s'.caller = c at hnext
      have hpc' : s'.pc = c.pc := congrArg Caller.pc hc
      have hdata' : s'.data = c.data := congrArg Caller.data hc
      rw [hpc'] at hplace
      cases hnext with
      | forward tries pc hpc =>
        have hother : u.caller.pc = .pollOther := by
          rcases hplace with rfl | rfl
          · exact Pc.eq_pollOther_of_next hpc
          · exact (Pc.next_ne_returned hpc).elim
        unfold Caller.At at huat
        rw [hother] at huat
        exact (huat.2 (hurequest.command.trans hdata)).elim
      | finish newData hpc hnew =>
        unfold Caller.At at huat
        rw [hpc] at huat
        have hdirection : u.caller.request.direction = .read := hurequest.direction.trans hread
        have hsize : u.caller.request.dataSize = request.dataSize := hurequest.dataSize
        rw [if_pos hdirection, huat.1.1, hsize] at hnew
        refine ⟨as, [a], u, rfl, hu, hpc, hdata'.trans hnew, fun hnone => ?_⟩
        exact receiveBuffer_step (hduring a (by simp)) (hnone a (by simp)) hstep
      | respond response hpc => exact hlater (Or.inl hpc) hdata'
      | pollAgain hpc htries =>
        rcases hplace with hplace | hplace <;> cases hpc.symm.trans hplace
      | pollOtherAgain hpc htries =>
        rcases hplace with hplace | hplace <;> cases hpc.symm.trans hplace
      | begin pc hpc htries hcommand =>
        rcases hcommand with ⟨rfl, -⟩ | ⟨rfl, -⟩ <;> rcases hplace with hplace | hplace <;> cases hplace
      | _ => rcases hplace with hplace | hplace <;> cases hplace
    · have hpc : s'.pc = u.pc := congrArg Caller.pc heq
      rw [hpc] at hplace
      exact hlater hplace (congrArg Caller.data heq)

/-- The caller can always take a step, or its wait can end. -/
theorem caller_goes_on {s : State} (h : ∀ result, s.pc ≠ .returned result) (sta resp1 : BitVec 32) :
    (step s (.caller sta resp1)).isSome ∨ (step s .timeout).isSome := by
  cases hpc : s.pc with
  | returned result => exact absurd hpc (h result)
  | wait =>
    rcases htokens : s.tokens with _ | ⟨token, tokens⟩
    · right
      rw [step, timeoutStep, if_pos ⟨hpc, htokens⟩]
      rfl
    · left
      rw [step, callerStep, hpc]
      dsimp only
      rw [takeStep, htokens]
      rfl
  | _ =>
    left
    rw [step, callerStep, hpc]
    rfl

/-- A call comes to its end: it makes a bounded number of steps and of attempts, whatever
happens in between, and it is never stuck. -/
structure Terminates (t s' : State) (as : List Action) : Prop where
  steps : cost step callerWeight t as ≤ maxTransferRetries * attemptSteps + 1
  attempts : cost step commandWeight t as ≤ maxTransferRetries
  progress : (∀ result, s'.pc ≠ .returned result) → ∀ sta resp1,
    (step s' (.caller sta resp1)).isSome ∨ (step s' .timeout).isSome

/-- A return is clean: unless the call was successful, the buffer of the caller is as it
was before a read, and the response is 0; a successful read by CMD53 has copied the
data and written nothing else; and no command interrupt is left enabled. -/
structure CleanReturn (request : Request) (data : ℕ → UInt8) (t s' : State) (as : List Action)
    (result : Result) : Prop where
  failed : result ≠ .success → (request.direction = .read → s'.data = data) ∧
    (request.hasResponse = true → s'.response = 0)
  success : result = .success → request.command = sdioCmd53 → request.direction = .read →
    Copied t s' data request.dataSize as
  mask : request.command = sdioCmd53 ∨ result = .retriesExceeded → s'.mask = maskSdioitie

/-- A step of the caller takes it closer to its return, and no other step matters. -/
theorem callerWeight_step {s s' : State} {a : Action} (hcall : a.isCall = false)
    (hstep : step s a = some s') :
    callerWeight s a + s'.caller.remaining ≤ s.caller.remaining := by
  unfold callerWeight
  rcases step_cases hcall hstep with ⟨hcaller, hnext⟩ | ⟨hcaller, heq⟩
  · rw [if_pos hcaller]
    exact hnext.remaining
  · rw [if_neg (by rw [hcaller]; exact Bool.false_ne_true), heq]
    omega

/-- A command that is sent is one of those that were left to be sent. -/
theorem commandWeight_step {s s' : State} {a : Action} (hcall : a.isCall = false)
    (hstep : step s a = some s') :
    commandWeight s a + s'.caller.commands ≤ s.caller.commands := by
  unfold commandWeight
  rcases step_cases hcall hstep with ⟨hcaller, hnext⟩ | ⟨hcaller, heq⟩
  · rw [hcaller]
    simp only [true_and]
    exact hnext.commands
  · rw [hcaller, heq]
    simp

/-- **Returns of a transfer.** Whatever the hardware puts into the registers, whenever
interrupts come and the wait times out, every call of `host_platform_sdio_transfer`
comes to its end, and returns cleanly. -/
theorem transfer_returns {s t s' : State} {request : Request} {data : ℕ → UInt8} {as : List Action}
    (hcall : step s (.call request data) = some t) (hduring : ∀ a ∈ as, a.isCall = false)
    (hrun : run step t as = some s') :
    Terminates t s' as ∧
      ∀ result, s'.pc = .returned (some result) → CleanReturn request data t s' as result := by
  obtain ⟨hat, hreq, hretry, htries⟩ := at_call hcall
  have hin : InCall request data t := by
    refine ⟨hat, ?_⟩
    rw [hreq]
    exact ⟨rfl, rfl, rfl, rfl⟩
  have hguard : Along step (fun _ a => a.isCall = false) t as :=
    along_of_forall (fun a ha _ => hduring a ha) t
  obtain ⟨hat', hrequest'⟩ := hin.run hduring hrun
  constructor
  · refine ⟨?_, ?_, fun hgoing sta resp1 => caller_goes_on hgoing sta resp1⟩
    · have hsteps := hguard.cost_add_le (fun s a s' => callerWeight_step (s := s) (a := a)) hrun
      have hbound : t.caller.remaining = maxTransferRetries * attemptSteps + 1 := by
        show (maxTransferRetries - t.outertries) * attemptSteps + t.pc.remaining t.tries = _
        rw [htries, hretry]
        rfl
      omega
    · have hsteps := hguard.cost_add_le (fun s a s' => commandWeight_step (s := s) (a := a)) hrun
      have hbound : t.caller.commands = maxTransferRetries := by
        show maxTransferRetries - t.outertries + (if t.pc.beforeCommand then 1 else 0) = _
        rw [htries, hretry]
        rfl
      omega
  · intro result hresult
    unfold Caller.At at hat'
    have hpc : s'.caller.pc = .returned (some result) := hresult
    rw [hpc] at hat'
    have hgiven (huntouched : s'.caller.Untouched data) (hresponse : request.hasResponse = true) :
        s'.response = 0 :=
      huntouched.2 (hrequest'.hasResponse.trans hresponse)
    refine ⟨?_, ?_, ?_⟩
    · intro hfailed
      cases result with
      | success => exact absurd rfl hfailed
      | timeout => exact ⟨fun _ => hat'.1.1, hgiven hat'.1⟩
      | retriesExceeded => exact ⟨fun _ => hat'.1.1, hgiven hat'.1⟩
    · rintro rfl hdata hread
      exact run_copied hduring hin hretry hread hdata (Or.inr hresult) hrun
    · intro hmask
      cases result with
      | success =>
        rcases hmask with hdata | hexceeded
        · exact hat'.1 (hrequest'.command.trans hdata)
        · cases hexceeded
      | timeout => exact hat'.2
      | retriesExceeded => exact hat'.2

/-- The request to read four bytes. -/
def readRequest : Request := ⟨.read, sdioCmd53, .byte, 4, 0, 4, true, true⟩

/-- A call in which the card reports an error at first, and then the stream moves the data. -/
def retriedRead : List Action :=
  List.replicate 5 (.caller 0 0) ++ [.sdioIrq staCmdrend 0x800] ++
    List.replicate 7 (.caller 0 0) ++
    [.sdioIrq staCmdrend 0, .receive fun i => UInt8.ofNat i, .dmaIrq] ++
    List.replicate 6 (.caller 0 0)

/-- A read of four bytes that succeeds with its second attempt. -/
theorem transfer_returns_retried : ∃ t s',
    step State.init (.call readRequest fun _ => 0) = some t ∧
      run step t retriedRead = some s' ∧ Terminates t s' retriedRead ∧
      CleanReturn readRequest (fun _ => 0) t s' retriedRead .success := by
  have hreturned : ((step State.init (.call readRequest fun _ => 0)).bind fun t =>
      (run step t retriedRead).map fun s' => s'.pc) = some (.returned (some .success)) := by
    decide +kernel
  obtain ⟨t, hcall, hmap⟩ := Option.bind_eq_some_iff.mp hreturned
  obtain ⟨s', hrun, hpc⟩ := Option.map_eq_some_iff.mp hmap
  have hduring : ∀ a ∈ retriedRead, a.isCall = false := by
    simp [retriedRead, Action.isCall]
  obtain ⟨hterminates, hclean⟩ := transfer_returns hcall hduring hrun
  exact ⟨t, s', hcall, hrun, hterminates, hclean .success hpc⟩

end WifiMcu.Sdio
