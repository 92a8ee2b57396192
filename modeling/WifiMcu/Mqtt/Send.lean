import WifiMcu.Mqtt.Client

/-!
# Sending a packet

`sendPacket` offers the packet to the transport until all of it has been accepted. It
goes on behind what has been accepted, but asks for the length of the whole packet
each time, so that a call after a short write offers bytes behind the packet.
-/

namespace WifiMcu.Mqtt

open Memory

variable {ε : Type}

/-- The result of `LwIP_write` for a result of `write`. -/
def lwipWrite (rc : ℤ) : ℤ := rc

/-- The result of `TLS_write` for a result of `mbedtls_ssl_write`. -/
def tlsWrite (ret : ℤ) : ℤ := if ret ≥ 0 then ret else -1

/-- A call of `mqttwrite`: where in the send buffer it starts, the bytes that it offers,
and its result. -/
structure WriteCall where
  start : ℕ
  bytes : List UInt8
  rc : ℤ
  deriving DecidableEq

/-- The calls of `mqttwrite` that a call of `sendPacket` has made. It starts where as
many bytes have been accepted as its start says. -/
def writeCalls : (start : ℕ) → List (List UInt8 × ℤ) → List WriteCall
  | _, [] => []
  | start, (bytes, rc) :: offered => ⟨start, bytes, rc⟩ :: writeCalls (start + rc.toNat) offered

/-- The bytes that the transport has accepted in a number of calls. -/
def accepted (calls : List WriteCall) : List UInt8 :=
  calls.flatMap fun call => call.bytes.take call.rc.toNat

/-- The calls of `mqttwrite` between two states of a session. -/
def Session.callsSince (s s' : Session ε) : List WriteCall :=
  writeCalls 0 (s'.offered.drop s.offered.length)

/-- A call of `sendPacket` is exact: what the transport accepts are the first bytes of the
packet, no call offers any byte of the send buffer behind the packet, and the packet
is sent successfully if and only if all of it has been accepted, once. -/
structure SendsExactly (length : ℕ) (s s' : Session ε) (rc : ℤ) : Prop where
  accepted : accepted (s.callsSince s') <+: readBlock s.client.buf 0 length
  inside : ∀ call ∈ s.callsSince s',
    call.bytes = readBlock s.client.buf call.start call.bytes.length ∧
      call.start + call.bytes.length ≤ length
  success : rc = mqttSuccess ↔ Mqtt.accepted (s.callsSince s') = readBlock s.client.buf 0 length

/-- After a write that accepts a part of the packet only, the timer is expired, by the
results of `TimerIsExpired` and of `mqttwrite`. -/
def OnePiece (length : ℕ) : List Bool → List ℤ → Prop
  | false :: expired, rc :: writes =>
    if rc = 0 then OnePiece length expired writes
    else 0 < rc → rc < length → expired.head? = some true
  | _, _ => True

/-- What the loop of `sendPacket` does in a round: it ends, or it makes a call, and goes
on behind what the call has accepted unless it has failed. -/
theorem sendLoop_cases {length sent sent' : ℕ} {expired : List Bool} {s s' : Session ε}
    (h : sendLoop length expired sent s = some (sent', s')) :
    (sent' = sent ∧ s'.offered = s.offered ∧ (sent < length → expired.head? = some true)) ∨
      ∃ later rc writes, sent < length ∧ expired = false :: later ∧ s.writes = rc :: writes ∧
        let bytes := readBlock s.client.buf sent length
        (rc < 0 ∧ sent' = sent ∧ s'.offered = s.offered ++ [(bytes, rc)]) ∨
          (0 ≤ rc ∧ sendLoop length later (sent + rc.toNat)
            { s with writes, offered := s.offered ++ [(bytes, rc)] } = some (sent', s')) := by
  rw [sendLoop.eq_def] at h
  dsimp only at h
  split_ifs at h with hrun
  · rcases expired with _ | ⟨_ | _, later⟩
    · cases h
    · obtain ⟨⟨rc, s1⟩, hwrite, h⟩ := Option.bind_eq_some_iff.mp h
      rcases hwrites : s.writes with _ | ⟨rc', writes⟩
      · rw [mqttwrite, hwrites] at hwrite
        cases hwrite
      · rw [mqttwrite, hwrites] at hwrite
        cases hwrite
        refine Or.inr ⟨later, rc, writes, hrun, rfl, rfl, ?_⟩
        dsimp only at h
        split_ifs at h with hfailed
        · cases h
          exact Or.inl ⟨hfailed, rfl, rfl⟩
        · exact Or.inr ⟨Int.not_lt.mp hfailed, h⟩
    · cases h
      exact Or.inl ⟨rfl, rfl, fun _ => rfl⟩
  · cases h
    exact Or.inl ⟨rfl, rfl, fun hlt => absurd hlt hrun⟩

/-- **Run lemma.** What the transport accepts during the loop is what lies in the buffer
between the numbers of bytes sent before and after it. Every call offers as many bytes
as the packet has, from its start on, and the last call that accepts anything ends
within these bytes. -/
theorem sendLoop_calls {length sent sent' : ℕ} {expired : List Bool} {s s' : Session ε}
    (hrc : ∀ rc ∈ s.writes, rc ≤ length)
    (h : sendLoop length expired sent s = some (sent', s')) :
    ∃ offered, s'.offered = s.offered ++ offered ∧ ∃ n, sent' = sent + n ∧
      accepted (writeCalls sent offered) = readBlock s.client.buf sent n ∧
      (∀ call ∈ writeCalls sent offered,
        call.bytes = readBlock s.client.buf call.start length) ∧
      (sent' ≤ sent ∨ ∃ call ∈ writeCalls sent offered, sent' ≤ call.start + length) := by
  induction expired generalizing sent s with
  | nil =>
    rcases sendLoop_cases h with ⟨hsent, hoffered, -⟩ | ⟨later, rc, writes, -, heq, -⟩
    · exact ⟨[], by rw [hoffered, List.append_nil], 0, hsent, rfl, fun call hcall => (nomatch hcall),
        Or.inl (Nat.le_of_eq hsent)⟩
    · cases heq
  | cons result expired ih =>
    rcases sendLoop_cases h with ⟨hsent, hoffered, -⟩ | ⟨later, rc, writes, hrun, heq, hwrites, hcall⟩
    · exact ⟨[], by rw [hoffered, List.append_nil], 0, hsent, rfl, fun call hcall => (nomatch hcall),
        Or.inl (Nat.le_of_eq hsent)⟩
    · obtain ⟨-, rfl⟩ := List.cons.inj heq
      rw [hwrites] at hrc
      have hle := hrc rc List.mem_cons_self
      rcases hcall with ⟨hneg, hsent, hoffered⟩ | ⟨hnonneg, hloop⟩
      · refine ⟨_, hoffered, 0, hsent, ?_, ?_, Or.inl (Nat.le_of_eq hsent)⟩
        · have hzero : rc.toNat = 0 := Int.toNat_of_nonpos (Int.le_of_lt hneg)
          simp [accepted, writeCalls, hzero, readBlock]
        · intro call hcall
          rw [List.mem_singleton.mp hcall]
      · obtain ⟨offered, hoffered, n, hsent, haccepted, hbytes, hlast⟩ :=
          ih (fun rc' hmem => hrc rc' (List.mem_cons_of_mem _ hmem)) hloop
        refine ⟨(readBlock s.client.buf sent length, rc) :: offered, ?_, rc.toNat + n, ?_, ?_, ?_, ?_⟩
        · exact hoffered.trans (List.append_assoc _ _ _)
        · omega
        · have htaken : (readBlock s.client.buf sent length).take rc.toNat =
              readBlock s.client.buf sent rc.toNat := take_readBlock (by omega)
          rw [readBlock_add, ← haccepted, ← htaken]
          rfl
        · intro call hcall
          rcases List.mem_cons.mp hcall with rfl | hlater
          · rfl
          · exact hbytes call hlater
        · rcases hlast with hle' | ⟨call, hcall, hle'⟩
          · exact Or.inr ⟨_, List.mem_cons_self, by dsimp only; omega⟩
          · exact Or.inr ⟨call, List.mem_cons_of_mem _ hcall, hle'⟩

/-- An empty packet is sent in one piece. -/
theorem onePiece_zero (expired : List Bool) (writes : List ℤ) : OnePiece 0 expired writes := by
  induction expired generalizing writes with
  | nil => trivial
  | cons result expired ih =>
    rcases result with _ | _
    · rcases writes with _ | ⟨rc, writes⟩
      · trivial
      · rw [OnePiece]
        split_ifs
        · exact ih writes
        · intro hpos hneg
          omega
    · trivial

/-- A loop that is not at its end makes a call from where it begins. -/
theorem sendLoop_first {length sent sent' : ℕ} {later : List Bool} {s s' : Session ε}
    (hrc : ∀ rc ∈ s.writes, rc ≤ length) (hrun : sent < length)
    (h : sendLoop length (false :: later) sent s = some (sent', s')) :
    ∃ rc offered, s'.offered = s.offered ++ (readBlock s.client.buf sent length, rc) :: offered := by
  rcases sendLoop_cases h with ⟨-, -, hend⟩ | ⟨later', rc, writes, -, heq, hwrites, hcall⟩
  · cases hend hrun
  · rw [hwrites] at hrc
    rcases hcall with ⟨-, -, hone⟩ | ⟨-, hloop⟩
    · exact ⟨rc, [], hone⟩
    · obtain ⟨offered, hoffered, -⟩ :=
        sendLoop_calls (fun rc' hmem => hrc rc' (List.mem_cons_of_mem _ hmem)) hloop
      exact ⟨rc, offered, hoffered.trans (List.append_assoc _ _ _)⟩

/-- Behind the first piece no call is made exactly if the packet is complete or the timer is
expired. Every call there starts behind the first piece. -/
theorem sendLoop_behind_iff {length sent sent' : ℕ} {expired : List Bool} {s s' : Session ε}
    {offered : List (List UInt8 × ℤ)} (hrc : ∀ rc ∈ s.writes, rc ≤ length) (hpos : 0 < sent)
    (h : sendLoop length expired sent s = some (sent', s'))
    (hoffered : s'.offered = s.offered ++ offered) :
    (∀ call ∈ writeCalls sent offered, call.start = 0) ↔
      (sent < length → expired.head? = some true) := by
  rcases sendLoop_cases h with ⟨-, hnone, hend⟩ | ⟨later, -, -, hrun, rfl, -⟩
  · obtain rfl : offered = [] := List.self_eq_append_right.mp (hnone.symm.trans hoffered)
    exact iff_of_true (fun call hcall => nomatch hcall) hend
  · obtain ⟨rc, others, hnext⟩ := sendLoop_first hrc hrun h
    obtain rfl := List.append_cancel_left (hnext.symm.trans hoffered)
    refine iff_of_false (fun hstart => ?_) fun hend => ?_
    · have hzero := hstart _ List.mem_cons_self
      dsimp only at hzero
      omega
    · cases hend hrun

/-- A loop that begins at the start of a packet makes no call from anywhere else exactly
if the packet is sent in one piece. -/
theorem onePiece_iff {length sent' : ℕ} {expired : List Bool} {s s' : Session ε}
    {offered : List (List UInt8 × ℤ)} (hrc : ∀ rc ∈ s.writes, rc ≤ length)
    (h : sendLoop length expired 0 s = some (sent', s'))
    (hoffered : s'.offered = s.offered ++ offered) :
    (∀ call ∈ writeCalls 0 offered, call.start = 0) ↔ OnePiece length expired s.writes := by
  induction expired generalizing s offered with
  | nil =>
    rcases sendLoop_cases h with ⟨-, hnone, -⟩ | ⟨later, rc, writes, -, heq, -⟩
    · obtain rfl : offered = [] := List.self_eq_append_right.mp (hnone.symm.trans hoffered)
      exact iff_of_true (fun call hcall => nomatch hcall) trivial
    · cases heq
  | cons result expired ih =>
    rcases sendLoop_cases h with ⟨-, hnone, hend⟩ | ⟨later, rc, writes, hrun, heq, hwrites, hcall⟩
    · obtain rfl : offered = [] := List.self_eq_append_right.mp (hnone.symm.trans hoffered)
      refine iff_of_true (fun call hcall => nomatch hcall) ?_
      rcases Nat.eq_zero_or_pos length with rfl | hpos
      · exact onePiece_zero _ _
      · obtain rfl : result = true := Option.some.inj (hend hpos)
        trivial
    · obtain ⟨rfl, rfl⟩ := List.cons.inj heq
      rw [hwrites] at hrc ⊢
      have hle := hrc rc List.mem_cons_self
      have hrc' : ∀ rc' ∈ writes, rc' ≤ length := fun rc' hmem =>
        hrc rc' (List.mem_cons_of_mem _ hmem)
      rw [OnePiece]
      rcases hcall with ⟨hneg, -, hone⟩ | ⟨hnonneg, hloop⟩
      · -- the call fails
        obtain rfl := List.append_cancel_left (hone.symm.trans hoffered)
        rw [if_neg (by omega)]
        refine iff_of_true (fun call hcall => ?_) (fun hpos => by omega)
        rw [List.mem_singleton.mp hcall]
      · obtain ⟨later', hlater', -⟩ := sendLoop_calls hrc' hloop
        have hjoined := hlater'.trans (List.append_assoc _ _ _)
        obtain rfl := List.append_cancel_left (hjoined.symm.trans hoffered)
        rw [List.cons_append, List.nil_append, writeCalls, List.forall_mem_cons,
          and_iff_right rfl]
        split_ifs with hzero
        · -- nothing is accepted, and the next call is like this one
          subst hzero
          exact ih hrc' hloop hlater'
        · -- the next call starts behind the bytes that have been accepted
          rw [sendLoop_behind_iff hrc' (by omega) hloop hlater']
          constructor
          · exact fun hend _ hlt => hend (by omega)
          · exact fun hend hlt => hend (by omega) (by omega)

/-- Neither binding reports more than the transport has accepted. -/
theorem write_le {write : ℤ → ℤ} (hwrite : write = lwipWrite ∨ write = tlsWrite) {length : ℕ}
    {result : ℤ} (h : result ≤ length) : write result ≤ length := by
  rcases hwrite with rfl | rfl
  · exact h
  · unfold tlsWrite
    split_ifs
    · exact h
    · omega

/-- **Exact sending.** For every packet and every sequence of results of the transport,
none of which is more than what was asked for, handed on by either binding, and every
sequence of results of the timer, a call of `sendPacket` is exact if and only if the
packet is sent in one piece. A call that has not returned makes the same calls of
`mqttwrite` as one whose timer expires then. -/
theorem sendPacket_sendsExactly_iff {write : ℤ → ℤ} (hwrite : write = lwipWrite ∨ write = tlsWrite)
    {length : ℕ} {results : List ℤ} (hresults : ∀ result ∈ results, result ≤ length)
    {s s' : Session ε} (hwrites : s.writes = results.map write) {rc : ℤ}
    (h : sendPacket length s = some (rc, s')) :
    SendsExactly length s s' rc ↔ OnePiece length s.expired s.writes := by
  obtain ⟨⟨sent, s1⟩, hloop, heq⟩ := Option.bind_eq_some_iff.mp h
  obtain ⟨hrc, rfl⟩ := Prod.mk.inj (Option.some.inj heq)
  have hle : ∀ rc ∈ s.writes, rc ≤ length := by
    rw [hwrites]
    intro rc hmem
    obtain ⟨result, hresult, rfl⟩ := List.mem_map.mp hmem
    exact write_le hwrite (hresults result hresult)
  obtain ⟨offered, hoffered, n, hsent, haccepted, hbytes, hlast⟩ := sendLoop_calls hle hloop
  have hcalls : s.callsSince s1 = writeCalls 0 offered := by
    rw [Session.callsSince, hoffered, List.drop_left]
  have hlength : (accepted (writeCalls 0 offered)).length = n := by
    rw [haccepted, readBlock_length]
  rw [← onePiece_iff hle hloop hoffered]
  constructor
  · intro hexact call hcall
    have hinside := (hexact.inside call (hcalls ▸ hcall)).2
    rw [hbytes call hcall, readBlock_length] at hinside
    omega
  · intro hstart
    have hfits : n ≤ length := by
      rcases hlast with hnone | ⟨call, hcall, hend⟩
      · omega
      · have := hstart call hcall
        omega
    refine ⟨?_, ?_, ?_⟩
    · rw [hcalls, haccepted, ← take_readBlock hfits]
      exact List.take_prefix _ _
    · rw [hcalls]
      intro call hcall
      rw [hbytes call hcall, readBlock_length, hstart call hcall, Nat.zero_add]
      exact ⟨rfl, Nat.le_refl _⟩
    · rw [hcalls, ← hrc]
      constructor
      · intro hsuccess
        split_ifs at hsuccess with hall
        · rw [haccepted]
          congr 1
          omega
        · cases hsuccess
      · intro hall
        rw [hall, readBlock_length] at hlength
        rw [if_pos (by omega)]

/-- A client that is about to send a PINGREQ packet, with results of the transport and of
the timer. -/
def pingSession (writes : List ℤ) (expired : List Bool) : Session TlsFailure where
  client :=
    { bufSize := 2, buf := (mqttSerializePingreq (fun _ => 0) 2).2, readbuf := fun _ => 0,
      keepAliveInterval := 10, pingOutstanding := false, messageHandlers := [],
      defaultMessageHandler := none }
  feed := []
  writes := writes
  expired := expired
  offered := []

/-- A write that accepts nothing does no harm. -/
theorem sendPacket_sendsExactly_iff_pingreq :
    ∃ s', sendPacket 2 (pingSession [0, 2] [false, false]) = some (mqttSuccess, s') ∧
      SendsExactly 2 (pingSession [0, 2] [false, false]) s' mqttSuccess := by
  have hresults : ∀ result ∈ [0, 2], result ≤ ((2 : ℕ) : ℤ) := by decide
  refine ⟨_, rfl, ?_⟩
  apply (sendPacket_sendsExactly_iff (Or.inr rfl) hresults rfl rfl).mpr
  intro hpos hlt
  exact absurd hlt (by decide)

/-- After a write that accepts the first byte of a PINGREQ packet only, `sendPacket` offers
its second byte and the byte behind it. -/
theorem sendPacket_not_sendsExactly : ¬ ∀ rc s',
    sendPacket 2 (pingSession [1, 1] [false, false]) = some (rc, s') →
      SendsExactly 2 (pingSession [1, 1] [false, false]) s' rc := by
  intro hall
  have hsent : (sendPacket 2 (pingSession [1, 1] [false, false])).map
      (fun r => (pingSession [1, 1] [false, false]).callsSince r.2) =
        some [⟨0, [0xC0, 0], 1⟩, ⟨1, [0, 0], 1⟩] := by
    decide +kernel
  obtain ⟨⟨rc, s'⟩, hsend, hcalls⟩ := Option.map_eq_some_iff.mp hsent
  have hsecond : (⟨1, [0, 0], 1⟩ : WriteCall) ∈
      (pingSession [1, 1] [false, false]).callsSince s' := by
    rw [hcalls]
    exact List.mem_cons_of_mem _ List.mem_cons_self
  have hinside := ((hall rc s' hsend).inside _ hsecond).2
  exact absurd hinside (by decide)

end WifiMcu.Mqtt
