import WifiMcu.Mqtt.Client

/-!
# Loss of the connection

`readPacket` reports a lost connection as -1, which `cycle` stores as 65535. That is
neither a packet type nor a failure, so that `MQTTYield` goes on as if nothing had
happened.
-/

namespace WifiMcu.Mqtt

open Delivery

variable {ε : Type}

/-- While the first byte of a packet is read, the network reports a failure that counts
as the loss of the connection. -/
def LosesConnection (B : Binding ε) (loss : ε → Prop) (s : Session ε) : Prop :=
  ∃ e rest, next B.stops s.feed = some (.error e, rest) ∧ loss e

/-- With the plain binding, every failure that makes `LwIP_read` return -1 is a loss. -/
def lwipLoses : Session LwipFailure → Prop := LosesConnection lwip fun _ => True

/-- With the TLS binding, every failure but a timeout is a loss. -/
def tlsLoses : Session TlsFailure → Prop := LosesConnection tls fun e => e ≠ .timeout

/-- A run of `MQTTYield` reports every loss: a cycle that loses the connection fails and
is the last one, and `MQTTYield` fails; it succeeds only if no cycle did so. -/
def ReportsLoss (loses : Session ε → Prop) (r : YieldResult ε) : Prop :=
  (∀ c ∈ r.cycles, loses c.1 →
    c.2 = some mqttFailure ∧ r.cycles.getLast? = some c ∧ r.rc = some mqttFailure) ∧
  (r.rc = some mqttSuccess → ∀ c ∈ r.cycles, ¬ loses c.1)

/-- A cycle that loses the connection returns 65535, if it returns. -/
theorem cycle_of_losesConnection {B : Binding ε} {loss : ε → Prop} {call : Handlers ε}
    {s s' : Session ε} {rc : ℤ} (hloses : LosesConnection B loss s)
    (h : cycle B.read call s = some (rc, s')) : rc = 65535 := by
  obtain ⟨e, rest, hnext, -⟩ := hloses
  rw [cycle, readPacket_error hnext] at h
  obtain ⟨t, -, heq⟩ := Option.bind_eq_some_iff.mp
    (show ((keepalive _).map Prod.snd).bind (fun t => some ((65535 : ℤ), t)) = some (rc, s') from h)
  exact (Prod.mk.inj (Option.some.inj heq)).1.symm

/-- **Step lemma.** A cycle of `MQTTYield` is the first one, or, if the timer is not
expired after the first one, a cycle of the run that goes on. -/
theorem mem_cycles {read : ℕ → Feed ε → ReadResult ε} {call : Handlers ε} {expired : List Bool}
    {s : Session ε} {c : Session ε × Option ℤ} (h : c ∈ (mqttYield read call expired s).cycles) :
    c = (s, (cycle read call s).map Prod.fst) ∨
      ∃ later s', expired = false :: later ∧ c ∈ (mqttYield read call later s').cycles := by
  rw [mqttYield.eq_def] at h
  dsimp only at h
  rcases hrun : cycle read call s with _ | ⟨rc, s'⟩
  · rw [hrun] at h
    exact Or.inl (List.mem_singleton.mp h)
  · rw [hrun] at h
    dsimp only at h
    split_ifs at h
    · exact Or.inl (List.mem_singleton.mp h)
    · rcases expired with _ | ⟨_ | _, later⟩
      · exact Or.inl (List.mem_singleton.mp h)
      · exact (List.mem_cons.mp h).imp_right fun hlater => ⟨later, s', rfl, hlater⟩
      · exact Or.inl (List.mem_singleton.mp h)

/-- **Run lemma.** What holds of a cycle in every state holds of all cycles of `MQTTYield`. -/
theorem mqttYield_cycles {read : ℕ → Feed ε → ReadResult ε} {call : Handlers ε}
    {P : Session ε × Option ℤ → Prop} (hcycle : ∀ s, P (s, (cycle read call s).map Prod.fst))
    (expired : List Bool) (s : Session ε) : ∀ c ∈ (mqttYield read call expired s).cycles, P c := by
  induction expired generalizing s with
  | nil =>
    intro c hc
    rcases mem_cycles hc with rfl | ⟨later, s', heq, -⟩
    · exact hcycle s
    · cases heq
  | cons result expired ih =>
    intro c hc
    rcases mem_cycles hc with rfl | ⟨later, s', heq, hlater⟩
    · exact hcycle s
    · obtain ⟨-, rfl⟩ := List.cons.inj heq
      exact ih s' c hlater

/-- A cycle that loses the connection never fails. -/
theorem mqttYield_hides {B : Binding ε} {loss : ε → Prop} (call : Handlers ε)
    (expired : List Bool) (s : Session ε) :
    ∀ c ∈ (mqttYield B.read call expired s).cycles, LosesConnection B loss c.1 →
      c.2 ≠ some mqttFailure := by
  refine mqttYield_cycles ?_ expired s
  intro s hloses hfails
  obtain ⟨⟨rc, s'⟩, hcycle, hrc⟩ := Option.map_eq_some_iff.mp hfails
  have := cycle_of_losesConnection hloses hcycle
  rw [mqttFailure] at hrc
  dsimp only at hrc
  omega

/-- A run of `MQTTYield` reports every loss exactly if there is none. -/
theorem reportsLoss_iff {B : Binding ε} {loss : ε → Prop} (call : Handlers ε)
    (expired : List Bool) (s : Session ε) :
    ReportsLoss (LosesConnection B loss) (mqttYield B.read call expired s) ↔
      ∀ c ∈ (mqttYield B.read call expired s).cycles, ¬ LosesConnection B loss c.1 := by
  constructor
  · rintro ⟨hfails, -⟩ c hc hloses
    exact mqttYield_hides call expired s c hc hloses (hfails c hc hloses).1
  · intro hnone
    exact ⟨fun c hc hloses => (hnone c hc hloses).elim, fun _ => hnone⟩

/-- **Loss of the connection.** With either binding, whatever the handlers of the
application do, a run of `MQTTYield` reports every loss of the connection if and only
if no cycle loses it. -/
theorem mqttYield_reportsLoss_iff (expired : List Bool) :
    (∀ (call : Handlers LwipFailure) (s : Session LwipFailure),
        ReportsLoss lwipLoses (mqttYield lwip.read call expired s) ↔
          ∀ c ∈ (mqttYield lwip.read call expired s).cycles, ¬ lwipLoses c.1) ∧
      ∀ (call : Handlers TlsFailure) (s : Session TlsFailure),
        ReportsLoss tlsLoses (mqttYield tls.read call expired s) ↔
          ∀ c ∈ (mqttYield tls.read call expired s).cycles, ¬ tlsLoses c.1 := by
  constructor
  · intro call s
    exact reportsLoss_iff call expired s
  · intro call s
    exact reportsLoss_iff call expired s

/-- A client without keep-alive and handlers, on a TLS connection that the peer closes. -/
def closingSession : Session TlsFailure where
  client :=
    { bufSize := 0, buf := fun _ => 0, readbuf := fun _ => 0, keepAliveInterval := 0,
      pingOutstanding := false, messageHandlers := [], defaultMessageHandler := none }
  feed := [.fail .peerCloseNotify]
  writes := []
  expired := []
  offered := []

/-- The peer closes the connection, and `MQTTYield` returns success after one cycle. -/
theorem mqttYield_not_reportsLoss :
    ¬ ReportsLoss tlsLoses (mqttYield tls.read (fun _ _ _ s => some s) [true] closingSession) := by
  rintro ⟨-, hsuccess⟩
  have hcycles : (mqttYield tls.read (fun _ _ _ s => some s) [true] closingSession).cycles =
      [(closingSession, some 65535)] := rfl
  have hrc : (mqttYield tls.read (fun _ _ _ s => some s) [true] closingSession).rc =
      some mqttSuccess := rfl
  refine hsuccess hrc (closingSession, some 65535) ?_ ⟨.peerCloseNotify, [], rfl, ?_⟩
  · rw [hcycles]
    exact List.mem_cons_self
  · intro heq
    cases heq

end WifiMcu.Mqtt
