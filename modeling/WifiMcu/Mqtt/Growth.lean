import WifiMcu.Mqtt.Requests
import WifiMcu.Mqtt.Serving

/-!
# What a cycle leaves alone

Whatever the network and the timers do, a cycle leaves the table of the handlers alone,
and what has been given to the transport stays given, if the handlers of the application
see to that as well.
-/

namespace WifiMcu.Mqtt

variable {ε : Type}

/-- The table stays as it is, and nothing is taken back from the transport. -/
structure Session.Grows (s s' : Session ε) : Prop where
  table : s'.client.messageHandlers = s.client.messageHandlers
  offered : s.offered <+: s'.offered

/-- Two parts one after the other. -/
theorem Session.Grows.trans {s t u : Session ε} (h : s.Grows t) (h' : t.Grows u) : s.Grows u :=
  ⟨h'.table.trans h.table, h.offered.trans h'.offered⟩

/-- Where the table and the journal are the same, nothing has happened to them. -/
theorem Session.Grows.of_eq {s s' : Session ε}
    (htable : s'.client.messageHandlers = s.client.messageHandlers)
    (hoffered : s'.offered = s.offered) : s.Grows s' :=
  ⟨htable, hoffered ▸ List.prefix_rfl⟩

/-- The handlers of the application leave the table alone, and take nothing back. -/
def Handlers.Modest (call : Handlers ε) : Prop :=
  ∀ fp topicName message s s', call fp topicName message s = some s' → s.Grows s'

/-- Handlers that keep a journal are modest. -/
theorem modest_journal (log : ℕ → Delivered → List (List UInt8 × ℤ)) :
    (journal log : Handlers ε).Modest := by
  intro fp topicName message s s' h
  obtain rfl := Option.some.inj h
  exact ⟨rfl, List.prefix_append _ _⟩

/-- The loop of `sendPacket` only adds to what has been offered. -/
theorem sendLoop_grows {length sent sent' : ℕ} {expired : List Bool} {s s' : Session ε}
    (h : sendLoop length expired sent s = some (sent', s')) : s.Grows s' := by
  induction expired generalizing sent s with
  | nil =>
    rw [sendLoop.eq_def] at h
    dsimp only at h
    split_ifs at h
    · cases h
      exact .of_eq rfl rfl
  | cons result expired ih =>
    rw [sendLoop.eq_def] at h
    dsimp only at h
    split_ifs at h
    · cases result with
      | true =>
        cases h
        exact .of_eq rfl rfl
      | false =>
        obtain ⟨⟨rc, t⟩, hwrite, h⟩ := Option.bind_eq_some_iff.mp h
        have hfirst : s.Grows t := by
          rw [mqttwrite] at hwrite
          rcases hwrites : s.writes with _ | ⟨rc', writes⟩
          · rw [hwrites] at hwrite
            cases hwrite
          · rw [hwrites] at hwrite
            cases hwrite
            exact ⟨rfl, List.prefix_append _ _⟩
        dsimp only at h
        split_ifs at h
        · cases h
          exact hfirst.trans (.of_eq rfl rfl)
        · exact hfirst.trans (ih h)
    · cases h
      exact .of_eq rfl rfl

/-- `sendPacket` only adds to what has been offered. -/
theorem sendPacket_grows {length : ℕ} {s s' : Session ε} {rc : ℤ}
    (h : sendPacket length s = some (rc, s')) : s.Grows s' := by
  obtain ⟨⟨sent, t⟩, hloop, heq⟩ := Option.bind_eq_some_iff.mp h
  obtain ⟨-, rfl⟩ := Prod.mk.inj (Option.some.inj heq)
  exact sendLoop_grows hloop

/-- What a serializer has left is sent, or nothing is. -/
theorem sendSerialized_grows {serialized : ℤ × (ℕ → UInt8)} {s s' : Session ε} {rc : ℤ}
    (h : sendSerialized serialized s = some (rc, s')) : s.Grows s' := by
  rw [sendSerialized] at h
  dsimp only at h
  split_ifs at h
  · cases h
    exact .of_eq rfl rfl
  · have hsent := sendPacket_grows h
    exact ⟨hsent.table, hsent.offered⟩

/-- Handlers are called one after the other. -/
theorem deliverLoop_grows {call : Handlers ε} (hcall : call.Modest) {topicName : List UInt8}
    {message : Message} {indices : List ℕ} {rc rc' : ℤ} {s s' : Session ε}
    (h : deliverLoop call topicName message indices rc s = some (rc', s')) : s.Grows s' := by
  induction indices generalizing rc s with
  | nil =>
    cases h
    exact .of_eq rfl rfl
  | cons i indices ih =>
    rw [deliverLoop_cons] at h
    cases hat : receiverAt s.client.messageHandlers topicName i with
    | none =>
      rw [hat] at h
      exact ih h
    | some fp =>
      rw [hat] at h
      obtain ⟨t, hfirst, hothers⟩ := Option.bind_eq_some_iff.mp h
      exact (hcall _ _ _ _ _ hfirst).trans (ih hothers)

/-- A message is given to handlers only. -/
theorem deliverMessage_grows {call : Handlers ε} (hcall : call.Modest) {topicName : List UInt8}
    {message : Message} {rc : ℤ} {s s' : Session ε}
    (h : deliverMessage call topicName message s = some (rc, s')) : s.Grows s' := by
  obtain ⟨⟨rc', t⟩, hloop, h⟩ := Option.bind_eq_some_iff.mp h
  have hfirst := deliverLoop_grows hcall hloop
  dsimp only at h
  cases hdefault : t.client.defaultMessageHandler with
  | none =>
    rw [hdefault] at h
    cases h
    exact hfirst
  | some fp =>
    rw [hdefault] at h
    dsimp only at h
    split_ifs at h
    · obtain ⟨u, hlast, heq⟩ := Option.bind_eq_some_iff.mp h
      cases heq
      exact hfirst.trans (hcall _ _ _ _ _ hlast)
    · cases h
      exact hfirst

/-- A PINGREQ is sent, or nothing is. -/
theorem keepalive_grows {s s' : Session ε} {rc : ℤ} (h : keepalive s = some (rc, s')) :
    s.Grows s' := by
  rw [keepalive] at h
  split_ifs at h
  · cases h
    exact .of_eq rfl rfl
  · obtain ⟨⟨expired, t⟩, htimer, h⟩ := Option.bind_eq_some_iff.mp h
    have hfirst : s.Grows t := by
      rw [timerIsExpired] at htimer
      rcases hexpired : s.expired with _ | ⟨result, later⟩
      · rw [hexpired] at htimer
        cases htimer
      · rw [hexpired] at htimer
        cases htimer
        exact .of_eq rfl rfl
    dsimp only at h
    split_ifs at h
    · obtain ⟨⟨rc', u⟩, hsend, h⟩ := Option.bind_eq_some_iff.mp h
      have hsent := sendPacket_grows hsend
      have hsecond : s.Grows u := hfirst.trans ⟨hsent.table, hsent.offered⟩
      dsimp only at h
      split_ifs at h
      · cases h
        exact hsecond.trans (.of_eq rfl rfl)
      · cases h
        exact hsecond
    · cases h
      exact hfirst.trans (.of_eq rfl rfl)
    · cases h
      exact hfirst

/-- What the case `PUBLISH` does. -/
theorem cyclePublish_grows {call : Handlers ε} (hcall : call.Modest) {s s' : Session ε} {rc : ℤ}
    {left : Bool} (h : cyclePublish call s = some (rc, left, s')) : s.Grows s' := by
  obtain ⟨⟨rc', data⟩, -, h⟩ := Option.bind_eq_some_iff.mp h
  dsimp only at h
  split_ifs at h
  · cases h
    exact .of_eq rfl rfl
  · obtain ⟨⟨topicName, message⟩, -, h⟩ := Option.bind_eq_some_iff.mp h
    obtain ⟨⟨rc'', t⟩, hdeliver, h⟩ := Option.bind_eq_some_iff.mp h
    have hfirst := deliverMessage_grows hcall hdeliver
    dsimp only at h
    split_ifs at h
    · cases h
      exact hfirst
    · obtain ⟨id, -, h⟩ := Option.bind_eq_some_iff.mp h
      obtain ⟨⟨rc3, u⟩, hack, h⟩ := Option.bind_eq_some_iff.mp h
      cases h
      exact hfirst.trans (sendSerialized_grows hack)
    · obtain ⟨id, -, h⟩ := Option.bind_eq_some_iff.mp h
      obtain ⟨⟨rc3, u⟩, hack, h⟩ := Option.bind_eq_some_iff.mp h
      cases h
      exact hfirst.trans (sendSerialized_grows hack)
    · obtain ⟨id, -, h⟩ := Option.bind_eq_some_iff.mp h
      cases h
      exact hfirst

/-- What the case `PUBREC` does. -/
theorem cyclePubrec_grows {s s' : Session ε} {rc : ℤ} {left : Bool}
    (h : cyclePubrec s = some (rc, left, s')) : s.Grows s' := by
  obtain ⟨⟨rc', data⟩, -, h⟩ := Option.bind_eq_some_iff.mp h
  dsimp only at h
  split_ifs at h
  · cases h
    exact .of_eq rfl rfl
  · obtain ⟨packetid, -, h⟩ := Option.bind_eq_some_iff.mp h
    obtain ⟨⟨rc'', t⟩, hack, h⟩ := Option.bind_eq_some_iff.mp h
    cases h
    exact sendSerialized_grows hack

/-- **Step lemma.** What a cycle does. -/
theorem cycle_grows {read : ℕ → Feed ε → ReadResult ε} {call : Handlers ε} (hcall : call.Modest)
    {s s' : Session ε} {rc : ℤ} (h : cycle read call s = some (rc, s')) : s.Grows s' := by
  obtain ⟨packetType, -, h⟩ := Option.bind_eq_some_iff.mp h
  obtain ⟨⟨rc', left, t⟩, hswitch, h⟩ := Option.bind_eq_some_iff.mp h
  have hfirst : s.Grows t := by
    rw [cycleSwitch] at hswitch
    split_ifs at hswitch
    · have hpublish := cyclePublish_grows hcall hswitch
      exact ⟨hpublish.table, hpublish.offered⟩
    · have hpubrec := cyclePubrec_grows hswitch
      exact ⟨hpubrec.table, hpubrec.offered⟩
    · cases hswitch
      exact .of_eq rfl rfl
    · cases hswitch
      exact .of_eq rfl rfl
  cases left with
  | true =>
    cases h
    exact hfirst
  | false =>
    obtain ⟨u, hkeepalive, heq⟩ := Option.bind_eq_some_iff.mp h
    obtain ⟨⟨rc'', u'⟩, hlast, rfl⟩ := Option.map_eq_some_iff.mp hkeepalive
    cases heq
    exact hfirst.trans (keepalive_grows hlast)

/-- What the cycles of `waitfor` do. -/
theorem waitfor_grows {read : ℕ → Feed ε → ReadResult ε} {call : Handlers ε}
    (hcall : call.Modest) {packetType : ℕ} {expired : List Bool} {rc rc' : ℤ} {s s' : Session ε}
    (h : waitfor read call packetType expired rc s = some (rc', s')) : s.Grows s' := by
  induction expired generalizing rc s with
  | nil => cases h
  | cons result expired ih =>
    cases result with
    | true =>
      cases h
      exact .of_eq rfl rfl
    | false =>
      obtain ⟨⟨rc'', t⟩, hcycle, h⟩ := Option.bind_eq_some_iff.mp h
      have hfirst := cycle_grows hcall hcycle
      dsimp only at h
      split_ifs at h
      · cases h
        exact hfirst
      · exact hfirst.trans (ih h)

end WifiMcu.Mqtt
