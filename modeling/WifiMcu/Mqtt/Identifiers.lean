import Mathlib.Data.List.Range
import WifiMcu.Mqtt.Answered
import WifiMcu.Mqtt.Calls

/-!
# Packet identifiers

Every request that needs an answer carries a packet identifier. They are issued in turn,
whatever becomes of the requests, so that requests close to each other differ in theirs.
-/

namespace WifiMcu.Mqtt

open Memory

variable {ε : Type}

/-- The packet identifier that a request carries. -/
def Request.packetid : Request → Option ℕ
  | connect _ => none
  | publish _ qos _ packetid _ _ => if qos > 0 then some packetid else none
  | subscribe _ packetid _ => some packetid
  | unsubscribe _ packetid _ => some packetid

/-- The request that a call serializes. -/
def ClientCall.request (c : MqttClient ε) : ClientCall → Option Request
  | connect options => if c.isconnected then none else some (.connect (options.getD .initializer))
  | subscribe topicFilter qos _ =>
    if c.isconnected then
      some (.subscribe 0 (getNextPacketId c).nextPacketid [(⟨some topicFilter, none⟩, qos)])
    else none
  | unsubscribe topicFilter =>
    if c.isconnected then
      some (.unsubscribe 0 (getNextPacketId c).nextPacketid [⟨some topicFilter, none⟩])
    else none
  | publish topicName message =>
    if c.isconnected then
      some (.publish 0 message.qos message.retained
        (if message.qos = 0 then message.id else (getNextPacketId c).nextPacketid)
        ⟨some topicName, none⟩ message.payload)
    else none
  | _ => none

/-- What a serializer has left is offered first, if there is time for it. -/
theorem sendSerialized_begins {r : Request} {s s' : Session ε} {rc n : ℤ}
    (h : sendSerialized (r.serialize s.client.buf s.client.bufSize) s = some (rc, s'))
    (hwritable : r.Writable s.client.bufSize) (hrunning : s.expired.head? = some false)
    (hwrites : s.writes.head? = some n) :
    s.offered ++ [((r.packet hwritable.small).bytes, n)] <+: s'.offered := by
  let p := r.packet hwritable.small
  have hpos : 0 < p.bytes.length := by
    rw [p.length_bytes]
    omega
  have hholds : readBlock (writeBlock s.client.buf 0 p.bytes) 0 p.bytes.length = p.bytes :=
    holds_writeBlock s.client.buf 0 p.bytes
  have hserialize : r.serialize s.client.buf s.client.bufSize =
      ((p.bytes.length : ℤ), writeBlock s.client.buf 0 p.bytes) := hwritable.serialize _
  rw [sendSerialized, hserialize] at h
  dsimp only at h
  rw [if_neg (by omega), Int.toNat_natCast] at h
  obtain ⟨⟨sent, t⟩, hloop, heq⟩ := Option.bind_eq_some_iff.mp h
  obtain ⟨-, rfl⟩ := Prod.mk.inj (Option.some.inj heq)
  dsimp only at hloop
  rw [eq_cons_tail hrunning, sendLoop.eq_def] at hloop
  dsimp only at hloop
  rw [if_pos hpos, mqttwrite] at hloop
  dsimp only at hloop
  rw [eq_cons_tail hwrites, Option.bind_eq_bind, Option.bind_some] at hloop
  dsimp only at hloop
  rw [hholds] at hloop
  split_ifs at hloop
  · cases hloop
    exact List.prefix_rfl
  · exact (sendLoop_grows hloop).offered

/-- A request and its answer begin with the request. -/
theorem exchange_begins {read : ℕ → Feed ε → ReadResult ε} {call : Handlers ε}
    (hcall : call.Modest) {r : Request} {packetType : ℕ} {expired : List Bool} {s s' : Session ε}
    {answered : Bool} {n : ℤ}
    (h : exchange read call (r.serialize s.client.buf s.client.bufSize) packetType expired s =
      some (answered, s')) (hwritable : r.Writable s.client.bufSize)
    (hrunning : s.expired.head? = some false) (hwrites : s.writes.head? = some n) :
    s.offered ++ [((r.packet hwritable.small).bytes, n)] <+: s'.offered := by
  obtain ⟨⟨rc, t⟩, hsend, h⟩ := Option.bind_eq_some_iff.mp h
  have hfirst := sendSerialized_begins hsend hwritable hrunning hwrites
  dsimp only at h
  split_ifs at h
  · cases h
    exact hfirst
  · obtain ⟨⟨rc', u⟩, hwait, heq⟩ := Option.bind_eq_some_iff.mp h
    cases heq
    exact hfirst.trans (waitfor_grows hcall hwait).offered

/-- The calls that ask something of the server. -/
def ClientCall.IsRequest : ClientCall → Prop
  | disconnect => False
  | run _ => False
  | _ => True

/-- A call without a request fails, and leaves the client and its environment alone. The
first thing that a call with a request offers to the transport is the packet, if it fits
and there is time for it. -/
def OffersFirst (c c' : MqttClient ε) (rc : ℤ) : Option Request → Prop
  | none => rc = mqttFailure ∧ c' = c
  | some r => ∀ (hwritable : r.Writable c.session.client.bufSize) (n : ℤ),
    c.session.expired.head? = some false → c.session.writes.head? = some n →
      c.session.offered ++ [((r.packet hwritable.small).bytes, n)] <+: c'.session.offered

/-- **Requests.** Whatever happens to a call that serializes a request: if the request fits
and there is time for it, its packet is the first thing that the call offers to the
transport. A call that does not serialize its request fails, and leaves the client and its
environment alone. -/
theorem perform_request {read : ℕ → Feed ε → ReadResult ε} {call : Handlers ε}
    (hcall : call.Modest) {timeouts : List Bool} {clientCall : ClientCall} {rc : ℤ}
    {c c' : MqttClient ε} (hasks : clientCall.IsRequest)
    (h : clientCall.perform read call timeouts c = some (rc, c')) :
    OffersFirst c c' rc (clientCall.request c) := by
  cases clientCall with
  | connect options =>
    rw [ClientCall.request]
    rcases mqttConnect_cases h with
      ⟨hconnected, rfl, rfl⟩ | ⟨hconnected, answered, s, hexchange, rfl⟩
    · rw [if_pos hconnected]
      exact ⟨rfl, rfl⟩
    · rw [hconnected, if_neg (by decide)]
      intro hwritable n
      exact exchange_begins hcall hexchange ⟨hwritable.sound, hwritable.version, hwritable.small,
        hwritable.fits⟩
  | subscribe topicFilter qos messageHandler =>
    rw [ClientCall.request]
    rcases mqttSubscribe_cases h with
      ⟨hconnected, rfl, rfl⟩ | ⟨hconnected, answered, s, table, hexchange, rfl, -⟩
    · rw [hconnected, if_neg (by decide)]
      exact ⟨rfl, rfl⟩
    · rw [if_pos hconnected]
      intro hwritable n
      exact exchange_begins hcall hexchange hwritable
  | unsubscribe topicFilter =>
    rw [ClientCall.request]
    rcases mqttUnsubscribe_cases h with
      ⟨hconnected, rfl, rfl⟩ | ⟨hconnected, answered, s, hexchange, rfl⟩
    · rw [hconnected, if_neg (by decide)]
      exact ⟨rfl, rfl⟩
    · rw [if_pos hconnected]
      intro hwritable n
      exact exchange_begins hcall hexchange hwritable
  | publish topicName message =>
    obtain ⟨⟨rc', message', d⟩, hpublish, heq⟩ := Option.map_eq_some_iff.mp h
    obtain ⟨rfl, rfl⟩ := Prod.mk.inj heq
    rw [ClientCall.request]
    rcases mqttPublish_cases hpublish with ⟨hconnected, rfl, rfl⟩ |
      ⟨hconnected, hqos, s, hsend, rfl⟩ |
      ⟨hconnected, hqos, packetType, answered, s, hexchange, rfl⟩
    · rw [hconnected, if_neg (by decide)]
      exact ⟨rfl, rfl⟩
    · rw [if_pos hconnected, if_pos hqos]
      intro hwritable n
      exact sendSerialized_begins hsend hwritable
    · rw [if_pos hconnected, if_neg hqos]
      intro hwritable n
      exact exchange_begins hcall hexchange hwritable
  | disconnect => exact hasks.elim
  | run rounds => exact hasks.elim

/-- The first thing that is offered for a subscription. -/
theorem perform_request_subscribe :
    ∃ c', ClientCall.perform lwip.read (journal fun _ _ => []) [false]
        ⟨⟨idleClient, [.data 0x90 [3, 0, 2, 1]], [8], [false], []⟩, 1, true⟩
        (.subscribe [0x61] 1 (some 7)) = some (0, c') ∧
      [([0x82, 6, 0, 2, 0, 1, 0x61, 1], 8)] <+: c'.session.offered := by
  let c : MqttClient LwipFailure :=
    ⟨⟨idleClient, [.data 0x90 [3, 0, 2, 1]], [8], [false], []⟩, 1, true⟩
  have hreturns : ((ClientCall.perform lwip.read (journal fun _ _ => []) [false] c
      (.subscribe [0x61] 1 (some 7))).map Prod.fst) = some 0 := by decide +kernel
  obtain ⟨⟨rc, c'⟩, hperform, rfl⟩ := Option.map_eq_some_iff.mp hreturns
  have hwritable : (Request.subscribe 0 2 [(⟨some [0x61], none⟩, 1)]).Writable 32 :=
    ⟨by decide, trivial, by decide, by decide⟩
  have hbytes : ((Request.subscribe 0 2 [(⟨some [0x61], none⟩, 1)]).packet
      hwritable.small).bytes = [0x82, 6, 0, 2, 0, 1, 0x61, 1] := by
    show 0x82 :: Base128.encode 6 ++ [0, 2, 0, 1, 0x61, 1] = _
    rw [Base128.encode_of_lt (by decide)]
    rfl
  have hasks : (ClientCall.subscribe [0x61] 1 (some 7)).IsRequest := trivial
  have hfirst : [] ++ [((Request.packet (.subscribe 0 2 [(⟨some [0x61], none⟩, 1)])
      hwritable.small).bytes, 8)] <+: c'.session.offered :=
    perform_request (modest_journal _) hasks hperform hwritable 8 rfl rfl
  rw [hbytes] at hfirst
  exact ⟨c', hperform, hfirst⟩

end WifiMcu.Mqtt
