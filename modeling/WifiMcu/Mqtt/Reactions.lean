import WifiMcu.Mqtt.Answers
import WifiMcu.Mqtt.Successive

/-!
# Reactions

What a client should do about the packets that arrive: it gives every message to its
handlers and acknowledges it then, it answers every PUBREC by a PUBREL, and it sends a
PINGREQ when it is due and none is outstanding. The handlers keep a journal, so that
their calls and the packets that are sent can be told in one order.
-/

namespace WifiMcu.Mqtt

open Delivery Memory

variable {ε : Type}

/-- A message that the other side publishes. -/
structure Publication where
  dup : Bool
  qos : ℕ
  retained : Bool
  packetid : ℕ
  topicName : List UInt8
  payload : List UInt8
  qos_le : qos ≤ 2
  packetid_lt : packetid < 65536
  topic_short : topicName.length < 65536
  small : (publishBody qos packetid (.ofLenString topicName) payload).length < 128 ^ 4

/-- What a handler learns about a message. -/
structure Delivered where
  dup : ℕ
  qos : ℕ
  retained : ℕ
  id : Option ℕ
  topicName : List UInt8
  payload : List UInt8
  deriving DecidableEq

/-- What a handler learns about a message in the receive buffer. -/
def Message.delivered (m : Message) (topicName : List UInt8) (readbuf : ℕ → UInt8) : Delivered :=
  { dup := m.dup, qos := m.qos, retained := m.retained, id := m.id, topicName
    payload := readBlock readbuf m.payload m.payloadlen.toNat }

/-- What a handler should learn about a message. -/
def Publication.delivered (m : Publication) : Delivered :=
  { dup := m.dup.toNat, qos := m.qos, retained := m.retained.toNat
    id := if m.qos > 0 then some m.packetid else none
    topicName := m.topicName, payload := m.payload }

/-- Handlers that keep a journal of what they learn, with an entry of any form for every
call, in the order of the packets that are offered to the network. -/
def journal (log : ℕ → Delivered → List (List UInt8 × ℤ)) : Handlers ε :=
  fun fp topicName message s =>
    let entries := log fp (message.delivered topicName s.client.readbuf)
    some { s with offered := s.offered ++ entries }

/-- The length of an acknowledgement can be written. -/
theorem small_ack (packettype dup packetid : ℕ) :
    (Reply.ack packettype dup packetid).body.length < 128 ^ 4 :=
  show 2 < 128 ^ 4 by decide

/-- The length of a packet without fields can be written. -/
theorem small_zero (packettype : ℕ) : (Reply.zero packettype).body.length < 128 ^ 4 :=
  show 0 < 128 ^ 4 by decide

/-- A packet that the other side sends to the client. -/
inductive Incoming
  | publish (m : Publication)
  | pubrec (packetid : ℕ) (packetid_lt : packetid < 65536)
  | pingresp
  | other (p : Packet)
      (type_ne : p.type ≠ Mqtt.publish ∧ p.type ≠ Mqtt.pubrec ∧ p.type ≠ Mqtt.pingresp)

namespace Incoming

/-- The packet as it is sent. -/
def packet : Incoming → Packet
  | publish m =>
    (Request.publish m.dup.toNat m.qos m.retained.toNat m.packetid (.ofLenString m.topicName)
      m.payload).packet m.small
  | pubrec packetid _ => (Reply.ack Mqtt.pubrec 0 packetid).packet (small_ack _ _ _)
  | pingresp => (Reply.zero Mqtt.pingresp).packet (small_zero _)
  | other p _ => p

/-- The acknowledgements that a packet asks for. There is none for a PUBREL. -/
def acks : Incoming → List Packet
  | publish m =>
    if m.qos = 1 then [(Reply.ack puback 0 m.packetid).packet (small_ack _ _ _)]
    else if m.qos = 2 then [(Reply.ack Mqtt.pubrec 0 m.packetid).packet (small_ack _ _ _)]
    else []
  | pubrec packetid _ => [(Reply.ack pubrel 0 packetid).packet (small_ack _ _ _)]
  | _ => []

end Incoming

/-- The handler at an index of a table, if there is one that a topic name is for. -/
def receiverAt (handlers : List MessageHandler) (topicName : List UInt8) (i : ℕ) : Option ℕ :=
  match handlers[i]? with
  | some { topicFilter := some topicFilter, fp := some fp } =>
    if topicName = topicFilter ∨ isTopicMatched topicFilter topicName then some fp else none
  | _ => none

/-- The handlers of a table that a topic name is for, in the order of the table. -/
def tableReceivers (handlers : List MessageHandler) (topicName : List UInt8) : List ℕ :=
  (List.range maxMessageHandlers).filterMap (receiverAt handlers topicName)

/-- The handlers that a message with a topic name is for: those of the table, or else the
default handler. -/
def Client.receivers (c : Client) (topicName : List UInt8) : List ℕ :=
  let receivers := tableReceivers c.messageHandlers topicName
  if receivers = [] then c.defaultMessageHandler.toList else receivers

/-- What the client does about a packet: the calls and the packets in the order in which
they end up in the journal, what it takes from the timers and from the transport, and
whether a PINGREQ is outstanding then. -/
structure Reaction where
  entries : List (List UInt8 × ℤ)
  expired : List Bool
  writes : List ℤ
  outstanding : Bool

/-- A packet that the transport accepts at once. -/
def accepts (p : Packet) : List UInt8 × ℤ := (p.bytes, p.bytes.length)

/-- The packet PINGREQ. -/
def pingreqPacket : Packet := (Reply.zero pingreq).packet (small_zero _)

/-- The entries for calls of some handlers one after the other. -/
def callEntries (log : ℕ → Delivered → List (List UInt8 × ℤ)) (receivers : List ℕ)
    (delivered : Delivered) : List (List UInt8 × ℤ) :=
  receivers.flatMap fun fp => log fp delivered

/-- The entries that the handlers of a packet make. -/
def Incoming.deliveries (log : ℕ → Delivered → List (List UInt8 × ℤ)) (c : Client) :
    Incoming → List (List UInt8 × ℤ)
  | publish m => callEntries log (c.receivers m.topicName) m.delivered
  | _ => []

/-- Whether a PINGREQ is outstanding after a packet. -/
def Incoming.outstanding (before : Bool) : Incoming → Bool
  | pingresp => false
  | _ => before

/-- The PINGREQ that is sent if it is due and none is outstanding. -/
def pings (c : Client) (outstanding due : Bool) : List Packet :=
  if c.keepAliveInterval ≠ 0 ∧ due = true ∧ outstanding = false then [pingreqPacket] else []

/-- What `keepalive` takes from the timers. -/
def keepaliveTimers (c : Client) (outstanding due : Bool) : List Bool :=
  if c.keepAliveInterval = 0 then [] else due :: (pings c outstanding due).map fun _ => false

/-- What the transport answers for packets that it accepts at once. -/
def acceptedLengths (ps : List Packet) : List ℤ := ps.map fun p => (p.bytes.length : ℤ)

/-- The reaction to a packet, or to nothing, with the result of the timer for the next
PINGREQ. -/
def react (log : ℕ → Delivered → List (List UInt8 × ℤ)) (c : Client) (outstanding : Bool)
    (arrival : Option Incoming) (due : Bool) : Reaction :=
  let acks := arrival.elim [] Incoming.acks
  let outstanding := arrival.elim outstanding (Incoming.outstanding outstanding)
  let pings := pings c outstanding due
  { entries := arrival.elim [] (Incoming.deliveries log c) ++ acks.map accepts ++ pings.map accepts
    expired := acks.map (fun _ => false) ++ keepaliveTimers c outstanding due
    writes := acceptedLengths acks ++ acceptedLengths pings
    outstanding := outstanding || !pings.isEmpty }

/-- The reactions to what arrives one behind the other. -/
def reactAll (log : ℕ → Delivered → List (List UInt8 × ℤ)) (c : Client) :
    (outstanding : Bool) → List (Option Incoming × Bool) → Reaction
  | outstanding, [] => ⟨[], [], [], outstanding⟩
  | outstanding, (arrival, due) :: turns =>
    let r := react log c outstanding arrival due
    let r' := reactAll log c r.outstanding turns
    ⟨r.entries ++ r'.entries, r.expired ++ r'.expired, r.writes ++ r'.writes, r'.outstanding⟩

/-- What a call of `mqttread` for the first byte of a packet meets: a packet that one call of
`readPacket` can get, or a failure, as after a time without any packet. -/
def Arrives (B : Binding ε) (ev : Feed ε) : Option Incoming → Feed ε → Prop
  | some incoming, rest => 0 < headLength ev ∧ takesPacket B ev incoming.packet = some rest ∧
      ∃ more, content ev = incoming.packet.bytes ++ more
  | none, rest => ∃ e, next B.stops ev = some (.error e, rest)

/-- What successive calls meet. -/
def ArrivesAll (B : Binding ε) : Feed ε → List (Option Incoming × Bool) → Feed ε → Prop
  | ev, [], rest => ev = rest
  | ev, (arrival, _) :: turns, rest =>
    ∃ behind, Arrives B ev arrival behind ∧ ArrivesAll B behind turns rest

end WifiMcu.Mqtt
