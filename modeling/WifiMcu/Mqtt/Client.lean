import WifiMcu.Mqtt.Packet

/-!
# The client

One cycle of the client reads a packet, delivers it or answers it, and keeps the
connection alive. The network, the timers and the message handlers of the
application belong to the environment: the results of the calls still to come are
part of the state, and a handler may do anything to it. What has no defined result
is `none`, and so is a call that has not returned.
-/

namespace WifiMcu.Mqtt

open Delivery Memory

variable {ε : Type}

/-- The members of `enum msgTypes` that the client handles or sends. -/
def connack : ℕ := 2

@[inherit_doc connack] def publish : ℕ := 3

@[inherit_doc connack] def puback : ℕ := 4

@[inherit_doc connack] def pubrec : ℕ := 5

@[inherit_doc connack] def pubrel : ℕ := 6

@[inherit_doc connack] def pubcomp : ℕ := 7

@[inherit_doc connack] def suback : ℕ := 9

@[inherit_doc connack] def pingreq : ℕ := 12

@[inherit_doc connack] def pingresp : ℕ := 13

/-- `MQTT_SUCCESS`. -/
def mqttSuccess : ℤ := 0

/-- `MQTT_FAILURE`. -/
def mqttFailure : ℤ := -1

/-- `MQTTPACKET_BUFFER_TOO_SHORT`. -/
def mqttpacketBufferTooShort : ℤ := -2

/-- `MAX_MESSAGE_HANDLERS`. -/
def maxMessageHandlers : ℕ := 5

/-- `struct MessageHandlers`. A handler function is given by its address. -/
structure MessageHandler where
  topicFilter : Option (List UInt8)
  fp : Option ℕ

/-- The part of `MQTTClient` that a cycle uses. No function that a cycle calls looks at
`readbuf_size`. -/
structure Client where
  bufSize : ℕ
  buf : ℕ → UInt8
  readbuf : ℕ → UInt8
  keepAliveInterval : ℕ
  pingOutstanding : Bool
  messageHandlers : List MessageHandler
  defaultMessageHandler : Option ℕ

/-- The client and its environment: what the network has to read, the results of the
coming calls of `mqttwrite` and of `TimerIsExpired`, and what has been given to
`mqttwrite`, each with its result. -/
structure Session (ε : Type) where
  client : Client
  feed : Feed ε
  writes : List ℤ
  expired : List Bool
  offered : List (List UInt8 × ℤ)

/-- `MQTTMessage`. The payload is in the receive buffer. -/
structure Message where
  qos : ℕ
  retained : ℕ
  dup : ℕ
  id : Option ℕ
  payload : ℕ
  payloadlen : ℤ

/-- What calling a message handler of the application does. -/
abbrev Handlers (ε : Type) := ℕ → List UInt8 → Message → Session ε → Option (Session ε)

/-- `bits.qos` of an `MQTTHeader`. -/
def headerQos (byte : UInt8) : ℕ := byte.toNat / 2 % 4

/-- `bits.dup` of an `MQTTHeader`. -/
def headerDup (byte : UInt8) : ℕ := byte.toNat / 8 % 2

/-- `bits.retain` of an `MQTTHeader`. -/
def headerRetain (byte : UInt8) : ℕ := byte.toNat % 2

/-- An `MQTTHeader` from its bits. -/
def header (type dup qos retain : ℕ) : UInt8 :=
  UInt8.ofNat (type % 16 * 16 + dup % 2 * 8 + qos % 4 * 2 + retain % 2)

/-- `MQTTPacket_decodeBuf` from an index of a buffer on: the length and the number of
bytes that it has. Reading from a buffer does not fail. -/
def mqttPacketDecodeBuf (buf : ℕ → UInt8) (start : ℕ) : Option (DecodeResult ℕ) :=
  decodeLoop (fun i => some (1, buf i, i + 1)) 4 0 1 0 start

/-- `readInt`. -/
def readInt (buf : ℕ → UInt8) (i : ℕ) : ℕ := 256 * (buf i).toNat + (buf (i + 1)).toNat

/-- `readMQTTLenString`: the string at an index of a buffer and the index behind it, if
they lie before the end of the data. -/
def readMqttLenString (buf : ℕ → UInt8) (curdata enddata : ℕ) : Option (List UInt8 × ℕ) :=
  if curdata + 1 < enddata then
    let len := readInt buf curdata
    if curdata + 2 + len ≤ enddata then
      some (readBlock buf (curdata + 2) len, curdata + 2 + len)
    else none
  else none

/-- `MQTTDeserialize_publish`: the value that it returns, with the topic and the message
if they are set. Where the topic does not fit, the value is the number of bytes of the
length, so that it can be 1 as well. -/
def mqttDeserializePublish (buf : ℕ → UInt8) : Option (ℤ × Option (List UInt8 × Message)) :=
  if headerType (buf 0) ≠ publish then some (0, none)
  else do
    let length ← mqttPacketDecodeBuf buf 1
    let curdata := 1 + length.len
    let enddata := curdata + length.value
    match readMqttLenString buf curdata enddata with
    | none => some (length.len, none)
    | some (topicName, curdata) =>
      let qos := headerQos (buf 0)
      let id := if qos > 0 then some (readInt buf curdata) else none
      let payload := if qos > 0 then curdata + 2 else curdata
      let message : Message :=
        { qos, retained := headerRetain (buf 0), dup := headerDup (buf 0), id, payload,
          payloadlen := (enddata : ℤ) - payload }
      some (1, some (topicName, message))

/-- `MQTTDeserialize_ack`: the value that it returns, with the packet identifier if it is
set. -/
def mqttDeserializeAck (buf : ℕ → UInt8) : Option (ℤ × Option ℕ) := do
  let length ← mqttPacketDecodeBuf buf 1
  if length.value < 2 then some (length.len, none)
  else some (1, some (readInt buf (1 + length.len)))

/-- `writeInt`: the bytes that it writes. -/
def writeInt (anInt : ℕ) : List UInt8 := [UInt8.ofNat (anInt / 256), UInt8.ofNat (anInt % 256)]

/-- `MQTTSerialize_ack`: the value that it returns, and the buffer after it. -/
def mqttSerializeAck (buf : ℕ → UInt8) (buflen packettype dup packetid : ℕ) :
    ℤ × (ℕ → UInt8) :=
  if buflen < 4 then (mqttpacketBufferTooShort, buf)
  else
    let qos := if packettype = pubrel then 1 else 0
    let bytes := header packettype dup qos 0 :: mqttPacketEncode 2 ++ writeInt packetid
    (bytes.length, writeBlock buf 0 bytes)

/-- `MQTTSerialize_zero`: the value that it returns, and the buffer after it. -/
def mqttSerializeZero (buf : ℕ → UInt8) (buflen packettype : ℕ) : ℤ × (ℕ → UInt8) :=
  if buflen < 2 then (mqttpacketBufferTooShort, buf)
  else
    let bytes := header packettype 0 0 0 :: mqttPacketEncode 0
    (bytes.length, writeBlock buf 0 bytes)

/-- `MQTTSerialize_pingreq`. -/
def mqttSerializePingreq (buf : ℕ → UInt8) (buflen : ℕ) : ℤ × (ℕ → UInt8) :=
  mqttSerializeZero buf buflen pingreq

/-- `TimerIsExpired`, on one of the timers that a cycle looks at. -/
def timerIsExpired (s : Session ε) : Option (Bool × Session ε) :=
  match s.expired with
  | [] => none
  | result :: expired => some (result, { s with expired })

/-- A call of `mqttwrite`. -/
def mqttwrite (s : Session ε) (bytes : List UInt8) : Option (ℤ × Session ε) :=
  match s.writes with
  | [] => none
  | rc :: writes => some (rc, { s with writes, offered := s.offered ++ [(bytes, rc)] })

/-- The loop of `sendPacket`, by the results of `TimerIsExpired`. -/
def sendLoop (length : ℕ) : List Bool → (sent : ℕ) → Session ε → Option (ℕ × Session ε)
  | expired, sent, s =>
    if sent < length then
      match expired with
      | [] => none
      | true :: expired => some (sent, { s with expired })
      | false :: expired => do
        let (rc, s) ← mqttwrite s (readBlock s.client.buf sent length)
        if rc < 0 then some (sent, { s with expired })
        else sendLoop length expired (sent + rc.toNat) s
    else some (sent, { s with expired })

/-- `sendPacket`. -/
def sendPacket (length : ℕ) (s : Session ε) : Option (ℤ × Session ε) := do
  let (sent, s) ← sendLoop length s.expired 0 s
  return (if sent = length then mqttSuccess else mqttFailure, s)

/-- `isTopicMatched`. A `+` stands for the rest of a level, and a `#` for everything. -/
def isTopicMatched : (topicFilter topicName : List UInt8) → Bool
  | f :: topicFilter, n :: topicName =>
    if n = 0x2F ∧ f ≠ 0x2F then false
    else if f ≠ 0x2B ∧ f ≠ 0x23 ∧ f ≠ n then false
    else if f = 0x2B then isTopicMatched topicFilter (topicName.dropWhile (· ≠ 0x2F))
    else if f = 0x23 then isTopicMatched topicFilter []
    else isTopicMatched topicFilter topicName
  | topicFilter, topicName => topicName.isEmpty && topicFilter.isEmpty

/-- The loop of `deliverMessage` over the indices of the message handlers. A handler
that is called may have changed the table. -/
def deliverLoop (call : Handlers ε) (topicName : List UInt8) (message : Message) :
    List ℕ → (rc : ℤ) → Session ε → Option (ℤ × Session ε)
  | [], rc, s => some (rc, s)
  | i :: indices, rc, s =>
    match s.client.messageHandlers[i]? with
    | some { topicFilter := some topicFilter, fp := some fp } =>
      if topicName = topicFilter ∨ isTopicMatched topicFilter topicName then do
        let s ← call fp topicName message s
        deliverLoop call topicName message indices mqttSuccess s
      else deliverLoop call topicName message indices rc s
    | _ => deliverLoop call topicName message indices rc s

/-- `deliverMessage`. -/
def deliverMessage (call : Handlers ε) (topicName : List UInt8) (message : Message)
    (s : Session ε) : Option (ℤ × Session ε) := do
  let (rc, s) ← deliverLoop call topicName message (List.range maxMessageHandlers) mqttFailure s
  match s.client.defaultMessageHandler with
  | some fp =>
    if rc = mqttFailure then do
      let s ← call fp topicName message s
      return (mqttSuccess, s)
    else return (rc, s)
  | none => return (rc, s)

/-- `keepalive`. -/
def keepalive (s : Session ε) : Option (ℤ × Session ε) :=
  if s.client.keepAliveInterval = 0 then some (mqttSuccess, s)
  else do
    let (expired, s) ← timerIsExpired s
    if expired ∧ s.client.pingOutstanding = false then
      let (len, buf) := mqttSerializePingreq s.client.buf s.client.bufSize
      let s := { s with client := { s.client with buf } }
      if len > 0 then do
        let (rc, s) ← sendPacket len.toNat s
        if rc = mqttSuccess then
          return (rc, { s with client := { s.client with pingOutstanding := true } })
        else return (rc, s)
      else return (mqttFailure, s)
    else return (mqttFailure, s)

/-- Serialize an acknowledgement and send it, as the cases of `cycle` do. -/
def acknowledge (packettype packetid : ℕ) (s : Session ε) : Option (ℤ × Session ε) :=
  let (len, buf) := mqttSerializeAck s.client.buf s.client.bufSize packettype 0 packetid
  let s := { s with client := { s.client with buf } }
  if len ≤ 0 then some (mqttFailure, s) else sendPacket len.toNat s

/-- The case `PUBLISH` of `cycle`: the value of `rc`, and whether `keepalive` is skipped. -/
def cyclePublish (call : Handlers ε) (s : Session ε) : Option (ℤ × Bool × Session ε) := do
  let (rc, data) ← mqttDeserializePublish s.client.readbuf
  if rc ≠ 1 then return (mqttSuccess, true, s)
  else
    let (topicName, message) ← data
    let (_, s) ← deliverMessage call topicName message s
    if message.qos = 0 then return (mqttSuccess, false, s)
    else
      let id ← message.id
      let (rc, s) ←
        if message.qos = 1 then acknowledge puback id s
        else if message.qos = 2 then acknowledge pubrec id s
        else some (mqttFailure, s)
      return (rc, rc = mqttFailure, s)

/-- The case `PUBREC` of `cycle`: the value of `rc`, and whether `keepalive` is skipped. -/
def cyclePubrec (s : Session ε) : Option (ℤ × Bool × Session ε) := do
  let (rc, data) ← mqttDeserializeAck s.client.readbuf
  if rc ≠ 1 then return (mqttFailure, true, s)
  else
    let mypacketid ← data
    let (rc, s) ← acknowledge pubrel mypacketid s
    return (rc, rc = mqttFailure, s)

/-- The `switch` of `cycle`. -/
def cycleSwitch (call : Handlers ε) (packetType : ℕ) (s : Session ε) :
    Option (ℤ × Bool × Session ε) :=
  if packetType = publish then cyclePublish call s
  else if packetType = pubrec then cyclePubrec s
  else if packetType = pingresp then
    some (mqttSuccess, false, { s with client := { s.client with pingOutstanding := false } })
  else some (mqttSuccess, false, s)

/-- `cycle`. The result of `readPacket` is stored as an `unsigned short`. -/
def cycle (read : ℕ → Feed ε → ReadResult ε) (call : Handlers ε) (s : Session ε) :
    Option (ℤ × Session ε) := do
  let r := readPacket read s.client.readbuf s.feed
  let packetType := ((← r.rc) % 65536).toNat
  let readbuf := storeAll s.client.readbuf r.stores
  let s := { s with client := { s.client with readbuf }, feed := r.rest }
  let (rc, left, s) ← cycleSwitch call packetType s
  let s ← if left then some s else (keepalive s).map Prod.snd
  return (if rc = mqttSuccess then (packetType : ℤ) else rc, s)

/-- A call of `MQTTYield`: the value that it returns, or `none` while it has not
returned; and its cycles, each with the state before it and the value that it has
returned. -/
structure YieldResult (ε : Type) where
  rc : Option ℤ
  cycles : List (Session ε × Option ℤ)

/-- `MQTTYield`, by the results of `TimerIsExpired` in the condition of its loop. -/
def mqttYield (read : ℕ → Feed ε → ReadResult ε) (call : Handlers ε) :
    List Bool → Session ε → YieldResult ε
  | expired, s =>
    match cycle read call s with
    | none => ⟨none, [(s, none)]⟩
    | some (rc, s') =>
      if rc = mqttFailure then ⟨some mqttFailure, [(s, some rc)]⟩
      else
        match expired with
        | [] => ⟨none, [(s, some rc)]⟩
        | true :: _ => ⟨some mqttSuccess, [(s, some rc)]⟩
        | false :: expired =>
          let r := mqttYield read call expired s'
          { r with cycles := (s, some rc) :: r.cycles }

end WifiMcu.Mqtt
