import WifiMcu.Mqtt.Deserialize

/-!
# The calls of the application

A call sends one packet. Most calls then wait for the answer in cycles, so that
everything else that arrives meanwhile is served. The mutex keeps the calls and the
background task apart, so that they follow each other in some order.
-/

namespace WifiMcu.Mqtt

variable {ε : Type}

/-- `MQTTClient`, with its environment: the part that a cycle uses, and the rest of it. The
timeout of the calls is in the results of `TimerIsExpired`. -/
structure MqttClient (ε : Type) where
  session : Session ε
  nextPacketid : ℕ
  isconnected : Bool

/-- `MAX_PACKET_ID`. -/
def maxPacketId : ℕ := 65535

/-- `getNextPacketId`. The value that it returns is the one in the client then. -/
def getNextPacketId (c : MqttClient ε) : MqttClient ε :=
  { c with nextPacketid := if c.nextPacketid = maxPacketId then 1 else c.nextPacketid + 1 }

/-- A new identifier does not change whether the client is connected. -/
@[simp] theorem getNextPacketId_isconnected (c : MqttClient ε) :
    (getNextPacketId c).isconnected = c.isconnected := rfl

/-- Send the packet that a serializer has left in the send buffer, unless it has refused. -/
def sendSerialized (serialized : ℤ × (ℕ → UInt8)) (s : Session ε) : Option (ℤ × Session ε) :=
  let (len, buf) := serialized
  let s := { s with client := { s.client with buf } }
  if len ≤ 0 then some (mqttFailure, s) else sendPacket len.toNat s

/-- `waitfor`, by the results of `TimerIsExpired` in its loop, with the value of `rc`. -/
def waitfor (read : ℕ → Feed ε → ReadResult ε) (call : Handlers ε) (packetType : ℕ) :
    List Bool → (rc : ℤ) → Session ε → Option (ℤ × Session ε)
  | [], _, _ => none
  | true :: _, rc, s => some (rc, s)
  | false :: expired, _, s => do
    let (rc, s) ← cycle read call s
    if rc = packetType then return (rc, s)
    else waitfor read call packetType expired rc s

/-- What the calls do that wait for an answer: whether the packet has been sent and a
packet of the type of the answer has arrived. -/
def exchange (read : ℕ → Feed ε → ReadResult ε) (call : Handlers ε)
    (serialized : ℤ × (ℕ → UInt8)) (packetType : ℕ) (expired : List Bool) (s : Session ε) :
    Option (Bool × Session ε) := do
  let (rc, s) ← sendSerialized serialized s
  if rc ≠ mqttSuccess then return (false, s)
  else
    let (rc, s) ← waitfor read call packetType expired mqttFailure s
    return (rc = packetType, s)

/-- The session with the interval for the keep-alive that `MQTTConnect` sets. -/
def Session.withKeepAlive (s : Session ε) (keepAliveInterval : ℕ) : Session ε :=
  { s with client := { s.client with keepAliveInterval } }

/-- `MQTTConnect`. -/
def mqttConnect (read : ℕ → Feed ε → ReadResult ε) (call : Handlers ε)
    (options : Option ConnectData) (expired : List Bool) (c : MqttClient ε) :
    Option (ℤ × MqttClient ε) :=
  if c.isconnected then some (mqttFailure, c)
  else do
    let options := options.getD .initializer
    let s := c.session.withKeepAlive options.keepAliveInterval
    let (answered, s) ← exchange read call
      (mqttSerializeConnect s.client.buf s.client.bufSize options) connack expired s
    if answered = false then return (mqttFailure, { c with session := s })
    else
      let (deserialized, data) ← mqttDeserializeConnack s.client.readbuf
      let rc : ℤ := if deserialized = 1 then (data.elim 255 Prod.snd : ℕ) else mqttFailure
      return (rc, { c with session := s, isconnected := c.isconnected || rc = mqttSuccess })

/-- The loop of `MQTTSubscribe` over the table: the table with a handler in the first free
entry, if there is one. -/
def addHandler (handler : MessageHandler) : List MessageHandler → Option (List MessageHandler)
  | [] => none
  | entry :: entries =>
    if entry.topicFilter = none then some (handler :: entries)
    else (addHandler handler entries).map (entry :: ·)

/-- What `MQTTSubscribe` does with the QoS that the server has granted: it adds the handler
unless this is a refusal. -/
def subscribed (rc : ℤ) (handler : MessageHandler) (messageHandlers : List MessageHandler) :
    ℤ × List MessageHandler :=
  if rc = 0x80 then (rc, messageHandlers)
  else
    match addHandler handler messageHandlers with
    | some messageHandlers => (0, messageHandlers)
    | none => (rc, messageHandlers)

/-- `MQTTSubscribe`. There is no result where the values that the server has granted are
stored behind the variable, which has room for one of them. -/
def mqttSubscribe (read : ℕ → Feed ε → ReadResult ε) (call : Handlers ε)
    (topicFilter : Option (List UInt8)) (qos : ℕ) (messageHandler : Option ℕ)
    (expired : List Bool) (c : MqttClient ε) : Option (ℤ × MqttClient ε) :=
  if c.isconnected = false then some (mqttFailure, c)
  else do
    let c := getNextPacketId c
    let client := c.session.client
    let (answered, s) ← exchange read call
      (mqttSerializeSubscribe client.buf client.bufSize 0 c.nextPacketid
        [(⟨topicFilter, none⟩, qos)])
      suback expired c.session
    if answered = false then return (mqttFailure, { c with session := s })
    else
      let (deserialized, data) ← mqttDeserializeSuback 1 s.client.readbuf
      let grantedQoSs := data.elim [] Prod.snd
      if grantedQoSs.length > 1 then none
      else
        let grantedQoS : ℤ := grantedQoSs.head?.elim (-1) Int.ofNat
        let rc := if deserialized = 1 then grantedQoS else mqttSuccess
        let (rc, messageHandlers) :=
          subscribed rc ⟨topicFilter, messageHandler⟩ s.client.messageHandlers
        return (rc, { c with session := { s with client := { s.client with messageHandlers } } })

/-- `MQTTUnsubscribe`. -/
def mqttUnsubscribe (read : ℕ → Feed ε → ReadResult ε) (call : Handlers ε)
    (topicFilter : Option (List UInt8)) (expired : List Bool) (c : MqttClient ε) :
    Option (ℤ × MqttClient ε) :=
  if c.isconnected = false then some (mqttFailure, c)
  else do
    let c := getNextPacketId c
    let client := c.session.client
    let (answered, s) ← exchange read call
      (mqttSerializeUnsubscribe client.buf client.bufSize 0 c.nextPacketid [⟨topicFilter, none⟩])
      unsuback expired c.session
    if answered = false then return (mqttFailure, { c with session := s })
    else
      let (deserialized, _) ← mqttDeserializeUnsuback s.client.readbuf
      return (if deserialized = 1 then 0 else mqttSuccess, { c with session := s })

/-- `MQTTMessage`, as the application publishes it. `enum QoS` has three members. -/
structure Outgoing where
  qos : ℕ
  retained : ℕ
  id : ℕ
  payload : List UInt8
  qos_le : qos ≤ 2
  deriving DecidableEq

/-- The packet that `MQTTPublish` waits for. -/
def publishAnswer (qos : ℕ) : Option ℕ :=
  if qos = 1 then some puback else if qos = 2 then some pubcomp else none

/-- `MQTTPublish`. The message gets a packet identifier if there is an answer to wait for. -/
def mqttPublish (read : ℕ → Feed ε → ReadResult ε) (call : Handlers ε)
    (topicName : Option (List UInt8)) (message : Outgoing) (expired : List Bool)
    (c : MqttClient ε) : Option (ℤ × Outgoing × MqttClient ε) :=
  if c.isconnected = false then some (mqttFailure, message, c)
  else
    let serialize (message : Outgoing) (client : Client) :=
      mqttSerializePublish client.buf client.bufSize 0 message.qos message.retained message.id
        ⟨topicName, none⟩ message.payload
    match publishAnswer message.qos with
    | none => do
      let (rc, s) ← sendSerialized (serialize message c.session.client) c.session
      return (rc, message, { c with session := s })
    | some packetType => do
      let c := getNextPacketId c
      let message := { message with id := c.nextPacketid }
      let (answered, s) ← exchange read call (serialize message c.session.client) packetType
        expired c.session
      if answered = false then return (mqttFailure, message, { c with session := s })
      else
        let (deserialized, _) ← mqttDeserializeAck s.client.readbuf
        return (if deserialized ≠ 1 then mqttFailure else mqttSuccess, message,
          { c with session := s })

/-- `MQTTDisconnect`. -/
def mqttDisconnect (c : MqttClient ε) : Option (ℤ × MqttClient ε) := do
  let client := c.session.client
  let (rc, s) ← sendSerialized (mqttSerializeDisconnect client.buf client.bufSize) c.session
  return (rc, { c with session := s, isconnected := false })

end WifiMcu.Mqtt
