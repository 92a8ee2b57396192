import WifiMcu.Mqtt.Client
import WifiMcu.Mqtt.Framing

/-!
# Serializing packets

Every request is a header byte, the length of what follows, and the fields one behind
the other. A serializer computes the length first, from the lengths of the strings, and
refuses if the packet does not seem to fit into the buffer; then it writes the fields
without looking at the buffer again.
-/

namespace WifiMcu.Mqtt

open Memory

/-- The members of `enum msgTypes` that only requests and their answers have. -/
def connect : ℕ := 1

@[inherit_doc connect] def subscribe : ℕ := 8

@[inherit_doc connect] def unsubscribe : ℕ := 10

@[inherit_doc connect] def unsuback : ℕ := 11

@[inherit_doc connect] def disconnect : ℕ := 14

/-- `MQTTString`: a C string, or a string with a length whose data is there, or both. -/
structure MqttString where
  cstring : Option (List UInt8)
  lenstring : Option (List UInt8)
  deriving DecidableEq

namespace MqttString

/-- `MQTTString_initializer`. -/
def initializer : MqttString := ⟨none, none⟩

/-- A C string. -/
def ofCString (s : List UInt8) : MqttString := ⟨some s, none⟩

/-- A string with a length, as it is read from a packet. -/
def ofLenString (s : List UInt8) : MqttString := ⟨none, some s⟩

/-- `lenstring.len`. -/
def len (s : MqttString) : ℕ := s.lenstring.elim 0 List.length

/-- Whether there is a string at all. -/
def isGiven (s : MqttString) : Bool := s.cstring.isSome || s.lenstring.isSome

/-- The text that a string stands for where it is written. -/
def text (s : MqttString) : List UInt8 :=
  if s.len > 0 then s.lenstring.getD [] else s.cstring.getD []

end MqttString

/-- `MQTTstrlen`. -/
def mqttStrlen (s : MqttString) : ℕ :=
  match s.cstring with
  | some cstring => cstring.length
  | none => s.len

/-- `writeChar`: the byte that it writes. -/
def writeChar (c : ℕ) : List UInt8 := [UInt8.ofNat c]

/-- `writeCString`: the bytes that it writes. -/
def writeCString (string : List UInt8) : List UInt8 := writeInt string.length ++ string

/-- `writeMQTTString`: the bytes that it writes. -/
def writeMqttString (s : MqttString) : List UInt8 :=
  if s.len > 0 then writeInt s.len ++ s.lenstring.getD []
  else
    match s.cstring with
    | some cstring => writeCString cstring
    | none => writeInt 0

/-- `MQTTPacket_len`. -/
def mqttPacketLen (remLen : ℕ) : ℕ :=
  let remLen := remLen + 1
  if remLen < 128 then remLen + 1
  else if remLen < 16384 then remLen + 2
  else if remLen < 2097151 then remLen + 3
  else remLen + 4

/-- What the serializers of the requests do with the length that they have computed: they
refuse if the packet does not fit, and write it otherwise. The value returned comes
with the buffer. -/
def serializePacket (buf : ℕ → UInt8) (buflen remLen : ℕ) (header : UInt8)
    (body : List UInt8) : ℤ × (ℕ → UInt8) :=
  if mqttPacketLen remLen > buflen then (mqttpacketBufferTooShort, buf)
  else
    let bytes := header :: mqttPacketEncode remLen ++ body
    (bytes.length, writeBlock buf 0 bytes)

/-- `MQTTSerialize_publishLength`. -/
def mqttSerializePublishLength (qos : ℕ) (topicName : MqttString) (payloadlen : ℕ) : ℕ :=
  let len := 2 + mqttStrlen topicName + payloadlen
  if qos > 0 then len + 2 else len

/-- The fields that `MQTTSerialize_publish` writes behind the length. -/
def publishBody (qos packetid : ℕ) (topicName : MqttString) (payload : List UInt8) : List UInt8 :=
  writeMqttString topicName ++ (if qos > 0 then writeInt packetid else []) ++ payload

/-- `MQTTSerialize_publish`. -/
def mqttSerializePublish (buf : ℕ → UInt8) (buflen dup qos retained packetid : ℕ)
    (topicName : MqttString) (payload : List UInt8) : ℤ × (ℕ → UInt8) :=
  serializePacket buf buflen (mqttSerializePublishLength qos topicName payload.length)
    (header publish dup qos retained) (publishBody qos packetid topicName payload)

/-- `MQTTSerialize_subscribeLength`, for topic filters with the QoS requested for each. -/
def mqttSerializeSubscribeLength (topicFilters : List (MqttString × ℕ)) : ℕ :=
  topicFilters.foldl (fun len topic => len + (2 + mqttStrlen topic.1 + 1)) 2

/-- The fields that `MQTTSerialize_subscribe` writes behind the length. -/
def subscribeBody (packetid : ℕ) (topicFilters : List (MqttString × ℕ)) : List UInt8 :=
  writeInt packetid ++ topicFilters.flatMap fun topic => writeMqttString topic.1 ++ writeChar topic.2

/-- `MQTTSerialize_subscribe`. -/
def mqttSerializeSubscribe (buf : ℕ → UInt8) (buflen dup packetid : ℕ)
    (topicFilters : List (MqttString × ℕ)) : ℤ × (ℕ → UInt8) :=
  serializePacket buf buflen (mqttSerializeSubscribeLength topicFilters)
    (header subscribe dup 1 0) (subscribeBody packetid topicFilters)

/-- `MQTTSerialize_unsubscribeLength`. -/
def mqttSerializeUnsubscribeLength (topicFilters : List MqttString) : ℕ :=
  topicFilters.foldl (fun len topic => len + (2 + mqttStrlen topic)) 2

/-- The fields that `MQTTSerialize_unsubscribe` writes behind the length. -/
def unsubscribeBody (packetid : ℕ) (topicFilters : List MqttString) : List UInt8 :=
  writeInt packetid ++ topicFilters.flatMap writeMqttString

/-- `MQTTSerialize_unsubscribe`. -/
def mqttSerializeUnsubscribe (buf : ℕ → UInt8) (buflen dup packetid : ℕ)
    (topicFilters : List MqttString) : ℤ × (ℕ → UInt8) :=
  serializePacket buf buflen (mqttSerializeUnsubscribeLength topicFilters)
    (header unsubscribe dup 1 0) (unsubscribeBody packetid topicFilters)

/-- `MQTTPacket_willOptions`, without its identification. -/
structure WillOptions where
  topicName : MqttString
  message : MqttString
  retained : ℕ
  qos : ℕ
  deriving DecidableEq

/-- `MQTTPacket_connectData`, without its identification. -/
structure ConnectData where
  mqttVersion : ℕ
  clientID : MqttString
  keepAliveInterval : ℕ
  cleansession : ℕ
  willFlag : ℕ
  will : WillOptions
  username : MqttString
  password : MqttString
  deriving DecidableEq

/-- `MQTTPacket_connectData_initializer`. -/
def ConnectData.initializer : ConnectData where
  mqttVersion := 4
  clientID := .initializer
  keepAliveInterval := 60
  cleansession := 1
  willFlag := 0
  will := { topicName := .initializer, message := .initializer, retained := 0, qos := 0 }
  username := .initializer
  password := .initializer

/-- `MQTTSerialize_connectLength`. -/
def mqttSerializeConnectLength (options : ConnectData) : ℕ :=
  (if options.mqttVersion = 3 then 12 else if options.mqttVersion = 4 then 10 else 0)
    + (mqttStrlen options.clientID + 2)
    + (if options.willFlag ≠ 0 then
        mqttStrlen options.will.topicName + 2 + mqttStrlen options.will.message + 2 else 0)
    + (if options.username.isGiven then mqttStrlen options.username + 2 else 0)
    + (if options.password.isGiven then mqttStrlen options.password + 2 else 0)

/-- `MQTTConnectFlags` from its bits. -/
def connectFlags (username password willRetain willQoS will cleansession : ℕ) : ℕ :=
  username % 2 * 128 + password % 2 * 64 + willRetain % 2 * 32 + willQoS % 4 * 8 + will % 2 * 4
    + cleansession % 2 * 2

/-- The flags that `MQTTSerialize_connect` writes. -/
def ConnectData.flags (options : ConnectData) : ℕ :=
  connectFlags options.username.isGiven.toNat options.password.isGiven.toNat
    (if options.willFlag ≠ 0 then options.will.retained else 0)
    (if options.willFlag ≠ 0 then options.will.qos else 0)
    (if options.willFlag ≠ 0 then 1 else 0) options.cleansession

/-- The name of the protocol and its version, as `MQTTSerialize_connect` writes them. -/
def protocolName (mqttVersion : ℕ) : List UInt8 × ℕ :=
  if mqttVersion = 4 then ([0x4D, 0x51, 0x54, 0x54], 4)
  else ([0x4D, 0x51, 0x49, 0x73, 0x64, 0x70], 3)

/-- The fields that `MQTTSerialize_connect` writes behind the length. -/
def connectBody (options : ConnectData) : List UInt8 :=
  let protocol := protocolName options.mqttVersion
  writeCString protocol.1 ++ writeChar protocol.2 ++ writeChar options.flags
    ++ writeInt options.keepAliveInterval ++ writeMqttString options.clientID
    ++ (if options.willFlag ≠ 0 then
        writeMqttString options.will.topicName ++ writeMqttString options.will.message else [])
    ++ (if options.username.isGiven then writeMqttString options.username else [])
    ++ (if options.password.isGiven then writeMqttString options.password else [])

/-- `MQTTSerialize_connect`. -/
def mqttSerializeConnect (buf : ℕ → UInt8) (buflen : ℕ) (options : ConnectData) :
    ℤ × (ℕ → UInt8) :=
  serializePacket buf buflen (mqttSerializeConnectLength options) (header connect 0 0 0)
    (connectBody options)

/-- `MQTTSerialize_disconnect`. -/
def mqttSerializeDisconnect (buf : ℕ → UInt8) (buflen : ℕ) : ℤ × (ℕ → UInt8) :=
  mqttSerializeZero buf buflen disconnect

/-- A string has the length that is announced for it. -/
def MqttString.Sound (s : MqttString) : Prop := mqttStrlen s = s.text.length

instance (s : MqttString) : Decidable s.Sound := inferInstanceAs (Decidable (_ = _))

/-- The requests, with the fields that they are serialized from. -/
inductive Request
  | connect (options : ConnectData)
  | publish (dup qos retained packetid : ℕ) (topicName : MqttString) (payload : List UInt8)
  | subscribe (dup packetid : ℕ) (topicFilters : List (MqttString × ℕ))
  | unsubscribe (dup packetid : ℕ) (topicFilters : List MqttString)

namespace Request

/-- The serializer of a request: the value that it returns, and the buffer after it. -/
def serialize (buf : ℕ → UInt8) (buflen : ℕ) : Request → ℤ × (ℕ → UInt8)
  | connect options => mqttSerializeConnect buf buflen options
  | publish dup qos retained packetid topicName payload =>
    mqttSerializePublish buf buflen dup qos retained packetid topicName payload
  | subscribe dup packetid topicFilters =>
    mqttSerializeSubscribe buf buflen dup packetid topicFilters
  | unsubscribe dup packetid topicFilters =>
    mqttSerializeUnsubscribe buf buflen dup packetid topicFilters

/-- The header byte of a request. -/
def header : Request → UInt8
  | connect _ => Mqtt.header Mqtt.connect 0 0 0
  | publish dup qos retained _ _ _ => Mqtt.header Mqtt.publish dup qos retained
  | subscribe dup _ _ => Mqtt.header Mqtt.subscribe dup 1 0
  | unsubscribe dup _ _ => Mqtt.header Mqtt.unsubscribe dup 1 0

/-- The length that is computed for a request. -/
def length : Request → ℕ
  | connect options => mqttSerializeConnectLength options
  | publish _ qos _ _ topicName payload => mqttSerializePublishLength qos topicName payload.length
  | subscribe _ _ topicFilters => mqttSerializeSubscribeLength topicFilters
  | unsubscribe _ _ topicFilters => mqttSerializeUnsubscribeLength topicFilters

/-- The fields of a request. -/
def body : Request → List UInt8
  | connect options => connectBody options
  | publish _ qos _ packetid topicName payload => publishBody qos packetid topicName payload
  | subscribe _ packetid topicFilters => subscribeBody packetid topicFilters
  | unsubscribe _ packetid topicFilters => unsubscribeBody packetid topicFilters

/-- The strings that are written for a request. -/
def strings : Request → List MqttString
  | connect options =>
    [options.clientID, options.will.topicName, options.will.message, options.username,
      options.password]
  | publish _ _ _ _ topicName _ => [topicName]
  | subscribe _ _ topicFilters => topicFilters.map Prod.fst
  | unsubscribe _ _ topicFilters => topicFilters

/-- The version of the protocol, where it is asked for, is one that there is. -/
def versionKnown : Request → Prop
  | connect options => options.mqttVersion = 3 ∨ options.mqttVersion = 4
  | _ => True

end Request

/-- A string given in one way only has the length that is announced for it. -/
theorem MqttString.sound_of_single {s : MqttString} (h : s.cstring = none ∨ s.lenstring = none) :
    s.Sound := by
  obtain ⟨cstring, lenstring⟩ := s
  rcases h with rfl | rfl
  · cases lenstring with
    | none => rfl
    | some bs => cases bs <;> rfl
  · cases cstring <;> rfl

/-- An integer is written as two bytes. -/
@[simp] theorem length_writeInt (anInt : ℕ) : (writeInt anInt).length = 2 := rfl

/-- A string is written as its length and its text. -/
theorem writeMqttString_eq (s : MqttString) :
    writeMqttString s = writeInt s.text.length ++ s.text := by
  obtain ⟨cstring, lenstring⟩ := s
  cases lenstring with
  | none => cases cstring <;> rfl
  | some bs =>
    cases bs with
    | nil => cases cstring <;> rfl
    | cons b bs => rfl

/-- The number of bytes of a string that has the length announced for it. -/
theorem MqttString.Sound.length_write {s : MqttString} (h : s.Sound) :
    (writeMqttString s).length = mqttStrlen s + 2 := by
  rw [writeMqttString_eq, List.length_append, length_writeInt, h, Nat.add_comm]

/-- A sum over a list, computed from the left. -/
theorem foldl_add_eq {α : Type*} (f : α → ℕ) (items : List α) (n : ℕ) :
    items.foldl (fun len item => len + f item) n = n + (items.map f).sum := by
  induction items generalizing n with
  | nil => rfl
  | cons item items ih => rw [List.foldl_cons, ih, List.map_cons, List.sum_cons, Nat.add_assoc]

/-- The length computed for a list of fields is their length if it is so for each of them. -/
theorem foldl_length_eq {α β : Type*} {f : α → ℕ} {write : α → List β} {items : List α}
    (h : ∀ item ∈ items, (write item).length = f item) (n : ℕ) :
    items.foldl (fun len item => len + f item) n = n + (items.flatMap write).length := by
  rw [foldl_add_eq, List.length_flatMap, List.map_congr_left h]

/-- **Announced lengths.** The length that is computed for a request is the length of its
fields. -/
theorem Request.length_body {r : Request} (hsound : ∀ s ∈ r.strings, s.Sound)
    (hversion : r.versionKnown) : r.body.length = r.length := by
  cases r with
  | connect options =>
    have hclient := (hsound options.clientID (by simp [strings])).length_write
    have htopic := (hsound options.will.topicName (by simp [strings])).length_write
    have hmessage := (hsound options.will.message (by simp [strings])).length_write
    have huser := (hsound options.username (by simp [strings])).length_write
    have hpassword := (hsound options.password (by simp [strings])).length_write
    have hname : (writeCString (protocolName options.mqttVersion).1).length + 4 =
        if options.mqttVersion = 3 then 12 else if options.mqttVersion = 4 then 10 else 0 := by
      rcases hversion with hthree | hfour
      · rw [hthree]
        rfl
      · rw [hfour]
        rfl
    simp only [body, length, connectBody, mqttSerializeConnectLength, List.length_append,
      ← hname, writeChar, List.length_singleton, length_writeInt, hclient]
    split_ifs <;> simp only [List.length_append, List.length_nil, *] <;> omega
  | publish dup qos retained packetid topicName payload =>
    have htopic := (hsound topicName (by simp [strings])).length_write
    simp only [body, length, publishBody, mqttSerializePublishLength, List.length_append, htopic]
    split_ifs <;> simp only [length_writeInt, List.length_nil] <;> omega
  | subscribe dup packetid topicFilters =>
    have hitem : ∀ topic ∈ topicFilters, (writeMqttString topic.1 ++ writeChar topic.2).length =
        2 + mqttStrlen topic.1 + 1 := by
      intro topic htopic
      have hlength := (hsound topic.1 (List.mem_map_of_mem htopic)).length_write
      rw [List.length_append, hlength, writeChar, List.length_singleton]
      omega
    rw [length, mqttSerializeSubscribeLength, foldl_length_eq hitem]
    exact List.length_append
  | unsubscribe dup packetid topicFilters =>
    have hitem : ∀ topic ∈ topicFilters, (writeMqttString topic).length = 2 + mqttStrlen topic := by
      intro topic htopic
      rw [(hsound topic htopic).length_write, Nat.add_comm]
    rw [length, mqttSerializeUnsubscribeLength, foldl_length_eq hitem]
    exact List.length_append

/-- The lengths for which `MQTTPacket_len` computes one byte too much, because it compares
with the header byte included, and with a bound that is one less than it should be. -/
def overestimated : List ℕ := [127, 16383, 2097150, 2097151]

/-- A length of 28 bits has the number of bytes that its size suggests. -/
theorem length_encode_eq {n : ℕ} (h : n < 128 ^ 4) : (Base128.encode n).length =
    if n < 128 then 1 else if n < 16384 then 2 else if n < 2097152 then 3 else 4 := by
  have hstep {n : ℕ} (hn : ¬ n < 128) :
      (Base128.encode n).length = (Base128.encode (n / 128)).length + 1 := by
    rw [Base128.encode_of_ge hn, List.length_cons]
  have hlast {n : ℕ} (hn : n < 128) : (Base128.encode n).length = 1 := by
    rw [Base128.encode_of_lt hn, List.length_singleton]
  split_ifs with h1 h2 h3
  · exact hlast h1
  · rw [hstep h1, hlast (by omega)]
  · rw [hstep h1, hstep (by omega), hlast (by omega)]
  · rw [hstep h1, hstep (by omega), hstep (by omega), hlast (by omega)]

/-- `MQTTPacket_len` computes the number of bytes of a packet, or one more. -/
theorem mqttPacketLen_eq (p : Packet) : mqttPacketLen p.body.length =
    p.bytes.length + if p.body.length ∈ overestimated then 1 else 0 := by
  have hsmall := p.small
  have hlength := length_encode_eq p.small
  rw [p.length_bytes, Packet.length, hlength, mqttPacketLen]
  simp only [overestimated, List.mem_cons, List.not_mem_nil, or_false]
  split_ifs <;> omega

/-- What `serializePacket` does with the length of the fields. -/
theorem serializePacket_eq (buf : ℕ → UInt8) (buflen : ℕ) (p : Packet) :
    serializePacket buf buflen p.body.length p.header p.body =
      if mqttPacketLen p.body.length > buflen then (mqttpacketBufferTooShort, buf)
      else ((p.bytes.length : ℤ), writeBlock buf 0 p.bytes) := by
  rw [serializePacket, mqttPacketEncode_eq]
  rfl

/-- A packet that is short and fits is written with a length field of one byte. -/
theorem serializePacket_of_short {buf : ℕ → UInt8} {buflen remLen : ℕ} {header : UInt8}
    {body : List UInt8} (hshort : remLen < 127) (hfits : remLen + 2 ≤ buflen) :
    serializePacket buf buflen remLen header body =
      (((header :: UInt8.ofNat remLen :: body).length : ℤ),
        writeBlock buf 0 (header :: UInt8.ofNat remLen :: body)) := by
  have hlen : mqttPacketLen remLen = remLen + 2 := by
    rw [mqttPacketLen]
    exact if_pos (by omega)
  rw [serializePacket, if_neg (by omega), mqttPacketEncode_eq, Base128.encode_of_lt (by omega)]
  rfl

/-- Every request is serialized in the same way. -/
theorem Request.serialize_eq (r : Request) (buf : ℕ → UInt8) (buflen : ℕ) :
    r.serialize buf buflen = serializePacket buf buflen r.length r.header r.body := by
  cases r <;> rfl

/-- The packet of a request. -/
def Request.packet (r : Request) (hsmall : r.body.length < 128 ^ 4) : Packet :=
  ⟨r.header, r.body, hsmall⟩

/-- What a serializer returns depends on the computed length of the packet only. -/
theorem request_serialize_eq {r : Request} (hsound : ∀ s ∈ r.strings, s.Sound)
    (hversion : r.versionKnown) (hsmall : r.body.length < 128 ^ 4) (buf : ℕ → UInt8)
    (buflen : ℕ) :
    r.serialize buf buflen =
      if mqttPacketLen r.body.length > buflen then (mqttpacketBufferTooShort, buf)
      else (((r.packet hsmall).bytes.length : ℤ), writeBlock buf 0 (r.packet hsmall).bytes) := by
  rw [r.serialize_eq, ← Request.length_body hsound hversion]
  exact serializePacket_eq buf buflen (r.packet hsmall)

/-- A request that can be written, and that seems to fit. -/
structure Request.Writable (r : Request) (buflen : ℕ) : Prop where
  sound : ∀ s ∈ r.strings, s.Sound
  version : r.versionKnown
  small : r.body.length < 128 ^ 4
  fits : mqttPacketLen r.body.length ≤ buflen

/-- A request that seems to fit is written. -/
theorem Request.Writable.serialize {r : Request} {buflen : ℕ} (h : r.Writable buflen)
    (buf : ℕ → UInt8) : r.serialize buf buflen =
      (((r.packet h.small).bytes.length : ℤ), writeBlock buf 0 (r.packet h.small).bytes) :=
  (request_serialize_eq h.sound h.version h.small buf buflen).trans
    (if_neg (Nat.not_lt.mpr h.fits))

/-- **Serialized requests.** A request whose strings have the lengths announced for them,
for a version of the protocol that there is, is written as one packet whose length field
is the length of what follows, from the start of the buffer on and inside of it, and
nothing else is written; or it is refused, and nothing is written. It is refused exactly
if the packet does not fit, or if it fills the buffer and has one of four lengths. -/
theorem request_serialize (r : Request) (hsound : ∀ s ∈ r.strings, s.Sound)
    (hversion : r.versionKnown) (hsmall : r.body.length < 128 ^ 4) (buf : ℕ → UInt8)
    (buflen : ℕ) :
    let p := r.packet hsmall
    r.serialize buf buflen =
      if buflen < p.bytes.length ∨ buflen = p.bytes.length ∧ p.body.length ∈ overestimated then
        (mqttpacketBufferTooShort, buf)
      else ((p.bytes.length : ℤ), writeBlock buf 0 p.bytes) := by
  intro p
  have hlen : mqttPacketLen r.body.length = _ := mqttPacketLen_eq p
  rw [request_serialize_eq hsound hversion hsmall, hlen]
  refine if_congr ?_ rfl rfl
  split_ifs with hover
  · simp only [hover, and_true]
    omega
  · simp only [hover, and_false, or_false]
    omega

/-- A SUBSCRIBE for the topic filter `a/+` just fits into ten bytes. -/
theorem request_serialize_subscribe :
    (Request.subscribe 0 5 [(.ofCString [0x61, 0x2F, 0x2B], 1)]).serialize (fun _ => 0) 10 =
      (10, writeBlock (fun _ => 0) 0 [0x82, 8, 0, 5, 0, 3, 0x61, 0x2F, 0x2B, 1]) := by
  have hbytes (hsmall) : ((Request.subscribe 0 5 [(.ofCString [0x61, 0x2F, 0x2B], 1)]).packet
      hsmall).bytes = [0x82, 8, 0, 5, 0, 3, 0x61, 0x2F, 0x2B, 1] := by
    show 0x82 :: Base128.encode 8 ++ [0, 5, 0, 3, 0x61, 0x2F, 0x2B, 1] = _
    rw [Base128.encode_of_lt (by decide)]
    rfl
  have h := request_serialize (.subscribe 0 5 [(.ofCString [0x61, 0x2F, 0x2B], 1)]) (by decide)
    trivial (by decide) (fun _ => 0) 10
  dsimp only at h
  rw [hbytes, if_neg (by decide)] at h
  exact h

end WifiMcu.Mqtt
