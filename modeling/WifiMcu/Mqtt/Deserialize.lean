import WifiMcu.Library.Wire
import WifiMcu.Mqtt.Serialize

/-!
# Deserializing packets

A deserializer looks at the header byte, reads the length behind it, and takes the
fields one behind the other. Some of them compare every field with the end of the data,
others only the first ones or none.
-/

namespace WifiMcu.Mqtt

open Memory Wire

/-- `bits.sessionpresent` of `MQTTConnackFlags`. -/
def connackSessionPresent (flags : UInt8) : ℕ := flags.toNat / 128

/-- `MQTTDeserialize_connack`: the value that it returns, with the session present flag and
the return code of the server if they are set. -/
def mqttDeserializeConnack (buf : ℕ → UInt8) : Option (ℤ × Option (ℕ × ℕ)) :=
  if headerType (buf 0) ≠ connack then some (0, none)
  else do
    let length ← mqttPacketDecodeBuf buf 1
    let curdata := 1 + length.len
    if length.value < 2 then some (length.len, none)
    else some (1, some (connackSessionPresent (buf curdata), (buf (curdata + 1)).toNat))

/-- The loop of `MQTTDeserialize_suback` over the bytes up to the end of the data, with the
values that have been stored in `grantedQoSs`. -/
def subackLoop (maxcount : ℕ) : (bytes : List UInt8) → (grantedQoSs : List ℕ) → ℤ × List ℕ
  | [], grantedQoSs => (1, grantedQoSs)
  | c :: bytes, grantedQoSs =>
    if grantedQoSs.length > maxcount then (-1, grantedQoSs)
    else subackLoop maxcount bytes (grantedQoSs ++ [c.toNat])

/-- `MQTTDeserialize_suback`: the value that it returns, with the packet identifier and the
values that it stores in `grantedQoSs` if it gets that far. -/
def mqttDeserializeSuback (maxcount : ℕ) (buf : ℕ → UInt8) : Option (ℤ × Option (ℕ × List ℕ)) :=
  if headerType (buf 0) ≠ suback then some (0, none)
  else do
    let length ← mqttPacketDecodeBuf buf 1
    let curdata := 1 + length.len
    let enddata := curdata + length.value
    if length.value < 2 then some (length.len, none)
    else
      let packetid := readInt buf curdata
      let curdata := curdata + 2
      let (rc, grantedQoSs) := subackLoop maxcount (readBlock buf curdata (enddata - curdata)) []
      some (rc, some (packetid, grantedQoSs))

/-- `MQTTDeserialize_unsuback`: the value that it returns, with the packet identifier if it
is set. The type of the packet makes no difference unless the other checks have failed. -/
def mqttDeserializeUnsuback (buf : ℕ → UInt8) : Option (ℤ × Option ℕ) := do
  let (rc, packetid) ← mqttDeserializeAck buf
  return (if headerType (buf 0) = unsuback then 1 else rc, packetid)

/-- A string that can be read takes two bytes at least. -/
theorem readMqttLenString_forward {buf : ℕ → UInt8} {curdata enddata next : ℕ}
    {string : List UInt8} (h : readMqttLenString buf curdata enddata = some (string, next)) :
    curdata + 2 ≤ next ∧ next ≤ enddata := by
  rw [readMqttLenString] at h
  dsimp only at h
  split_ifs at h with hlength hfits
  obtain ⟨-, rfl⟩ := Prod.mk.inj (Option.some.inj h)
  omega

/-- What the loop of `MQTTDeserialize_subscribe` reads in a round: a topic filter and the
QoS requested for it, which must lie before the end of the data as well. -/
def subscribeItem (buf : ℕ → UInt8) (enddata : ℕ) : Reader (MqttString × ℕ) where
  read curdata :=
    match readMqttLenString buf curdata enddata with
    | none => none
    | some (topicFilter, curdata) =>
      if curdata ≥ enddata then none
      else some ((.ofLenString topicFilter, (buf curdata).toNat), curdata + 1)
  forward := by
    intro i a j h
    split at h
    · cases h
    · rename_i topicFilter curdata hread
      split_ifs at h
      obtain ⟨-, rfl⟩ := Prod.mk.inj (Option.some.inj h)
      have := readMqttLenString_forward hread
      omega

/-- What the loop of `MQTTDeserialize_unsubscribe` reads in a round. -/
def unsubscribeItem (buf : ℕ → UInt8) (enddata : ℕ) : Reader MqttString where
  read curdata := (readMqttLenString buf curdata enddata).map fun r => (.ofLenString r.1, r.2)
  forward := by
    intro i a j h
    obtain ⟨⟨topicFilter, next⟩, hread, heq⟩ := Option.map_eq_some_iff.mp h
    obtain ⟨-, rfl⟩ := Prod.mk.inj heq
    have := readMqttLenString_forward hread
    omega

/-- What `MQTTDeserialize_subscribe` and `MQTTDeserialize_unsubscribe` store: the flag, the
packet identifier, and the items that have been counted. -/
structure Subscription (α : Type) where
  dup : ℕ
  packetid : ℕ
  items : List α
  deriving DecidableEq

/-- What `MQTTDeserialize_subscribe` and `MQTTDeserialize_unsubscribe` have in common. If an
item cannot be read, the value is the number of bytes of the length. -/
def deserializeItems {α : Type} (type : ℕ) (wrong : ℤ) (item : (enddata : ℕ) → Reader α)
    (buf : ℕ → UInt8) : Option (ℤ × Option (Subscription α)) :=
  if headerType (buf 0) ≠ type then some (wrong, none)
  else do
    let length ← mqttPacketDecodeBuf buf 1
    let curdata := 1 + length.len
    let enddata := curdata + length.value
    let packetid := readInt buf curdata
    let (ok, items) := (item enddata).readAll enddata (curdata + 2)
    some (if ok then 1 else length.len, some ⟨headerDup (buf 0), packetid, items⟩)

/-- `MQTTDeserialize_subscribe`. Nothing compares the number of items with `maxcount`. -/
def mqttDeserializeSubscribe (buf : ℕ → UInt8) : Option (ℤ × Option (Subscription (MqttString × ℕ))) :=
  deserializeItems subscribe (-1) (subscribeItem buf) buf

/-- `MQTTDeserialize_unsubscribe`. Nothing compares the number of items with `maxcount`. -/
def mqttDeserializeUnsubscribe (buf : ℕ → UInt8) : Option (ℤ × Option (Subscription MqttString)) :=
  deserializeItems unsubscribe 0 (unsubscribeItem buf) buf

/-- `MQTTPacket_checkVersion`. The name of the protocol is compared as far as it goes. -/
def mqttPacketCheckVersion (protocol : List UInt8) (version : ℕ) : Bool :=
  let name := if version = 3 then (protocolName 3).1 else (protocolName 4).1
  (version == 3 || version == 4) &&
    protocol.take (min name.length protocol.length) = name.take (min name.length protocol.length)

/-- A string that `MQTTDeserialize_connect` reads where at least three bytes must be left. -/
def readCredential (buf : ℕ → UInt8) (curdata enddata : ℕ) : Option (MqttString × ℕ) :=
  if curdata + 3 ≤ enddata then
    (readMqttLenString buf curdata enddata).map fun r => (.ofLenString r.1, r.2)
  else none

/-- The will that `MQTTDeserialize_connect` reads if the flags say that there is one. -/
def readWill (data : WillOptions) (flags : ℕ) (buf : ℕ → UInt8) (curdata enddata : ℕ) :
    Option (WillOptions × ℕ) :=
  if flags / 4 % 2 = 1 then do
    let (topicName, curdata) ← readMqttLenString buf curdata enddata
    let (message, curdata) ← readMqttLenString buf curdata enddata
    some ({ topicName := .ofLenString topicName, message := .ofLenString message,
            retained := flags / 32 % 2, qos := flags / 8 % 4 }, curdata)
  else some (data, curdata)

/-- The user name and the password that `MQTTDeserialize_connect` reads if the flags say
that there are any. A password without a user name is not accepted. -/
def readCredentials (data : ConnectData) (flags : ℕ) (buf : ℕ → UInt8) (curdata enddata : ℕ) :
    Option (MqttString × MqttString) :=
  if flags / 128 % 2 = 1 then do
    let (username, curdata) ← readCredential buf curdata enddata
    if flags / 64 % 2 = 1 then do
      let (password, _) ← readCredential buf curdata enddata
      some (username, password)
    else some (username, data.password)
  else if flags / 64 % 2 = 1 then none
  else some (data.username, data.password)

/-- What `MQTTDeserialize_connect` does behind the length, where data is filled in. -/
def readConnect (data : ConnectData) (buf : ℕ → UInt8) (curdata enddata : ℕ) :
    Option ConnectData := do
  let (protocol, curdata) ← readMqttLenString buf curdata enddata
  if mqttPacketCheckVersion protocol (buf curdata).toNat then do
    let flags := (buf (curdata + 1)).toNat
    let keepAliveInterval := readInt buf (curdata + 2)
    let (clientID, curdata) ← readMqttLenString buf (curdata + 4) enddata
    let (will, curdata) ← readWill data.will flags buf curdata enddata
    let (username, password) ← readCredentials data flags buf curdata enddata
    some { data with
           clientID := .ofLenString clientID, keepAliveInterval, cleansession := flags / 2 % 2,
           willFlag := flags / 4 % 2, will, username, password }
  else none

/-- `MQTTDeserialize_connect`, on a buffer with a number of bytes: the value that it returns,
and the data if all of it is filled in. The version is checked, but not stored. -/
def mqttDeserializeConnect (data : ConnectData) (buf : ℕ → UInt8) (len : ℕ) :
    Option (ℤ × Option ConnectData) :=
  if headerType (buf 0) ≠ connect then some (0, none)
  else do
    let length ← mqttPacketDecodeBuf buf 1
    match readConnect data buf (1 + length.len) len with
    | none => some (0, none)
    | some data => some (1, some data)

/-- `MQTTSerialize_connack`. -/
def mqttSerializeConnack (buf : ℕ → UInt8) (buflen connackRc sessionPresent : ℕ) :
    ℤ × (ℕ → UInt8) :=
  if buflen < 2 then (mqttpacketBufferTooShort, buf)
  else
    let bytes := header connack 0 0 0 :: mqttPacketEncode 2
      ++ (writeChar (sessionPresent % 2 * 128) ++ writeChar connackRc)
    (bytes.length, writeBlock buf 0 bytes)

/-- `MQTTSerialize_suback`. -/
def mqttSerializeSuback (buf : ℕ → UInt8) (buflen packetid : ℕ) (grantedQoSs : List ℕ) :
    ℤ × (ℕ → UInt8) :=
  if buflen < 2 + grantedQoSs.length then (mqttpacketBufferTooShort, buf)
  else
    let bytes := header suback 0 0 0 :: mqttPacketEncode (2 + grantedQoSs.length)
      ++ (writeInt packetid ++ grantedQoSs.flatMap writeChar)
    (bytes.length, writeBlock buf 0 bytes)

/-- `MQTTSerialize_unsuback`. -/
def mqttSerializeUnsuback (buf : ℕ → UInt8) (buflen packetid : ℕ) : ℤ × (ℕ → UInt8) :=
  if buflen < 2 then (mqttpacketBufferTooShort, buf)
  else
    let bytes := header unsuback 0 0 0 :: mqttPacketEncode 2 ++ writeInt packetid
    (bytes.length, writeBlock buf 0 bytes)

end WifiMcu.Mqtt
