import WifiMcu.Mqtt.Deserialize

/-!
# Round trips

What a serializer has written, the deserializer on the other side reads back: the
flags of the header byte, the packet identifier, the strings and the payload. What is
behind the packet in the buffer makes no difference.
-/

namespace WifiMcu.Mqtt

open Memory Wire

/-- The bits of a header byte. -/
theorem header_fields {type : ℕ} (dup qos retain : ℕ) (htype : type < 16) :
    headerType (header type dup qos retain) = type ∧
      headerDup (header type dup qos retain) = dup % 2 ∧
      headerQos (header type dup qos retain) = qos % 4 ∧
      headerRetain (header type dup qos retain) = retain % 2 := by
  have hbyte : (header type dup qos retain).toNat =
      type % 16 * 16 + dup % 2 * 8 + qos % 4 * 2 + retain % 2 := by
    rw [header, UInt8.toNat_ofNat']
    omega
  rw [headerType, headerDup, headerQos, headerRetain, hbyte]
  omega

/-- The loop that decodes a length reads the bytes up to the last one. -/
theorem decodeLoop_of_holds {buf : ℕ → UInt8} {bs : List UInt8} {start remaining : ℕ}
    (hbs : Base128.Terminated bs) (hremaining : bs.length ≤ remaining)
    (hholds : Holds buf start bs) (len multiplier value : ℕ) :
    decodeLoop (fun i => some (1, buf i, i + 1)) remaining len multiplier value start =
      some ⟨value + multiplier * Base128.value bs, len + bs.length, start + bs.length⟩ := by
  induction bs generalizing start remaining len multiplier value with
  | nil => cases hbs
  | cons b bs ih =>
    obtain ⟨remaining, rfl⟩ : ∃ k, remaining = k + 1 :=
      ⟨remaining - 1, by rw [List.length_cons] at hremaining; omega⟩
    rw [List.length_cons] at hremaining
    obtain ⟨hfirst, hothers⟩ := holds_cons.mp hholds
    have hand : b.toNat &&& 127 = b.toNat % 128 := Nat.and_two_pow_sub_one_eq_mod b.toNat 7
    have hbit := and_128_ne_zero_iff b
    rw [decodeLoop]
    dsimp only
    rw [if_neg (by decide), hfirst, hand]
    cases bs with
    | nil =>
      have hlast : b.toNat < 128 := hbs
      rw [if_neg (by rw [hbit]; omega)]
      simp [Base128.value, Nat.mul_comm]
    | cons c bs =>
      have hlength := Nat.le_of_succ_le_succ hremaining
      rw [if_pos (hbit.mpr (Nat.not_lt.mpr hbs.1)), ih hbs.2 hlength hothers,
        Base128.value_cons b]
      congr 2
      · rw [Nat.mul_add, Nat.mul_comm (b.toNat % 128), Nat.mul_assoc, Nat.add_assoc]
      · rw [List.length_cons, List.length_cons, List.length_cons]
        omega
      · rw [List.length_cons, List.length_cons, List.length_cons]
        omega

/-- What a packet looks like in the buffer: the header byte, the length, and the fields. -/
theorem packet_of_holds {buf : ℕ → UInt8} {p : Packet} (hholds : Holds buf 0 p.bytes) :
    buf 0 = p.header ∧
      mqttPacketDecodeBuf buf 1 = some ⟨p.body.length, p.length.length, 1 + p.length.length⟩ ∧
      Holds buf (1 + p.length.length) p.body := by
  obtain ⟨hheader, hbehind⟩ := holds_cons.mp hholds
  obtain ⟨hlength, hbody⟩ := holds_append.mp hbehind
  rw [Nat.zero_add] at hlength hbody
  have hfour : p.length.length ≤ 4 := Base128.length_encode_le (k := 3) p.small
  have hvalue : Base128.value p.length = p.body.length := Base128.value_encode _
  refine ⟨hheader, ?_, hbody⟩
  rw [mqttPacketDecodeBuf, decodeLoop_of_holds p.terminated_length hfour hlength, hvalue,
    Nat.zero_add, Nat.one_mul, Nat.zero_add]

/-- A byte that has been written is read back. -/
theorem readChar_of_holds {buf : ℕ → UInt8} {i c : ℕ} (hc : c < 256)
    (hholds : Holds buf i (writeChar c)) : (buf i).toNat = c := by
  rw [(holds_cons.mp hholds).1, UInt8.toNat_ofNat', Nat.mod_eq_of_lt hc]

/-- An integer that has been written is read back. -/
theorem readInt_of_holds {buf : ℕ → UInt8} {i n : ℕ} (hn : n < 65536)
    (hholds : Holds buf i (writeInt n)) : readInt buf i = n := by
  obtain ⟨hhigh, hlow⟩ := holds_cons.mp hholds
  rw [readInt, hhigh, (holds_cons.mp hlow).1, UInt8.toNat_ofNat', UInt8.toNat_ofNat']
  omega

/-- The number of bytes that a string takes. -/
theorem length_writeMqttString (s : MqttString) :
    (writeMqttString s).length = s.text.length + 2 := by
  rw [writeMqttString_eq, List.length_append, length_writeInt, Nat.add_comm]

/-- A string that has been written before the end of the data is read back. -/
theorem readMqttLenString_of_holds {buf : ℕ → UInt8} {i enddata : ℕ} {s : MqttString}
    (hs : s.text.length < 65536) (hholds : Holds buf i (writeMqttString s))
    (hfits : i + (writeMqttString s).length ≤ enddata) :
    readMqttLenString buf i enddata = some (s.text, i + (writeMqttString s).length) := by
  rw [length_writeMqttString] at hfits ⊢
  rw [writeMqttString_eq] at hholds
  obtain ⟨hlength, htext⟩ := holds_append.mp hholds
  rw [length_writeInt] at htext
  have hread := readInt_of_holds hs hlength
  rw [readMqttLenString, if_pos (by omega), hread, if_pos (by omega), htext]
  congr 2
  omega

/-- The packet of a request lies in the buffer after the serializer has returned a number of
bytes. -/
theorem holds_of_serialize {r : Request} {buf buf' : ℕ → UInt8} {buflen : ℕ} {rc : ℤ}
    (hsound : ∀ s ∈ r.strings, s.Sound) (hversion : r.versionKnown)
    (hsmall : r.body.length < 128 ^ 4) (h : r.serialize buf buflen = (rc, buf')) (hrc : 0 < rc) :
    rc = (r.packet hsmall).bytes.length ∧ Holds buf' 0 (r.packet hsmall).bytes := by
  rw [request_serialize_eq hsound hversion hsmall] at h
  split_ifs at h
  · obtain ⟨rfl, -⟩ := Prod.mk.inj h
    cases hrc
  · obtain ⟨rfl, rfl⟩ := Prod.mk.inj h
    exact ⟨rfl, holds_writeBlock _ _ _⟩

/-- A message has the given flags and packet identifier, and its payload is in the
buffer. -/
structure Message.Carries (m : Message) (buf : ℕ → UInt8) (dup qos retained : ℕ) (id : Option ℕ)
    (payload : List UInt8) : Prop where
  dup : m.dup = dup
  qos : m.qos = qos
  retained : m.retained = retained
  id : m.id = id
  payloadlen : m.payloadlen = payload.length
  payload : Holds buf m.payload payload

/-- A PUBLISH packet in the buffer is read as the message that it was written for. -/
theorem mqttDeserializePublish_of_holds {buf : ℕ → UInt8} {dup qos retained packetid : ℕ}
    {topicName : MqttString} {payload : List UInt8} {p : Packet}
    (hheader : p.header = header publish dup qos retained)
    (hbody : p.body = publishBody qos packetid topicName payload) (hqos : qos < 4)
    (hid : packetid < 65536) (htopic : topicName.text.length < 65536)
    (hholds : Holds buf 0 p.bytes) :
    ∃ m : Message, mqttDeserializePublish buf = some (1, some (topicName.text, m)) ∧
      m.Carries buf (dup % 2) qos (retained % 2) (if qos > 0 then some packetid else none)
        payload := by
  obtain ⟨hfirst, hdecode, hfields⟩ := packet_of_holds hholds
  obtain ⟨htype, hdup, hqos', hretain⟩ :=
    header_fields dup qos retained (show publish < 16 by decide)
  rw [← hheader, ← hfirst] at htype hdup hqos' hretain
  rw [Nat.mod_eq_of_lt hqos] at hqos'
  rw [hbody, publishBody, List.append_assoc] at hfields
  obtain ⟨hname, hbehind⟩ := holds_append.mp hfields
  obtain ⟨hidentifier, hpayload⟩ := holds_append.mp hbehind
  have hlength := congrArg List.length hbody
  rw [publishBody, List.length_append, List.length_append] at hlength
  have hfits : 1 + p.length.length + (writeMqttString topicName).length ≤
      1 + p.length.length + p.body.length := by omega
  have hread := readMqttLenString_of_holds htopic hname hfits
  rw [mqttDeserializePublish, if_neg (not_not_intro htype), hdecode, Option.bind_eq_bind,
    Option.bind_some]
  dsimp only
  rw [hread]
  dsimp only
  refine ⟨_, rfl, hdup, hqos', hretain, ?_, ?_, ?_⟩
  · dsimp only
    rw [hqos']
    split_ifs at hidentifier ⊢ with hpos
    · rw [readInt_of_holds hid hidentifier]
    · rfl
  · dsimp only
    rw [hqos']
    split_ifs at hlength ⊢ with hpos
    · rw [length_writeInt] at hlength
      omega
    · rw [List.length_nil] at hlength
      omega
  · dsimp only
    rw [hqos']
    split_ifs at hpayload ⊢ with hpos
    · exact hpayload
    · exact hpayload

/-- **PUBLISH packets.** What `MQTTSerialize_publish` has written for a message,
`MQTTDeserialize_publish` reads as a message with the same topic, flags, packet
identifier and payload. -/
theorem publish_roundTrip {buf buf' : ℕ → UInt8} {buflen dup qos retained packetid : ℕ}
    {topicName : MqttString} {payload : List UInt8} {rc : ℤ} (hqos : qos < 4)
    (hid : packetid < 65536) (hsound : topicName.Sound) (htopic : topicName.text.length < 65536)
    (hsmall : (publishBody qos packetid topicName payload).length < 128 ^ 4)
    (h : mqttSerializePublish buf buflen dup qos retained packetid topicName payload = (rc, buf'))
    (hrc : 0 < rc) :
    ∃ m : Message, mqttDeserializePublish buf' = some (1, some (topicName.text, m)) ∧
      m.Carries buf' (dup % 2) qos (retained % 2) (if qos > 0 then some packetid else none)
        payload := by
  have hstrings : ∀ s ∈ (Request.publish dup qos retained packetid topicName payload).strings,
      s.Sound := by
    intro s hs
    rw [List.mem_singleton.mp hs]
    exact hsound
  obtain ⟨-, hholds⟩ := holds_of_serialize hstrings trivial hsmall h hrc
  exact mqttDeserializePublish_of_holds rfl rfl hqos hid htopic hholds

/-- A retained message of one byte with QoS 1. -/
theorem publish_roundTrip_single :
    ∃ m : Message, mqttDeserializePublish
        (writeBlock (fun _ => 0) 0 [0x33, 6, 0, 1, 0x61, 0, 7, 0x68]) =
          some (1, some ([0x61], m)) ∧
      m.Carries (writeBlock (fun _ => 0) 0 [0x33, 6, 0, 1, 0x61, 0, 7, 0x68]) 0 1 1
        (some 7) [0x68] := by
  have h : mqttSerializePublish (fun _ => 0) 16 0 1 1 7 (.ofCString [0x61]) [0x68] =
      (8, writeBlock (fun _ => 0) 0 [0x33, 6, 0, 1, 0x61, 0, 7, 0x68]) :=
    serializePacket_of_short (by decide) (by decide)
  exact publish_roundTrip (by decide) (by decide) (by decide) (by decide) (by decide) h (by decide)

/-- The items of a request in the buffer are read as they were written. -/
theorem deserializeItems_of_holds {α β : Type} {buf : ℕ → UInt8} {p : Packet}
    {type dup packetid : ℕ} {wrong : ℤ} {item : ℕ → Reader α} {write : β → List UInt8}
    {read : β → α} {items : List β} (htype : type < 16)
    (hheader : p.header = header type dup 1 0)
    (hbody : p.body = writeInt packetid ++ items.flatMap write) (hid : packetid < 65536)
    (hitem : ∀ b ∈ items, ∀ stop, (item stop).Understands stop buf write read b)
    (hholds : Holds buf 0 p.bytes) :
    deserializeItems type wrong item buf =
      some (1, some ⟨dup % 2, packetid, items.map read⟩) := by
  obtain ⟨hfirst, hdecode, hfields⟩ := packet_of_holds hholds
  obtain ⟨htype', hdup, -, -⟩ := header_fields dup 1 0 htype
  rw [← hheader, ← hfirst] at htype' hdup
  have hlength := congrArg List.length hbody
  rw [List.length_append, length_writeInt] at hlength
  rw [hbody] at hfields
  obtain ⟨hidentifier, hitems⟩ := holds_append.mp hfields
  rw [length_writeInt] at hitems
  have hall := (item (1 + p.length.length + p.body.length)).readAll_flatMap
    (fun b hb => hitem b hb _) hitems (by omega)
  rw [deserializeItems, if_neg (not_not_intro htype'), hdecode, Option.bind_eq_bind,
    Option.bind_some]
  dsimp only
  rw [hall, readInt_of_holds hid hidentifier, hdup]
  rfl

/-- A topic filter with its QoS is understood. -/
theorem subscribeItem_understands {buf : ℕ → UInt8} {topic : MqttString × ℕ} (stop : ℕ)
    (hlength : topic.1.text.length < 65536) (hqos : topic.2 < 256) :
    (subscribeItem buf stop).Understands stop buf
      (fun topic : MqttString × ℕ => writeMqttString topic.1 ++ writeChar topic.2)
      (fun topic => (.ofLenString topic.1.text, topic.2)) topic := by
  intro i hholds hfits
  obtain ⟨hstring, hchar⟩ := holds_append.mp hholds
  rw [List.length_append, writeChar, List.length_singleton] at hfits
  have hstop : i + (writeMqttString topic.1).length ≤ stop := by omega
  have hread := readMqttLenString_of_holds hlength hstring hstop
  dsimp only [subscribeItem]
  rw [hread]
  dsimp only
  rw [if_neg (by omega), readChar_of_holds hqos hchar, List.length_append, writeChar,
    List.length_singleton, Nat.add_assoc]

/-- A topic filter is understood. -/
theorem unsubscribeItem_understands {buf : ℕ → UInt8} {topic : MqttString} (stop : ℕ)
    (hlength : topic.text.length < 65536) :
    (unsubscribeItem buf stop).Understands stop buf writeMqttString
      (fun topic => .ofLenString topic.text) topic := by
  intro i hholds hfits
  show (readMqttLenString buf i stop).map _ = _
  rw [readMqttLenString_of_holds hlength hholds hfits]
  rfl

/-- **SUBSCRIBE packets.** What `MQTTSerialize_subscribe` has written for any number of topic
filters, `MQTTDeserialize_subscribe` reads: the same filters in the same order, each with
the QoS requested for it. -/
theorem subscribe_roundTrip {buf buf' : ℕ → UInt8} {buflen dup packetid : ℕ}
    {topicFilters : List (MqttString × ℕ)} {rc : ℤ} (hid : packetid < 65536)
    (htopics : ∀ topic ∈ topicFilters,
      topic.1.Sound ∧ topic.1.text.length < 65536 ∧ topic.2 < 256)
    (hsmall : (subscribeBody packetid topicFilters).length < 128 ^ 4)
    (h : mqttSerializeSubscribe buf buflen dup packetid topicFilters = (rc, buf')) (hrc : 0 < rc) :
    mqttDeserializeSubscribe buf' = some (1, some ⟨dup % 2, packetid,
      topicFilters.map fun topic => (.ofLenString topic.1.text, topic.2)⟩) := by
  have hstrings : ∀ s ∈ (Request.subscribe dup packetid topicFilters).strings, s.Sound := by
    intro s hs
    obtain ⟨topic, htopic, rfl⟩ := List.mem_map.mp hs
    exact (htopics topic htopic).1
  obtain ⟨-, hholds⟩ := holds_of_serialize hstrings trivial hsmall h hrc
  refine deserializeItems_of_holds (by decide) rfl rfl hid ?_ hholds
  intro topic htopic stop
  obtain ⟨-, hlength, hqos⟩ := htopics topic htopic
  exact subscribeItem_understands stop hlength hqos

/-- Two topic filters, one of each kind of string. -/
theorem subscribe_roundTrip_two :
    mqttDeserializeSubscribe (writeBlock (fun _ => 0) 0
      [0x82, 10, 0, 5, 0, 1, 0x61, 1, 0, 1, 0x62, 2]) =
        some (1, some ⟨0, 5, [(.ofLenString [0x61], 1), (.ofLenString [0x62], 2)]⟩) := by
  have h : mqttSerializeSubscribe (fun _ => 0) 16 0 5
      [(.ofCString [0x61], 1), (.ofLenString [0x62], 2)] =
        (12, writeBlock (fun _ => 0) 0 [0x82, 10, 0, 5, 0, 1, 0x61, 1, 0, 1, 0x62, 2]) :=
    serializePacket_of_short (by decide) (by decide)
  exact subscribe_roundTrip (by decide) (by decide) (by decide) h (by decide)

/-- **UNSUBSCRIBE packets.** What `MQTTSerialize_unsubscribe` has written for any number of
topic filters, `MQTTDeserialize_unsubscribe` reads. -/
theorem unsubscribe_roundTrip {buf buf' : ℕ → UInt8} {buflen dup packetid : ℕ}
    {topicFilters : List MqttString} {rc : ℤ} (hid : packetid < 65536)
    (htopics : ∀ topic ∈ topicFilters, topic.Sound ∧ topic.text.length < 65536)
    (hsmall : (unsubscribeBody packetid topicFilters).length < 128 ^ 4)
    (h : mqttSerializeUnsubscribe buf buflen dup packetid topicFilters = (rc, buf'))
    (hrc : 0 < rc) :
    mqttDeserializeUnsubscribe buf' = some (1, some ⟨dup % 2, packetid,
      topicFilters.map fun topic => .ofLenString topic.text⟩) := by
  have hstrings : ∀ s ∈ (Request.unsubscribe dup packetid topicFilters).strings, s.Sound :=
    fun s hs => (htopics s hs).1
  obtain ⟨-, hholds⟩ := holds_of_serialize hstrings trivial hsmall h hrc
  refine deserializeItems_of_holds (by decide) rfl rfl hid ?_ hholds
  intro topic htopic stop
  exact unsubscribeItem_understands stop (htopics topic htopic).2

/-- Two topic filters, one of each kind of string. -/
theorem unsubscribe_roundTrip_two :
    mqttDeserializeUnsubscribe (writeBlock (fun _ => 0) 0
      [0xA2, 8, 0, 5, 0, 1, 0x61, 0, 1, 0x62]) =
        some (1, some ⟨0, 5, [.ofLenString [0x61], .ofLenString [0x62]]⟩) := by
  have h : mqttSerializeUnsubscribe (fun _ => 0) 16 0 5
      [.ofCString [0x61], .ofLenString [0x62]] =
        (10, writeBlock (fun _ => 0) 0 [0xA2, 8, 0, 5, 0, 1, 0x61, 0, 1, 0x62]) :=
    serializePacket_of_short (by decide) (by decide)
  exact unsubscribe_roundTrip (by decide) (by decide) (by decide) h (by decide)

end WifiMcu.Mqtt
