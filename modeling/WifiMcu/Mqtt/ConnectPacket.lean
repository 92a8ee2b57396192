import WifiMcu.Mqtt.RoundTrip

/-!
# CONNECT packets

The flags of a CONNECT packet say which of its strings are there. The other side reads
them in the same order, but it does not take a password without a user name, nor an
empty string at the end.
-/

namespace WifiMcu.Mqtt

open Memory

/-- A user name or a password that is given is not the empty string at the end of the
packet, and a password comes with a user name. -/
def ConnectData.Acceptable (options : ConnectData) : Prop :=
  (options.username.isGiven → options.username.text ≠ [] ∨ options.password.isGiven) ∧
    (options.password.isGiven → options.username.isGiven ∧ options.password.text ≠ [])

instance (options : ConnectData) : Decidable options.Acceptable :=
  inferInstanceAs (Decidable (_ ∧ _))

/-- The will of some options as the other side sees it. -/
def ConnectData.receivedWill (options : ConnectData) (data : WillOptions) : WillOptions :=
  if options.willFlag ≠ 0 then
    { topicName := .ofLenString options.will.topicName.text
      message := .ofLenString options.will.message.text
      retained := options.will.retained % 2
      qos := options.will.qos % 4 }
  else data

/-- A string as the other side sees it, if it is given. -/
def MqttString.received (s data : MqttString) : MqttString :=
  if s.isGiven then .ofLenString s.text else data

/-- Some options as the other side sees them, which fills them into its own data. -/
def ConnectData.received (options data : ConnectData) : ConnectData where
  mqttVersion := data.mqttVersion
  clientID := .ofLenString options.clientID.text
  keepAliveInterval := options.keepAliveInterval
  cleansession := options.cleansession % 2
  willFlag := if options.willFlag ≠ 0 then 1 else 0
  will := options.receivedWill data.will
  username := options.username.received data.username
  password := options.password.received data.password

/-- The flags of a CONNECT packet are a byte, and each of them is found where it was put. -/
theorem connectFlags_fields (username password willRetain willQoS will cleansession : ℕ) :
    let flags := connectFlags username password willRetain willQoS will cleansession
    flags < 256 ∧ flags / 128 % 2 = username % 2 ∧ flags / 64 % 2 = password % 2 ∧
      flags / 32 % 2 = willRetain % 2 ∧ flags / 8 % 4 = willQoS % 4 ∧ flags / 4 % 2 = will % 2 ∧
      flags / 2 % 2 = cleansession % 2 := by
  intro flags
  have hflags : flags = username % 2 * 128 + password % 2 * 64 + willRetain % 2 * 32 +
      willQoS % 4 * 8 + will % 2 * 4 + cleansession % 2 * 2 := rfl
  omega

/-- The flag of a string is set exactly if it is given. -/
theorem flag_eq_one_iff (b : Bool) : b.toNat % 2 = 1 ↔ b = true := by
  cases b <;> decide

/-- The will is read as it was written. -/
theorem readWill_of_holds {buf : ℕ → UInt8} {options : ConnectData} {i enddata : ℕ}
    (htopic : options.will.topicName.text.length < 65536)
    (hmessage : options.will.message.text.length < 65536)
    (hholds : Holds buf i (if options.willFlag ≠ 0 then
      writeMqttString options.will.topicName ++ writeMqttString options.will.message else []))
    (hfits : i + (if options.willFlag ≠ 0 then writeMqttString options.will.topicName ++
      writeMqttString options.will.message else []).length ≤ enddata) (data : WillOptions) :
    readWill data options.flags buf i enddata =
      some (options.receivedWill data, i + (if options.willFlag ≠ 0 then
        writeMqttString options.will.topicName ++ writeMqttString options.will.message
          else []).length) := by
  obtain ⟨-, -, -, hretain, hqos, hwill, -⟩ :=
    connectFlags_fields options.username.isGiven.toNat options.password.isGiven.toNat
      (if options.willFlag ≠ 0 then options.will.retained else 0)
      (if options.willFlag ≠ 0 then options.will.qos else 0)
      (if options.willFlag ≠ 0 then 1 else 0) options.cleansession
  rw [← ConnectData.flags] at hretain hqos hwill
  rw [readWill, hretain, hqos, hwill, ConnectData.receivedWill]
  by_cases hflag : options.willFlag ≠ 0
  · simp only [if_pos hflag] at hholds hfits ⊢
    obtain ⟨hfirst, hsecond⟩ := holds_append.mp hholds
    rw [List.length_append] at hfits ⊢
    rw [if_pos (by decide), readMqttLenString_of_holds htopic hfirst (by omega),
      Option.bind_eq_bind, Option.bind_some]
    dsimp only
    rw [readMqttLenString_of_holds hmessage hsecond (by omega), Option.bind_some, Nat.add_assoc]
  · simp only [if_neg hflag]
    rw [if_neg (by decide)]
    rfl

/-- A user name or a password is read if three bytes are left. -/
theorem readCredential_of_holds {buf : ℕ → UInt8} {s : MqttString} {i enddata : ℕ}
    (hs : s.text.length < 65536) (hholds : Holds buf i (writeMqttString s))
    (hfits : i + (writeMqttString s).length ≤ enddata) :
    readCredential buf i enddata = if i + 3 ≤ enddata then
      some (.ofLenString s.text, i + (writeMqttString s).length) else none := by
  rw [readCredential, readMqttLenString_of_holds hs hholds hfits]
  rfl

/-- The user name and the password are read up to the end of the packet exactly if they are
acceptable. -/
theorem readCredentials_of_holds {buf : ℕ → UInt8} {options : ConnectData} {i enddata : ℕ}
    (huser : options.username.text.length < 65536)
    (hpassword : options.password.text.length < 65536)
    (hholds : Holds buf i ((if options.username.isGiven then writeMqttString options.username
      else []) ++ (if options.password.isGiven then writeMqttString options.password else [])))
    (hend : i + ((if options.username.isGiven then writeMqttString options.username
      else []) ++ (if options.password.isGiven then writeMqttString options.password
        else [])).length = enddata) (data : ConnectData) :
    readCredentials data options.flags buf i enddata = if options.Acceptable then
      some (options.username.received data.username, options.password.received data.password)
      else none := by
  obtain ⟨-, husername, hpassword', -, -, -, -⟩ :=
    connectFlags_fields options.username.isGiven.toNat options.password.isGiven.toNat
      (if options.willFlag ≠ 0 then options.will.retained else 0)
      (if options.willFlag ≠ 0 then options.will.qos else 0)
      (if options.willFlag ≠ 0 then 1 else 0) options.cleansession
  rw [← ConnectData.flags] at husername hpassword'
  have hnonempty (s : MqttString) : s.text ≠ [] ↔ 3 ≤ (writeMqttString s).length := by
    rw [length_writeMqttString, ← List.length_pos_iff]
    omega
  simp only [readCredentials, husername, hpassword', flag_eq_one_iff, ConnectData.Acceptable,
    MqttString.received, hnonempty]
  obtain ⟨hfirst, hsecond⟩ := holds_append.mp hholds
  rw [List.length_append] at hend
  by_cases hu : options.username.isGiven = true
  · simp only [if_pos hu] at hfirst hsecond hend ⊢
    rw [readCredential_of_holds huser hfirst (by omega)]
    by_cases hp : options.password.isGiven = true
    · have hlength := length_writeMqttString options.username
      have hlength' := length_writeMqttString options.password
      simp only [if_pos hp] at hsecond hend ⊢
      have hfits : i + (writeMqttString options.username).length +
          (writeMqttString options.password).length ≤ enddata := by omega
      have hread := readCredential_of_holds hpassword hsecond hfits
      rw [if_pos (by omega), Option.bind_eq_bind, Option.bind_some]
      dsimp only
      rw [hread]
      by_cases hthree : 3 ≤ (writeMqttString options.password).length
      · rw [if_pos (by omega), if_pos ⟨fun _ => Or.inr hp, fun _ => ⟨hu, hthree⟩⟩]
        rfl
      · rw [if_neg (by omega), if_neg (fun h => hthree (h.2 hp).2)]
        rfl
    · simp only [if_neg hp, List.length_nil] at hend ⊢
      by_cases hthree : 3 ≤ (writeMqttString options.username).length
      · rw [if_pos (by omega), if_pos ⟨fun _ => Or.inl hthree, fun h => absurd h hp⟩]
        rfl
      · rw [if_neg (by omega), if_neg (fun h => (h.1 hu).elim hthree hp)]
        rfl
  · simp only [if_neg hu]
    by_cases hp : options.password.isGiven = true
    · rw [if_pos hp, if_neg (fun h => hu (h.2 hp).1)]
    · rw [if_neg hp, if_pos ⟨fun h => absurd h hu, fun h => absurd h hp⟩, if_neg hp]

/-- Every string of some options is short enough for its length to be written. -/
def ConnectData.Short (options : ConnectData) : Prop :=
  ∀ s ∈ (Request.connect options).strings, s.text.length < 65536

/-- Both names of the protocol are recognized with their versions. -/
theorem checkVersion_protocolName (mqttVersion : ℕ) :
    mqttPacketCheckVersion (protocolName mqttVersion).1 (protocolName mqttVersion).2 = true := by
  rw [protocolName]
  split_ifs <;> decide

/-- The name of the protocol is read and recognized. -/
theorem protocolName_of_holds {buf : ℕ → UInt8} {i enddata mqttVersion : ℕ}
    (hholds : Holds buf i (writeCString (protocolName mqttVersion).1))
    (hfits : i + (writeCString (protocolName mqttVersion).1).length ≤ enddata) :
    readMqttLenString buf i enddata = some ((protocolName mqttVersion).1,
      i + (writeCString (protocolName mqttVersion).1).length) := by
  have hshort : (protocolName mqttVersion).1.length < 65536 := by
    rw [protocolName]
    split_ifs <;> decide
  exact readMqttLenString_of_holds (s := .ofCString (protocolName mqttVersion).1) hshort hholds hfits

/-- The fields of a CONNECT packet are read up to its end exactly if the user name and the
password are acceptable. -/
theorem readConnect_of_holds {buf : ℕ → UInt8} {options : ConnectData} {i enddata : ℕ}
    (hshort : options.Short) (hkeepAlive : options.keepAliveInterval < 65536)
    (hholds : Holds buf i (connectBody options))
    (hend : i + (connectBody options).length = enddata) (data : ConnectData) :
    readConnect data buf i enddata =
      if options.Acceptable then some (options.received data) else none := by
  obtain ⟨hflags, -, -, -, -, hwillFlag, hclean⟩ :=
    connectFlags_fields options.username.isGiven.toNat options.password.isGiven.toNat
      (if options.willFlag ≠ 0 then options.will.retained else 0)
      (if options.willFlag ≠ 0 then options.will.qos else 0)
      (if options.willFlag ≠ 0 then 1 else 0) options.cleansession
  rw [← ConnectData.flags] at hflags hwillFlag hclean
  have hbit : (if options.willFlag ≠ 0 then 1 else 0) % 2 = if options.willFlag ≠ 0 then 1 else 0 := by
    split_ifs <;> rfl
  rw [hbit] at hwillFlag
  have hbyte : (protocolName options.mqttVersion).2 < 256 := by
    rw [protocolName]
    split_ifs <;> decide
  -- the fields lie one behind the other
  simp only [connectBody, List.append_assoc] at hholds hend
  obtain ⟨hprotocol, hholds⟩ := holds_append.mp hholds
  obtain ⟨hversion, hholds⟩ := holds_append.mp hholds
  obtain ⟨hflagByte, hholds⟩ := holds_append.mp hholds
  obtain ⟨hinterval, hholds⟩ := holds_append.mp hholds
  obtain ⟨hclient, hholds⟩ := holds_append.mp hholds
  obtain ⟨hwill, hcredentials⟩ := holds_append.mp hholds
  simp only [List.length_append] at hend
  have hone (c : ℕ) : (writeChar c).length = 1 := rfl
  have htwo := length_writeInt options.keepAliveInterval
  simp only [hone, htwo] at hend hflagByte hinterval hclient hwill hcredentials
  rw [readConnect, protocolName_of_holds hprotocol (by omega), Option.bind_eq_bind,
    Option.bind_some]
  dsimp only
  rw [readChar_of_holds hbyte hversion, checkVersion_protocolName, if_pos rfl,
    readChar_of_holds hflags hflagByte, readInt_of_holds hkeepAlive hinterval,
    readMqttLenString_of_holds (hshort _ (by simp [Request.strings])) hclient (by omega),
    Option.bind_eq_bind, Option.bind_some]
  dsimp only
  rw [readWill_of_holds (hshort _ (by simp [Request.strings]))
    (hshort _ (by simp [Request.strings])) hwill (by omega), Option.bind_some]
  dsimp only
  rw [readCredentials_of_holds (hshort _ (by simp [Request.strings]))
    (hshort _ (by simp [Request.strings])) hcredentials (by rw [List.length_append]; omega),
    hclean, hwillFlag]
  by_cases hacceptable : options.Acceptable
  · rw [if_pos hacceptable, if_pos hacceptable]
    rfl
  · rw [if_neg hacceptable, if_neg hacceptable]
    rfl

/-- **CONNECT packets.** What `MQTTSerialize_connect` has written for some options is
accepted by `MQTTDeserialize_connect` exactly if the user name and the password are
acceptable, and then it is read as these options. -/
theorem connect_roundTrip {buf buf' : ℕ → UInt8} {buflen : ℕ} {options : ConnectData} {rc : ℤ}
    (hsound : ∀ s ∈ (Request.connect options).strings, s.Sound) (hshort : options.Short)
    (hversion : options.mqttVersion = 3 ∨ options.mqttVersion = 4)
    (hkeepAlive : options.keepAliveInterval < 65536)
    (hsmall : (connectBody options).length < 128 ^ 4)
    (h : mqttSerializeConnect buf buflen options = (rc, buf')) (hrc : 0 < rc) (data : ConnectData) :
    mqttDeserializeConnect data buf' rc.toNat =
      some (if options.Acceptable then (1, some (options.received data)) else (0, none)) := by
  obtain ⟨hlength, hholds⟩ := holds_of_serialize (r := .connect options) hsound hversion hsmall h hrc
  obtain ⟨hheader, hdecode, hfields⟩ := packet_of_holds hholds
  have hfirst : buf' 0 = header connect 0 0 0 := hheader
  obtain ⟨htype, -⟩ := header_fields 0 0 0 (show connect < 16 by decide)
  have hend : 1 + ((Request.connect options).packet hsmall).length.length +
      (connectBody options).length = rc.toNat := by
    rw [hlength, Int.toNat_natCast, Packet.length_bytes]
    rfl
  have hread := readConnect_of_holds hshort hkeepAlive hfields hend data
  rw [mqttDeserializeConnect, hfirst, if_neg (not_not_intro htype), hdecode, Option.bind_eq_bind,
    Option.bind_some, hread]
  split_ifs <;> rfl

/-- A user name with an empty password is not accepted. -/
theorem connect_roundTrip_empty :
    mqttDeserializeConnect .initializer (writeBlock (fun _ => 0) 0
      [0x10, 18, 0, 4, 0x4D, 0x51, 0x54, 0x54, 4, 0xC2, 0, 60, 0, 1, 0x63, 0, 1, 0x75, 0, 0]) 20 =
      some (0, none) := by
  let options : ConnectData := { ConnectData.initializer with
    clientID := .ofCString [0x63], username := .ofCString [0x75], password := .ofCString [] }
  have hbytes : header connect 0 0 0 :: UInt8.ofNat (mqttSerializeConnectLength options) ::
      connectBody options = [0x10, 18, 0, 4, 0x4D, 0x51, 0x54, 0x54, 4, 0xC2, 0, 60, 0, 1, 0x63,
        0, 1, 0x75, 0, 0] := by decide
  have h : mqttSerializeConnect (fun _ => 0) 32 options = (20, writeBlock (fun _ => 0) 0
      [0x10, 18, 0, 4, 0x4D, 0x51, 0x54, 0x54, 4, 0xC2, 0, 60, 0, 1, 0x63, 0, 1, 0x75, 0, 0]) := by
    rw [mqttSerializeConnect, serializePacket_of_short (by decide) (by decide), hbytes]
    rfl
  have hshort : options.Short := by
    show ∀ s ∈ (Request.connect options).strings, s.text.length < 65536
    decide
  exact connect_roundTrip (by decide) hshort (by decide) (by decide) (by decide) h (by decide)
    .initializer

end WifiMcu.Mqtt
