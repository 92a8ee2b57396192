import WifiMcu.Mqtt.RoundTrip

/-!
# Answers

The answers to the requests have few fields, and their serializers compare the size of
the buffer with a number of bytes that is written into them. For the answers that only
a server sends, it is the number of bytes behind the header byte and the length.
-/

namespace WifiMcu.Mqtt

open Memory

/-- The answers, and the packets without fields. -/
inductive Reply
  | ack (packettype dup packetid : ℕ)
  | zero (packettype : ℕ)
  | connack (connackRc sessionPresent : ℕ)
  | suback (packetid : ℕ) (grantedQoSs : List ℕ)
  | unsuback (packetid : ℕ)

namespace Reply

/-- The serializer of an answer: the value that it returns, and the buffer after it. -/
def serialize (buf : ℕ → UInt8) (buflen : ℕ) : Reply → ℤ × (ℕ → UInt8)
  | ack packettype dup packetid => mqttSerializeAck buf buflen packettype dup packetid
  | zero packettype => mqttSerializeZero buf buflen packettype
  | connack connackRc sessionPresent => mqttSerializeConnack buf buflen connackRc sessionPresent
  | suback packetid grantedQoSs => mqttSerializeSuback buf buflen packetid grantedQoSs
  | unsuback packetid => mqttSerializeUnsuback buf buflen packetid

/-- The header byte of an answer. -/
def header : Reply → UInt8
  | ack packettype dup _ => Mqtt.header packettype dup (if packettype = pubrel then 1 else 0) 0
  | zero packettype => Mqtt.header packettype 0 0 0
  | connack _ _ => Mqtt.header Mqtt.connack 0 0 0
  | suback _ _ => Mqtt.header Mqtt.suback 0 0 0
  | unsuback _ => Mqtt.header Mqtt.unsuback 0 0 0

/-- The fields of an answer. -/
def body : Reply → List UInt8
  | ack _ _ packetid => writeInt packetid
  | zero _ => []
  | connack connackRc sessionPresent => writeChar (sessionPresent % 2 * 128) ++ writeChar connackRc
  | suback packetid grantedQoSs => writeInt packetid ++ grantedQoSs.flatMap writeChar
  | unsuback packetid => writeInt packetid

/-- The number of bytes that the serializer of an answer wants the buffer to have. -/
def wanted : Reply → ℕ
  | ack _ _ _ => 4
  | zero _ => 2
  | connack _ _ => 2
  | suback _ grantedQoSs => 2 + grantedQoSs.length
  | unsuback _ => 2

/-- The packet of an answer. -/
def packet (a : Reply) (hsmall : a.body.length < 128 ^ 4) : Packet := ⟨a.header, a.body, hsmall⟩

end Reply

/-- Characters are written one by one. -/
theorem length_flatMap_writeChar (cs : List ℕ) : (cs.flatMap writeChar).length = cs.length := by
  induction cs with
  | nil => rfl
  | cons c cs ih => rw [List.flatMap_cons, List.length_append, ih, List.length_cons, writeChar,
      List.length_singleton, Nat.add_comm]

/-- Every answer is serialized in the same way. -/
theorem Reply.serialize_eq (a : Reply) (hsmall : a.body.length < 128 ^ 4) (buf : ℕ → UInt8)
    (buflen : ℕ) :
    a.serialize buf buflen =
      if buflen < a.wanted then (mqttpacketBufferTooShort, buf)
      else (((a.packet hsmall).bytes.length : ℤ), writeBlock buf 0 (a.packet hsmall).bytes) := by
  have hbytes : (a.packet hsmall).bytes = a.header :: mqttPacketEncode a.body.length ++ a.body := by
    rw [mqttPacketEncode_eq]
    rfl
  rw [hbytes]
  cases a with
  | ack packettype dup packetid => rfl
  | zero packettype =>
    rw [body, List.append_nil]
    rfl
  | connack connackRc sessionPresent => rfl
  | suback packetid grantedQoSs =>
    have hlength : (body (suback packetid grantedQoSs)).length = 2 + grantedQoSs.length := by
      rw [body, List.length_append, length_writeInt, length_flatMap_writeChar]
    rw [hlength]
    rfl
  | unsuback packetid => rfl

/-- A serializer writes nothing behind the buffer, whatever is in there. -/
def Reply.StaysInside (a : Reply) (buflen : ℕ) : Prop :=
  ∀ buf i, buflen ≤ i → (a.serialize buf buflen).2 i = buf i

/-- A block lies below an address exactly if writing it to a memory of any content changes
nothing from there on. -/
theorem writeBlock_unchanged_iff (block : List UInt8) (stop : ℕ) :
    (∀ (m : ℕ → UInt8) (i : ℕ), stop ≤ i → writeBlock m 0 block i = m i) ↔
      block.length ≤ stop := by
  constructor
  · intro h
    by_contra hlong
    have hlast : stop < block.length := by omega
    have hget : writeBlock (fun _ => block.get ⟨stop, hlast⟩ + 1) 0 block (0 + stop) =
        block.get ⟨stop, hlast⟩ := writeBlock_get hlast
    rw [Nat.zero_add, h _ stop (Nat.le_refl _)] at hget
    simp at hget
  · intro h m i hi
    exact writeBlock_of_le (by omega)

/-- A serializer stays inside of the buffer exactly if it refuses, or if the packet fits. -/
theorem Reply.staysInside_iff (a : Reply) (hsmall : a.body.length < 128 ^ 4) (buflen : ℕ) :
    a.StaysInside buflen ↔ buflen < a.wanted ∨ (a.packet hsmall).bytes.length ≤ buflen := by
  rw [StaysInside]
  simp only [a.serialize_eq hsmall]
  by_cases hrefuses : buflen < a.wanted
  · simp only [if_pos hrefuses]
    exact iff_of_true (fun _ _ _ => trivial) (Or.inl hrefuses)
  · simp only [if_neg hrefuses]
    rw [writeBlock_unchanged_iff, or_iff_right hrefuses]

/-- The number of bytes of an answer with few fields. -/
theorem Reply.length_bytes_of_small (a : Reply) {n : ℕ} (hbody : a.body.length = n)
    (hn : n < 128) : ∃ hsmall, (a.packet hsmall).bytes.length = 2 + n := by
  have hsmall : a.body.length < 128 ^ 4 := by omega
  refine ⟨hsmall, ?_⟩
  have hone : (Base128.encode a.body.length).length = 1 := by
    rw [hbody, Base128.encode_of_lt hn, List.length_singleton]
  rw [Packet.length_bytes, Packet.length, packet]
  dsimp only
  rw [hone, hbody]

/-- **Answers and the buffer.** The serializers of the acknowledgements and of the packets
without fields write nothing behind a buffer of any size. Those of CONNACK and UNSUBACK
do so exactly if the buffer has two or three bytes, and that of SUBACK exactly if the
buffer has room for the fields, but not for the header byte and the length as well. -/
theorem answers_inside_iff (buflen : ℕ) :
    (∀ packettype dup packetid, (Reply.ack packettype dup packetid).StaysInside buflen) ∧
      (∀ packettype, (Reply.zero packettype).StaysInside buflen) ∧
      (∀ connackRc sessionPresent,
        (Reply.connack connackRc sessionPresent).StaysInside buflen ↔ buflen ≠ 2 ∧ buflen ≠ 3) ∧
      (∀ packetid, (Reply.unsuback packetid).StaysInside buflen ↔ buflen ≠ 2 ∧ buflen ≠ 3) ∧
      ∀ packetid grantedQoSs, 2 + grantedQoSs.length < 128 ^ 4 →
        ((Reply.suback packetid grantedQoSs).StaysInside buflen ↔
          buflen < 2 + grantedQoSs.length ∨
            1 + (Base128.encode (2 + grantedQoSs.length)).length + (2 + grantedQoSs.length) ≤
              buflen) := by
  refine ⟨?_, ?_, ?_, ?_, ?_⟩
  · intro packettype dup packetid
    obtain ⟨hsmall, hlength⟩ :=
      (Reply.ack packettype dup packetid).length_bytes_of_small (n := 2) rfl (by decide)
    rw [Reply.staysInside_iff _ hsmall, hlength, Reply.wanted]
    omega
  · intro packettype
    obtain ⟨hsmall, hlength⟩ :=
      (Reply.zero packettype).length_bytes_of_small (n := 0) rfl (by decide)
    rw [Reply.staysInside_iff _ hsmall, hlength, Reply.wanted]
    omega
  · intro connackRc sessionPresent
    obtain ⟨hsmall, hlength⟩ :=
      (Reply.connack connackRc sessionPresent).length_bytes_of_small (n := 2) rfl (by decide)
    rw [Reply.staysInside_iff _ hsmall, hlength, Reply.wanted]
    omega
  · intro packetid
    obtain ⟨hsmall, hlength⟩ :=
      (Reply.unsuback packetid).length_bytes_of_small (n := 2) rfl (by decide)
    rw [Reply.staysInside_iff _ hsmall, hlength, Reply.wanted]
    omega
  · intro packetid grantedQoSs hcount
    have hbody : (Reply.suback packetid grantedQoSs).body.length = 2 + grantedQoSs.length := by
      rw [Reply.body, List.length_append, length_writeInt, length_flatMap_writeChar]
    have hsmall : (Reply.suback packetid grantedQoSs).body.length < 128 ^ 4 := by omega
    rw [Reply.staysInside_iff _ hsmall, Packet.length_bytes, Packet.length, Reply.packet]
    dsimp only
    rw [hbody, Reply.wanted]

/-- The packet of an answer lies in the buffer after the serializer has returned a number of
bytes. -/
theorem Reply.holds_of_serialize {a : Reply} {buf buf' : ℕ → UInt8} {buflen : ℕ} {rc : ℤ}
    (hsmall : a.body.length < 128 ^ 4) (h : a.serialize buf buflen = (rc, buf')) (hrc : 0 < rc) :
    Holds buf' 0 (a.packet hsmall).bytes := by
  rw [a.serialize_eq hsmall] at h
  split_ifs at h
  · obtain ⟨rfl, -⟩ := Prod.mk.inj h
    cases hrc
  · obtain ⟨-, rfl⟩ := Prod.mk.inj h
    exact holds_writeBlock _ _ _

/-- The loop over the granted QoS stores one value more than it should before it gives up. -/
theorem subackLoop_eq (maxcount : ℕ) (bytes : List UInt8) (grantedQoSs : List ℕ)
    (hcount : grantedQoSs.length ≤ maxcount + 1) :
    subackLoop maxcount bytes grantedQoSs =
      (if grantedQoSs.length + bytes.length ≤ maxcount + 1 then 1 else -1,
        (grantedQoSs ++ bytes.map UInt8.toNat).take (maxcount + 1)) := by
  induction bytes generalizing grantedQoSs with
  | nil =>
    rw [subackLoop, if_pos (by rw [List.length_nil]; omega), List.map_nil, List.append_nil,
      List.take_of_length_le hcount]
  | cons c bytes ih =>
    rw [subackLoop]
    by_cases hfull : grantedQoSs.length > maxcount
    · have hlength : grantedQoSs.length = maxcount + 1 := by omega
      rw [if_pos hfull, if_neg (by rw [List.length_cons]; omega), ← hlength, List.take_left]
    · have hnext : (grantedQoSs ++ [c.toNat]).length ≤ maxcount + 1 := by
        rw [List.length_append, List.length_singleton]
        omega
      rw [if_neg hfull, ih _ hnext, List.length_append, List.length_singleton, List.length_cons,
        List.map_cons, List.append_assoc, List.singleton_append, Nat.add_assoc,
        Nat.add_comm 1 bytes.length]

/-- Characters that have been written are read back. -/
theorem map_toNat_flatMap_writeChar {cs : List ℕ} (h : ∀ c ∈ cs, c < 256) :
    (cs.flatMap writeChar).map UInt8.toNat = cs := by
  induction cs with
  | nil => rfl
  | cons c cs ih =>
    rw [List.forall_mem_cons] at h
    rw [List.flatMap_cons, List.map_append, ih h.2, writeChar, List.map_singleton,
      UInt8.toNat_ofNat', Nat.mod_eq_of_lt h.1, List.singleton_append]

/-- An acknowledgement in the buffer is read as its packet identifier. -/
theorem mqttDeserializeAck_of_holds {buf : ℕ → UInt8} {p : Packet} {packetid : ℕ}
    (hid : packetid < 65536) (hbody : p.body = writeInt packetid) (hholds : Holds buf 0 p.bytes) :
    mqttDeserializeAck buf = some (1, some packetid) := by
  obtain ⟨-, hdecode, hfields⟩ := packet_of_holds hholds
  rw [hbody] at hdecode hfields
  rw [mqttDeserializeAck, hdecode, Option.bind_eq_bind, Option.bind_some]
  dsimp only
  rw [if_neg (by rw [length_writeInt]; omega), readInt_of_holds hid hfields]

/-- A CONNACK packet in the buffer is read as its flag and its return code. -/
theorem mqttDeserializeConnack_of_holds {buf : ℕ → UInt8} {connackRc sessionPresent : ℕ}
    {p : Packet} (hrc : connackRc < 256) (hheader : headerType p.header = connack)
    (hbody : p.body = writeChar (sessionPresent % 2 * 128) ++ writeChar connackRc)
    (hholds : Holds buf 0 p.bytes) :
    mqttDeserializeConnack buf = some (1, some (sessionPresent % 2, connackRc)) := by
  obtain ⟨hfirst, hdecode, hfields⟩ := packet_of_holds hholds
  rw [hbody] at hdecode hfields
  obtain ⟨hflags, hcode⟩ := holds_append.mp hfields
  have hflag := readChar_of_holds (c := sessionPresent % 2 * 128) (by omega) hflags
  have hcode' := readChar_of_holds hrc hcode
  rw [writeChar, List.length_singleton] at hcode'
  have htwo : ¬ (writeChar (sessionPresent % 2 * 128) ++ writeChar connackRc).length < 2 :=
    Nat.lt_irrefl 2
  rw [mqttDeserializeConnack, hfirst, if_neg (not_not_intro hheader), hdecode,
    Option.bind_eq_bind, Option.bind_some]
  dsimp only
  rw [if_neg htwo, hcode', connackSessionPresent, hflag,
    Nat.mul_div_cancel _ (by decide)]

/-- A SUBACK packet in the buffer is read as its packet identifier and the granted QoS, of
which one more than there is room for is stored. -/
theorem mqttDeserializeSuback_of_holds {buf : ℕ → UInt8} {packetid maxcount : ℕ}
    {grantedQoSs : List ℕ} {p : Packet} (hid : packetid < 65536)
    (hgranted : ∀ qos ∈ grantedQoSs, qos < 256) (hheader : headerType p.header = suback)
    (hbody : p.body = writeInt packetid ++ grantedQoSs.flatMap writeChar)
    (hholds : Holds buf 0 p.bytes) :
    mqttDeserializeSuback maxcount buf =
      some (if grantedQoSs.length ≤ maxcount + 1 then 1 else -1,
        some (packetid, grantedQoSs.take (maxcount + 1))) := by
  obtain ⟨hfirst, hdecode, hfields⟩ := packet_of_holds hholds
  have hlength : p.body.length = 2 + grantedQoSs.length := by
    rw [hbody, List.length_append, length_writeInt, length_flatMap_writeChar]
  rw [hlength] at hdecode
  rw [hbody] at hfields
  obtain ⟨hidentifier, hbytes⟩ := holds_append.mp hfields
  rw [Holds, length_writeInt, length_flatMap_writeChar] at hbytes
  have hrest : 1 + p.length.length + (2 + grantedQoSs.length) - (1 + p.length.length + 2) =
      grantedQoSs.length := by omega
  rw [mqttDeserializeSuback, hfirst, if_neg (not_not_intro hheader), hdecode,
    Option.bind_eq_bind, Option.bind_some]
  dsimp only
  rw [if_neg (by omega), readInt_of_holds hid hidentifier, hrest, hbytes,
    subackLoop_eq _ _ _ (Nat.zero_le _), List.length_nil, Nat.zero_add, length_flatMap_writeChar,
    List.nil_append, map_toNat_flatMap_writeChar hgranted]

/-- The fields of an answer are in the range of their types. -/
def Reply.Valid : Reply → Prop
  | ack packettype _ packetid => packettype < 16 ∧ packetid < 65536
  | zero packettype => packettype < 16
  | connack connackRc _ => connackRc < 256
  | suback packetid grantedQoSs =>
    packetid < 65536 ∧ (∀ qos ∈ grantedQoSs, qos < 256) ∧ 2 + grantedQoSs.length < 128 ^ 4
  | unsuback packetid => packetid < 65536

/-- The client sees the type of an answer, and its deserializer returns the fields. The one
for SUBACK takes one value more than there is room for, and gives up behind it. -/
def Reply.ReadBack (buf : ℕ → UInt8) : Reply → Prop
  | ack packettype _ packetid =>
    headerType (buf 0) = packettype ∧ mqttDeserializeAck buf = some (1, some packetid)
  | zero packettype => headerType (buf 0) = packettype
  | connack connackRc sessionPresent =>
    headerType (buf 0) = Mqtt.connack ∧
      mqttDeserializeConnack buf = some (1, some (sessionPresent % 2, connackRc))
  | suback packetid grantedQoSs =>
    headerType (buf 0) = Mqtt.suback ∧ ∀ maxcount, mqttDeserializeSuback maxcount buf =
      some (if grantedQoSs.length ≤ maxcount + 1 then 1 else -1,
        some (packetid, grantedQoSs.take (maxcount + 1)))
  | unsuback packetid =>
    headerType (buf 0) = Mqtt.unsuback ∧ mqttDeserializeUnsuback buf = some (1, some packetid)

/-- The length of a valid answer can be written. -/
theorem Reply.Valid.small {a : Reply} (h : a.Valid) : a.body.length < 128 ^ 4 := by
  cases a with
  | ack packettype dup packetid => exact (by decide : 2 < 128 ^ 4)
  | zero packettype => exact (by decide : 0 < 128 ^ 4)
  | connack connackRc sessionPresent => exact (by decide : 2 < 128 ^ 4)
  | suback packetid grantedQoSs =>
    rw [body, List.length_append, length_writeInt, length_flatMap_writeChar]
    exact h.2.2
  | unsuback packetid => exact (by decide : 2 < 128 ^ 4)

/-- **Answers.** What the serializer of an answer has written, the client takes for this
answer, and reads its fields. -/
theorem answer_roundTrip {a : Reply} {buf buf' : ℕ → UInt8} {buflen : ℕ} {rc : ℤ}
    (hvalid : a.Valid) (h : a.serialize buf buflen = (rc, buf')) (hrc : 0 < rc) :
    a.ReadBack buf' := by
  have hholds := Reply.holds_of_serialize hvalid.small h hrc
  have hfirst : buf' 0 = a.header := (packet_of_holds hholds).1
  cases a with
  | ack packettype dup packetid =>
    rw [Reply.ReadBack, hfirst]
    exact ⟨(header_fields _ _ _ hvalid.1).1, mqttDeserializeAck_of_holds hvalid.2 rfl hholds⟩
  | zero packettype =>
    rw [Reply.ReadBack, hfirst]
    exact (header_fields _ _ _ hvalid).1
  | connack connackRc sessionPresent =>
    have htype : headerType (header connack 0 0 0) = connack :=
      (header_fields _ _ _ (by decide)).1
    rw [Reply.ReadBack, hfirst]
    exact ⟨htype, mqttDeserializeConnack_of_holds hvalid htype rfl hholds⟩
  | suback packetid grantedQoSs =>
    have htype : headerType (header suback 0 0 0) = suback := (header_fields _ _ _ (by decide)).1
    rw [Reply.ReadBack, hfirst]
    exact ⟨htype, fun maxcount =>
      mqttDeserializeSuback_of_holds hvalid.1 hvalid.2.1 htype rfl hholds⟩
  | unsuback packetid =>
    have htype : headerType (header unsuback 0 0 0) = unsuback := (header_fields _ _ _ (by decide)).1
    have hack := mqttDeserializeAck_of_holds hvalid rfl hholds
    rw [Reply.ReadBack, hfirst]
    refine ⟨htype, ?_⟩
    rw [mqttDeserializeUnsuback, hack, hfirst]
    exact congrArg (fun rc => some (rc, some packetid)) (if_pos htype)

/-- A SUBACK for two topic filters. -/
theorem answer_roundTrip_suback :
    (Reply.suback 9 [1, 2]).ReadBack (writeBlock (fun _ => 0) 0 [0x90, 4, 0, 9, 1, 2]) := by
  have h : (Reply.suback 9 [1, 2]).serialize (fun _ => 0) 6 =
      (6, writeBlock (fun _ => 0) 0 [0x90, 4, 0, 9, 1, 2]) := by
    rw [Reply.serialize, mqttSerializeSuback, if_neg (by decide), mqttPacketEncode_eq,
      Base128.encode_of_lt (by decide)]
    rfl
  exact answer_roundTrip ⟨by decide, by decide, by decide⟩ h (by decide)

end WifiMcu.Mqtt
