import Mathlib.Data.Nat.Bitwise
import WifiMcu.Library.Base128
import WifiMcu.Library.Memory
import WifiMcu.Mqtt.Network

/-!
# Reading a packet

A packet is a header byte, the length of the rest in base 128, and the rest. The
client reads the length byte by byte, writes it again behind the header byte in its
buffer, and lets `mqttread` store the rest behind it.
-/

namespace WifiMcu.Mqtt

open Delivery Memory

variable {ε : Type}

/-- `bits.type` of an `MQTTHeader`. -/
def headerType (byte : UInt8) : ℕ := byte.toNat / 16

/-- `MQTTPacket_encode`: the bytes that it writes. -/
def mqttPacketEncode (length : ℕ) : List UInt8 :=
  let d := UInt8.ofNat (length % 128)
  if length / 128 > 0 then (d ||| 0x80) :: mqttPacketEncode (length / 128) else [d]
termination_by length
decreasing_by omega

/-- What decoding a length leaves behind: the length, the value that the function
returns, and the state of the source of the bytes. -/
structure DecodeResult (σ : Type) where
  value : ℕ
  len : ℕ
  rest : σ

/-- The loop that decodes a length, with the number of bytes that it may still ask for.
It is left with the value so far if a byte cannot be read. -/
def decodeLoop {σ : Type} (getchar : σ → Option (ℤ × UInt8 × σ)) :
    (remaining : ℕ) → (len multiplier value : ℕ) → σ → Option (DecodeResult σ)
  | 0, len, _, value, s => some ⟨value, len + 1, s⟩
  | remaining + 1, len, multiplier, value, s =>
    match getchar s with
    | none => none
    | some (rc, c, s) =>
      if rc ≠ 1 then some ⟨value, len + 1, s⟩
      else
        let value := value + (c.toNat &&& 127) * multiplier
        if c.toNat &&& 128 ≠ 0 then
          decodeLoop getchar remaining (len + 1) (multiplier * 128) value s
        else some ⟨value, len + 1, s⟩

/-- The call of `mqttread` in `decodePacket`, for one byte. -/
def readByte (read : ℕ → Feed ε → ReadResult ε) (ev : Feed ε) : Option (ℤ × UInt8 × Feed ε) :=
  let r := read 1 ev
  r.rc.map fun rc => (rc, r.stored.headD 0, r.rest)

/-- `decodePacket`. A length has at most `MAX_NO_OF_REMAINING_LENGTH_BYTES` bytes. -/
def decodePacket (read : ℕ → Feed ε → ReadResult ε) (ev : Feed ε) :
    Option (DecodeResult (Feed ε)) :=
  decodeLoop (readByte read) 4 0 1 0 ev

/-- A call of `readPacket`: the value that it returns, or `none` while it has not
returned; where it has stored which bytes in `readbuf`; and what the network does
after the call. -/
structure PacketResult (ε : Type) where
  rc : Option ℤ
  stores : List (ℕ × List UInt8)
  rest : Feed ε
  deriving DecidableEq

/-- A buffer after some stores. -/
def storeAll (buf : ℕ → UInt8) (stores : List (ℕ × List UInt8)) : ℕ → UInt8 :=
  stores.foldl (fun m s => writeBlock m s.1 s.2) buf

/-- `readPacket`, with the binding's `mqttread`. -/
def readPacket (read : ℕ → Feed ε → ReadResult ε) (readbuf : ℕ → UInt8) (ev : Feed ε) :
    PacketResult ε :=
  let header := read 1 ev
  let stores := [(0, header.stored)]
  match header.rc with
  | none => ⟨none, stores, header.rest⟩
  | some rc =>
    if rc ≠ 1 then ⟨some (-1), stores, header.rest⟩
    else
      match decodePacket read header.rest with
      | none => ⟨none, stores, []⟩
      | some length =>
        let encoded := mqttPacketEncode length.value
        let stores := stores ++ [(1, encoded)]
        if length.value > 0 then
          let body := read length.value length.rest
          let stores := stores ++ [(1 + encoded.length, body.stored)]
          match body.rc with
          | none => ⟨none, stores, body.rest⟩
          | some rc =>
            if rc ≠ length.value then ⟨some (-1), stores, body.rest⟩
            else ⟨some (headerType (storeAll readbuf stores 0) : ℕ), stores, body.rest⟩
        else ⟨some (headerType (storeAll readbuf stores 0) : ℕ), stores, length.rest⟩

/-- The bytes of a length field: up to the first one without continuation bit, a
failure, or the last one that may be used. It is `none` if more has to arrive. -/
def lengthField (stops : ε → Bool) : ℕ → Feed ε → Option (List UInt8 × Feed ε)
  | 0, ev => some ([], ev)
  | n + 1, ev =>
    match next stops ev with
    | none => none
    | some (.error _, rest) => some ([], rest)
    | some (.ok b, rest) =>
      if b.toNat < 128 then some ([b], rest)
      else (lengthField stops n rest).map fun (bs, rest) => (b :: bs, rest)

/-- The header byte and the length field of the next packet, and the events behind
them. -/
def announcement (stops : ε → Bool) (ev : Feed ε) : Option (UInt8 × List UInt8 × Feed ε) :=
  match next stops ev with
  | some (.ok header, rest) => (lengthField stops 4 rest).map fun (bs, rest) => (header, bs, rest)
  | _ => none

/-- The client writes lengths in base 128. -/
theorem mqttPacketEncode_eq (length : ℕ) : mqttPacketEncode length = Base128.encode length := by
  induction length using Nat.strongRecOn with
  | _ length ih =>
    rw [mqttPacketEncode]
    by_cases hsmall : length < 128
    · rw [if_neg (by omega), Base128.encode_of_lt hsmall, Nat.mod_eq_of_lt hsmall]
    · rw [if_pos (by omega), Base128.encode_of_ge hsmall, ih _ (by omega)]
      congr 1
      apply UInt8.toNat_inj.mp
      have hor := Nat.two_pow_add_eq_or_of_lt (i := 7) (show length % 128 < 2 ^ 7 by omega) 1
      rw [UInt8.toNat_or, UInt8.toNat_ofNat', UInt8.toNat_ofNat',
        Nat.mod_eq_of_lt (show length % 128 < 2 ^ 8 by omega),
        Nat.mod_eq_of_lt (show length % 128 + 128 < 2 ^ 8 by omega), Nat.or_comm]
      exact hor.symm.trans (Nat.add_comm _ _)

/-- The continuation bit of a byte. -/
theorem and_128_ne_zero_iff (b : UInt8) : b.toNat &&& 128 ≠ 0 ↔ ¬ b.toNat < 128 := by
  have hand := Nat.and_two_pow b.toNat 7
  have hlt := b.toNat_lt
  rw [Nat.testBit_eq_decide_div_mod_eq] at hand
  rw [show (128 : ℕ) = 2 ^ 7 from rfl, hand]
  by_cases hbit : b.toNat / 2 ^ 7 % 2 = 1
  · simp only [hbit, decide_true, Bool.toNat_true]
    omega
  · simp only [hbit, decide_false, Bool.toNat_false]
    omega

/-- The loop of `decodePacket` reads the length field. -/
theorem decodeLoop_eq (B : Binding ε) (remaining len multiplier value : ℕ) (ev : Feed ε) :
    (decodeLoop (readByte B.read) remaining len multiplier value ev).map (fun d => (d.value, d.rest)) =
      (lengthField B.stops remaining ev).map
        fun r => (value + multiplier * Base128.value r.1, r.2) := by
  induction remaining generalizing len multiplier value ev with
  | zero => rfl
  | succ remaining ih =>
    rw [decodeLoop, lengthField, readByte]
    rcases hnext : next B.stops ev with _ | ⟨e | b, rest⟩
    · rw [B.read_one_none ev hnext]
      rfl
    · obtain ⟨rc, hrc, hread⟩ := B.read_one_error ev e rest hnext
      rw [hread]
      dsimp only [Option.map_some]
      rw [if_pos (by omega)]
      rfl
    · rw [B.read_one_ok ev b rest hnext]
      dsimp only [Option.map_some, List.headD_cons]
      rw [if_neg (by omega)]
      have hand : b.toNat &&& 127 = b.toNat % 128 := Nat.and_two_pow_sub_one_eq_mod b.toNat 7
      have hbit := and_128_ne_zero_iff b
      rw [hand]
      by_cases hlast : b.toNat < 128
      · rw [if_neg (by rw [hbit]; omega), if_pos hlast]
        simp [Base128.value, Nat.mul_comm]
      · rw [if_pos (hbit.mpr hlast), if_neg hlast, ih, Option.map_map]
        congr 1
        funext r
        obtain ⟨bs, rest⟩ := r
        simp only [Function.comp_apply, Base128.value_cons]
        congr 1
        rw [Nat.mul_add, Nat.mul_comm (b.toNat % 128), Nat.mul_assoc, Nat.add_assoc]

/-- `decodePacket` computes the value of the length field. -/
theorem decodePacket_of_lengthField {B : Binding ε} {ev rest : Feed ε} {bs : List UInt8}
    (h : lengthField B.stops 4 ev = some (bs, rest)) :
    ∃ len, decodePacket B.read ev = some ⟨Base128.value bs, len, rest⟩ := by
  have hloop := decodeLoop_eq B 4 0 1 0 ev
  rw [h] at hloop
  obtain ⟨⟨value, len, rest'⟩, hdecode, heq⟩ := Option.map_eq_some_iff.mp hloop
  obtain ⟨rfl, rfl⟩ : value = 0 + 1 * Base128.value bs ∧ rest' = rest := by simpa using heq
  refine ⟨len, ?_⟩
  rw [decodePacket, hdecode, Nat.one_mul, Nat.zero_add]

/-- A length field that has not arrived yet keeps `decodePacket` waiting. -/
theorem decodePacket_none {B : Binding ε} {ev : Feed ε} (h : lengthField B.stops 4 ev = none) :
    decodePacket B.read ev = none := by
  have hloop := decodeLoop_eq B 4 0 1 0 ev
  rw [h] at hloop
  exact Option.map_eq_none_iff.mp hloop

/-- A packet is announced by its header byte and a length field behind it. -/
theorem announcement_eq_some {stops : ε → Bool} {ev rest : Feed ε} {header : UInt8}
    {bs : List UInt8} : announcement stops ev = some (header, bs, rest) ↔
      ∃ behind, next stops ev = some (.ok header, behind) ∧
        lengthField stops 4 behind = some (bs, rest) := by
  rw [announcement]
  rcases hnext : next stops ev with _ | ⟨e | b, behind⟩
  · simp
  · simp
  · constructor
    · intro h
      obtain ⟨⟨bs', rest'⟩, hfield, heq⟩ := Option.map_eq_some_iff.mp h
      obtain ⟨rfl, rfl, rfl⟩ : b = header ∧ bs' = bs ∧ rest' = rest := by simpa using heq
      exact ⟨behind, rfl, hfield⟩
    · rintro ⟨behind', heq, hfield⟩
      obtain ⟨rfl, rfl⟩ : b = header ∧ behind = behind' := by simpa using heq
      simp [hfield]

/-- Stores behind the first byte leave it alone. -/
theorem storeAll_header (buf : ℕ → UInt8) (header : UInt8) (encoded body : List UInt8) :
    storeAll buf [(0, [header]), (1, encoded)] 0 = header ∧
      storeAll buf [(0, [header]), (1, encoded), (1 + encoded.length, body)] 0 = header := by
  constructor
  · exact writeBlock_of_lt Nat.one_pos encoded
  · exact (writeBlock_of_lt (by omega) body).trans (writeBlock_of_lt Nat.one_pos encoded)

/-- Without a header byte `readPacket` is still waiting. -/
theorem readPacket_none {B : Binding ε} {ev : Feed ε} (h : next B.stops ev = none)
    (readbuf : ℕ → UInt8) : readPacket B.read readbuf ev = ⟨none, [(0, [])], []⟩ := by
  rw [readPacket, B.read_one_none ev h]

/-- If the header byte cannot be read, `readPacket` fails. -/
theorem readPacket_error {B : Binding ε} {ev rest : Feed ε} {e : ε}
    (h : next B.stops ev = some (.error e, rest)) (readbuf : ℕ → UInt8) :
    readPacket B.read readbuf ev = ⟨some (-1), [(0, [])], rest⟩ := by
  obtain ⟨rc, hrc, hread⟩ := B.read_one_error ev e rest h
  rw [readPacket, hread]
  dsimp only
  rw [if_pos (by omega)]

/-- Without a complete length field `readPacket` is still waiting. -/
theorem readPacket_length_none {B : Binding ε} {ev rest : Feed ε} {header : UInt8}
    (hheader : next B.stops ev = some (.ok header, rest))
    (hlength : lengthField B.stops 4 rest = none) (readbuf : ℕ → UInt8) :
    readPacket B.read readbuf ev = ⟨none, [(0, [header])], []⟩ := by
  rw [readPacket, B.read_one_ok ev header rest hheader]
  dsimp only
  rw [if_neg (by omega), decodePacket_none hlength]

/-- `readPacket` of a packet whose header byte and length field have arrived. -/
theorem readPacket_announced {B : Binding ε} {ev rest : Feed ε} {header : UInt8}
    {bs : List UInt8} (h : announcement B.stops ev = some (header, bs, rest))
    (readbuf : ℕ → UInt8) :
    let n := Base128.value bs
    let stores := [(0, [header]), (1, Base128.encode n)]
    let body := B.read n rest
    readPacket B.read readbuf ev =
      if n = 0 then ⟨some (headerType header : ℕ), stores, rest⟩
      else ⟨body.rc.map fun rc => if rc = (n : ℤ) then ((headerType header : ℕ) : ℤ) else -1,
        stores ++ [(1 + (Base128.encode n).length, body.stored)], body.rest⟩ := by
  intro n stores body
  obtain ⟨behind, hnext, hfield⟩ := announcement_eq_some.mp h
  obtain ⟨len, hdecode⟩ := decodePacket_of_lengthField hfield
  have hfirst := storeAll_header readbuf header (Base128.encode n) body.stored
  rw [readPacket, B.read_one_ok ev header behind hnext]
  dsimp only
  rw [if_neg (by omega), hdecode]
  dsimp only
  rw [mqttPacketEncode_eq]
  by_cases hzero : n = 0
  · rw [if_neg (show ¬ Base128.value bs > 0 by omega), if_pos hzero]
    show PacketResult.mk (some (headerType (storeAll readbuf stores 0) : ℤ)) stores rest = _
    rw [hfirst.1]
  · rw [if_pos (show Base128.value bs > 0 by omega), if_neg hzero]
    rcases hbody : (B.read (Base128.value bs) rest).rc with _ | rc
    · rfl
    · rw [Option.map_some]
      dsimp only
      by_cases hrc : rc = n
      · rw [if_neg (by simpa using hrc), if_pos hrc]
        show PacketResult.mk (some (headerType (storeAll readbuf
          [(0, [header]), (1, Base128.encode n), (1 + (Base128.encode n).length, body.stored)] 0)
            : ℤ)) _ _ = _
        rw [hfirst.2]
        rfl
      · rw [if_pos (by simpa using hrc), if_neg hrc]
        rfl

end WifiMcu.Mqtt
