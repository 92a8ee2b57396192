import WifiMcu.Mqtt.Bounds

/-!
# Packet framing

Where a packet comes next in the stream, a call of `readPacket` returns it, provided
that no failure cuts its header byte and length, and that one call of `mqttread` can
get its body. Otherwise the call takes bytes from the stream all the same, but not
the packet.
-/

namespace WifiMcu.Mqtt

open Delivery Memory

variable {ε : Type}

/-- A packet on the wire. Its length is one that four bytes can encode. -/
structure Packet where
  header : UInt8
  body : List UInt8
  small : body.length < 128 ^ 4

/-- The length field of a packet. -/
def Packet.length (p : Packet) : List UInt8 := Base128.encode p.body.length

/-- The bytes of a packet. -/
def Packet.bytes (p : Packet) : List UInt8 := p.header :: p.length ++ p.body

/-- The packet type. -/
def Packet.type (p : Packet) : ℕ := headerType p.header

/-- The blocks that `readPacket` stores for a packet. -/
def Packet.stores (p : Packet) : List (ℕ × List UInt8) :=
  [(0, [p.header]), (1, p.length)] ++
    if p.body = [] then [] else [(1 + p.length.length, p.body)]

/-- The bytes of packets that are sent one behind the other. -/
def stream : List Packet → List UInt8
  | [] => []
  | p :: ps => p.bytes ++ stream ps

/-- The events behind a packet, if no failure comes between its header byte and its last
byte, and one call of `mqttread` can get all of its body. -/
def takesPacket (B : Binding ε) (ev : Feed ε) (p : Packet) : Option (Feed ε) :=
  (advance (1 + p.length.length) ev).bind fun ev =>
    if p.body.length ≤ B.available ev then advance p.body.length ev else none

/-- Failures come between packets only, and one call of `mqttread` can get all of a body. -/
def Undisturbed (B : Binding ε) : Feed ε → List Packet → Prop
  | _, [] => True
  | ev, p :: ps => ∃ rest, takesPacket B (dropFailures ev) p = some rest ∧ Undisturbed B rest ps

/-- A call of `readPacket` returns the type of a packet, has consumed this packet, and
leaves its bytes in the buffer. -/
def Returns (B : Binding ε) (size : ℕ) (readbuf : ℕ → UInt8) (ev : Feed ε) (p : Packet) : Prop :=
  let r := readPacket B.read readbuf ev
  r.rc = some (p.type : ℤ) ∧ content ev = p.bytes ++ content r.rest ∧ Within size r.stores ∧
    readBlock (storeAll readbuf r.stores) 0 p.bytes.length = p.bytes

/-- The number of bytes of a packet. -/
theorem Packet.length_bytes (p : Packet) :
    p.bytes.length = 1 + p.length.length + p.body.length := by
  rw [bytes, List.cons_append, List.length_cons, List.length_append]
  omega

/-- The length field of a packet ends with its last byte. -/
theorem Packet.terminated_length (p : Packet) : Base128.Terminated p.length :=
  Base128.terminated_encode p.body.length

/-- The blocks stored for a packet are its bytes. -/
theorem Packet.storeAll_stores (p : Packet) (readbuf : ℕ → UInt8) :
    storeAll readbuf p.stores = writeBlock readbuf 0 p.bytes := by
  have hhead : writeBlock (writeBlock readbuf 0 [p.header]) 1 p.length =
      writeBlock readbuf 0 (p.header :: p.length) := writeBlock_append readbuf 0 [p.header] p.length
  rw [stores, bytes]
  split_ifs with hbody
  · simp only [hbody, List.append_nil]
    exact hhead
  · have hall := writeBlock_append readbuf 0 (p.header :: p.length) p.body
    rw [← hall, ← hhead, List.length_cons, Nat.zero_add, Nat.add_comm]
    rfl

/-- The bytes of a packet that fits are stored inside of the buffer. -/
theorem Packet.within_stores {p : Packet} {size : ℕ} (hfit : p.bytes.length ≤ size) :
    Within size p.stores := by
  rw [p.length_bytes] at hfit
  have hheader : Within size [(0, [p.header])] :=
    (within_singleton (Nat.zero_le size)).mpr (by simp only [List.length_singleton]; omega)
  have hlength : Within size [(1, p.length)] :=
    (within_singleton (by omega)).mpr (by omega)
  rw [stores]
  split_ifs with hbody
  · exact within_cons.mpr ⟨hheader, hlength⟩
  · exact within_cons.mpr ⟨hheader, within_cons.mpr ⟨hlength,
      (within_singleton (by omega)).mpr hfit⟩⟩

/-- On a stream that goes on with a length field, the field is read completely, or it is
cut by a failure. -/
theorem lengthField_stream {stops : ε → Bool} {n : ℕ} {bs more : List UInt8} {ev : Feed ε}
    (hstops : Failures (fun e => stops e = true) ev) (hbs : Base128.Terminated bs)
    (hn : bs.length ≤ n) (hcontent : content ev = bs ++ more) :
    (∃ rest, advance bs.length ev = some rest ∧ lengthField stops n ev = some (bs, rest)) ∨
      advance bs.length ev = none ∧ ∃ j rest, j < bs.length ∧
        lengthField stops n ev = some (bs.take j, rest) ∧ content rest = (content ev).drop j := by
  induction bs generalizing n ev with
  | nil => cases hbs
  | cons b bs ih =>
    obtain ⟨n, rfl⟩ : ∃ k, n = k + 1 := ⟨n - 1, by rw [List.length_cons] at hn; omega⟩
    rw [List.length_cons] at hn
    rcases ev with _ | ⟨⟨first, others⟩ | e, ev⟩
    · cases hcontent
    · obtain ⟨rfl, hrest⟩ : first = b ∧ others ++ content ev = bs ++ more := by
        simpa [content] using hcontent
      rw [← content_leftover] at hrest
      have hfield : lengthField stops (n + 1) (Event.data first others :: ev) =
          if first.toNat < 128 then some ([first], leftover others ev)
          else (lengthField stops n (leftover others ev)).map fun r => (first :: r.1, r.2) := rfl
      rw [hfield]
      cases bs with
      | nil => exact Or.inl ⟨leftover others ev, rfl, if_pos hbs⟩
      | cons c bs =>
        rw [if_neg (Nat.not_lt.mpr hbs.1)]
        rcases ih (hstops.tail.leftover others) hbs.2 (Nat.le_of_succ_le_succ hn) hrest with
          ⟨rest, hadvance, hcomplete⟩ | ⟨hadvance, j, rest, hj, hcut, hdrop⟩
        · refine Or.inl ⟨rest, hadvance, ?_⟩
          rw [hcomplete]
          rfl
        · refine Or.inr ⟨hadvance, j + 1, rest, Nat.succ_lt_succ hj, ?_, ?_⟩
          · rw [hcut]
            rfl
          · rw [hdrop, content_leftover]
            rfl
    · refine Or.inr ⟨rfl, 0, ev, Nat.succ_pos _, ?_, rfl⟩
      rw [lengthField, next_fail (hstops e List.mem_cons_self)]
      rfl

/-- `readPacket` takes no more from the stream behind the length field than the value of
this field. -/
theorem readPacket_content {B : Binding ε} {ev rest : Feed ε} {header : UInt8} {bs : List UInt8}
    (h : announcement B.stops ev = some (header, bs, rest)) (readbuf : ℕ → UInt8) :
    (content (readPacket B.read readbuf ev).rest).length ≤ (content rest).length ∧
      (content rest).length ≤
        (content (readPacket B.read readbuf ev).rest).length + Base128.value bs := by
  rw [readPacket_announced h]
  split_ifs with hzero
  · exact ⟨Nat.le_refl _, Nat.le_add_right _ _⟩
  · have hlength := congrArg List.length (B.read_content (Base128.value bs) rest)
    rw [List.length_append, B.read_length] at hlength
    dsimp only
    omega

/-- An announced packet whose body can be got by one call of `mqttread` is returned. -/
theorem readPacket_complete {B : Binding ε} {p : Packet} {more : List UInt8} {ev rest : Feed ε}
    (hstops : Failures (fun e => B.stops e = true) rest)
    (hannounced : announcement B.stops ev = some (p.header, p.length, rest))
    (hcontent : content rest = p.body ++ more) (hbody : p.body.length ≤ B.available rest)
    (readbuf : ℕ → UInt8) :
    ∃ behind, advance p.body.length rest = some behind ∧
      readPacket B.read readbuf ev = ⟨some (p.type : ℤ), p.stores, behind⟩ := by
  have hvalue : Base128.value p.length = p.body.length := Base128.value_encode _
  have hread := readPacket_announced hannounced readbuf
  rw [hvalue] at hread
  rw [hread]
  by_cases hempty : p.body = []
  · refine ⟨rest, by rw [hempty]; rfl, ?_⟩
    rw [if_pos (List.length_eq_zero_iff.mpr hempty), Packet.stores, if_pos hempty]
    rfl
  · have hpos := List.length_pos_iff.mpr hempty
    have hrc := (B.read_full_iff p.body.length rest hpos).mpr hbody
    have hadvance := B.read_advance p.body.length rest hpos hstops hbody
    have hstored : (B.read p.body.length rest).stored = p.body :=
      List.append_inj_left ((B.read_content p.body.length rest).trans hcontent)
        (by rw [B.read_length, Nat.min_eq_left hbody])
    refine ⟨_, hadvance, ?_⟩
    rw [if_neg (by omega), hrc, Option.map_some, if_pos rfl, hstored, Packet.stores,
      if_neg hempty]
    rfl

/-- Failures with a property keep it behind a packet. -/
theorem failures_takesPacket {B : Binding ε} {P : ε → Prop} {ev rest : Feed ε} {p : Packet}
    (hP : Failures P ev) (h : takesPacket B ev p = some rest) : Failures P rest := by
  obtain ⟨body, hadvance, hbody⟩ := Option.bind_eq_some_iff.mp h
  split_ifs at hbody
  exact (hP.advance hadvance).advance hbody

/-- A stream that begins with a packet is disturbed behind it or not at all. -/
theorem undisturbed_cons_iff {B : Binding ε} {ev rest : Feed ε} {p : Packet} {ps : List Packet}
    (h : takesPacket B (dropFailures ev) p = some rest) :
    Undisturbed B ev (p :: ps) ↔ Undisturbed B rest ps := by
  constructor
  · rintro ⟨rest', htakes, hundisturbed⟩
    obtain rfl : rest = rest' := Option.some.inj (h.symm.trans htakes)
    exact hundisturbed
  · intro hundisturbed
    exact ⟨rest, h, hundisturbed⟩

/-- A stream whose first packet cannot be taken is disturbed. -/
theorem not_undisturbed_cons {B : Binding ε} {ev : Feed ε} {p : Packet} {ps : List Packet}
    (h : takesPacket B (dropFailures ev) p = none) : ¬ Undisturbed B ev (p :: ps) := by
  rintro ⟨rest, htakes, -⟩
  rw [h] at htakes
  cases htakes

/-- The first packet of a stream begins in its first chunk. -/
theorem headLength_stream {ev : Feed ε} {p : Packet} {ps : List Packet}
    (h : content ev = stream (p :: ps)) : 0 < headLength (dropFailures ev) := by
  apply headLength_dropFailures
  intro hnil
  rw [h] at hnil
  cases hnil

/-- A packet that is stored as it stands has been returned. -/
theorem returns_of_eq {B : Binding ε} {size : ℕ} {readbuf : ℕ → UInt8} {p : Packet}
    {ev rest : Feed ε} (hfit : p.bytes.length ≤ size) (hcontent : content ev = p.bytes ++ content rest)
    (h : readPacket B.read readbuf ev = ⟨some (p.type : ℤ), p.stores, rest⟩) :
    Returns B size readbuf ev p := by
  rw [Returns, h]
  refine ⟨rfl, hcontent, Packet.within_stores hfit, ?_⟩
  rw [p.storeAll_stores, readBlock_writeBlock]

/-- What a call of `readPacket` does to the stream if it does not return the packet that
comes next: it takes bytes from the stream and returns something else, or takes fewer
bytes than the packet has. -/
def Disturbs (B : Binding ε) (size : ℕ) (readbuf : ℕ → UInt8) (ev : Feed ε) (p : Packet) : Prop :=
  ¬ Returns B size readbuf ev p ∧ content (readPacket B.read readbuf ev).rest ≠ content ev

/-- A body that one call of `mqttread` cannot get is lost. -/
theorem disturbs_of_short {B : Binding ε} {p : Packet} {ev rest : Feed ε}
    (hannounced : announcement B.stops ev = some (p.header, p.length, rest))
    (hrest : (content rest).length < (content ev).length)
    (hshort : B.available rest < p.body.length) (size : ℕ) (readbuf : ℕ → UInt8) :
    Disturbs B size readbuf ev p := by
  have hvalue : Base128.value p.length = p.body.length := Base128.value_encode _
  constructor
  · rintro ⟨htype, -⟩
    rcases readPacket_short hannounced (by omega) readbuf with hnone | hfail
    · rw [hnone] at htype
      cases htype
    · rw [hfail] at htype
      have := Option.some.inj htype
      omega
  · intro heq
    have hle := (readPacket_content hannounced readbuf).1
    rw [heq] at hle
    omega

/-- After a length field that was cut, fewer bytes are taken than the packet has. -/
theorem disturbs_of_cut {B : Binding ε} {p : Packet} {ev rest : Feed ε} {j : ℕ}
    (hannounced : announcement B.stops ev = some (p.header, p.length.take j, rest))
    (hj : j < p.length.length) (hrest : (content rest).length + 1 + j = (content ev).length)
    (size : ℕ) (readbuf : ℕ → UInt8) : Disturbs B size readbuf ev p := by
  have hvalue : Base128.value (p.length.take j) ≤ p.body.length := by
    rw [Packet.length, Base128.value_take_encode]
    exact Nat.mod_le _ _
  obtain ⟨hle, hge⟩ := readPacket_content hannounced readbuf
  constructor
  · rintro ⟨-, hcontent, -⟩
    have hlength := congrArg List.length hcontent
    rw [List.length_append, p.length_bytes] at hlength
    omega
  · intro heq
    rw [heq] at hle
    omega

/-- **Step lemma.** Where a packet comes next, a call of `readPacket` returns it if the
packet is undisturbed, and otherwise disturbs the stream. -/
theorem readPacket_step (B : Binding ε) {size : ℕ} {p : Packet} {more : List UInt8} {ev : Feed ε}
    (hfit : p.bytes.length ≤ size) (hstops : Failures (fun e => B.stops e = true) ev)
    (hdata : 0 < headLength ev) (hcontent : content ev = p.bytes ++ more) (readbuf : ℕ → UInt8) :
    (∃ rest, takesPacket B ev p = some rest ∧ (readPacket B.read readbuf ev).rest = rest ∧
        Returns B size readbuf ev p ∧ content rest = more) ∨
      takesPacket B ev p = none ∧ Disturbs B size readbuf ev p := by
  match ev, hstops, hdata, hcontent with
  | .data first others :: ev, hstops, _, hcontent =>
    obtain ⟨rfl, hrest⟩ : first = p.header ∧ others ++ content ev = p.length ++ (p.body ++ more) := by
      simpa [content, Packet.bytes] using hcontent
    have htotal : (content (.data p.header others :: ev)).length =
        (content (leftover others ev)).length + 1 := by
      rw [content_leftover]
      rfl
    rw [← content_leftover] at hrest
    have hfour : p.length.length ≤ 4 := Base128.length_encode_le (k := 3) p.small
    have htakes : takesPacket B (.data p.header others :: ev) p =
        (advance p.length.length (leftover others ev)).bind fun ev =>
          if p.body.length ≤ B.available ev then advance p.body.length ev else none := by
      rw [takesPacket, Nat.add_comm]
      rfl
    have hannounced (bs : List UInt8) (rest : Feed ε)
        (hfield : lengthField B.stops 4 (leftover others ev) = some (bs, rest)) :
        announcement B.stops (.data p.header others :: ev) = some (p.header, bs, rest) := by
      show Option.map _ (lengthField B.stops 4 (leftover others ev)) = _
      rw [hfield]
      rfl
    rw [htakes]
    rcases lengthField_stream (hstops.tail.leftover others) p.terminated_length
      hfour hrest with ⟨rest, hadvance, hfield⟩ | ⟨hadvance, j, rest, hj, hfield, hdrop⟩
    · have hbehind := (content_advance hadvance).1
      have hstops' := (hstops.tail.leftover others).advance hadvance
      rw [hadvance, Option.bind_some]
      by_cases hbody : p.body.length ≤ B.available rest
      · rw [if_pos hbody]
        have hbodyContent : content rest = p.body ++ more := by
          rw [← hbehind, hrest]
          exact List.drop_left
        obtain ⟨behind, hadvance', hread⟩ :=
          readPacket_complete hstops' (hannounced _ _ hfield) hbodyContent hbody readbuf
        have hmore : content behind = more := by
          rw [← (content_advance hadvance').1, hbodyContent, List.drop_left]
        refine Or.inl ⟨behind, hadvance', by rw [hread], ?_, hmore⟩
        exact returns_of_eq hfit (by rw [hcontent, hmore]) hread
      · rw [if_neg hbody]
        refine Or.inr ⟨rfl, disturbs_of_short (hannounced _ _ hfield) ?_ (by omega) size readbuf⟩
        have := congrArg List.length hbehind
        rw [List.length_drop] at this
        omega
    · have hle : j ≤ (content (leftover others ev)).length := by
        rw [hrest, List.length_append]
        exact Nat.le_trans (Nat.le_of_lt hj) (Nat.le_add_right _ _)
      rw [hadvance]
      refine Or.inr ⟨rfl, disturbs_of_cut (hannounced _ _ hfield) hj ?_ size readbuf⟩
      rw [hdrop, List.length_drop]
      omega

end WifiMcu.Mqtt
