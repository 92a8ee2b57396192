import Mathlib.Data.Int.Notation
import Mathlib.Data.List.Induction
import Mathlib.Tactic.Common

/-!
# Pings

`SendPing` sends an echo request, and `ReceivePing` waits for the reply. It gets the
datagrams with their IP header, whose length it takes from the datagram itself. Its buffer
has 64 bytes; those behind the datagram are what happens to be in memory.
-/

namespace WifiMcu.System

/-- The results of `SendPing` and `ReceivePing`. -/
inductive PingErr
  | ok | mem | val | timeout
  deriving DecidableEq

/-- `PING_ID`. -/
def pingId : BitVec 16 := 0xafaf

/-- `PING_DATA_SIZE`. -/
def pingDataSize : ℕ := 32

/-- `ICMP_ECHO` and `ICMP_ER`. -/
def icmpEcho : UInt8 := 8

@[inherit_doc icmpEcho] def icmpEr : UInt8 := 0

/-- The sizes of `struct ip_hdr` and `struct icmp_echo_hdr`. -/
def ipHdrSize : ℕ := 20

@[inherit_doc ipHdrSize] def icmpEchoHdrSize : ℕ := 8

/-- `htons` on a little-endian machine. -/
def htons (n : BitVec 16) : BitVec 16 := (n &&& 0xff) <<< 8 ||| (n &&& 0xff00) >>> 8

/-- The bytes of a 16-bit field in memory, and the field at an index. -/
def fieldBytes (x : BitVec 16) : List UInt8 :=
  [UInt8.ofBitVec (x.setWidth 8), UInt8.ofBitVec ((x >>> 8).setWidth 8)]

@[inherit_doc fieldBytes] def fieldAt (buf : ℕ → UInt8) (i : ℕ) : BitVec 16 :=
  (buf (i + 1)).toBitVec ++ (buf i).toBitVec

/-- `SequenceNumber`, and the packet that was sent last. -/
structure PingState where
  sequenceNumber : BitVec 16
  request : Option (List UInt8)
  deriving DecidableEq

/-- The state at the start of the program. -/
def PingState.init : PingState := ⟨0, none⟩

section

variable (inetChksum : List UInt8 → BitVec 16)

/-- The packet that `SendPing` builds. -/
def pingRequest (sequenceNumber : BitVec 16) : List UInt8 :=
  let packet (chksum : BitVec 16) := [icmpEcho, 0] ++ fieldBytes chksum ++ fieldBytes pingId ++
    fieldBytes (htons sequenceNumber) ++ (List.range pingDataSize).map UInt8.ofNat
  packet (inetChksum (packet 0))

/-- `SendPing`, with the outcomes of `mem_malloc` and of `lwip_sendto`. -/
def sendPing (s : PingState) (allocated : Bool) (err : ℤ) : PingErr × PingState :=
  if allocated then
    let sequenceNumber := s.sequenceNumber + 1
    let request := some (pingRequest inetChksum sequenceNumber)
    (if err ≠ 0 then .ok else .val, ⟨sequenceNumber, request⟩)
  else (.mem, s)

/-- The state after calls of `SendPing`. -/
def afterSends (sends : List (Bool × ℤ)) : PingState :=
  sends.foldl (fun s outcome => (sendPing inetChksum s outcome.1 outcome.2).2) .init

end

/-- What `lwip_recvfrom` returns, and the memory from the start of `buf` on after the call. -/
structure Received where
  len : ℤ
  len_le : len ≤ 64
  buf : ℕ → UInt8

/-- `IPH_HL(iphdr)*4`, the offset of the ICMP header. -/
def Received.offset (d : Received) : ℕ := (d.buf 0 &&& 0x0f).toNat * 4

/-- The indices of the bytes of a field of 16 bits. -/
def fieldIndices (i : ℕ) : List ℕ := [i, i + 1]

/-- The tests of a datagram in `ReceivePing`: whether it is accepted, and the indices of the
bytes that are looked at. -/
def testReply (sequenceNumber : BitVec 16) (d : Received) : Bool × List ℕ :=
  if (ipHdrSize + icmpEchoHdrSize : ℕ) ≤ d.len then
    let iecho := d.offset
    let reads := 0 :: fieldIndices (iecho + 4)
    if fieldAt d.buf (iecho + 4) = pingId then
      let reads := reads ++ fieldIndices (iecho + 6)
      if fieldAt d.buf (iecho + 6) = htons sequenceNumber then
        (d.buf iecho = icmpEr, reads ++ [iecho])
      else (false, reads)
    else (false, reads)
  else (false, [])

/-- A call of `ReceivePing`: its result, or `none` while it waits for a datagram, and the
datagrams that it has looked at, with the indices of the bytes. -/
structure PingResult where
  result : Option PingErr
  inspected : List (Received × List ℕ)

/-- `ReceivePing`. -/
def receivePing (sequenceNumber : BitVec 16) : List Received → PingResult
  | [] => ⟨none, []⟩
  | d :: ds =>
    if d.len ≤ 0 then ⟨some .timeout, []⟩
    else
      let test := testReply sequenceNumber d
      if test.1 then ⟨some .ok, [(d, test.2)]⟩
      else
        let r := receivePing sequenceNumber ds
        { r with inspected := (d, test.2) :: r.inspected }

/-! ### Safety -/

/-- A datagram contains the reply to a request, within its bytes and behind its IP header:
the identifier and the sequence number are those of the request. -/
structure ContainsReply (request : List UInt8) (d : Received) : Prop where
  within : (d.offset + icmpEchoHdrSize : ℕ) ≤ d.len
  type_eq : d.buf d.offset = icmpEr
  id_eq : fieldAt d.buf (d.offset + 4) = pingId
  fields_eq : [d.buf (d.offset + 4), d.buf (d.offset + 5), d.buf (d.offset + 6),
    d.buf (d.offset + 7)] = (request.drop 4).take 4

/-- A call looks at received bytes only, and succeeds only with a reply to the request. -/
structure PingSafe (request : List UInt8) (ds : List Received) (r : PingResult) : Prop where
  bounds : ∀ p ∈ r.inspected, ∀ i ∈ p.2, (i : ℤ) < p.1.len
  sound : r.result = some .ok → ∃ d ∈ ds, ContainsReply request d
  result : r.result = some .ok ∨ r.result = some .timeout ∨ r.result = none

/-- The part of the ICMP header that is looked at lies within the datagram: the identifier,
and the sequence number as well if the identifier is the expected one. -/
def Received.HeaderFits (d : Received) : Prop :=
  (ipHdrSize + icmpEchoHdrSize : ℕ) ≤ d.len →
    (d.offset + 6 : ℕ) ≤ d.len ∧
      (fieldAt d.buf (d.offset + 4) = pingId → (d.offset + 8 : ℕ) ≤ d.len)

/-- A datagram after which `ReceivePing` returns. -/
def ends (sequenceNumber : BitVec 16) (d : Received) : Bool :=
  d.len ≤ 0 || (testReply sequenceNumber d).1

/-- The header fits into every datagram that is looked at: those up to the first one after
which `ReceivePing` returns. -/
def HeadersFit (sequenceNumber : BitVec 16) (ds : List Received) : Prop :=
  ∀ before d after, ds = before ++ d :: after →
    (∀ e ∈ before, ends sequenceNumber e = false) → d.HeaderFits

/-- The first datagram is looked at, and the other ones if `ReceivePing` goes on. -/
theorem headersFit_cons {sequenceNumber : BitVec 16} {d : Received} {ds : List Received} :
    HeadersFit sequenceNumber (d :: ds) ↔
      d.HeaderFits ∧ (ends sequenceNumber d = false → HeadersFit sequenceNumber ds) := by
  constructor
  · intro h
    refine ⟨h [] d ds rfl (fun e he => by cases he), fun hgoes before e after heq hbefore => ?_⟩
    refine h (d :: before) e after (by rw [heq, List.cons_append]) ?_
    rw [List.forall_mem_cons]
    exact ⟨hgoes, hbefore⟩
  · rintro ⟨hfirst, hothers⟩ before e after heq hbefore
    rcases before with _ | ⟨b, before⟩
    · obtain ⟨rfl, -⟩ := List.cons.inj heq
      exact hfirst
    · obtain ⟨rfl, hrest⟩ := List.cons.inj heq
      rw [List.forall_mem_cons] at hbefore
      exact hothers hbefore.1 before e after hrest hbefore.2

/-! ### One datagram -/

/-- A field is stored with its lower byte first. -/
theorem fieldBytes_fieldAt (buf : ℕ → UInt8) (i : ℕ) :
    fieldBytes (fieldAt buf i) = [buf i, buf (i + 1)] := by
  have hbit (j : ℕ) : (fieldAt buf i).getLsbD j =
      if j < 8 then (buf i).toBitVec.getLsbD j else (buf (i + 1)).toBitVec.getLsbD (j - 8) :=
    BitVec.getLsbD_append
  have hlow : (fieldAt buf i).setWidth 8 = (buf i).toBitVec := by
    refine BitVec.eq_of_getLsbD_eq fun j hj => ?_
    rw [BitVec.getLsbD_setWidth, hbit, if_pos hj, decide_eq_true hj, Bool.true_and]
  have hhigh : (fieldAt buf i >>> 8).setWidth 8 = (buf (i + 1)).toBitVec := by
    refine BitVec.eq_of_getLsbD_eq fun j hj => ?_
    rw [BitVec.getLsbD_setWidth, BitVec.getLsbD_ushiftRight, hbit, if_neg (by omega),
      decide_eq_true hj, Bool.true_and, Nat.add_sub_cancel_left]
  rw [fieldBytes, hlow, hhigh]

/-- The identifier and the sequence number of a request. -/
theorem drop_pingRequest (inetChksum : List UInt8 → BitVec 16) (sequenceNumber : BitVec 16) :
    ((pingRequest inetChksum sequenceNumber).drop 4).take 4 =
      fieldBytes pingId ++ fieldBytes (htons sequenceNumber) := rfl

/-- All bytes that are looked at have been received if the header fits. -/
theorem testReply_bounds_iff (sequenceNumber : BitVec 16) (d : Received) :
    (∀ i ∈ (testReply sequenceNumber d).2, (i : ℤ) < d.len) ↔ d.HeaderFits := by
  have hreads (o : ℕ) : (∀ i ∈ 0 :: fieldIndices (o + 4), (i : ℤ) < d.len) ↔
      (o + 6 : ℕ) ≤ d.len := by
    simp only [fieldIndices, List.forall_mem_cons]
    constructor
    · rintro ⟨-, -, hlast, -⟩
      omega
    · intro hfits
      exact ⟨by omega, by omega, by omega, fun i hi => by cases hi⟩
  have hreads' (o : ℕ) :
      (∀ i ∈ 0 :: fieldIndices (o + 4) ++ fieldIndices (o + 6), (i : ℤ) < d.len) ↔
        (o + 8 : ℕ) ≤ d.len := by
    rw [List.forall_mem_append, hreads]
    simp only [fieldIndices, List.forall_mem_cons]
    constructor
    · rintro ⟨-, -, hlast, -⟩
      omega
    · intro hfits
      exact ⟨by omega, by omega, by omega, fun i hi => by cases hi⟩
  have hreads'' (o : ℕ) :
      (∀ i ∈ 0 :: fieldIndices (o + 4) ++ fieldIndices (o + 6) ++ [o], (i : ℤ) < d.len) ↔
        (o + 8 : ℕ) ≤ d.len := by
    rw [List.forall_mem_append, hreads', List.forall_mem_singleton]
    omega
  have hle : (d.offset + 8 : ℕ) ≤ d.len → (d.offset + 6 : ℕ) ≤ d.len := by omega
  unfold testReply Received.HeaderFits
  dsimp only
  split_ifs with hlen hid hseq
  · rw [hreads'']
    exact ⟨fun h _ => ⟨hle h, fun _ => h⟩, fun h => (h hlen).2 hid⟩
  · rw [hreads']
    exact ⟨fun h _ => ⟨hle h, fun _ => h⟩, fun h => (h hlen).2 hid⟩
  · rw [hreads]
    exact ⟨fun h _ => ⟨h, fun hmatch => absurd hmatch hid⟩, fun h => (h hlen).1⟩
  · exact iff_of_true (fun i hi => by cases hi) fun hlong => absurd hlong hlen

/-- A datagram that is accepted contains the reply if its header fits. -/
theorem containsReply_of_accepted {sequenceNumber : BitVec 16} {d : Received}
    (inetChksum : List UInt8 → BitVec 16) (hfits : d.HeaderFits)
    (haccepted : (testReply sequenceNumber d).1 = true) :
    ContainsReply (pingRequest inetChksum sequenceNumber) d := by
  unfold testReply at haccepted
  dsimp only at haccepted
  split_ifs at haccepted with hlen hid hseq
  refine ⟨(hfits hlen).2 hid, of_decide_eq_true haccepted, hid, ?_⟩
  rw [drop_pingRequest, ← hid, ← hseq, fieldBytes_fieldAt, fieldBytes_fieldAt]
  rfl

/-! ### Any number of datagrams -/

/-- A call looks at received bytes only if the headers fit. -/
theorem receivePing_bounds_iff (sequenceNumber : BitVec 16) (ds : List Received) :
    (∀ p ∈ (receivePing sequenceNumber ds).inspected, ∀ i ∈ p.2, (i : ℤ) < p.1.len) ↔
      HeadersFit sequenceNumber ds := by
  induction ds with
  | nil =>
    refine iff_of_true (fun p hp => by cases hp) ?_
    intro before d after heq
    simp at heq
  | cons d ds ih =>
    rw [headersFit_cons, receivePing]
    dsimp only
    split_ifs with hclosed haccepted
    · have hends : ends sequenceNumber d = true := by simp [ends, hclosed]
      refine iff_of_true (fun p hp => by cases hp) ⟨fun hlen => ?_, fun h => ?_⟩
      · have hsizes : ipHdrSize + icmpEchoHdrSize = 28 := rfl
        omega
      · rw [hends] at h
        cases h
    · have hends : ends sequenceNumber d = true := by simp [ends, haccepted]
      simp [hends, testReply_bounds_iff]
    · have hends : ends sequenceNumber d = false := by simp [ends, hclosed, haccepted]
      rw [List.forall_mem_cons, testReply_bounds_iff, ih]
      simp [hends]

/-- A call that succeeds has accepted a datagram whose header fits, if all of them do. -/
theorem receivePing_ok {sequenceNumber : BitVec 16} {ds : List Received}
    (hfits : HeadersFit sequenceNumber ds)
    (hok : (receivePing sequenceNumber ds).result = some .ok) :
    ∃ d ∈ ds, d.HeaderFits ∧ (testReply sequenceNumber d).1 = true := by
  induction ds with
  | nil => cases hok
  | cons d ds ih =>
    rw [headersFit_cons] at hfits
    rw [receivePing] at hok
    dsimp only at hok
    split_ifs at hok with hclosed haccepted
    · cases hok
    · exact ⟨d, List.mem_cons_self, hfits.1, haccepted⟩
    · have hends : ends sequenceNumber d = false := by simp [ends, hclosed, haccepted]
      obtain ⟨e, he, hfound⟩ := ih (hfits.2 hends) hok
      exact ⟨e, List.mem_cons_of_mem _ he, hfound⟩

/-- A call succeeds, or times out, or goes on to the next datagram. -/
theorem receivePing_result (sequenceNumber : BitVec 16) (ds : List Received) :
    (receivePing sequenceNumber ds).result = some .ok ∨
      (receivePing sequenceNumber ds).result = some .timeout ∨
        (receivePing sequenceNumber ds).result = none := by
  induction ds with
  | nil => exact Or.inr (Or.inr rfl)
  | cons d ds ih =>
    rw [receivePing]
    dsimp only
    split_ifs
    · exact Or.inr (Or.inl rfl)
    · exact Or.inl rfl
    · exact ih

/-- **Request lemma.** The packet sent last was built with the current sequence number. -/
theorem request_afterSends {inetChksum : List UInt8 → BitVec 16} {sends : List (Bool × ℤ)}
    {request : List UInt8} (h : (afterSends inetChksum sends).request = some request) :
    request = pingRequest inetChksum (afterSends inetChksum sends).sequenceNumber := by
  induction sends using List.reverseRecOn with
  | nil => cases h
  | append_singleton sends outcome ih =>
    have hlast : afterSends inetChksum (sends ++ [outcome]) =
        (sendPing inetChksum (afterSends inetChksum sends) outcome.1 outcome.2).2 := by
      rw [afterSends, List.foldl_append]
      rfl
    rw [hlast, sendPing] at h ⊢
    cases hallocated : outcome.1 with
    | true =>
      rw [hallocated] at h
      exact (Option.some.inj h).symm
    | false =>
      rw [hallocated] at h
      exact ih h

/-- **Replies to pings.** `ReceivePing` is safe exactly if the part of the ICMP header that it
looks at fits into every datagram up to the one with which it returns. -/
theorem receivePing_safe_iff {inetChksum : List UInt8 → BitVec 16} {sends : List (Bool × ℤ)}
    {request : List UInt8} (h : (afterSends inetChksum sends).request = some request)
    (ds : List Received) :
    PingSafe request ds (receivePing (afterSends inetChksum sends).sequenceNumber ds) ↔
      HeadersFit (afterSends inetChksum sends).sequenceNumber ds := by
  constructor
  · intro hsafe
    exact (receivePing_bounds_iff _ ds).mp hsafe.bounds
  · intro hfits
    refine ⟨(receivePing_bounds_iff _ ds).mpr hfits, fun hok => ?_, receivePing_result _ ds⟩
    obtain ⟨d, hd, hd', haccepted⟩ := receivePing_ok hfits hok
    rw [request_afterSends h]
    exact ⟨d, hd, containsReply_of_accepted inetChksum hd' haccepted⟩

/-- A datagram of 60 bytes with a header length field of `n`, and zeros behind it. -/
def headerDatagram (n : UInt8) : Received where
  len := 60
  len_le := by decide
  buf i := if i = 0 then 0x40 ||| n else 0

/-- A reply to the first request, behind an IP header of 20 bytes. -/
def replyDatagram : Received where
  len := 60
  len_le := by decide
  buf i := if i = 0 then 0x45 else if i = 24 ∨ i = 25 then 0xaf else if i = 27 then 1 else 0

/-- Usual IP headers of 20 bytes, first of another datagram and then of the reply. -/
theorem receivePing_safe_iff_usual :
    (receivePing 1 [headerDatagram 5, replyDatagram]).result = some .ok ∧
      PingSafe (pingRequest (fun _ => 0) 1) [headerDatagram 5, replyDatagram]
        (receivePing 1 [headerDatagram 5, replyDatagram]) := by
  have hrequest : (afterSends (fun _ => 0) [(true, 40)]).request =
      some (pingRequest (fun _ => 0) 1) := rfl
  refine ⟨by decide, (receivePing_safe_iff hrequest _).mpr ?_⟩
  rw [headersFit_cons, headersFit_cons]
  refine ⟨fun _ => by decide, fun _ => ⟨fun _ => by decide, ?_⟩⟩
  intro _ before d after heq
  simp at heq

/-- An IP header of 60 bytes leaves nothing of the datagram for the ICMP header. -/
theorem not_receivePing_safe :
    ¬ ∀ (inetChksum : List UInt8 → BitVec 16) (sends : List (Bool × ℤ)) (request : List UInt8)
      (ds : List Received), (afterSends inetChksum sends).request = some request →
        PingSafe request ds (receivePing (afterSends inetChksum sends).sequenceNumber ds) := by
  intro hall
  have hsafe := hall (fun _ => 0) [(true, 40)] _ [headerDatagram 15] rfl
  have hfits := (receivePing_bounds_iff _ _).mp hsafe.bounds
  rw [headersFit_cons] at hfits
  have hheader := (hfits.1 (by decide)).1
  revert hheader
  decide

end WifiMcu.System
