import WifiMcu.Mqtt.Framing

/-!
# Successive calls

The peer sends one packet behind the other, and successive calls of `readPacket`
should return them in order. A call that fails must leave the stream alone, since
nothing else remembers what has been read. Both hold exactly for streams that are
not disturbed inside of a packet.
-/

namespace WifiMcu.Mqtt

open Delivery Memory

variable {ε : Type}

/-- Successive calls of `readPacket` return the given packets. -/
def Receives (B : Binding ε) (size : ℕ) : (ℕ → UInt8) → Feed ε → List Packet → Prop
  | _, _, [] => True
  | readbuf, ev, p :: ps =>
    let r := readPacket B.read readbuf ev
    Returns B size readbuf ev p ∧ Receives B size (storeAll readbuf r.stores) r.rest ps

/-- A number of successive calls of `readPacket` on a stream of packets: each of them
fails and leaves the stream as it is, or returns the next packet. A call that waits
for more has nothing left to return. -/
def Framed (B : Binding ε) (size : ℕ) : ℕ → (ℕ → UInt8) → Feed ε → List Packet → Prop
  | 0, _, _, _ => True
  | n + 1, readbuf, ev, ps =>
    let r := readPacket B.read readbuf ev
    let after := Framed B size n (storeAll readbuf r.stores) r.rest
    (r.rc = none ∧ ps = []) ∨ (r.rc = some (-1) ∧ content r.rest = content ev ∧ after ps) ∨
      ∃ p ps', ps = p :: ps' ∧ Returns B size readbuf ev p ∧ after ps'

/-- A call that fails at once leaves the stream and the buffer as they were. -/
theorem framed_fail_iff {B : Binding ε} {size : ℕ} {readbuf : ℕ → UInt8} {e : ε} {ev : Feed ε}
    {ps : List Packet} (he : B.stops e = true) :
    (∀ n, Framed B size n readbuf (.fail e :: ev) ps) ↔ ∀ n, Framed B size n readbuf ev ps := by
  have hread : readPacket B.read readbuf (.fail e :: ev) = ⟨some (-1), [(0, [])], ev⟩ :=
    readPacket_error (next_fail he ev) readbuf
  have hbuf : storeAll readbuf [(0, [])] = readbuf := writeBlock_nil readbuf 0
  have hstep (n : ℕ) : Framed B size (n + 1) readbuf (.fail e :: ev) ps ↔
      Framed B size n readbuf ev ps := by
    rw [Framed, hread]
    dsimp only
    rw [hbuf]
    constructor
    · rintro (⟨hrc, -⟩ | ⟨-, -, hafter⟩ | ⟨p, -, -, ⟨hrc, -⟩, -⟩)
      · cases hrc
      · exact hafter
      · rw [hread] at hrc
        have := Option.some.inj hrc
        omega
    · intro hafter
      exact Or.inr (Or.inl ⟨rfl, rfl, hafter⟩)
  constructor
  · intro h n
    exact (hstep n).mp (h (n + 1))
  · intro h n
    cases n with
    | zero => trivial
    | succ n => exact (hstep n).mpr (h n)

/-- Calls that fail before the next chunk do not matter. -/
theorem framed_dropFailures_iff {B : Binding ε} {size : ℕ} {readbuf : ℕ → UInt8} {ev : Feed ε}
    {ps : List Packet} (hstops : Failures (fun e => B.stops e = true) ev) :
    (∀ n, Framed B size n readbuf ev ps) ↔ ∀ n, Framed B size n readbuf (dropFailures ev) ps := by
  induction ev with
  | nil => rfl
  | cons event ev ih =>
    cases event with
    | data first others => rfl
    | fail e => exact (framed_fail_iff (hstops e List.mem_cons_self)).trans (ih hstops.tail)

/-- **Run lemma.** Where every failure ends a call, any number of calls keeps to the
packets of the stream exactly if the stream is undisturbed. -/
theorem framed_iff (B : Binding ε) {size : ℕ} {ps : List Packet} {ev : Feed ε}
    (hfit : ∀ p ∈ ps, p.bytes.length ≤ size) (hstops : Failures (fun e => B.stops e = true) ev)
    (hcontent : content ev = stream ps) (readbuf : ℕ → UInt8) :
    (∀ n, Framed B size n readbuf ev ps) ↔ Undisturbed B ev ps := by
  induction ps generalizing ev readbuf with
  | nil =>
    refine iff_of_true ?_ trivial
    rw [framed_dropFailures_iff hstops, dropFailures_eq_nil hcontent]
    intro n
    cases n with
    | zero => trivial
    | succ n =>
      have hnext : next B.stops ([] : Feed ε) = none := rfl
      exact Or.inl ⟨by rw [readPacket_none hnext], rfl⟩
  | cons p ps ih =>
    rw [framed_dropFailures_iff hstops]
    rcases readPacket_step B (hfit p List.mem_cons_self) (failures_dropFailures hstops)
      (headLength_stream hcontent) ((content_dropFailures ev).trans hcontent) readbuf with
      ⟨rest, htakes, hrest, hreturns, hmore⟩ | ⟨htakes, hreturns, hlost⟩
    · have hstops' := failures_takesPacket (failures_dropFailures hstops) htakes
      rw [undisturbed_cons_iff htakes,
        ← ih (fun q hq => hfit q (List.mem_cons_of_mem _ hq)) hstops' hmore
          (storeAll readbuf (readPacket B.read readbuf (dropFailures ev)).stores)]
      constructor
      · intro h n
        rcases h (n + 1) with ⟨hrc, -⟩ | ⟨hrc, -⟩ | ⟨q, qs, heq, -, hafter⟩
        · rw [hreturns.1] at hrc
          cases hrc
        · rw [hreturns.1] at hrc
          have := Option.some.inj hrc
          omega
        · obtain ⟨rfl, rfl⟩ := List.cons.inj heq
          rw [hrest] at hafter
          exact hafter
      · intro h n
        cases n with
        | zero => trivial
        | succ n =>
          refine Or.inr (Or.inr ⟨p, ps, rfl, hreturns, ?_⟩)
          rw [hrest]
          exact h n
    · refine iff_of_false (fun h => ?_) (not_undisturbed_cons htakes)
      rcases h 1 with ⟨-, hnil⟩ | ⟨-, hkept, -⟩ | ⟨q, qs, heq, hq, -⟩
      · cases hnil
      · exact hlost hkept
      · obtain ⟨rfl, rfl⟩ := List.cons.inj heq
        exact hreturns hq

/-- Without failures, successive calls return the packets of the stream exactly if one
call of `mqttread` can get every body. -/
theorem receives_iff (B : Binding ε) {size : ℕ} {ps : List Packet} {ev : Feed ε}
    (hfit : ∀ p ∈ ps, p.bytes.length ≤ size) (hnone : Failures (fun _ => False) ev)
    (hcontent : content ev = stream ps) (readbuf : ℕ → UInt8) :
    Receives B size readbuf ev ps ↔ Undisturbed B ev ps := by
  induction ps generalizing ev readbuf with
  | nil => exact iff_of_true trivial trivial
  | cons p ps ih =>
    have hdata := headLength_stream hcontent
    have hfirst := @undisturbed_cons_iff _ B ev
    have hdisturbed := @not_undisturbed_cons _ B ev
    rw [dropFailures_eq_self hnone] at hdata hfirst hdisturbed
    rw [Receives]
    rcases readPacket_step B (hfit p List.mem_cons_self) (hnone.imp fun _ => False.elim) hdata
      hcontent readbuf with ⟨rest, htakes, hrest, hreturns, hmore⟩ | ⟨htakes, hreturns, -⟩
    · rw [hfirst htakes, hrest,
        ih (fun q hq => hfit q (List.mem_cons_of_mem _ hq)) (failures_takesPacket hnone htakes) hmore]
      exact and_iff_right hreturns
    · exact iff_of_false (fun h => hreturns h.1) (hdisturbed htakes)

/-- The plain binding waits for all of a body, so that without failures nothing disturbs
the stream. -/
theorem undisturbed_lwip {ps : List Packet} {ev : Feed LwipFailure}
    (hnone : Failures (fun _ => False) ev) (hcontent : content ev = stream ps) :
    Undisturbed lwip ev ps := by
  induction ps generalizing ev with
  | nil => trivial
  | cons p ps ih =>
    have hadvance {n : ℕ} {ev : Feed LwipFailure} (hnone : Failures (fun _ => False) ev)
        (hn : n ≤ (content ev).length) : ∃ rest, advance n ev = some rest := by
      have hstops : Failures (fun e => e.breaks = true) ev := hnone.imp fun _ => False.elim
      refine Option.isSome_iff_exists.mp ((advance_isSome_iff hstops).mpr ?_)
      rw [before_eq_length hnone]
      exact hn
    have htotal := congrArg List.length hcontent
    rw [stream, List.length_append, p.length_bytes] at htotal
    obtain ⟨body, hhead⟩ := hadvance hnone (n := 1 + p.length.length) (by omega)
    have hnoneBody := hnone.advance hhead
    have hbody : content body = p.body ++ stream ps := by
      rw [← (content_advance hhead).1, hcontent, stream, Packet.bytes, Nat.add_comm]
      simp
    obtain ⟨rest, hrest⟩ := hadvance hnoneBody (n := p.body.length) (by
      rw [hbody, List.length_append]
      omega)
    have hmore : content rest = stream ps := by
      rw [← (content_advance hrest).1, hbody, List.drop_left]
    rw [Undisturbed, dropFailures_eq_self hnone]
    refine ⟨rest, ?_, ih (hnoneBody.advance hrest) hmore⟩
    rw [takesPacket, hhead, Option.bind_some, if_pos, hrest]
    show p.body.length ≤ before _ body
    rw [before_eq_length hnoneBody, hbody, List.length_append]
    omega

/-- **The bindings and framing.** For a stream of packets that fit, delivered without
failures in one way to the plain binding and in another way to the TLS binding,
both return exactly the packets of the stream, if and only if the TLS binding gets
every body in one piece. -/
theorem bindings_receive_iff {size : ℕ} {ps : List Packet} {evLwip : Feed LwipFailure}
    {evTls : Feed TlsFailure} (hfit : ∀ p ∈ ps, p.bytes.length ≤ size)
    (hnoneLwip : Failures (fun _ => False) evLwip) (hnoneTls : Failures (fun _ => False) evTls)
    (hlwip : content evLwip = stream ps) (htls : content evTls = stream ps)
    (readbuf : ℕ → UInt8) :
    (Receives lwip size readbuf evLwip ps ∧ Receives tls size readbuf evTls ps) ↔
      Undisturbed tls evTls ps := by
  rw [receives_iff lwip hfit hnoneLwip hlwip, receives_iff tls hfit hnoneTls htls]
  constructor
  · intro h
    exact h.2
  · intro h
    exact ⟨undisturbed_lwip hnoneLwip hlwip, h⟩

/-- A TLS record that ends behind the length field does not disturb the packet. -/
theorem bindings_receive_iff_puback :
    Receives lwip 5 (fun _ => 0) [.data 0x40 [2, 0], .data 7 []] [⟨0x40, [0, 7], by decide⟩] ∧
      Receives tls 5 (fun _ => 0) [.data 0x40 [2], .data 0 [7]] [⟨0x40, [0, 7], by decide⟩] := by
  refine (bindings_receive_iff ?_ ?_ ?_ ?_ ?_ fun _ => 0).mpr ⟨[], ?_, trivial⟩
  · intro p hp
    rw [List.mem_singleton.mp hp]
    decide +kernel
  · intro e he
    simp at he
  · intro e he
    simp at he
  · decide +kernel
  · decide +kernel
  · decide +kernel

/-- A TLS record that ends inside of the body makes the TLS binding lose the packet. -/
theorem bindings_not_receive :
    ¬ (Receives lwip 5 (fun _ => 0) [.data 0x40 [2, 0], .data 7 []]
          [⟨0x40, [0, 7], by decide⟩] ∧
        Receives tls 5 (fun _ => 0) [.data 0x40 [2, 0], .data 7 []]
          [⟨0x40, [0, 7], by decide⟩]) := by
  rintro ⟨-, hreturns, -⟩
  have hfails : (readPacket tls.read (fun _ => 0) [.data 0x40 [2, 0], .data 7 []]).rc =
      some (-1) := by
    decide +kernel
  have htype := hreturns.1
  rw [hfails] at htype
  cases htype

/-- **Timeouts and framing.** For a stream of packets that fit, with timeouts anywhere
between its bytes, every number of calls with either binding keeps to the packets
of the stream, if and only if the stream is undisturbed. -/
theorem readPacket_framed_iff {size : ℕ} {ps : List Packet}
    (hfit : ∀ p ∈ ps, p.bytes.length ≤ size) (readbuf : ℕ → UInt8) :
    (∀ ev, Failures (fun e => e = .error .ewouldblock) ev → content ev = stream ps →
        ((∀ n, Framed lwip size n readbuf ev ps) ↔ Undisturbed lwip ev ps)) ∧
      ∀ ev, Failures (fun e => e = .timeout) ev → content ev = stream ps →
        ((∀ n, Framed tls size n readbuf ev ps) ↔ Undisturbed tls ev ps) := by
  constructor
  · intro ev htimeouts hcontent
    refine framed_iff lwip hfit (htimeouts.imp ?_) hcontent readbuf
    rintro e rfl
    rfl
  · intro ev htimeouts hcontent
    exact framed_iff tls hfit (htimeouts.imp fun _ _ => rfl) hcontent readbuf

/-- A timeout before a packet does no harm. -/
theorem readPacket_framed_iff_pingresp :
    Undisturbed lwip [.fail (.error .ewouldblock), .data 0xD0 [0]] [⟨0xD0, [], by decide⟩] ∧
      ∀ n, Framed lwip 5 n (fun _ => 0) [.fail (.error .ewouldblock), .data 0xD0 [0]]
        [⟨0xD0, [], by decide⟩] := by
  have hundisturbed : Undisturbed lwip [.fail (.error .ewouldblock), .data 0xD0 [0]]
      [⟨0xD0, [], by decide⟩] :=
    ⟨[], by decide +kernel, trivial⟩
  refine ⟨hundisturbed, ((readPacket_framed_iff ?_ fun _ => 0).1 _ ?_ ?_).mpr hundisturbed⟩
  · intro p hp
    rw [List.mem_singleton.mp hp]
    decide +kernel
  · intro e he
    simpa using he
  · decide +kernel

/-- A timeout behind the header byte makes `readPacket` return a packet whose length it has
not read. -/
theorem readPacket_not_framed :
    ¬ ∀ n, Framed lwip 5 n (fun _ => 0) [.data 0xD0 [], .fail (.error .ewouldblock), .data 0 []]
      [⟨0xD0, [], by decide⟩] := by
  intro h
  have hread : readPacket lwip.read (fun _ => 0)
      [.data 0xD0 [], .fail (.error .ewouldblock), .data 0 []] =
        ⟨some 13, [(0, [0xD0]), (1, [0])], [.data 0 []]⟩ := by
    decide +kernel
  rcases h 1 with ⟨-, hnil⟩ | ⟨hrc, -⟩ | ⟨p, ps, heq, hreturns, -⟩
  · cases hnil
  · rw [hread] at hrc
    cases hrc
  · obtain ⟨rfl, rfl⟩ := List.cons.inj heq
    have hcontent := congrArg List.length hreturns.2.1
    rw [hread] at hcontent
    revert hcontent
    decide +kernel

end WifiMcu.Mqtt
