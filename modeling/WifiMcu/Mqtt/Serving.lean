import WifiMcu.Mqtt.Reactions

/-!
# Serving a stream

The background task of the client runs one cycle after the other. It does what it should
do about the packets that arrive, whatever pieces they arrive in, and nothing else.
-/

namespace WifiMcu.Mqtt

open Delivery Memory

variable {ε : Type}

/-- `MQTTRun`, for a number of rounds of its loop. What a cycle returns makes no difference. -/
def mqttRun (read : ℕ → Feed ε → ReadResult ε) (call : Handlers ε) :
    ℕ → Session ε → Option (Session ε)
  | 0, s => some s
  | n + 1, s => do
    let (_, s) ← cycle read call s
    mqttRun read call n s

/-- The part of a client that no cycle changes. -/
def Client.SameSetup (c c' : Client) : Prop :=
  c'.bufSize = c.bufSize ∧ c'.keepAliveInterval = c.keepAliveInterval ∧
    c'.messageHandlers = c.messageHandlers ∧ c'.defaultMessageHandler = c.defaultMessageHandler

/-- A setup that stays the same in two steps stays the same. -/
theorem Client.SameSetup.trans {c d e : Client} (h : c.SameSetup d) (h' : d.SameSetup e) :
    c.SameSetup e := by
  obtain ⟨hsize, hinterval, htable, hdefault⟩ := h
  obtain ⟨hsize', hinterval', htable', hdefault'⟩ := h'
  exact ⟨hsize'.trans hsize, hinterval'.trans hinterval, htable'.trans htable,
    hdefault'.trans hdefault⟩

/-- From one state of a session to another one, the given results of the timers and of the
transport are used, the given entries are added to the journal, and nothing is read. -/
structure Passes (s s' : Session ε) (expired : List Bool) (writes : List ℤ)
    (entries : List (List UInt8 × ℤ)) : Prop where
  expired : s.expired = expired ++ s'.expired
  writes : s.writes = writes ++ s'.writes
  offered : s'.offered = s.offered ++ entries
  feed : s'.feed = s.feed
  readbuf : s'.client.readbuf = s.client.readbuf
  setup : s.client.SameSetup s'.client

/-- Two parts of a cycle one after the other. -/
theorem Passes.trans {s t u : Session ε} {expired expired' : List Bool} {writes writes' : List ℤ}
    {entries entries' : List (List UInt8 × ℤ)} (h : Passes s t expired writes entries)
    (h' : Passes t u expired' writes' entries') :
    Passes s u (expired ++ expired') (writes ++ writes') (entries ++ entries') := by
  refine ⟨?_, ?_, ?_, h'.feed.trans h.feed, h'.readbuf.trans h.readbuf, h.setup.trans h'.setup⟩
  · rw [h.expired, h'.expired, List.append_assoc]
  · rw [h.writes, h'.writes, List.append_assoc]
  · rw [h'.offered, h.offered, List.append_assoc]

/-- A part of a cycle that does nothing. -/
theorem Passes.refl (s : Session ε) : Passes s s [] [] [] :=
  ⟨rfl, rfl, (List.append_nil _).symm, rfl, rfl, rfl, rfl, rfl, rfl⟩

/-- What is left for the other part after a part of a cycle. -/
theorem Passes.rest {s s' : Session ε} {expired expired' : List Bool} {writes writes' : List ℤ}
    {entries : List (List UInt8 × ℤ)} (h : Passes s s' expired writes entries)
    (hexpired : s.expired = expired ++ expired') (hwrites : s.writes = writes ++ writes') :
    s'.expired = expired' ∧ s'.writes = writes' :=
  ⟨List.append_cancel_left (h.expired.symm.trans hexpired),
    List.append_cancel_left (h.writes.symm.trans hwrites)⟩

/-- One index of the table, by the handler that is called there. -/
theorem deliverLoop_cons (call : Handlers ε) (topicName : List UInt8) (message : Message) (i : ℕ)
    (indices : List ℕ) (rc : ℤ) (s : Session ε) :
    deliverLoop call topicName message (i :: indices) rc s =
      match receiverAt s.client.messageHandlers topicName i with
      | some fp => (call fp topicName message s).bind
          (deliverLoop call topicName message indices mqttSuccess)
      | none => deliverLoop call topicName message indices rc s := by
  rw [deliverLoop, receiverAt]
  rcases s.client.messageHandlers[i]? with _ | ⟨_ | topicFilter, _ | fp⟩
  · rfl
  · rfl
  · rfl
  · rfl
  · dsimp only
    split_ifs
    · rfl
    · rfl

/-- The reactions depend on the setup of the client only. -/
theorem react_setup (log : ℕ → Delivered → List (List UInt8 × ℤ)) {c c' : Client}
    (h : c.SameSetup c') (outstanding : Bool) (arrival : Option Incoming) (due : Bool) :
    react log c' outstanding arrival due = react log c outstanding arrival due := by
  obtain ⟨-, hinterval, htable, hdefault⟩ := h
  have hdeliveries : Incoming.deliveries log c' = Incoming.deliveries log c := by
    funext incoming
    cases incoming with
    | publish p =>
      rw [Incoming.deliveries, Incoming.deliveries, Client.receivers, Client.receivers, htable,
        hdefault]
    | _ => rfl
  rw [react, react, hdeliveries, keepaliveTimers, keepaliveTimers, pings, pings, hinterval]

/-- All of the reactions depend on the setup of the client only. -/
theorem reactAll_setup (log : ℕ → Delivered → List (List UInt8 × ℤ)) {c c' : Client}
    (h : c.SameSetup c') (turns : List (Option Incoming × Bool)) (outstanding : Bool) :
    reactAll log c' outstanding turns = reactAll log c outstanding turns := by
  induction turns generalizing outstanding with
  | nil => rfl
  | cons turn turns ih => rw [reactAll, reactAll, react_setup log h, ih]

/-- What the client needs for some turns: room for an acknowledgement, the events that
bring what arrives, and the results of the timers and of the transport for what it
should do about it. What is left of them is given as well. -/
structure Supplied (B : Binding ε) (log : ℕ → Delivered → List (List UInt8 × ℤ))
    (turns : List (Option Incoming × Bool)) (s : Session ε) (rest : Feed ε)
    (expired : List Bool) (writes : List ℤ) : Prop where
  room : 4 ≤ s.client.bufSize
  stops : Failures (fun e => B.stops e = true) s.feed
  arrives : ArrivesAll B s.feed turns rest
  expired : s.expired =
    (reactAll log s.client s.client.pingOutstanding turns).expired ++ expired
  writes : s.writes = (reactAll log s.client s.client.pingOutstanding turns).writes ++ writes

/-- From one state of a session to another one, the client has done what it should do in
some turns, and nothing else. -/
structure Reacted (log : ℕ → Delivered → List (List UInt8 × ℤ))
    (turns : List (Option Incoming × Bool)) (s s' : Session ε) : Prop where
  offered : s'.offered = s.offered ++
    (reactAll log s.client s.client.pingOutstanding turns).entries
  outstanding : s'.client.pingOutstanding =
    (reactAll log s.client s.client.pingOutstanding turns).outstanding
  setup : s.client.SameSetup s'.client

/-- A client that has done nothing yet. -/
theorem Reacted.refl (log : ℕ → Delivered → List (List UInt8 × ℤ)) (s : Session ε) :
    Reacted log [] s s :=
  ⟨(List.append_nil _).symm, rfl, rfl, rfl, rfl, rfl⟩

/-- One turn before the other ones. -/
theorem Reacted.cons {log : ℕ → Delivered → List (List UInt8 × ℤ)} {turn : Option Incoming × Bool}
    {turns : List (Option Incoming × Bool)} {s t u : Session ε} (h : Reacted log [turn] s t)
    (h' : Reacted log turns t u) : Reacted log (turn :: turns) s u := by
  obtain ⟨arrival, due⟩ := turn
  have hreact := reactAll_setup log h.setup turns t.client.pingOutstanding
  have hoffered := h'.offered
  have houtstanding := h'.outstanding
  rw [hreact, h.outstanding] at hoffered houtstanding
  refine ⟨?_, houtstanding, h.setup.trans h'.setup⟩
  rw [hoffered, h.offered, List.append_assoc, reactAll, reactAll, reactAll]
  dsimp only
  rw [List.append_nil]

/-- What the client needs depends on its setup and its environment only. -/
theorem Supplied.congr {B : Binding ε} {log : ℕ → Delivered → List (List UInt8 × ℤ)}
    {turns : List (Option Incoming × Bool)} {s t : Session ε} {rest : Feed ε}
    {expired : List Bool} {writes : List ℤ} (h : Supplied B log turns s rest expired writes)
    (hsetup : s.client.SameSetup t.client)
    (hping : t.client.pingOutstanding = s.client.pingOutstanding) (hfeed : t.feed = s.feed)
    (hexpired : t.expired = s.expired) (hwrites : t.writes = s.writes) :
    Supplied B log turns t rest expired writes := by
  have hreact := reactAll_setup log hsetup turns s.client.pingOutstanding
  refine ⟨?_, ?_, ?_, ?_, ?_⟩
  · rw [hsetup.1]
    exact h.room
  · rw [hfeed]
    exact h.stops
  · rw [hfeed]
    exact h.arrives
  · rw [hexpired, hping, hreact]
    exact h.expired
  · rw [hwrites, hping, hreact]
    exact h.writes

/-- What the client should have done depends on its setup before it only. -/
theorem Reacted.congr {log : ℕ → Delivered → List (List UInt8 × ℤ)}
    {turns : List (Option Incoming × Bool)} {s t s' : Session ε} (h : Reacted log turns t s')
    (hsetup : s.client.SameSetup t.client)
    (hping : t.client.pingOutstanding = s.client.pingOutstanding)
    (hoffered : t.offered = s.offered) : Reacted log turns s s' := by
  have hreact := reactAll_setup log hsetup turns s.client.pingOutstanding
  refine ⟨?_, ?_, hsetup.trans h.setup⟩
  · rw [h.offered, hoffered, hping, hreact]
  · rw [h.outstanding, hping, hreact]

end WifiMcu.Mqtt
