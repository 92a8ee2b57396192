import Mathlib.Data.List.Induction
import WifiMcu.Library.Transition
import WifiMcu.Mqtt.Answered
import WifiMcu.Mqtt.Growth

/-!
# Runs of calls

The application calls the client in any order, and the network and the timers do what
they like. The client seen from the outside is simple: whether it is connected, how many
packet identifiers it has issued, and the first handlers that were subscribed.
-/

namespace WifiMcu.Mqtt

variable {ε : Type}

/-- The calls of the application, and the cycles of `MQTTYield` or of the background task. -/
inductive ClientCall
  | connect (options : Option ConnectData)
  | subscribe (topicFilter : List UInt8) (qos : ℕ) (messageHandler : Option ℕ)
  | unsubscribe (topicFilter : List UInt8)
  | publish (topicName : List UInt8) (message : Outgoing)
  | disconnect
  | run (rounds : ℕ)

/-- A call, by the results of `TimerIsExpired` in the loop of `waitfor`. -/
def ClientCall.perform (read : ℕ → Feed ε → ReadResult ε) (call : Handlers ε)
    (timeouts : List Bool) (c : MqttClient ε) : ClientCall → Option (ℤ × MqttClient ε)
  | connect options => mqttConnect read call options timeouts c
  | subscribe topicFilter qos messageHandler =>
    mqttSubscribe read call (some topicFilter) qos messageHandler timeouts c
  | unsubscribe topicFilter => mqttUnsubscribe read call (some topicFilter) timeouts c
  | publish topicName message =>
    (mqttPublish read call (some topicName) message timeouts c).map fun r => (r.1, r.2.2)
  | disconnect => mqttDisconnect c
  | run rounds =>
    (mqttRun read call rounds c.session).map fun s => (mqttSuccess, { c with session := s })

/-- A call with what its environment does: what arrives, what the transport and the
timers answer, and what the call returns then. -/
structure Turn (ε : Type) where
  call : ClientCall
  arrives : Feed ε
  writes : List ℤ
  expired : List Bool
  timeouts : List Bool
  rc : ℤ

/-- A client seen from the outside. -/
structure ClientView where
  connected : Bool
  issued : ℕ
  subscriptions : List (List UInt8 × Option ℕ)
  deriving DecidableEq

/-- What a call that returns a value does to the client, seen from the outside. Nothing
that the server sends matters apart from this value, and no subscription ends. -/
def ClientView.next (v : ClientView) (call : ClientCall) (rc : ℤ) : ClientView :=
  match call with
  | .connect _ => { v with connected := v.connected || rc = mqttSuccess }
  | .subscribe topicFilter _ messageHandler =>
    { v with
      issued := if v.connected then v.issued + 1 else v.issued
      subscriptions := if rc = mqttSuccess then
          (v.subscriptions ++ [(topicFilter, messageHandler)]).take maxMessageHandlers
        else v.subscriptions }
  | .unsubscribe _ => if v.connected then { v with issued := v.issued + 1 } else v
  | .publish _ message =>
    if v.connected ∧ message.qos ≠ 0 then { v with issued := v.issued + 1 } else v
  | .disconnect => { v with connected := false }
  | .run _ => v

/-- The packet identifier that was issued last, by how many there have been. -/
def packetidAfter (issued : ℕ) : ℕ := issued % maxPacketId + 1

/-- The entry of the table for a subscription. -/
def subscriptionEntry (subscription : List UInt8 × Option ℕ) : MessageHandler :=
  ⟨some subscription.1, subscription.2⟩

/-- A table begins with the entries for some subscriptions, and the other ones are free. -/
def TableHolds (messageHandlers : List MessageHandler)
    (subscriptions : List (List UInt8 × Option ℕ)) : Prop :=
  ∃ free, messageHandlers = subscriptions.map subscriptionEntry ++ free ∧
    (∀ entry ∈ free, entry.topicFilter = none) ∧
    subscriptions.length + free.length = maxMessageHandlers

/-- A client is as it is seen from the outside. -/
structure Represents (v : ClientView) (c : MqttClient ε) : Prop where
  connected : c.isconnected = v.connected
  packetid : c.nextPacketid = packetidAfter v.issued
  table : TableHolds c.session.client.messageHandlers v.subscriptions

/-- A handler is added behind the entries that are taken. -/
theorem addHandler_append {handler : MessageHandler} {taken : List MessageHandler}
    (h : ∀ entry ∈ taken, entry.topicFilter ≠ none) (free : List MessageHandler) :
    addHandler handler (taken ++ free) = (addHandler handler free).map (taken ++ ·) := by
  induction taken with
  | nil => exact Option.map_id'.symm
  | cons entry taken ih =>
    rw [List.forall_mem_cons] at h
    rw [List.cons_append, addHandler, if_neg h.1, ih h.2, Option.map_map]
    rfl

/-- What `MQTTConnect` can do: nothing if the client is connected, or an exchange. -/
theorem mqttConnect_cases {read : ℕ → Feed ε → ReadResult ε} {call : Handlers ε}
    {options : Option ConnectData} {expired : List Bool} {rc : ℤ} {c c' : MqttClient ε}
    (h : mqttConnect read call options expired c = some (rc, c')) :
    (c.isconnected = true ∧ rc = mqttFailure ∧ c' = c) ∨
      (c.isconnected = false ∧ ∃ answered s,
        let options := options.getD .initializer
        let t := c.session.withKeepAlive options.keepAliveInterval
        exchange read call
          ((Request.connect options).serialize t.client.buf t.client.bufSize) connack expired t =
            some (answered, s) ∧
        c' = ⟨s, c.nextPacketid, decide (rc = mqttSuccess)⟩) := by
  rw [mqttConnect] at h
  split_ifs at h with hconnected
  · cases h
    exact Or.inl ⟨hconnected, rfl, rfl⟩
  · rw [Bool.not_eq_true] at hconnected
    obtain ⟨⟨answered, s⟩, hexchange, h⟩ := Option.bind_eq_some_iff.mp h
    dsimp only at h
    rw [hconnected] at h
    refine Or.inr ⟨hconnected, answered, s, hexchange, ?_⟩
    split_ifs at h
    · cases h
      rfl
    · obtain ⟨⟨deserialized, data⟩, -, h⟩ := Option.bind_eq_some_iff.mp h
      cases h
      rw [Bool.false_or]

/-- What `MQTTSubscribe` can do: nothing if the client is not connected, or an exchange with
the next packet identifier, after which it may add a handler. -/
theorem mqttSubscribe_cases {read : ℕ → Feed ε → ReadResult ε} {call : Handlers ε}
    {topicFilter : Option (List UInt8)} {qos : ℕ} {messageHandler : Option ℕ}
    {expired : List Bool} {rc : ℤ} {c c' : MqttClient ε}
    (h : mqttSubscribe read call topicFilter qos messageHandler expired c = some (rc, c')) :
    (c.isconnected = false ∧ rc = mqttFailure ∧ c' = c) ∨
      (c.isconnected = true ∧ ∃ answered s messageHandlers,
        exchange read call
          ((Request.subscribe 0 (getNextPacketId c).nextPacketid
            [(⟨topicFilter, none⟩, qos)]).serialize c.session.client.buf c.session.client.bufSize)
          suback expired c.session = some (answered, s) ∧
        c' = ⟨{ s with client := { s.client with messageHandlers } },
          (getNextPacketId c).nextPacketid, true⟩ ∧
        ((rc = mqttFailure ∧ messageHandlers = s.client.messageHandlers) ∨
          ∃ granted, (rc, messageHandlers) =
            subscribed granted ⟨topicFilter, messageHandler⟩ s.client.messageHandlers)) := by
  rw [mqttSubscribe] at h
  split_ifs at h with hconnected
  · cases h
    exact Or.inl ⟨hconnected, rfl, rfl⟩
  · rw [Bool.not_eq_false] at hconnected
    obtain ⟨⟨answered, s⟩, hexchange, h⟩ := Option.bind_eq_some_iff.mp h
    dsimp only at h
    rw [getNextPacketId_isconnected, hconnected] at h
    by_cases hanswered : answered = false
    · rw [if_pos hanswered] at h
      cases h
      exact Or.inr ⟨hconnected, _, s, _, hexchange, rfl, Or.inl ⟨rfl, rfl⟩⟩
    · rw [if_neg hanswered] at h
      obtain ⟨⟨deserialized, data⟩, -, h⟩ := Option.bind_eq_some_iff.mp h
      dsimp only at h
      by_cases hmany : (data.elim [] Prod.snd).length > 1
      · rw [if_pos hmany] at h
        cases h
      · rw [if_neg hmany] at h
        cases h
        exact Or.inr ⟨hconnected, _, s, _, hexchange, rfl, Or.inr ⟨_, rfl⟩⟩

/-- What `MQTTUnsubscribe` can do. -/
theorem mqttUnsubscribe_cases {read : ℕ → Feed ε → ReadResult ε} {call : Handlers ε}
    {topicFilter : Option (List UInt8)} {expired : List Bool} {rc : ℤ} {c c' : MqttClient ε}
    (h : mqttUnsubscribe read call topicFilter expired c = some (rc, c')) :
    (c.isconnected = false ∧ rc = mqttFailure ∧ c' = c) ∨
      (c.isconnected = true ∧ ∃ answered s,
        exchange read call
          ((Request.unsubscribe 0 (getNextPacketId c).nextPacketid
            [⟨topicFilter, none⟩]).serialize c.session.client.buf c.session.client.bufSize)
          unsuback expired c.session = some (answered, s) ∧
        c' = ⟨s, (getNextPacketId c).nextPacketid, true⟩) := by
  rw [mqttUnsubscribe] at h
  split_ifs at h with hconnected
  · cases h
    exact Or.inl ⟨hconnected, rfl, rfl⟩
  · rw [Bool.not_eq_false] at hconnected
    obtain ⟨⟨answered, s⟩, hexchange, h⟩ := Option.bind_eq_some_iff.mp h
    dsimp only at h
    rw [getNextPacketId_isconnected, hconnected] at h
    refine Or.inr ⟨hconnected, answered, s, hexchange, ?_⟩
    split_ifs at h
    · cases h
      rfl
    · obtain ⟨⟨deserialized, data⟩, -, h⟩ := Option.bind_eq_some_iff.mp h
      cases h
      rfl

/-- A message needs an answer exactly if its QoS is not 0. -/
theorem Outgoing.publishAnswer_eq_none_iff (message : Outgoing) :
    publishAnswer message.qos = none ↔ message.qos = 0 := by
  have hle := message.qos_le
  rw [publishAnswer]
  split_ifs
  · exact iff_of_false not_false (by omega)
  · exact iff_of_false not_false (by omega)
  · exact iff_of_true rfl (by omega)

/-- What `MQTTPublish` can do: nothing if the client is not connected, or it only sends the
message if its QoS is 0, or else an exchange with the next packet identifier. -/
theorem mqttPublish_cases {read : ℕ → Feed ε → ReadResult ε} {call : Handlers ε}
    {topicName : Option (List UInt8)} {message message' : Outgoing} {expired : List Bool}
    {rc : ℤ} {c c' : MqttClient ε}
    (h : mqttPublish read call topicName message expired c = some (rc, message', c')) :
    (c.isconnected = false ∧ rc = mqttFailure ∧ c' = c) ∨
      (c.isconnected = true ∧ message.qos = 0 ∧ ∃ s,
        sendSerialized ((Request.publish 0 message.qos message.retained message.id
          ⟨topicName, none⟩ message.payload).serialize c.session.client.buf
            c.session.client.bufSize) c.session = some (rc, s) ∧
        c' = ⟨s, c.nextPacketid, true⟩) ∨
      (c.isconnected = true ∧ message.qos ≠ 0 ∧ ∃ packetType answered s,
        exchange read call ((Request.publish 0 message.qos message.retained
          (getNextPacketId c).nextPacketid ⟨topicName, none⟩ message.payload).serialize
            c.session.client.buf c.session.client.bufSize) packetType expired c.session =
          some (answered, s) ∧
        c' = ⟨s, (getNextPacketId c).nextPacketid, true⟩) := by
  rw [mqttPublish] at h
  split_ifs at h with hconnected
  · cases h
    exact Or.inl ⟨hconnected, rfl, rfl⟩
  · rw [Bool.not_eq_false] at hconnected
    have hanswer := message.publishAnswer_eq_none_iff
    dsimp only at h
    cases hneeds : publishAnswer message.qos with
    | none =>
      rw [hneeds] at h
      obtain ⟨⟨rc', s⟩, hsend, h⟩ := Option.bind_eq_some_iff.mp h
      cases h
      rw [hconnected]
      exact Or.inr (Or.inl ⟨rfl, hanswer.mp hneeds, s, hsend, rfl⟩)
    | some packetType =>
      have hqos : message.qos ≠ 0 := by
        intro hzero
        rw [hanswer.mpr hzero] at hneeds
        cases hneeds
      rw [hneeds] at h
      obtain ⟨⟨answered, s⟩, hexchange, h⟩ := Option.bind_eq_some_iff.mp h
      dsimp only at h
      rw [getNextPacketId_isconnected, hconnected] at h
      refine Or.inr (Or.inr ⟨hconnected, hqos, packetType, answered, s, hexchange, ?_⟩)
      split_ifs at h
      · cases h
        rfl
      · obtain ⟨⟨deserialized, data⟩, -, h⟩ := Option.bind_eq_some_iff.mp h
        cases h
        rfl

/-- A representation depends on what the calls can change only. -/
theorem Represents.of_eq {v : ClientView} {c c' : MqttClient ε} {issued : ℕ}
    (h : Represents v c) (hconnected : c'.isconnected = c.isconnected)
    (hpacketid : c'.nextPacketid = packetidAfter issued)
    (htable : c'.session.client.messageHandlers = c.session.client.messageHandlers) :
    Represents { v with issued } c' := by
  refine ⟨hconnected.trans h.connected, hpacketid, ?_⟩
  rw [htable]
  exact h.table

/-- What the table is after a subscription that returns a value. -/
theorem TableHolds.subscribed {messageHandlers messageHandlers' : List MessageHandler}
    {subscriptions : List (List UInt8 × Option ℕ)} {topicFilter : List UInt8}
    {messageHandler : Option ℕ} {rc granted : ℤ} (h : TableHolds messageHandlers subscriptions)
    (houtcome : (rc, messageHandlers') =
      Mqtt.subscribed granted ⟨some topicFilter, messageHandler⟩ messageHandlers) :
    TableHolds messageHandlers' (if rc = mqttSuccess then
      (subscriptions ++ [(topicFilter, messageHandler)]).take maxMessageHandlers
      else subscriptions) := by
  obtain ⟨free, rfl, hfree, hlength⟩ := h
  have htaken : ∀ entry ∈ subscriptions.map subscriptionEntry, entry.topicFilter ≠ none := by
    intro entry hentry
    obtain ⟨subscription, -, rfl⟩ := List.mem_map.mp hentry
    exact Option.some_ne_none _
  rw [Mqtt.subscribed, addHandler_append htaken] at houtcome
  by_cases hrefused : granted = 0x80
  · rw [if_pos hrefused] at houtcome
    obtain ⟨rfl, rfl⟩ := Prod.mk.inj houtcome
    rw [if_neg (by rw [hrefused]; decide)]
    exact ⟨free, rfl, hfree, hlength⟩
  · rw [if_neg hrefused] at houtcome
    rcases free with _ | ⟨entry, free⟩
    · -- the table is full
      obtain ⟨-, rfl⟩ := Prod.mk.inj houtcome
      have hfull : (subscriptions ++ [(topicFilter, messageHandler)]).take maxMessageHandlers =
          subscriptions := by
        rw [← hlength, List.length_nil, Nat.add_zero, List.take_left]
      rw [hfull, ite_self]
      exact ⟨[], rfl, hfree, hlength⟩
    · rw [List.forall_mem_cons] at hfree
      rw [addHandler, if_pos hfree.1, Option.map_some] at houtcome
      obtain ⟨hrc, rfl⟩ := Prod.mk.inj houtcome
      rw [List.length_cons] at hlength
      have hmore : (subscriptions ++ [(topicFilter, messageHandler)]).length + free.length =
          maxMessageHandlers := by
        rw [List.length_append, List.length_singleton]
        omega
      have hsuccess : rc = mqttSuccess := hrc
      rw [if_pos hsuccess, List.take_of_length_le (by omega)]
      refine ⟨free, ?_, hfree.2, hmore⟩
      rw [List.map_append, List.append_assoc]
      rfl

/-- The subscription that a turn makes. -/
def Turn.subscription (turn : Turn ε) : Option (List UInt8 × Option ℕ) :=
  match turn.call with
  | .subscribe topicFilter _ messageHandler =>
    if turn.rc = mqttSuccess then some (topicFilter, messageHandler) else none
  | _ => none

/-- What a function makes of one element. -/
theorem filterMap_singleton {α β : Type*} (f : α → Option β) (a : α) :
    [a].filterMap f = (f a).toList := by
  cases h : f a with
  | none => exact List.filterMap_cons_none h
  | some b => exact List.filterMap_cons_some h

/-- The handler of an entry, if a topic name is for it. -/
def MessageHandler.receiver (topicName : List UInt8) (handler : MessageHandler) : Option ℕ :=
  handler.topicFilter.bind fun topicFilter =>
    if topicName = topicFilter ∨ isTopicMatched topicFilter topicName then handler.fp else none

/-- What a list has at an index, if anything is to be made of it. -/
theorem filterMap_range_eq {α β : Type*} (f : α → Option β) (l : List α) (n : ℕ) :
    (List.range n).filterMap (fun i => l[i]?.bind f) = (l.take n).filterMap f := by
  induction n with
  | zero => rfl
  | succ n ih =>
    rw [List.range_succ, List.filterMap_append, ih, List.take_add_one, List.filterMap_append,
      filterMap_singleton]
    cases l[n]? with
    | none => rfl
    | some a =>
      rw [Option.toList_some, filterMap_singleton]
      rfl

/-- The receivers of a message are those of the entries. -/
theorem tableReceivers_eq (messageHandlers : List MessageHandler) (topicName : List UInt8) :
    tableReceivers messageHandlers topicName =
      (messageHandlers.take maxMessageHandlers).filterMap
        (MessageHandler.receiver topicName) := by
  rw [tableReceivers, ← filterMap_range_eq]
  congr 1
  funext i
  rw [receiverAt]
  rcases messageHandlers[i]? with _ | ⟨_ | topicFilter, _ | fp⟩
  · rfl
  · rfl
  · rfl
  · exact (ite_self none).symm
  · rfl

/-- A message is for the subscriptions whose filters match its topic name. -/
theorem TableHolds.receivers {messageHandlers : List MessageHandler}
    {subscriptions : List (List UInt8 × Option ℕ)} (h : TableHolds messageHandlers subscriptions)
    (topicName : List UInt8) :
    tableReceivers messageHandlers topicName =
      subscriptions.filterMap fun subscription =>
        (subscriptionEntry subscription).receiver topicName := by
  obtain ⟨free, rfl, hfree, hlength⟩ := h
  have hnone : free.filterMap (MessageHandler.receiver topicName) = [] := by
    refine List.filterMap_eq_nil_iff.mpr ?_
    intro entry hentry
    rw [MessageHandler.receiver, hfree entry hentry]
    rfl
  rw [tableReceivers_eq, List.take_of_length_le, List.filterMap_append, hnone, List.append_nil,
    List.filterMap_map]
  · rfl
  · rw [List.length_append, List.length_map]
    exact Nat.le_of_eq hlength

end WifiMcu.Mqtt
