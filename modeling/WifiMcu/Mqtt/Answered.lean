import WifiMcu.Mqtt.Requests
import WifiMcu.Mqtt.Serving

/-!
# Calls that are answered

A call that waits for an answer sends its packet, does what the client should do about
everything that arrives before the answer, and ends with the first packet of the type
that it waits for. It takes this packet for its answer whatever is in there.
-/

namespace WifiMcu.Mqtt

open Delivery Memory

variable {ε : Type}

/-- The session when the transport has accepted a packet at once. -/
def Session.send (s : Session ε) (p : Packet) : Session ε :=
  { s with expired := s.expired.tail, writes := s.writes.tail, offered := s.offered ++ [accepts p] }

/-- A list with a first element is this element and its tail. -/
theorem eq_cons_tail {α : Type*} {l : List α} {a : α} (h : l.head? = some a) : l = a :: l.tail := by
  cases l with
  | nil => cases h
  | cons b l => rw [← Option.some.inj h, List.tail_cons]

/-- A client without keep-alive and without handlers. -/
def idleClient : Client :=
  ⟨32, fun _ => 0, fun _ => 0, 0, false, List.replicate maxMessageHandlers ⟨none, none⟩, none⟩

end WifiMcu.Mqtt
