import Tubus.Udp.Produce
import Tubus.Udp.Session

/-!
# A session on the wire

Two channels with their send loops and one secret, and the datagrams between them as bytes. A
datagram is on its way once the socket took it from the packet buffer. From then on it can be
delivered any number of times and in any order, until it is lost.

`Session` is the same with packets in place of bytes, and without the loops.
-/

namespace Tubus.Udp

open Lib

/-- Two channels, and for each of them the datagrams it sent that are still on their way. -/
structure Wire where
  node : Side → Producer
  air : Side → List Bytes

/-- Is the event the arrival of a datagram? -/
def Producer.Event.incoming : Event → Bool
  | .feed _ _ _ => true
  | .call _ | .taken _ | .completed _ _ _ _ => false

namespace Wire

/-- What can happen on the wire. -/
inductive Act where
  | node (x : Side) (ev : Producer.Event)
  | deliver (x : Side) (now : Time) (drawn : UInt64) (n : Nat)
  | lose (x : Side) (n : Nat)
  deriving DecidableEq, Repr

/-- The wire when one channel has gone on. What its socket took is on its way. -/
def put (w : Wire) (x : Side) (p : Producer) : Wire where
  node y := if y = x then p else w.node y
  air y := if y = x then w.air y ++ p.took.drop (w.node y).took.length else w.air y

@[simp] theorem put_node_self (w : Wire) (x : Side) (p : Producer) : (w.put x p).node x = p := by
  simp [put]

theorem put_node_of_ne {w : Wire} {x y : Side} {p : Producer} (h : y ≠ x) :
    (w.put x p).node y = w.node y := by
  simp [put, h]

@[simp] theorem put_air_self (w : Wire) (x : Side) (p : Producer) :
    (w.put x p).air x = w.air x ++ p.took.drop (w.node x).took.length := by
  simp [put]

theorem put_air_of_ne {w : Wire} {x y : Side} {p : Producer} (h : y ≠ x) :
    (w.put x p).air y = w.air y := by
  simp [put, h]

/-- One act. -/
def step (e : Endian) (w : Wire) : Act → Option Wire
  | .node x ev => if ev.incoming then none else ((w.node x).step e ev).map (w.put x)
  | .deliver x now drawn n =>
    ((w.air x.other)[n]?).bind fun d => ((w.node x).step e (.feed now drawn d)).map (w.put x)
  | .lose x n => some { w with air := fun y => if y = x then (w.air y).eraseIdx n else w.air y }

/-- All runs of two channels, each with its own parameters, and an empty network. -/
def system (e : Endian) (secret : UInt64) (q : Side → Qos) : System Wire Act where
  init w := ∃ buffer : Side → Bytes, (∀ x, (buffer x).length = (q x).maxPacketSize) ∧
    w = ⟨fun x => .create (q x) secret (buffer x), fun _ => []⟩
  step := step e

end Wire

end Tubus.Udp
