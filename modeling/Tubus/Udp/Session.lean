import Tubus.Udp.Flow
import Tubus.Udp.Transport

/-!
# A session

Two channels and the packets between them. A packet that was sent can be delivered to the other
side any number of times and in any order, until it is lost. Everything else happens to one side
at a time: the calls of its user, its rounds of `produce`, its errors.
-/

namespace Tubus.Udp

open Lib

/-- One of two peers. -/
inductive Side where
  | left
  | right
  deriving DecidableEq, Repr

/-- The peer. -/
def Side.other : Side → Side
  | .left => .right
  | .right => .left

@[simp] theorem Side.other_other (x : Side) : x.other.other = x := by cases x <;> rfl

theorem Side.other_ne (x : Side) : x.other ≠ x := by cases x <;> decide

theorem Side.eq_or_other (x y : Side) : y = x ∨ y = x.other := by cases x <;> cases y <;> decide

/-- Two channels, and for each of them the packets it sent that are still on their way. -/
structure Session where
  chan : Side → Transport
  net : Side → List Packet

/-- Is the event the arrival of a packet? -/
def Event.incoming : Event → Bool
  | .feed _ _ => true
  | .openAt | .connect _ _ _ _ | .accept _ _ _ _ | .shutdown _ _ | .mistake _ | .read _ _
  | .write _ _ | .consume | .produce _ => false

namespace Session

/-- What can happen in a session. -/
inductive Act where
  | act (x : Side) (e : Event)
  | deliver (x : Side) (now : Time) (n : Nat)
  | lose (x : Side) (n : Nat)
  deriving DecidableEq, Repr

/-- The session in which one channel has gone on and sent a packet, or none. -/
def put (s : Session) (x : Side) (t : Transport) (out : Option Packet) : Session where
  chan y := if y = x then t else s.chan y
  net y := if y = x then s.net y ++ out.toList else s.net y

@[simp] theorem put_chan_self (s : Session) (x : Side) (t : Transport) (out : Option Packet) :
    (s.put x t out).chan x = t := by
  simp [put]

@[simp] theorem put_net_self (s : Session) (x : Side) (t : Transport) (out : Option Packet) :
    (s.put x t out).net x = s.net x ++ out.toList := by
  simp [put]

theorem put_chan_of_ne {s : Session} {x y : Side} {t : Transport} {out : Option Packet}
    (h : y ≠ x) : (s.put x t out).chan y = s.chan y := by
  simp [put, h]

theorem put_net_of_ne {s : Session} {x y : Side} {t : Transport} {out : Option Packet}
    (h : y ≠ x) : (s.put x t out).net y = s.net y := by
  simp [put, h]

/-- One act. `deliver` hands a packet on its way to `x` over and leaves it where it is, so that
it can come again; `lose` takes a packet that `x` sent off the network. -/
def step (s : Session) : Act → Option Session
  | .act x e =>
    if e.sound = true ∧ e.incoming = false then
      ((s.chan x).act e).map fun r => s.put x r.1 r.2
    else none
  | .deliver x now n =>
    ((s.net x.other)[n]?).bind fun p => ((s.chan x).act (.feed now p)).map fun r => s.put x r.1 r.2
  | .lose x n => some { s with net := fun y => if y = x then (s.net y).eraseIdx n else s.net y }

/-- Two fresh channels, each with its own parameters, and an empty network. -/
def create (q : Side → Qos) : Session := ⟨fun x => .create (q x), fun _ => []⟩

/-- All runs of a session. -/
def system (q : Side → Qos) : System Session Act where
  init s := s = create q
  step := step

/-- The acts by which two fresh channels link: the left one connects, the right one accepts, and
one packet goes each way. -/
def handshake : List Act :=
  [.act .left .openAt, .act .right .openAt, .act .left (.connect 1 1 1 .success),
    .act .right (.accept 1 2 2 .success), .act .left (.produce ⟨2, 2, 2⟩), .deliver .right 3 0,
    .act .right (.produce ⟨4, 4, 4⟩), .deliver .left 5 0]

end Session

end Tubus.Udp
