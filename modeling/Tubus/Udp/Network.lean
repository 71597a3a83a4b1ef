import Tubus.Udp.Session

/-!
# Two endpoints

A session whose channels are started over. Each endpoint has one instance of a channel at a time;
`restart` drops it and puts a fresh one in its place, and the packets of the dropped one stay on
the network. Every instance that connects or accepts does so with a pin no other instance had.

`pins` and `greeted` are kept for the laws: the pins the instances of an endpoint had, and the
pins of the packets with which the present instance was told its peer.
-/

namespace Tubus.Udp

open Lib

/-- Does a packet tell a channel in some state who its peer is? The `link` does when it accepts,
and the `link|echo` when it connects. -/
def Status.greeted (l : List Section) : Status → Bool
  | .accepting => decide (.link ∈ l)
  | .connecting => decide (.linkEcho ∈ l)
  | .neither | .initial | .linked | .shutting | .tearing | .finished => false

/-- The pin of the packet with which an event tells a channel its peer, if it does. -/
def Transport.greeting (t : Transport) : Event → Option Nat
  | .feed _ p =>
    if t.connector.admits p.pin = true ∧ t.connector.status.greeted p.body = true then some p.pin
    else none
  | .openAt | .connect _ _ _ _ | .accept _ _ _ _ | .shutdown _ _ | .mistake _ | .read _ _
  | .write _ _ | .consume | .produce _ => none

/-- The pin a call would start a channel with. -/
def Event.pin? : Event → Option Nat
  | .connect _ pin _ _ => some pin
  | .accept _ pin _ _ => some pin
  | .openAt | .shutdown _ _ | .mistake _ | .read _ _ | .write _ _ | .feed _ _ | .consume
  | .produce _ => none

/-- The present instances with the packets of all instances. -/
structure Network where
  session : Session
  pins : Side → List Nat
  greeted : Side → List Nat

namespace Network

/-- What can happen: something between the present instances, or one of them is replaced. -/
inductive Act where
  | within (a : Session.Act)
  | restart (x : Side) (q : Qos)

/-- The pin of a channel joins those of its endpoint. -/
def record (pins : List Nat) (t : Transport) : List Nat :=
  if t.connector.localPin = 0 ∨ t.connector.localPin ∈ pins then pins
  else pins ++ [t.connector.localPin]

/-- Does an act give out no pin, or one that no instance had? -/
def fresh (s : Network) : Session.Act → Bool
  | .act _ e => e.pin?.all fun pin => decide (pin ∉ s.pins .left ∧ pin ∉ s.pins .right)
  | .deliver _ _ _ | .lose _ _ => true

/-- The pins of the greetings after an act. -/
def hear (s : Network) (y : Side) : Session.Act → List Nat
  | .deliver x now n =>
    if y = x then
      s.greeted y ++ (((s.session.net x.other)[n]?).bind fun p =>
        (s.session.chan x).greeting (.feed now p)).toList
    else s.greeted y
  | .act _ _ | .lose _ _ => s.greeted y

/-- One act. -/
def step (s : Network) : Act → Option Network
  | .within a =>
    if s.fresh a then
      (s.session.step a).map fun w =>
        ⟨w, fun x => record (s.pins x) (w.chan x), fun x => s.hear x a⟩
    else none
  | .restart x q =>
    some
      { s with
        session.chan := fun y => if y = x then .create q else s.session.chan y
        greeted := fun y => if y = x then [] else s.greeted y }

/-- Two fresh channels, an empty network and no pins. -/
def create (q : Side → Qos) : Network := ⟨.create q, fun _ => [], fun _ => []⟩

/-- All runs. -/
def system (q : Side → Qos) : System Network Act where
  init s := s = create q
  step := step

end Network

end Tubus.Udp
