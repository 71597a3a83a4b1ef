import Tubus.Tcp.Exchange
import Tubus.Tcp.Transport
import Tubus.Udp.Session

/-!
# Two channels on one connection

Two TCP channels whose sockets are connected with each other, and the bytes between them. Of the
sockets and of `boost::asio::async_write` and `async_read` the model keeps what they promise. A
write gives its bytes in order, a few at a time. A read takes the next bytes of the peer. Either is
a success only if it moved all that was asked for, and may fail at any moment; after that the socket
moves no more bytes in that direction.
-/

namespace Tubus.Tcp

open Lib
open Udp (Side)

/-- One end of a connection: the channel, the bytes handed to its socket that are not on the wire
yet, and how many bytes of the peer its reads took. `broken` and `ended` say that a write, or a
read, has failed. The fields `wire` and `received` are history: all the bytes that the socket took,
and what the stream made of the reads. -/
structure End where
  transport : Transport
  pending : Bytes
  broken : Bool
  taken : Nat
  ended : Bool
  wire : Bytes
  received : List Received
  deriving DecidableEq, Repr

namespace End

/-- A channel whose socket was connected. -/
def create (secret : UInt64) : End where
  transport := { Transport.create secret with isOpen := true }
  pending := []
  broken := false
  taken := 0
  ended := false
  wire := []
  received := []

/-- The buffers of the writes that were accepted, one after another. -/
def written (z : End) : Bytes := (z.transport.writes.accepted.map Task.buffer).flatten

/-- What the reads were given, one after another: as much of each chunk as its callback is told. -/
def delivered (z : End) : Bytes := (z.received.map fun r => r.chunk.take r.size).flatten

/-- The bytes that a step of a channel hands to the socket, if it starts a write. -/
def handed (e : Endian) (salt : UInt64) (x x' : Transport) : Bytes :=
  ((x'.writes.started.drop x.writes.started.length).map fun t =>
    (x.stream.asyncWrite e salt t.buffer).2.1).flatten

/-- The channel takes a step. -/
def go (e : Endian) (q : Qos) (salt : UInt64) (z : End) (ev : Transport.Event) : Option End :=
  (z.transport.step e q ev).map fun x =>
    { z with transport := x, pending := z.pending ++ handed e salt z.transport x }

/-- What can happen at one end: a call, some bytes going out, and the completion of a write or a
read, for which `n` bytes were taken from the peer. -/
inductive Event where
  | read (buffer : Bytes) (h : Handler)
  | write (salt : UInt64) (buffer : Bytes) (h : Handler)
  | close
  | destroy
  | flow (n : Nat)
  | writeDone (salt : UInt64) (ec : Ec)
  | readDone (ec : Ec) (n : Nat)
  deriving DecidableEq, Repr

/-- One event, where the peer has put these bytes on the wire. -/
def step (e : Endian) (q : Qos) (peer : Bytes) (z : End) : Event → Option End
  | .read buffer h => z.go e q 0 (.read buffer h)
  | .write salt buffer h => z.go e q salt (.write salt buffer h)
  | .close => z.go e q 0 (.socket false)
  | .destroy => z.go e q 0 .destroy
  | .flow n =>
    if z.broken ∨ z.transport.isOpen = false ∨ z.pending.length < n then none
    else some { z with wire := z.wire ++ z.pending.take n, pending := z.pending.drop n }
  | .writeDone salt ec =>
    match z.transport.writes.outstanding with
    | [] => none
    | (head, t) :: _ =>
      if ec = .success ∧ z.pending ≠ [] then none
      else
        let count := (Operation.write head).front + t.size - z.pending.length
        go e q salt { z with pending := [], broken := z.broken || ec != .success }
          (.writeDone 0 salt ec count)
  | .readDone ec n =>
    match z.transport.reads.outstanding with
    | [] => none
    | (kind, t) :: _ =>
      let moved := (peer.drop z.taken).take n
      let size := (Operation.read kind).front + t.size
      if moved.length < n ∨ size < n ∨ (ec = .success ∧ n < size) ∨ (z.ended ∧ 0 < n) then none
      else
        let r := z.transport.stream.received e z.transport.alive moved ec kind
        go e q 0
          { z with
            taken := z.taken + n
            ended := z.ended || ec != .success
            received := z.received ++ [r.2] }
          (.readDone 0 ec moved)

end End

/-- The two ends. -/
structure Connection where
  node : Side → End

namespace Connection

/-- An event at one of the ends. -/
structure Act where
  side : Side
  event : End.Event
  deriving DecidableEq, Repr

/-- The connection when one end has gone on. -/
def put (c : Connection) (x : Side) (z : End) : Connection where
  node y := if y = x then z else c.node y

@[simp] theorem put_node_self (c : Connection) (x : Side) (z : End) : (c.put x z).node x = z := by
  simp [put]

theorem put_node_of_ne {c : Connection} {x y : Side} {z : End} (h : y ≠ x) :
    (c.put x z).node y = c.node y := by
  simp [put, h]

def step (e : Endian) (q : Side → Qos) (c : Connection) (a : Act) : Option Connection :=
  ((c.node a.side).step e (q a.side) (c.node a.side.other).wire a.event).map (c.put a.side)

/-- All runs of a connection between two channels with one secret. -/
def system (e : Endian) (q : Side → Qos) (secret : UInt64) : System Connection Act where
  init c := c = ⟨fun _ => .create secret⟩
  step := step e q

end Connection

end Tubus.Tcp
