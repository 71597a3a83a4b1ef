import Tubus.Udp.Transport

/-!
# The send loop of a UDP channel

`transport::produce` and the handlers it leaves with the socket and the timer, with the parts of the
channel that `Transport` leaves out: the reused packet buffer `m_buffer`, the timer, and the calls
of `run` and `wake`.

A round writes its packet into `m_buffer`, hides it in place and hands the socket a view of it. The
socket may take the bytes at any moment until the operation completes, so they are read from
`m_buffer` at that moment. What `m_buffer` holds behind the packet is left open. A round with
nothing to send sets the timer. A timer that is cancelled calls its handler all the same, with
`operation_aborted`, and the handler goes on to the next round.
-/

namespace Tubus.Udp

open Lib

/-- A packet hidden on its way out or shown on its way in, where the channel has a secret. -/
def Datagram.veiled (e : Endian) (secret drawn : UInt64) (p : Bytes) : Bytes :=
  if secret = 0 then p else invert e secret drawn p

namespace Transport

/-- How long a round with nothing to send waits for the next one. -/
def timeout (t : Transport) : Int :=
  if t.connector.status = .accepting then t.qos.acceptTimeout
  else if t.connector.deffered || t.istreamer.deffered || t.ostreamer.deffered then
    t.connector.resend
  else t.qos.pingTimeout

end Transport

/-- What the loop has left with the reactor: the function that `run` posts, a send of so many bytes
of `m_buffer`, the same after the socket took them, the wait for the timer, with the moments at
which it was set and is to go off, and the handler of a wait that was cancelled. -/
inductive Producing where
  | start
  | sending (size : Nat)
  | sent (size : Nat)
  | waiting (since expiry : Time)
  | cancelled
  deriving DecidableEq, Repr

/-- What `m_timer.cancel` does to an operation. -/
def Producing.cancel : Producing → Producing
  | .waiting _ _ => .cancelled
  | op => op

/-- The channel with its send loop. `made` and `took` are history: the packets that were handed to
the socket, and the bytes that the socket took. -/
structure Producer where
  transport : Transport
  secret : UInt64
  /-- `m_buffer`. -/
  buffer : Bytes
  ops : List Producing
  made : List Bytes
  took : List Bytes

namespace Producer

/-- The constructor, with whatever the new buffer holds. -/
def create (q : Qos) (secret : UInt64) (buffer : Bytes) : Producer :=
  ⟨.create q, secret, buffer, [], [], []⟩

/-- `transport::wake`. -/
def wake (x : Producer) : Producer := { x with ops := x.ops.map Producing.cancel }

/-- `transport::run`, as far as it concerns `produce`. -/
def run (x : Producer) : Producer := { x with ops := x.ops ++ [.start] }

/-- `transport::mistake`. -/
def mistake (ec : Ec) (x : Producer) : Producer :=
  wake { x with transport := x.transport.mistake ec }

/-- What a round meets: its clock readings, that of the timer behind them, and the salt that would
be drawn. `rest` is what the buffer holds behind the packet when the round is over. -/
structure Round where
  clock : Clock
  now : Time
  drawn : UInt64
  rest : Bytes
  deriving DecidableEq, Repr

/-- `transport::produce`. Setting the timer cancels a wait that was there. -/
def produce (e : Endian) (r : Round) (x : Producer) : Option Producer :=
  if x.transport.connector.status = .finished then
    some { x with transport := x.transport.abort .connectionAborted }
  else do
    let (t, pack) ← x.transport.emit r.clock x.buffer
    if pack.length + r.rest.length ≠ x.buffer.length then none
    else if Datagram.headerSize < pack.length then
      let pack := Datagram.veiled e x.secret r.drawn pack
      return { x with
        transport := t
        buffer := pack ++ r.rest
        ops := x.ops ++ [.sending pack.length]
        made := x.made ++ [pack] }
    else
      return { x with
        transport := t
        buffer := pack ++ r.rest
        ops := x.ops.map Producing.cancel ++ [.waiting r.now (later r.now t.timeout)] }

/-- `transport::feed`. A datagram that passes the test ends the wait. -/
def feed (e : Endian) (now : Time) (drawn : UInt64) (datagram : Bytes) (x : Producer) :
    Option Producer := do
  if datagram.length < Datagram.headerSize then return x
  let pack := Datagram.veiled e x.secret drawn datagram
  let t ← x.transport.feedBytes now pack
  if ← x.transport.connector.valid pack then return wake { x with transport := t }
  else return { x with transport := t }

/-- The calls of a channel's user, its errors, and the finished branch of `consume`. The pins that
`make_pin` gives have 16 bits. -/
def isCall : Event → Bool
  | .connect _ pin _ _ | .accept _ pin _ _ => decide (pin < 2 ^ 16)
  | .openAt | .shutdown _ _ | .mistake _ | .read _ _ | .write _ _ | .consume => true
  | .feed _ _ | .produce _ => false

/-- Does the call start the loop? -/
def starts (t : Transport) : Event → Bool
  | .connect _ _ _ socket | .accept _ _ _ socket =>
    decide (t.connector.status = .initial) && decide (socket = .success)
  | .openAt | .shutdown _ _ | .mistake _ | .read _ _ | .write _ _ | .feed _ _ | .consume
  | .produce _ => false

/-- Does the call end the wait for the timer? -/
def wakes (t : Transport) : Event → Bool
  | .shutdown _ _ =>
    decide (t.connector.status = .linked) || decide (t.connector.status = .tearing)
  | .read _ _ | .write _ _ => decide (t.connector.status = .linked)
  | .mistake _ => true
  | .openAt | .connect _ _ _ _ | .accept _ _ _ _ | .feed _ _ | .consume | .produce _ => false

/-- A call, with what it does to the loop. -/
def call (e : Event) (x : Producer) : Option Producer :=
  (x.transport.act e).map fun r =>
    let y := { x with transport := r.1 }
    if starts x.transport e then y.run else if wakes x.transport e then y.wake else y

/-- The handler of an operation that is no longer outstanding. A send that reports success was taken
by the socket, and a timer goes off when its moment has come. -/
def handler (e : Endian) (error : Ec) (size : Nat) (r : Round) (x : Producer) :
    Producing → Option Producer
  | .start => x.produce e r
  | .cancelled => x.produce e r
  | .sending _ => if error ≠ .success then some (x.mistake error) else none
  | .sent length =>
    if error ≠ .success then some (x.mistake error)
    else if length < size then some (x.mistake .messageSize)
    else x.produce e r
  | .waiting _ expiry =>
    if error ≠ .success then some (x.mistake error)
    else if expiry ≤ r.now then x.produce e r
    else none

/-- What can happen to a channel with its send loop. -/
inductive Event where
  | call (e : Udp.Event)
  | feed (now : Time) (drawn : UInt64) (datagram : Bytes)
  | taken (place : Nat)
  | completed (place : Nat) (error : Ec) (size : Nat) (r : Round)
  deriving DecidableEq, Repr

def step (e : Endian) (x : Producer) : Event → Option Producer
  | .call ev => if ev.sound && isCall ev then x.call ev else none
  | .feed now drawn datagram => x.feed e now drawn datagram
  | .taken place =>
    match x.ops[place]? with
    | some (.sending size) => some { x with
        ops := x.ops.set place (.sent size)
        took := x.took ++ [x.buffer.take size] }
    | some .start | some (.sent _) | some (.waiting _ _) | some .cancelled | none => none
  | .completed place error size r =>
    match x.ops[place]? with
    | some op => handler e error size r { x with ops := x.ops.eraseIdx place } op
    | none => none

/-- One channel under any calls and datagrams, and any outcomes of what its send loop starts. -/
def system (e : Endian) (q : Qos) (secret : UInt64) : System Producer Event where
  init x := ∃ buffer : Bytes, buffer.length = q.maxPacketSize ∧ x = create q secret buffer
  step := step e

end Producer

end Tubus.Udp
