import Tubus.Lib.Mutex
import Tubus.Udp.Transport

/-!
# The receive loop of a UDP channel

`transport::consume` and the handlers it leaves with the socket, with the parts of the channel that
`Transport` leaves out: the endpoint `m_remote`, the endpoint that the socket is connected to, and
the mutex. Each of `mistake`, `feed`, `consume` and the two lambdas of the receive handler takes the
mutex itself.

A socket operation may come out in any way: what it reports is a part of the event. The socket tells
from which endpoint a datagram came. A handler that waits for a mutex it holds never goes on, and no
other function of the channel gets the mutex after that: the receiver is stuck.
-/

namespace Tubus.Udp

open Lib

/-- `boost::asio::ip::address`. -/
inductive Address where
  | v4 (bytes : UInt32)
  | v6 (bytes : BitVec 128) (scope : UInt32)
  deriving DecidableEq, Repr

/-- `is_unspecified`. -/
def Address.unspecified : Address → Bool
  | .v4 bytes => bytes == 0
  | .v6 bytes _ => bytes == 0

/-- `boost::asio::ip::udp::endpoint`. -/
structure Endpoint where
  address : Address
  port : UInt16
  deriving DecidableEq, Repr

namespace Endpoint

/-- The endpoint of the default constructor. -/
def any : Endpoint := ⟨.v4 0, 0⟩

/-- Is a part of the endpoint left open? -/
def loose (r : Endpoint) : Bool := r.address.unspecified || r.port == 0

/-- Does an endpoint agree with the parts that are given? -/
def admits (r actual : Endpoint) : Bool :=
  (r.port == 0 || r.port == actual.port) &&
    (r.address.unspecified || r.address == actual.address)

end Endpoint

/-- What the loop has left with the reactor: the first call of `consume`, or an operation of the
socket, with the size of its buffer. -/
inductive Pending where
  | start
  | receiveFrom (capacity : Nat)
  | receive (capacity : Nat)
  | wait
  deriving DecidableEq, Repr

/-- How a pending operation comes out: its code, the sender and the datagram. Then what the
handler meets on its way: the clock, the salt that would be drawn, the code of connecting the
socket, and how many bytes are available at the end. -/
structure Outcome where
  error : Ec
  sender : Endpoint
  datagram : Bytes
  now : Time
  drawn : UInt64
  connecting : Ec
  available : Nat
  deriving DecidableEq, Repr

/-- The channel with its receive loop. The fields from `asked` on are history: the endpoint that
`accept` was called with, those that a call connected the socket to, and who sent the datagrams that
came by `receiveFrom`, with the verdict of `connector::valid`. -/
structure Receiver where
  transport : Transport
  secret : UInt64
  /-- `m_remote`. -/
  remote : Endpoint
  /-- The endpoint that the socket is connected to. -/
  peer : Option Endpoint
  pending : Option Pending
  /-- Does a handler wait for the mutex that it holds? -/
  stuck : Bool
  asked : Endpoint
  dialled : List Endpoint
  heard : List (Endpoint × Bool)

namespace Receiver

/-- The constructor. -/
def create (q : Qos) (secret : UInt64) : Receiver where
  transport := .create q
  secret := secret
  remote := .any
  peer := none
  pending := none
  stuck := false
  asked := .any
  dialled := []
  heard := []

/-- The datagram as `feed` makes a packet of it. -/
def shown (e : Endian) (x : Receiver) (drawn : UInt64) (datagram : Bytes) : Bytes :=
  if x.secret = 0 then datagram else Datagram.invert e x.secret drawn datagram

/-- Is the datagram long enough, and does `connector::valid` accept it? -/
def accepts (e : Endian) (x : Receiver) (drawn : UInt64) (datagram : Bytes) : Bool :=
  decide (Datagram.headerSize ≤ datagram.length) &&
    decide (x.transport.connector.valid (x.shown e drawn datagram) = some true)

/-! ## The functions that take the mutex -/

/-- What `transport::mistake` does under the mutex: it closes the socket, too. -/
def mistaken (ec : Ec) (x : Receiver) : Receiver :=
  { x with transport := x.transport.mistake ec, peer := none }

/-- `transport::mistake`. -/
def mistake (ec : Ec) : Code Receiver Unit := Code.locked (.update (mistaken ec))

/-- What `transport::feed` does under the mutex. -/
def fed (e : Endian) (now : Time) (drawn : UInt64) (datagram : Bytes) (x : Receiver) :
    Option Receiver :=
  if datagram.length < Datagram.headerSize then some x
  else (x.transport.feedBytes now (x.shown e drawn datagram)).map fun t => { x with transport := t }

/-- `transport::feed`. -/
def feed (e : Endian) (now : Time) (drawn : UInt64) (datagram : Bytes) : Code Receiver Unit :=
  Code.locked (.attempt (fed e now drawn datagram))

/-- The size of the buffer for a datagram: `(size + 0xFF) & ~0xFF`. -/
def roundUp (size : Nat) : Nat := wadd size 255 / 256 * 256

/-- What `transport::consume` does under the mutex. -/
def consumed (available : Nat) (x : Receiver) : Receiver :=
  if x.transport.connector.status = .finished then { x with transport := x.transport.consume }
  else if 0 < available then
    if x.remote.loose then { x with pending := some (.receiveFrom (roundUp available)) }
    else { x with pending := some (.receive (roundUp available)) }
  else { x with pending := some .wait }

/-- `transport::consume`. -/
def consume (available : Nat) : Code Receiver Unit := Code.locked (.update (consumed available))

/-- The lambda `verify` of the receive handler. -/
def verify (sender : Endpoint) : Code Receiver Bool :=
  Code.locked do
    if ← .look (fun x => x.remote.admits sender) then
      Code.update fun x => { x with remote := sender }
      return true
    else return false

/-- The lambda `connect` of the receive handler. -/
def connectPeer (connecting : Ec) : Code Receiver Bool :=
  Code.locked do
    if connecting ≠ .success then
      mistake connecting
      return false
    else
      Code.update fun x => { x with peer := some x.remote }
      return true

/-! ## The handlers -/

/-- The handler of `async_receive_from`. -/
def receivedFrom (e : Endian) (r : Outcome) : Code Receiver Unit := do
  if r.error ≠ .success then mistake r.error
  else if ← verify r.sender then
    feed e r.now r.drawn r.datagram
    if ← connectPeer r.connecting then consume r.available
  else consume r.available

/-- The handler of `async_receive`. -/
def received (e : Endian) (r : Outcome) : Code Receiver Unit := do
  if r.error ≠ .success then mistake r.error
  else
    feed e r.now r.drawn r.datagram
    consume r.available

/-- The handler of `async_wait`. -/
def waited (r : Outcome) : Code Receiver Unit :=
  if r.error ≠ .success then mistake r.error else consume r.available

/-- The handler of a pending operation. A buffer takes no more of a datagram than it is long. -/
def handler (e : Endian) (r : Outcome) : Pending → Code Receiver Unit
  | .start => consume r.available
  | .receiveFrom capacity => receivedFrom e { r with datagram := r.datagram.take capacity }
  | .receive capacity => received e { r with datagram := r.datagram.take capacity }
  | .wait => waited r

/-! ## The calls -/

/-- `transport::accept`, with the outcome of connecting the socket where that is done. -/
def accept (x : Receiver) (remote : Endpoint) (now : Time) (pin : Nat) (h : Handler) (socket : Ec) :
    Receiver :=
  if x.transport.connector.status ≠ .initial then
    { x with transport := x.transport.accept now pin h .success }
  else
    let x := { x with remote := remote, asked := remote }
    if remote.loose then
      { x with transport := x.transport.accept now pin h .success, pending := some .start }
    else if socket ≠ .success then { x with transport := x.transport.accept now pin h socket }
    else
      { x with
        transport := x.transport.accept now pin h .success
        peer := some remote
        dialled := x.dialled ++ [remote]
        pending := some .start }

/-- `transport::connect`, which leaves `m_remote`. -/
def connect (x : Receiver) (remote : Endpoint) (now : Time) (pin : Nat) (h : Handler)
    (socket : Ec) : Receiver :=
  let y := { x with transport := x.transport.connect now pin h socket }
  if x.transport.connector.status ≠ .initial then y
  else if socket ≠ .success then y
  else
    { y with
      peer := some remote
      dialled := y.dialled ++ [remote]
      pending := some .start }

/-- What can happen to a channel with its receive loop. -/
inductive Event where
  | accept (remote : Endpoint) (now : Time) (pin : Nat) (h : Handler) (socket : Ec)
  | connect (remote : Endpoint) (now : Time) (pin : Nat) (h : Handler) (socket : Ec)
  | call (event : Udp.Event)
  | completed (r : Outcome)
  deriving DecidableEq, Repr

/-- The events of the channel that do not come from its receive loop and name no endpoint. -/
def isPlain : Udp.Event → Bool
  | .openAt | .shutdown _ _ | .mistake _ | .read _ _ | .write _ _ | .produce _ => true
  | .connect _ _ _ _ | .accept _ _ _ _ | .feed _ _ | .consume => false

/-- Does the event close the socket? -/
def closes (x : Receiver) : Udp.Event → Bool
  | .mistake _ => true
  | .produce _ => decide (x.transport.connector.status = .finished)
  | .openAt | .shutdown _ _ | .read _ _ | .write _ _ | .connect _ _ _ _ | .accept _ _ _ _
  | .feed _ _ | .consume => false

/-- The state that a handler leaves, if the process lives on. -/
def ending : Ending Receiver Unit → Option Receiver
  | .returns _ x => some x
  | .blocks x => some { x with stuck := true }
  | .throws => none

/-- The receiver when a pending operation has come out, before its handler runs. -/
def taken (e : Endian) (x : Receiver) (r : Outcome) : Pending → Receiver
  | .receiveFrom capacity =>
    { x with
      pending := none
      heard := if r.error = .success then
        x.heard ++ [(r.sender, x.accepts e r.drawn (r.datagram.take capacity))] else x.heard }
  | .start | .receive _ | .wait => { x with pending := none }

def step (e : Endian) (x : Receiver) (ev : Event) : Option Receiver :=
  if x.stuck then none
  else match ev with
    | .accept remote now pin h socket =>
      if pin = 0 then none else some (x.accept remote now pin h socket)
    | .connect remote now pin h socket =>
      if pin = 0 then none else some (x.connect remote now pin h socket)
    | .call event =>
      if event.sound && isPlain event then
        (x.transport.act event).map fun t =>
          { x with transport := t.1, peer := if x.closes event then none else x.peer }
      else none
    | .completed r =>
      match x.pending with
      | none => none
      | some op => ending (handler e r op false (x.taken e r op))

/-- One channel under any calls and any outcomes of its receive operations. -/
def system (e : Endian) (q : Qos) (secret : UInt64) : System Receiver Event where
  init x := x = create q secret
  step := step e

end Receiver

end Tubus.Udp
