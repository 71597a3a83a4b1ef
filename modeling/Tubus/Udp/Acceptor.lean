import Tubus.Tcp.Dialer

/-!
# The acceptor

`acceptor` of `acceptor.h`, with the sockets it accepts for, each of them a channel with its receive
loop. An accept waits for a datagram and reads one byte of it. When one has come, the socket is
opened at the endpoint that the acceptor was bound to when the wait began, and told to accept the
sender.

The operations that wait are those of a socket: each may come out at any time and in any way, and
which of them gets a datagram is left open. `close` and `cancel` have them come out with an error,
and so does a socket that was never opened. The synchronous `accept` is the asynchronous one with a
handler that its caller waits for.
-/

namespace Tubus.Udp

open Lib
open Tcp (Setup)

/-- The code that opening, configuring and binding a socket leaves. -/
def setupCode : Setup → Ec
  | .done => .success
  | .thrown ec _ => ec

/-- What the handler of `async_receive_from` holds: the socket, `m_local` at the time of the call
and the callback. -/
structure Waiter where
  peer : Nat
  host : Endpoint
  callback : Handler
  deriving DecidableEq, Repr

/-- How a wait comes out: its code and the sender of the datagram. Then what the handler meets on
its way: how the setup of the peer's socket comes out, the clock and the pin that `accept` takes,
and the code of connecting the peer's socket. -/
structure Arrival where
  error : Ec
  sender : Endpoint
  setup : Setup
  now : Time
  pin : Nat
  connecting : Ec
  deriving DecidableEq, Repr

/-- A socket that was told to accept: which one, the endpoint it was opened at, its peer, and the
callback that was passed on to it. -/
structure Introduction where
  peer : Nat
  host : Endpoint
  remote : Endpoint
  callback : Handler
  deriving DecidableEq, Repr

/-- `acceptor`, and the sockets. The fields from `asked` on are history: the handlers passed to
`async_accept`, what was passed on to the sockets, and the handlers that were passed to the sockets
by others. -/
structure Acceptor where
  /-- Is `m_socket` open? -/
  isOpen : Bool
  /-- `m_local`. -/
  host : Endpoint
  waiters : List Waiter
  /-- The callbacks that the acceptor called itself. -/
  told : List (Handler × Ec)
  peers : Nat → Receiver
  asked : List Handler
  introduced : List Introduction
  others : List (Nat × Handler)

namespace Acceptor

/-- The constructor, and sockets with their parameters and secrets. -/
def create (q : Nat → Qos) (secret : Nat → UInt64) : Acceptor where
  isOpen := false
  host := .any
  waiters := []
  told := []
  peers i := .create (q i) (secret i)
  asked := []
  introduced := []
  others := []

/-- One socket goes on. -/
def setPeer (x : Acceptor) (i : Nat) (p : Receiver) : Acceptor :=
  { x with peers := fun j => if j = i then p else x.peers j }

@[simp] theorem setPeer_self (x : Acceptor) (i : Nat) (p : Receiver) :
    (x.setPeer i p).peers i = p := if_pos rfl

theorem setPeer_of_ne {x : Acceptor} {i j : Nat} {p : Receiver} (h : j ≠ i) :
    (x.setPeer i p).peers j = x.peers j := if_neg h

/-- The acceptor calls a callback. -/
def tell (x : Acceptor) (h : Handler) (ec : Ec) : Acceptor := { x with told := x.told ++ [(h, ec)] }

/-- `acceptor::open`, with the code that it throws. -/
def openAt (x : Acceptor) (host : Endpoint) (setup : Setup) : Acceptor × Ec :=
  if x.isOpen then (x, .noPermission)
  else
    match setup with
    | .done => ({ x with isOpen := true, host := host }, .success)
    | .thrown ec opened => ({ x with isOpen := opened }, ec)

/-- `acceptor::close`. -/
def close (x : Acceptor) : Acceptor := { x with isOpen := false }

/-- `acceptor::async_accept`. -/
def accept (x : Acceptor) (peer : Nat) (h : Handler) : Acceptor :=
  { x with waiters := x.waiters ++ [⟨peer, x.host, h⟩], asked := x.asked ++ [h] }

/-- `socket::open`, which is `transport::open`, with the code that it leaves. -/
def openPeer (p : Receiver) (setup : Setup) : Receiver × Ec :=
  if p.transport.connector.status ≠ .neither then (p, .noPermission)
  else if setup ≠ .done then (p, setupCode setup)
  else ({ p with transport := p.transport.openAt }, .success)

/-- The handler of `async_receive_from`. -/
def received (x : Acceptor) (w : Waiter) (r : Arrival) : Acceptor :=
  if r.error ≠ .success then x.tell w.callback r.error
  else
    let (p, code) := openPeer (x.peers w.peer) r.setup
    if code ≠ .success then x.tell w.callback code
    else
      let x := x.setPeer w.peer (p.accept r.sender r.now r.pin w.callback r.connecting)
      { x with introduced := x.introduced ++ [⟨w.peer, w.host, r.sender, w.callback⟩] }

/-- The handlers that a call of a socket passes to it. -/
def callbacks : Receiver.Event → List Handler
  | .accept _ _ _ h _ | .connect _ _ _ h _ | .call (.shutdown _ h) => [h]
  | .call _ | .completed _ => []

/-- What can happen: the calls of the acceptor, the outcome of the wait at some place, and anything
that can happen to a socket. -/
inductive Event where
  | open (host : Endpoint) (setup : Setup)
  | close
  | accept (peer : Nat) (h : Handler)
  | received (place : Nat) (r : Arrival)
  | socket (peer : Nat) (ev : Receiver.Event)
  deriving DecidableEq, Repr

/-- One event. A handler that waits for the mutex of a socket that is stuck never goes on. -/
def step (e : Endian) (x : Acceptor) : Event → Option Acceptor
  | .open host setup => some (x.openAt host setup).1
  | .close => some x.close
  | .accept peer h => some (x.accept peer h)
  | .received place r =>
    match x.waiters[place]? with
    | none => none
    | some w =>
      if r.error = .success ∧ (r.pin = 0 ∨ (x.peers w.peer).stuck = true) then none
      else some ({ x with waiters := x.waiters.eraseIdx place }.received w r)
  | .socket i ev =>
    ((x.peers i).step e ev).map fun p =>
      { x.setPeer i p with others := x.others ++ (callbacks ev).map fun h => (i, h) }

/-- All runs of an acceptor and its sockets. -/
def system (e : Endian) (q : Nat → Qos) (secret : Nat → UInt64) : System Acceptor Event where
  init x := x = create q secret
  step := step e

end Acceptor

end Tubus.Udp
