import Tubus.Lib.System
import Tubus.Qos
import Tubus.Udp.Receive

/-!
# Connecting and accepting over TCP

`transport` of `tcp/channel.cpp`, as far as it connects and accepts: one socket, one acceptor and
one timer, which serves all attempts. An attempt to connect that is refused is made again after a
second, until its deadline. A connection from a peer that was not asked for is dropped, and the next
one is accepted.

Each event is the body of one locked function, or a completion handler up to the end of its lock.
The handler of an accept takes the lock twice, and other events may come between (`Op.verdict`). A
handler that is called, and one that is posted to be called, are not told apart.
-/

namespace Tubus.Tcp

open Lib
open Udp (Endpoint)

/-- `boost::asio::error::connection_refused`. -/
def connectionRefused : Ec := .system 111

/-- `boost::asio::error::operation_aborted`. -/
def operationAborted : Ec := .system 125

/-- `boost::asio::error::already_open`. -/
def alreadyOpen : Ec := .system 1

/-- The code of something that went wrong. -/
abbrev Fault := { ec : Ec // ec ≠ .success }

/-- What opening, configuring and binding a socket, or an acceptor, comes to: done, or the code that
was thrown, and whether the socket was open by then. -/
inductive Setup where
  | done
  | thrown (ec : Fault) (opened : Bool)
  deriving DecidableEq, Repr

/-- A call that takes a handler. -/
inductive Request where
  | connect (remote : Endpoint)
  | accept (remote : Endpoint)
  | shutdown
  deriving DecidableEq, Repr

/-- An operation of the socket or the acceptor, with what its handler holds, or the rest of the
handler of an accept that has compared the endpoints. -/
inductive Op where
  | connect (remote : Endpoint) (h : Handler) (deadline : Time)
  | accept (remote : Endpoint) (h : Handler)
  | verdict (remote : Endpoint) (h : Handler) (expected : Bool)
  deriving DecidableEq, Repr

/-- Is the rest of a handler to run? -/
def Op.running : Op → Bool
  | .verdict _ _ _ => true
  | .connect _ _ _ | .accept _ _ => false

/-- What a wait of the timer is for: to close the socket or the acceptor at the deadline, or to
connect once more. -/
inductive Alarm where
  | closeSocket
  | closeAcceptor
  | retry (remote : Endpoint) (h : Handler) (deadline : Time)
  deriving DecidableEq, Repr

/-- A wait of the timer. One that was cancelled may have expired before. -/
structure Wait where
  alarm : Alarm
  cancelled : Bool
  deriving DecidableEq, Repr

/-- `transport`. The fields from `asked` on are history: the calls made, with the handlers passed to
them, the calls of handlers, and the endpoints that were compared. -/
structure Dialer where
  alive : Bool
  bind : Endpoint
  /-- Is the socket open? -/
  isOpen : Bool
  /-- Is the acceptor open? -/
  listening : Bool
  ops : List Op
  waits : List Wait
  asked : List (Request × Handler)
  calls : List (Handler × Ec)
  compared : List (Endpoint × Handler × Endpoint)
  deriving DecidableEq, Repr

namespace Dialer

/-- The constructor. -/
def create : Dialer := ⟨true, .any, false, false, [], [], [], [], []⟩

/-- A call with a handler. -/
def ask (x : Dialer) (r : Request) (h : Handler) : Dialer := { x with asked := x.asked ++ [(r, h)] }

/-- The handler is posted, or called. -/
def call (x : Dialer) (h : Handler) (ec : Ec) : Dialer := { x with calls := x.calls ++ [(h, ec)] }

/-- `m_timer.cancel`, which is a part of `expires_at` and `expires_from_now`, too. -/
def cancel (x : Dialer) : Dialer :=
  { x with waits := x.waits.map fun w => { w with cancelled := true } }

/-- `m_timer.async_wait`. -/
def wait (x : Dialer) (alarm : Alarm) : Dialer := { x with waits := x.waits ++ [⟨alarm, false⟩] }

/-- An operation of the socket or the acceptor is started. -/
def start (x : Dialer) (op : Op) : Dialer := { x with ops := x.ops ++ [op] }

/-- `transport::do_connect`. -/
def doConnect (setup : Setup) (x : Dialer) (remote : Endpoint) (h : Handler) (deadline : Time) :
    Dialer :=
  match setup with
  | .thrown ec opened => { x with isOpen := opened }.call h ec
  | .done =>
    (({ x with isOpen := true }.cancel).wait .closeSocket).start (.connect remote h deadline)

/-- `transport::do_accept`. Its deadline is for the timer only, and is left out. -/
def doAccept (setup : Setup) (x : Dialer) (remote : Endpoint) (h : Handler) : Dialer :=
  if x.isOpen then { x with isOpen := false }.start (.accept remote h)
  else if x.listening then x.call h alreadyOpen
  else
    match setup with
    | .thrown ec opened => { x with listening := opened }.call h ec
    | .done => (({ x with listening := true }.cancel).wait .closeAcceptor).start (.accept remote h)

/-- `transport::close`. -/
def close (x : Dialer) : Dialer := { x.cancel with isOpen := false, listening := false }

/-- The handler of `async_connect`. -/
def connected (x : Dialer) (remote : Endpoint) (h : Handler) (deadline : Time) (ec : Ec)
    (now : Time) : Dialer :=
  if x.alive then
    let x := x.cancel
    if ec ≠ connectionRefused ∨ deadline < now then x.call h ec
    else if x.isOpen = false then x.call h operationAborted
    else x.cancel.wait (.retry remote h deadline)
  else x.call h operationAborted

/-- How `async_accept` comes out: a code, or a connection, and what `remote_endpoint` says of it,
which is an exception if the peer is gone by then. -/
inductive Accepted where
  | failed (ec : Fault)
  | peer (actual : Option Endpoint)
  deriving DecidableEq, Repr

/-- The timer and the acceptor are done with, and the handler is posted. -/
def settle (x : Dialer) (h : Handler) (ec : Ec) : Dialer :=
  { x.cancel with listening := false }.call h ec

/-- The handler of `async_accept`, up to the second lock if it takes one. An exception leaves it,
and what it holds is gone. -/
def accepted (x : Dialer) (remote : Endpoint) (h : Handler) (r : Accepted) : Dialer :=
  if x.alive then
    match r with
    | .failed ec => x.settle h ec
    | .peer none => { x with isOpen := true }
    | .peer (some actual) =>
      { x with
        isOpen := true
        compared := x.compared ++ [(remote, h, actual)] }.start
          (.verdict remote h (remote.admits actual))
  else x.call h operationAborted

/-- The rest of the handler. -/
def decided (setup : Setup) (x : Dialer) (remote : Endpoint) (h : Handler) (expected : Bool) :
    Dialer :=
  if expected then x.settle h .success else x.doAccept setup remote h

/-- The handler of a wait that has expired, or was cancelled. -/
def woken (setup : Setup) (x : Dialer) (alarm : Alarm) (expired : Bool) : Dialer :=
  match alarm with
  | .closeSocket => if expired ∧ x.alive then { x with isOpen := false } else x
  | .closeAcceptor => if expired ∧ x.alive then { x with listening := false } else x
  | .retry remote h deadline =>
    if x.alive then
      if expired then x.doConnect setup remote h deadline else x.call h operationAborted
    else x.call h operationAborted

/-- What can happen: the calls, the completion of the operation or the wait at some place, and the
end of the channel. A handler that runs keeps the channel alive. -/
inductive Event where
  | open (endpoint : Endpoint)
  | connect (setup : Setup) (now : Time) (remote : Endpoint) (h : Handler)
  | accept (setup : Setup) (remote : Endpoint) (h : Handler)
  | close
  | shutdown (ec : Ec) (h : Handler)
  | connected (place : Nat) (ec : Ec) (now : Time)
  | accepted (place : Nat) (r : Accepted)
  | decided (place : Nat) (setup : Setup)
  | woken (place : Nat) (expired : Bool) (setup : Setup)
  | destroy
  deriving DecidableEq, Repr

/-- One event, where `timeout` is `qos::connect_timeout`. -/
def step (timeout : Int) (x : Dialer) : Event → Option Dialer
  | .open endpoint => if x.alive then some { x with bind := endpoint } else none
  | .connect setup now remote h =>
    if x.alive then
      some ((x.ask (.connect remote) h).doConnect setup remote h (later now timeout))
    else none
  | .accept setup remote h =>
    if x.alive then some ((x.ask (.accept remote) h).doAccept setup remote h) else none
  | .close => if x.alive then some x.close else none
  | .shutdown ec h =>
    if x.alive then some ((x.ask .shutdown h).settle h ec) else none
  | .connected place ec now =>
    match x.ops[place]? with
    | some (.connect remote h deadline) =>
      some ({ x with ops := x.ops.eraseIdx place }.connected remote h deadline ec now)
    | _ => none
  | .accepted place r =>
    match x.ops[place]? with
    | some (.accept remote h) =>
      some ({ x with ops := x.ops.eraseIdx place }.accepted remote h r)
    | _ => none
  | .decided place setup =>
    match x.ops[place]? with
    | some (.verdict remote h expected) =>
      some ({ x with ops := x.ops.eraseIdx place }.decided setup remote h expected)
    | _ => none
  | .woken place expired setup =>
    match x.waits[place]? with
    | some w =>
      if expired = false ∧ w.cancelled = false then none
      else some ({ x with waits := x.waits.eraseIdx place }.woken setup w.alarm expired)
    | none => none
  | .destroy =>
    if x.alive ∧ x.ops.all (fun op => !op.running) then some { x.close with alive := false }
    else none

/-- One channel under any calls and completions. -/
def system (timeout : Int) : System Dialer Event where
  init x := x = create
  step := step timeout

end Dialer

end Tubus.Tcp
