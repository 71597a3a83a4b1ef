import Tubus.Lib.System
import Tubus.Udp.Connector
import Tubus.Udp.Istreamer
import Tubus.Udp.Ostreamer

/-!
# The UDP channel

`transport`: a connector and two streamers under one lock. Each event below is the body of one
locked function, so the events of a channel happen one after another. `none` is a throw out of
a `noexcept` function, which ends the process.

`feed` and `produce` are stated twice. `feed` takes a packet whose sections were read, and
`feedBytes` the datagram itself; `produce` gives the sections written in a round, and `emit`
writes them into the reused packet buffer. `Laws.Feed` and `Laws.Emission` relate them.

`m_repeat` is `connector.resend`. The socket, the timer and the loops they drive are left to
the caller: a packet may be fed, a round produced and an error reported at any moment.
-/

namespace Tubus.Udp

open Lib

/-- `transport`. -/
structure Transport where
  qos : Qos
  connector : Connector
  istreamer : Istreamer
  ostreamer : Ostreamer
  /-- Reads and writes that were turned away because the channel is not linked. -/
  declined : List (Handler × Ec)

/-- The readings of the clock in one round of `produce`. -/
structure Clock where
  connector : Time
  istreamer : Time
  ostreamer : Time
  deriving DecidableEq, Repr

/-- The states in which `feed` hands a packet to the streamers. -/
def Status.streams : Status → Bool
  | .linked | .accepting | .connecting => true
  | .neither | .initial | .shutting | .tearing | .finished => false

/-- The states in which `produce` lets the streamers write. -/
def Status.speaks : Status → Bool
  | .linked | .connecting => true
  | .neither | .initial | .accepting | .shutting | .tearing | .finished => false

/-- The states in which `feed` drops the streams. -/
def Status.closing : Status → Bool
  | .shutting | .tearing => true
  | .neither | .initial | .accepting | .connecting | .linked | .finished => false

namespace Transport

/-- The constructor. -/
def create (q : Qos) : Transport := ⟨q, .create, .create q, .create, []⟩

/-- `istreamer.error` and `ostreamer.error`. -/
def abort (t : Transport) (ec : Ec) : Transport :=
  { t with istreamer := t.istreamer.error ec, ostreamer := t.ostreamer.error ec }

/-- `transport::open`, where the socket calls succeed. -/
def openAt (t : Transport) : Transport :=
  if t.connector.status = .neither then
    { t with
      connector := t.connector.init
      istreamer := t.istreamer.init
      ostreamer := t.ostreamer.init }
  else t

/-- `transport::mistake`. `close` is `mistake` with `interrupted`. -/
def mistake (t : Transport) (ec : Ec) : Transport :=
  { t with
    connector := t.connector.error ec
    istreamer := t.istreamer.error ec
    ostreamer := t.ostreamer.error ec }

/-- `transport::connect`; `socket` is the outcome of connecting the socket. -/
def connect (t : Transport) (now : Time) (pin : Nat) (h : Handler) (socket : Ec) : Transport :=
  if t.connector.status ≠ .initial then
    { t with connector := t.connector.post (.handler (some h) .noPermission) }
  else if socket ≠ .success then
    { t with connector := t.connector.post (.handler (some h) socket) }
  else { t with connector := t.connector.connect t.qos now pin h }

/-- `transport::accept`; `socket` is the outcome of connecting the socket, when it is. -/
def accept (t : Transport) (now : Time) (pin : Nat) (h : Handler) (socket : Ec) : Transport :=
  if t.connector.status ≠ .initial then
    { t with connector := t.connector.post (.handler (some h) .noPermission) }
  else if socket ≠ .success then
    { t with connector := t.connector.post (.handler (some h) socket) }
  else { t with connector := t.connector.accept t.qos now pin h }

/-- `transport::shutdown`. -/
def shutdown (t : Transport) (now : Time) (h : Handler) : Transport :=
  { t with connector := t.connector.shutdown t.qos now h }

/-- The code a read or a write is turned away with. -/
def declineCode : Status → Ec
  | .neither | .initial => .notConnected
  | .accepting | .connecting => .tryAgain
  | .linked | .shutting | .tearing | .finished => .badDescriptor

/-- Turn a read or a write away. -/
def decline (t : Transport) (h : Handler) : Transport :=
  { t with declined := t.declined ++ [(h, declineCode t.connector.status)] }

/-- `transport::read`. -/
def read (t : Transport) (buffer : Bytes) (h : Handler) : Option Transport :=
  if t.connector.status = .linked then do
    let i ← t.istreamer.append buffer h
    return { t with istreamer := i }
  else some (t.decline h)

/-- `transport::write`. -/
def write (t : Transport) (buffer : Bytes) (h : Handler) : Transport :=
  if t.connector.status = .linked then
    { t with ostreamer := t.ostreamer.append t.qos buffer h }
  else t.decline h

/-- `transport::writable`. -/
def writable (t : Transport) : Nat :=
  if t.connector.status = .linked then t.ostreamer.writable t.qos else 0

/-- `transport::readable`. -/
def readable (t : Transport) : Nat :=
  if t.connector.status = .linked then t.istreamer.readable else 0

/-- The streamers' part of `transport::feed`. -/
def feedStreams (t : Transport) (p : Packet) : Option Transport :=
  if t.connector.status.streams then do
    let i ← t.istreamer.parse t.qos p
    return { t with istreamer := i, ostreamer := t.ostreamer.parse p }
  else some t

/-- The connector's part of `transport::feed`, and the end of the streams that may follow. -/
def feedConnector (t : Transport) (now : Time) (p : Packet) : Transport :=
  let c := t.connector.parse t.qos now p
  if c.status.closing then { t.abort .connectionAborted with connector := c }
  else { t with connector := c }

/-- `transport::feed`, on a packet whose sign and version are right. -/
def feed (t : Transport) (now : Time) (p : Packet) : Option Transport :=
  if t.connector.admits p.pin then do
    let t ← t.feedStreams p
    return t.feedConnector now p
  else some t

/-- `transport::feed`, on the datagram after it was shown. -/
def feedBytes (t : Transport) (now : Time) (pack : Bytes) : Option Transport := do
  if pack.length < Datagram.headerSize then return t
  if ← t.connector.valid pack then
    let body ← Section.sections (← Datagram.body pack)
    t.feed now ⟨← Datagram.pin pack, body⟩
  else return t

/-- The finished branch of `transport::consume`. -/
def consume (t : Transport) : Transport :=
  if t.connector.status = .finished then t.abort .connectionAborted else t

/-- How much a list of sections takes up. -/
def sizes (l : List Section) : Nat := (l.map Section.size).sum

/-- The three `imbue` calls of one round: the channel after them, the sections they wrote, and
whether the last one gave up before its end. -/
def imbue (t : Transport) (k : Clock) (room : Nat) : Transport × List Section × Bool :=
  let (c, first) := t.connector.imbue t.qos k.connector room
  let t := { t with connector := c }
  if c.status.speaks then
    let room := room - sizes first
    let (i, second) := t.istreamer.imbue k.istreamer c.resend room
    let room := room - sizes second
    let (o, third, gaveUp) := t.ostreamer.imbue t.qos k.ostreamer c.resend room
    ({ t with istreamer := i, ostreamer := o }, first ++ second ++ third, gaveUp)
  else (t, first, false)

/-- `transport::produce`: the channel after the round, and the packet it sends, if any. A
section that does not fit throws. -/
def produce (t : Transport) (k : Clock) : Option (Transport × Option Packet) :=
  if t.connector.status = .finished then some (t.abort .connectionAborted, none)
  else
    let room := t.qos.maxPacketSize - Datagram.headerSize
    let (t', body, _) := t.imbue k room
    if t.qos.maxPacketSize < Datagram.headerSize + Section.headerSize ∨ room < sizes body then none
    else some (t', if body.isEmpty then none else some ⟨t.connector.localPin, body⟩)

/-- Let one writer add its sections to a packet: find the end, write, and end the packet anew
unless the writer gave up. -/
def imbueAt {σ : Type} (p : Bytes) (writer : Nat → σ × List Section × Bool) :
    Option (σ × Bytes) := do
  let at_ ← Datagram.stub p
  let (s, body, gaveUp) := writer at_.sect.length
  let at_ ← at_.puts body
  return (s, if gaveUp then at_.buffer else at_.stub.buffer)

/-- The packet of a round, written into a buffer with any content and trimmed. -/
def emit (t : Transport) (k : Clock) (buffer : Bytes) : Option (Transport × Bytes) := do
  let p ← Datagram.header buffer t.connector.localPin
  let (c, p) ← imbueAt p fun room =>
    let r := t.connector.imbue t.qos k.connector room
    (r.1, r.2, false)
  let t := { t with connector := c }
  if c.status.speaks then
    let (i, p) ← imbueAt p fun room =>
      let r := t.istreamer.imbue k.istreamer c.resend room
      (r.1, r.2, false)
    let (o, p) ← imbueAt p (t.ostreamer.imbue t.qos k.ostreamer c.resend)
    return ({ t with istreamer := i, ostreamer := o }, ← Datagram.trim p)
  else return (t, ← Datagram.trim p)

end Transport

/-! ## The channel as a system -/

/-- What can happen to a channel. -/
inductive Event where
  | openAt
  | connect (now : Time) (pin : Nat) (h : Handler) (socket : Ec)
  | accept (now : Time) (pin : Nat) (h : Handler) (socket : Ec)
  | shutdown (now : Time) (h : Handler)
  | mistake (ec : Ec)
  | read (buffer : Bytes) (h : Handler)
  | write (buffer : Bytes) (h : Handler)
  | feed (now : Time) (p : Packet)
  | consume
  | produce (k : Clock)
  deriving DecidableEq, Repr

/-- What the callers keep to: a buffer is no longer than a `size_t` counts, a pin that `make_pin`
gives is not zero, and a mistake is an error. -/
def Event.sound : Event → Bool
  | .read buffer _ => decide (buffer.length < 2 ^ 64)
  | .write buffer _ => decide (buffer.length < 2 ^ 64)
  | .connect _ pin _ _ => decide (pin ≠ 0)
  | .accept _ pin _ _ => decide (pin ≠ 0)
  | .mistake ec => decide (ec ≠ .success)
  | .openAt | .shutdown _ _ | .feed _ _ | .consume | .produce _ => true

namespace Transport

/-- One event: the channel after it, and the packet it sends, if any. -/
def act (t : Transport) : Event → Option (Transport × Option Packet)
  | .openAt => some (t.openAt, none)
  | .connect now pin h socket => some (t.connect now pin h socket, none)
  | .accept now pin h socket => some (t.accept now pin h socket, none)
  | .shutdown now h => some (t.shutdown now h, none)
  | .mistake ec => some (t.mistake ec, none)
  | .read buffer h => (t.read buffer h).map (·, none)
  | .write buffer h => some (t.write buffer h, none)
  | .feed now p => (t.feed now p).map (·, none)
  | .consume => some (t.consume, none)
  | .produce k => t.produce k

/-- A channel with its parameters, and any events, any packets among them. -/
def system (q : Qos) : System Transport Event where
  init t := t = create q
  step t e := if e.sound then (t.act e).map Prod.fst else none

end Transport

end Tubus.Udp
