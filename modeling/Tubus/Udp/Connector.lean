import Tubus.Lib.SortedMap
import Tubus.Qos
import Tubus.Udp.Proto

/-!
# The connector

`transport::connector`: the handshake (`link` and its echo), the keep-alive (`ping`) and the
teardown (`tear`). What it still has to say is a map of jobs, each with the time from which it
is due; an echo is due at once. The state changes both when a packet is parsed and when one is
written: an accepting side is linked by the act of writing `link|echo`, and a side asked to tear
down is finished by the act of writing `tear|echo`.

`m_repeat` belongs to the transport and is shared by reference. It is kept here, where it is
assigned, and handed to the streamers as an argument.

Callbacks are posted, never called. `posts` holds what was posted, oldest first; an empty
callback that is posted all the same shows as `none`.
-/

namespace Tubus.Udp

open Lib

/-- `transport::state`. -/
inductive Status where
  | neither
  | initial
  | accepting
  | connecting
  | linked
  | shutting
  | tearing
  | finished
  deriving DecidableEq, Repr

/-- The section types the connector queues, in the order of their codes. -/
inductive Job where
  | link
  | linkEcho
  | tear
  | tearEcho
  | ping
  | pingEcho
  deriving DecidableEq, Repr

namespace Job

/-- The key of a job in `m_jobs`. -/
def code : Job → Nat
  | .link => 2
  | .linkEcho => 3
  | .tear => 4
  | .tearEcho => 5
  | .ping => 6
  | .pingEcho => 7

theorem code_injective : Function.Injective code := by
  intro a b h
  cases a <;> cases b <;> first | rfl | exact absurd h (by decide)

instance : LinearOrder Job := LinearOrder.lift' code code_injective

/-- `item.first & section::echo`. -/
def isEcho : Job → Bool
  | .linkEcho | .tearEcho | .pingEcho => true
  | .link | .tear | .ping => false

end Job

/-- A completion handed to the reactor: a callback of the caller, or `on_error`. -/
inductive Post where
  | handler (callback : Option Handler) (ec : Ec)
  | error (ec : Ec)
  deriving DecidableEq, Repr

/-- A time or a duration as the unsigned 64-bit count it is put on the wire as. -/
def toU64 (t : Int) : Nat := (t % 2 ^ 64).toNat

/-- An unsigned 64-bit count as the signed one a duration is built from. -/
def toI64 (n : Nat) : Int :=
  if n % 2 ^ 64 < 2 ^ 63 then (n % 2 ^ 64 : Nat) else (n % 2 ^ 64 : Nat) - 2 ^ 64

/-- `transport::connector`. -/
structure Connector where
  status : Status
  localPin : Nat
  remotePin : Nat
  jobs : SortedMap Job Time
  seen : Time
  dead : Time
  resend : Int
  onError : Bool
  onConnect : Option Handler
  onShutdown : Option Handler
  posts : List Post

namespace Connector

/-- The constructor, with the resend interval the transport starts from. -/
def create : Connector where
  status := .neither
  localPin := 0
  remotePin := 0
  jobs := .empty
  seen := maxDateTime
  dead := maxDateTime
  resend := 100000
  onError := false
  onConnect := none
  onShutdown := none
  posts := []

/-- `connector::init`. -/
def init (c : Connector) : Connector := { c with onError := true, status := .initial }

/-- `boost::asio::post`. -/
def post (c : Connector) (p : Post) : Connector := { c with posts := c.posts ++ [p] }

/-- Post a stored callback, when there is one. -/
def postIf (c : Connector) (callback : Option Handler) (ec : Ec) : Connector :=
  if callback.isSome then c.post (.handler callback ec) else c

/-- `connector::error`. -/
def error (c : Connector) (ec : Ec) : Connector :=
  { (c.postIf c.onConnect ec).postIf c.onShutdown ec with
    onConnect := none
    onShutdown := none
    localPin := 0
    remotePin := 0
    seen := maxDateTime
    dead := maxDateTime
    jobs := .empty
    status := .finished }

/-- The pin test of `connector::valid`. -/
def admits (c : Connector) (pin : Nat) : Bool :=
  decide (c.localPin ≠ 0) && (decide (c.remotePin = 0) || decide (c.remotePin = pin))

/-- `connector::valid`. -/
def valid (c : Connector) (p : Bytes) : Option Bool := do
  return decide (Datagram.headerSize < p.length)
    && decide ((← Datagram.sign p) = Datagram.packetSign)
    && decide ((← Datagram.version p) = Datagram.packetVersion)
    && c.admits (← Datagram.pin p)

/-- One section in `connector::parse`. -/
def take (q : Qos) (pin : Nat) (c : Connector) : Section → Connector
  | .link =>
    { c with
      jobs := c.jobs.emplace .linkEcho zeroTime
      remotePin := if c.status = .accepting then pin else c.remotePin }
  | .linkEcho =>
    if c.status = .connecting then
      { c.post (.handler c.onConnect .success) with
        status := .linked
        dead := maxDateTime
        remotePin := pin
        jobs := (c.jobs.erase .link).emplace .ping zeroTime
        onConnect := none }
    else c
  | .tear =>
    let c := { c with jobs := c.jobs.emplace .tearEcho zeroTime }
    if c.status = .linked then
      { c with status := .tearing, dead := later c.seen q.shutdownTimeout }
    else c
  | .tearEcho =>
    if c.status = .shutting then
      { c.post (.handler c.onShutdown .success) with
        status := .finished
        jobs := c.jobs.erase .tear
        onShutdown := none }
    else c
  | .ping v => { c with jobs := c.jobs.emplace .pingEcho (later zeroTime (toI64 v)) }
  | .pingEcho v =>
    let rtt := wsub (toU64 (sinceZero c.seen)) v
    { c with
      resend := toI64 (max (rtt * 2 % 2 ^ 64) 10000)
      jobs := (c.jobs.erase .ping).emplace .ping (later c.seen q.pingTimeout) }
  | .move _ _ | .moveEcho _ | .edge _ | .edgeEcho _ | .runt _ => c

/-- `connector::parse`. -/
def parse (q : Qos) (now : Time) (c : Connector) (p : Packet) : Connector :=
  p.body.foldl (take q p.pin) { c with seen := now }

/-- The test on the clock with which `connector::imbue` gives up. -/
def timedOut (q : Qos) (now : Time) (c : Connector) : Bool :=
  (decide (c.status = .linked) && decide (later c.seen q.pingTimeout < later now (-5000000)))
    || decide (c.dead < now)

/-- The section a job puts into a packet. -/
def sectionOf (now : Time) : Job × Time → Section
  | (.link, _) => .link
  | (.linkEcho, _) => .linkEcho
  | (.tear, _) => .tear
  | (.tearEcho, _) => .tearEcho
  | (.ping, _) => .ping (toU64 (sinceZero now))
  | (.pingEcho, t) => .pingEcho (toU64 (sinceZero t))

/-- What `connector::imbue` does to the state after it wrote a job's section. -/
def wrote (now : Time) (c : Connector) : Job → Connector
  | .linkEcho =>
    let c := { c with jobs := c.jobs.erase .linkEcho }
    if c.status = .accepting then
      { c.post (.handler c.onConnect .success) with
        status := .linked
        dead := maxDateTime
        onConnect := none }
    else c
  | .pingEcho => { c with jobs := c.jobs.erase .pingEcho }
  | .tearEcho =>
    { c.postIf c.onShutdown .success with
      jobs := c.jobs.erase .tearEcho
      status := .finished
      onShutdown := none }
  | job => { c with jobs := c.jobs.modify job (fun _ => later now c.resend) }

/-- The predicate of the `find_if` in `connector::imbue`. -/
def due (now : Time) (item : Job × Time) : Bool := item.1.isEcho || decide (item.2 < now)

/-- The loop of `connector::imbue`, over the room left in the packet. Every round takes at
least a section header, so the room is fuel enough. -/
def imbueLoop (now : Time) : Nat → Nat → Connector → Connector × List Section
  | 0, _, c => (c, [])
  | fuel + 1, room, c =>
    if room < Section.headerSize then (c, [])
    else match c.jobs.entries.find? (due now) with
      | none => (c, [])
      | some item =>
        let s := sectionOf now item
        let r := imbueLoop now fuel (room - s.size) (c.wrote now item.1)
        (r.1, s :: r.2)

/-- `connector::imbue`: the connector after it, and the sections it wrote into `room` bytes. -/
def imbue (q : Qos) (now : Time) (room : Nat) (c : Connector) : Connector × List Section :=
  if c.timedOut q now then (c.post (.error .interrupted), [])
  else imbueLoop now room room c

/-- `connector::shutdown`. -/
def shutdown (q : Qos) (now : Time) (h : Handler) (c : Connector) : Connector :=
  match c.status with
  | .finished => c.post (.handler (some h) .success)
  | .linked =>
    { c with
      onShutdown := some h
      dead := later now q.shutdownTimeout
      status := .shutting
      jobs := c.jobs.emplace .tear zeroTime }
  | .tearing => { c with onShutdown := some h, dead := later now q.shutdownTimeout }
  | .shutting => c.post (.handler (some h) .inProgress)
  | _ => c.post (.handler (some h) .notConnected)

/-- `connector::connect`, with the pin that `make_pin` gives. -/
def connect (q : Qos) (now : Time) (pin : Nat) (h : Handler) (c : Connector) : Connector :=
  if c.status = .initial then
    { c with
      localPin := pin
      onConnect := some h
      dead := later now q.connectTimeout
      status := .connecting
      jobs := c.jobs.emplace .link zeroTime }
  else
    c.post (.handler (some h) (if c.status = .connecting then .inProgress
      else if c.status = .linked then .alreadyConnected else .noPermission))

/-- `connector::accept`, with the pin that `make_pin` gives. -/
def accept (q : Qos) (now : Time) (pin : Nat) (h : Handler) (c : Connector) : Connector :=
  if c.status = .initial then
    { c with
      localPin := pin
      onConnect := some h
      dead := later now q.acceptTimeout
      status := .accepting }
  else
    c.post (.handler (some h) (if c.status = .accepting then .inProgress
      else if c.status = .linked then .alreadyConnected else .noPermission))

/-- `connector::deffered`. -/
def deffered (c : Connector) : Bool := !c.jobs.entries.isEmpty

end Connector

end Tubus.Udp
