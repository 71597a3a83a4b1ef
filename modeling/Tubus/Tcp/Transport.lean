import Tubus.Lib.System
import Tubus.Tcp.Proto

/-!
# The TCP channel

`transport` of `tcp/channel.cpp`, as far as it reads and writes: two queues over one stream. Of each
queue the first task is handed to the stream, and its completion hands over the next one. Each
event below is the body of one locked function, so the events of a channel happen one after
another.

`connect`, `accept`, `shutdown` and `close` act on the socket only; whether it is open may change
at any moment. When the last owner lets go of the channel its queues are gone, and the completions
that are still to come find so by their weak pointer. The content that a read leaves in its buffer
is that of `Stream.received`, and is not kept here.
-/

namespace Tubus.Tcp

open Lib

/-- The sizes of `tcp::qos`, `size_t` values read from the environment. -/
structure Qos where
  receiveBufferSize : Nat
  sendBufferSize : Nat
  receiveBufferSize_lt : receiveBufferSize < 2 ^ 64
  sendBufferSize_lt : sendBufferSize < 2 ^ 64

/-- The values used where the environment sets none. -/
def Qos.default : Qos where
  receiveBufferSize := 5 * 1024 * 1024
  sendBufferSize := 5 * 1024 * 1024
  receiveBufferSize_lt := Tubus.Qos.default.receiveBufferSize_lt
  sendBufferSize_lt := Tubus.Qos.default.sendBufferSize_lt

/-- `transport::io_task`. -/
structure Task where
  buffer : Bytes
  callback : Handler
  deriving DecidableEq, Repr

/-- The size of the task's buffer. -/
def Task.size (t : Task) : Nat := t.buffer.length

/-- What a handler is called with. -/
structure Call where
  callback : Handler
  ec : Ec
  size : Nat
  deriving DecidableEq, Repr

/-- One direction: `m_rq` and `m_rb_size`, or `m_wq` and `m_wb_size`, and the operations that the
stream has under way, each with the task its completion handler holds. The fields from `accepted`
on are history: the tasks that went into the queue, those handed to the stream, and the calls of
their handlers. -/
structure Lane (κ : Type) where
  queue : List Task
  size : Nat
  outstanding : List (κ × Task)
  accepted : List Task
  started : List Task
  calls : List Call
  deriving DecidableEq, Repr

namespace Lane

variable {κ : Type}

def create : Lane κ := ⟨[], 0, [], [], [], []⟩

/-- A task goes into the queue. -/
def push (l : Lane κ) (t : Task) : Lane κ :=
  { l with
    queue := l.queue ++ [t]
    size := wadd l.size t.size
    accepted := l.accepted ++ [t] }

/-- An operation of the stream is started. -/
def start (l : Lane κ) (kind : κ) (t : Task) : Lane κ :=
  { l with outstanding := l.outstanding ++ [(kind, t)], started := l.started ++ [t] }

/-- The completion handler takes the first task off the queue, and its own buffer off the size. -/
def pop (l : Lane κ) (t : Task) : Lane κ :=
  { l with queue := l.queue.tail, size := wsub l.size t.size }

/-- The handler is posted, or called. -/
def call (l : Lane κ) (t : Task) (ec : Ec) (size : Nat) : Lane κ :=
  { l with calls := l.calls ++ [⟨t.callback, ec, size⟩] }

end Lane

/-- `transport`. A read is one of the three kinds, and a write has a head or not. -/
structure Transport where
  /-- Is the channel still owned? -/
  alive : Bool
  /-- Is its socket open? -/
  isOpen : Bool
  stream : Stream
  reads : Lane Reading
  writes : Lane Bool
  /-- History: the calls that were turned away. -/
  refused : List Call
  deriving DecidableEq, Repr

namespace Transport

/-- The constructor. -/
def create (secret : UInt64) : Transport :=
  ⟨true, false, .create secret, .create, .create, []⟩

/-- Turn a call away. -/
def refuse (x : Transport) (h : Handler) (ec : Ec) : Transport :=
  { x with refused := x.refused ++ [⟨h, ec, 0⟩] }

/-- `transport::async_read`. -/
def asyncRead (x : Transport) (t : Task) : Transport :=
  { x with reads := x.reads.start x.stream.asyncRead t }

/-- `transport::async_write`; `salt` is what the generator would give. -/
def asyncWrite (e : Endian) (salt : UInt64) (x : Transport) (t : Task) : Transport :=
  let w := x.stream.asyncWrite e salt t.buffer
  { x with stream := w.1, writes := x.writes.start w.2.2 t }

/-- `transport::read`. -/
def read (q : Qos) (x : Transport) (buffer : Bytes) (h : Handler) : Transport :=
  if x.isOpen = false then x.refuse h .notConnected
  else if q.receiveBufferSize < wadd x.writes.size buffer.length then x.refuse h .messageSize
  else
    let x := { x with reads := x.reads.push ⟨buffer, h⟩ }
    if x.reads.queue.length = 1 then x.asyncRead ⟨buffer, h⟩ else x

/-- `transport::write`. -/
def write (e : Endian) (q : Qos) (salt : UInt64) (x : Transport) (buffer : Bytes) (h : Handler) :
    Transport :=
  if x.isOpen = false then x.refuse h .notConnected
  else if q.sendBufferSize < wadd x.writes.size buffer.length then x.refuse h .messageSize
  else
    let x := { x with writes := x.writes.push ⟨buffer, h⟩ }
    if x.writes.queue.length = 1 then x.asyncWrite e salt ⟨buffer, h⟩ else x

/-- The completion handler of `async_read`, called by the stream. -/
def readDone (x : Transport) (t : Task) (ec : Ec) (count : Nat) : Transport :=
  let called (x : Transport) := { x with reads := x.reads.call t ec count }
  if x.alive then
    let x := { x with reads := x.reads.pop t }
    match x.reads.queue with
    | [] => called x
    | op :: _ => called (x.asyncRead op)
  else called x

/-- The completion handler of `async_write`, called by the stream. -/
def writeDone (e : Endian) (salt : UInt64) (x : Transport) (t : Task) (ec : Ec) (count : Nat) :
    Transport :=
  let called (x : Transport) := { x with writes := x.writes.call t ec count }
  if x.alive then
    let x := { x with writes := x.writes.pop t }
    match x.writes.queue with
    | [] => called x
    | op :: _ => called (x.asyncWrite e salt op)
  else called x

/-- `transport::writable`. -/
def writable (q : Qos) (x : Transport) : Nat := wsub q.sendBufferSize x.writes.size

/-- `transport::readable`, where the socket has `count` bytes. -/
def readable (x : Transport) (count : Nat) : Nat :=
  let size := x.stream.available count
  if x.reads.size < size then size - x.reads.size else 0

/-- The last owner lets go: the stream and the queues are destroyed, and the socket is closed. -/
def destroy (x : Transport) : Transport :=
  { x with
    alive := false
    isOpen := false
    reads := { x.reads with queue := [] }
    writes := { x.writes with queue := [] } }

/-- What can happen to a channel. The operation of the stream at some place completes, having moved
these bytes, or that many. -/
inductive Event where
  | socket (isOpen : Bool)
  | read (buffer : Bytes) (h : Handler)
  | write (salt : UInt64) (buffer : Bytes) (h : Handler)
  | readDone (place : Nat) (ec : Ec) (moved : Bytes)
  | writeDone (place : Nat) (salt : UInt64) (ec : Ec) (count : Nat)
  | destroy
  deriving DecidableEq, Repr

def step (e : Endian) (q : Qos) (x : Transport) : Event → Option Transport
  | .socket isOpen => if x.alive then some { x with isOpen := isOpen } else none
  | .read buffer h => if x.alive then some (x.read q buffer h) else none
  | .write salt buffer h => if x.alive then some (x.write e q salt buffer h) else none
  | .destroy => if x.alive then some x.destroy else none
  | .readDone place ec moved =>
    match x.reads.outstanding[place]? with
    | none => none
    | some (kind, t) =>
      let r := x.stream.received e x.alive moved ec kind
      let x := { x with
        stream := r.1
        reads := { x.reads with outstanding := x.reads.outstanding.eraseIdx place } }
      some (x.readDone t r.2.ec r.2.size)
  | .writeDone place salt ec count =>
    match x.writes.outstanding[place]? with
    | none => none
    | some (head, t) =>
      let r := Stream.written head ec count
      let x := { x with
        writes := { x.writes with outstanding := x.writes.outstanding.eraseIdx place } }
      some (x.writeDone e salt t r.1 r.2)

/-- One channel under any calls and completions. -/
def system (e : Endian) (q : Qos) (secret : UInt64) : System Transport Event where
  init x := x = create secret
  step := step e q

end Transport

end Tubus.Tcp
