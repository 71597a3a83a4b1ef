import Tubus.Lib.Loop
import Tubus.Lib.SortedMap
import Tubus.Qos
import Tubus.Udp.Proto

/-!
# The receiving half of a channel

`transport::istreamer`. Snippets are kept by their handles until the stream reaches them, and
`transmit` copies the contiguous part into the readers, in the order of the read calls. A
snippet that is too long for its reader is cut, and the rest is kept under a new key. The window
offered to the peer, `edge`, moves on by the size of a read when the read is complete, not
before.

The fields from `asked` on are history: they record what happened and nothing reads them. So
is `Reader.copied`.
-/

namespace Tubus.Udp

open Lib

/-- `istreamer::reader`. -/
structure Reader where
  buffer : Bytes
  read : Nat
  callback : Handler
  /-- The bytes copied into the buffer, in order. -/
  copied : Bytes
  deriving DecidableEq, Repr

/-- A read callback that was posted, with the reader's buffer at that moment. -/
structure Readout where
  callback : Handler
  ec : Ec
  size : Nat
  buffer : Bytes
  copied : Bytes
  deriving DecidableEq, Repr

namespace Reader

/-- The constructor. -/
def create (buffer : Bytes) (h : Handler) : Reader := ⟨buffer, 0, h, []⟩

/-- Copy data behind what was read before. -/
def fill (r : Reader) (data : Bytes) : Option Reader := do
  let buffer ← Buffer.fill r.buffer r.read data
  return { r with buffer := buffer, read := wadd r.read data.length, copied := r.copied ++ data }

/-- Post the reader's callback. -/
def posted (r : Reader) (ec : Ec) : Readout := ⟨r.callback, ec, r.read, r.buffer, r.copied⟩

end Reader

/-- `istreamer::streambuf`. -/
structure ReceiveBuffer where
  head : Nat
  tail : Nat
  data : SortedMap Nat Bytes

namespace ReceiveBuffer

/-- A stream buffer that nothing was mapped into. -/
def fresh : ReceiveBuffer := ⟨0, 0, .empty⟩

/-- `streambuf::available`. -/
def available (b : ReceiveBuffer) : Bool :=
  match b.data.first? with
  | none => false
  | some (k, _) => decide (k = b.head)

/-- `streambuf::pull`: at most `max` bytes of the first entry, whose rest is kept under the new
head unless that key is taken. -/
def pull (b : ReceiveBuffer) (max : Nat) : Option (Bytes × ReceiveBuffer) :=
  if b.available then
    match b.data.first? with
    | none => some ([], b)
    | some (_, top) =>
      if top.length ≤ max then
        some (top, { b with head := wadd b.head top.length, data := b.data.eraseFirst })
      else do
        let (ret, top) ← Buffer.popFront top max
        let head := wadd b.head max
        return (ret, { b with head := head, data := b.data.eraseFirst.emplace head top })
  else some ([], b)

/-- Does `map` put a fragment with this handle in? -/
def inserts (b : ReceiveBuffer) (handle : Nat) : Bool :=
  decide (b.head ≤ handle) && !b.data.contains handle

/-- `streambuf::map`. The tail is the end of the entry with the greatest key, taken anew when an
entry goes in. -/
def map (q : Qos) (b : ReceiveBuffer) (handle : Nat) (buffer : Bytes) : Bool × ReceiveBuffer :=
  if b.tail ≤ handle ∧ q.receiveBufferSize < wsub (wadd handle buffer.length) b.head then (false, b)
  else if b.inserts handle then
    let data := b.data.emplace handle buffer
    match data.last? with
    | none => (true, { b with data := data })
    | some (k, d) => (true, { b with data := data, tail := wadd k d.length })
  else (true, b)

/-- `streambuf::clear`, which leaves the tail. -/
def clear (b : ReceiveBuffer) : ReceiveBuffer := { b with data := .empty, head := 0 }

/-- The loop of `streambuf::readable_bytes`: the end of the chain of entries from a position. -/
def chain : Nat → List (Nat × Bytes) → Nat
  | cursor, [] => cursor
  | cursor, (k, d) :: rest => if k = cursor then chain (wadd cursor d.length) rest else cursor

/-- `streambuf::readable_bytes`. -/
def readableBytes (b : ReceiveBuffer) : Nat := wsub (chain b.head b.data.entries) b.head

end ReceiveBuffer

/-- `istreamer::edge_job`. -/
structure EdgeJob where
  range : Nat
  time : Time
  deriving DecidableEq, Repr

/-- The window after a completed read. -/
def EdgeJob.moved (e : EdgeJob) (read : Nat) : EdgeJob :=
  if 0 < read then ⟨wadd e.range read, zeroTime⟩ else e

/-- `transport::istreamer`. -/
structure Istreamer where
  buffer : ReceiveBuffer
  acks : SortedSet Nat
  readers : List Reader
  edge : EdgeJob
  onError : Bool
  /-- Read callbacks posted, oldest first. -/
  readouts : List Readout
  /-- Posts of `on_error`. -/
  errors : List Ec
  /-- The reads that were queued, by size and callback, in call order. -/
  asked : List (Nat × Handler)
  /-- The fragments `map` put in, each with the pin of its packet. -/
  stored : List (Nat × Nat × Bytes)

namespace Istreamer

/-- The constructor. -/
def create (q : Qos) : Istreamer where
  buffer := .fresh
  acks := .empty
  readers := []
  edge := ⟨q.receiveBufferSize, zeroTime⟩
  onError := false
  readouts := []
  errors := []
  asked := []
  stored := []

/-- `istreamer::init`. -/
def init (i : Istreamer) : Istreamer := { i with onError := true }

/-- `istreamer::error`. -/
def error (i : Istreamer) (ec : Ec) : Istreamer :=
  { i with
    readouts := i.readouts ++ i.readers.map (fun r => r.posted ec)
    readers := []
    acks := .empty
    buffer := i.buffer.clear }

/-- The inner loop of `istreamer::transmit`: fill one reader. A round uses an entry up or
completes the reader, so the number of entries is fuel enough. -/
def fillLoop : Nat → ReceiveBuffer → Reader → Option (ReceiveBuffer × Reader)
  | 0, b, r => some (b, r)
  | fuel + 1, b, r =>
    if b.available ∧ r.read < r.buffer.length then do
      let (data, b) ← b.pull (r.buffer.length - r.read)
      let r ← r.fill data
      fillLoop fuel b r
    else some (b, r)

/-- The outer loop of `istreamer::transmit`. A reader that is left short ends it, since then
nothing more is available. -/
def transmitLoop : List Reader → ReceiveBuffer → EdgeJob →
    Option (List Readout × List Reader × ReceiveBuffer × EdgeJob)
  | [], b, e => some ([], [], b, e)
  | r :: rest, b, e =>
    if b.available then do
      let (b, r) ← fillLoop b.data.size b r
      if r.buffer.length = r.read then
        let (done, left, b, e) ← transmitLoop rest b (e.moved r.read)
        return (r.posted .success :: done, left, b, e)
      else return ([], r :: rest, b, e)
    else some ([], r :: rest, b, e)

/-- `istreamer::transmit`. -/
def transmit (i : Istreamer) : Option Istreamer := do
  let (done, left, b, e) ← transmitLoop i.readers i.buffer i.edge
  return { i with readouts := i.readouts ++ done, readers := left, buffer := b, edge := e }

/-- Where the control of `istreamer::transmit` stands: at the test of the outer loop, at the test of
the inner one, or behind the inner one. -/
inductive Stand where
  | outer
  | inner
  | after
  deriving DecidableEq, Repr

/-- One turn of the two loops of `istreamer::transmit`, as they are written there. Behind the first
test `iter` is the first reader, and there is one. -/
def turn : Stand × Istreamer → Turn (Stand × Istreamer) Istreamer
  | (.outer, i) =>
    if i.buffer.available then
      match i.readers with
      | [] => .exit i
      | _ :: _ => .next (.inner, i)
    else .exit i
  | (.inner, i) =>
    match i.readers with
    | [] => .throws
    | r :: rest =>
      if i.buffer.available ∧ r.read < r.buffer.length then
        match i.buffer.pull (r.buffer.length - r.read) with
        | none => .throws
        | some (data, b) =>
          match r.fill data with
          | none => .throws
          | some r => .next (.inner, { i with readers := r :: rest, buffer := b })
      else .next (.after, i)
  | (.after, i) =>
    match i.readers with
    | [] => .throws
    | r :: rest =>
      if r.buffer.length = r.read then
        .next (.outer, { i with
          readers := rest
          readouts := i.readouts ++ [r.posted .success]
          edge := i.edge.moved r.read })
      else .next (.outer, i)

/-- A `move` section in `istreamer::parse`, and whether the walk goes on. -/
def store (q : Qos) (pin : Nat) (i : Istreamer) (h : Nat) (d : Bytes) : Istreamer × Bool :=
  let (ok, b) := i.buffer.map q h d
  if ok then
    ({ i with
      buffer := b
      acks := i.acks.emplace h ()
      stored := if i.buffer.inserts h then i.stored ++ [(pin, h, d)] else i.stored }, true)
  else ({ i with errors := if i.onError then i.errors ++ [.noBufferSpace] else i.errors }, false)

/-- An `edge|echo` section in `istreamer::parse`. -/
def settle (i : Istreamer) (v : Nat) : Istreamer :=
  if i.edge.range = v then { i with edge := { i.edge with time := maxDateTime } } else i

/-- One section in `istreamer::parse`, and whether the walk goes on. The handle of a runt
cannot be read. -/
def take (q : Qos) (pin : Nat) (i : Istreamer) : Section → Option (Istreamer × Bool)
  | .move h d => some (i.store q pin h d)
  | .edgeEcho v => some (i.settle v, true)
  | .runt _ => none
  | .link | .linkEcho | .tear | .tearEcho | .ping _ | .pingEcho _ | .moveEcho _ | .edge _ =>
    some (i, true)

/-- The loop of `istreamer::parse`. -/
def takeAll (q : Qos) (pin : Nat) : Istreamer → List Section → Option Istreamer
  | i, [] => some i
  | i, s :: rest => do
    let (i, more) ← i.take q pin s
    if more then takeAll q pin i rest else return i

/-- `istreamer::parse`. -/
def parse (q : Qos) (i : Istreamer) (p : Packet) : Option Istreamer := do
  let i ← takeAll q p.pin i p.body
  i.transmit

/-- `istreamer::imbue`: the streamer after it, and the sections it wrote into `room` bytes. -/
def imbue (now : Time) (resend : Int) (room : Nat) (i : Istreamer) : Istreamer × List Section :=
  let (echoes, acks, room) := drainAcks .moveEcho room i.acks
  let i := { i with acks := acks }
  if overhead ≤ room ∧ i.edge.time ≤ now then
    ({ i with edge := { i.edge with time := later now resend } }, echoes ++ [.edge i.edge.range])
  else (i, echoes)

/-- `istreamer::append`. -/
def append (i : Istreamer) (buffer : Bytes) (h : Handler) : Option Istreamer :=
  transmit { i with
    readers := i.readers ++ [.create buffer h]
    asked := i.asked ++ [(buffer.length, h)] }

/-- `istreamer::deffered`. -/
def deffered (i : Istreamer) : Bool :=
  !i.acks.entries.isEmpty || decide (i.edge.time ≠ maxDateTime)

/-- The loop of `istreamer::readable`. -/
def unclaimed : Nat → List Reader → Nat
  | bytes, [] => bytes
  | bytes, r :: rest =>
    if 0 < bytes then unclaimed (bytes - min (r.buffer.length - r.read) bytes) rest else bytes

/-- `istreamer::readable`. -/
def readable (i : Istreamer) : Nat := unclaimed i.buffer.readableBytes i.readers

end Istreamer

end Tubus.Udp
