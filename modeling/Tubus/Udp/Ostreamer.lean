import Tubus.Lib.SortedMap
import Tubus.Qos
import Tubus.Udp.Proto

/-!
# The sending half of a channel

`transport::ostreamer`. Buffers handed to `append` queue up in a stream buffer. `imbue` cuts
them into snippets, each named by the stream position of its first byte, as far as the packet's
room and the peer's window `range` allow, and keeps every snippet as a flight until the peer
acknowledges its handle. A writer is called back when everything before the least handle still
in flight covers it.

The fields from `accepted` on are history: they record what happened and nothing reads them.
-/

namespace Tubus.Udp

open Lib

/-- `ostreamer::flight`. The attempt counter is a `uint8_t`. -/
structure Flight where
  data : Bytes
  time : Time
  attempt : Nat
  deriving DecidableEq, Repr

/-- A flight after one more attempt to send it. -/
def Flight.tried (f : Flight) : Flight := { f with attempt := (f.attempt + 1) % 256 }

/-- A flight that was sent again, and is not due before `time`. -/
def Flight.resent (time : Time) (f : Flight) : Flight := { f.tried with time := time }

/-- `ostreamer::writer`. -/
structure Writer where
  head : Nat
  size : Nat
  callback : Handler
  deriving DecidableEq, Repr

/-- A write callback that was posted. -/
structure Written where
  callback : Handler
  ec : Ec
  size : Nat
  deriving DecidableEq, Repr

/-- `ostreamer::streambuf`. -/
structure SendBuffer where
  head : Nat
  tail : Nat
  data : List Bytes
  deriving DecidableEq, Repr

namespace SendBuffer

/-- A stream buffer that nothing was added to. -/
def fresh : SendBuffer := ⟨0, 0, []⟩

/-- `streambuf::pull`: at most `max` bytes of the front buffer. -/
def pull (b : SendBuffer) (max : Nat) : Bytes × SendBuffer :=
  match b.data with
  | [] => ([], b)
  | top :: rest =>
    if top.length ≤ max then (top, { b with head := wadd b.head top.length, data := rest })
    else (top.take max, { b with head := wadd b.head max, data := top.drop max :: rest })

/-- `streambuf::add`. The caller compares the new tail with the old one. -/
def add (q : Qos) (b : SendBuffer) (buf : Bytes) : SendBuffer :=
  if q.sendBufferSize ≤ wsub (wadd b.tail buf.length) b.head then b
  else { b with tail := wadd b.tail buf.length, data := b.data ++ [buf] }

/-- `streambuf::available`. -/
def available (b : SendBuffer) : Bool := !b.data.isEmpty

end SendBuffer

/-- `transport::ostreamer`. -/
structure Ostreamer where
  buffer : SendBuffer
  moves : SortedMap Nat Flight
  writers : List Writer
  acks : SortedSet Nat
  range : Nat
  onError : Bool
  /-- Write callbacks posted by `parse` and `error`, oldest first. -/
  written : List Written
  /-- Writes refused by `append`. -/
  refused : List Handler
  /-- Posts of `on_error`. -/
  errors : List Ec
  /-- The writes that were queued, with their callbacks, in call order. -/
  accepted : List (Bytes × Handler)
  /-- The snippets cut off the stream so far, in order. -/
  pulled : List (Nat × Bytes)
  /-- The handles whose acknowledgement erased a flight, each with the pin of its packet. -/
  acked : List (Nat × Nat)
  /-- The edges that raised `range`, each with the pin of its packet. -/
  raised : List (Nat × Nat)

namespace Ostreamer

/-- The constructor. -/
def create : Ostreamer where
  buffer := .fresh
  moves := .empty
  writers := []
  acks := .empty
  range := 0
  onError := false
  written := []
  refused := []
  errors := []
  accepted := []
  pulled := []
  acked := []
  raised := []

/-- `ostreamer::init`. -/
def init (o : Ostreamer) : Ostreamer := { o with onError := true }

/-- The position below which everything is acknowledged. -/
def cursor (o : Ostreamer) : Nat :=
  match o.moves.first? with
  | none => o.buffer.head
  | some (h, _) => h

/-- How much of a writer lies before the cursor, as `ostreamer::error` counts it. -/
def sent (cursor : Nat) (w : Writer) : Nat :=
  if wadd w.head w.size ≤ cursor then w.size
  else if w.head < cursor then wsub cursor w.head
  else 0

/-- `ostreamer::error`. -/
def error (o : Ostreamer) (ec : Ec) : Ostreamer :=
  { o with
    written := o.written ++ o.writers.map (fun w => ⟨w.callback, ec, sent o.cursor w⟩)
    writers := []
    moves := .empty
    buffer := .fresh }

/-- The writers at the front of the queue that end at or before the cursor. -/
def complete (cursor : Nat) : List Writer → List Writer × List Writer
  | [] => ([], [])
  | w :: rest =>
    if wadd w.head w.size ≤ cursor then
      let r := complete cursor rest
      (w :: r.1, r.2)
    else ([], w :: rest)

/-- The acknowledgement branch of `ostreamer::parse`. -/
def acknowledge (pin : Nat) (o : Ostreamer) (handle : Nat) : Ostreamer :=
  let acked := if o.moves.contains handle then o.acked ++ [(pin, handle)] else o.acked
  let o := { o with moves := o.moves.erase handle, acked := acked }
  let r := complete o.cursor o.writers
  { o with
    written := o.written ++ r.1.map (fun w => ⟨w.callback, .success, w.size⟩)
    writers := r.2 }

/-- The window branch of `ostreamer::parse`. -/
def widen (pin : Nat) (o : Ostreamer) (v : Nat) : Ostreamer :=
  { o with
    range := max o.range v
    acks := o.acks.emplace (max o.range v) ()
    raised := if o.range < v then o.raised ++ [(pin, v)] else o.raised }

/-- One section in `ostreamer::parse`. -/
def take (pin : Nat) (o : Ostreamer) : Section → Ostreamer
  | .moveEcho h => o.acknowledge pin h
  | .edge v => o.widen pin v
  | .link | .linkEcho | .tear | .tearEcho | .ping _ | .pingEcho _ | .move _ _ | .edgeEcho _
  | .runt _ => o

/-- `ostreamer::parse`. -/
def parse (o : Ostreamer) (p : Packet) : Ostreamer := p.body.foldl (take p.pin) o

/-- A flight that may be sent again: it is due, and it fits. -/
def ready (now : Time) (room : Nat) (item : Nat × Flight) : Bool :=
  decide (item.2.time < now) && decide (item.2.data.length ≤ room - overhead)

/-- The first loop of `ostreamer::imbue`: send again what is due. The flag says that a flight
had used up its attempts and the whole function returned at that point. Every round takes at
least the overhead of a snippet, so the room is fuel enough. -/
def repeatLoop (q : Qos) (now : Time) (resend : Int) :
    Nat → Nat → Ostreamer → Ostreamer × List Section × Nat × Bool
  | 0, room, o => (o, [], room, false)
  | fuel + 1, room, o =>
    if room ≤ overhead then (o, [], room, false)
    else match o.moves.entries.find? (ready now room) with
      | none => (o, [], room, false)
      | some (h, f) =>
        if f.attempt = q.moveAttempts then
          ({ o with moves := o.moves.modify h Flight.tried, errors := o.errors ++ [.brokenPipe] },
            [], room, true)
        else
          let o := { o with moves := o.moves.modify h (Flight.resent (later now resend)) }
          let s := Section.move h f.data
          let r := repeatLoop q now resend fuel (room - s.size) o
          (r.1, s :: r.2.1, r.2.2)

/-- The snippet cut off the stream when at most `max` bytes may go. -/
def snippet (o : Ostreamer) (max : Nat) : Section := .move o.buffer.head (o.buffer.pull max).1

/-- The streamer after it cut a snippet off the stream and put it in flight. A handle that is
in flight already keeps its old flight. -/
def launch (o : Ostreamer) (max : Nat) (time : Time) : Ostreamer :=
  { o with
    buffer := (o.buffer.pull max).2
    moves := o.moves.emplace o.buffer.head ⟨(o.buffer.pull max).1, time, 1⟩
    pulled := o.pulled ++ [(o.buffer.head, (o.buffer.pull max).1)] }

/-- The second loop of `ostreamer::imbue`: send what was never sent. -/
def freshLoop (q : Qos) (now : Time) (resend : Int) :
    Nat → Nat → Ostreamer → Ostreamer × List Section × Nat
  | 0, room, o => (o, [], room)
  | fuel + 1, room, o =>
    if o.buffer.available ∧ o.moves.size < q.snippetSwarm then
      let limit := wsub o.range o.buffer.head
      if limit = 0 ∨ room ≤ overhead then (o, [], room)
      else
        let max := min limit (room - overhead)
        let s := o.snippet max
        let r := freshLoop q now resend fuel (room - s.size) (o.launch max (later now resend))
        (r.1, s :: r.2.1, r.2.2)
    else (o, [], room)

/-- `ostreamer::imbue`: the streamer after it, the sections it wrote into `room` bytes, and
whether it gave up before the end. -/
def imbue (q : Qos) (now : Time) (resend : Int) (room : Nat) (o : Ostreamer) :
    Ostreamer × List Section × Bool :=
  let (o, again, room, gaveUp) := o.repeatLoop q now resend room room
  if gaveUp then (o, again, true)
  else
    let (o, fresh, room) := o.freshLoop q now resend (room + 1) room
    let (echoes, acks, _) := drainAcks .edgeEcho room o.acks
    ({ o with acks := acks }, again ++ fresh ++ echoes, false)

/-- `ostreamer::append`. -/
def append (q : Qos) (o : Ostreamer) (buf : Bytes) (h : Handler) : Ostreamer :=
  let buffer := o.buffer.add q buf
  if buffer.tail = o.buffer.tail then
    { o with
      buffer := buffer
      refused := o.refused ++ [h]
      errors := if o.onError then o.errors ++ [.noBufferSpace] else o.errors }
  else
    { o with
      buffer := buffer
      writers := o.writers ++ [⟨o.buffer.tail, buf.length, h⟩]
      accepted := o.accepted ++ [(buf, h)] }

/-- `ostreamer::deffered`. -/
def deffered (o : Ostreamer) : Bool :=
  !o.moves.entries.isEmpty || !o.acks.entries.isEmpty
    || (o.buffer.available && decide (o.buffer.head < o.range))

/-- `ostreamer::writable`. -/
def writable (q : Qos) (o : Ostreamer) : Nat :=
  if o.buffer.tail < o.range then
    min (wsub o.range o.buffer.tail)
      (wsub q.sendBufferSize (wsub o.buffer.tail o.buffer.head))
  else 0

end Ostreamer

end Tubus.Udp
