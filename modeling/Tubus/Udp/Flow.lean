import Tubus.Lib.System
import Tubus.Udp.Istreamer
import Tubus.Udp.Ostreamer

/-!
# One direction of a session

The sending half of one channel and the receiving half of the other, with everything either
has ever written still deliverable, in any order and any number of times: the worst medium two
peers can have, as long as it carries nothing but what they wrote.

A section list is accepted when every section that its reader looks at was written by the other
side; what else the packets carry belongs to other parts of the channels. Either half may be
aborted at any time, and then does nothing more.

A two-channel session is two flows, one each way (`Laws.Session`), so what holds of every flow
holds of it in both directions.
-/

namespace Tubus.Udp

open Lib

/-- The sections `ostreamer::parse` looks at. -/
def Section.forSource : Section → Bool
  | .moveEcho _ | .edge _ => true
  | .link | .linkEcho | .tear | .tearEcho | .ping _ | .pingEcho _ | .move _ _ | .edgeEcho _
  | .runt _ => false

/-- The sections `istreamer::parse` looks at. -/
def Section.forSink : Section → Bool
  | .move _ _ | .edgeEcho _ | .runt _ => true
  | .link | .linkEcho | .tear | .tearEcho | .ping _ | .pingEcho _ | .moveEcho _ | .edge _ => false

/-- A sending half, a receiving half, and what each has written. -/
structure Flow where
  source : Ostreamer
  sink : Istreamer
  sent : List Section
  echoed : List Section
  sourceOpen : Bool
  sinkOpen : Bool

namespace Flow

/-- What can happen in a flow. -/
inductive Act where
  | initSource
  | write (buffer : Bytes) (h : Handler)
  | push (now : Time) (resend : Int) (room : Nat)
  | acknowledge (p : Packet)
  | abortSource (ec : Ec)
  | initSink
  | read (buffer : Bytes) (h : Handler)
  | answer (now : Time) (resend : Int) (room : Nat)
  | arrive (p : Packet)
  | abortSink (ec : Ec)

/-- One act, between a source with the parameters `qs` and a sink with the parameters `qr`. -/
def step (qs qr : Qos) (f : Flow) : Act → Option Flow
  | .initSource => some { f with source := f.source.init }
  | .write buffer h =>
    if f.sourceOpen ∧ buffer.length < 2 ^ 64 then
      some { f with source := f.source.append qs buffer h }
    else none
  | .push now resend room =>
    if f.sourceOpen then
      let r := f.source.imbue qs now resend room
      some { f with source := r.1, sent := f.sent ++ r.2.1 }
    else none
  | .acknowledge p =>
    if f.sourceOpen ∧ ∀ s ∈ p.body, s.forSource → s ∈ f.echoed then
      some { f with source := f.source.parse p }
    else none
  | .abortSource ec =>
    if ec = .success then none
    else some { f with source := f.source.error ec, sourceOpen := false }
  | .initSink => some { f with sink := f.sink.init }
  | .read buffer h =>
    if f.sinkOpen ∧ buffer.length < 2 ^ 64 then
      (f.sink.append buffer h).map fun i => { f with sink := i }
    else none
  | .answer now resend room =>
    if f.sinkOpen then
      let r := f.sink.imbue now resend room
      some { f with sink := r.1, echoed := f.echoed ++ r.2 }
    else none
  | .arrive p =>
    if f.sinkOpen ∧ ∀ s ∈ p.body, s.forSink → s ∈ f.sent then
      (f.sink.parse qr p).map fun i => { f with sink := i }
    else none
  | .abortSink ec =>
    if ec = .success then none
    else some { f with sink := f.sink.error ec, sinkOpen := false }

/-- A flow that starts with fresh halves. -/
def create (qr : Qos) : Flow := ⟨.create, .create qr, [], [], true, true⟩

/-- All runs of a flow. -/
def system (qs qr : Qos) : System Flow Act where
  init f := f = create qr
  step := step qs qr

end Flow

/-! ## What a flow is judged by -/

/-- The bytes of the writes that were queued, in call order. -/
def Ostreamer.stream (o : Ostreamer) : Bytes := (o.accepted.map Prod.fst).flatten

/-- The bytes in the read buffers: of the reads that were posted, in order, then of the first
reader that waits. -/
def Istreamer.delivered (i : Istreamer) : Bytes :=
  (i.readouts.map fun r => r.buffer.take r.size).flatten
    ++ (i.readers.head?.map fun r => r.buffer.take r.read).getD []

end Tubus.Udp
