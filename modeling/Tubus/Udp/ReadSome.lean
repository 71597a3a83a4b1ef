import Tubus.Udp.WriteSome

/-!
# Reading through a socket

`read_some` on a UDP channel: the transfer of `Socket` with `channel::read` for its method and
`channel::readable` for its limiter, and the events of the channel in between. The channel has no
other reader, so no event of its own is a read. As in `WriteSome`, asking the limiter and making
the call is one step.

The buffers of a transfer that reads are memory to be written. What they hold before does not
matter, and `taken` is what the completed reads have put into them, from the first buffer on.
-/

namespace Tubus.Udp

open Lib Socket

/-- A channel and a transfer on it. -/
structure ReadSome where
  channel : Transport
  transfer : Transfer UInt8
  /-- The answer to the read under way. -/
  answer : Option Answer
  /-- The bytes in the buffers of the reads whose callbacks came. -/
  taken : Bytes

namespace ReadSome

/-- What the read under way has reported, once its callback was posted, and the bytes it has put
into its buffer. -/
def answered (s : ReadSome) : Option (Ec × Nat × Bytes) :=
  match s.answer with
  | none => none
  | some (.given ec size) => some (ec, size, [])
  | some (.nth n) => (s.channel.istreamer.readouts[n]?).map fun r =>
    (r.ec, r.size, r.buffer.take r.size)

/-- Where the callback of a read will come from: the readers are served in the order of their
calls. -/
def answerTo (t : Transport) : Answer :=
  if t.connector.status = .linked then
    .nth (t.istreamer.readouts.length + t.istreamer.readers.length)
  else .given (Transport.declineCode t.connector.status) 0

/-- Make the call of the channel that the transfer has come to. -/
def issue (t : Transport) (x : Transfer UInt8) (taken : Bytes) : Option ReadSome :=
  match x.stage with
  | .waiting part _ _ _ _ => (t.read part 0).map fun t' => ⟨t', x, some (answerTo t), taken⟩
  | .returning _ _ _ _ | .done _ _ => some ⟨t, x, none, taken⟩

/-- `read_some` into these buffers. -/
def start (t : Transport) (buffers : List Bytes) : Option ReadSome :=
  issue t (Transfer.start true t.readable buffers) []

/-- An event of the channel that is no read, the callback of the read under way, or the callback
of the inner form. -/
inductive Act where
  | channel (e : Event)
  | complete
  | callback
  deriving DecidableEq, Repr

/-- Is the event a call of `read`? -/
def isRead : Event → Bool
  | .read _ _ => true
  | .openAt | .connect _ _ _ _ | .accept _ _ _ _ | .shutdown _ _ | .mistake _ | .write _ _
  | .feed _ _ | .consume | .produce _ => false

def step (s : ReadSome) : Act → Option ReadSome
  | .channel e =>
    if e.sound = true ∧ isRead e = false then
      (s.channel.act e).map fun r => { s with channel := r.1 }
    else none
  | .complete => do
    let (ec, size, data) ← s.answered
    let x ← s.transfer.complete s.channel.readable ec size
    issue s.channel x (s.taken ++ data)
  | .callback => do
    let x ← s.transfer.callback s.channel.readable
    issue s.channel x s.taken

/-- A transfer begun on a channel, and anything that happens then. -/
def system (t : Transport) (buffers : List Bytes) : System ReadSome Act where
  init s := start t buffers = some s
  step := step

end ReadSome

end Tubus.Udp
