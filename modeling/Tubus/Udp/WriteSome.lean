import Tubus.Socket
import Tubus.Udp.Transport

/-!
# Writing through a socket

`write_some` on a UDP channel: the transfer of `Socket` with `channel::write` for its method and
`channel::writable` for its limiter, and the events of the channel in between. The channel has no
other writer, so no event of its own is a write. Writers that were queued before the transfer
began are called back first.

Asking the limiter and making the call is one step. The source takes `m_mutex` for each of the
two, and an event of another thread could come between them.
-/

namespace Tubus.Udp

open Lib Socket

/-- How the callback of a write comes: it was posted by the call itself, or it is the `n`-th that
the streamer posts. -/
inductive Answer where
  | given (ec : Ec) (size : Nat)
  | nth (n : Nat)
  deriving DecidableEq, Repr

/-- A channel and a transfer on it. -/
structure WriteSome where
  channel : Transport
  transfer : Transfer UInt8
  /-- The answer to the write under way. -/
  answer : Option Answer

namespace WriteSome

/-- What the write under way has reported, once its callback was posted. -/
def answered (s : WriteSome) : Option (Ec × Nat) :=
  match s.answer with
  | none => none
  | some (.given ec size) => some (ec, size)
  | some (.nth n) => (s.channel.ostreamer.written[n]?).map fun w => (w.ec, w.size)

/-- Where the callback of a write will come from: the writers are served in the order of their
calls. -/
def answerTo (t : Transport) (part : Bytes) : Answer :=
  if t.connector.status ≠ .linked then .given (Transport.declineCode t.connector.status) 0
  else if (t.write part 0).ostreamer.refused.length = t.ostreamer.refused.length then
    .nth (t.ostreamer.written.length + t.ostreamer.writers.length)
  else .given .noBufferSpace 0

/-- Make the call of the channel that the transfer has come to. -/
def issue (t : Transport) (x : Transfer UInt8) : WriteSome :=
  match x.stage with
  | .waiting part _ _ _ _ => ⟨t.write part 0, x, some (answerTo t part)⟩
  | .returning _ _ _ _ | .done _ _ => ⟨t, x, none⟩

/-- `write_some` of these buffers. -/
def start (t : Transport) (buffers : List Bytes) : WriteSome :=
  issue t (Transfer.start true t.writable buffers)

/-- An event of the channel that is no write, the callback of the write under way, or the callback
of the inner form. -/
inductive Act where
  | channel (e : Event)
  | complete
  | callback
  deriving DecidableEq, Repr

/-- Is the event a call of `write`? -/
def isWrite : Event → Bool
  | .write _ _ => true
  | .openAt | .connect _ _ _ _ | .accept _ _ _ _ | .shutdown _ _ | .mistake _ | .read _ _
  | .feed _ _ | .consume | .produce _ => false

def step (s : WriteSome) : Act → Option WriteSome
  | .channel e =>
    if e.sound = true ∧ isWrite e = false then
      (s.channel.act e).map fun r => { s with channel := r.1 }
    else none
  | .complete => do
    let (ec, size) ← s.answered
    let x ← s.transfer.complete s.channel.writable ec size
    return issue s.channel x
  | .callback => do
    let x ← s.transfer.callback s.channel.writable
    return issue s.channel x

/-- A transfer begun on a channel, and anything that happens then. -/
def system (t : Transport) (buffers : List Bytes) : System WriteSome Act where
  init s := s = start t buffers
  step := step

end WriteSome

end Tubus.Udp
