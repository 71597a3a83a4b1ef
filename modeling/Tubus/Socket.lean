import Tubus.Lib.System
import Tubus.Lib.Word
import Tubus.Qos

/-!
# The socket

`detail::post_io_method` of `socket.h`, by which `read_some`, `write_some` and their asynchronous
forms move a sequence of buffers through a channel. The form for one buffer hands the channel as
much of the buffer as the limiter (`readable` or `writable`) allows, until the buffer is used up or
nothing more is allowed. The form for a sequence runs it for one buffer after another.

Both forms carry a count called `result`. The one of the inner form starts from the one of the
outer form, and the outer form adds what the inner one reports.

A transfer is between two completions: an operation of the channel is under way, or a callback has
been posted. What the limiter gives is asked for anew whenever the inner form runs, and is part of
the event.
-/

namespace Tubus.Socket

open Lib

/-- Where a transfer stands. -/
inductive Stage (α : Type) where
  /-- An operation of the channel on `part` is under way, for the inner form with this buffer. -/
  | waiting (part : List α) (result : Nat) (buffer : List α) (outer : Nat) (later : List (List α))
  /-- The callback of the inner form has been posted. -/
  | returning (ec : Ec) (size : Nat) (outer : Nat) (later : List (List α))
  /-- The callback of the caller has been posted. -/
  | done (ec : Ec) (size : Nat)
  deriving DecidableEq, Repr

/-- A transfer. The fields from `issued` on are history. -/
structure Transfer (α : Type) where
  stage : Stage α
  /-- The parts handed to the channel, in order. -/
  issued : List (List α)
  /-- The sizes that the channel reported for each buffer that was begun, the last one first. -/
  spans : List Nat
  /-- What the limiter gave where it was asked, in order, each with the `result` of that call. -/
  given : List (Nat × Nat)
  deriving DecidableEq, Repr

namespace Transfer

variable {α : Type}

/-- `post_io_method` on one buffer. -/
def postOne (limit : Nat) (x : Transfer α) (result : Nat) (buffer : List α) (outer : Nat)
    (later : List (List α)) : Transfer α :=
  if buffer.length = 0 then { x with stage := .returning .success result outer later }
  else
    let part := buffer.take (min limit buffer.length)
    let x := { x with given := x.given ++ [(limit, result)] }
    if 0 < part.length ∨ result = 0 then
      { x with stage := .waiting part result buffer outer later, issued := x.issued ++ [part] }
    else { x with stage := .returning .success result outer later }

/-- `post_io_method` on a sequence of buffers. -/
def postAll (limit : Nat) (x : Transfer α) (result : Nat) : List (List α) → Transfer α
  | [] => { x with stage := .done .success result }
  | buffer :: later => postOne limit { x with spans := 0 :: x.spans } result buffer result later

/-- The first call, on the channel of the socket, or on none. -/
def start (channel : Bool) (limit : Nat) (buffers : List (List α)) : Transfer α :=
  let x := ⟨.done .brokenPipe 0, [], [], []⟩
  if channel then postAll limit x 0 buffers else x

/-- Record what the channel reported for the current buffer. -/
def report (size : Nat) : List Nat → List Nat
  | [] => []
  | span :: rest => (span + size) :: rest

/-- The channel's operation has completed. A buffer moves on by the size reported, or to its
end. -/
def complete (limit : Nat) (x : Transfer α) (ec : Ec) (size : Nat) : Option (Transfer α) :=
  match x.stage with
  | .waiting _ result buffer outer later =>
    let x := { x with spans := report size x.spans }
    if ec ≠ .success then some { x with stage := .returning ec (wadd result size) outer later }
    else some (x.postOne limit (wadd result size) (buffer.drop size) outer later)
  | .returning _ _ _ _ | .done _ _ => none

/-- The callback that the outer form gave to the inner one. -/
def callback (limit : Nat) (x : Transfer α) : Option (Transfer α) :=
  match x.stage with
  | .returning ec size outer later =>
    if ec ≠ .success then some { x with stage := .done ec (wadd outer size) }
    else some (x.postAll limit (wadd outer size) later)
  | .waiting _ _ _ _ _ | .done _ _ => none

/-- What can happen to a transfer. -/
inductive Event where
  | complete (limit : Nat) (ec : Ec) (size : Nat)
  | callback (limit : Nat)
  deriving DecidableEq, Repr

def step (x : Transfer α) : Event → Option (Transfer α)
  | .complete limit ec size => x.complete limit ec size
  | .callback limit => x.callback limit

/-- A transfer of these buffers, with any limits and any results. -/
def system (buffers : List (List α)) : System (Transfer α) Event where
  init x := ∃ channel limit, x = start channel limit buffers
  step := step

end Transfer

end Tubus.Socket
