import Tubus.Lib.System
import Tubus.Tcp.Proto

/-!
# Calls and completions

A `tcp::proto::stream` under any calls of `async_write` and `async_read`, with the completions of
`boost::asio::async_write` and `async_read` in any order among them. A completion moves some of the
bytes that were asked for, at most all of them, with any result. The completions of a stream that
is gone still come; a read notices that by its weak pointer.
-/

namespace Tubus.Tcp

open Lib

/-- An operation of the socket: a write, with or without a head, or a read. -/
inductive Operation where
  | write (head : Bool)
  | read (kind : Reading)
  deriving DecidableEq, Repr

/-- The bytes in front of the caller's chunk. -/
def Operation.front : Operation → Nat
  | .write true | .read .head => headSize
  | .write false | .read .plain | .read .clear => 0

/-- What the socket reports of an operation: the size of the caller's chunk, the result, and the
number of bytes moved. `alive` says whether the stream was still there. -/
structure Completion where
  operation : Operation
  size : Nat
  ec : Ec
  count : Nat
  alive : Bool
  deriving DecidableEq, Repr

/-- The bytes of the caller's chunk among those that were moved: the front goes first. -/
def Completion.payload (c : Completion) : Nat := c.count - c.operation.front

/-- A stream with the operations under way, each with the size of its chunk. `told` is history:
the completions, and what the caller's callbacks were called with. -/
structure Exchange where
  stream : Stream
  alive : Bool
  pending : List (Operation × Nat)
  told : List (Completion × Ec × Nat)
  deriving DecidableEq, Repr

namespace Exchange

/-- A new stream. -/
def create (secret : UInt64) : Exchange := ⟨.create secret, true, [], []⟩

/-- What can happen: a call, the end of the stream, and the completion of the operation at some
place, which moved these bytes. -/
inductive Event where
  | write (salt : UInt64) (chunk : Bytes)
  | read (size : Nat)
  | destroy
  | complete (place : Nat) (ec : Ec) (moved : Bytes)
  deriving DecidableEq, Repr

/-- The completion handler of an operation. -/
def finish (e : Endian) (x : Exchange) (operation : Operation) (size : Nat) (ec : Ec)
    (moved : Bytes) : Exchange :=
  let c : Completion := ⟨operation, size, ec, moved.length, x.alive⟩
  match operation with
  | .write head => { x with told := x.told ++ [(c, Stream.written head ec moved.length)] }
  | .read kind =>
    let r := x.stream.received e x.alive moved ec kind
    { x with stream := r.1, told := x.told ++ [(c, r.2.ec, r.2.size)] }

def step (e : Endian) (x : Exchange) : Event → Option Exchange
  | .write salt chunk =>
    if x.alive then
      let w := x.stream.asyncWrite e salt chunk
      some { x with
        stream := w.1
        pending := x.pending ++ [(.write w.2.2, chunk.length)] }
    else none
  | .read size =>
    if x.alive then
      some { x with pending := x.pending ++ [(.read x.stream.asyncRead, size)] }
    else none
  | .destroy => some { x with alive := false }
  | .complete place ec moved =>
    match x.pending[place]? with
    | none => none
    | some (operation, size) =>
      if operation.front + size < moved.length then none
      else
        some (finish e { x with pending := x.pending.eraseIdx place } operation size ec moved)

/-- One stream under any calls and completions. -/
def system (e : Endian) (secret : UInt64) : System Exchange Event where
  init x := x = create secret
  step := step e

end Exchange

end Tubus.Tcp
