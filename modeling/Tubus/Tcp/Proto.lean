import Tubus.Qos
import Tubus.Utils

/-!
# The TCP stream

`tcp::proto::stream`: the bytes of a TCP connection under a key stream. The first write puts a
head of 16 bytes in front of its data, from which the peer learns the salt; the first read takes
it. Each direction has its own place in the key stream: the word in use, and how much of it is
used up.

`asyncWrite` and `asyncRead` are what happens at the call, `written` and `received` what the
completion makes of the result of `boost::asio::async_write` and `async_read`. The socket options
set before the first transfer are left out.
-/

namespace Tubus.Tcp

open Lib

/-- `proto::head_size`. -/
def headSize : Nat := 16

/-- `proto::signature`. -/
def signature : UInt64 := 0x09090001

/-- `m_ostate` and `m_istate`: the place in a key stream. -/
structure Cipher where
  salt : UInt64
  inverter : UInt64
  shift : Nat
  deriving DecidableEq, Repr

namespace Cipher

/-- A direction in which nothing was transferred. -/
def create : Cipher := ⟨0, 0, 0⟩

/-- `write_head`, with the salt that the generator gives. -/
def writeHead (e : Endian) (secret salt sign : UInt64) (c : Cipher) : Cipher × Bytes :=
  let inverter := makeInverter e secret salt true
  ({ c with salt := salt, inverter := inverter },
    e.store (e.htobe64 (salt ^^^ secret)) ++ e.store (e.htobe64 (sign ^^^ inverter)))

/-- `read_head`: the state it leaves, and the sign it gives back. -/
def readHead (e : Endian) (secret : UInt64) (data : Bytes) (c : Cipher) : Cipher × UInt64 :=
  let salt := e.be64toh (e.load (data.take 8)) ^^^ secret
  let inverter := makeInverter e secret salt false
  ({ c with salt := salt, inverter := inverter },
    e.be64toh (e.load ((data.drop 8).take 8)) ^^^ inverter)

/-- The first loop of `alter_data`, over the rest of a word that was begun: the bytes it changed,
how much of the word is used up, and the bytes it left. -/
def alterBegun (word : Bytes) : Nat → Bytes → Bytes × Nat × Bytes
  | shift, [] => ([], shift, [])
  | shift, b :: bs =>
    if shift < 8 then
      let r := alterBegun word (shift + 1) bs
      ((b ^^^ word[shift]?.getD 0) :: r.1, r.2)
    else ([], shift, b :: bs)

/-- The second loop of `alter_data`, over whole words. The word in use moves on only if there
are bytes left. The number of bytes is fuel enough. -/
def alterWords (e : Endian) (salt : UInt64) (dim : Bool) :
    Nat → UInt64 → Bytes → Bytes × UInt64 × Bytes
  | 0, inverter, data => ([], inverter, data)
  | fuel + 1, inverter, data =>
    if 8 ≤ data.length then
      let rest := data.drop 8
      let next := if rest.isEmpty then inverter else makeInverter e inverter salt dim
      let r := alterWords e salt dim fuel next rest
      (e.store (e.load (data.take 8) ^^^ inverter) ++ r.1, r.2)
    else ([], inverter, data)

/-- The third loop of `alter_data`, over what is less than a word. -/
def alterTail : Bytes → Nat → Bytes → Bytes × Nat
  | _, shift, [] => ([], shift)
  | word, shift, b :: bs =>
    let r := alterTail word.tail (shift + 1) bs
    ((b ^^^ word.head?.getD 0) :: r.1, r.2)

/-- `alter_data` after its first loop. -/
def alterFresh (e : Endian) (dim : Bool) (c : Cipher) (data : Bytes) : Cipher × Bytes :=
  if data.isEmpty then (c, [])
  else
    let r := alterWords e c.salt dim data.length (makeInverter e c.inverter c.salt dim) data
    let t := alterTail (e.store r.2.1) c.shift r.2.2
    ({ c with inverter := r.2.1, shift := t.2 }, r.1 ++ t.1)

/-- `alter_data`. -/
def alterData (e : Endian) (dim : Bool) (c : Cipher) (data : Bytes) : Cipher × Bytes :=
  if 0 < c.shift then
    let r := alterBegun (e.store c.inverter) c.shift data
    let f := alterFresh e dim { c with shift := if r.2.1 = 8 then 0 else r.2.1 } r.2.2
    (f.1, r.1 ++ f.2)
  else alterFresh e dim c data

end Cipher

/-- `proto::stream`. -/
structure Stream where
  secret : UInt64
  ostate : Cipher
  istate : Cipher
  deriving DecidableEq, Repr

/-- The three kinds of a read: with the head, without it, and of a stream that has no secret. -/
inductive Reading where
  | head
  | plain
  | clear
  deriving DecidableEq, Repr

/-- What the callback of a read is called with, and the content of its chunk. -/
structure Received where
  ec : Ec
  size : Nat
  chunk : Bytes
  deriving DecidableEq, Repr

namespace Stream

/-- The constructor. -/
def create (secret : UInt64) : Stream := ⟨secret, .create, .create⟩

/-- `stream::async_write`: the stream after the call, the bytes handed to the socket, and whether
a head is among them. `salt` is what the generator would give. -/
def asyncWrite (e : Endian) (salt : UInt64) (s : Stream) (chunk : Bytes) :
    Stream × Bytes × Bool :=
  if s.secret ≠ 0 ∧ s.ostate.salt = 0 then
    let h := s.ostate.writeHead e s.secret salt signature
    let d := h.1.alterData e true chunk
    ({ s with ostate := d.1 }, h.2 ++ d.2, true)
  else if s.secret ≠ 0 then
    let d := s.ostate.alterData e true chunk
    ({ s with ostate := d.1 }, d.2, false)
  else (s, chunk, false)

/-- The completion of a write: what the callback is called with. -/
def written (head : Bool) (ec : Ec) (count : Nat) : Ec × Nat :=
  if head = true ∧ ec = .success then
    if count < headSize then (.notConnected, count) else (ec, count - headSize)
  else (ec, count)

/-- `stream::async_read`: which of the three reads is started. -/
def asyncRead (s : Stream) : Reading :=
  if s.secret ≠ 0 ∧ s.istate.salt = 0 then .head else if s.secret ≠ 0 then .plain else .clear

/-- The completion of a read that got some bytes; `alive` says that the stream still is. -/
def received (e : Endian) (alive : Bool) (s : Stream) (got : Bytes) (ec : Ec) :
    Reading → Stream × Received
  | .head =>
    if alive then
      if got.length < headSize then
        (s, ⟨if ec = .success then .notConnected else ec, 0, []⟩)
      else
        let h := s.istate.readHead e s.secret (got.take headSize)
        let chunk := got.drop headSize
        if h.2 ≠ signature then
          ({ s with istate := h.1 },
            ⟨if ec = .success then .noRecovery else ec, chunk.length, chunk⟩)
        else
          let d := h.1.alterData e false chunk
          ({ s with istate := d.1 }, ⟨ec, chunk.length, d.2⟩)
    else (s, ⟨.networkReset, 0, got.drop headSize⟩)
  | .plain =>
    if alive then
      let d := s.istate.alterData e false got
      ({ s with istate := d.1 }, ⟨ec, got.length, d.2⟩)
    else (s, ⟨.networkReset, 0, got⟩)
  | .clear => (s, ⟨ec, got.length, got⟩)

/-- `stream::available`, where the socket has `count` bytes. -/
def available (s : Stream) (count : Nat) : Nat :=
  if s.secret ≠ 0 ∧ s.istate.salt = 0 then
    if headSize ≤ count then count - headSize else 0
  else count

/-- Chunks written one after another: the stream after them, and all the bytes handed to the
socket. -/
def writes (e : Endian) (salt : UInt64) : Stream → List Bytes → Stream × Bytes
  | s, [] => (s, [])
  | s, chunk :: chunks =>
    let w := s.asyncWrite e salt chunk
    let r := writes e salt w.1 chunks
    (r.1, w.2.1 ++ r.2)

/-- Reads one after another, each completed with some bytes and a result before the next one is
started: the stream after them, and what their callbacks were called with. -/
def reads (e : Endian) : Stream → List (Bytes × Ec) → Stream × List Received
  | s, [] => (s, [])
  | s, (got, ec) :: more =>
    let d := s.received e true got ec s.asyncRead
    let r := reads e d.1 more
    (r.1, d.2 :: r.2)

end Stream

end Tubus.Tcp
