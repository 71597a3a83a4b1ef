import Tubus.Buffer
import Tubus.Lib.SortedMap
import Tubus.Utils

/-!
# The UDP wire format

`proto.h`. A packet is a 16-byte header (salt, sign, version, pin) and a body of sections, each
a 16-bit type, a 16-bit length and a value. Nothing counts the sections: the body ends where a
type of zero is read, or where fewer than four bytes are left.

`Section` is a section as the parsers and the writers of the channel deal with it. The byte
level is kept beside it: `valid`, `value` and `advance` on the way in, `simple`, `numeral`,
`snippet` and `stub` on the way out, each with the range tests of the buffer operations it is
made of. The three parsers of the channel walk one body with one loop, and `sections` is that
loop: the list of what it meets, in order.
-/

namespace Tubus.Udp

open Lib

/-- A section of a packet. `runt` is a `move` section whose value is too short to hold a
handle: no writer makes one, but `valid` lets it pass. -/
inductive Section where
  | link
  | linkEcho
  | tear
  | tearEcho
  | ping (value : Nat)
  | pingEcho (value : Nat)
  | move (handle : Nat) (fragment : Bytes)
  | moveEcho (handle : Nat)
  | edge (range : Nat)
  | edgeEcho (range : Nat)
  | runt (value : Bytes)
  deriving DecidableEq, Repr

namespace Section

/-- `section::header_size`. -/
def headerSize : Nat := 4

/-- `numeral::value_size` and `snippet::handle_size`. -/
def valueSize : Nat := 8

/-- The section's `flag` value: `link`, `tear`, `ping`, `move` and `edge` are 2, 4, 6, 8 and
10, and `echo` adds 1. -/
def code : Section → Nat
  | .link => 2
  | .linkEcho => 3
  | .tear => 4
  | .tearEcho => 5
  | .ping _ => 6
  | .pingEcho _ => 7
  | .move _ _ => 8
  | .moveEcho _ => 9
  | .edge _ => 10
  | .edgeEcho _ => 11
  | .runt _ => 8

/-- The value bytes of a section. -/
def payload : Section → Bytes
  | .link | .linkEcho | .tear | .tearEcho => []
  | .ping v | .pingEcho v | .moveEcho v | .edge v | .edgeEcho v => toBE valueSize v
  | .move h d => toBE valueSize h ++ d
  | .runt v => v

/-- How much of a packet a section takes up. -/
def size (s : Section) : Nat := headerSize + s.payload.length

/-- The bytes of a section. -/
def encode (s : Section) : Bytes := toBE 2 s.code ++ toBE 2 s.payload.length ++ s.payload

/-! ## Reading -/

/-- `section::type`, of the section at the start of the view. -/
def type (b : Bytes) : Option Nat :=
  if headerSize ≤ b.length then Buffer.getBE b 0 2 else some 0

/-- `section::length`. -/
def length (b : Bytes) : Option Nat :=
  if headerSize ≤ b.length then Buffer.getBE b 2 2 else some 0

/-- The test of `section::valid`, on the type and the length it read. -/
def accepts (size type length : Nat) : Bool :=
  match type with
  | 6 | 7 | 9 | 10 | 11 => decide (headerSize + valueSize ≤ size) && decide (length = valueSize)
  | 2 | 3 | 4 | 5 => decide (headerSize ≤ size) && decide (length = 0)
  | 8 => decide (headerSize + valueSize ≤ size) && decide (length ≤ wsub size headerSize)
  | _ => false

/-- `section::valid`. -/
def valid (b : Bytes) : Option Bool := do
  let t ← type b
  let n ← length b
  return accepts b.length t n

/-- `section::value`. -/
def value (b : Bytes) : Option Bytes := do
  let n ← length b
  Buffer.slice b (min headerSize b.length) (min (wsub b.length headerSize) n)

/-- `section::advance`. -/
def advance (b : Bytes) : Option Bytes := do
  let n ← length b
  Buffer.crop b (wadd (min headerSize b.length) (min (wsub b.length headerSize) n))

/-- `numeral::value` and `snippet::handle`. -/
def number (v : Bytes) : Option Nat := Buffer.getBE v 0 valueSize

/-- `snippet::fragment`. -/
def fragment (v : Bytes) : Option Bytes := Buffer.slice v valueSize (wsub v.length valueSize)

/-- The section a type and a value stand for. A `move` whose handle or fragment cannot be
taken is a `runt`: the access that throws is left to the parser that makes it. -/
def ofValue (type : Nat) (v : Bytes) : Option Section :=
  match type with
  | 2 => some .link
  | 3 => some .linkEcho
  | 4 => some .tear
  | 5 => some .tearEcho
  | 6 => (number v).map .ping
  | 7 => (number v).map .pingEcho
  | 8 => some (match number v, fragment v with
    | some h, some d => .move h d
    | _, _ => .runt v)
  | 9 => (number v).map .moveEcho
  | 10 => (number v).map .edge
  | 11 => (number v).map .edgeEcho
  | _ => none

/-- The loop `while (sect.valid()) { ...; sect.advance(); }` over a body. A valid section is at
least four bytes long, so the body's size is fuel enough. -/
def walk : Nat → Bytes → Option (List Section)
  | 0, _ => some []
  | fuel + 1, b => do
    if ← valid b then
      let s ← ofValue (← type b) (← value b)
      let rest ← walk fuel (← advance b)
      return s :: rest
    else
      return []

/-- The sections of a body, as the parsers meet them. -/
def sections (b : Bytes) : Option (List Section) := walk (b.length + 1) b

/-! ## Writing -/

/-- `section::simple`. -/
def simple (b : Bytes) (type : Nat) : Option Bytes := do
  let b ← Buffer.setBE b 0 2 type
  Buffer.setBE b 2 2 0

/-- `section::numeral`. -/
def numeral (b : Bytes) (type value : Nat) : Option Bytes := do
  let b ← Buffer.setBE b 0 2 type
  let b ← Buffer.setBE b 2 2 valueSize
  Buffer.setBE b headerSize valueSize value

/-- `section::snippet`. The length field keeps the low 16 bits of the length. -/
def snippet (b : Bytes) (handle : Nat) (data : Bytes) : Option Bytes := do
  let b ← Buffer.setBE b 0 2 8
  let b ← Buffer.setBE b 2 2 (wadd valueSize data.length)
  let b ← Buffer.setBE b headerSize valueSize handle
  Buffer.fill b (headerSize + valueSize) data

/-- Write one section at the start of a view, by the writer of its form. -/
def write (b : Bytes) : Section → Option Bytes
  | .link => simple b 2
  | .linkEcho => simple b 3
  | .tear => simple b 4
  | .tearEcho => simple b 5
  | .ping v => numeral b 6 v
  | .pingEcho v => numeral b 7 v
  | .moveEcho v => numeral b 9 v
  | .edge v => numeral b 10 v
  | .edgeEcho v => numeral b 11 v
  | .move h d => snippet b h d
  | .runt _ => none

/-- `section::stub`: a zero header, or as much of one as fits. -/
def stub (b : Bytes) : Bytes :=
  List.replicate (min headerSize b.length) 0 ++ b.drop (min headerSize b.length)

end Section

/-! ## The packet buffer while it is written

Every section of a packet under construction is the part of the buffer from some point to the
end, so the buffer and the section are one list cut in two. -/

/-- A packet buffer cut where the current section begins. -/
structure Cursor where
  before : Bytes
  sect : Bytes
  deriving DecidableEq, Repr

namespace Cursor

/-- The whole buffer. -/
def buffer (c : Cursor) : Bytes := c.before ++ c.sect

/-- Move on by `n` bytes, as `crop` does. -/
def crop (c : Cursor) (n : Nat) : Option Cursor := do
  let rest ← Buffer.crop c.sect n
  return ⟨c.before ++ c.sect.take n, rest⟩

/-- `sect.advance()`. -/
def advance (c : Cursor) : Option Cursor := do
  let n ← Section.length c.sect
  c.crop (wadd (min Section.headerSize c.sect.length)
    (min (wsub c.sect.length Section.headerSize) n))

/-- Write a section and step over it. -/
def put (c : Cursor) (s : Section) : Option Cursor := do
  let b ← Section.write c.sect s
  advance ⟨c.before, b⟩

/-- Write a list of sections. -/
def puts : Cursor → List Section → Option Cursor
  | c, [] => some c
  | c, s :: rest => do
    let c ← c.put s
    puts c rest

/-- `sect.stub()`. -/
def stub (c : Cursor) : Cursor := ⟨c.before, Section.stub c.sect⟩

/-- The scan of `packet::stub`: step over sections until a zero type. -/
def scan : Nat → Cursor → Option Cursor
  | 0, c => some c
  | fuel + 1, c => do
    if (← Section.type c.sect) = 0 then
      return c
    else
      let c ← c.crop (wadd Section.headerSize (← Section.length c.sect))
      scan fuel c

end Cursor

/-! ## The packet as bytes -/

namespace Datagram

/-- `packet::packet_sign`. -/
def packetSign : Nat := 0x0909

/-- `packet::packet_version`. -/
def packetVersion : Nat := 0x0102

/-- `packet::header_size`. -/
def headerSize : Nat := 16

/-- `packet::sign`. -/
def sign (p : Bytes) : Option Nat :=
  if headerSize < p.length then Buffer.getBE p 8 2 else some 0

/-- `packet::version`. -/
def version (p : Bytes) : Option Nat :=
  if headerSize < p.length then Buffer.getBE p 10 2 else some 0

/-- `packet::pin`. -/
def pin (p : Bytes) : Option Nat :=
  if headerSize < p.length then Buffer.getBE p 12 4 else some 0

/-- `packet::body`. -/
def body (p : Bytes) : Option Bytes :=
  Buffer.slice p (min p.length headerSize) (wsub p.length (min p.length headerSize))

/-- `packet::stub`: the place where the next section goes. -/
def stub (p : Bytes) : Option Cursor := do
  let b ← body p
  Cursor.scan (b.length + 1) ⟨p.take (min p.length headerSize), b⟩

/-- `packet::trim`. -/
def trim (p : Bytes) : Option Bytes := do
  let c ← stub p
  Buffer.truncate p c.before.length

/-- The header `connector::imbue` writes, with a zero section header behind it. -/
def header (p : Bytes) (pin : Nat) : Option Bytes := do
  let p ← Buffer.setBE p 0 8 0
  let p ← Buffer.setBE p 8 2 packetSign
  let p ← Buffer.setBE p 10 2 packetVersion
  let p ← Buffer.setBE p 12 4 pin
  Buffer.setBE p headerSize 4 0

/-- The loops of `packet::invert` behind the salt: whole words, then the bytes that are left. The
inverter is xored as it lies in memory. -/
def invertLoop (e : Endian) (salt : UInt64) (dim : Bool) : Nat → UInt64 → Bytes → Bytes
  | 0, _, b => b
  | fuel + 1, inverter, b =>
    if 8 ≤ b.length then
      xorBytes (b.take 8) (e.store inverter)
        ++ invertLoop e salt dim fuel (makeInverter e inverter salt dim) (b.drop 8)
    else xorBytes b (e.store inverter)

/-- `packet::invert`. A zero salt asks to hide the packet, with the salt that was drawn; any
other one asks to show it. -/
def invert (e : Endian) (secret drawn : UInt64) (p : Bytes) : Bytes :=
  let first := e.load (p.take 8)
  if first = 0 then
    e.store (e.htobe64 (drawn ^^^ secret))
      ++ invertLoop e drawn true p.length (makeInverter e secret drawn true) (p.drop 8)
  else
    let salt := e.be64toh first ^^^ secret
    List.replicate 8 0
      ++ invertLoop e salt false p.length (makeInverter e secret salt false) (p.drop 8)

end Datagram

/-- A packet as the channel deals with it: who sent it, and its sections. -/
structure Packet where
  pin : Nat
  body : List Section
  deriving DecidableEq, Repr

/-! ## Acknowledgements

Both streamers keep the numbers they owe an echo for in an ordered set, and write them, least
first, while a numeral section fits. -/

/-- What a numeral section takes up, and what a snippet takes up beside its data. -/
def overhead : Nat := Section.headerSize + Section.valueSize

/-- The acknowledgements that fit, and those that are left. -/
def takeAcks (form : Nat → Section) :
    Nat → List (Nat × Unit) → List Section × List (Nat × Unit) × Nat
  | room, [] => ([], [], room)
  | room, (v, u) :: rest =>
    if room < overhead then ([], (v, u) :: rest, room)
    else
      let r := takeAcks form (room - (form v).size) rest
      (form v :: r.1, r.2)

/-- What `takeAcks` leaves is the end of what it was given. -/
theorem takeAcks_suffix (form : Nat → Section) (room : Nat) (l : List (Nat × Unit)) :
    (takeAcks form room l).2.1 <:+ l := by
  induction l generalizing room with
  | nil => exact List.suffix_refl _
  | cons e rest ih =>
    obtain ⟨v, u⟩ := e
    unfold takeAcks
    split
    · exact List.suffix_refl _
    · exact (ih _).trans (List.suffix_cons _ _)

/-- Write acknowledgements while they fit: the sections, the set left, and the room left. -/
def drainAcks (form : Nat → Section) (room : Nat) (acks : SortedSet Nat) :
    List Section × SortedSet Nat × Nat :=
  ((takeAcks form room acks.entries).1,
    ⟨(takeAcks form room acks.entries).2.1,
      acks.sorted.sublist (takeAcks_suffix form room acks.entries).sublist⟩,
    (takeAcks form room acks.entries).2.2)

end Tubus.Udp
