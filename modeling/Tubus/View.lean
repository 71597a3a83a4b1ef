import Tubus.Lib.Memory
import Tubus.Lib.System

/-!
# Buffer views

`const_buffer` and `mutable_buffer` of `buffer.h` as what they are: a start and a size in an array
that other views may share. The two classes have the same methods, with the same tests, but for
`set` and `fill`, which only `mutable_buffer` has; so each method stands once and takes from its
view the name of the class, which its error carries.

A method that is `const` gives its answer only. One that assigns to `*this` gives `*this` back
beside the answer, also when it throws. The tests and the offsets are `size_t` arithmetic, which
wraps, and so does the address that an access starts from.
-/

namespace Tubus

open Lib

/-- The two classes. -/
inductive Kind where
  | constBuffer
  | mutableBuffer
  deriving DecidableEq, Repr

/-- The name of the class. -/
def Kind.name : Kind → String
  | .constBuffer => "const_buffer"
  | .mutableBuffer => "mutable_buffer"

/-- A view: the class, `m_array.get()`, and the `data()` and `size()` of the asio buffer that it
derives from. -/
structure View where
  kind : Kind
  array : Nat
  data : Nat
  size : Nat
  deriving DecidableEq, Repr

/-- `operator+=` of an asio buffer: from its data, its size and the operand, the data and the size
after it. -/
abbrev Plus := Nat → Nat → Nat → Nat × Nat

namespace View

/-- The constructor from an array, an offset and a size. -/
def create (kind : Kind) (array offset size : Nat) : View where
  kind := kind
  array := array
  data := wadd array offset
  size := size

/-- What a method that fails its test throws. -/
def outOfRange (v : View) (method : String) : String :=
  v.kind.name ++ "::" ++ method ++ ": out of range"

/-- `data()` as an offset into the array. -/
def offset (v : View) : Nat := wsub v.data v.array

/-- `*this += len`. -/
def advance (plus : Plus) (v : View) (len : Nat) : View :=
  { v with data := (plus v.data v.size len).1, size := (plus v.data v.size len).2 }

/-- `slice`. -/
def slice (v : View) (pos len : Nat) : Except String View :=
  if v.size < pos ∨ v.size < wadd pos len then .error (v.outOfRange "slice")
  else .ok (create v.kind v.array (wadd v.offset pos) len)

/-- `pop_front`. -/
def popFront (plus : Plus) (v : View) (len : Nat) : Except String View × View :=
  if v.size < len then (.error (v.outOfRange "pop_front"), v)
  else (.ok (create v.kind v.array v.offset len), v.advance plus len)

/-- `pop_back`. The returned view starts where the shortened one ends. -/
def popBack (v : View) (len : Nat) : Except String View × View :=
  if v.size < len then (.error (v.outOfRange "pop_back"), v)
  else
    let this := create v.kind v.array v.offset (wsub v.size len)
    (.ok (create this.kind this.array (wadd this.offset this.size) len), this)

/-- `truncate`. -/
def truncate (v : View) (len : Nat) : Except String Unit × View :=
  if v.size < len then (.error (v.outOfRange "truncate"), v)
  else (.ok (), create v.kind v.array v.offset len)

/-- `crop`. -/
def crop (plus : Plus) (v : View) (len : Nat) : Except String Unit × View :=
  if v.size < len then (.error (v.outOfRange "crop"), v) else (.ok (), v.advance plus len)

/-- A method that loads `n` bytes. -/
def loads (method : String) (v : View) (pos n : Nat) (m : Memory) :
    Except String Bytes × Memory :=
  if v.size < wadd pos n then (.error (v.outOfRange method), m)
  else (.ok (m.load (wadd v.data pos) n).1, (m.load (wadd v.data pos) n).2)

/-- `get<type>`: the bytes of the value, `sizeof(type)` of them. -/
def get (v : View) (pos n : Nat) (m : Memory) : Except String Bytes × Memory :=
  v.loads "get" pos n m

/-- `copy`: the bytes that are copied to `dst`. -/
def copy (v : View) (pos len : Nat) (m : Memory) : Except String Bytes × Memory :=
  v.loads "copy" pos len m

/-- A method that stores `n` bytes of a source. -/
def stores (method : String) (v : View) (pos n : Nat) (src : Nat → UInt8) (m : Memory) :
    Except String Unit × Memory :=
  if v.size < wadd pos n then (.error (v.outOfRange method), m)
  else (.ok (), m.store (wadd v.data pos) n src)

/-- `set<type>`, of a value given by its bytes. -/
def set (v : View) (pos : Nat) (val : Bytes) (m : Memory) : Except String Unit × Memory :=
  v.stores "set" pos val.length (fun i => val.getD i 0) m

/-- `fill`, from the bytes behind the pointer `src`. -/
def fill (v : View) (pos len : Nat) (src : Nat → UInt8) (m : Memory) :
    Except String Unit × Memory :=
  v.stores "fill" pos len src m

/-- A call of a method. -/
inductive Call where
  | slice (pos len : Nat)
  | popFront (len : Nat)
  | popBack (len : Nat)
  | truncate (len : Nat)
  | crop (len : Nat)
  | get (pos n : Nat)
  | set (pos : Nat) (val : Bytes)
  | fill (pos len : Nat) (src : Nat → UInt8)
  | copy (pos len : Nat)

/-- What a call gives to its caller. -/
inductive Answer where
  | view (w : View)
  | bytes (data : Bytes)
  | nothing
  deriving DecidableEq, Repr

/-- How a call comes out: its answer or the text of its error, the view it was called on, and the
memory. -/
structure Result where
  answer : Except String Answer
  this : View
  memory : Memory

/-- A call of a method on a view. -/
def call (plus : Plus) (v : View) (c : Call) (m : Memory) : Result :=
  match c with
  | .slice pos len => ⟨(v.slice pos len).map .view, v, m⟩
  | .popFront len => ⟨(v.popFront plus len).1.map .view, (v.popFront plus len).2, m⟩
  | .popBack len => ⟨(v.popBack len).1.map .view, (v.popBack len).2, m⟩
  | .truncate len => ⟨(v.truncate len).1.map fun _ => .nothing, (v.truncate len).2, m⟩
  | .crop len => ⟨(v.crop plus len).1.map fun _ => .nothing, (v.crop plus len).2, m⟩
  | .get pos n => ⟨(v.get pos n m).1.map .bytes, v, (v.get pos n m).2⟩
  | .set pos val => ⟨(v.set pos val m).1.map fun _ => .nothing, v, (v.set pos val m).2⟩
  | .fill pos len src =>
    ⟨(v.fill pos len src m).1.map fun _ => .nothing, v, (v.fill pos len src m).2⟩
  | .copy pos len => ⟨(v.copy pos len m).1.map .bytes, v, (v.copy pos len m).2⟩

/-- A call that the types admit: every argument is a `size_t`, and only a `mutable_buffer` can be
stored into. -/
def Admits (v : View) : Call → Prop
  | .slice pos len => pos < 2 ^ 64 ∧ len < 2 ^ 64
  | .popFront len | .popBack len | .truncate len | .crop len => len < 2 ^ 64
  | .get pos n => pos < 2 ^ 64 ∧ n < 2 ^ 64
  | .set pos val => pos < 2 ^ 64 ∧ val.length < 2 ^ 64 ∧ v.kind = .mutableBuffer
  | .fill pos len _ => pos < 2 ^ 64 ∧ len < 2 ^ 64 ∧ v.kind = .mutableBuffer
  | .copy pos len => pos < 2 ^ 64 ∧ len < 2 ^ 64

instance (v : View) : (c : Call) → Decidable (v.Admits c)
  | .slice _ _ | .get _ _ | .copy _ _ => inferInstanceAs (Decidable (_ ∧ _))
  | .popFront _ | .popBack _ | .truncate _ | .crop _ => inferInstanceAs (Decidable (_ < _))
  | .set _ _ | .fill _ _ _ => inferInstanceAs (Decidable (_ ∧ _ ∧ _))

end View

/-- The memory and the views of one array that a program has. -/
structure Views where
  memory : Memory
  views : List View

namespace Views

/-- A call on one of the views. A view that is returned joins the others. -/
def step (plus : Plus) (s : Views) (e : Nat × View.Call) : Option Views := do
  let v ← s.views[e.1]?
  if v.Admits e.2 then
    let r := v.call plus e.2 s.memory
    let views := s.views.set e.1 r.this
    match r.answer with
    | .ok (.view w) => some { memory := r.memory, views := views ++ [w] }
    | _ => some { memory := r.memory, views := views }
  else none

/-- Calls of any program that starts from one view. -/
def system (plus : Plus) (m : Memory) (root : View) : System Views (Nat × View.Call) where
  init s := s = { memory := m, views := [root] }
  step := step plus

end Views

end Tubus
