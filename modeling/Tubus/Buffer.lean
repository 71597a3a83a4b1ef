import Tubus.Lib.Word

/-!
# Buffers

`mutable_buffer` and `const_buffer` of `buffer.h`, as the bytes their view covers. Each access
tests its range first and throws when the test fails: `none` is that throw. The test adds two
`size_t` values, so the sum is the wrapping one.

A store gives back the bytes of the same view. Where several views share an array, the model
that uses them says how the parts lie (`Udp.Cursor`). `View` has the views themselves, in memory.
-/

namespace Tubus

open Lib

namespace Buffer

/-- The view with `src` copied over its bytes from `pos` on. -/
def splice (b : Bytes) (pos : Nat) (src : Bytes) : Bytes :=
  b.take pos ++ src ++ b.drop (pos + src.length)

/-- `get<type>`, as the `n` bytes of the value. -/
def get (b : Bytes) (pos n : Nat) : Option Bytes :=
  if b.length < wadd pos n then none else some ((b.drop pos).take n)

/-- `fill`: copy `src` into the view. -/
def fill (b : Bytes) (pos : Nat) (src : Bytes) : Option Bytes :=
  if b.length < wadd pos src.length then none else some (splice b pos src)

/-- `slice`. -/
def slice (b : Bytes) (pos len : Nat) : Option Bytes :=
  if b.length < pos ∨ b.length < wadd pos len then none else some ((b.drop pos).take len)

/-- `crop`: the view without its first `len` bytes. -/
def crop (b : Bytes) (len : Nat) : Option Bytes :=
  if b.length < len then none else some (b.drop len)

/-- `pop_front`: the first `len` bytes, and the view that remains. -/
def popFront (b : Bytes) (len : Nat) : Option (Bytes × Bytes) :=
  if b.length < len then none else some (b.take len, b.drop len)

/-- `truncate`. -/
def truncate (b : Bytes) (len : Nat) : Option Bytes :=
  if b.length < len then none else some (b.take len)

/-- A load followed by `ntohs`, `ntohl` or `be64toh`: the big-endian field, on every host. -/
def getBE (b : Bytes) (pos n : Nat) : Option Nat := (get b pos n).map ofBE

/-- A store of a value passed through `htons`, `htonl` or `htobe64`. -/
def setBE (b : Bytes) (pos n v : Nat) : Option Bytes := fill b pos (toBE n v)

/-! ## Ranges that hold -/

theorem get_of_le {b : Bytes} {pos n : Nat} (h : pos + n ≤ b.length) :
    get b pos n = some ((b.drop pos).take n) :=
  if_neg (Nat.not_lt.mpr ((wadd_le pos n).trans h))

theorem fill_of_le {b src : Bytes} {pos : Nat} (h : pos + src.length ≤ b.length) :
    fill b pos src = some (splice b pos src) :=
  if_neg (Nat.not_lt.mpr ((wadd_le pos src.length).trans h))

theorem slice_of_le {b : Bytes} {pos len : Nat} (h : pos + len ≤ b.length) :
    slice b pos len = some ((b.drop pos).take len) := by
  have hw := (wadd_le pos len).trans h
  exact if_neg (by omega)

theorem crop_of_le {b : Bytes} {len : Nat} (h : len ≤ b.length) :
    crop b len = some (b.drop len) :=
  if_neg (Nat.not_lt.mpr h)

theorem getBE_of_le {b : Bytes} {pos n : Nat} (h : pos + n ≤ b.length) :
    getBE b pos n = some (ofBE ((b.drop pos).take n)) := by
  rw [getBE, get_of_le h, Option.map_some]

/-- The number that stands behind a known front. -/
theorem getBE_append {front : Bytes} {pos n v : Nat} (rest : Bytes) (hpos : front.length = pos)
    (hv : v < 256 ^ n) : getBE (front ++ (toBE n v ++ rest)) pos n = some v := by
  subst hpos
  rw [getBE_of_le (by simp), List.drop_left, List.take_left' (length_toBE n v), ofBE_toBE hv]

/-- A store behind a known front, over as many bytes as it has. -/
theorem fill_append {front rest src : Bytes} {pos : Nat} (hpos : front.length = pos)
    (h : src.length ≤ rest.length) :
    fill (front ++ rest) pos src = some (front ++ src ++ rest.drop src.length) := by
  subst hpos
  rw [fill_of_le (by rw [List.length_append]; omega), splice, List.take_left, List.drop_append]
  simp

theorem setBE_append {front rest : Bytes} {pos n : Nat} (v : Nat) (hpos : front.length = pos)
    (h : n ≤ rest.length) :
    setBE (front ++ rest) pos n v = some (front ++ toBE n v ++ rest.drop n) := by
  rw [setBE, fill_append hpos (by rwa [length_toBE]), length_toBE]

theorem length_splice {b src : Bytes} {pos : Nat} (h : pos + src.length ≤ b.length) :
    (splice b pos src).length = b.length := by
  simp only [splice, List.length_append, List.length_take, List.length_drop]
  omega

/-! ## Ranges that do not hold -/

theorem fill_of_lt {b src : Bytes} {pos : Nat} (hlt : pos + src.length < 2 ^ 64)
    (h : b.length < pos + src.length) : fill b pos src = none := by
  rw [fill, wadd_of_lt hlt, if_pos h]

theorem length_of_fill {b b' src : Bytes} {pos : Nat} (hlt : pos + src.length < 2 ^ 64)
    (h : fill b pos src = some b') : b'.length = b.length := by
  by_cases hle : pos + src.length ≤ b.length
  · rw [fill_of_le hle] at h
    cases h
    exact length_splice hle
  · rw [fill_of_lt hlt (Nat.not_le.mp hle)] at h
    cases h

theorem setBE_of_lt {b : Bytes} {pos n : Nat} (v : Nat) (hlt : pos + n < 2 ^ 64)
    (h : b.length < pos + n) : setBE b pos n v = none :=
  fill_of_lt (by rwa [length_toBE]) (by rwa [length_toBE])

theorem length_of_setBE {b b' : Bytes} {pos n v : Nat} (hlt : pos + n < 2 ^ 64)
    (h : setBE b pos n v = some b') : b'.length = b.length :=
  length_of_fill (by rwa [length_toBE]) h

/-- What a view holds up to the end of a store: its old bytes, then the stored ones. -/
theorem take_splice {b src : Bytes} {pos : Nat} (h : pos + src.length ≤ b.length) :
    (splice b pos src).take (pos + src.length) = b.take pos ++ src := by
  have hlen : (b.take pos ++ src).length = pos + src.length := by
    simp only [List.length_append, List.length_take]
    omega
  rw [splice, ← hlen, List.take_left]

end Buffer

end Tubus
