import Tubus.Lib.Word

/-!
# The key stream

`make_inverter` of `utils.cpp`, on a host of either byte order. Loads and stores of a
`uint64_t` go through the host's order, and `htobe64` and `be64toh` swap bytes exactly on a
little-endian host.
-/

namespace Tubus

open Lib

/-- The byte order of a host. -/
inductive Endian where
  | little
  | big
  deriving DecidableEq, Repr

namespace Endian

/-- The memory of a `uint64_t`. -/
def store : Endian → UInt64 → Bytes
  | .little, w => (toBE 8 w.toNat).reverse
  | .big, w => toBE 8 w.toNat

/-- The `uint64_t` in eight bytes of memory. -/
def load : Endian → Bytes → UInt64
  | .little, bs => UInt64.ofNat (ofBE bs.reverse)
  | .big, bs => UInt64.ofNat (ofBE bs)

/-- `htobe64`: the word whose memory is the big-endian one. -/
def htobe64 (e : Endian) (w : UInt64) : UInt64 := e.load (store .big w)

/-- `be64toh`: the value of a word whose memory is the big-endian one. -/
def be64toh (e : Endian) (w : UInt64) : UInt64 := load .big (e.store w)

@[simp] theorem length_store (e : Endian) (w : UInt64) : (e.store w).length = 8 := by
  cases e <;> simp [store]

theorem load_store (e : Endian) (w : UInt64) : e.load (e.store w) = w := by
  have h : w.toNat < 256 ^ 8 := w.toNat_lt
  cases e <;> simp [load, store, ofBE_toBE h]

/-- The two conversions are one function: a swap, or nothing. -/
theorem be64toh_eq (e : Endian) (w : UInt64) : e.be64toh w = e.htobe64 w := by
  cases e <;> rfl

theorem store_load (e : Endian) {bs : Bytes} (h : bs.length = 8) : e.store (e.load bs) = bs := by
  have hlt : ∀ cs : Bytes, cs.length = 8 → (UInt64.ofNat (ofBE cs)).toNat = ofBE cs := by
    intro cs hcs
    have := ofBE_lt cs
    rw [hcs] at this
    exact UInt64.toNat_ofNat_of_lt' this
  cases e with
  | big => rw [load, store, hlt bs h, ← h, toBE_ofBE]
  | little =>
    have hr : bs.reverse.length = 8 := by rw [List.length_reverse, h]
    rw [load, store, hlt _ hr, ← hr, toBE_ofBE, List.reverse_reverse]

/-- On the wire a converted word is the big-endian one, whatever the host. -/
theorem store_htobe64 (e : Endian) (w : UInt64) : e.store (e.htobe64 w) = store .big w :=
  e.store_load (length_store .big w)

theorem be64toh_htobe64 (e : Endian) (w : UInt64) : e.be64toh (e.htobe64 w) = w := by
  rw [be64toh, store_htobe64, load_store]

end Endian

/-- `make_inverter`. -/
def makeInverter (e : Endian) (secret salt : UInt64) (dim : Bool) : UInt64 :=
  let base := secret + salt
  let shift := (base &&& 0x3F) ||| 0x01
  if dim then e.htobe64 (((base >>> shift) ||| (base <<< (64 - shift))) ^^^ salt)
  else e.be64toh (((base >>> shift) ||| (base <<< (64 - shift))) ^^^ salt)

/-- Bytes xored one by one, as far as both go. -/
def xorBytes (a b : Bytes) : Bytes := List.zipWith (fun x y => x ^^^ y) a b

end Tubus
