import Tubus.Buffer
import Tubus.Laws.View

/-!
# Views and byte strings

`Buffer` has the methods of the two classes on byte strings. They are those of the views, read off
the memory: on a straight call the two throw together, and else the bytes of the resulting views, or
those that are loaded, are what `Buffer` gives for the bytes of the view.
-/

namespace Tubus.View

open Lib

variable {plus : Plus} {m : Memory} {v : View} {pos len n : Nat}

/-- The bytes that a view covers. -/
def bytes (v : View) (m : Memory) : Bytes := m.bytes v.data v.size

@[simp] theorem length_bytes (v : View) (m : Memory) : (v.bytes m).length = v.size :=
  m.length_bytes v.data v.size

theorem bytes_part (hv : v.Placed) (h : pos + len ≤ v.size) :
    (v.part pos len).bytes m = ((v.bytes m).drop pos).take len := by
  show m.bytes (v.data + pos) len = _
  rw [← wadd_data hv h]
  exact m.bytes_sub v.data h

theorem bytes_front (hv : v.Placed) (h : len ≤ v.size) :
    (v.part 0 len).bytes m = (v.bytes m).take len :=
  bytes_part hv ((Nat.zero_add _).trans_le h)

theorem bytes_back (hv : v.Placed) (h : len ≤ v.size) :
    (v.part len (v.size - len)).bytes m = (v.bytes m).drop len := by
  rw [bytes_part hv (Nat.add_sub_cancel' h).le]
  apply List.take_of_length_le
  rw [List.length_drop, length_bytes]

theorem slice_bytes (hv : v.Placed) (hc : v.Admits (.slice pos len))
    (hs : v.Straight (.slice pos len)) :
    (v.slice pos len).toOption.map (·.bytes m) = Buffer.slice (v.bytes m) pos len := by
  by_cases htest : v.size < pos ∨ v.size < wadd pos len
  · unfold slice Buffer.slice
    rw [length_bytes, if_pos htest, if_pos htest]
    rfl
  · have h : pos + len ≤ v.size := ((straight_iff hv hc).mp hs).mp htest
    rw [slice_eq hv h, Buffer.slice_of_le (h.trans_eq (length_bytes v m).symm), ← bytes_part hv h]
    rfl

/-- A load, read off the bytes of the view. -/
theorem loads_bytes (method : String) (hv : v.Placed)
    (hfits : ¬ v.size < wadd pos n → pos + n ≤ v.size) :
    (v.loads method pos n m).1.toOption = Buffer.get (v.bytes m) pos n := by
  by_cases htest : v.size < wadd pos n
  · unfold loads Buffer.get
    rw [length_bytes, if_pos htest, if_pos htest]
    rfl
  · have h := hfits htest
    rw [loads_eq method hv h, Buffer.get_of_le (h.trans_eq (length_bytes v m).symm),
      ← bytes_part hv h]
    rfl

theorem get_bytes (hv : v.Placed) (hc : v.Admits (.get pos n)) (hs : v.Straight (.get pos n)) :
    (v.get pos n m).1.toOption = Buffer.get (v.bytes m) pos n :=
  loads_bytes "get" hv ((straight_iff hv hc).mp hs).mp

theorem copy_bytes (hv : v.Placed) (hc : v.Admits (.copy pos len))
    (hs : v.Straight (.copy pos len)) :
    (v.copy pos len m).1.toOption = Buffer.get (v.bytes m) pos len :=
  loads_bytes "copy" hv ((straight_iff hv hc).mp hs).mp

/-- A store, seen through the view. -/
theorem stores_bytes (method : String) {src : Bytes} {f : Nat → UInt8} (hv : v.Placed)
    (hsrc : (List.range src.length).map f = src)
    (hfits : ¬ v.size < wadd pos src.length → pos + src.length ≤ v.size) :
    ((v.stores method pos src.length f m).1.toOption.map fun _ =>
      v.bytes (v.stores method pos src.length f m).2) = Buffer.fill (v.bytes m) pos src := by
  by_cases htest : v.size < wadd pos src.length
  · unfold stores Buffer.fill
    rw [length_bytes, if_pos htest, if_pos htest]
    rfl
  · have h := hfits htest
    have hsize : v.size < 2 ^ 64 := (Nat.le_add_left _ _).trans_lt hv
    have hstore := m.bytes_store v.data f h hsize
    rw [hsrc, wadd_data hv h] at hstore
    rw [stores_eq method f hv h, Buffer.fill_of_le (h.trans_eq (length_bytes v m).symm)]
    exact congrArg some hstore

theorem fill_bytes {src : Bytes} {f : Nat → UInt8} (hv : v.Placed)
    (hsrc : (List.range src.length).map f = src) (hc : v.Admits (.fill pos src.length f))
    (hs : v.Straight (.fill pos src.length f)) :
    ((v.fill pos src.length f m).1.toOption.map fun _ => v.bytes (v.fill pos src.length f m).2) =
      Buffer.fill (v.bytes m) pos src :=
  stores_bytes "fill" hv hsrc ((straight_iff hv hc).mp hs).mp

theorem set_bytes {val : Bytes} (hv : v.Placed) (hc : v.Admits (.set pos val))
    (hs : v.Straight (.set pos val)) :
    ((v.set pos val m).1.toOption.map fun _ => v.bytes (v.set pos val m).2) =
      Buffer.fill (v.bytes m) pos val := by
  apply stores_bytes "set" hv
  · apply List.ext_getElem
    · simp only [List.length_map, List.length_range]
    · intro i _ hi
      rw [List.getElem_map, List.getElem_range, List.getD_eq_getElem?_getD,
        List.getElem?_eq_getElem hi, Option.getD_some]
  · exact ((straight_iff hv hc).mp hs).mp

theorem truncate_bytes (hv : v.Placed) :
    ((v.truncate len).1.toOption.map fun _ => (v.truncate len).2.bytes m) =
      Buffer.truncate (v.bytes m) len := by
  unfold Buffer.truncate
  rw [length_bytes]
  by_cases h : len ≤ v.size
  · rw [truncate_eq hv h, if_neg (Nat.not_lt.mpr h), ← bytes_front hv h]
    rfl
  · rw [truncate, if_pos (Nat.not_le.mp h), if_pos (Nat.not_le.mp h)]
    rfl

theorem crop_bytes (hplus : plus.Moves) (hv : v.Placed) :
    ((v.crop plus len).1.toOption.map fun _ => (v.crop plus len).2.bytes m) =
      Buffer.crop (v.bytes m) len := by
  unfold Buffer.crop
  rw [length_bytes]
  by_cases h : len ≤ v.size
  · rw [crop_eq hplus hv h, if_neg (Nat.not_lt.mpr h), ← bytes_back hv h]
    rfl
  · rw [crop, if_pos (Nat.not_le.mp h), if_pos (Nat.not_le.mp h)]
    rfl

theorem popFront_bytes (hplus : plus.Moves) (hv : v.Placed) :
    ((v.popFront plus len).1.toOption.map fun w =>
      (w.bytes m, (v.popFront plus len).2.bytes m)) = Buffer.popFront (v.bytes m) len := by
  unfold Buffer.popFront
  rw [length_bytes]
  by_cases h : len ≤ v.size
  · rw [popFront_eq hplus hv h, if_neg (Nat.not_lt.mpr h), ← bytes_front hv h, ← bytes_back hv h]
    rfl
  · rw [popFront, if_pos (Nat.not_le.mp h), if_pos (Nat.not_le.mp h)]
    rfl

end Tubus.View
