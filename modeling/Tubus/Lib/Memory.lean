import Tubus.Lib.Word

/-!
# Memory

Bytes at 64-bit addresses, and a record of the stretches of addresses that were loaded or stored. An
access is as long as it says: where it runs past the greatest address it goes on at the least one.

The three laws are the usual ones. A load reads the stretch it names (`bytes_sub`), a store changes
it (`bytes_store`), and a store changes nothing else (`store_of_not_has`).
-/

namespace Lib

/-- `len` addresses from `start` on. -/
structure Span where
  start : Nat
  len : Nat
  deriving DecidableEq, Repr

/-- The address is on the stretch. -/
def Span.Has (s : Span) (a : Nat) : Prop := wsub a s.start < s.len

instance (s : Span) (a : Nat) : Decidable (s.Has a) := inferInstanceAs (Decidable (_ < _))

/-- A stretch that does not run past the greatest address is an interval. -/
theorem Span.has_iff {s : Span} {a : Nat} (hs : s.start + s.len < 2 ^ 64) (ha : a < 2 ^ 64) :
    s.Has a ↔ s.start ≤ a ∧ a < s.start + s.len := by
  unfold Span.Has wsub
  constructor
  · intro h
    omega
  · intro h
    omega

/-- The addresses of a stretch, counted from its start. -/
theorem Span.has_wadd {s : Span} {i : Nat} (hi : i < s.len) (hword : i < 2 ^ 64) :
    s.Has (wadd s.start i) := by
  unfold Span.Has
  rw [wsub_wadd_self hword]
  exact hi

/-- What every address holds, and the accesses made so far, the last one first. -/
structure Memory where
  byte : Nat → UInt8
  touched : List Span

namespace Memory

variable {m : Memory} {a k i n : Nat} {src : Nat → UInt8}

/-- The `n` bytes from `a` on. -/
def bytes (m : Memory) (a n : Nat) : Bytes := (List.range n).map fun i => m.byte (wadd a i)

/-- Load `n` bytes. -/
def load (m : Memory) (a n : Nat) : Bytes × Memory :=
  (m.bytes a n, { m with touched := ⟨a, n⟩ :: m.touched })

/-- Store `n` bytes, those of a source. -/
def store (m : Memory) (a n : Nat) (src : Nat → UInt8) : Memory where
  byte x := if (Span.mk a n).Has x then src (wsub x a) else m.byte x
  touched := ⟨a, n⟩ :: m.touched

@[simp] theorem length_bytes (m : Memory) (a n : Nat) : (m.bytes a n).length = n := by
  simp [bytes]

@[simp] theorem getElem_bytes (h : i < (m.bytes a n).length) :
    (m.bytes a n)[i] = m.byte (wadd a i) := by
  simp [bytes]

/-- A part of what is loaded. -/
theorem bytes_sub (m : Memory) (a : Nat) (h : i + n ≤ k) :
    m.bytes (wadd a i) n = ((m.bytes a k).drop i).take n := by
  apply List.ext_getElem
  · simp only [length_bytes, List.length_take, List.length_drop]
    omega
  · intro j _ _
    rw [List.getElem_take, List.getElem_drop, getElem_bytes, getElem_bytes, wadd_wadd]

theorem store_of_has (m : Memory) {x : Nat} (h : (Span.mk a n).Has x) :
    (m.store a n src).byte x = src (wsub x a) := if_pos h

theorem store_of_not_has (m : Memory) {x : Nat} (h : ¬ (Span.mk a n).Has x) :
    (m.store a n src).byte x = m.byte x := if_neg h

/-- A store into a stretch of fewer than `2 ^ 64` bytes replaces its part of them. -/
theorem bytes_store (m : Memory) (a : Nat) (src : Nat → UInt8) (h : i + n ≤ k)
    (hk : k < 2 ^ 64) :
    (m.store (wadd a i) n src).bytes a k =
      (m.bytes a k).take i ++ (List.range n).map src ++ (m.bytes a k).drop (i + n) := by
  apply List.ext_getElem
  · simp only [length_bytes, List.length_append, List.length_take, List.length_map,
      List.length_range, List.length_drop]
    omega
  · intro j hj _
    rw [length_bytes] at hj
    have hdist := wsub_wadd_wadd a (hj.trans hk) ((Nat.le_add_right i n).trans_lt (h.trans_lt hk))
    have htake : ((m.bytes a k).take i).length = i := by
      rw [List.length_take, length_bytes]
      omega
    have hfront : ((m.bytes a k).take i ++ (List.range n).map src).length = i + n := by
      rw [List.length_append, htake, List.length_map, List.length_range]
    rw [getElem_bytes]
    -- before the stored bytes, among them, or behind them
    rcases Nat.lt_or_ge j i with hbefore | hfrom
    · have hout : ¬ (Span.mk (wadd a i) n).Has (wadd a j) := by
        rw [if_neg (Nat.not_le.mpr hbefore)] at hdist
        simp only [Span.Has, hdist]
        omega
      rw [store_of_not_has m hout, List.getElem_append_left (by omega),
        List.getElem_append_left (by omega), List.getElem_take, getElem_bytes]
    · rw [if_pos hfrom] at hdist
      rcases Nat.lt_or_ge j (i + n) with hamong | hbehind
      · have hin : (Span.mk (wadd a i) n).Has (wadd a j) := by
          simp only [Span.Has, hdist]
          omega
        have hbyte : (m.store (wadd a i) n src).byte (wadd a j) = src (j - i) := by
          rw [store_of_has m hin, hdist]
        rw [hbyte, List.getElem_append_left (by omega), List.getElem_append_right (by omega),
          List.getElem_map, List.getElem_range, htake]
      · have hout : ¬ (Span.mk (wadd a i) n).Has (wadd a j) := by
          simp only [Span.Has, hdist]
          omega
        rw [store_of_not_has m hout, List.getElem_append_right (by omega), List.getElem_drop,
          getElem_bytes, hfront, Nat.add_sub_cancel' hbehind]

end Memory

end Lib
