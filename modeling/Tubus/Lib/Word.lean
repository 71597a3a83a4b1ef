import Mathlib.Data.List.Induction
import Mathlib.Tactic.Ring

/-!
# Words and byte strings

Unsigned 64-bit arithmetic on naturals, with the wrap written out, and big-endian fields of any
width. A value that stays below `2 ^ 64` adds and subtracts as a natural does: that is what the
two `_of_` laws say, and the arithmetic of a caller is left to `omega` from there.
-/

namespace Lib

/-- A byte string. -/
abbrev Bytes := List UInt8

/-- Addition of two unsigned 64-bit words. -/
def wadd (a b : Nat) : Nat := (a + b) % 2 ^ 64

/-- Subtraction of two unsigned 64-bit words. -/
def wsub (a b : Nat) : Nat := (a + (2 ^ 64 - b % 2 ^ 64)) % 2 ^ 64

/-- The greatest 64-bit word. -/
theorem maxWord_lt : 2 ^ 64 - 1 < 2 ^ 64 := by decide

/-- A small one. -/
theorem four_lt : 4 < 2 ^ 64 := by decide

theorem wadd_lt (a b : Nat) : wadd a b < 2 ^ 64 := Nat.mod_lt _ (by decide)

theorem wsub_lt (a b : Nat) : wsub a b < 2 ^ 64 := Nat.mod_lt _ (by decide)

theorem wadd_le (a b : Nat) : wadd a b ≤ a + b := Nat.mod_le _ _

theorem wadd_of_lt {a b : Nat} (h : a + b < 2 ^ 64) : wadd a b = a + b := Nat.mod_eq_of_lt h

theorem wadd_wadd (a i j : Nat) : wadd (wadd a i) j = wadd a (i + j) := by
  unfold wadd
  omega

/-- A distance from `a`, taken from `a` again. -/
theorem wadd_wsub_wadd (a b i : Nat) : wadd a (wadd (wsub b a) i) = wadd b i := by
  unfold wadd wsub
  omega

theorem wadd_wsub (a b : Nat) : wadd a (wsub b a) = b % 2 ^ 64 := by
  unfold wadd wsub
  omega

theorem wsub_wadd_self {a i : Nat} (hi : i < 2 ^ 64) : wsub (wadd a i) a = i := by
  unfold wadd wsub
  omega

/-- The distance of two places that are counted from the same start. -/
theorem wsub_wadd_wadd (a : Nat) {i j : Nat} (hj : j < 2 ^ 64) (hi : i < 2 ^ 64) :
    wsub (wadd a j) (wadd a i) = if i ≤ j then j - i else 2 ^ 64 + j - i := by
  unfold wadd wsub
  split <;> omega

theorem wsub_of_le {a b : Nat} (hb : b ≤ a) (ha : a < 2 ^ 64) : wsub a b = a - b := by
  unfold wsub
  omega

/-! ## Big-endian fields -/

/-- The value of a big-endian byte string. -/
def ofBE (bs : Bytes) : Nat := bs.foldl (fun acc b => acc * 256 + b.toNat) 0

/-- The low `n` bytes of a value, most significant first. -/
def toBE : Nat → Nat → Bytes
  | 0, _ => []
  | n + 1, v => toBE n (v / 256) ++ [UInt8.ofNat v]

@[simp] theorem length_toBE (n v : Nat) : (toBE n v).length = n := by
  induction n generalizing v with
  | zero => rfl
  | succ n ih => simp [toBE, ih]

theorem ofBE_append_singleton (bs : Bytes) (b : UInt8) :
    ofBE (bs ++ [b]) = ofBE bs * 256 + b.toNat := by
  simp [ofBE]

/-- A field holds its value modulo the field's width. -/
theorem ofBE_toBE_mod (n v : Nat) : ofBE (toBE n v) = v % 256 ^ n := by
  induction n generalizing v with
  | zero => simp [toBE, ofBE, Nat.mod_one]
  | succ n ih =>
    have hmod : v % 256 ^ (n + 1) = v % 256 + 256 * (v / 256 % 256 ^ n) := by
      rw [pow_succ', Nat.mod_mul]
    rw [toBE, ofBE_append_singleton, ih, UInt8.toNat_ofNat', hmod]
    omega

theorem ofBE_toBE {n v : Nat} (h : v < 256 ^ n) : ofBE (toBE n v) = v := by
  rw [ofBE_toBE_mod, Nat.mod_eq_of_lt h]

theorem ofBE_lt (bs : Bytes) : ofBE bs < 256 ^ bs.length := by
  induction bs using List.reverseRecOn with
  | nil => simp [ofBE]
  | append_singleton bs b ih =>
    have hb := b.toNat_lt
    rw [ofBE_append_singleton, List.length_append, List.length_singleton, pow_succ]
    omega

/-- A byte string is the field of its own value. -/
theorem toBE_ofBE (bs : Bytes) : toBE bs.length (ofBE bs) = bs := by
  induction bs using List.reverseRecOn with
  | nil => rfl
  | append_singleton bs b ih =>
    have hb := b.toNat_lt
    have hdiv : (ofBE bs * 256 + b.toNat) / 256 = ofBE bs := by omega
    have hlast : UInt8.ofNat (ofBE bs * 256 + b.toNat) = b := by
      apply UInt8.toNat_inj.mp
      rw [UInt8.toNat_ofNat']
      omega
    rw [List.length_append, List.length_singleton, toBE, ofBE_append_singleton, hdiv, ih, hlast]

end Lib
