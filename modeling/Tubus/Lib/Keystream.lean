import Mathlib.Logic.Function.Iterate

/-!
# Key streams

A key is an infinite sequence; laying it over a list from a position on combines each element
with the key at its place (`mask`). A place depends on the position only, so a list may be masked
in pieces, and taken apart at other places than it was put together.

`blockKey` is the sequence that a block generator gives, block after block.
-/

namespace Lib

universe u v

variable {α : Type u}

/-- A list combined with a key, from a position on. -/
def mask (op : α → α → α) (key : ℕ → α) : ℕ → List α → List α
  | _, [] => []
  | p, a :: l => op a (key p) :: mask op key (p + 1) l

section Mask

variable {op : α → α → α} {key : ℕ → α} {p : ℕ}

@[simp] theorem mask_nil : mask op key p [] = [] := rfl

@[simp] theorem length_mask (l : List α) : (mask op key p l).length = l.length := by
  induction l generalizing p with
  | nil => rfl
  | cons a l ih => simp [mask, ih]

theorem mask_append (l l' : List α) :
    mask op key p (l ++ l') = mask op key p l ++ mask op key (p + l.length) l' := by
  induction l generalizing p with
  | nil => simp [mask]
  | cons a l ih => simp [mask, ih, Nat.add_assoc, Nat.add_comm 1]

theorem take_mask (n : ℕ) (l : List α) : (mask op key p l).take n = mask op key p (l.take n) := by
  induction l generalizing p n with
  | nil => simp
  | cons a l ih =>
    cases n with
    | zero => rfl
    | succ n => simp [mask, ih]

/-- A key laid over twice is gone, where the operation cancels. -/
theorem mask_mask (cancel : ∀ a b, op (op a b) b = a) (l : List α) :
    mask op key p (mask op key p l) = l := by
  induction l generalizing p with
  | nil => rfl
  | cons a l ih => simp [mask, cancel, ih]

/-- The mask comes off the first part of a masked list. -/
theorem mask_of_append_eq (cancel : ∀ a b, op (op a b) b = a) {l left whole : List α}
    (h : l ++ left = mask op key p whole) : mask op key p l = whole.take l.length := by
  have hl : l = mask op key p (whole.take l.length) := by
    rw [← take_mask, ← h, List.take_left]
  calc mask op key p l = mask op key p (mask op key p (whole.take l.length)) := congrArg _ hl
    _ = whole.take l.length := mask_mask cancel _

/-- Masking within a block is combining with the block. -/
theorem mask_eq_zipWith {l block : List α} (hlen : l.length ≤ block.length)
    (h : ∀ i, i < l.length → block[i]? = some (key (p + i))) :
    mask op key p l = List.zipWith op l block := by
  induction l generalizing p block with
  | nil => rfl
  | cons a l ih =>
    cases block with
    | nil => simp at hlen
    | cons b block =>
      have hb : b = key p := by simpa using h 0 (by simp)
      rw [mask, List.zipWith_cons_cons, hb]
      refine congrArg _ (ih (by simpa using hlen) fun i hi => ?_)
      simpa [Nat.add_assoc, Nat.add_comm 1] using h (i + 1) (by simpa using hi)

/-- Two keys give the same exactly where they are the same. -/
theorem mask_eq_mask_iff {key' : ℕ → α} (inj : ∀ a b c, op a b = op a c → b = c) (l : List α) :
    mask op key p l = mask op key' p l ↔ ∀ i, i < l.length → key (p + i) = key' (p + i) := by
  induction l generalizing p with
  | nil => simp
  | cons a l ih =>
    rw [mask, mask, List.cons.injEq, ih]
    constructor
    · rintro ⟨hhead, hrest⟩ i hi
      cases i with
      | zero => exact inj a _ _ hhead
      | succ i =>
        have hnext := hrest i (Nat.lt_of_succ_lt_succ hi)
        rwa [Nat.add_right_comm] at hnext
    · intro hall
      refine ⟨congrArg (op a) (hall 0 (Nat.zero_lt_succ _)), fun i hi => ?_⟩
      have hnext := hall (i + 1) (Nat.succ_lt_succ hi)
      rwa [← Nat.add_assoc, Nat.add_right_comm] at hnext

end Mask

/-! ## Keys made of blocks -/

section Blocks

variable {κ : Type v}

/-- The key whose blocks of `n` elements are those of the states after `k`. -/
def blockKey [Inhabited α] (n : ℕ) (block : κ → List α) (next : κ → κ) (k : κ) (i : ℕ) : α :=
  (block (next^[i / n + 1] k))[i % n]?.getD default

/-- Within one block the key is that block. -/
theorem block_getElem? [Inhabited α] {n : ℕ} {block : κ → List α} {next : κ → κ} {k : κ}
    (hlen : ∀ k, (block k).length = n) {p i : ℕ} (hi : p % n + i < n) :
    (block (next^[p / n + 1] k))[p % n + i]? = some (blockKey n block next k (p + i)) := by
  have hn : 0 < n := by omega
  have hdiv : (p + i) / n = p / n := by
    rw [← Nat.mod_add_div p n, Nat.add_right_comm, Nat.add_mul_div_left _ _ hn,
      Nat.div_eq_of_lt hi, Nat.add_mul_div_left _ _ hn, Nat.div_eq_of_lt (Nat.mod_lt p hn)]
  have hmod : (p + i) % n = p % n + i := by
    rw [Nat.add_mod, Nat.mod_eq_of_lt (show i < n by omega), Nat.mod_eq_of_lt hi]
  rw [blockKey, hdiv, hmod, List.getElem?_eq_getElem (by rw [hlen]; exact hi), Option.getD_some]

/-- Two keys agree on the first places exactly if their blocks do, as far as the places go. -/
theorem blockKey_eq_iff [Inhabited α] {n : ℕ} (hn : 0 < n) {block block' : κ → List α}
    {next next' : κ → κ} {k k' : κ} (hlen : ∀ k, (block k).length = n)
    (hlen' : ∀ k, (block' k).length = n) (m : ℕ) :
    (∀ i, i < m → blockKey n block next k i = blockKey n block' next' k' i) ↔
      ∀ j, (block (next^[j + 1] k)).take (m - n * j) =
        (block' (next'^[j + 1] k')).take (m - n * j) := by
  -- the key at a place of block `j`
  have hplace : ∀ j i, i < n → ∀ (block : κ → List α) (next : κ → κ) (k : κ),
      (∀ k, (block k).length = n) →
      (block (next^[j + 1] k))[i]? = some (blockKey n block next k (n * j + i)) := by
    intro j i hi block next k hlen
    have hin : (block (next^[n * j / n + 1] k))[n * j % n + i]? = _ :=
      block_getElem? hlen (by rwa [Nat.mul_mod_right, Nat.zero_add])
    rwa [Nat.mul_mod_right, Nat.zero_add, Nat.mul_div_cancel_left j hn] at hin
  constructor
  · intro hall j
    refine List.ext_getElem? fun i => ?_
    rw [List.getElem?_take, List.getElem?_take]
    split
    · next hi =>
      by_cases hin : i < n
      · rw [hplace j i hin block next k hlen, hplace j i hin block' next' k' hlen',
          hall (n * j + i) (by omega)]
      · rw [List.getElem?_eq_none (by rw [hlen]; omega),
          List.getElem?_eq_none (by rw [hlen']; omega)]
    · rfl
  · intro hall i hi
    have hj := congrArg (fun l => l[i % n]?) (hall (i / n))
    have hmod := Nat.mod_lt i hn
    have hsplit := Nat.div_add_mod i n
    simp only [List.getElem?_take] at hj
    rw [if_pos (by omega), if_pos (by omega), hplace _ _ hmod block next k hlen,
      hplace _ _ hmod block' next' k' hlen', hsplit] at hj
    exact Option.some.inj hj

end Blocks

end Lib
