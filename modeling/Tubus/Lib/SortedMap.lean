import Mathlib.Order.Defs.LinearOrder
import Mathlib.Order.Lattice
import Mathlib.Data.List.Basic
import Mathlib.Data.List.Pairwise
import Mathlib.Data.List.Perm.Subperm

/-!
# Sorted maps

A finite map as its entries in strictly ascending key order: the shape in which an ordered
associative container is observed, whatever tree stores it. The order is a field of the
structure, so no later proof re-establishes it.

`emplace` never overwrites: a key that is present keeps its value. `first?` is the entry with
the least key and `last?` the entry with the greatest one, and both facts are laws here.
-/

namespace Lib

universe u v

/-- Entries in strictly ascending key order. -/
structure SortedMap (κ : Type u) (α : Type v) [LinearOrder κ] where
  entries : List (κ × α)
  sorted : entries.Pairwise (fun x y => x.1 < y.1)

namespace SortedMap

variable {κ : Type u} {α : Type v} [LinearOrder κ]

/-! ## Operations -/

/-- The map with no entry. -/
def empty : SortedMap κ α := ⟨[], List.Pairwise.nil⟩

instance : Inhabited (SortedMap κ α) := ⟨empty⟩

/-- The number of entries. -/
def size (m : SortedMap κ α) : Nat := m.entries.length

/-- The entry with the least key. -/
def first? (m : SortedMap κ α) : Option (κ × α) := m.entries.head?

/-- The entry with the greatest key. -/
def last? (m : SortedMap κ α) : Option (κ × α) := m.entries.getLast?

/-- The keys, ascending. -/
def keys (m : SortedMap κ α) : List κ := m.entries.map Prod.fst

/-- The map without its least entry. -/
def eraseFirst (m : SortedMap κ α) : SortedMap κ α := ⟨m.entries.tail, m.sorted.tail⟩

/-- The entries list of `emplace`. -/
def insertNew (k : κ) (a : α) : List (κ × α) → List (κ × α)
  | [] => [(k, a)]
  | e :: rest =>
    if k < e.1 then (k, a) :: e :: rest
    else if k = e.1 then e :: rest
    else e :: insertNew k a rest

/-- What `insertNew` holds: the old entries, and the new one when its key is new. -/
theorem mem_insertNew (k : κ) (a : α) (l : List (κ × α))
    (h : l.Pairwise (fun x y => x.1 < y.1)) (e : κ × α) :
    e ∈ insertNew k a l ↔ e ∈ l ∨ (e = (k, a) ∧ k ∉ l.map Prod.fst) := by
  induction l with
  | nil => simp [insertNew]
  | cons x rest ih =>
    obtain ⟨hx, hrest⟩ := List.pairwise_cons.mp h
    unfold insertNew
    split
    · next hlt =>
      have hnew : k ∉ (x :: rest).map Prod.fst := by
        intro hk
        obtain ⟨y, hy, rfl⟩ := List.mem_map.mp hk
        rcases List.mem_cons.mp hy with rfl | hy
        · exact lt_irrefl _ hlt
        · exact lt_asymm hlt (hx y hy)
      simp only [List.mem_cons, hnew, not_false_eq_true, and_true]
      tauto
    · split
      · next heq => simp [heq]
      · next hne =>
        simp only [List.mem_cons, ih hrest, List.map_cons, not_or]
        tauto

/-- `insertNew` keeps the order. -/
theorem insertNew_sorted (k : κ) (a : α) (l : List (κ × α))
    (h : l.Pairwise (fun x y => x.1 < y.1)) :
    (insertNew k a l).Pairwise (fun x y => x.1 < y.1) := by
  induction l with
  | nil => simp [insertNew]
  | cons x rest ih =>
    obtain ⟨hx, hrest⟩ := List.pairwise_cons.mp h
    unfold insertNew
    split
    · next hlt =>
      refine List.pairwise_cons.mpr ⟨fun y hy => ?_, h⟩
      rcases List.mem_cons.mp hy with rfl | hy
      · exact hlt
      · exact lt_trans hlt (hx y hy)
    · split
      · exact h
      · next hnlt hne =>
        refine List.pairwise_cons.mpr ⟨fun y hy => ?_, ih hrest⟩
        rcases (mem_insertNew k a rest hrest y).mp hy with hy | ⟨rfl, _⟩
        · exact hx y hy
        · exact lt_of_le_of_ne (not_lt.mp hnlt) (Ne.symm hne)

/-- Add an entry unless its key is taken. -/
def emplace (m : SortedMap κ α) (k : κ) (a : α) : SortedMap κ α :=
  ⟨insertNew k a m.entries, insertNew_sorted k a m.entries m.sorted⟩

/-- Remove a key. -/
def erase (m : SortedMap κ α) (k : κ) : SortedMap κ α :=
  ⟨m.entries.filter (fun e => decide (e.1 ≠ k)), m.sorted.filter _⟩

/-- Change the value of one key, where it is present. -/
def modify (m : SortedMap κ α) (k : κ) (f : α → α) : SortedMap κ α :=
  ⟨m.entries.map (fun e => if e.1 = k then (e.1, f e.2) else e), by
    refine List.pairwise_map.mpr (m.sorted.imp ?_)
    intro x y h
    split <;> split <;> exact h⟩

/-- Does the map hold this key? -/
def contains (m : SortedMap κ α) (k : κ) : Bool := decide (k ∈ m.keys)

/-! ## Membership -/

theorem mem_keys {m : SortedMap κ α} {k : κ} : k ∈ m.keys ↔ ∃ a, (k, a) ∈ m.entries := by
  constructor
  · intro h
    obtain ⟨e, he, rfl⟩ := List.mem_map.mp h
    exact ⟨e.2, he⟩
  · rintro ⟨a, ha⟩
    exact List.mem_map.mpr ⟨(k, a), ha, rfl⟩

theorem mem_emplace {m : SortedMap κ α} {k : κ} {a : α} {e : κ × α} :
    e ∈ (m.emplace k a).entries ↔ e ∈ m.entries ∨ (e = (k, a) ∧ k ∉ m.keys) :=
  mem_insertNew k a m.entries m.sorted e

theorem mem_keys_emplace {m : SortedMap κ α} {k j : κ} {a : α} :
    j ∈ (m.emplace k a).keys ↔ j ∈ m.keys ∨ j = k := by
  simp only [mem_keys, mem_emplace]
  constructor
  · rintro ⟨b, hb | ⟨hb, _⟩⟩
    · exact .inl ⟨b, hb⟩
    · exact .inr (congrArg Prod.fst hb)
  · rintro (⟨b, hb⟩ | rfl)
    · exact ⟨b, .inl hb⟩
    · by_cases hk : ∃ b, (j, b) ∈ m.entries
      · obtain ⟨b, hb⟩ := hk
        exact ⟨b, .inl hb⟩
      · exact ⟨a, .inr ⟨rfl, hk⟩⟩

theorem mem_erase {m : SortedMap κ α} {k : κ} {e : κ × α} :
    e ∈ (m.erase k).entries ↔ e ∈ m.entries ∧ e.1 ≠ k := by
  simp [erase]

theorem mem_keys_erase {m : SortedMap κ α} {k j : κ} :
    j ∈ (m.erase k).keys ↔ j ∈ m.keys ∧ j ≠ k := by
  simp only [mem_keys, mem_erase, exists_and_right]

theorem mem_eraseFirst {m : SortedMap κ α} {e : κ × α}
    (h : e ∈ m.eraseFirst.entries) : e ∈ m.entries :=
  List.mem_of_mem_tail h

theorem mem_modify {m : SortedMap κ α} {k : κ} {f : α → α} {e : κ × α} :
    e ∈ (m.modify k f).entries ↔
      (e ∈ m.entries ∧ e.1 ≠ k) ∨ (e.1 = k ∧ ∃ a, (k, a) ∈ m.entries ∧ e.2 = f a) := by
  simp only [modify, List.mem_map]
  constructor
  · rintro ⟨x, hx, rfl⟩
    by_cases hk : x.1 = k
    · rw [if_pos hk]
      exact .inr ⟨hk, x.2, hk ▸ hx, rfl⟩
    · rw [if_neg hk]
      exact .inl ⟨hx, hk⟩
  · rintro (⟨he, hk⟩ | ⟨hk, a, ha, hf⟩)
    · exact ⟨e, he, if_neg hk⟩
    · refine ⟨(k, a), ha, ?_⟩
      rw [if_pos rfl, ← hf, ← hk]

theorem keys_modify (m : SortedMap κ α) (k : κ) (f : α → α) : (m.modify k f).keys = m.keys := by
  simp only [keys, modify, List.map_map]
  refine List.map_congr_left fun e _ => ?_
  simp only [Function.comp_apply]
  split <;> rfl

/-! ## Order -/

/-- One value per key. -/
theorem eq_of_mem {m : SortedMap κ α} {k : κ} {a b : α}
    (ha : (k, a) ∈ m.entries) (hb : (k, b) ∈ m.entries) : a = b := by
  have hpair : m.entries.Pairwise (fun x y => x.1 ≠ y.1) := m.sorted.imp fun h => ne_of_lt h
  have : Std.Symm (fun x y : κ × α => x.1 ≠ y.1) := ⟨fun _ _ h => h.symm⟩
  by_contra hne
  exact hpair.forall ha hb (fun h => hne (congrArg Prod.snd h)) rfl

/-- The other keys of a map, before an entry and behind it. -/
theorem ne_of_split {m : SortedMap κ α} {k : κ} {a : α} {l₁ l₂ : List (κ × α)}
    (h : m.entries = l₁ ++ (k, a) :: l₂) : (∀ e ∈ l₁, e.1 < k) ∧ ∀ e ∈ l₂, k < e.1 := by
  have hsorted := m.sorted
  rw [h] at hsorted
  obtain ⟨_, hrest, hcross⟩ := List.pairwise_append.mp hsorted
  exact ⟨fun e he => hcross e he (k, a) List.mem_cons_self, (List.pairwise_cons.mp hrest).1⟩

/-- To remove a key takes its entry out. -/
theorem entries_erase {m : SortedMap κ α} {k : κ} {a : α} {l₁ l₂ : List (κ × α)}
    (h : m.entries = l₁ ++ (k, a) :: l₂) : (m.erase k).entries = l₁ ++ l₂ := by
  obtain ⟨hlt, hgt⟩ := ne_of_split h
  have hfront : l₁.filter (fun e => decide (e.1 ≠ k)) = l₁ :=
    List.filter_eq_self.mpr fun e he => decide_eq_true (ne_of_lt (hlt e he))
  have hback : l₂.filter (fun e => decide (e.1 ≠ k)) = l₂ :=
    List.filter_eq_self.mpr fun e he => decide_eq_true (ne_of_gt (hgt e he))
  show m.entries.filter (fun e => decide (e.1 ≠ k)) = l₁ ++ l₂
  rw [h, List.filter_append, List.filter_cons_of_neg (by simp), hfront, hback]

/-- To change the value of a key changes its entry in place. -/
theorem entries_modify {m : SortedMap κ α} {k : κ} {a : α} {l₁ l₂ : List (κ × α)}
    (h : m.entries = l₁ ++ (k, a) :: l₂) (f : α → α) :
    (m.modify k f).entries = l₁ ++ (k, f a) :: l₂ := by
  obtain ⟨hlt, hgt⟩ := ne_of_split h
  have hsame : ∀ l : List (κ × α), (∀ e ∈ l, e.1 ≠ k) →
      l.map (fun e => if e.1 = k then (e.1, f e.2) else e) = l := by
    intro l hne
    have hmap := List.map_congr_left (l := l)
      (f := fun e => if e.1 = k then (e.1, f e.2) else e) (g := id)
      fun e he => if_neg (hne e he)
    rw [hmap, List.map_id]
  show m.entries.map (fun e => if e.1 = k then (e.1, f e.2) else e) = _
  rw [h, List.map_append, List.map_cons, if_pos rfl, hsame l₁ fun e he => ne_of_lt (hlt e he),
    hsame l₂ fun e he => ne_of_gt (hgt e he)]

theorem first?_mem {m : SortedMap κ α} {e : κ × α} (h : m.first? = some e) : e ∈ m.entries :=
  List.mem_of_mem_head? h

theorem first?_le {m : SortedMap κ α} {e x : κ × α} (h : m.first? = some e)
    (hx : x ∈ m.entries) : e.1 ≤ x.1 := by
  unfold first? at h
  cases hl : m.entries with
  | nil => rw [hl] at h; simp at h
  | cons y rest =>
    rw [hl] at h hx
    cases h
    rcases List.mem_cons.mp hx with rfl | hx
    · exact le_rfl
    · exact le_of_lt ((List.pairwise_cons.mp (hl ▸ m.sorted)).1 x hx)

theorem first?_eq_none {m : SortedMap κ α} : m.first? = none ↔ m.entries = [] :=
  List.head?_eq_none_iff

/-- Past the least entry every key is greater. -/
theorem lt_of_mem_eraseFirst {m : SortedMap κ α} {e x : κ × α} (h : m.first? = some e)
    (hx : x ∈ m.eraseFirst.entries) : e.1 < x.1 := by
  unfold first? at h
  cases hl : m.entries with
  | nil => rw [hl] at h; simp at h
  | cons y rest =>
    rw [hl] at h
    cases h
    have hx' : x ∈ rest := by simpa [eraseFirst, hl] using hx
    exact (List.pairwise_cons.mp (hl ▸ m.sorted)).1 x hx'

theorem mem_eraseFirst_iff {m : SortedMap κ α} {e x : κ × α} (h : m.first? = some e) :
    x ∈ m.eraseFirst.entries ↔ x ∈ m.entries ∧ x ≠ e := by
  constructor
  · intro hx
    refine ⟨mem_eraseFirst hx, fun heq => ?_⟩
    exact absurd (lt_of_mem_eraseFirst h hx) (by rw [heq]; exact lt_irrefl _)
  · rintro ⟨hx, hne⟩
    unfold first? at h
    cases hl : m.entries with
    | nil => rw [hl] at hx; simp at hx
    | cons y rest =>
      rw [hl] at h hx
      cases h
      rcases List.mem_cons.mp hx with rfl | hx
      · exact absurd rfl hne
      · simpa [eraseFirst, hl] using hx

theorem last?_mem {m : SortedMap κ α} {e : κ × α} (h : m.last? = some e) : e ∈ m.entries :=
  List.mem_of_getLast? h

theorem le_last? {m : SortedMap κ α} {e x : κ × α} (h : m.last? = some e)
    (hx : x ∈ m.entries) : x.1 ≤ e.1 := by
  obtain ⟨init, hinit⟩ := List.getLast?_eq_some_iff.mp h
  have hs := m.sorted
  rw [hinit] at hs hx
  rcases List.mem_append.mp hx with hx | hx
  · exact le_of_lt ((List.pairwise_append.mp hs).2.2 x hx e (by simp))
  · simp only [List.mem_singleton] at hx
    exact le_of_eq (congrArg Prod.fst hx)

theorem last?_eq_none {m : SortedMap κ α} : m.last? = none ↔ m.entries = [] :=
  List.getLast?_eq_none_iff

theorem size_eraseFirst {m : SortedMap κ α} {e : κ × α} (h : m.first? = some e) :
    m.eraseFirst.size + 1 = m.size := by
  unfold first? at h
  cases hl : m.entries with
  | nil => rw [hl] at h; simp at h
  | cons y rest => simp [size, eraseFirst, hl]

theorem length_insertNew_le (k : κ) (a : α) (l : List (κ × α)) :
    (insertNew k a l).length ≤ l.length + 1 := by
  induction l with
  | nil => exact Nat.le_refl 1
  | cons e rest ih =>
    unfold insertNew
    split
    · exact Nat.le_refl _
    · split
      · exact Nat.le_succ _
      · exact Nat.succ_le_succ ih

/-- A map grows by one entry at most. -/
theorem size_emplace_le (m : SortedMap κ α) (k : κ) (a : α) : (m.emplace k a).size ≤ m.size + 1 :=
  length_insertNew_le k a m.entries

/-- No key comes twice. -/
theorem nodup_keys (m : SortedMap κ α) : m.keys.Nodup :=
  List.pairwise_map.mpr (m.sorted.imp fun h => ne_of_lt h)

theorem length_keys (m : SortedMap κ α) : m.keys.length = m.size := List.length_map _

/-- A map is at most as large as one with all its keys. -/
theorem size_le_of_keys {m m' : SortedMap κ α} (h : ∀ k ∈ m.keys, k ∈ m'.keys) :
    m.size ≤ m'.size := by
  rw [← length_keys, ← length_keys]
  exact (List.subperm_of_subset m.nodup_keys h).length_le

/-- It is smaller if it lacks one of them. -/
theorem size_lt_of_keys {m m' : SortedMap κ α} (h : ∀ k ∈ m.keys, k ∈ m'.keys) {k : κ}
    (hk : k ∈ m'.keys) (hno : k ∉ m.keys) : m.size < m'.size := by
  have hsub : k :: m.keys ⊆ m'.keys := List.cons_subset.mpr ⟨hk, h⟩
  have hle := (List.subperm_of_subset (List.nodup_cons.mpr ⟨hno, m.nodup_keys⟩) hsub).length_le
  rw [List.length_cons, length_keys, length_keys] at hle
  exact hle

end SortedMap

/-- A set of keys, observed in ascending order. -/
abbrev SortedSet (κ : Type u) [LinearOrder κ] := SortedMap κ Unit

end Lib
