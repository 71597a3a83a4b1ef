import Mathlib.Data.List.Basic

/-!
# Tilings of a sequence

A sequence cut into consecutive pieces, each labelled with the position of its first element.
Pieces may be empty. `Tiles k l` says that the labels of `l` are right when the first piece
begins at `k`; `joined l` is the sequence the pieces make up.

A piece of a tiling is the part of the sequence at its label (`Tiles.prefix_drop`), two pieces
never overlap (`Tiles.end_le`), and every position lies in a piece (`Tiles.cover`).
-/

namespace Lib

universe u

variable {α : Type u}

/-- The pieces put together. -/
def joined (l : List (Nat × List α)) : List α := (l.map Prod.snd).flatten

/-- Consecutive pieces, the first one at `k`. -/
def Tiles : Nat → List (Nat × List α) → Prop
  | _, [] => True
  | k, (h, d) :: rest => h = k ∧ Tiles (k + d.length) rest

@[simp] theorem joined_nil : joined ([] : List (Nat × List α)) = [] := rfl

@[simp] theorem joined_cons (e : Nat × List α) (l : List (Nat × List α)) :
    joined (e :: l) = e.2 ++ joined l := rfl

@[simp] theorem joined_append (l m : List (Nat × List α)) :
    joined (l ++ m) = joined l ++ joined m := by
  simp [joined]

/-- A piece added at the end. -/
theorem Tiles.snoc {k : Nat} {l : List (Nat × List α)} (h : Tiles k l) (d : List α) :
    Tiles k (l ++ [(k + (joined l).length, d)]) := by
  induction l generalizing k with
  | nil => exact ⟨rfl, trivial⟩
  | cons e rest ih =>
    obtain ⟨hk, hrest⟩ := h
    refine ⟨hk, ?_⟩
    have hsnoc := ih hrest
    rw [Nat.add_assoc, ← List.length_append] at hsnoc
    exact hsnoc

/-- Where a piece lies: its label is at or past the start, and the piece is found there. -/
theorem Tiles.prefix_drop {k : Nat} {l : List (Nat × List α)} (ht : Tiles k l) {h : Nat}
    {d : List α} (hm : (h, d) ∈ l) :
    k ≤ h ∧ h + d.length ≤ k + (joined l).length ∧ d <+: (joined l).drop (h - k) := by
  induction l generalizing k with
  | nil => cases hm
  | cons e rest ih =>
    obtain ⟨hk, hrest⟩ := ht
    rcases List.mem_cons.mp hm with rfl | hm
    · subst hk
      refine ⟨Nat.le_refl _, ?_, ?_⟩
      · simp only [joined_cons, List.length_append]
        omega
      · simp only [Nat.sub_self, List.drop_zero, joined_cons]
        exact List.prefix_append _ _
    · obtain ⟨hle, hend, hpre⟩ := ih hrest hm
      refine ⟨by omega, ?_, ?_⟩
      · simp only [joined_cons, List.length_append]
        omega
      · have hsplit : h - k = e.2.length + (h - (k + e.2.length)) := by omega
        rw [joined_cons, hsplit, ← List.drop_drop, List.drop_left]
        exact hpre

/-- What is added to a tiling lies past its end. -/
theorem Tiles.le_of_append {k : Nat} {l m : List (Nat × List α)} (ht : Tiles k (l ++ m)) {h : Nat}
    {d : List α} (hm : (h, d) ∈ m) : k + (joined l).length ≤ h := by
  induction l generalizing k with
  | nil =>
    rw [List.nil_append] at ht
    exact (ht.prefix_drop hm).1
  | cons e rest ih =>
    obtain ⟨_, hrest⟩ := ht
    have := ih hrest
    rw [joined_cons, List.length_append]
    omega

/-- Of two pieces, the one with the smaller label ends where the other begins, or before. -/
theorem Tiles.end_le {k : Nat} {l : List (Nat × List α)} (ht : Tiles k l) {h₁ h₂ : Nat}
    {d₁ d₂ : List α} (m₁ : (h₁, d₁) ∈ l) (m₂ : (h₂, d₂) ∈ l) (hlt : h₁ < h₂) :
    h₁ + d₁.length ≤ h₂ := by
  induction l generalizing k with
  | nil => cases m₁
  | cons e rest ih =>
    obtain ⟨hk, hrest⟩ := ht
    rcases List.mem_cons.mp m₁ with rfl | r₁
    · rcases List.mem_cons.mp m₂ with heq | r₂
      · cases heq
        exact absurd hlt (Nat.lt_irrefl _)
      · have hafter : k + d₁.length ≤ h₂ := (hrest.prefix_drop r₂).1
        omega
    · rcases List.mem_cons.mp m₂ with rfl | r₂
      · have hafter : k + d₂.length ≤ h₁ := (hrest.prefix_drop r₁).1
        omega
      · exact ih hrest r₁ r₂

/-- Pieces that are not empty are told apart by their labels. -/
theorem Tiles.eq_of_label {k : Nat} {l : List (Nat × List α)} (ht : Tiles k l) {h : Nat}
    {d₁ d₂ : List α} (m₁ : (h, d₁) ∈ l) (m₂ : (h, d₂) ∈ l) (h₁ : d₁ ≠ []) (h₂ : d₂ ≠ []) :
    d₁ = d₂ := by
  induction l generalizing k with
  | nil => cases m₁
  | cons e rest ih =>
    obtain ⟨hk, hrest⟩ := ht
    have pos : ∀ {d : List α}, d ≠ [] → 0 < d.length := fun hd => List.length_pos_iff.mpr hd
    rcases List.mem_cons.mp m₁ with rfl | r₁
    · rcases List.mem_cons.mp m₂ with heq | r₂
      · cases heq
        rfl
      · have hafter : k + d₁.length ≤ h := (hrest.prefix_drop r₂).1
        have := pos h₁
        omega
    · rcases List.mem_cons.mp m₂ with rfl | r₂
      · have hafter : k + d₂.length ≤ h := (hrest.prefix_drop r₁).1
        have := pos h₂
        omega
      · exact ih hrest r₁ r₂

/-- Every position of the sequence lies in a piece. -/
theorem Tiles.cover {k : Nat} {l : List (Nat × List α)} (ht : Tiles k l) {p : Nat}
    (hk : k ≤ p) (hp : p < k + (joined l).length) :
    ∃ h d, (h, d) ∈ l ∧ h ≤ p ∧ p < h + d.length := by
  induction l generalizing k with
  | nil =>
    simp only [joined_nil, List.length_nil] at hp
    omega
  | cons e rest ih =>
    obtain ⟨he, hrest⟩ := ht
    by_cases hin : p < k + e.2.length
    · exact ⟨e.1, e.2, List.mem_cons_self, by omega, by omega⟩
    · have hlen : (joined (e :: rest)).length = e.2.length + (joined rest).length := by
        rw [joined_cons, List.length_append]
      obtain ⟨h, d, hm, hle, hlt⟩ := ih hrest (by omega) (by omega)
      exact ⟨h, d, List.mem_cons_of_mem _ hm, hle, hlt⟩

/-! ## Parts of a sequence -/

/-- What lies at a position lies there in every longer sequence. -/
theorem prefix_drop_mono {s t d : List α} {n : Nat} (hst : s <+: t) (hd : d <+: s.drop n) :
    d <+: t.drop n := by
  obtain ⟨r, rfl⟩ := hst
  rw [List.drop_append]
  exact hd.trans (List.prefix_append _ _)

/-- A front of a sequence goes on with what lies behind it. -/
theorem take_append_of_prefix_drop {s d : List α} {n : Nat} (hd : d <+: s.drop n) :
    s.take n ++ d = s.take (n + d.length) := by
  obtain ⟨r, hr⟩ := hd
  rw [List.take_add, ← hr, List.take_left]

/-- Cutting a part cuts what it is a part of. -/
theorem drop_prefix_drop {s d : List α} {n m : Nat} (hd : d <+: s.drop n) (hm : m ≤ d.length) :
    d.drop m <+: s.drop (n + m) := by
  obtain ⟨r, hr⟩ := hd
  rw [← List.drop_drop, ← hr, List.drop_append_of_le_length hm]
  exact List.prefix_append _ _

end Lib
