import Mathlib.Algebra.Ring.Nat
import Mathlib.Order.Nat
import Tubus.Lib.SortedMap
import Tubus.Lib.Tiling

/-!
# Reassembly of a tiled sequence

A sequence was cut into labelled pieces and the pieces arrive in any order, any number of times.
The receiver keeps what it got in a map by label and takes elements off the front, where `head`
counts the elements taken. A piece that is taken only in part goes back under the position at
which its rest begins, so a key is a label, or it is `head`.

`Reassembles` ties the four together: the pieces, what was got, the head and the map. Its laws
are the moves a receiver makes (`insert`, `takeWhole`, `takePart`) and what it may conclude: what
is at the head is what the sequence has there, the pieces in the map do not overlap, and a map
with nothing at the head is at the end of what was got.
-/

namespace Lib

universe u

variable {α : Type u}

/-- What a receiver knows about pieces of a tiling that it got, has kept and has used up. -/
structure Reassembles (pieces got : List (Nat × List α)) (head : Nat)
    (data : SortedMap Nat (List α)) : Prop where
  tiles : Tiles 0 pieces
  got_mem : ∀ e ∈ got, e ∈ pieces
  rest : ∀ k d, (k, d) ∈ data.entries → ∃ n h d₀, (h, d₀) ∈ got ∧ k = h + n ∧ d = d₀.drop n ∧
    (n = 0 ∨ (k = head ∧ n < d₀.length))
  low : ∀ k d, (k, d) ∈ data.entries → head ≤ k
  head_le : head ≤ (joined pieces).length
  present : ∀ h d, (h, d) ∈ got → head < h + d.length →
    (max head h, d.drop (head - h)) ∈ data.entries
  used : ∀ h d, (h, d) ∈ pieces → d ≠ [] → h < head → (h, d) ∈ got

namespace Reassembles

variable {pieces got : List (Nat × List α)} {head : Nat} {data : SortedMap Nat (List α)}

theorem nothing : Reassembles ([] : List (Nat × List α)) [] 0 .empty where
  tiles := trivial
  got_mem e he := by cases he
  rest k d hm := by cases hm
  low k d hm := by cases hm
  head_le := Nat.le_refl _
  present h d hm := by cases hm
  used h d hm := by cases hm

/-- More pieces may be cut; they lie behind everything that was used up. -/
theorem grow (r : Reassembles pieces got head data) {pieces' : List (Nat × List α)}
    (hpre : pieces <+: pieces') (ht : Tiles 0 pieces') : Reassembles pieces' got head data := by
  obtain ⟨more, rfl⟩ := hpre
  have hlen : (joined pieces).length ≤ (joined (pieces ++ more)).length := by
    rw [joined_append, List.length_append]
    omega
  refine ⟨ht, fun e he => List.mem_append_left _ (r.got_mem e he), r.rest, r.low,
    Nat.le_trans r.head_le hlen, r.present, ?_⟩
  intro h d hm hd hlt
  rcases List.mem_append.mp hm with hm | hm
  · exact r.used h d hm hd hlt
  · have hle := ht.le_of_append hm
    have := r.head_le
    omega

/-- What is kept is what the sequence has at its key. -/
theorem prefix_drop (r : Reassembles pieces got head data) {k : Nat} {d : List α}
    (hm : (k, d) ∈ data.entries) :
    d <+: (joined pieces).drop k ∧ k + d.length ≤ (joined pieces).length := by
  obtain ⟨n, h, d₀, hgot, rfl, rfl, hn⟩ := r.rest k d hm
  obtain ⟨-, hend, hpre⟩ := r.tiles.prefix_drop (r.got_mem _ hgot)
  have hle : n ≤ d₀.length := by omega
  rw [Nat.sub_zero] at hpre
  refine ⟨drop_prefix_drop hpre hle, ?_⟩
  rw [List.length_drop]
  omega

/-- Of two kept pieces, the one with the smaller key ends where the other begins, or before. -/
theorem end_le (r : Reassembles pieces got head data) {k₁ k₂ : Nat} {d₁ d₂ : List α}
    (m₁ : (k₁, d₁) ∈ data.entries) (m₂ : (k₂, d₂) ∈ data.entries) (hlt : k₁ < k₂) :
    k₁ + d₁.length ≤ k₂ := by
  obtain ⟨n₁, h₁, e₁, g₁, rfl, rfl, hn₁⟩ := r.rest _ _ m₁
  obtain ⟨n₂, h₂, e₂, g₂, rfl, rfl, hn₂⟩ := r.rest _ _ m₂
  have hlow := r.low _ _ m₁
  -- the larger key is not the head, so it is a label
  have hzero : n₂ = 0 := by omega
  have hle := r.tiles.end_le (r.got_mem _ g₁) (r.got_mem _ g₂) (by omega)
  rw [List.length_drop]
  omega

/-! ## Moves -/

/-- A piece that lies at or past the head and is not kept yet is put in. -/
theorem insert (r : Reassembles pieces got head data) {h : Nat} {d : List α}
    (hm : (h, d) ∈ pieces) (hle : head ≤ h) (hnew : h ∉ data.keys) :
    Reassembles pieces (got ++ [(h, d)]) head (data.emplace h d) := by
  refine ⟨r.tiles, ?_, ?_, ?_, r.head_le, ?_, ?_⟩
  · intro e he
    rcases List.mem_append.mp he with he | he
    · exact r.got_mem e he
    · rw [List.mem_singleton.mp he]
      exact hm
  · intro k x hx
    rcases SortedMap.mem_emplace.mp hx with hx | ⟨heq, _⟩
    · obtain ⟨n, h₀, d₀, hg, hrest⟩ := r.rest k x hx
      exact ⟨n, h₀, d₀, List.mem_append_left _ hg, hrest⟩
    · cases heq
      exact ⟨0, h, d, by simp, rfl, rfl, .inl rfl⟩
  · intro k x hx
    rcases SortedMap.mem_emplace.mp hx with hx | ⟨heq, _⟩
    · exact r.low k x hx
    · cases heq
      exact hle
  · intro k x hx hlt
    rcases List.mem_append.mp hx with hx | hx
    · exact SortedMap.mem_emplace.mpr (.inl (r.present k x hx hlt))
    · cases List.mem_singleton.mp hx
      rw [Nat.max_eq_right hle, Nat.sub_eq_zero_of_le hle]
      exact SortedMap.mem_emplace.mpr (.inr ⟨rfl, hnew⟩)
  · intro k x hx hne hlt
    exact List.mem_append_left _ (r.used k x hx hne hlt)

/-- A piece whose label lies between the head and the end of what is kept there was got. -/
theorem used_of_lt (r : Reassembles pieces got head data) {top : List α}
    (hf : data.first? = some (head, top)) {m : Nat} (hle : m ≤ top.length) {h : Nat} {d : List α}
    (hm : (h, d) ∈ pieces) (hd : d ≠ []) (hlt : h < head + m) : (h, d) ∈ got := by
  by_cases hbelow : h < head
  · exact r.used h d hm hd hbelow
  · obtain ⟨n, h₀, d₀, hg, hk, rfl, hn⟩ := r.rest _ _ (SortedMap.first?_mem hf)
    rw [List.length_drop] at hle
    have hmem₀ := r.got_mem _ hg
    have heq : h₀ = h := by
      by_contra hne
      have := r.tiles.end_le hmem₀ hm (by omega)
      omega
    subst heq
    have hd₀ : d₀ ≠ [] := by
      rintro rfl
      simp only [List.length_nil] at hle
      omega
    rw [r.tiles.eq_of_label hm hmem₀ hd hd₀]
    exact hg

/-- The first kept piece, when it lies at the head, is taken as a whole. -/
theorem takeWhole (r : Reassembles pieces got head data) {top : List α}
    (hf : data.first? = some (head, top)) :
    Reassembles pieces got (head + top.length) data.eraseFirst := by
  have hmem := SortedMap.first?_mem hf
  have hafter : ∀ k d, (k, d) ∈ data.eraseFirst.entries → head + top.length ≤ k := by
    intro k d hm
    have hlt : head < k := SortedMap.lt_of_mem_eraseFirst hf hm
    exact r.end_le hmem (SortedMap.mem_eraseFirst hm) hlt
  refine ⟨r.tiles, r.got_mem, ?_, hafter, (r.prefix_drop hmem).2, ?_, ?_⟩
  · intro k d hm
    have hlt : head < k := SortedMap.lt_of_mem_eraseFirst hf hm
    obtain ⟨n, h, d₀, hg, hk, hd, hn⟩ := r.rest k d (SortedMap.mem_eraseFirst hm)
    exact ⟨n, h, d₀, hg, hk, hd, .inl (by omega)⟩
  · intro h d hg hlt
    have hold := r.present h d hg (by omega)
    by_cases hh : h ≤ head
    · -- then it is the piece that was taken, and ends at the new head
      rw [Nat.max_eq_left hh] at hold
      have heq := SortedMap.eq_of_mem hold hmem
      have := congrArg List.length heq
      rw [List.length_drop] at this
      omega
    · rw [Nat.max_eq_right (by omega), Nat.sub_eq_zero_of_le (by omega)] at hold
      have hkept : (h, d.drop 0) ∈ data.eraseFirst.entries := by
        refine (SortedMap.mem_eraseFirst_iff hf).mpr ⟨hold, fun heq => ?_⟩
        have := congrArg Prod.fst heq
        simp only at this
        omega
      have := hafter _ _ hkept
      rw [Nat.max_eq_right this, Nat.sub_eq_zero_of_le this]
      exact hkept
  · intro h d hm hd hlt
    exact r.used_of_lt hf (Nat.le_refl _) hm hd hlt

/-- The front of the first kept piece is taken, and the rest goes back under the new head. -/
theorem takePart (r : Reassembles pieces got head data) {top : List α}
    (hf : data.first? = some (head, top)) {m : Nat} (hlt : m < top.length) :
    Reassembles pieces got (head + m) (data.eraseFirst.emplace (head + m) (top.drop m)) := by
  have hmem := SortedMap.first?_mem hf
  obtain ⟨hpre, hend⟩ := r.prefix_drop hmem
  have hafter : ∀ k d, (k, d) ∈ data.eraseFirst.entries → head + top.length ≤ k := by
    intro k d hm
    have hlt : head < k := SortedMap.lt_of_mem_eraseFirst hf hm
    exact r.end_le hmem (SortedMap.mem_eraseFirst hm) hlt
  have hnew : head + m ∉ data.eraseFirst.keys := by
    intro hk
    obtain ⟨d, hd⟩ := SortedMap.mem_keys.mp hk
    have := hafter _ _ hd
    omega
  refine ⟨r.tiles, r.got_mem, ?_, ?_, by omega, ?_, ?_⟩
  · intro k d hm
    rcases SortedMap.mem_emplace.mp hm with hm | ⟨heq, _⟩
    · have hlt : head < k := SortedMap.lt_of_mem_eraseFirst hf hm
      obtain ⟨n, h, d₀, hg, hk, hd, hn⟩ := r.rest k d (SortedMap.mem_eraseFirst hm)
      exact ⟨n, h, d₀, hg, hk, hd, .inl (by omega)⟩
    · cases heq
      obtain ⟨n, h, d₀, hg, hk, rfl, hn⟩ := r.rest _ _ hmem
      rw [List.length_drop] at hlt
      refine ⟨n + m, h, d₀, hg, by omega, by rw [List.drop_drop], .inr ⟨rfl, by omega⟩⟩
  · intro k d hm
    rcases SortedMap.mem_emplace.mp hm with hm | ⟨heq, _⟩
    · have := hafter k d hm
      omega
    · cases heq
      exact Nat.le_refl _
  · intro h d hg hlt'
    have hold := r.present h d hg (by omega)
    by_cases hh : h ≤ head
    · rw [Nat.max_eq_left hh] at hold
      have heq := SortedMap.eq_of_mem hold hmem
      have hsplit : head + m - h = head - h + m := by omega
      rw [Nat.max_eq_left (by omega), hsplit, ← List.drop_drop, heq]
      exact SortedMap.mem_emplace.mpr (.inr ⟨rfl, hnew⟩)
    · rw [Nat.max_eq_right (by omega), Nat.sub_eq_zero_of_le (by omega)] at hold
      have hkept : (h, d.drop 0) ∈ data.eraseFirst.entries := by
        refine (SortedMap.mem_eraseFirst_iff hf).mpr ⟨hold, fun heq => ?_⟩
        have := congrArg Prod.fst heq
        simp only at this
        omega
      have := hafter _ _ hkept
      rw [Nat.max_eq_right (by omega), Nat.sub_eq_zero_of_le (by omega)]
      exact SortedMap.mem_emplace.mpr (.inl hkept)
  · intro h d hm hd hlt'
    exact r.used_of_lt hf (Nat.le_of_lt hlt) hm hd hlt'

/-! ## Conclusions -/

/-- A label that is below the head, or a key, is the label of a piece that was got. -/
theorem got_of_known (r : Reassembles pieces got head data) {h : Nat} {d : List α}
    (hm : (h, d) ∈ pieces) (hd : d ≠ []) (hne : ∀ e ∈ got, e.2 ≠ [])
    (known : h < head ∨ h ∈ data.keys) : (h, d) ∈ got := by
  rcases known with hlt | hk
  · exact r.used h d hm hd hlt
  · obtain ⟨x, hx⟩ := SortedMap.mem_keys.mp hk
    obtain ⟨n, h₀, d₀, hg, hk, _, hn⟩ := r.rest h x hx
    have hmem₀ := r.got_mem _ hg
    have hzero : n = 0 := by
      by_contra hpos
      have := r.tiles.end_le hmem₀ hm (by omega)
      omega
    rw [hzero, Nat.add_zero] at hk
    subst hk
    rw [r.tiles.eq_of_label hm hmem₀ hd (hne _ hg)]
    exact hg

/-- When every piece was got and none lies at the head, the head is the end. -/
theorem head_eq_of_got (r : Reassembles pieces got head data)
    (hall : ∀ h d, (h, d) ∈ pieces → d ≠ [] → (h, d) ∈ got)
    (hnone : ∀ top, data.first? ≠ some (head, top)) : head = (joined pieces).length := by
  by_contra hne
  have hle := r.head_le
  obtain ⟨h, d, hm, hh, hlt⟩ := r.tiles.cover (Nat.zero_le head) (by omega)
  have hd : d ≠ [] := by
    rintro rfl
    simp only [List.length_nil] at hlt
    omega
  have hat := r.present h d (hall h d hm hd) hlt
  rw [Nat.max_eq_left hh] at hat
  cases hf : data.first? with
  | none =>
    rw [SortedMap.first?_eq_none.mp hf] at hat
    cases hat
  | some e =>
    have hle₁ : e.1 ≤ head := SortedMap.first?_le hf hat
    have hle₂ : head ≤ e.1 := r.low e.1 e.2 (SortedMap.first?_mem hf)
    exact hnone e.2 (by rw [hf, Nat.le_antisymm hle₂ hle₁])

/-- What is kept fits between the head and the end of the pieces. -/
theorem kept_le (r : Reassembles pieces got head data) :
    head + (data.entries.map fun e => e.2.length).sum ≤ (joined pieces).length := by
  have hspread : ∀ (l : List (Nat × List α)) (start : Nat),
      start ≤ (joined pieces).length → l.Pairwise (fun x y => x.1 + x.2.length ≤ y.1) →
      (∀ e ∈ l, start ≤ e.1 ∧ e.1 + e.2.length ≤ (joined pieces).length) →
      start + (l.map fun e => e.2.length).sum ≤ (joined pieces).length := by
    intro l
    induction l with
    | nil =>
      intro start hs _ _
      simpa using hs
    | cons e l ih =>
      intro start _ hpair hin
      obtain ⟨hhead, htail⟩ := List.pairwise_cons.mp hpair
      obtain ⟨hge, hend⟩ := hin e List.mem_cons_self
      have := ih (e.1 + e.2.length) hend htail fun x hx =>
        ⟨hhead x hx, (hin x (List.mem_cons_of_mem _ hx)).2⟩
      simp only [List.map_cons, List.sum_cons]
      omega
  refine hspread data.entries head r.head_le ?_ fun e he =>
    ⟨r.low e.1 e.2 he, (r.prefix_drop he).2⟩
  exact data.sorted.imp_of_mem fun hx hy hlt => r.end_le hx hy hlt

end Reassembles

end Lib
