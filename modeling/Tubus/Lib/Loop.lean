import Mathlib.Logic.Basic

/-!
# Loops

A loop is a body that is run again and again: one turn leads to the next one, to the end, or to a
throw. Loops within loops are one body over a state that says where the control stands.

`Ends` counts the turns of a loop that comes to its end, and `Passes` gives the states it passes.
`ends_of_variant` is the rule for both: what every turn keeps holds in every state passed, and a
number that every turn makes smaller brings the loop to its end without a throw.
-/

namespace Lib

universe u v

/-- What one turn leads to. -/
inductive Turn (σ : Type u) (τ : Type v) where
  | next (s : σ)
  | exit (t : τ)
  | throws
  deriving DecidableEq, Repr

namespace Turn

variable {σ : Type u} {τ : Type v} {body : σ → Turn σ τ}

/-- The loop ends with this result after so many turns. -/
inductive Ends (body : σ → Turn σ τ) : σ → Nat → τ → Prop where
  | exit {s : σ} {t : τ} : body s = .exit t → Ends body s 1 t
  | next {s s' : σ} {k : Nat} {t : τ} : body s = .next s' → Ends body s' k t →
      Ends body s (k + 1) t

/-- The loop passes a state. -/
inductive Passes (body : σ → Turn σ τ) : σ → σ → Prop where
  | here {s : σ} : Passes body s s
  | next {s s' s'' : σ} : body s = .next s' → Passes body s' s'' → Passes body s s''

/-- A loop has one end. -/
theorem Ends.unique {s : σ} {k k' : Nat} {t t' : τ} (h : Ends body s k t)
    (h' : Ends body s k' t') : k = k' ∧ t = t' := by
  induction h generalizing k' with
  | exit hexit =>
    cases h' with
    | exit hexit' =>
      rw [hexit] at hexit'
      cases hexit'
      exact ⟨rfl, rfl⟩
    | next hnext' _ =>
      rw [hexit] at hnext'
      cases hnext'
  | next hnext _ ih =>
    cases h' with
    | exit hexit' =>
      rw [hnext] at hexit'
      cases hexit'
    | next hnext' hrest' =>
      rw [hnext] at hnext'
      cases hnext'
      obtain ⟨rfl, rfl⟩ := ih hrest'
      exact ⟨rfl, rfl⟩

theorem Passes.trans {s s' s'' : σ} (h : Passes body s s') (h' : Passes body s' s'') :
    Passes body s s'' := by
  induction h with
  | here => exact h'
  | next hnext _ ih => exact .next hnext (ih h')

/-- One turn more. -/
theorem Passes.tail {s s' s'' : σ} (h : Passes body s s') (hnext : body s' = .next s'') :
    Passes body s s'' :=
  h.trans (.next hnext .here)

/-- A loop ends as it does from a state that it passes. -/
theorem Passes.ends {s s' : σ} {k : Nat} {t : τ} (h : Passes body s s') (hend : Ends body s' k t) :
    ∃ k', Ends body s k' t := by
  induction h with
  | here => exact ⟨k, hend⟩
  | next hnext _ ih =>
    obtain ⟨k', hk'⟩ := ih hend
    exact ⟨k' + 1, .next hnext hk'⟩

/-- What every turn keeps holds in every state passed. -/
theorem Passes.invariant {P : σ → Prop} (turn : ∀ s s', P s → body s = .next s' → P s')
    {s s' : σ} (h : Passes body s s') (hs : P s) : P s' := by
  induction h with
  | here => exact hs
  | next hnext _ ih => exact ih (turn _ _ hs hnext)

/-- A loop ends if each turn, from a state with the invariant, exits, or goes on with the invariant
and a smaller variant. It takes no more turns than the variant allows. -/
theorem ends_of_variant {P : σ → Prop} {Q : τ → Prop} (variant : σ → Nat)
    (turn : ∀ s, P s → (∃ t, body s = .exit t ∧ Q t) ∨
      ∃ s', body s = .next s' ∧ P s' ∧ variant s' < variant s)
    {s : σ} (hs : P s) : ∃ k t, k ≤ variant s + 1 ∧ Ends body s k t ∧ Q t := by
  induction hn : variant s using Nat.strongRecOn generalizing s with
  | ind n ih =>
    obtain ⟨t, hexit, ht⟩ | ⟨s', hnext, hs', hlt⟩ := turn s hs
    · exact ⟨1, t, by omega, .exit hexit, ht⟩
    · obtain ⟨k, t, hle, hend, ht⟩ := ih (variant s') (hn ▸ hlt) hs' rfl
      exact ⟨k + 1, t, by omega, .next hnext hend, ht⟩

end Turn

/-! ## Walks over a list -/

/-- An element that comes in a walk has had its effect at the end of the walk: until its turn it
is not too late, unless the effect is there already, and what follows leaves the effect alone. -/
theorem foldl_hits {σ : Type u} {α : Type v} {f : σ → α → σ} {P Q : σ → Prop} {l : List α} {a : α}
    (keep : ∀ s x, x ∈ l → P s → P (f s x) ∨ Q (f s x)) (stay : ∀ s x, x ∈ l → Q s → Q (f s x))
    (hit : ∀ s, P s → Q (f s a)) (hmem : a ∈ l) {s : σ} (hs : P s) : Q (l.foldl f s) := by
  have hstay : ∀ (l' : List α) s, (∀ x ∈ l', x ∈ l) → Q s → Q (l'.foldl f s) := by
    intro l'
    induction l' with
    | nil => exact fun _ _ h => h
    | cons x l' ih =>
      intro s hl h
      exact ih _ (fun y hy => hl y (List.mem_cons_of_mem _ hy))
        (stay s x (hl x List.mem_cons_self) h)
  have hall : ∀ (l' : List α) s, (∀ x ∈ l', x ∈ l) → a ∈ l' → P s → Q (l'.foldl f s) := by
    intro l'
    induction l' with
    | nil => exact fun _ _ h => absurd h List.not_mem_nil
    | cons x l' ih =>
      intro s hl ha h
      have hrest : ∀ y ∈ l', y ∈ l := fun y hy => hl y (List.mem_cons_of_mem _ hy)
      rcases List.mem_cons.mp ha with rfl | ha
      · exact hstay l' _ hrest (hit s h)
      · rcases keep s x (hl x List.mem_cons_self) h with h | h
        · exact ih _ hrest ha h
        · exact hstay l' _ hrest h
  exact hall l s (fun _ h => h) hmem hs

end Lib
