import Mathlib.Logic.Basic

/-!
# Code under a mutex

A mutex that is not recursive: code that takes it while it holds it waits for itself and never goes
on. A piece of code is told whether the mutex is held around it, and changes a state; `locked` takes
the mutex for the piece it runs and gives it back where that piece returns, as a scoped lock does.

`Code.Keeps` is the rule for invariants: what each piece keeps, code put together from the pieces
keeps, also in the state in which it comes to wait.
-/

namespace Lib

universe u v w

/-- How code ends: it returns, it waits for the mutex that it holds, or it throws. -/
inductive Ending (σ : Type u) (α : Type v) where
  | returns (a : α) (s : σ)
  | blocks (s : σ)
  | throws
  deriving DecidableEq, Repr

/-- What holds of the state that code leaves, if it leaves one. -/
def Ending.All {σ : Type u} {α : Type v} (P : σ → Prop) : Ending σ α → Prop
  | .returns _ s => P s
  | .blocks s => P s
  | .throws => True

/-- Code over a state, given whether the mutex is held around it. -/
def Code (σ : Type u) (α : Type v) := Bool → σ → Ending σ α

namespace Code

variable {σ : Type u} {α : Type v} {β : Type w}

/-- One piece after the other. -/
def andThen (c : Code σ α) (f : α → Code σ β) : Code σ β := fun held s =>
  match c held s with
  | .returns a s' => f a held s'
  | .blocks s' => .blocks s'
  | .throws => .throws

instance : Monad (Code.{u, v} σ) where
  pure a := fun _ s => .returns a s
  bind := andThen

/-- Look at the state. -/
def look (f : σ → α) : Code σ α := fun _ s => .returns (f s) s

/-- Change the state. -/
def update (f : σ → σ) : Code σ Unit := fun _ s => .returns () (f s)

/-- Change the state, or throw. -/
def attempt (f : σ → Option σ) : Code σ Unit := fun _ s =>
  match f s with
  | some s' => .returns () s'
  | none => .throws

/-- Take the mutex for a piece of code. -/
def locked (c : Code σ α) : Code σ α := fun held s => if held then .blocks s else c true s

/-! ## How pieces run -/

variable {c : Code σ α} {held : Bool} {s s' : σ}

@[simp] theorem look_run (f : σ → α) : look f held s = .returns (f s) s := rfl

@[simp] theorem locked_free (c : Code σ α) : c.locked false s = c true s := rfl

theorem attempt_some {f : σ → Option σ} (h : f s = some s') :
    attempt f held s = .returns () s' := by
  simp only [attempt, h]

theorem attempt_none {f : σ → Option σ} (h : f s = none) : attempt f held s = .throws := by
  simp only [attempt, h]

variable {α : Type v} {β : Type v} {c : Code σ α} {f : α → Code σ β}

theorem bind_returns {a : α} (h : c held s = .returns a s') : (c >>= f) held s = f a held s' := by
  show c.andThen f held s = f a held s'
  simp only [andThen, h]

theorem bind_blocks (h : c held s = .blocks s') : (c >>= f) held s = .blocks s' := by
  show c.andThen f held s = .blocks s'
  simp only [andThen, h]

theorem bind_throws (h : c held s = .throws) : (c >>= f) held s = .throws := by
  show c.andThen f held s = .throws
  simp only [andThen, h]

/-! ## What code keeps -/

/-- Code keeps a property of the state, however it ends. -/
def Keeps (P : σ → Prop) (c : Code σ α) : Prop := ∀ held s, P s → (c held s).All P

variable {P : σ → Prop}

theorem Keeps.pure (a : α) : Keeps P (Pure.pure a : Code σ α) := fun _ _ h => h

theorem Keeps.look (f : σ → α) : Keeps P (look f) := fun _ _ h => h

theorem Keeps.update {f : σ → σ} (h : ∀ s, P s → P (f s)) : Keeps P (update f) :=
  fun _ s hs => h s hs

theorem Keeps.attempt {f : σ → Option σ} (h : ∀ s s', P s → f s = some s' → P s') :
    Keeps P (attempt f) := by
  intro held s hs
  cases hf : f s with
  | some s' =>
    rw [attempt_some hf]
    exact h s s' hs hf
  | none =>
    rw [attempt_none hf]
    trivial

theorem Keeps.bind (hc : c.Keeps P) (hf : ∀ a, (f a).Keeps P) : (c >>= f).Keeps P := by
  intro held s hs
  have hall := hc held s hs
  cases hrun : c held s with
  | returns a s' =>
    rw [hrun] at hall
    exact bind_returns hrun ▸ hf a held s' hall
  | blocks s' =>
    rw [hrun] at hall
    exact bind_blocks (f := f) hrun ▸ hall
  | throws => exact bind_throws (f := f) hrun ▸ trivial

theorem Keeps.locked (hc : c.Keeps P) : c.locked.Keeps P := by
  intro held s hs
  cases held with
  | true => exact hs
  | false => exact hc true s hs

theorem Keeps.ite {p : Prop} [Decidable p] {d : Code σ α} (hc : p → c.Keeps P)
    (hd : ¬ p → d.Keeps P) : (if p then c else d).Keeps P := by
  split
  · next hp => exact hc hp
  · next hp => exact hd hp

end Code

end Lib
