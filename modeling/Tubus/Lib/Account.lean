import Mathlib.Algebra.BigOperators.Group.List.Basic
import Mathlib.Algebra.Ring.Nat
import Tubus.Lib.System

/-!
# Accounts over a run

A bound on how often something happens in a run, by an account: some events pay into it, and others
are paid for out of it. If no step leaves more in the account than it finds, gets and does not pay,
then what a whole run pays for is covered by what was there and what the run pays in.
-/

namespace Lib

universe u v

namespace System

variable {σ : Type u} {ε : Type v} {S : System σ ε} {ok : σ → ε → Prop} {s s' : σ} {es : List ε}

/-- A run of allowed steps, with its events. -/
inductive Runs (S : System σ ε) (ok : σ → ε → Prop) : σ → List ε → σ → Prop where
  | nil {s : σ} : S.Runs ok s [] s
  | cons {s m s' : σ} {e : ε} {es : List ε} (allowed : ok s e) (goes : S.step s e = some m)
      (rest : S.Runs ok m es s') : S.Runs ok s (e :: es) s'

/-- A run of allowed steps stays in what is reached. -/
theorem Runs.reaches (h : S.Runs ok s es s') (hs : S.Reaches ok s) : S.Reaches ok s' := by
  induction h with
  | nil => exact hs
  | cons allowed goes _ ih => exact ih (.next hs allowed goes)

/-- A checked run is a run under the condition that the test decides. -/
theorem Runs.checked {test : σ → ε → Bool} (sound : ∀ s e, test s e = true → ok s e)
    (hrun : S.checked test s es = some s') : S.Runs ok s es s' := by
  induction es generalizing s with
  | nil =>
    cases hrun
    exact .nil
  | cons e es ih =>
    obtain ⟨htest, hrun⟩ := Option.ite_none_right_eq_some.mp hrun
    obtain ⟨m, hm, hrest⟩ := Option.bind_eq_some_iff.mp hrun
    exact .cons (sound s e htest) hm (ih hrest)

/-- What no step overdraws, no run does. -/
theorem Runs.account (held : σ → Nat) (spent paid : ε → Nat)
    (step : ∀ s e s', S.Reaches ok s → ok s e → S.step s e = some s' →
      spent e + held s' ≤ held s + paid e)
    (hs : S.Reaches ok s) (h : S.Runs ok s es s') :
    (es.map spent).sum + held s' ≤ held s + (es.map paid).sum := by
  induction h with
  | nil => exact Nat.le_of_eq (Nat.zero_add _)
  | cons allowed goes _ ih =>
    have hstep := step _ _ _ hs allowed goes
    have hrest := ih (.next hs allowed goes)
    rw [List.map_cons, List.sum_cons, List.map_cons, List.sum_cons]
    omega

end System

end Lib
