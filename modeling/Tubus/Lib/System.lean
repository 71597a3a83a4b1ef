import Mathlib.Logic.Basic

/-!
# Transition systems

A system is a set of initial states and a partial step function: `none` says that the event
is not possible in that state. Runs are event lists.

Every law about runs goes through two rules. `Reaches.invariant` turns "true at the start and
kept by one step" into "true in every state reached". `Reaches.simulates` turns "one step here
is some steps there" into "every state reached here has a partner reached there", which is how
a concrete system borrows the invariants of a more abstract one.

`Reaches` carries a condition on the steps taken. `Reachable` is the case with no condition.
-/

namespace Lib

universe u v w

/-- Initial states and a partial step function. -/
structure System (σ : Type u) (ε : Type v) where
  init : σ → Prop
  step : σ → ε → Option σ

namespace System

variable {σ : Type u} {ε : Type v}

/-- The state after a whole list of events, if every one of them is possible. -/
def run (S : System σ ε) : σ → List ε → Option σ
  | s, [] => some s
  | s, e :: es => (S.step s e).bind fun s' => S.run s' es

/-- The states reached by steps that all meet `ok`. -/
inductive Reaches (S : System σ ε) (ok : σ → ε → Prop) : σ → Prop where
  | start {s : σ} : S.init s → S.Reaches ok s
  | next {s s' : σ} {e : ε} : S.Reaches ok s → ok s e → S.step s e = some s' → S.Reaches ok s'

/-- The states reached by any steps. -/
def Reachable (S : System σ ε) : σ → Prop := S.Reaches fun _ _ => True

/-- What holds at the start and is kept by every allowed step holds in every state reached. -/
theorem Reaches.invariant {S : System σ ε} {ok : σ → ε → Prop} {P : σ → Prop}
    (start : ∀ s, S.init s → P s)
    (next : ∀ s e s', ok s e → P s → S.step s e = some s' → P s')
    {s : σ} (h : S.Reaches ok s) : P s := by
  induction h with
  | start hs => exact start _ hs
  | next _ hok hstep ih => exact next _ _ _ hok ih hstep

/-- A weaker condition on the steps reaches at least as much. -/
theorem Reaches.mono {S : System σ ε} {ok ok' : σ → ε → Prop}
    (weaker : ∀ s e, ok s e → ok' s e) {s : σ} (h : S.Reaches ok s) : S.Reaches ok' s := by
  induction h with
  | start hs => exact .start hs
  | next _ hok hstep ih => exact .next ih (weaker _ _ hok) hstep

/-- An invariant may be proved along the condition and an invariant that is already known. -/
theorem Reaches.invariant_with {S : System σ ε} {ok : σ → ε → Prop} {I P : σ → Prop}
    (known : ∀ s, S.Reaches ok s → I s)
    (start : ∀ s, S.init s → P s)
    (next : ∀ s e s', ok s e → I s → P s → S.step s e = some s' → P s')
    {s : σ} (h : S.Reaches ok s) : P s := by
  induction h with
  | start hs => exact start _ hs
  | next hs hok hstep ih => exact next _ _ _ hok (known _ hs) ih hstep

/-- What every step with an event of the list keeps, the run of the list keeps. -/
theorem run_keeps {S : System σ ε} {P : σ → Prop} (es : List ε)
    (next : ∀ s e s', e ∈ es → P s → S.step s e = some s' → P s') {s s' : σ} (hs : P s)
    (hrun : S.run s es = some s') : P s' := by
  induction es generalizing s with
  | nil => cases hrun; exact hs
  | cons e es ih =>
    obtain ⟨m, hm, hrest⟩ := Option.bind_eq_some_iff.mp hrun
    exact ih (fun s e s' he => next s e s' (List.mem_cons_of_mem _ he))
      (next s e m List.mem_cons_self hs hm) hrest

/-- A finite run of allowed steps stays in what is reached. -/
theorem Reaches.run {S : System σ ε} {ok : σ → ε → Prop} (es : List ε) {s s' : σ}
    (h : S.Reaches ok s) (all : ∀ s e, e ∈ es → ok s e) (hrun : S.run s es = some s') :
    S.Reaches ok s' :=
  run_keeps es (fun s e _ he hs hstep => .next hs (all s e he) hstep) h hrun

/-- A run from an initial state ends in a reachable state. -/
theorem reachable_of_run {S : System σ ε} {s s' : σ} (es : List ε) (hs : S.init s)
    (hrun : S.run s es = some s') : S.Reachable s' :=
  Reaches.run es (.start hs) (fun _ _ _ => trivial) hrun

/-- A run is observed to end in a reachable state. -/
theorem exists_of_run {S : System σ ε} {β : Type w} {s : σ} (es : List ε) (hs : S.init s)
    {f : σ → β} {v : β} (hrun : (S.run s es).map f = some v) : ∃ s', S.Reachable s' ∧ f s' = v := by
  obtain ⟨s', hs', hv⟩ := Option.map_eq_some_iff.mp hrun
  exact ⟨s', reachable_of_run es hs hs', hv⟩

/-- The state after a list of events that all pass a test on the way. -/
def checked (S : System σ ε) (test : σ → ε → Bool) : σ → List ε → Option σ
  | s, [] => some s
  | s, e :: es => if test s e then (S.step s e).bind fun s' => S.checked test s' es else none

/-- A checked run stays in what is reached under the condition that the test decides. -/
theorem Reaches.checked {S : System σ ε} {ok : σ → ε → Prop} {test : σ → ε → Bool}
    (sound : ∀ s e, test s e = true → ok s e) (es : List ε) {s s' : σ} (h : S.Reaches ok s)
    (hrun : S.checked test s es = some s') : S.Reaches ok s' := by
  induction es generalizing s with
  | nil => cases hrun; exact h
  | cons e es ih =>
    obtain ⟨htest, hrun⟩ := Option.ite_none_right_eq_some.mp hrun
    obtain ⟨m, hm, hrest⟩ := Option.bind_eq_some_iff.mp hrun
    exact ih (.next h (sound s e htest) hm) hrest

variable {τ : Type u} {δ : Type v}

/-- Forward simulation: initial states have initial partners, and the partner of a state
follows each of its steps by allowed steps of its own. -/
theorem Reaches.simulates {S : System σ ε} {T : System τ δ} {okS : σ → ε → Prop}
    {okT : τ → δ → Prop} {R : σ → τ → Prop}
    (start : ∀ s, S.init s → ∃ t, T.init t ∧ R s t)
    (next : ∀ s e s' t, okS s e → R s t → T.Reaches okT t → S.step s e = some s' →
      ∃ t', T.Reaches okT t' ∧ R s' t')
    {s : σ} (h : S.Reaches okS s) : ∃ t, T.Reaches okT t ∧ R s t := by
  induction h with
  | start hs =>
    obtain ⟨t, ht, hr⟩ := start _ hs
    exact ⟨t, .start ht, hr⟩
  | next _ hok hstep ih =>
    obtain ⟨t, ht, hr⟩ := ih
    exact next _ _ _ t hok hr ht hstep

end System

end Lib
