import Tubus.Laws.Discipline

/-!
# Letting go of a TCP channel

When the last owner lets go, the queues are destroyed and the operations under way complete with an
error. Each completion finds the channel gone and calls its own handler, no other one. So the
handlers of the tasks that were still waiting behind the first one are never called
(`released_answered_iff`).
-/

namespace Tubus.Tcp

open Lib

namespace Lane

variable {κ : Type} {l l' l₀ : Lane κ}

/-- Each handler was called at least as often as it was handed in. -/
def Answered (l : Lane κ) : Prop :=
  ∀ h, (l.accepted.map Task.callback).count h ≤ (l.calls.map Call.callback).count h

/-- An operation completes on a channel that is gone. -/
def finish (place : Nat) (t : Task) (ec : Ec) (count : Nat) (l : Lane κ) : Lane κ :=
  { l with outstanding := l.outstanding.eraseIdx place }.call t ec count

/-- A direction on its way from the state in which it was let go: the handlers called and those of
the operations under way are the ones of the tasks that were handed to the stream. -/
structure Leaving (l₀ l : Lane κ) : Prop where
  accepted : l.accepted = l₀.accepted
  outstanding : l.outstanding.length ≤ 1
  calls : l.calls.map Call.callback ++ l.outstanding.map (fun op => op.2.callback) =
    l₀.started.map Task.callback

theorem Lined.leaving (h : l.Lined) (hturn : l.InTurn) : l.Leaving { l with queue := [] } := by
  obtain ⟨left, -, hstarted, hcalls⟩ := hturn
  have houtstanding := h.outstanding
  refine ⟨rfl, ?_, ?_⟩
  · have hlen := congrArg List.length houtstanding
    rw [List.length_map, List.length_take] at hlen
    exact hlen ▸ Nat.min_le_left _ _
  · have hfirst := congrArg (List.map Task.callback) houtstanding
    rw [List.map_map] at hfirst
    rw [hstarted, List.map_append, ← hcalls, ← hfirst]
    rfl

theorem Leaving.finish (h : l₀.Leaving l) {place : Nat} {kind : κ} {t : Task}
    (hplace : l.outstanding[place]? = some (kind, t)) (ec : Ec) (count : Nat) :
    l₀.Leaving (l.finish place t ec count) := by
  have hsingle : l.outstanding = [(kind, t)] ∧ place = 0 := by
    have hlen := h.outstanding
    obtain ⟨hlt, hget⟩ := List.getElem?_eq_some_iff.mp hplace
    have hzero : place = 0 := by omega
    subst hzero
    obtain ⟨op, hop⟩ := List.length_eq_one_iff.mp (by omega : l.outstanding.length = 1)
    simp_all
  obtain ⟨hsingle, rfl⟩ := hsingle
  have hcalls := h.calls
  rw [hsingle] at hcalls
  refine ⟨h.accepted, ?_, ?_⟩
  · simp [Lane.finish, call, hsingle]
  · simpa [Lane.finish, call, hsingle] using hcalls

/-- Once nothing is under way, all handlers have been called exactly if at most one task was in
the queue. -/
theorem Leaving.answered_iff (h : l₀.Leaving l) (hturn : l₀.InTurn) (hnone : l.outstanding = []) :
    l.Answered ↔ l₀.queue.length ≤ 1 := by
  obtain ⟨left, haccepted, hstarted, -⟩ := hturn
  have hcalls : l.calls.map Call.callback = (left ++ l₀.queue.take 1).map Task.callback := by
    have hcalls := h.calls
    rwa [hnone, List.map_nil, List.append_nil, hstarted] at hcalls
  unfold Answered
  rw [h.accepted, haccepted, hcalls]
  constructor
  · intro hcount
    have hsub := List.subperm_ext_iff.mpr fun x _ => hcount x
    have hle := hsub.length_le
    simp only [List.length_map, List.length_append, List.length_take] at hle
    omega
  · intro hle h
    rw [List.take_of_length_le hle]

end Lane

namespace Transport

/-- No operation of the stream is under way. -/
def Drained (x : Transport) : Prop := x.reads.outstanding = [] ∧ x.writes.outstanding = []

/-- What a step does to a channel that is gone. -/
theorem step_gone {e : Endian} {q : Qos} {x x' : Transport} {ev : Event} (hgone : x.alive = false)
    (hstep : x.step e q ev = some x') :
    x'.alive = false ∧
      ((x'.writes = x.writes ∧ ∃ place kind t ec count,
          x.reads.outstanding[place]? = some (kind, t) ∧
          x'.reads = x.reads.finish place t ec count) ∨
        (x'.reads = x.reads ∧ ∃ place head t ec count,
          x.writes.outstanding[place]? = some (head, t) ∧
          x'.writes = x.writes.finish place t ec count)) := by
  have hthere : x.alive ≠ true := Bool.eq_false_iff.mp hgone
  obtain ⟨hx, -⟩ | ⟨_, _, -, hx, -⟩ | ⟨_, _, _, _, _, -, hx, -⟩ |
    ⟨place, kind, t, stream, ec, count, hplace, rfl⟩ |
    ⟨place, head, t, salt, ec, count, hplace, rfl⟩ | ⟨hx, -⟩ := step_cases hstep
  · exact absurd hx hthere
  · exact absurd hx hthere
  · exact absurd hx hthere
  · rw [readDone_gone hgone]
    exact ⟨hgone, .inl ⟨rfl, place, kind, t, ec, count, hplace, rfl⟩⟩
  · rw [writeDone_gone hgone]
    exact ⟨hgone, .inr ⟨rfl, place, head, t, ec, count, hplace, rfl⟩⟩
  · exact absurd hx hthere

/-- A channel on its way from the state in which it was let go. -/
structure Leaving (x₀ x : Transport) : Prop where
  gone : x.alive = false
  reads : x₀.reads.Leaving x.reads
  writes : x₀.writes.Leaving x.writes

theorem Lined.leaving {x : Transport} (h : x.Lined) : x.Leaving x.destroy :=
  ⟨rfl, h.reads.leaving h.readsTurn, h.writes.leaving h.writesTurn⟩

theorem Leaving.step {e : Endian} {q : Qos} {x₀ x x' : Transport} {ev : Event}
    (h : x₀.Leaving x) (hstep : x.step e q ev = some x') : x₀.Leaving x' := by
  obtain ⟨hgone, ⟨hsame, _, _, _, _, _, hplace, heq⟩ | ⟨hsame, _, _, _, _, _, hplace, heq⟩⟩ :=
    step_gone h.gone hstep
  · exact ⟨hgone, heq ▸ h.reads.finish hplace _ _, hsame ▸ h.writes⟩
  · exact ⟨hgone, hsame ▸ h.reads, heq ▸ h.writes.finish hplace _ _⟩

theorem Leaving.run {e : Endian} {q : Qos} {secret : UInt64} {x₀ x x' : Transport}
    {evs : List Event} (h : x₀.Leaving x) (hrun : (system e q secret).run x evs = some x') :
    x₀.Leaving x' :=
  System.run_keeps evs (fun _ _ _ _ h hstep => h.step hstep) h hrun

/-- Is the event the failure of an operation of the stream? -/
def Fails : Event → Prop
  | .readDone _ ec _ | .writeDone _ _ ec _ => ec ≠ .success
  | .socket _ | .read _ _ | .write _ _ _ | .destroy => False

/-- How many operations are under way. -/
def pending (x : Transport) : Nat := x.reads.outstanding.length + x.writes.outstanding.length

theorem drained_of_pending {x : Transport} (h : x.pending = 0) : x.Drained := by
  obtain ⟨hreads, hwrites⟩ := Nat.add_eq_zero_iff.mp h
  exact ⟨List.length_eq_zero_iff.mp hreads, List.length_eq_zero_iff.mp hwrites⟩

/-- An operation that is under way can fail, and then there is one less. -/
theorem fails_of_pending (e : Endian) (q : Qos) {x : Transport} {ec : Ec} (hec : ec ≠ .success)
    (hgone : x.alive = false) (hpending : x.pending ≠ 0) :
    ∃ ev x', Fails ev ∧ x.step e q ev = some x' ∧ x'.pending < x.pending := by
  unfold pending at hpending ⊢
  cases hreads : x.reads.outstanding with
  | cons op rest =>
    obtain ⟨kind, t⟩ := op
    have hstep : (x.step e q (.readDone 0 ec [])).isSome = true := by
      simp [step, hreads]
    obtain ⟨x', hx'⟩ := Option.isSome_iff_exists.mp hstep
    refine ⟨.readDone 0 ec [], x', hec, hx', ?_⟩
    simp only [step, hreads, List.getElem?_cons_zero, Option.some.injEq] at hx'
    subst hx'
    simp [readDone, hgone, Lane.call]
  | nil =>
    cases hwrites : x.writes.outstanding with
    | nil =>
      rw [hreads, hwrites] at hpending
      exact absurd rfl hpending
    | cons op rest =>
      obtain ⟨head, t⟩ := op
      have hstep : (x.step e q (.writeDone 0 0 ec 0)).isSome = true := by
        simp [step, hwrites]
      obtain ⟨x', hx'⟩ := Option.isSome_iff_exists.mp hstep
      refine ⟨.writeDone 0 0 ec 0, x', hec, hx', ?_⟩
      simp only [step, hwrites, List.getElem?_cons_zero, Option.some.injEq] at hx'
      subst hx'
      simp [writeDone, hgone, hreads, Lane.call]

/-- The operations under way can all fail, and then there are none. -/
theorem Leaving.drains (e : Endian) (q : Qos) (secret : UInt64) {x₀ x : Transport}
    (h : x₀.Leaving x) {ec : Ec} (hec : ec ≠ .success) :
    ∃ evs x', (∀ ev ∈ evs, Fails ev) ∧ (system e q secret).run x evs = some x' ∧ x'.Drained := by
  induction hn : x.pending using Nat.strong_induction_on generalizing x with
  | _ n ih =>
    by_cases hpending : x.pending = 0
    · have hdrained := drained_of_pending hpending
      exact ⟨[], x, fun _ hev => absurd hev List.not_mem_nil, rfl, hdrained⟩
    · obtain ⟨ev, y, hfails, hstep, hlt⟩ := fails_of_pending e q hec h.gone hpending
      obtain ⟨evs, x', hall, hrun, hdrained⟩ := ih y.pending (hn ▸ hlt) (h.step hstep) rfl
      refine ⟨ev :: evs, x', List.forall_mem_cons.mpr ⟨hfails, hall⟩, ?_, hdrained⟩
      rw [System.run, show (system e q secret).step x ev = some y from hstep]
      exact hrun

/-- Let the last owner of a channel let go, at any moment. The operations under way can fail, and
whatever they complete with, when none is left the handlers of all calls that were taken have been
called exactly if at most one task was in either queue at that moment. -/
theorem released_answered_iff {e : Endian} {q : Qos} {secret : UInt64} {x : Transport}
    (h : (system e q secret).Reachable x) (halive : x.alive = true) :
    (∃ evs x', (∀ ev ∈ evs, Fails ev) ∧
        (system e q secret).run x (.destroy :: evs) = some x' ∧ x'.Drained) ∧
      ∀ evs x', (system e q secret).run x (.destroy :: evs) = some x' → x'.Drained →
        (x'.reads.Answered ∧ x'.writes.Answered ↔
          x.reads.queue.length ≤ 1 ∧ x.writes.queue.length ≤ 1) := by
  have hlined := lined h halive
  have hdestroy : (system e q secret).step x .destroy = some x.destroy := if_pos halive
  refine ⟨?_, ?_⟩
  · obtain ⟨evs, x', hfails, hrun, hdrained⟩ :=
      hlined.leaving.drains e q secret (show Ec.interrupted ≠ .success from nofun)
    refine ⟨evs, x', hfails, ?_, hdrained⟩
    rw [System.run, hdestroy]
    exact hrun
  · intro evs x' hrun hdrained
    rw [System.run, hdestroy] at hrun
    have hleaving := hlined.leaving.run hrun
    rw [hleaving.reads.answered_iff hlined.readsTurn hdrained.1,
      hleaving.writes.answered_iff hlined.writesTurn hdrained.2]

/-- A read is under way when the channel is let go, and its handler is called. -/
theorem released_answered_one :
    ∃ x x', (system .little four 0).Reachable x ∧ x.reads.queue.length = 1 ∧
      (system .little four 0).run x [.destroy, .readDone 0 (.system 125) []] = some x' ∧
      x'.reads.Answered ∧ x'.writes.Answered := by
  have hrun : ((system .little four 0).run (create 0) [.socket true, .read [0] 1]).bind (fun x =>
      ((system .little four 0).run x [.destroy, .readDone 0 (.system 125) []]).map fun x' =>
        (x.alive, x.reads.queue.length, x.writes.queue.length, x'.pending)) =
      some (true, 1, 0, 0) := by decide
  obtain ⟨x, hx, hnext⟩ := Option.bind_eq_some_iff.mp hrun
  obtain ⟨x', hx', hv⟩ := Option.map_eq_some_iff.mp hnext
  simp only [Prod.mk.injEq] at hv
  obtain ⟨halive, hreads, hwrites, hpending⟩ := hv
  have hreached := System.reachable_of_run _ rfl hx
  have hdrained := drained_of_pending hpending
  have hiff := (released_answered_iff hreached halive).2 _ x' hx' hdrained
  exact ⟨x, x', hreached, hreads, hx', hiff.mpr ⟨hreads.le, hwrites.le.trans (Nat.zero_le 1)⟩⟩

/-- Of two queued reads the second one is never called back. -/
theorem waiting_swallowed :
    ¬ ∀ (q : Qos) (x x' : Transport) (evs : List Event), (system .little q 0).Reachable x →
      (∀ ev ∈ evs, Fails ev) → (system .little q 0).run x (.destroy :: evs) = some x' →
      x'.Drained → x'.reads.Answered ∧ x'.writes.Answered := by
  intro hall
  have hrun : ((system .little four 0).run (create 0)
      [.socket true, .read [0] 1, .read [0] 2]).bind (fun x =>
        ((system .little four 0).run x [.destroy, .readDone 0 (.system 125) []]).map fun x' =>
          (x'.pending, x'.reads.accepted, x'.reads.calls)) =
      some (0, [⟨[0], 1⟩, ⟨[0], 2⟩], [⟨1, .system 125, 0⟩]) := by decide
  obtain ⟨x, hx, hnext⟩ := Option.bind_eq_some_iff.mp hrun
  obtain ⟨x', hx', hv⟩ := Option.map_eq_some_iff.mp hnext
  simp only [Prod.mk.injEq] at hv
  obtain ⟨hpending, haccepted, hcalls⟩ := hv
  have hdrained := drained_of_pending hpending
  have hfails : ∀ ev ∈ [Event.readDone 0 (.system 125) []], Fails ev :=
    List.forall_mem_singleton.mpr nofun
  have hanswered := hall four x x' _ (System.reachable_of_run _ rfl hx) hfails hx' hdrained
  have hsecond := hanswered.1 2
  rw [haccepted, hcalls] at hsecond
  revert hsecond
  decide

end Transport

end Tubus.Tcp
