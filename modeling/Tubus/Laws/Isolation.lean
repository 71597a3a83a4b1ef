import Tubus.Laws.Connector

/-!
# Isolation

Once a channel knows its peer it takes nothing from anyone else: fragments, acknowledgements and
edges taken from then on come from packets with the peer's pin (`isolated_once_fixed`).

Before that it takes from everyone. `connector::valid` lets every pin pass while `m_remote` is
zero, and `feed` hands packets to the streamers while the channel is accepting or connecting, so
a fragment or an edge of a stranger gets in (`stranger_stored`). An acknowledgement does not:
nothing is in flight until the channel is linked.
-/

namespace Tubus.Udp

open Lib

/-- A history that grew by entries with one pin. -/
def Added {α : Type} (pin : Nat) (l l' : List (Nat × α)) : Prop :=
  ∃ new, l' = l ++ new ∧ ∀ e ∈ new, e.1 = pin

namespace Added

variable {α : Type} {pin : Nat} {l l' l'' : List (Nat × α)}

theorem refl (pin : Nat) (l : List (Nat × α)) : Added pin l l :=
  ⟨[], (List.append_nil l).symm, fun _ he => absurd he List.not_mem_nil⟩

theorem snoc (l : List (Nat × α)) (pin : Nat) (a : α) : Added pin l (l ++ [(pin, a)]) :=
  ⟨[(pin, a)], rfl, fun _ he => by rw [List.mem_singleton.mp he]⟩

theorem trans (h : Added pin l l') (h' : Added pin l' l'') : Added pin l l'' := by
  obtain ⟨a, rfl, ha⟩ := h
  obtain ⟨b, rfl, hb⟩ := h'
  refine ⟨a ++ b, List.append_assoc _ _ _, fun e he => ?_⟩
  rcases List.mem_append.mp he with he | he
  · exact ha e he
  · exact hb e he

end Added

/-! ## The streamers -/

theorem Istreamer.parse_added {q : Qos} {i i' : Istreamer} {p : Packet}
    (h : i.parse q p = some i') : Added p.pin i.stored i'.stored := by
  refine parse_induct (P := fun j => Added p.pin i.stored j.stored) ?_ ?_ ?_ h (.refl _ _)
  · intro j k d _ hj
    rcases j.store_cases q p.pin k d with ⟨heq, _⟩ | ⟨heq, _⟩ | ⟨_, _, _, _, heq⟩
    · rw [heq]
      exact hj
    · rw [heq]
      exact hj
    · rw [heq]
      exact hj.trans (.snoc _ _ _)
  · intro j v _ hj
    unfold settle
    split <;> exact hj
  · intro j j' hm hj
    cases hm <;> exact hj

theorem Istreamer.Op.added {q : Qos} {fed : Packet → Prop} {i i' : Istreamer} (h : Op q fed i i')
    {pin : Nat} (hfed : ∀ p, fed p → p.pin = pin) : Added pin i.stored i'.stored := by
  cases h with
  | init => exact .refl _ _
  | append buffer k _ h =>
    exact transmit_induct (P := fun j => Added pin i.stored j.stored)
      (fun j j' hm hj => by cases hm <;> exact hj) h (.refl _ _)
  | parse p hp h =>
    rw [← hfed p hp]
    exact parse_added h
  | imbue now resend room =>
    obtain ⟨acks, time, heq, -⟩ := i.imbue_cases now resend room
    rw [heq]
    exact .refl _ _
  | error => exact .refl _ _

theorem Ostreamer.parse_added (o : Ostreamer) (p : Packet) :
    Added p.pin o.acked (o.parse p).acked ∧ Added p.pin o.raised (o.parse p).raised := by
  refine parse_induct (P := fun o' => Added p.pin o.acked o'.acked ∧ Added p.pin o.raised o'.raised)
    ?_ ?_ ⟨.refl _ _, .refl _ _⟩
  · rintro o' h _ ⟨ha, hr⟩
    refine ⟨?_, hr⟩
    show Added p.pin o.acked (if o'.moves.contains h then o'.acked ++ [(p.pin, h)] else o'.acked)
    split
    · exact ha.trans (.snoc _ _ _)
    · exact ha
  · rintro o' v _ ⟨ha, hr⟩
    refine ⟨ha, ?_⟩
    show Added p.pin o.raised (if o'.range < v then o'.raised ++ [(p.pin, v)] else o'.raised)
    split
    · exact hr.trans (.snoc _ _ _)
    · exact hr

theorem Ostreamer.Op.added {q : Qos} {fed : Packet → Prop} {linked : Prop} {o o' : Ostreamer}
    (h : Op q fed linked o o') {pin : Nat} (hfed : ∀ p, fed p → p.pin = pin) :
    Added pin o.acked o'.acked ∧ Added pin o.raised o'.raised := by
  cases h with
  | init => exact ⟨.refl _ _, .refl _ _⟩
  | append _ buffer k =>
    unfold Ostreamer.append
    dsimp only
    split <;> exact ⟨.refl _ _, .refl _ _⟩
  | parse _ p hp =>
    rw [← hfed p hp]
    exact parse_added o p
  | imbue now resend room =>
    exact imbue_induct q now resend
      (P := fun o' _ => Added pin o.acked o'.acked ∧ Added pin o.raised o'.raised)
      (fun _ _ _ _ hstep h => by cases hstep <;> exact h) room ⟨.refl _ _, .refl _ _⟩
  | error => exact ⟨.refl _ _, .refl _ _⟩

/-- A sending half that was given nothing to send. -/
structure Ostreamer.Idle (o : Ostreamer) : Prop where
  moves : o.moves.entries = []
  data : o.buffer.data = []
  acked : o.acked = []

/-- Without writes nothing is sent, and nothing is acknowledged. -/
theorem Ostreamer.Idle.op {q : Qos} {fed : Packet → Prop} {linked : Prop} {o o' : Ostreamer}
    (idle : Idle o) (hno : ¬ linked) (h : Op q fed linked o o') : Idle o' := by
  cases h with
  | init => exact { idle with }
  | append _ buffer k _ hl => exact absurd hl hno
  | parse _ p =>
    refine parse_induct (P := Idle) ?_ (fun _ _ _ i => { i with }) idle
    intro o h _ i
    have hkeys : o.moves.contains h = false := by
      simp [SortedMap.contains, SortedMap.keys, i.moves]
    refine ⟨?_, i.data, ?_⟩
    · show (o.moves.erase h).entries = []
      simp [SortedMap.erase, i.moves]
    · show (if o.moves.contains h then o.acked ++ [(p.pin, h)] else o.acked) = []
      rw [hkeys]
      exact i.acked
  | imbue now resend room =>
    refine imbue_induct q now resend (P := fun o _ => Idle o) ?_ room idle
    intro o _ o' _ hstep i
    cases hstep with
    | again hm =>
      rw [i.moves] at hm
      cases hm
    | giveUp hm =>
      rw [i.moves] at hm
      cases hm
    | fresh hq => exact absurd i.data hq
    | echo => exact { i with }
  | error => exact ⟨rfl, rfl, idle.acked⟩

namespace Transport

variable {q : Qos} {t t₁ t₂ : Transport}

/-- The histories of a channel grew by what carries one pin. -/
structure Took (pin : Nat) (t t' : Transport) : Prop where
  stored : Added pin t.istreamer.stored t'.istreamer.stored
  acked : Added pin t.ostreamer.acked t'.ostreamer.acked
  raised : Added pin t.ostreamer.raised t'.ostreamer.raised

theorem Took.trans {pin : Nat} {t t' t'' : Transport} (h : Took pin t t') (h' : Took pin t' t'') :
    Took pin t t'' :=
  ⟨h.stored.trans h'.stored, h.acked.trans h'.acked, h.raised.trans h'.raised⟩

/-- What an event adds to the histories comes from the packet it feeds. -/
theorem act_took {e : Event} {t' : Transport} {out : Option Packet} (hsound : e.sound = true)
    (h : t.act e = some (t', out)) {pin : Nat} (hfed : ∀ p, t.Fed e p → p.pin = pin) :
    Took pin t t' := by
  obtain ⟨_, hi, ho⟩ := act_halves hsound h
  have hboth := keeps_of_steps (P := fun o => Added pin t.ostreamer.acked o.acked ∧
      Added pin t.ostreamer.raised o.raised)
    (fun _ _ hop hx => ⟨hx.1.trans (hop.added hfed).1, hx.2.trans (hop.added hfed).2⟩) ho
    ⟨.refl _ _, .refl _ _⟩
  exact ⟨keeps_of_steps (P := fun i => Added pin t.istreamer.stored i.stored)
    (fun _ _ hop hx => hx.trans (hop.added hfed)) hi (.refl _ _), hboth.1, hboth.2⟩

/-! ## Acknowledgements come from the peer -/

/-- The account of the acknowledgements: none before the channel is linked, and then only the
peer's. -/
structure Acquainted (t : Transport) : Prop where
  bound : t.connector.Bound
  idle : t.connector.status.rank ≤ 2 → t.ostreamer.Idle
  acked : t.connector.status = .linked → ∀ e ∈ t.ostreamer.acked, e.1 = t.connector.remotePin

theorem Acquainted.act {e : Event} {t' : Transport} {out : Option Packet} (a : Acquainted t)
    (hsound : e.sound = true) (hstamped : e.stamped = true) (h : t.act e = some (t', out)) :
    Acquainted t' := by
  have hrank := act_rank h
  have hidle : t.connector.status.rank ≤ 2 → t'.ostreamer.Idle := by
    intro hle
    have hno : ¬ t.connector.status = .linked := by
      intro heq
      rw [heq] at hle
      exact absurd hle (by decide)
    exact keeps_of_steps (P := Ostreamer.Idle) (fun _ _ hop i => i.op hno hop)
      (act_halves hsound h).2.2 (a.idle hle)
  refine ⟨act_bound hsound hstamped h a.bound, fun hle => hidle (Nat.le_trans hrank hle), ?_⟩
  intro hlinked x hx
  by_cases hle : t.connector.status.rank ≤ 2
  · rw [(hidle hle).acked] at hx
    cases hx
  · have hsame : t.connector.status = .linked := by
      rw [hlinked] at hrank
      revert hle hrank
      cases t.connector.status <;> decide
    have hknown := a.bound.linked hsame
    have hfed : ∀ p, t.Fed e p → p.pin = t.connector.remotePin := by
      intro p hp
      rcases (Connector.admits_iff.mp hp.2).2 with hzero | heq
      · exact absurd hzero hknown
      · exact heq.symm
    have hremote : t'.connector.remotePin = t.connector.remotePin := by
      rcases act_pins h with ⟨_, ⟨heq, _⟩ | ⟨now, p, _, hadmits, heq⟩⟩ | ⟨_, hfin⟩
      · exact heq
      · exact heq.trans (Connector.parse_remotePin_of_known _ _ hadmits hknown)
      · rw [hfin] at hlinked
        cases hlinked
    obtain ⟨new, hnew, hall⟩ := (act_took hsound h hfed).acked
    rw [hnew] at hx
    rw [hremote]
    rcases List.mem_append.mp hx with hx | hx
    · exact a.acked hsame x hx
    · exact hall x hx

theorem Reaches.acquainted
    (h : (system q).Reaches (fun _ e => e.stamped = true) t) : Acquainted t := by
  refine (act_invariant (P := Acquainted) ?_ ?_ h).2
  · exact ⟨.create, fun _ => ⟨rfl, rfl, rfl⟩, fun hl => by cases hl⟩
  · intro s e s' out hstamped _ hsound hact a
    exact a.act hsound hstamped hact

/-! ## From the moment the peer is known -/

/-- A channel that has known a peer since some moment, or has ended. -/
structure Faithful (pin : Nat) (t₀ t : Transport) : Prop where
  peer : t.connector.remotePin = pin ∧ 2 ≤ t.connector.status.rank ∨
    t.connector.localPin = 0 ∧ t.connector.status = .finished
  took : Took pin t₀ t

theorem Faithful.act {pin : Nat} {t₀ : Transport} {e : Event} {t' : Transport}
    {out : Option Packet} (f : Faithful pin t₀ t) (hpin : pin ≠ 0) (hsound : e.sound = true)
    (h : t.act e = some (t', out)) : Faithful pin t₀ t' := by
  have hrank := act_rank h
  have hfed : ∀ p, t.Fed e p → p.pin = pin := by
    intro p hp
    obtain ⟨hlocal, hremote⟩ := Connector.admits_iff.mp hp.2
    rcases f.peer with ⟨heq, _⟩ | ⟨hzero, _⟩
    · rw [heq] at hremote
      rcases hremote with hzero | hsame
      · exact absurd hzero hpin
      · exact hsame.symm
    · exact absurd hzero hlocal
  have hstarted : 2 ≤ t.connector.status.rank := by
    rcases f.peer with ⟨_, hle⟩ | ⟨_, hfin⟩
    · exact hle
    · rw [hfin]
      decide
  refine ⟨?_, f.took.trans (act_took hsound h hfed)⟩
  rcases act_pins h with ⟨hlocal, hremote⟩ | hended
  · have hlocal : t'.connector.localPin = t.connector.localPin := by
      refine hlocal.resolve_left fun hinit => ?_
      rw [hinit] at hstarted
      exact absurd hstarted (by decide)
    rcases f.peer with ⟨heq, _⟩ | ⟨hzero, hfin⟩
    · refine .inl ⟨?_, Nat.le_trans hstarted hrank⟩
      rcases hremote with ⟨hsame, _⟩ | ⟨now, p, _, hadmits, hsame⟩
      · exact hsame.trans heq
      · have hknown := Connector.parse_remotePin_of_known t.qos now hadmits
          (by rw [heq]; exact hpin)
        exact hsame.trans (hknown.trans heq)
    · refine .inr ⟨hlocal.trans hzero, ?_⟩
      rw [hfin] at hrank
      revert hrank
      cases t'.connector.status <;> decide
  · exact .inr hended

/-- A channel that is linked, seen from a moment at which it knew its peer already: the peer is
the same, the fragments stored and the edges that raised the window since then came from it, and
so did every acknowledgement that erased a flight. -/
theorem isolated_once_fixed
    (h : (system q).Reaches (fun _ e => e.stamped = true) t₁)
    (hfixed : t₁.connector.remotePin ≠ 0) (es : List Event)
    (hes : ∀ e ∈ es, e.stamped = true) (hrun : (system q).run t₁ es = some t₂)
    (hlinked : t₂.connector.status = .linked) :
    t₂.connector.remotePin = t₁.connector.remotePin ∧
      (∃ new, t₂.istreamer.stored = t₁.istreamer.stored ++ new ∧
        ∀ e ∈ new, e.1 = t₂.connector.remotePin) ∧
      (∃ new, t₂.ostreamer.raised = t₁.ostreamer.raised ++ new ∧
        ∀ e ∈ new, e.1 = t₂.connector.remotePin) ∧
      ∀ e ∈ t₂.ostreamer.acked, e.1 = t₂.connector.remotePin := by
  have hacq := Reaches.acquainted (h.run es (fun _ e he => hes e he) hrun)
  have hstart : Faithful t₁.connector.remotePin t₁ t₁ := by
    refine ⟨.inl ⟨rfl, ?_⟩, .refl _ _, .refl _ _, .refl _ _⟩
    by_contra hlt
    exact hfixed ((Reaches.acquainted h).bound.fresh (by omega)).2.1
  have f : Faithful t₁.connector.remotePin t₁ t₂ := by
    refine System.run_keeps es ?_ hstart hrun
    intro t e t' _ f hstep
    obtain ⟨hsound, out, hact⟩ := step_act hstep
    exact f.act hfixed hsound hact
  have hsame : t₂.connector.remotePin = t₁.connector.remotePin := by
    rcases f.peer with ⟨heq, _⟩ | ⟨_, hfin⟩
    · exact heq
    · rw [hfin] at hlinked
      cases hlinked
  rw [hsame]
  refine ⟨rfl, f.took.stored, f.took.raised, ?_⟩
  rw [← hsame]
  exact hacq.acked hlinked

/-- The peer is known when the `link` arrives; a fragment of a stranger after that is not taken. -/
theorem isolated_once_fixed_link :
    ∃ t₁ t₂, (system .default).run t₁ [.produce ⟨3, 3, 3⟩, .feed 4 ⟨7, [.move 0 [1]]⟩,
        .feed 5 ⟨8, [.move 0 [2]]⟩] = some t₂ ∧
      t₁.connector.status = .accepting ∧ t₂.istreamer.stored = [(8, 0, [2])] ∧
      t₂.connector.remotePin = 8 ∧
      ∃ new, t₂.istreamer.stored = t₁.istreamer.stored ++ new ∧
        ∀ e ∈ new, e.1 = t₂.connector.remotePin := by
  have hrun : ((system .default).run (create .default)
      [.openAt, .accept 1 1 1 .success, .feed 2 ⟨8, [.link]⟩]).bind (fun t₁ =>
        ((system .default).run t₁ [.produce ⟨3, 3, 3⟩, .feed 4 ⟨7, [.move 0 [1]]⟩,
          .feed 5 ⟨8, [.move 0 [2]]⟩]).map fun t₂ =>
        decide (t₁.connector.status = .accepting ∧ t₁.connector.remotePin = 8 ∧
          t₂.connector.status = .linked ∧ t₂.connector.remotePin = 8 ∧
          t₂.istreamer.stored = [(8, 0, [2])])) = some true := by decide +kernel
  obtain ⟨t₁, h₁, hrest⟩ := Option.bind_eq_some_iff.mp hrun
  obtain ⟨t₂, h₂, hv⟩ := Option.map_eq_some_iff.mp hrest
  obtain ⟨hacc, hfixed, hlinked, hremote, hstored⟩ := of_decide_eq_true hv
  have hreach : (system .default).Reaches (fun _ e => e.stamped = true) t₁ :=
    .run _ (.start rfl) (fun _ e he => by revert e; decide) h₁
  exact ⟨t₁, t₂, h₂, hacc, hstored, hremote,
    (isolated_once_fixed hreach (by rw [hfixed]; decide) _ (by decide) h₂ hlinked).2.1⟩

/-- An accepting channel stores a fragment from pin 7, takes an edge from pin 7, and is then
linked with pin 8. -/
theorem stranger_stored :
    ∃ t, (system .default).Reaches (fun _ e => e.stamped = true) t ∧
      t.connector.status = .linked ∧ t.connector.remotePin = 8 ∧
      t.istreamer.stored = [(7, 0, [1])] ∧ t.ostreamer.raised = [(7, 9)] := by
  have hrun : ((system .default).run (create .default)
      [.openAt, .accept 1 1 1 .success, .feed 2 ⟨7, [.move 0 [1], .edge 9]⟩,
        .feed 3 ⟨8, [.link]⟩, .produce ⟨4, 4, 4⟩]).map (fun t =>
        decide (t.connector.status = .linked ∧ t.connector.remotePin = 8 ∧
          t.istreamer.stored = [(7, 0, [1])] ∧ t.ostreamer.raised = [(7, 9)]))
      = some true := by decide +kernel
  obtain ⟨t, ht, hv⟩ := Option.map_eq_some_iff.mp hrun
  exact ⟨t, .run _ (.start rfl) (fun _ e he => by revert e; decide) ht, of_decide_eq_true hv⟩

end Transport

end Tubus.Udp
