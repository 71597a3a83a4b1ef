import Tubus.Laws.Flow
import Tubus.Laws.Transport
import Tubus.Udp.Session

/-!
# A session is two flows

Whatever happens in a session, the sending half of one channel and the receiving half of the
other go through a run of a flow (`Session.follows`): every event of a channel is, for each of
its halves, nothing, one act of a flow, or an act followed by an abort, and every section that a
half reads off the network was written there by the other. So an invariant of flows holds in a
session, in both directions.

`Terms` carries the conditions on a run that some results need from the session to its flow.
-/

namespace Tubus.Udp

open Lib

/-- Conditions on what a flow is given: on the buffers written and read, and on the clock and the
resend interval when the receiving half writes. -/
structure Terms where
  write : Bytes → Prop
  read : Bytes → Prop
  tick : Time → Int → Prop

/-- No conditions. -/
def Terms.any : Terms := ⟨fun _ => True, fun _ => True, fun _ _ => True⟩

/-- The conditions on a flow. -/
def Terms.flow (m : Terms) : Flow → Flow.Act → Prop
  | _, .write buffer _ => m.write buffer
  | _, .read buffer _ => m.read buffer
  | _, .answer now resend _ => m.tick now resend
  | _, _ => True

/-- The conditions on what a channel does as the source of a flow. -/
def Terms.source (m : Terms) : Event → Prop
  | .write buffer _ => m.write buffer
  | _ => True

/-- The conditions on what a channel does as the sink of a flow. -/
def Terms.sink (m : Terms) (t : Transport) : Event → Prop
  | .read buffer _ => m.read buffer
  | .produce k => m.tick k.istreamer t.connector.resend
  | _ => True

/-- The conditions on a session, for the stream that `d` sends. -/
def Terms.session (m : Terms) (d : Side) : Session → Session.Act → Prop
  | s, .act x e => (x = d → m.source e) ∧ (x = d.other → m.sink (s.chan x) e)
  | _, _ => True

theorem Terms.any_session (d : Side) (s : Session) (a : Session.Act) : Terms.any.session d s a := by
  cases a with
  | act x e =>
    refine ⟨fun _ => ?_, fun _ => ?_⟩
    · cases e <;> trivial
    · cases e <;> trivial
  | deliver => trivial
  | lose => trivial

theorem Status.over_of_ne_open {s : Status} (h : s.streams = true ∨ s.speaks = true ∨ s = .linked) :
    s.over = false := by
  cases s <;> first | rfl | (simp [Status.streams, Status.speaks] at h)

/-- A half that is closed only when its channel is over is open before that. -/
theorem Status.open_of_not_over {s : Status} {isOpen : Bool}
    (h : isOpen = false → s.over = true) (hs : s.over = false) : isOpen = true := by
  cases isOpen with
  | true => rfl
  | false =>
    rw [h rfl] at hs
    cases hs

/-! ## One channel and its half of a flow -/

namespace Flow

/-- The flow can go on so that its source is the sending half of `t`, and what `t` has just sent
is in the flow. The rest of the flow is as it was. -/
def GoesOnAsSource (qs qr : Qos) (m : Terms) (f : Flow) (t : Transport) (out : Option Packet) :
    Prop :=
  ∃ f', (Flow.system qs qr).Reaches m.flow f' ∧ f'.source = t.ostreamer ∧
    (f'.sourceOpen = false → t.connector.status.over = true) ∧
    f'.sink = f.sink ∧ f'.sinkOpen = f.sinkOpen ∧ f'.echoed = f.echoed ∧ f.sent ⊆ f'.sent ∧
    ∀ p, out = some p → ∀ x ∈ p.body, x.forSink = true → x ∈ f'.sent

/-- The flow can go on so that its sink is the receiving half of `t`, and what `t` has just sent
is in the flow. The rest of the flow is as it was. -/
def GoesOnAsSink (qs qr : Qos) (m : Terms) (f : Flow) (t : Transport) (out : Option Packet) :
    Prop :=
  ∃ f', (Flow.system qs qr).Reaches m.flow f' ∧ f'.sink = t.istreamer ∧
    (f'.sinkOpen = false → t.connector.status.over = true) ∧
    f'.source = f.source ∧ f'.sourceOpen = f.sourceOpen ∧ f'.sent = f.sent ∧
    f.echoed ⊆ f'.echoed ∧
    ∀ p, out = some p → ∀ x ∈ p.body, x.forSource = true → x ∈ f'.echoed

end Flow

namespace Transport

variable {qs qr : Qos} {m : Terms} {t t' : Transport} {out : Option Packet} {e : Event} {f : Flow}

/-- A channel as the source of a flow, through any event. -/
theorem source_follows (hf : (Flow.system qs qr).Reaches m.flow f)
    (hsource : f.source = t.ostreamer)
    (hopen : f.sourceOpen = false → t.connector.status.over = true) (hq : t.qos = qs)
    (hsound : e.sound = true) (hterms : m.source e)
    (hfeed : ∀ now p, e = .feed now p → ∀ x ∈ p.body, x.forSource = true → x ∈ f.echoed)
    (h : t.act e = some (t', out)) :
    f.GoesOnAsSource qs qr m t' out := by
  have hover := act_over h
  subst hq
  -- the flow goes on to `g` by steps of its source alone
  have goes : ∀ g : Flow, (Flow.system t.qos qr).Reaches m.flow g → g.source = t'.ostreamer →
      (g.sourceOpen = false → t'.connector.status.over = true) → g.sink = f.sink →
      g.sinkOpen = f.sinkOpen → g.echoed = f.echoed → f.sent ⊆ g.sent → out = none →
      f.GoesOnAsSource t.qos qr m t' out := fun g hg ho hgo hi hio he hs hout =>
    ⟨g, hg, ho, hgo, hi, hio, he, hs, fun p hp => by rw [hout] at hp; cases hp⟩
  have abort : ∀ (g : Flow) (ec : Ec), (Flow.system t.qos qr).Reaches m.flow g → ec ≠ .success →
      (Flow.system t.qos qr).Reaches m.flow
        { g with source := g.source.error ec, sourceOpen := false } := by
    intro g ec hg hec
    refine .next (e := .abortSource ec) hg trivial ?_
    simp [Flow.system, Flow.step, hec]
  cases (act_cases hsound h).2 with
  | quiet _ source sent =>
    refine ⟨f, hf, hsource.trans source.symm, fun hc => hover (hopen hc), rfl, rfl, rfl,
      List.Subset.refl _, fun p hp x hx hsink => ?_⟩
    rw [(sent p hp x hx).1] at hsink
    cases hsink
  | opened _ _ source silent =>
    exact goes { f with source := f.source.init } (.next (e := .initSource) hf trivial rfl)
      (by rw [hsource, source]) (fun hc => hover (hopen hc)) rfl rfl rfl (List.Subset.refl _) silent
  | read _ _ _ _ _ source silent =>
    exact goes f hf (hsource.trans source.symm) (fun hc => hover (hopen hc)) rfl rfl rfl
      (List.Subset.refl _) silent
  | write buffer k event linked _ source silent =>
    subst event
    have ho := Status.open_of_not_over hopen (Status.over_of_ne_open (.inr (.inr linked)))
    refine goes { f with source := f.source.append t.qos buffer k }
      (.next (e := .write buffer k) hf hterms ?_) (by rw [hsource, source])
      (fun hc => hover (hopen hc)) rfl rfl rfl (List.Subset.refl _) silent
    exact if_pos ⟨ho, of_decide_eq_true hsound⟩
  | parsed now p event _ streams _ source silent =>
    have ho := Status.open_of_not_over hopen (Status.over_of_ne_open (.inl streams))
    exact goes { f with source := f.source.parse p }
      (.next (e := .acknowledge p) hf trivial (if_pos ⟨ho, hfeed now p event⟩))
      (by rw [hsource, source]) (fun hc => hover (hopen hc)) rfl rfl rfl (List.Subset.refl _) silent
  | @closed now p i o event _ streams ended _ source silent =>
    have hacked : (Flow.system t.qos qr).Reaches m.flow { f with source := o } := by
      rcases streams with ⟨hs, _, rfl⟩ | ⟨_, rfl⟩
      · have ho := Status.open_of_not_over hopen (Status.over_of_ne_open (.inl hs))
        rw [← hsource]
        exact .next (e := .acknowledge p) hf trivial (if_pos ⟨ho, hfeed now p event⟩)
      · rw [← hsource]
        exact hf
    exact goes _ (abort _ .connectionAborted hacked (by decide)) source.symm (fun _ => ended) rfl
      rfl rfl (List.Subset.refl _) silent
  | aborted ec fails ended _ source silent =>
    exact goes _ (abort f ec hf fails) (by rw [hsource, source]) (fun _ => ended) rfl rfl rfl
      (List.Subset.refl _) silent
  | round k roomI roomO event speaks _ source sent =>
    have ho := Status.open_of_not_over (fun hc => hover (hopen hc))
      (Status.over_of_ne_open (.inr (.inl speaks)))
    refine ⟨_, .next (e := .push k.ostreamer t.connector.resend roomO) hf trivial (if_pos ho), ?_,
      fun hc => absurd (ho.symm.trans hc) (by decide), rfl, rfl, rfl,
      List.subset_append_left _ _, fun p hp x hx hsink => List.mem_append_right _ ?_⟩
    · rw [hsource, source]
    · rw [hsource]
      rcases sent p hp x hx with ⟨hno, _⟩ | hi | ho
      · rw [hno] at hsink
        cases hsink
      · rw [t.istreamer.imbue_forSink _ _ _ x hi] at hsink
        cases hsink
      · exact ho

/-- A channel as the sink of a flow, through any event. -/
theorem sink_follows (hf : (Flow.system qs qr).Reaches m.flow f)
    (hsink : f.sink = t.istreamer)
    (hopen : f.sinkOpen = false → t.connector.status.over = true) (hq : t.qos = qr)
    (hsound : e.sound = true) (hterms : m.sink t e)
    (hfeed : ∀ now p, e = .feed now p → ∀ x ∈ p.body, x.forSink = true → x ∈ f.sent)
    (h : t.act e = some (t', out)) :
    f.GoesOnAsSink qs qr m t' out := by
  have hover := act_over h
  subst hq
  -- the flow goes on to `g` by steps of its sink alone
  have goes : ∀ g : Flow, (Flow.system qs t.qos).Reaches m.flow g → g.sink = t'.istreamer →
      (g.sinkOpen = false → t'.connector.status.over = true) → g.source = f.source →
      g.sourceOpen = f.sourceOpen → g.sent = f.sent → f.echoed ⊆ g.echoed → out = none →
      f.GoesOnAsSink qs t.qos m t' out := fun g hg hi hgo ho hoo hs he hout =>
    ⟨g, hg, hi, hgo, ho, hoo, hs, he, fun p hp => by rw [hout] at hp; cases hp⟩
  have abort : ∀ (g : Flow) (ec : Ec), (Flow.system qs t.qos).Reaches m.flow g → ec ≠ .success →
      (Flow.system qs t.qos).Reaches m.flow
        { g with sink := g.sink.error ec, sinkOpen := false } := by
    intro g ec hg hec
    refine .next (e := .abortSink ec) hg trivial ?_
    simp [Flow.system, Flow.step, hec]
  have arrive : ∀ now p i, e = .feed now p → t.connector.status.streams = true →
      t.istreamer.parse t.qos p = some i →
      (Flow.system qs t.qos).Reaches m.flow { f with sink := i } := by
    intro now p i event streams hi
    have ho := Status.open_of_not_over hopen (Status.over_of_ne_open (.inl streams))
    refine .next (e := .arrive p) hf trivial ?_
    rw [← hsink] at hi
    show (if f.sinkOpen = true ∧ _ then _ else _) = _
    rw [if_pos ⟨ho, hfeed now p event⟩, hi, Option.map_some]
  cases (act_cases hsound h).2 with
  | quiet sink _ sent =>
    refine ⟨f, hf, hsink.trans sink.symm, fun hc => hover (hopen hc), rfl, rfl, rfl,
      List.Subset.refl _, fun p hp x hx hsource => ?_⟩
    rw [(sent p hp x hx).2] at hsource
    cases hsource
  | opened _ sink _ silent =>
    exact goes { f with sink := f.sink.init } (.next (e := .initSink) hf trivial rfl)
      (by rw [hsink, sink]) (fun hc => hover (hopen hc)) rfl rfl rfl (List.Subset.refl _) silent
  | read buffer k event linked sink _ silent =>
    subst event
    have ho := Status.open_of_not_over hopen (Status.over_of_ne_open (.inr (.inr linked)))
    refine goes { f with sink := t'.istreamer } (.next (e := .read buffer k) hf hterms ?_) rfl
      (fun hc => hover (hopen hc)) rfl rfl rfl (List.Subset.refl _) silent
    rw [← hsink] at sink
    show (if f.sinkOpen = true ∧ _ then _ else _) = _
    rw [if_pos ⟨ho, of_decide_eq_true hsound⟩, sink, Option.map_some]
  | write _ _ _ _ sink _ silent =>
    exact goes f hf (hsink.trans sink.symm) (fun hc => hover (hopen hc)) rfl rfl rfl
      (List.Subset.refl _) silent
  | parsed now p event _ streams sink _ silent =>
    exact goes _ (arrive now p _ event streams sink) rfl (fun hc => hover (hopen hc)) rfl rfl rfl
      (List.Subset.refl _) silent
  | @closed now p i o event _ streams ended sink _ silent =>
    have hgot : (Flow.system qs t.qos).Reaches m.flow { f with sink := i } := by
      rcases streams with ⟨hs, hi, _⟩ | ⟨rfl, _⟩
      · exact arrive now p i event hs hi
      · rw [← hsink]
        exact hf
    exact goes _ (abort _ .connectionAborted hgot (by decide)) sink.symm (fun _ => ended) rfl rfl
      rfl (List.Subset.refl _) silent
  | aborted ec fails ended sink _ silent =>
    exact goes _ (abort f ec hf fails) (by rw [hsink, sink]) (fun _ => ended) rfl rfl rfl
      (List.Subset.refl _) silent
  | round k roomI roomO event speaks sink _ sent =>
    subst event
    have ho := Status.open_of_not_over (fun hc => hover (hopen hc))
      (Status.over_of_ne_open (.inr (.inl speaks)))
    refine ⟨_, .next (e := .answer k.istreamer t.connector.resend roomI) hf hterms (if_pos ho), ?_,
      fun hc => absurd (ho.symm.trans hc) (by decide), rfl, rfl, rfl,
      List.subset_append_left _ _, fun p hp x hx hsource => List.mem_append_right _ ?_⟩
    · rw [hsink, sink]
    · rw [hsink]
      rcases sent p hp x hx with ⟨_, hno⟩ | hi | ho
      · rw [hno] at hsource
        cases hsource
      · exact hi
      · rw [t.ostreamer.imbue_forSource _ _ _ _ x ho] at hsource
        cases hsource

end Transport

/-! ## Both channels -/

namespace Session

/-- A flow that is one direction of a session: the stream that `d` sends. -/
structure Follows (q : Side → Qos) (d : Side) (s : Session) (f : Flow) : Prop where
  qos : ∀ x, (s.chan x).qos = q x
  source : f.source = (s.chan d).ostreamer
  sink : f.sink = (s.chan d.other).istreamer
  sent : ∀ p ∈ s.net d, ∀ x ∈ p.body, x.forSink = true → x ∈ f.sent
  echoed : ∀ p ∈ s.net d.other, ∀ x ∈ p.body, x.forSource = true → x ∈ f.echoed
  sourceOpen : f.sourceOpen = false → (s.chan d).connector.status.over = true
  sinkOpen : f.sinkOpen = false → (s.chan d.other).connector.status.over = true

/-- An event of one channel, the other standing still. -/
theorem Follows.put {q : Side → Qos} {d : Side} {m : Terms} {s : Session} {f : Flow}
    (w : Follows q d s f) (hf : (Flow.system (q d) (q d.other)).Reaches m.flow f) {x : Side}
    {e : Event} {t' : Transport} {out : Option Packet} (hsound : e.sound = true)
    (hterms : (x = d → m.source e) ∧ (x = d.other → m.sink (s.chan x) e))
    (hfeed : ∀ now p, e = .feed now p → p ∈ s.net x.other)
    (h : (s.chan x).act e = some (t', out)) :
    ∃ f', (Flow.system (q d) (q d.other)).Reaches m.flow f' ∧ Follows q d (s.put x t' out) f' := by
  have hqos : ∀ y, ((s.put x t' out).chan y).qos = q y := by
    intro y
    by_cases hy : y = x
    · subst hy
      rw [put_chan_self, (Transport.act_halves hsound h).1, w.qos]
    · rw [put_chan_of_ne hy, w.qos]
  rcases Side.eq_or_other d x with rfl | rfl
  · obtain ⟨f', hf', h₁, h₂, h₃, h₄, h₅, h₆, h₇⟩ := Transport.source_follows hf w.source
      w.sourceOpen (w.qos x) hsound (hterms.1 rfl)
      (fun now p he => w.echoed p (hfeed now p he)) h
    have hne := Side.other_ne x
    refine ⟨f', hf', hqos, ?_, ?_, ?_, ?_, ?_, ?_⟩
    · rw [put_chan_self, h₁]
    · rw [put_chan_of_ne hne, h₃, w.sink]
    · intro p hp
      rw [put_net_self] at hp
      rcases List.mem_append.mp hp with hp | hp
      · exact fun x hx hs => h₆ (w.sent p hp x hx hs)
      · exact h₇ p (Option.mem_toList.mp hp)
    · rw [put_net_of_ne hne, h₅]
      exact w.echoed
    · rw [put_chan_self]
      exact h₂
    · rw [put_chan_of_ne hne, h₄]
      exact w.sinkOpen
  · obtain ⟨f', hf', h₁, h₂, h₃, h₄, h₅, h₆, h₇⟩ := Transport.sink_follows hf w.sink
      w.sinkOpen (w.qos d.other) hsound (hterms.2 rfl)
      (fun now p he => w.sent p (by
        have := hfeed now p he
        rwa [Side.other_other] at this)) h
    have hne := (Side.other_ne d).symm
    refine ⟨f', hf', hqos, ?_, ?_, ?_, ?_, ?_, ?_⟩
    · rw [put_chan_of_ne hne, h₃, w.source]
    · rw [put_chan_self, h₁]
    · rw [put_net_of_ne hne, h₅]
      exact w.sent
    · intro p hp
      rw [put_net_self] at hp
      rcases List.mem_append.mp hp with hp | hp
      · exact fun x hx hs => h₆ (w.echoed p hp x hx hs)
      · exact h₇ p (Option.mem_toList.mp hp)
    · rw [put_chan_of_ne hne, h₄]
      exact w.sourceOpen
    · rw [put_chan_self]
      exact h₂

/-- Losing a packet. -/
theorem Follows.lose {q : Side → Qos} {d : Side} {s : Session} {f : Flow} (w : Follows q d s f)
    (x : Side) (n : Nat) :
    Follows q d { s with net := fun y => if y = x then (s.net y).eraseIdx n else s.net y } f := by
  have hsub : ∀ y p, p ∈ (if y = x then (s.net y).eraseIdx n else s.net y) → p ∈ s.net y := by
    intro y p hp
    split at hp
    · exact List.mem_of_mem_eraseIdx hp
    · exact hp
  exact { w with
    sent := fun p hp => w.sent p (hsub d p hp)
    echoed := fun p hp => w.echoed p (hsub d.other p hp) }

/-- Every run of a session is, in each direction, a run of a flow. -/
theorem follows {q : Side → Qos} {d : Side} {m : Terms} {s : Session}
    (h : (system q).Reaches (m.session d) s) :
    ∃ f, (Flow.system (q d) (q d.other)).Reaches m.flow f ∧ Follows q d s f := by
  refine System.Reaches.simulates ?_ ?_ h
  · rintro _ rfl
    refine ⟨.create (q d.other), rfl, fun _ => rfl, rfl, rfl, ?_, ?_, ?_, ?_⟩
    · exact fun p hp => absurd hp List.not_mem_nil
    · exact fun p hp => absurd hp List.not_mem_nil
    · exact fun hc => by cases hc
    · exact fun hc => by cases hc
  · intro s a s' f hok w hf hstep
    cases a with
    | act x e =>
      obtain ⟨⟨hsound, hin⟩, hstep⟩ := Option.ite_none_right_eq_some.mp hstep
      obtain ⟨⟨t', out⟩, hact, rfl⟩ := Option.map_eq_some_iff.mp hstep
      refine w.put hf hsound hok ?_ hact
      rintro now p rfl
      cases hin
    | deliver x now n =>
      obtain ⟨p, hp, hstep⟩ := Option.bind_eq_some_iff.mp hstep
      obtain ⟨⟨t', out⟩, hact, rfl⟩ := Option.map_eq_some_iff.mp hstep
      refine w.put (e := .feed now p) hf rfl ⟨fun _ => trivial, fun _ => trivial⟩ ?_ hact
      rintro _ _ heq
      cases heq
      exact List.mem_of_getElem? hp
    | lose x n =>
      cases hstep
      exact ⟨f, hf, w.lose x n⟩

end Session

end Tubus.Udp
