import Mathlib.Logic.Relation
import Tubus.Laws.Istreamer
import Tubus.Laws.Ostreamer
import Tubus.Udp.Flow
import Tubus.Udp.Transport

/-!
# What a channel can do

Inversions of the channel's events. `feed_cases` and `produce_cases` say what the two large
events are made of; `act_turn` says what any event does to the connector, and `act_cases` what it
does to the streamers and what it sends. `act_halves` reads the latter as some sequence of the
streamers' own operations, one rule for every property that concerns a streamer alone.

A channel goes through its states in one direction (`act_rank`). `Status.over` marks the states
behind `linked`: in them it neither hands packets to the streamers nor lets them write, so an
abort is final.
-/

namespace Tubus.Udp

open Lib

/-- How far a channel has come. -/
def Status.rank : Status → Nat
  | .neither => 0
  | .initial => 1
  | .accepting | .connecting => 2
  | .linked => 3
  | .shutting | .tearing => 4
  | .finished => 5

/-- The states behind `linked`. -/
def Status.over (s : Status) : Bool := decide (4 ≤ s.rank)

theorem Status.over_of_closing {s : Status} (h : s.closing = true) : s.over = true := by
  cases s <;> first | rfl | cases h

theorem Status.rank_le_finished (s : Status) : s.rank ≤ Status.finished.rank := by
  cases s <;> decide

theorem Status.finished_of_rank {s : Status} (h : Status.finished.rank ≤ s.rank) :
    s = .finished := by
  revert h
  cases s <;> decide

/-! ## The connector -/

namespace Connector

variable {c : Connector}

/-- What a section does to a connector. -/
inductive Took (q : Qos) (pin : Nat) (c : Connector) : Section → Connector → Prop where
  | link : Took q pin c .link { c with
      jobs := c.jobs.emplace .linkEcho zeroTime
      remotePin := if c.status = .accepting then pin else c.remotePin }
  | linked (connecting : c.status = .connecting) :
      Took q pin c .linkEcho { c.post (.handler c.onConnect .success) with
        status := .linked
        dead := maxDateTime
        remotePin := pin
        jobs := (c.jobs.erase .link).emplace .ping zeroTime
        onConnect := none }
  | tearing (linked : c.status = .linked) : Took q pin c .tear { c with
      jobs := c.jobs.emplace .tearEcho zeroTime
      status := .tearing
      dead := later c.seen q.shutdownTimeout }
  | tear (unlinked : c.status ≠ .linked) :
      Took q pin c .tear { c with jobs := c.jobs.emplace .tearEcho zeroTime }
  | finished (shutting : c.status = .shutting) :
      Took q pin c .tearEcho { c.post (.handler c.onShutdown .success) with
        status := .finished
        jobs := c.jobs.erase .tear
        onShutdown := none }
  | ping (v : Nat) : Took q pin c (.ping v)
      { c with jobs := c.jobs.emplace .pingEcho (later zeroTime (toI64 v)) }
  | pingEcho (v : Nat) : Took q pin c (.pingEcho v) { c with
      resend := toI64 (max (wsub (toU64 (sinceZero c.seen)) v * 2 % 2 ^ 64) 10000)
      jobs := (c.jobs.erase .ping).emplace .ping (later c.seen q.pingTimeout) }
  | quiet {s : Section} : Took q pin c s c

theorem take_took (q : Qos) (pin : Nat) (c : Connector) (s : Section) :
    c.Took q pin s (c.take q pin s) := by
  cases s with
  | link => exact .link
  | linkEcho =>
    simp only [take]
    split
    · next hc => exact .linked hc
    · exact .quiet
  | tear =>
    simp only [take]
    split
    · next hc => exact .tearing hc
    · next hc => exact .tear hc
  | tearEcho =>
    simp only [take]
    split
    · next hc => exact .finished hc
    · exact .quiet
  | ping v => exact .ping v
  | pingEcho v => exact .pingEcho v
  | _ => exact .quiet

theorem take_rank (q : Qos) (pin : Nat) (s : Section) :
    c.status.rank ≤ (c.take q pin s).status.rank := by
  have h := take_took q pin c s
  generalize c.take q pin s = c' at h ⊢
  cases h with
  | linked hc =>
    rw [hc]
    exact (show Status.connecting.rank ≤ Status.linked.rank by decide)
  | tearing hc =>
    rw [hc]
    exact (show Status.linked.rank ≤ Status.tearing.rank by decide)
  | finished => exact c.status.rank_le_finished
  | link | tear | ping | pingEcho | quiet => exact Nat.le_refl _

/-- What a section keeps, `parse` keeps. -/
theorem parse_induct {q : Qos} {now : Time} {p : Packet} {P : Connector → Prop}
    (take : ∀ c s, s ∈ p.body → P c → P (c.take q p.pin s)) (hc : P { c with seen := now }) :
    P (c.parse q now p) := by
  unfold parse
  generalize ({ c with seen := now } : Connector) = c₀ at hc
  generalize p.body = body at take
  induction body generalizing c₀ with
  | nil => exact hc
  | cons s rest ih =>
    exact ih _ (take _ s List.mem_cons_self hc) fun c x hx =>
      take c x (List.mem_cons_of_mem _ hx)

theorem parse_rank (q : Qos) (now : Time) (p : Packet) :
    c.status.rank ≤ (c.parse q now p).status.rank :=
  parse_induct (P := fun c' => c.status.rank ≤ c'.status.rank)
    (fun c' s _ h => Nat.le_trans h (c'.take_rank q p.pin s)) (Nat.le_refl _)

/-- What a job that is written does to a connector. -/
inductive Wrote (now : Time) (c : Connector) : Job → Connector → Prop where
  | linked (accepting : c.status = .accepting) :
      Wrote now c .linkEcho { ({ c with jobs := c.jobs.erase .linkEcho } : Connector).post
          (.handler c.onConnect .success) with
        status := .linked
        dead := maxDateTime
        onConnect := none }
  | linkEcho (other : c.status ≠ .accepting) :
      Wrote now c .linkEcho { c with jobs := c.jobs.erase .linkEcho }
  | pingEcho : Wrote now c .pingEcho { c with jobs := c.jobs.erase .pingEcho }
  | finished : Wrote now c .tearEcho { c.postIf c.onShutdown .success with
      jobs := c.jobs.erase .tearEcho
      status := .finished
      onShutdown := none }
  | again {job : Job} (own : job.isEcho = false) :
      Wrote now c job { c with jobs := c.jobs.modify job fun _ => later now c.resend }

theorem wrote_wrote (now : Time) (c : Connector) (job : Job) :
    c.Wrote now job (c.wrote now job) := by
  cases job with
  | linkEcho =>
    simp only [wrote]
    split
    · next hc => exact .linked hc
    · next hc => exact .linkEcho hc
  | pingEcho => exact .pingEcho
  | tearEcho => exact .finished
  | link | tear | ping => exact .again rfl

theorem wrote_rank (now : Time) (job : Job) : c.status.rank ≤ (c.wrote now job).status.rank := by
  have h := wrote_wrote now c job
  generalize c.wrote now job = c' at h ⊢
  cases h with
  | linked hc =>
    rw [hc]
    exact (show Status.accepting.rank ≤ Status.linked.rank by decide)
  | finished => exact c.status.rank_le_finished
  | linkEcho | pingEcho | again => exact Nat.le_refl _

/-- The loop of `imbue` ends in a state it got to by writing jobs that were queued, and wrote
their sections. -/
theorem imbueLoop_induct {now : Time} {P : Connector → List Section → Prop}
    (step : ∀ c l item, item ∈ c.jobs.entries → due now item = true → P c l →
      P (c.wrote now item.1) (l ++ [sectionOf now item]))
    (fuel room : Nat) {l : List Section} (hc : P c l) :
    P (imbueLoop now fuel room c).1 (l ++ (imbueLoop now fuel room c).2) := by
  induction fuel generalizing room c l with
  | zero =>
    rw [imbueLoop, List.append_nil]
    exact hc
  | succ fuel ih =>
    unfold imbueLoop
    split
    · rw [List.append_nil]
      exact hc
    · split
      · rw [List.append_nil]
        exact hc
      · next item hfind =>
        have hnext := step c l item (List.mem_of_find?_eq_some hfind)
          (by simpa using List.find?_some hfind) hc
        have hall := ih (room - (sectionOf now item).size) hnext
        rw [List.append_assoc, List.singleton_append] at hall
        exact hall

/-- What writing a queued job keeps, `imbue` keeps; giving up only posts. -/
theorem imbue_induct (q : Qos) (now : Time) {P : Connector → List Section → Prop}
    (post : P c [] → P (c.post (.error .interrupted)) [])
    (step : ∀ c l item, item ∈ c.jobs.entries → due now item = true → P c l →
      P (c.wrote now item.1) (l ++ [sectionOf now item]))
    (room : Nat) (hc : P c []) : P (c.imbue q now room).1 (c.imbue q now room).2 := by
  unfold imbue
  split
  · exact post hc
  · have hall := imbueLoop_induct step room room hc
    rw [List.nil_append] at hall
    exact hall

theorem postIf_keeps (callback : Option Handler) (ec : Ec) :
    (c.postIf callback ec).localPin = c.localPin ∧
      (c.postIf callback ec).remotePin = c.remotePin ∧
      (c.postIf callback ec).resend = c.resend := by
  unfold postIf
  split <;> exact ⟨rfl, rfl, rfl⟩

theorem wrote_keeps (now : Time) (job : Job) :
    (c.wrote now job).localPin = c.localPin ∧ (c.wrote now job).remotePin = c.remotePin ∧
      (c.wrote now job).resend = c.resend := by
  have h := wrote_wrote now c job
  generalize c.wrote now job = c' at h ⊢
  cases h with
  | finished => exact c.postIf_keeps c.onShutdown .success
  | linked | linkEcho | pingEcho | again => exact ⟨rfl, rfl, rfl⟩

/-- Writing changes neither pin, and not the resend interval. -/
theorem imbue_keeps (q : Qos) (now : Time) (room : Nat) :
    (c.imbue q now room).1.localPin = c.localPin ∧
      (c.imbue q now room).1.remotePin = c.remotePin ∧
      (c.imbue q now room).1.resend = c.resend := by
  refine imbue_induct q now (P := fun c' _ => c'.localPin = c.localPin ∧
    c'.remotePin = c.remotePin ∧ c'.resend = c.resend) id ?_ room ⟨rfl, rfl, rfl⟩
  rintro c' _ item _ _ ⟨hl, hr, hs⟩
  obtain ⟨hl', hr', hs'⟩ := c'.wrote_keeps now item.1
  exact ⟨hl'.trans hl, hr'.trans hr, hs'.trans hs⟩

theorem imbue_rank (q : Qos) (now : Time) (room : Nat) :
    c.status.rank ≤ (c.imbue q now room).1.status.rank :=
  imbue_induct q now (P := fun c' _ => c.status.rank ≤ c'.status.rank) id
    (fun c' _ item _ _ h => Nat.le_trans h (c'.wrote_rank now item.1)) room (Nat.le_refl _)

/-- The connector's sections are neither for a source nor for a sink. -/
theorem imbue_sections (q : Qos) (now : Time) (room : Nat) :
    ∀ x ∈ (c.imbue q now room).2, x.forSink = false ∧ x.forSource = false := by
  refine imbue_induct q now
    (P := fun _ l => ∀ x ∈ l, x.forSink = false ∧ x.forSource = false) id ?_ room
    (fun x hx => absurd hx List.not_mem_nil)
  intro _ l item _ _ hl x hx
  rcases List.mem_append.mp hx with hx | hx
  · exact hl x hx
  · rw [List.mem_singleton.mp hx]
    obtain ⟨job, t⟩ := item
    cases job <;> exact ⟨rfl, rfl⟩

theorem shutdown_rank (q : Qos) (now : Time) (k : Handler) :
    c.status.rank ≤ (c.shutdown q now k).status.rank := by
  unfold shutdown
  split
  · exact Nat.le_refl _
  · next hc =>
    rw [hc]
    exact (show Status.linked.rank ≤ Status.shutting.rank by decide)
  · exact Nat.le_refl _
  · exact Nat.le_refl _
  · exact Nat.le_refl _

end Connector

/-! ## The sections of the streamers -/

theorem Istreamer.imbue_forSink (now : Time) (resend : Int) (room : Nat) (i : Istreamer) :
    ∀ x ∈ (i.imbue now resend room).2, x.forSink = false := by
  intro x hx
  obtain ⟨v, -, rfl⟩ | rfl := i.imbue_sections now resend room x hx
  · rfl
  · rfl

theorem Ostreamer.imbue_forSource (q : Qos) (now : Time) (resend : Int) (room : Nat)
    (o : Ostreamer) : ∀ x ∈ (o.imbue q now resend room).2.1, x.forSource = false := by
  refine imbue_induct q now resend (P := fun _ l => ∀ x ∈ l, x.forSource = false) ?_ room
    (fun x hx => absurd hx List.not_mem_nil)
  intro _ l _ _ hstep hl
  have hmore : ∀ more : List Section, (∀ x ∈ more, x.forSource = false) →
      ∀ x ∈ l ++ more, x.forSource = false := by
    intro more hall x hx
    rcases List.mem_append.mp hx with hx | hx
    · exact hl x hx
    · exact hall x hx
  cases hstep with
  | again => exact hmore _ fun x hx => by rw [List.mem_singleton.mp hx]; rfl
  | giveUp => exact hl
  | fresh => exact hmore _ fun x hx => by rw [List.mem_singleton.mp hx]; rfl
  | echo owed _ =>
    refine hmore _ fun x hx => ?_
    obtain ⟨v, _, rfl⟩ := owed x hx
    rfl

namespace Transport

variable {t t' : Transport} {out : Option Packet}

/-! ## Inversions -/

/-- What `feed` is made of: the streamers' part, in the states that have one, the connector's
part, and an abort when the channel is closing then. -/
theorem feed_cases {now : Time} {p : Packet} (h : t.feed now p = some t') :
    (t.connector.admits p.pin = false ∧ t' = t) ∨
    (t.connector.admits p.pin = true ∧ ∃ i o,
      ((t.connector.status.streams = true ∧ t.istreamer.parse t.qos p = some i ∧
          o = t.ostreamer.parse p) ∨
        (t.connector.status.streams = false ∧ i = t.istreamer ∧ o = t.ostreamer)) ∧
      (((t.connector.parse t.qos now p).status.closing = true ∧
          t' = { t with
            connector := t.connector.parse t.qos now p
            istreamer := i.error .connectionAborted
            ostreamer := o.error .connectionAborted }) ∨
        ((t.connector.parse t.qos now p).status.closing = false ∧
          t' = { t with
            connector := t.connector.parse t.qos now p, istreamer := i, ostreamer := o }))) := by
  unfold feed at h
  cases hadm : t.connector.admits p.pin with
  | false =>
    simp only [hadm, Bool.false_eq_true, if_false, Option.some.injEq] at h
    exact .inl ⟨rfl, h.symm⟩
  | true =>
    refine .inr ⟨rfl, ?_⟩
    simp only [hadm, if_true, Option.bind_eq_bind, Option.pure_def] at h
    obtain ⟨t₁, hstreams, h⟩ := Option.bind_eq_some_iff.mp h
    cases h
    have hclose : ∀ i o, (∃ u : Transport, u = { t with istreamer := i, ostreamer := o } ∧ t₁ = u) →
        ((t.connector.parse t.qos now p).status.closing = true ∧
          t₁.feedConnector now p = { t with
            connector := t.connector.parse t.qos now p
            istreamer := i.error .connectionAborted
            ostreamer := o.error .connectionAborted }) ∨
        ((t.connector.parse t.qos now p).status.closing = false ∧
          t₁.feedConnector now p = { t with
            connector := t.connector.parse t.qos now p, istreamer := i, ostreamer := o }) := by
      rintro i o ⟨_, rfl, rfl⟩
      unfold feedConnector
      dsimp only
      cases hc : (t.connector.parse t.qos now p).status.closing with
      | true => exact .inl ⟨rfl, by simp [abort]⟩
      | false => exact .inr ⟨rfl, by simp⟩
    unfold feedStreams at hstreams
    cases hst : t.connector.status.streams with
    | true =>
      simp only [hst, if_true, Option.bind_eq_bind, Option.pure_def] at hstreams
      obtain ⟨i, hi, hstreams⟩ := Option.bind_eq_some_iff.mp hstreams
      cases hstreams
      exact ⟨i, _, .inl ⟨rfl, hi, rfl⟩, hclose _ _ ⟨_, rfl, rfl⟩⟩
    | false =>
      simp only [hst, Bool.false_eq_true, if_false, Option.some.injEq] at hstreams
      subst hstreams
      exact ⟨_, _, .inr ⟨rfl, rfl, rfl⟩, hclose _ _ ⟨_, rfl, rfl⟩⟩

/-- What `produce` is made of: an abort, when the channel is finished, or the connector's part
and, in the states that let them write, the streamers' parts. -/
theorem produce_cases {k : Clock} (h : t.produce k = some (t', out)) :
    (t.connector.status = .finished ∧ t' = t.abort .connectionAborted ∧ out = none) ∨
    (t.connector.status ≠ .finished ∧ ∃ room,
      let c := t.connector.imbue t.qos k.connector room
      (c.1.status.speaks = true ∧ ∃ roomI roomO,
        let i := t.istreamer.imbue k.istreamer c.1.resend roomI
        let o := t.ostreamer.imbue t.qos k.ostreamer c.1.resend roomO
        t' = { t with connector := c.1, istreamer := i.1, ostreamer := o.1 } ∧
        ∀ p, out = some p → p = ⟨t.connector.localPin, c.2 ++ i.2 ++ o.2.1⟩) ∨
      (c.1.status.speaks = false ∧ t' = { t with connector := c.1 } ∧
        ∀ p, out = some p → p = ⟨t.connector.localPin, c.2⟩)) := by
  unfold produce at h
  split at h
  · next hfin =>
    cases h
    exact .inl ⟨hfin, rfl, rfl⟩
  · next hfin =>
    refine .inr ⟨hfin, t.qos.maxPacketSize - Datagram.headerSize, ?_⟩
    dsimp only at h
    obtain ⟨_, h⟩ := Option.ite_none_left_eq_some.mp h
    have hout : ∀ (body : List Section) (p : Packet),
        (if body.isEmpty then none else some ⟨t.connector.localPin, body⟩) = some p →
          p = ⟨t.connector.localPin, body⟩ := by
      intro body p hp
      split at hp
      · cases hp
      · cases hp
        rfl
    unfold imbue at h
    dsimp only at h ⊢
    split at h
    · next hsp =>
      cases h
      exact .inl ⟨hsp, _, _, rfl, hout _⟩
    · next hsp =>
      cases h
      exact .inr ⟨by simpa using hsp, rfl, hout _⟩

end Transport

/-! ## The connector's part of an event -/

/-- The handlers that the user hands over with a call about the connection. -/
def Event.handlers : Event → List Handler
  | .connect _ _ k _ | .accept _ _ k _ | .shutdown _ k => [k]
  | .openAt | .mistake _ | .read _ _ | .write _ _ | .feed _ _ | .consume | .produce _ => []

/-- What an event does to the connector. -/
inductive Connector.Turn (q : Qos) (c : Connector) : Event → Connector → Prop where
  | quiet {e : Event} (uncalled : e.handlers = [])
      (unheard : ∀ now p, e = .feed now p → c.admits p.pin = false) : Turn q c e c
  | init (fresh : c.status = .neither) : Turn q c .openAt c.init
  | refuse {e : Event} (k : Handler) (ec : Ec)
      (event : ∃ now pin socket, e = .connect now pin k socket ∨ e = .accept now pin k socket) :
      Turn q c e (c.post (.handler (some k) ec))
  | connect (now : Time) (pin : Nat) (k : Handler) (socket : Ec) (fresh : c.status = .initial) :
      Turn q c (.connect now pin k socket) (c.connect q now pin k)
  | accept (now : Time) (pin : Nat) (k : Handler) (socket : Ec) (fresh : c.status = .initial) :
      Turn q c (.accept now pin k socket) (c.accept q now pin k)
  | shutdown (now : Time) (k : Handler) : Turn q c (.shutdown now k) (c.shutdown q now k)
  | error (ec : Ec) : Turn q c (.mistake ec) (c.error ec)
  | parse (now : Time) (p : Packet) (admits : c.admits p.pin = true) :
      Turn q c (.feed now p) (c.parse q now p)
  | imbue (k : Clock) (room : Nat) : Turn q c (.produce k) (c.imbue q k.connector room).1

namespace Transport

variable {t t' : Transport} {out : Option Packet}

/-- An event does nothing else to the connector. -/
theorem act_turn {e : Event} (h : t.act e = some (t', out)) :
    t.connector.Turn t.qos e t'.connector := by
  have quiet : e.handlers = [] → (∀ now p, e ≠ .feed now p) →
      t.connector.Turn t.qos e t.connector :=
    fun uncalled unfed => .quiet uncalled fun now p he => absurd he (unfed now p)
  cases e with
  | openAt =>
    cases h
    unfold openAt
    split
    · next hc => exact .init hc
    · exact quiet rfl nofun
  | connect now pin k socket =>
    cases h
    unfold connect
    split
    · exact .refuse k _ ⟨now, pin, socket, .inl rfl⟩
    · next hc =>
      split
      · exact .refuse k _ ⟨now, pin, socket, .inl rfl⟩
      · exact .connect now pin k socket (Decidable.not_not.mp hc)
  | accept now pin k socket =>
    cases h
    unfold accept
    split
    · exact .refuse k _ ⟨now, pin, socket, .inr rfl⟩
    · next hc =>
      split
      · exact .refuse k _ ⟨now, pin, socket, .inr rfl⟩
      · exact .accept now pin k socket (Decidable.not_not.mp hc)
  | shutdown now k =>
    cases h
    exact .shutdown now k
  | mistake ec =>
    cases h
    exact .error ec
  | read buffer k =>
    obtain ⟨u, hu, heq⟩ := Option.map_eq_some_iff.mp h
    cases heq
    unfold read at hu
    split at hu
    · obtain ⟨i, _, hu⟩ := Option.bind_eq_some_iff.mp hu
      cases hu
      exact quiet rfl nofun
    · cases hu
      exact quiet rfl nofun
  | write buffer k =>
    cases h
    unfold write
    split <;> exact quiet rfl nofun
  | feed now p =>
    obtain ⟨u, hu, heq⟩ := Option.map_eq_some_iff.mp h
    cases heq
    rcases feed_cases hu with ⟨hno, rfl⟩ | ⟨hadmits, i, o, _, hclose⟩
    · refine .quiet rfl fun now' p' he => ?_
      cases he
      exact hno
    · rcases hclose with ⟨_, rfl⟩ | ⟨_, rfl⟩ <;> exact .parse now p hadmits
  | consume =>
    cases h
    unfold consume
    split <;> exact quiet rfl nofun
  | produce k =>
    rcases produce_cases h with ⟨_, rfl, _⟩ | ⟨_, room, ⟨_, _, _, rfl, _⟩ | ⟨_, rfl, _⟩⟩
    · exact quiet rfl nofun
    · exact .imbue k room
    · exact .imbue k room

end Transport

/-! ## One direction -/

theorem Connector.Turn.rank {q : Qos} {c c' : Connector} {e : Event} (h : c.Turn q e c') :
    c.status.rank ≤ c'.status.rank := by
  cases h with
  | quiet => exact Nat.le_refl _
  | init fresh =>
    rw [fresh]
    exact Nat.zero_le _
  | refuse => exact Nat.le_refl _
  | connect now pin k _ fresh =>
    simp only [Connector.connect, fresh, if_true]
    exact (show Status.initial.rank ≤ Status.connecting.rank by decide)
  | accept now pin k _ fresh =>
    simp only [Connector.accept, fresh, if_true]
    exact (show Status.initial.rank ≤ Status.accepting.rank by decide)
  | shutdown now k => exact c.shutdown_rank q now k
  | error ec => exact c.status.rank_le_finished
  | parse now p _ => exact c.parse_rank q now p
  | imbue k room => exact c.imbue_rank q k.connector room

namespace Transport

variable {t t' : Transport} {out : Option Packet}

/-- No event takes a channel back. -/
theorem act_rank {e : Event} (h : t.act e = some (t', out)) :
    t.connector.status.rank ≤ t'.connector.status.rank :=
  (act_turn h).rank

theorem act_over {e : Event} (h : t.act e = some (t', out))
    (hover : t.connector.status.over = true) : t'.connector.status.over = true :=
  decide_eq_true (Nat.le_trans (of_decide_eq_true hover) (act_rank h))

theorem act_finished {e : Event} (h : t.act e = some (t', out))
    (hfin : t.connector.status = .finished) : t'.connector.status = .finished := by
  refine Status.finished_of_rank ?_
  rw [← hfin]
  exact act_rank h

end Transport

/-! ## The streamers' part of an event -/

/-- What an event does to the two streamers, and what it sends. -/
inductive Transport.Halves (t : Transport) (e : Event) (t' : Transport) (out : Option Packet) :
    Prop where
  | quiet (sink : t'.istreamer = t.istreamer) (source : t'.ostreamer = t.ostreamer)
      (sent : ∀ p, out = some p → ∀ x ∈ p.body, x.forSink = false ∧ x.forSource = false)
  | opened (fresh : t.connector.status = .neither) (sink : t'.istreamer = t.istreamer.init)
      (source : t'.ostreamer = t.ostreamer.init) (silent : out = none)
  | read (buffer : Bytes) (k : Handler) (event : e = .read buffer k)
      (linked : t.connector.status = .linked)
      (sink : t.istreamer.append buffer k = some t'.istreamer)
      (source : t'.ostreamer = t.ostreamer) (silent : out = none)
  | write (buffer : Bytes) (k : Handler) (event : e = .write buffer k)
      (linked : t.connector.status = .linked) (sink : t'.istreamer = t.istreamer)
      (source : t'.ostreamer = t.ostreamer.append t.qos buffer k) (silent : out = none)
  | parsed (now : Time) (p : Packet) (event : e = .feed now p)
      (admits : t.connector.admits p.pin = true) (streams : t.connector.status.streams = true)
      (sink : t.istreamer.parse t.qos p = some t'.istreamer)
      (source : t'.ostreamer = t.ostreamer.parse p) (silent : out = none)
  | closed (now : Time) (p : Packet) {i : Istreamer} {o : Ostreamer} (event : e = .feed now p)
      (admits : t.connector.admits p.pin = true)
      (streams : (t.connector.status.streams = true ∧ t.istreamer.parse t.qos p = some i ∧
        o = t.ostreamer.parse p) ∨ (i = t.istreamer ∧ o = t.ostreamer))
      (ended : t'.connector.status.over = true)
      (sink : t'.istreamer = i.error .connectionAborted)
      (source : t'.ostreamer = o.error .connectionAborted) (silent : out = none)
  | aborted (ec : Ec) (fails : ec ≠ .success) (ended : t'.connector.status.over = true)
      (sink : t'.istreamer = t.istreamer.error ec) (source : t'.ostreamer = t.ostreamer.error ec)
      (silent : out = none)
  | round (k : Clock) (roomI roomO : Nat) (event : e = .produce k)
      (speaks : t'.connector.status.speaks = true)
      (sink : t'.istreamer = (t.istreamer.imbue k.istreamer t.connector.resend roomI).1)
      (source : t'.ostreamer =
        (t.ostreamer.imbue t.qos k.ostreamer t.connector.resend roomO).1)
      (sent : ∀ p, out = some p → ∀ x ∈ p.body, (x.forSink = false ∧ x.forSource = false) ∨
        x ∈ (t.istreamer.imbue k.istreamer t.connector.resend roomI).2 ∨
        x ∈ (t.ostreamer.imbue t.qos k.ostreamer t.connector.resend roomO).2.1)

namespace Transport

variable {t t' : Transport} {out : Option Packet}

/-- An event does nothing else to the streamers, and nothing to the parameters. -/
theorem act_cases {e : Event} (hsound : e.sound = true) (h : t.act e = some (t', out)) :
    t'.qos = t.qos ∧ t.Halves e t' out := by
  have quiet : ∀ {u : Transport}, u.istreamer = t.istreamer → u.ostreamer = t.ostreamer →
      t.Halves e u none := fun hi ho => .quiet hi ho fun p hp => by cases hp
  cases e with
  | openAt =>
    cases h
    unfold openAt
    split
    · next hs => exact ⟨rfl, .opened hs rfl rfl rfl⟩
    · exact ⟨rfl, quiet rfl rfl⟩
  | connect now pin k socket =>
    cases h
    unfold connect
    split
    · exact ⟨rfl, quiet rfl rfl⟩
    · split <;> exact ⟨rfl, quiet rfl rfl⟩
  | accept now pin k socket =>
    cases h
    unfold accept
    split
    · exact ⟨rfl, quiet rfl rfl⟩
    · split <;> exact ⟨rfl, quiet rfl rfl⟩
  | shutdown now k =>
    cases h
    exact ⟨rfl, quiet rfl rfl⟩
  | mistake ec =>
    cases h
    exact ⟨rfl, .aborted ec (of_decide_eq_true hsound) rfl rfl rfl rfl⟩
  | read buffer k =>
    obtain ⟨u, hu, heq⟩ := Option.map_eq_some_iff.mp h
    cases heq
    unfold read at hu
    split at hu
    · next hl =>
      obtain ⟨i, hi, hu⟩ := Option.bind_eq_some_iff.mp hu
      cases hu
      exact ⟨rfl, .read buffer k rfl hl hi rfl rfl⟩
    · cases hu
      exact ⟨rfl, quiet rfl rfl⟩
  | write buffer k =>
    cases h
    unfold write
    split
    · next hl => exact ⟨rfl, .write buffer k rfl hl rfl rfl rfl⟩
    · exact ⟨rfl, quiet rfl rfl⟩
  | feed now p =>
    obtain ⟨u, hu, heq⟩ := Option.map_eq_some_iff.mp h
    cases heq
    rcases feed_cases hu with ⟨_, rfl⟩ | ⟨hadmits, i, o, hstreams, ⟨hclosing, rfl⟩ | ⟨_, rfl⟩⟩
    · exact ⟨rfl, quiet rfl rfl⟩
    · refine ⟨rfl, .closed now p rfl hadmits ?_ (Status.over_of_closing hclosing) rfl rfl rfl⟩
      exact hstreams.imp id fun h => h.2
    · rcases hstreams with ⟨hs, hi, rfl⟩ | ⟨_, rfl, rfl⟩
      · exact ⟨rfl, .parsed now p rfl hadmits hs hi rfl rfl⟩
      · exact ⟨rfl, quiet rfl rfl⟩
  | consume =>
    cases h
    unfold consume
    split
    · next hfin =>
      have hover : t.connector.status.over = true := by
        rw [hfin]
        rfl
      exact ⟨rfl, .aborted .connectionAborted (by decide) hover rfl rfl rfl⟩
    · exact ⟨rfl, quiet rfl rfl⟩
  | produce k =>
    rcases produce_cases h with ⟨hfin, rfl, rfl⟩ | ⟨_, room, hround⟩
    · have hover : t.connector.status.over = true := by
        rw [hfin]
        rfl
      exact ⟨rfl, .aborted .connectionAborted (by decide) hover rfl rfl rfl⟩
    · have hconn := t.connector.imbue_sections t.qos k.connector room
      have hresend := (t.connector.imbue_keeps t.qos k.connector room).2.2
      rcases hround with ⟨hspeaks, roomI, roomO, rfl, hout⟩ | ⟨_, rfl, hout⟩
      · refine ⟨rfl, .round k roomI roomO rfl hspeaks ?_ ?_ ?_⟩
        · rw [hresend]
        · rw [hresend]
        · intro p hp x hx
          rw [hout p hp, hresend] at hx
          rcases List.mem_append.mp hx with hx | hx
          · exact (List.mem_append.mp hx).imp (hconn x) .inl
          · exact .inr (.inr hx)
      · refine ⟨rfl, .quiet rfl rfl fun p hp x hx => ?_⟩
        rw [hout p hp] at hx
        exact hconn x hx

end Transport

/-- One operation of a receiving half. It parses packets that meet `fed`. -/
inductive Istreamer.Op (q : Qos) (fed : Packet → Prop) : Istreamer → Istreamer → Prop where
  | init (i : Istreamer) : Op q fed i i.init
  | append {i i' : Istreamer} (buffer : Bytes) (k : Handler) (lt : buffer.length < 2 ^ 64)
      (h : i.append buffer k = some i') : Op q fed i i'
  | parse {i i' : Istreamer} (p : Packet) (hfed : fed p) (h : i.parse q p = some i') :
      Op q fed i i'
  | imbue (now : Time) (resend : Int) (room : Nat) (i : Istreamer) :
      Op q fed i (i.imbue now resend room).1
  | error (i : Istreamer) (ec : Ec) (fails : ec ≠ .success) : Op q fed i (i.error ec)

theorem Istreamer.Op.mono {q : Qos} {fed fed' : Packet → Prop} (weaker : ∀ p, fed p → fed' p)
    {i i' : Istreamer} (h : Istreamer.Op q fed i i') : Istreamer.Op q fed' i i' := by
  cases h with
  | init => exact .init _
  | append buffer k lt happend => exact .append buffer k lt happend
  | parse p hfed hparse => exact .parse p (weaker p hfed) hparse
  | imbue now resend room => exact .imbue now resend room _
  | error _ ec fails => exact .error _ ec fails

/-- One operation of a sending half. It parses packets that meet `fed`, and takes writes only
when `linked`. -/
inductive Ostreamer.Op (q : Qos) (fed : Packet → Prop) (linked : Prop) :
    Ostreamer → Ostreamer → Prop where
  | init (o : Ostreamer) : Op q fed linked o o.init
  | append (o : Ostreamer) (buffer : Bytes) (k : Handler) (lt : buffer.length < 2 ^ 64)
      (hl : linked) : Op q fed linked o (o.append q buffer k)
  | parse (o : Ostreamer) (p : Packet) (hfed : fed p) : Op q fed linked o (o.parse p)
  | imbue (now : Time) (resend : Int) (room : Nat) (o : Ostreamer) :
      Op q fed linked o (o.imbue q now resend room).1
  | error (o : Ostreamer) (ec : Ec) (fails : ec ≠ .success) : Op q fed linked o (o.error ec)

namespace Transport

open Relation (ReflTransGen)

variable {t t' : Transport} {out : Option Packet}

/-- The packet that an event hands to the streamers. -/
def Fed (t : Transport) (e : Event) (p : Packet) : Prop :=
  (∃ now, e = .feed now p) ∧ t.connector.admits p.pin = true

/-- An event changes the streamers by their own operations only, and the parameters not at
all. -/
theorem act_halves {e : Event} (hsound : e.sound = true) (h : t.act e = some (t', out)) :
    t'.qos = t.qos ∧ ReflTransGen (Istreamer.Op t.qos (t.Fed e)) t.istreamer t'.istreamer ∧
      ReflTransGen (Ostreamer.Op t.qos (t.Fed e) (t.connector.status = .linked))
        t.ostreamer t'.ostreamer := by
  obtain ⟨hq, halves⟩ := act_cases hsound h
  refine ⟨hq, ?_⟩
  cases halves with
  | quiet sink source _ =>
    rw [sink, source]
    exact ⟨.refl, .refl⟩
  | opened _ sink source _ =>
    rw [sink, source]
    exact ⟨.single (.init _), .single (.init _)⟩
  | read buffer k event _ sink source _ =>
    subst event
    rw [source]
    exact ⟨.single (.append _ _ (of_decide_eq_true hsound) sink), .refl⟩
  | write buffer k event linked sink source _ =>
    subst event
    rw [sink, source]
    exact ⟨.refl, .single (.append _ _ _ (of_decide_eq_true hsound) linked)⟩
  | parsed now p event admits _ sink source _ =>
    have hfed : t.Fed e p := ⟨⟨now, event⟩, admits⟩
    rw [source]
    exact ⟨.single (.parse _ hfed sink), .single (.parse _ _ hfed)⟩
  | closed now p event admits streams _ sink source _ =>
    have hfed : t.Fed e p := ⟨⟨now, event⟩, admits⟩
    rw [sink, source]
    rcases streams with ⟨_, hi, rfl⟩ | ⟨rfl, rfl⟩
    · exact ⟨.tail (.single (.parse _ hfed hi)) (.error _ _ (by decide)),
        .tail (.single (.parse _ _ hfed)) (.error _ _ (by decide))⟩
    · exact ⟨.single (.error _ _ (by decide)), .single (.error _ _ (by decide))⟩
  | aborted ec fails _ sink source _ =>
    rw [sink, source]
    exact ⟨.single (.error _ _ fails), .single (.error _ _ fails)⟩
  | round k roomI roomO _ _ sink source _ =>
    rw [sink, source]
    exact ⟨.single (.imbue _ _ _ _), .single (.imbue _ _ _ _)⟩

/-- A step of a channel is an event that its callers may cause. -/
theorem step_act {q : Qos} {e : Event} (h : (system q).step t e = some t') :
    e.sound = true ∧ ∃ out, t.act e = some (t', out) := by
  obtain ⟨hsound, hmap⟩ := Option.ite_none_right_eq_some.mp h
  obtain ⟨⟨u, out⟩, hact, rfl⟩ := Option.map_eq_some_iff.mp hmap
  exact ⟨hsound, out, hact⟩

/-- What every event keeps holds of every channel, and its parameters stay. -/
theorem act_invariant {q : Qos} {ok : Transport → Event → Prop} {P : Transport → Prop}
    (start : P (create q))
    (act : ∀ t e t' out, ok t e → t.qos = q → e.sound = true → t.act e = some (t', out) →
      P t → P t') (h : (system q).Reaches ok t) : t.qos = q ∧ P t := by
  refine h.invariant (P := fun t => t.qos = q ∧ P t) ?_ ?_
  · rintro s rfl
    exact ⟨rfl, start⟩
  · rintro s e s' hok ⟨hq, hs⟩ hstep
    obtain ⟨hsound, out, hact⟩ := step_act hstep
    exact ⟨(act_cases hsound hact).1.trans hq, act s e s' out hok hq hsound hact hs⟩

/-- What one step of a relation keeps, a sequence of steps keeps. -/
theorem keeps_of_steps {α : Type} {r : α → α → Prop} {P : α → Prop}
    (step : ∀ x y, r x y → P x → P y) {x y : α} (h : ReflTransGen r x y) (hx : P x) : P y := by
  induction h with
  | refl => exact hx
  | tail _ hstep ih => exact step _ _ hstep ih

/-- What every operation of a receiving half keeps, where it parses packets that meet `fed`, holds
of every channel that is fed such packets only. -/
theorem istreamer_invariant_fed {q : Qos} {fed : Packet → Prop} {P : Istreamer → Prop}
    (start : P (.create q)) (op : ∀ i i', Istreamer.Op q fed i i' → P i → P i')
    {ok : Transport → Event → Prop} (hfed : ∀ t e p, ok t e → t.Fed e p → fed p)
    (h : (system q).Reaches ok t) : t.qos = q ∧ P t.istreamer := by
  refine act_invariant (P := fun t => P t.istreamer) start ?_ h
  intro s e s' out hok hq hsound hact hs
  obtain ⟨-, hsteps, -⟩ := act_halves hsound hact
  rw [hq] at hsteps
  refine keeps_of_steps (fun i i' hop => op i i' ?_) hsteps hs
  exact hop.mono fun p => hfed s e p hok

/-- What every operation of a receiving half keeps holds of every channel's. -/
theorem istreamer_invariant {q : Qos} {P : Istreamer → Prop} (start : P (.create q))
    (op : ∀ fed i i', Istreamer.Op q fed i i' → P i → P i') {ok : Transport → Event → Prop}
    (h : (system q).Reaches ok t) : t.qos = q ∧ P t.istreamer :=
  istreamer_invariant_fed start (op fun _ => True) (fun _ _ _ _ _ => trivial) h

/-- What every operation of a sending half keeps holds of every channel's. -/
theorem ostreamer_invariant {q : Qos} {P : Ostreamer → Prop} (start : P .create)
    (op : ∀ fed linked o o', Ostreamer.Op q fed linked o o' → P o → P o')
    {ok : Transport → Event → Prop} (h : (system q).Reaches ok t) : P t.ostreamer := by
  refine (act_invariant (P := fun t => P t.ostreamer) start ?_ h).2
  intro s e s' out _ hq hsound hact hs
  obtain ⟨-, -, hsteps⟩ := act_halves hsound hact
  rw [hq] at hsteps
  exact keeps_of_steps (op _ _) hsteps hs

end Transport

end Tubus.Udp
