import Tubus.Laws.Emission
import Tubus.Laws.Lifecycle
import Tubus.Laws.Resend

/-!
# Questions put again

A connector that needs an answer has the job queued that asks for it (`Armed`). A round that finds
the job due writes it, whatever else is due, and puts it off by the resend interval (`Repeats`). So
the question is put again until it is answered or given up, unless the job is put off beyond the
last reading of the clock, as it is by an interval that is `not_a_date_time` (`link_stops`).
-/

namespace Tubus.Udp

open Lib
open Transport (sizes)

/-- The job that puts the question of a state. -/
def Status.asks : Status → Option Job
  | .connecting => some .link
  | .shutting => some .tear
  | .linked => some .ping
  | .neither | .initial | .accepting | .tearing | .finished => none

theorem Status.isEcho_of_asks {s : Status} {job : Job} (h : s.asks = some job) :
    job.isEcho = false := by
  cases s <;> cases h <;> rfl

namespace Connector

variable {q : Qos} {w : Prop} {f : Section → Prop} {given lost : List Handler} {c c' : Connector}
  {now : Time} {job : Job} {time : Time}

/-! ## What is before the question -/

/-- A link is queued only while the connector connects, and a tear only while it shuts down, or at
the end. -/
structure Placed (c : Connector) : Prop where
  link : .link ∈ c.jobs.keys → c.status = .connecting ∨ c.status = .finished
  tear : .tear ∈ c.jobs.keys → c.status = .shutting ∨ c.status = .finished

namespace Placed

theorem create : Placed .create := ⟨fun h => (by cases h), fun h => (by cases h)⟩

/-- Neither of the two comes, and the state stays or is the last one. -/
theorem keep (p : Placed c) (hstatus : c'.status = c.status ∨ c'.status = .finished)
    (hlink : .link ∈ c'.jobs.keys → .link ∈ c.jobs.keys)
    (htear : .tear ∈ c'.jobs.keys → .tear ∈ c.jobs.keys) : Placed c' := by
  obtain hstatus | hstatus := hstatus
  · exact ⟨fun h => hstatus ▸ p.link (hlink h), fun h => hstatus ▸ p.tear (htear h)⟩
  · exact ⟨fun _ => .inr hstatus, fun _ => .inr hstatus⟩

/-- In the other states neither of the two is queued. -/
theorem absent (p : Placed c) (hconnecting : c.status ≠ .connecting)
    (hshutting : c.status ≠ .shutting) (hfinished : c.status ≠ .finished) :
    .link ∉ c.jobs.keys ∧ .tear ∉ c.jobs.keys :=
  ⟨fun h => (p.link h).elim hconnecting hfinished, fun h => (p.tear h).elim hshutting hfinished⟩

/-- A job of another kind is queued. -/
theorem emplace (p : Placed c) {j : Job} (time : Time) (hlink : j ≠ .link) (htear : j ≠ .tear) :
    Placed { c with jobs := c.jobs.emplace j time } :=
  p.keep (.inl rfl) (fun h => (SortedMap.mem_keys_emplace.mp h).resolve_right hlink.symm)
    (fun h => (SortedMap.mem_keys_emplace.mp h).resolve_right htear.symm)

theorem erase (p : Placed c) (j : Job) : Placed { c with jobs := c.jobs.erase j } :=
  p.keep (.inl rfl) (fun h => (SortedMap.mem_keys_erase.mp h).1)
    (fun h => (SortedMap.mem_keys_erase.mp h).1)

theorem take (p : Placed c) (pin : Nat) (s : Section) : Placed (c.take q pin s) := by
  have h := take_took q pin c s
  generalize c.take q pin s = c' at h ⊢
  cases h with
  | link => exact (p.emplace zeroTime Job.noConfusion Job.noConfusion).keep (.inl rfl) id id
  | linked hc =>
    -- the link is answered, and no tear is there yet
    constructor
    · intro hk
      have hback := (SortedMap.mem_keys_emplace.mp hk).resolve_right Job.noConfusion
      exact absurd rfl (SortedMap.mem_keys_erase.mp hback).2
    · intro hk
      have hback := (SortedMap.mem_keys_emplace.mp hk).resolve_right Job.noConfusion
      have hplace := p.tear (SortedMap.mem_keys_erase.mp hback).1
      rw [hc] at hplace
      exact absurd hplace (by decide)
  | tearing hc =>
    obtain ⟨hlink, htear⟩ := (p.emplace zeroTime (j := .tearEcho) Job.noConfusion
      Job.noConfusion).absent (by simp [hc]) (by simp [hc]) (by simp [hc])
    exact ⟨fun h => absurd h hlink, fun h => absurd h htear⟩
  | tear => exact p.emplace zeroTime Job.noConfusion Job.noConfusion
  | finished => exact (p.erase .tear).keep (.inr rfl) id id
  | ping v => exact p.emplace _ Job.noConfusion Job.noConfusion
  | pingEcho v =>
    exact ((p.erase .ping).emplace (j := .ping) (later c.seen q.pingTimeout) Job.noConfusion
      Job.noConfusion).keep (.inl rfl) id id
  | quiet => exact p

theorem wrote (p : Placed c) (now : Time) (job : Job) : Placed (c.wrote now job) := by
  have h := wrote_wrote now c job
  generalize c.wrote now job = c' at h ⊢
  cases h with
  | linked hc =>
    obtain ⟨hlink, htear⟩ := (p.erase .linkEcho).absent (by simp [hc]) (by simp [hc]) (by simp [hc])
    exact ⟨fun h => absurd h hlink, fun h => absurd h htear⟩
  | linkEcho => exact p.erase .linkEcho
  | pingEcho => exact p.erase .pingEcho
  | finished => exact (p.erase .tearEcho).keep (.inr rfl) id id
  | again =>
    refine p.keep (.inl rfl) (fun h => ?_) fun h => ?_
    · rwa [SortedMap.keys_modify] at h
    · rwa [SortedMap.keys_modify] at h

theorem shutdown (p : Placed c) (now : Time) (k : Handler) : Placed (c.shutdown q now k) := by
  unfold Connector.shutdown
  split
  · exact p.keep (.inl rfl) id id
  · next hc =>
    have habsent := p.absent (by simp [hc]) (by simp [hc]) (by simp [hc])
    exact ⟨fun h => absurd ((SortedMap.mem_keys_emplace.mp h).resolve_right Job.noConfusion)
      habsent.1, fun _ => .inl rfl⟩
  · exact p.keep (.inl rfl) id id
  · exact p.keep (.inl rfl) id id
  · exact p.keep (.inl rfl) id id

/-- Every move keeps the two in their places. -/
theorem move (p : Placed c) (h : Move q w f given lost c c') : Placed c' := by
  cases h with
  | init hc =>
    obtain ⟨hlink, htear⟩ := p.absent (by simp [hc]) (by simp [hc]) (by simp [hc])
    exact ⟨fun h => absurd h hlink, fun h => absurd h htear⟩
  | hear => exact p.keep (.inl rfl) id id
  | @take _ pin s => exact p.take pin s
  | giveUp => exact p.keep (.inl rfl) id id
  | wrote _ now item => exact p.wrote now item.1
  | refuse => exact p.keep (.inl rfl) id id
  | connect now k hpin hc =>
    have habsent := p.absent (by simp [hc]) (by simp [hc]) (by simp [hc])
    rw [Connector.connect, if_pos hc]
    exact ⟨fun _ => .inl rfl, fun h =>
      absurd ((SortedMap.mem_keys_emplace.mp h).resolve_right Job.noConfusion) habsent.2⟩
  | accept now k hpin hc =>
    obtain ⟨hlink, htear⟩ := p.absent (by simp [hc]) (by simp [hc]) (by simp [hc])
    rw [Connector.accept, if_pos hc]
    exact ⟨fun h => absurd h hlink, fun h => absurd h htear⟩
  | shutdown _ now k => exact p.shutdown now k
  | error => exact ⟨fun _ => .inr rfl, fun _ => .inr rfl⟩

/-- Only two echoes can be before the question of a state. -/
theorem before (p : Placed c) (hasks : c.status.asks = some job) {pre post : List (Job × Time)}
    (hsplit : c.jobs.entries = pre ++ (job, time) :: post) :
    ∀ e ∈ pre, e.1 ∈ ({.linkEcho, .tearEcho} : Finset Job) := by
  intro e he
  have hlt := (SortedMap.ne_of_split hsplit).1 e he
  have hkey : e.1 ∈ c.jobs.keys := by
    refine SortedMap.mem_keys.mpr ⟨e.2, ?_⟩
    rw [hsplit]
    exact List.mem_append_left _ he
  obtain ⟨j, time'⟩ := e
  dsimp only at hlt hkey ⊢
  cases hc : c.status <;> rw [hc] at hasks <;> cases hasks
  case connecting => revert hlt; cases j <;> decide
  case linked =>
    obtain ⟨hlink, htear⟩ := p.absent (by simp [hc]) (by simp [hc]) (by simp [hc])
    cases j with
    | link => exact absurd hkey hlink
    | tear => exact absurd hkey htear
    | linkEcho | tearEcho => simp
    | ping | pingEcho => revert hlt; decide
  case shutting =>
    cases j with
    | link => exact absurd (p.link hkey) (by simp [hc])
    | linkEcho => simp
    | tear | tearEcho | ping | pingEcho => revert hlt; decide

end Placed

/-! ## The question of a round -/

/-- The question of a state is written by a round that finds it due. -/
theorem imbue_asks (p : Placed c) (hasks : c.status.asks = some job)
    (hqueued : (job, time) ∈ c.jobs.entries) (hdue : time < now) (htime : c.timedOut q now = false)
    {room : Nat} (hroom : 20 ≤ room) : sectionOf now (job, time) ∈ (c.imbue q now room).2 := by
  obtain ⟨pre, post, hsplit⟩ := List.append_of_mem hqueued
  have hbefore := p.before hasks hsplit
  have hsub : pre.Sublist c.jobs.entries := hsplit ▸ List.sublist_append_left pre _
  have hsum : sizes ((dues now pre).map (sectionOf now)) ≤ 8 :=
    sizes_dues_le_sum now c hsub hbefore
  have hechoes : ∀ e ∈ pre, due now e = true → (e.1.isEcho || !c.relapses now) = true := by
    intro e he _
    obtain he | he : e.1 = .linkEcho ∨ e.1 = .tearEcho := by simpa using hbefore e he
    · rw [he]
      rfl
    · rw [he]
      rfl
  have hheader : Section.headerSize = 4 := rfl
  have hleft : Section.headerSize ≤ room - sizes ((dues now pre).map (sectionOf now)) := by omega
  have hready : due now (job, time) = true := by
    rw [due, decide_eq_true hdue, Bool.or_true]
  have hturn : (job, time) ∈ turns now (c.relapses now)
      (room - sizes ((dues now pre).map (sectionOf now))) ((job, time) :: post) := by
    rw [turns, if_pos ⟨hleft, hready⟩]
    split
    · exact List.mem_cons_self
    · rw [rounds_succ hleft, List.replicate_succ]
      exact List.mem_cons_self
  unfold imbue
  rw [if_neg (by rw [htime]; decide), (imbueLoop_turns room room
    (List.nil_append c.jobs.entries).symm (fun e he => absurd he List.not_mem_nil)
    (Nat.le_refl room)).1]
  apply List.mem_map_of_mem
  rw [hsplit, turns_append hechoes (by omega)]
  exact List.mem_append_right _ hturn

/-- To write a job leaves the others in the queue. -/
theorem mem_wrote {j : Job} {e : Job × Time} (he : e ∈ c.jobs.entries) (hne : e.1 ≠ j) :
    e ∈ (c.wrote now j).jobs.entries := by
  have h := wrote_wrote now c j
  generalize c.wrote now j = c' at h ⊢
  cases h with
  | linked | linkEcho | pingEcho | finished => exact SortedMap.mem_erase.mpr ⟨he, hne⟩
  | again => exact SortedMap.mem_modify.mpr (.inl ⟨he, hne⟩)

/-- A question that was written is put off. -/
theorem imbue_puts_off (q : Qos) (hecho : job.isEcho = false) (room : Nat)
    (h : sectionOf now (job, time) ∈ (c.imbue q now room).2) :
    (job, later now c.resend) ∈ (c.imbue q now room).1.jobs.entries := by
  have hall : (c.imbue q now room).1.resend = c.resend ∧
      (sectionOf now (job, time) ∈ (c.imbue q now room).2 →
        (job, later now c.resend) ∈ (c.imbue q now room).1.jobs.entries) := by
    refine imbue_induct q now (P := fun c' l => c'.resend = c.resend ∧
      (sectionOf now (job, time) ∈ l → (job, later now c.resend) ∈ c'.jobs.entries)) id ?_ room
      ⟨rfl, fun h => absurd h List.not_mem_nil⟩
    rintro c' l ⟨j, time'⟩ hmem - ⟨hresend, hput⟩
    refine ⟨(c'.wrote_keeps now j).2.2.trans hresend, fun hs => ?_⟩
    by_cases hj : j = job
    · subst hj
      have hagain : (c'.wrote now j).jobs = c'.jobs.modify j fun _ => later now c'.resend := by
        cases j <;> first | rfl | cases hecho
      rw [hagain, hresend]
      exact SortedMap.mem_modify.mpr (.inr ⟨rfl, time', hmem, rfl⟩)
    · have hother : sectionOf now (job, time) ≠ sectionOf now (j, time') := by
        intro heq
        have hcode := congrArg Section.code heq
        rw [code_sectionOf, code_sectionOf] at hcode
        exact hj (Job.code_injective hcode).symm
      have hbefore := (List.mem_append.mp hs).resolve_right fun hlast =>
        hother (List.mem_singleton.mp hlast)
      exact mem_wrote (hput hbefore) fun heq => hj heq.symm
  exact hall.2 h

/-! ## The next time -/

/-- Each job that is no echo comes up again: a reading of the clock is behind its time. -/
def Recurring (c : Connector) : Prop :=
  ∀ e ∈ c.jobs.entries, e.1.isEcho = false → e.2 < maxDateTime

theorem Recurring.emplace (p : Recurring c) {j : Job} {t : Time} (ht : t < maxDateTime) :
    Recurring { c with jobs := c.jobs.emplace j t } := by
  intro e he hecho
  obtain he | ⟨rfl, -⟩ := SortedMap.mem_emplace.mp he
  · exact p e he hecho
  · exact ht

theorem Recurring.erase (p : Recurring c) (j : Job) : Recurring { c with jobs := c.jobs.erase j } :=
  fun e he hecho => p e (SortedMap.mem_erase.mp he).1 hecho

theorem zeroTime_lt : zeroTime < maxDateTime := by decide

/-- A section keeps that, unless it is an echo of a ping close to the end of the calendar. -/
theorem Recurring.take (p : Recurring c) (pin : Nat) (s : Section)
    (hecho : ∀ v, s = .pingEcho v → later c.seen q.pingTimeout < maxDateTime) :
    Recurring (c.take q pin s) := by
  have h := take_took q pin c s
  generalize c.take q pin s = c' at h ⊢
  cases h with
  | link | tearing | tear => exact p.emplace zeroTime_lt
  | linked => exact (p.erase .link).emplace zeroTime_lt
  | finished => exact p.erase .tear
  | ping v =>
    intro e he hjob
    obtain he | ⟨rfl, -⟩ := SortedMap.mem_emplace.mp he
    · exact p e he hjob
    · cases hjob
  | pingEcho v => exact (p.erase .ping).emplace (hecho v rfl)
  | quiet => exact p

/-- The jobs after a round are those before it, and those that a question was put off with. -/
theorem imbue_entries (q : Qos) (now : Time) (room : Nat) (c : Connector) :
    ∀ e ∈ (c.imbue q now room).1.jobs.entries, e ∈ c.jobs.entries ∨
      e.2 = later now c.resend ∧ (c.question now).isSome = true ∧ c.timedOut q now = false := by
  unfold imbue
  split
  · exact fun e he => .inl he
  · next htime =>
    have hall : (imbueLoop now room room c).1.resend = c.resend ∧
        ∀ e ∈ (imbueLoop now room room c).1.jobs.entries, e ∈ c.jobs.entries ∨
          e.2 = later now c.resend ∧ (c.question now).isSome = true := by
      refine imbueLoop_induct (P := fun c' _ => c'.resend = c.resend ∧
        ∀ e ∈ c'.jobs.entries, e ∈ c.jobs.entries ∨
          e.2 = later now c.resend ∧ (c.question now).isSome = true) ?_ room room (l := [])
        ⟨rfl, fun e he => .inl he⟩
      rintro c' _ ⟨j, time⟩ hmem hdue ⟨hresend, hback⟩
      refine ⟨(c'.wrote_keeps now j).2.2.trans hresend, ?_⟩
      have h := wrote_wrote now c' j
      generalize c'.wrote now j = c'' at h ⊢
      intro e he
      cases h with
      | linked | linkEcho | pingEcho | finished => exact hback e (SortedMap.mem_erase.mp he).1
      | again hjob =>
        obtain ⟨he, -⟩ | ⟨-, _, -, htime'⟩ := SortedMap.mem_modify.mp he
        · exact hback e he
        · refine .inr ⟨htime'.trans (by rw [hresend]), ?_⟩
          obtain hold | ⟨-, hsome⟩ := hback _ hmem
          · exact List.find?_isSome.mpr ⟨_, hold, by simp [hdue, hjob]⟩
          · exact hsome
    intro e he
    exact (hall.2 e he).imp_right fun h => ⟨h.1, h.2, Bool.eq_false_iff.mpr htime⟩

end Connector

namespace Transport

open Connector (sectionOf)

variable {t t' : Transport}

/-- No round puts a question off beyond the last reading of the clock, and none has a ping beyond
the end of its packet; and no ping is put off that far when it is answered. -/
def Timely (t : Transport) : Event → Prop
  | .produce k => t.overruns k = false ∧
    (t.connector.timedOut t.qos k.connector = false →
      (t.connector.question k.connector).isSome = true →
        later k.connector t.connector.resend < maxDateTime)
  | .feed now p => t.connector.admits p.pin = true → ∀ v, .pingEcho v ∈ p.body →
    later now t.qos.pingTimeout < maxDateTime
  | .openAt | .connect _ _ _ _ | .accept _ _ _ _ | .shutdown _ _ | .mistake _ | .read _ _
  | .write _ _ | .consume => True

/-- The job comes up again, and a round that finds it due sends its section and puts it off. -/
def Repeats (t : Transport) (job : Job) : Prop :=
  ∀ time, (job, time) ∈ t.connector.jobs.entries → time < maxDateTime ∧
    ∀ k, t.Timely (.produce k) → time < k.connector →
      t.connector.timedOut t.qos k.connector = false → ∃ t' p,
        t.act (.produce k) = some (t', some p) ∧ sectionOf k.connector (job, time) ∈ p.body ∧
          (job, later k.connector t.connector.resend) ∈ t'.connector.jobs.entries

/-- One event keeps the jobs coming up again. -/
theorem turn_recurring {q : Qos} {c c' : Connector} {e : Event} (h : c.Turn q e c')
    (hround : ∀ k, e = .produce k → c.timedOut q k.connector = false →
      (c.question k.connector).isSome = true → later k.connector c.resend < maxDateTime)
    (hecho : ∀ now p, e = .feed now p → c.admits p.pin = true → ∀ v, .pingEcho v ∈ p.body →
      later now q.pingTimeout < maxDateTime)
    (hc : c.Recurring) : c'.Recurring := by
  cases h with
  | quiet => exact hc
  | init => exact hc
  | refuse => exact hc
  | connect now pin k socket fresh =>
    rw [Connector.connect, if_pos fresh]
    exact hc.emplace Connector.zeroTime_lt
  | accept now pin k socket fresh =>
    rw [Connector.accept, if_pos fresh]
    exact hc
  | shutdown now k =>
    unfold Connector.shutdown
    split
    · exact hc
    · exact hc.emplace Connector.zeroTime_lt
    · exact hc
    · exact hc
    · exact hc
  | error ec => exact fun e he => absurd he List.not_mem_nil
  | parse now p admits =>
    have hparse : (c.parse q now p).seen = now ∧ (c.parse q now p).Recurring := by
      refine Connector.parse_induct (P := fun c' => c'.seen = now ∧ c'.Recurring) ?_ ⟨rfl, hc⟩
      rintro c₁ s hs ⟨hseen, hc₁⟩
      refine ⟨(take_seen q p.pin c₁ s).trans hseen, hc₁.take p.pin s ?_⟩
      rintro v rfl
      rw [hseen]
      exact hecho now p rfl admits v hs
    exact hparse.2
  | imbue k room =>
    intro e he hjob
    obtain he | ⟨htime, hquestion, hlate⟩ := c.imbue_entries q k.connector room e he
    · exact hc e he hjob
    · rw [htime]
      exact hround k rfl hlate hquestion

/-- What the connector writes is part of the packet, and what it leaves is left. -/
theorem imbue_connector (k : Clock) (room : Nat) (t : Transport) :
    (t.imbue k room).1.connector = (t.connector.imbue t.qos k.connector room).1 ∧
      ∀ s ∈ (t.connector.imbue t.qos k.connector room).2, s ∈ (t.imbue k room).2.1 := by
  unfold imbue
  dsimp only
  split
  · refine ⟨rfl, fun s hs => ?_⟩
    exact List.mem_append_left _ (List.mem_append_left _ hs)
  · exact ⟨rfl, fun s hs => hs⟩

/-- The question of a state is put again. -/
theorem asks_repeats {job : Job} (hplaced : t.connector.Placed) (hrecurring : t.connector.Recurring)
    (hmin : 56 ≤ t.qos.maxPacketSize) (hasks : t.connector.status.asks = some job) :
    t.Repeats job := by
  have hecho := Status.isEcho_of_asks hasks
  intro time hqueued
  refine ⟨hrecurring _ hqueued hecho, fun k ⟨hfit, _⟩ hdue hlate => ?_⟩
  have hfin : t.connector.status ≠ .finished := by
    intro hfin
    rw [hfin] at hasks
    cases hasks
  have hheader : Datagram.headerSize = 16 := rfl
  have hroom : 20 ≤ t.room := by
    show 20 ≤ t.qos.maxPacketSize - Datagram.headerSize
    omega
  obtain ⟨hconnector, hpart⟩ := t.imbue_connector k t.room
  have hwritten := Connector.imbue_asks hplaced hasks hqueued hdue hlate hroom
  have hsent := hpart _ hwritten
  have hproduce := produce_of_le k hfin hmin (sizes_written_le k hfit hmin)
  have hsome : (t.written k).isEmpty = false := List.isEmpty_eq_false_iff_exists_mem.mpr ⟨_, hsent⟩
  rw [hsome] at hproduce
  refine ⟨t.after k, _, hproduce, hsent, ?_⟩
  show _ ∈ (t.imbue k t.room).1.connector.jobs.entries
  rw [hconnector]
  exact Connector.imbue_puts_off t.qos hecho t.room hwritten

/-- The jobs come up again in every run whose steps are timely. -/
theorem Reaches.recurring {q : Qos} (h : (system q).Reaches Timely t) : t.connector.Recurring := by
  refine (act_invariant (P := fun t => t.connector.Recurring) ?_ ?_ h).2
  · exact fun e he => absurd he List.not_mem_nil
  · intro t e t' out htimely _ _ hact hrecurring
    refine turn_recurring (act_turn hact) ?_ ?_ hrecurring
    · rintro k rfl
      exact htimely.2
    · rintro now p rfl
      exact htimely

/-- The state of a connection along every run. It only moves forward, and its end is final. In
each state that waits for an answer, the handler is stored and the job that asks for the answer
is queued; a side that connected pings as long as it is linked. So no empty handler is ever
posted, and a round that gives up has an `on_error` to call. In a run whose steps are timely, the
question is put again by each round that finds it due. -/
theorem connection_armed {q : Qos} {t t' : Transport} {es : List Event}
    (h : (system q).Reachable t) (hrun : (system q).run t es = some t') :
    (t'.connector.status = t.connector.status ∨
      t.connector.status.rank < t'.connector.status.rank) ∧
    (t.connector.status = .finished → t'.connector.status = .finished) ∧
    (t'.connector.status = .connecting → t'.connector.onConnect.isSome = true ∧
      t'.connector.localPin ≠ 0 ∧ .link ∈ t'.connector.jobs.keys) ∧
    (t'.connector.status = .accepting → t'.connector.onConnect.isSome = true ∧
      t'.connector.localPin ≠ 0 ∧
      (t'.connector.remotePin ≠ 0 → .linkEcho ∈ t'.connector.jobs.keys)) ∧
    (t'.connector.status = .shutting → t'.connector.onShutdown.isSome = true ∧
      .tear ∈ t'.connector.jobs.keys) ∧
    (t.connector.status = .connecting → t'.connector.status = .linked →
      .ping ∈ t'.connector.jobs.keys) ∧
    (∀ ec, .handler none ec ∉ t'.connector.posts) ∧
    (∀ now ≤ maxDateTime, t'.connector.status ≠ .finished →
      t'.connector.timedOut q now = true → t'.connector.onError = true) ∧
    (56 ≤ q.maxPacketSize → (system q).Reaches Timely t' →
      ∀ job, t'.connector.status.asks = some job → t'.Repeats job) := by
  obtain ⟨-, a⟩ := connector_invariant (P := Connector.Armed) .create
    (fun _ _ _ _ _ _ h a => a.move h) h
  obtain ⟨hq, placed⟩ := connector_invariant (P := Connector.Placed) .create
    (fun _ _ _ _ _ _ h p => p.move h) h
  obtain ⟨lost, hmoves⟩ := run_moves es hq hrun
  have a' : t'.connector.Armed := hmoves.induct (fun _ _ _ _ h a => a.move h) a
  have placed' : t'.connector.Placed := hmoves.induct (fun _ _ _ _ h p => p.move h) placed
  refine ⟨hmoves.forward, fun hfin => ?_, a'.connecting, a'.accepting, a'.shutting,
    fun hc hl => hmoves.ping hl hc, a'.handlers, fun now hnow hfin hlate => ?_,
    fun hmin htimely job hasks => ?_⟩
  · refine Status.finished_of_rank ?_
    rw [← hfin]
    rcases hmoves.forward with heq | hlt
    · exact Nat.le_of_eq (congrArg _ heq.symm)
    · exact Nat.le_of_lt hlt
  · by_cases hrank : 1 ≤ t'.connector.status.rank
    · exact a'.fallback hrank hfin
    · have hdead := (a'.fresh (by omega)).2.2
      have hne : t'.connector.status ≠ .linked := by
        intro hl
        rw [hl] at hrank
        exact hrank (by decide)
      simp only [Connector.timedOut, hne, decide_false, Bool.false_and, Bool.false_or, hdead,
        decide_eq_true_eq] at hlate
      exact absurd hnow (Int.not_le.mpr hlate)
  · have hq' : t'.qos = q :=
      (connector_invariant (P := fun _ => True) trivial (fun _ _ _ _ _ _ _ _ => trivial) htimely).1
    exact asks_repeats placed' (Reaches.recurring htimely) (hq' ▸ hmin) hasks

/-- The check of `Timely`, for every packet that is fed. -/
def timely (t : Transport) : Event → Bool
  | .produce k => !t.overruns k && (t.connector.timedOut t.qos k.connector ||
    (t.connector.question k.connector).isNone ||
      decide (later k.connector t.connector.resend < maxDateTime))
  | .feed now _ => decide (later now t.qos.pingTimeout < maxDateTime)
  | _ => true

theorem timely_sound (t : Transport) (e : Event) (h : t.timely e = true) : t.Timely e := by
  cases e with
  | produce k =>
    rw [timely, Bool.and_eq_true, Bool.not_eq_true'] at h
    refine ⟨h.1, fun hlate hquestion => ?_⟩
    obtain ⟨item, hitem⟩ := Option.isSome_iff_exists.mp hquestion
    simpa [hlate, hitem] using h.2
  | feed now p => exact fun _ _ _ => of_decide_eq_true h
  | _ => trivial

/-- A channel that connects is linked by the echo, and pings from then on. -/
theorem connection_armed_linked :
    ∃ t t', (system .default).Reachable t ∧ t.connector.status = .connecting ∧
      (system .default).run t [.feed 2 ⟨2, [.linkEcho]⟩] = some t' ∧
      t'.connector.status = .linked ∧ .ping ∈ t'.connector.jobs.keys ∧ t'.Repeats .ping := by
  have hrun : ((system .default).checked timely (create .default)
      [.openAt, .connect 1 1 1 .success]).map (fun t => (t.connector.status,
        ((system .default).checked timely t [.feed 2 ⟨2, [.linkEcho]⟩]).map
          (·.connector.status))) = some (.connecting, some .linked) := by decide +kernel
  obtain ⟨t, ht, hv⟩ := Option.map_eq_some_iff.mp hrun
  simp only [Prod.mk.injEq] at hv
  obtain ⟨t', ht', hl⟩ := Option.map_eq_some_iff.mp hv.2
  have hreach := System.Reaches.checked timely_sound _ (.start rfl) ht
  have hreach' := System.Reaches.checked timely_sound _ hreach ht'
  have hstep : (system .default).run t [.feed 2 ⟨2, [.linkEcho]⟩] = some t' := by
    obtain ⟨-, hrest⟩ := Option.ite_none_right_eq_some.mp ht'
    exact hrest
  have harmed := connection_armed (hreach.mono fun _ _ _ => trivial) hstep
  refine ⟨t, t', hreach.mono fun _ _ _ => trivial, hv.1, hstep, hl, ?_, ?_⟩
  · exact harmed.2.2.2.2.2.1 hv.1 hl
  · exact harmed.2.2.2.2.2.2.2.2 (by decide) hreach' .ping (by rw [hl]; rfl)

/-- An echo from before the calendar leaves a resend interval that is no duration, and the link
that is written then is due at no reading of the clock any more. -/
theorem link_stops :
    ¬ ∀ (q : Qos) (t : Transport), (system q).Reachable t → ∀ job time,
      t.connector.status.asks = some job → (job, time) ∈ t.connector.jobs.entries →
        ∃ now, Reading now ∧ Connector.due now (job, time) = true := by
  intro hall
  obtain ⟨t, ht, hv⟩ := System.exists_of_run (S := system .default)
    (f := fun t => (t.connector.status, t.connector.resend,
      decide ((.link, 9012505233654775806) ∈ t.connector.jobs.entries)))
    (v := (.connecting, 2 ^ 63 - 2, true))
    [.openAt, .connect 1 1 1 .success, .feed 2 ⟨2, [.pingEcho 13835058055282163715]⟩,
      .produce ⟨3, 3, 3⟩] rfl (by decide +kernel)
  simp only [Prod.mk.injEq, decide_eq_true_eq] at hv
  obtain ⟨hstatus, -, hqueued⟩ := hv
  obtain ⟨now, hnow, hdue⟩ := hall .default t ht .link _ (by rw [hstatus]; rfl) hqueued
  have hle : now ≤ (253402300799999999 : Int) := hnow.2
  have hlt : (9012505233654775806 : Int) < now := by simpa [Connector.due, Job.isEcho] using hdue
  exact absurd hle (Int.not_le.mpr (Int.lt_trans (by decide) hlt))

end Transport

end Tubus.Udp
