import Tubus.Laws.Receive
import Tubus.Udp.Produce

/-!
# One round at a time

The loop of a channel has at most one operation with the reactor, from the call that starts it until
the connection is over (`Paced`). So no round writes into `m_buffer` while the socket still reads a
packet there, and what the socket takes is what the rounds made, in order (`single_flight`).

A wait is as long as `timeout` says of the channel at the moment when the timer was set. Whatever
changes that value later cancels the wait, so the loop never sleeps on a state that is out of date
(`wait_fits`).
-/

namespace Tubus.Udp

open Lib

/-! ## What a call starts -/

theorem Connector.take_started {q : Qos} {pin : Nat} {c : Connector} {s : Section}
    (h : 2 ≤ (c.take q pin s).status.rank) : 2 ≤ c.status.rank := by
  have htook := Connector.take_took q pin c s
  generalize c.take q pin s = c' at h htook
  cases htook with
  | linked hc | tearing hc | finished hc =>
    rw [hc]
    decide
  | link | tear | ping | pingEcho | quiet => exact h

/-- A section does not start a connection. -/
theorem Connector.parse_started {q : Qos} {now : Time} {p : Packet} {c : Connector}
    (h : 2 ≤ (c.parse q now p).status.rank) : 2 ≤ c.status.rank := by
  have hheard : 2 ≤ ({ c with seen := now } : Connector).status.rank → 2 ≤ c.status.rank := id
  exact parse_induct (P := fun c' => 2 ≤ c'.status.rank → 2 ≤ c.status.rank)
    (fun _ _ _ hc h => hc (take_started h)) hheard h

theorem Connector.shutdown_started {q : Qos} {now : Time} {k : Handler} {c : Connector}
    (h : 2 ≤ (c.shutdown q now k).status.rank) : 2 ≤ c.status.rank := by
  cases hc : c.status with
  | neither | initial =>
    simp only [Connector.shutdown, hc, Connector.post] at h
    exact absurd h (by decide)
  | _ => decide

/-- Neither does any call but `connect` and `accept`. -/
theorem Connector.Turn.started {q : Qos} {c c' : Connector} {e : Event} (h : c.Turn q e c')
    (hround : ∀ k, e ≠ .produce k) (hconnect : ∀ now pin k socket, e ≠ .connect now pin k socket)
    (haccept : ∀ now pin k socket, e ≠ .accept now pin k socket) (hfin : c'.status ≠ .finished)
    (hrank : 2 ≤ c'.status.rank) : 2 ≤ c.status.rank := by
  cases h with
  | quiet => exact hrank
  | init => exact absurd (show 2 ≤ Status.initial.rank from hrank) (by decide)
  | refuse => exact hrank
  | connect => exact absurd rfl (hconnect _ _ _ _)
  | accept => exact absurd rfl (haccept _ _ _ _)
  | shutdown => exact shutdown_started hrank
  | error => exact absurd rfl hfin
  | parse => exact parse_started hrank
  | imbue k => exact absurd rfl (hround k)

namespace Transport

variable {t t' : Transport} {e : Event} {out : Option Packet}

/-- Only a call that starts the loop starts a connection. -/
theorem act_started (h : t.act e = some (t', out)) (hcall : Producer.isCall e = true)
    (hstarts : Producer.starts t e = false) (hfin : t'.connector.status ≠ .finished)
    (hrank : 2 ≤ t'.connector.status.rank) : 2 ≤ t.connector.status.rank := by
  have hturn := act_turn h
  cases e with
  | connect now pin k socket =>
    cases h
    by_cases hfresh : t.connector.status = .initial
    · have hsocket : socket ≠ .success := by simpa [Producer.starts, hfresh] using hstarts
      simpa [Transport.connect, Connector.post, hfresh, hsocket] using hrank
    · simpa [Transport.connect, Connector.post, hfresh] using hrank
  | accept now pin k socket =>
    cases h
    by_cases hfresh : t.connector.status = .initial
    · have hsocket : socket ≠ .success := by simpa [Producer.starts, hfresh] using hstarts
      simpa [Transport.accept, Connector.post, hfresh, hsocket] using hrank
    · simpa [Transport.accept, Connector.post, hfresh] using hrank
  | produce => cases hcall
  | _ => exact hturn.started nofun nofun nofun hfin hrank

/-- The call that starts the loop starts a connection. -/
theorem act_starts (h : t.act e = some (t', out)) (hstarts : Producer.starts t e = true) :
    t.connector.status = .initial ∧ 2 ≤ t'.connector.status.rank := by
  cases e with
  | connect now pin k socket | accept now pin k socket =>
    obtain ⟨hc, hs⟩ := Bool.and_eq_true_iff.mp hstarts
    have hfresh := of_decide_eq_true hc
    cases h
    refine ⟨hfresh, ?_⟩
    simp only [Transport.connect, Transport.accept, hfresh, of_decide_eq_true hs, ne_eq,
      not_true_eq_false, if_false, Connector.connect, Connector.accept, if_true]
    decide
  | _ => cases hstarts

/-- A call that neither starts the loop nor ends its wait leaves the length of a wait as it is,
while the connection lasts. -/
theorem act_timeout (h : t.act e = some (t', out)) (hcall : Producer.isCall e = true)
    (hstarts : Producer.starts t e = false) (hwakes : Producer.wakes t e = false)
    (hrank : 2 ≤ t.connector.status.rank) (hfin : t'.connector.status ≠ .finished) :
    t'.timeout = t.timeout := by
  have hlate : t.connector.status ≠ .initial ∧ t.connector.status ≠ .neither := by
    constructor <;> (intro hc; rw [hc] at hrank; exact absurd hrank (by decide))
  cases e with
  | openAt =>
    cases h
    rw [openAt, if_neg hlate.2]
  | connect now pin k socket =>
    cases h
    rw [Transport.connect, if_pos hlate.1]
    rfl
  | accept now pin k socket =>
    cases h
    rw [Transport.accept, if_pos hlate.1]
    rfl
  | shutdown now k =>
    cases h
    obtain ⟨hl, ht⟩ := Bool.or_eq_false_iff.mp hwakes
    have hlinked := of_decide_eq_false hl
    have htearing := of_decide_eq_false ht
    unfold shutdown Connector.shutdown
    cases hc : t.connector.status <;> first | contradiction | rfl
  | mistake => cases hwakes
  | read buffer k =>
    have hlinked := of_decide_eq_false hwakes
    obtain ⟨u, hu, heq⟩ := Option.map_eq_some_iff.mp h
    cases heq
    rw [read, if_neg hlinked] at hu
    cases hu
    rfl
  | write buffer k =>
    have hlinked := of_decide_eq_false hwakes
    cases h
    rw [write, if_neg hlinked]
    rfl
  | feed => cases hcall
  | consume =>
    cases h
    by_cases hc : t.connector.status = .finished
    · rw [consume, if_pos hc] at hfin
      exact absurd hc hfin
    · rw [consume, if_neg hc]
  | produce => cases hcall

theorem imbueAt_some {σ : Type} {p p' : Bytes} {writer : Nat → σ × List Section × Bool} {s : σ}
    (h : imbueAt p writer = some (s, p')) : ∃ room, s = (writer room).1 := by
  obtain ⟨c, _, h⟩ := Option.bind_eq_some_iff.mp h
  obtain ⟨c', _, h⟩ := Option.bind_eq_some_iff.mp h
  cases h
  exact ⟨c.sect.length, rfl⟩

/-- The bytes of a round come from a round. -/
theorem emit_connector {k : Clock} {buffer p : Bytes} (h : t.emit k buffer = some (t', p)) :
    t'.qos = t.qos ∧ ∃ room, t'.connector = (t.connector.imbue t.qos k.connector room).1 := by
  obtain ⟨p₀, _, h⟩ := Option.bind_eq_some_iff.mp h
  obtain ⟨⟨c, p₁⟩, hone, h⟩ := Option.bind_eq_some_iff.mp h
  obtain ⟨room, rfl⟩ := imbueAt_some hone
  dsimp only at h
  split at h
  · obtain ⟨⟨i, p₂⟩, _, h⟩ := Option.bind_eq_some_iff.mp h
    obtain ⟨⟨o, p₃⟩, _, h⟩ := Option.bind_eq_some_iff.mp h
    obtain ⟨p₄, _, h⟩ := Option.bind_eq_some_iff.mp h
    cases h
    exact ⟨rfl, room, rfl⟩
  · obtain ⟨p₂, _, h⟩ := Option.bind_eq_some_iff.mp h
    cases h
    exact ⟨rfl, room, rfl⟩

theorem emit_rank {k : Clock} {buffer p : Bytes} (h : t.emit k buffer = some (t', p)) :
    t.connector.status.rank ≤ t'.connector.status.rank := by
  obtain ⟨_, room, hc⟩ := emit_connector h
  rw [hc]
  exact t.connector.imbue_rank t.qos k.connector room

/-- A datagram that the channel does not accept leaves it as it is. -/
theorem feedBytes_of_invalid {now : Time} {pack : Bytes}
    (hvalid : t.connector.valid pack = some false) (h : t.feedBytes now pack = some t') :
    t' = t := by
  unfold feedBytes at h
  split at h
  · cases h
    rfl
  · rw [hvalid, Option.bind_eq_bind, Option.bind_some, if_neg (by decide)] at h
    cases h
    rfl

end Transport

/-! ## The loop -/

namespace Producer

variable {e : Endian} {x x' : Producer} {r : Round}

/-- At most one operation is outstanding, and there is one while the connection lasts. A packet that
the socket may still take lies at the front of `m_buffer`; apart from it the socket took what was
made, as long as the connection lasts. A wait is as long as the channel asks for. -/
structure Paced (x : Producer) : Prop where
  single : x.ops.length ≤ 1
  started : x.ops ≠ [] → 2 ≤ x.transport.connector.status.rank
  running : 2 ≤ x.transport.connector.status.rank → x.transport.connector.status ≠ .finished →
    x.ops ≠ []
  front : x.took <+: x.made
  loaded : ∀ size, .sending size ∈ x.ops → x.made = x.took ++ [x.buffer.take size]
  level : x.transport.connector.status ≠ .finished → (∀ size, .sending size ∉ x.ops) →
    x.made = x.took
  wait : ∀ since expiry, .waiting since expiry ∈ x.ops →
    x.transport.connector.status ≠ .finished → expiry = later since x.transport.timeout

namespace Paced

theorem create (q : Qos) (secret : UInt64) (buffer : Bytes) :
    Paced (create q secret buffer) where
  single := Nat.zero_le _
  started h := absurd rfl h
  running h := absurd (show 2 ≤ Status.neither.rank from h) (by decide)
  front := List.prefix_refl _
  loaded _ h := absurd h List.not_mem_nil
  level _ _ := rfl
  wait _ _ h := absurd h List.not_mem_nil

/-- Nothing is asked of the loop of a connection that is over. -/
theorem ended (hops : x.ops = []) (hfin : x.transport.connector.status = .finished)
    (hfront : x.took <+: x.made) : Paced x where
  single := by rw [hops]; exact Nat.zero_le _
  started h := absurd hops h
  running _ h := absurd hfin h
  front := hfront
  loaded _ hm := by rw [hops] at hm; cases hm
  level h := absurd hfin h
  wait _ _ hm := by rw [hops] at hm; cases hm

/-- With no operation outstanding, the loop that goes on keeps to one. -/
theorem produce (hops : x.ops = []) (hrank : 2 ≤ x.transport.connector.status.rank)
    (hfront : x.took <+: x.made)
    (hlevel : x.transport.connector.status ≠ .finished → x.made = x.took)
    (h : x.produce e r = some x') : Paced x' := by
  unfold Producer.produce at h
  split at h
  · next hfin =>
    cases h
    exact ended hops hfin hfront
  · next hlive =>
    have hsame := hlevel hlive
    obtain ⟨⟨t, pack⟩, hemit, h⟩ := Option.bind_eq_some_iff.mp h
    have ht := Nat.le_trans hrank (Transport.emit_rank hemit)
    dsimp only at h
    split at h
    · cases h
    · split at h
      · cases h
        refine ⟨by rw [hops]; exact Nat.le_refl _, fun _ => ht, fun _ _ => by rw [hops]; nofun,
          hfront.trans (List.prefix_append _ _), fun size hm => ?_, fun _ hm => ?_,
          fun _ _ hm => ?_⟩
        · rw [hops] at hm
          cases List.mem_singleton.mp hm
          rw [hsame, List.take_left]
        · exact absurd (by rw [hops]; exact List.mem_singleton.mpr rfl) (hm _)
        · rw [hops] at hm
          cases List.mem_singleton.mp hm
      · cases h
        refine ⟨by rw [hops]; exact Nat.le_refl _, fun _ => ht, fun _ _ => by rw [hops]; nofun,
          hfront, fun size hm => ?_, fun _ _ => hsame, fun _ _ hm _ => ?_⟩
        · rw [hops] at hm
          cases List.mem_singleton.mp hm
        · rw [hops] at hm
          cases List.mem_singleton.mp hm
          rfl

/-- The channel goes on, and a wait is as good as it was. -/
theorem goesOn (w : Paced x) {t : Transport}
    (hrank : x.transport.connector.status.rank ≤ t.connector.status.rank)
    (hstarted : t.connector.status ≠ .finished → 2 ≤ t.connector.status.rank →
      2 ≤ x.transport.connector.status.rank)
    (htimeout : t.connector.status ≠ .finished → x.ops ≠ [] → t.timeout = x.transport.timeout) :
    Paced { x with transport := t } := by
  have hlive : t.connector.status ≠ .finished → x.transport.connector.status ≠ .finished :=
    fun h hc => h (Status.finished_of_rank (hc ▸ hrank))
  exact {
    single := w.single
    started := fun h => Nat.le_trans (w.started h) hrank
    running := fun h hfin => w.running (hstarted hfin h) (hlive hfin)
    front := w.front
    loaded := w.loaded
    level := fun hfin => w.level (hlive hfin)
    wait := fun since expiry hm hfin => by
      show expiry = later since t.timeout
      rw [htimeout hfin (List.ne_nil_of_mem hm)]
      exact w.wait since expiry hm (hlive hfin) }

theorem sending_mem_cancel {ops : List Producing} {size : Nat} :
    .sending size ∈ ops.map Producing.cancel ↔ .sending size ∈ ops := by
  rw [List.mem_map]
  constructor
  · rintro ⟨op, hm, heq⟩
    cases op <;> cases heq
    exact hm
  · exact fun hm => ⟨_, hm, rfl⟩

/-- The channel goes on, and a wait is cancelled. -/
theorem woken (w : Paced x) {t : Transport}
    (hrank : x.transport.connector.status.rank ≤ t.connector.status.rank)
    (hstarted : t.connector.status ≠ .finished → 2 ≤ t.connector.status.rank →
      2 ≤ x.transport.connector.status.rank) :
    Paced (wake { x with transport := t }) := by
  have hlive : t.connector.status ≠ .finished → x.transport.connector.status ≠ .finished :=
    fun h hc => h (Status.finished_of_rank (hc ▸ hrank))
  have hnil : ∀ ops : List Producing, ops.map Producing.cancel = [] ↔ ops = [] := fun _ =>
    List.map_eq_nil_iff
  refine ⟨?_, fun h => ?_, fun h hfin => ?_, w.front, fun size hm => ?_, fun hfin hm => ?_,
    fun since expiry hm => ?_⟩
  · rw [wake, List.length_map]
    exact w.single
  · exact Nat.le_trans (w.started fun hc => h ((hnil _).mpr hc)) hrank
  · exact fun hc => w.running (hstarted hfin h) (hlive hfin) ((hnil _).mp hc)
  · exact w.loaded size (sending_mem_cancel.mp hm)
  · exact w.level (hlive hfin) fun size hs => hm size (sending_mem_cancel.mpr hs)
  · obtain ⟨op, _, heq⟩ := List.mem_map.mp hm
    cases op <;> cases heq

/-- An error ends the connection. -/
theorem mistake (w : Paced x) (ec : Ec) : Paced (x.mistake ec) :=
  w.woken (t := x.transport.mistake ec) (Status.rank_le_finished _) fun h => absurd rfl h

theorem call {ev : Udp.Event} (w : Paced x) (hcall : isCall ev = true)
    (h : x.call ev = some x') : Paced x' := by
  obtain ⟨⟨t, out⟩, hact, rfl⟩ := Option.map_eq_some_iff.mp h
  have hrank := Transport.act_rank hact
  dsimp only
  split
  · next hstarts =>
    obtain ⟨hfresh, ht⟩ := Transport.act_starts hact hstarts
    have hops : x.ops = [] := by
      by_contra hne
      have := w.started hne
      rw [hfresh] at this
      exact absurd this (by decide)
    have hlevel : x.made = x.took := w.level (by rw [hfresh]; decide) (by rw [hops]; nofun)
    refine ⟨?_, fun _ => ht, fun _ _ => ?_, w.front, fun size hm => ?_, fun _ _ => hlevel,
      fun since expiry hm => ?_⟩
    · simp only [run, hops, List.nil_append, List.length_singleton, Nat.le_refl]
    · simp only [run, hops, List.nil_append]
      exact List.cons_ne_nil _ _
    · simp only [run, hops, List.nil_append] at hm
      cases List.mem_singleton.mp hm
    · simp only [run, hops, List.nil_append] at hm
      cases List.mem_singleton.mp hm
  · next hstarts =>
    have hno : starts x.transport ev = false := Bool.not_eq_true _ ▸ hstarts
    split
    · exact w.woken hrank fun hfin h2 => Transport.act_started hact hcall hno hfin h2
    · next hwakes =>
      have hquiet : wakes x.transport ev = false := Bool.not_eq_true _ ▸ hwakes
      exact w.goesOn hrank (fun hfin h2 => Transport.act_started hact hcall hno hfin h2)
        fun hfin hops => Transport.act_timeout hact hcall hno hquiet (w.started hops) hfin

theorem feed {now : Time} {drawn : UInt64} {datagram : Bytes} (w : Paced x)
    (h : x.feed e now drawn datagram = some x') : Paced x' := by
  unfold Producer.feed at h
  split at h
  · cases h
    exact w
  · obtain ⟨t, ht, h⟩ := Option.bind_eq_some_iff.mp h
    obtain ⟨ok, hok, h⟩ := Option.bind_eq_some_iff.mp h
    cases ok with
    | false =>
      cases Transport.feedBytes_of_invalid hok ht
      cases h
      exact w
    | true =>
      cases h
      rcases Transport.feedBytes_cases ht with rfl | ⟨p, hp⟩
      · exact w.woken (Nat.le_refl _) fun _ h => h
      · have hact : x.transport.act (.feed now p) = some (t, none) := by
          simp only [Transport.act, hp, Option.map_some]
        exact w.woken (Transport.act_rank hact) fun hfin h2 =>
          (Transport.act_turn hact).started nofun nofun nofun hfin h2

theorem eq_of_single {α : Type} {l : List α} {n : Nat} {a : α} (hl : l.length ≤ 1)
    (hn : l[n]? = some a) : l = [a] ∧ n = 0 := by
  have hlt := (List.getElem?_eq_some_iff.mp hn).1
  obtain rfl : n = 0 := by omega
  obtain ⟨b, rfl⟩ := List.length_eq_one_iff.mp (by omega : l.length = 1)
  cases hn
  exact ⟨rfl, rfl⟩

/-- The socket takes the packet that was made last. -/
theorem taken (w : Paced x) {place size : Nat} (hop : x.ops[place]? = some (.sending size)) :
    Paced { x with
      ops := x.ops.set place (.sent size)
      took := x.took ++ [x.buffer.take size] } := by
  obtain ⟨hops, rfl⟩ := eq_of_single w.single hop
  have hmem : .sending size ∈ x.ops := by rw [hops]; exact List.mem_singleton.mpr rfl
  have hmade := w.loaded size hmem
  have hnew : x.ops.set 0 (.sent size) = [.sent size] := by rw [hops]; rfl
  refine ⟨?_, fun _ => w.started (by rw [hops]; nofun), fun _ _ => ?_, ?_, fun s hm => ?_,
    fun _ _ => hmade, fun since expiry hm => ?_⟩
  · rw [hnew]
    exact Nat.le_refl _
  · rw [hnew]
    nofun
  · exact ⟨[], (List.append_nil _).trans hmade.symm⟩
  · rw [hnew] at hm
    cases List.mem_singleton.mp hm
  · rw [hnew] at hm
    cases List.mem_singleton.mp hm

/-- An operation completes, and its handler runs. -/
theorem completed (w : Paced x) {place size : Nat} {error : Ec} {op : Producing}
    (hop : x.ops[place]? = some op)
    (h : handler e error size r { x with ops := x.ops.eraseIdx place } op = some x') :
    Paced x' := by
  obtain ⟨hops, rfl⟩ := eq_of_single w.single hop
  have hnil : x.ops.eraseIdx 0 = [] := by rw [hops]; rfl
  have hrank := w.started (by rw [hops]; nofun)
  have fails : ∀ ec, Paced (Producer.mistake ec { x with ops := x.ops.eraseIdx 0 }) := fun ec =>
    ended (by rw [hnil]; rfl) rfl w.front
  have goes : (∀ n, op ≠ .sending n) →
      Producer.produce e r { x with ops := x.ops.eraseIdx 0 } = some x' → Paced x' := by
    intro hne hp
    refine produce (x := { x with ops := x.ops.eraseIdx 0 }) hnil hrank w.front
      (fun hfin => w.level hfin fun n hm => ?_) hp
    rw [hops] at hm
    exact hne n (List.mem_singleton.mp hm).symm
  cases op with
  | start => exact goes nofun h
  | cancelled => exact goes nofun h
  | sending n =>
    obtain ⟨_, h⟩ := Option.ite_none_right_eq_some.mp h
    cases h
    exact fails error
  | sent n =>
    simp only [handler] at h
    split at h
    · cases h
      exact fails error
    · split at h
      · cases h
        exact fails .messageSize
      · exact goes nofun h
  | waiting since expiry =>
    simp only [handler] at h
    split at h
    · cases h
      exact fails error
    · split at h
      · exact goes nofun h
      · cases h

theorem step {ev : Event} (w : Paced x) (h : x.step e ev = some x') : Paced x' := by
  cases ev with
  | call ev =>
    obtain ⟨hcall, h⟩ := Option.ite_none_right_eq_some.mp h
    exact w.call (Bool.and_eq_true_iff.mp hcall).2 h
  | feed now drawn datagram => exact w.feed h
  | taken place =>
    simp only [Producer.step] at h
    split at h
    · next hop =>
      cases h
      exact w.taken hop
    all_goals cases h
  | completed place error size r =>
    simp only [Producer.step] at h
    split at h
    · next hop => exact w.completed hop h
    · cases h

end Paced

variable {q : Qos} {secret : UInt64}

theorem Reaches.paced {ok : Producer → Event → Prop} (h : (system e q secret).Reaches ok x) :
    Paced x := by
  refine System.Reaches.invariant ?_ (fun _ _ _ _ w hstep => w.step hstep) h
  rintro _ ⟨buffer, _, rfl⟩
  exact .create q secret buffer

/-- In every state of a channel: at most one operation of its send loop is outstanding, and there is
one as long as the connection is begun and not over. What the socket took is what the rounds made,
in order, and a packet that the socket may still take lies untouched at the front of `m_buffer`. -/
theorem single_flight (h : (system e q secret).Reachable x) :
    x.ops.length ≤ 1 ∧
      (x.transport.connector.status ∉ [.neither, .initial, .finished] → x.ops.length = 1) ∧
      x.took <+: x.made ∧
      ∀ size, .sending size ∈ x.ops → x.made = x.took ++ [x.buffer.take size] := by
  have w := Reaches.paced h
  refine ⟨w.single, fun hlive => ?_, w.front, w.loaded⟩
  have hrank : 2 ≤ x.transport.connector.status.rank := by
    cases hc : x.transport.connector.status <;> first | decide | (rw [hc] at hlive; simp at hlive)
  have hfin : x.transport.connector.status ≠ .finished := fun hc => by
    rw [hc] at hlive
    simp at hlive
  have hpos := List.length_pos_iff.mpr (w.running hrank hfin)
  have hle := w.single
  omega

/-- A round, with clock readings that are all the same. -/
def Round.at (now : Time) (rest : Nat) : Round :=
  ⟨⟨now, now, now⟩, now, 7, List.replicate rest 0⟩

/-- A channel connects, and the socket takes its first packet. -/
theorem single_flight_link :
    ∃ x, (system .little .default 5).Reachable x ∧
      x.transport.connector.status = .connecting ∧ x.ops = [.sent 32] ∧ x.took = x.made ∧
      x.made.length = 1 ∧ x.took <+: x.made := by
  obtain ⟨x, hx, hv⟩ := System.exists_of_run (S := system .little .default 5)
    (s := create .default 5 (List.replicate 1406 255))
    [.call .openAt, .call (.connect 1 1 1 .success), .completed 0 .success 0 (.at 2 1374), .taken 0]
    ⟨_, List.length_replicate, rfl⟩
    (f := fun x => decide (x.transport.connector.status = .connecting ∧ x.ops = [.sent 32] ∧
      x.took = x.made ∧ x.made.length = 1)) (v := true) (by decide +kernel)
  obtain ⟨hstatus, hops, htook, hmade⟩ := of_decide_eq_true hv
  exact ⟨x, hx, hstatus, hops, htook, hmade, (single_flight hx).2.2.1⟩

end Producer

/-! ## Nothing to say -/

/-- A channel that has nothing to send: no job, no acknowledgement, no flight, the peer knows the
window, and what is queued lies beyond the peer's own. -/
structure Transport.Quiet (t : Transport) : Prop where
  jobs : t.connector.jobs.entries = []
  sink : t.istreamer.acks.entries = []
  edge : t.istreamer.edge.time = maxDateTime
  flights : t.ostreamer.moves.entries = []
  source : t.ostreamer.acks.entries = []
  queue : t.ostreamer.buffer.data = [] ∨ t.ostreamer.range ≤ t.ostreamer.buffer.head

theorem Transport.quiet_of_not_deffered {t : Transport}
    (h : (t.connector.deffered || t.istreamer.deffered || t.ostreamer.deffered) = false) :
    t.Quiet := by
  simp only [Connector.deffered, Istreamer.deffered, Ostreamer.deffered, SendBuffer.available,
    Bool.or_eq_false_iff, Bool.not_eq_false', List.isEmpty_iff, decide_eq_false_iff_not,
    not_not, Bool.and_eq_false_iff, not_lt] at h
  obtain ⟨⟨hjobs, hsink, hedge⟩, ⟨hflights, hsource⟩, hqueue⟩ := h
  exact ⟨hjobs, hsink, hedge, hflights, hsource, hqueue⟩

/-- In every state of a channel whose connection is not over, a loop that waits for the timer waits
as long as the channel needs now, whatever happened since the timer was set. An accepting channel
waits for a peer. Any other one waits for the resend interval, or it waits longer and has nothing
to send. -/
theorem Producer.wait_fits {e : Endian} {q : Qos} {secret : UInt64} {x : Producer}
    {since expiry : Time} (h : (system e q secret).Reachable x)
    (hwait : .waiting since expiry ∈ x.ops) (hlive : x.transport.connector.status ≠ .finished) :
    (x.transport.connector.status = .accepting →
        expiry = later since x.transport.qos.acceptTimeout) ∧
      (x.transport.connector.status ≠ .accepting →
        expiry = later since x.transport.connector.resend ∨
          expiry = later since x.transport.qos.pingTimeout ∧ x.transport.Quiet) := by
  have hexpiry := (Reaches.paced h).wait since expiry hwait hlive
  unfold Transport.timeout at hexpiry
  constructor
  · intro haccepting
    rwa [if_pos haccepting] at hexpiry
  · intro hother
    rw [if_neg hother] at hexpiry
    split at hexpiry
    · exact .inl hexpiry
    · next hidle =>
      exact .inr ⟨hexpiry, Transport.quiet_of_not_deffered (Bool.not_eq_true _ ▸ hidle)⟩

/-- An accepting channel has nothing to send in its first round. -/
theorem Producer.wait_fits_accepting :
    ∃ x, (system .little .default 5).Reachable x ∧
      x.transport.connector.status = .accepting ∧ x.ops = [.waiting 2 30000002] ∧
      30000002 = later 2 x.transport.qos.acceptTimeout := by
  obtain ⟨x, hx, hv⟩ := System.exists_of_run (S := system .little .default 5)
    (s := create .default 5 (List.replicate 1406 255))
    [.call .openAt, .call (.accept 1 1 1 .success), .completed 0 .success 0 (.at 2 1390)]
    ⟨_, List.length_replicate, rfl⟩
    (f := fun x => decide (x.transport.connector.status = .accepting ∧
      x.ops = [.waiting 2 30000002])) (v := true) (by decide +kernel)
  obtain ⟨hstatus, hops⟩ := of_decide_eq_true hv
  refine ⟨x, hx, hstatus, hops, (wait_fits hx ?_ ?_).1 hstatus⟩
  · rw [hops]
    exact List.mem_singleton.mpr rfl
  · rw [hstatus]
    nofun

end Tubus.Udp
