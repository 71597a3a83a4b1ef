import Tubus.Laws.Session

/-!
# The window

No update of the window is lost. The receiver announces its edge until the sender answers with
the same number, and the sender answers with its `range`, the greatest edge it was told of. So an
edge that counts as acknowledged is the sender's `range` (`window_known`), whatever was lost,
repeated or overtaken on the way.

An edge that wrapped is never acknowledged: the sender answers with the larger `range`, which no
later edge is equal to. So nothing here asks for a short stream.

The acknowledged edge is marked by the time `max_date_time`. A round that announces the edge and
is due again exactly then marks it as well, and the peer need not have heard of it
(`window_lost`).
-/

namespace Tubus.Udp

open Lib

/-- `transmit` leaves the edge alone or due at once. -/
theorem Istreamer.transmit_edge {i i' : Istreamer} (h : i.transmit = some i') {size range : Nat}
    (edge : i.edge.time = maxDateTime → size + i.completed < 2 ^ 64 ∧ i.edge.range ≤ range) :
    i'.edge.time = maxDateTime → size + i'.completed < 2 ^ 64 ∧ i'.edge.range ≤ range := by
  refine transmit_induct (P := fun j => j.edge.time = maxDateTime →
    size + j.completed < 2 ^ 64 ∧ j.edge.range ≤ range) ?_ h edge
  intro j j' hm hedge
  cases hm with
  | copy => exact hedge
  | @complete r rest first full =>
    have hdone : completed { j with
        readers := rest
        readouts := j.readouts ++ [r.posted .success]
        edge := j.edge.moved r.read } = j.completed + r.read := by
      simp [completed, Reader.posted, List.filter_append]
    rw [hdone]
    show (j.edge.moved r.read).time = maxDateTime →
      size + (j.completed + r.read) < 2 ^ 64 ∧ (j.edge.moved r.read).range ≤ range
    unfold EdgeJob.moved
    split
    · intro hmax
      exact absurd hmax (show zeroTime ≠ maxDateTime by decide)
    · next hzero =>
      have : r.read = 0 := by omega
      rw [this]
      exact hedge

/-- No resend of the edge is due exactly at `max_date_time`, the time that marks an acknowledged
edge. -/
def Terms.timely : Terms :=
  { Terms.any with tick := fun now resend => later now resend ≠ maxDateTime }

namespace Flow

/-- An edge that was announced before it wrapped. -/
def Announced (size : Nat) (i : Istreamer) (v : Nat) : Prop :=
  ∃ c, c ≤ i.completed ∧ v = size + c ∧ v < 2 ^ 64

theorem Announced.mono {size : Nat} {i i' : Istreamer} {v : Nat} (h : Announced size i v)
    (hg : i.Grows i') : Announced size i' v := by
  obtain ⟨c, hc, hv⟩ := h
  exact ⟨c, Nat.le_trans hc hg.completed_le, hv⟩

/-- What the two halves of a flow know of the window. -/
structure Settled (qr : Qos) (f : Flow) : Prop where
  range : f.source.range = 0 ∨ Announced qr.receiveBufferSize f.sink f.source.range
  acks : ∀ v ∈ f.source.acks.keys, Announced qr.receiveBufferSize f.sink v ∧ v ≤ f.source.range
  sent : ∀ v, .edgeEcho v ∈ f.sent →
    Announced qr.receiveBufferSize f.sink v ∧ v ≤ f.source.range
  echoed : ∀ v, .edge v ∈ f.echoed →
    ∃ c, c ≤ f.sink.completed ∧ v = (qr.receiveBufferSize + c) % 2 ^ 64
  edge : f.sink.edge.time = maxDateTime →
    qr.receiveBufferSize + f.sink.completed < 2 ^ 64 ∧ f.sink.edge.range ≤ f.source.range

namespace Settled

variable {qs qr : Qos} {f f' : Flow}

theorem create : Settled qr (create qr) where
  range := .inl rfl
  acks v hv := by cases hv
  sent v hv := by cases hv
  echoed v hv := by cases hv
  edge h := absurd h (show zeroTime ≠ maxDateTime by decide)

/-- No more was completed than was sent, and no more was sent than the window allows. -/
theorem completed_le_range (inv : Inv qr f) : f.sink.completed ≤ f.source.range := by
  have h₁ := inv.sink.completed_le
  have h₂ := inv.sink.history.length_le
  have h₃ := inv.source.window
  change _ ≤ f.source.cut.length at h₂
  omega

/-- A receiving half that went on and kept its edge, or moved it. -/
theorem setSink (t : Settled qr f) {i : Istreamer} {b : Bool} (hg : f.sink.Grows i)
    (edge : i.edge.time = maxDateTime →
      qr.receiveBufferSize + i.completed < 2 ^ 64 ∧ i.edge.range ≤ f.source.range) :
    Settled qr { f with sink := i, sinkOpen := b } where
  range := t.range.imp id fun h => h.mono hg
  acks v hv := (t.acks v hv).imp (fun h => h.mono hg) id
  sent v hv := (t.sent v hv).imp (fun h => h.mono hg) id
  echoed v hv := by
    obtain ⟨c, hc, hv⟩ := t.echoed v hv
    exact ⟨c, Nat.le_trans hc hg.completed_le, hv⟩
  edge := edge

theorem push (t : Settled qr f) (now : Time) (resend : Int) (room : Nat) :
    Settled qr { f with
      source := (f.source.imbue qs now resend room).1
      sent := f.sent ++ (f.source.imbue qs now resend room).2.1 } := by
  have hout : (f.source.imbue qs now resend room).1.range = f.source.range ∧
      (∀ v ∈ (f.source.imbue qs now resend room).1.acks.keys, v ∈ f.source.acks.keys) ∧
      ∀ v, .edgeEcho v ∈ (f.source.imbue qs now resend room).2.1 → v ∈ f.source.acks.keys := by
    refine Ostreamer.imbue_induct qs now resend (P := fun o l => o.range = f.source.range ∧
      (∀ v ∈ o.acks.keys, v ∈ f.source.acks.keys) ∧
      ∀ v, .edgeEcho v ∈ l → v ∈ f.source.acks.keys) ?_ room
      ⟨rfl, fun v hv => hv, fun v hv => absurd hv List.not_mem_nil⟩
    rintro o l o' l' hstep ⟨hrange, hacks, hl⟩
    cases hstep with
    | again => exact ⟨hrange, hacks, fun v hv => hl v (by simpa using hv)⟩
    | giveUp => exact ⟨hrange, hacks, hl⟩
    | fresh => exact ⟨hrange, hacks, fun v hv => hl v (by simpa [Ostreamer.snippet] using hv)⟩
    | echo owed left =>
      refine ⟨hrange, fun v hv => hacks v (left v hv), fun v hv => ?_⟩
      rcases List.mem_append.mp hv with hv | hv
      · exact hl v hv
      · obtain ⟨w, hw, heq⟩ := owed _ hv
        cases heq
        exact hacks v hw
  obtain ⟨hrange, hacks, hsent⟩ := hout
  refine { t with range := ?_, acks := ?_, sent := ?_, edge := ?_ }
  · rw [hrange]
    exact t.range
  · intro v hv
    rw [hrange]
    exact t.acks v (hacks v hv)
  · intro v hv
    rw [hrange]
    rcases List.mem_append.mp hv with hv | hv
    · exact t.sent v hv
    · exact t.acks v (hsent v hv)
  · rw [hrange]
    exact t.edge

theorem acknowledge (t : Settled qr f) (inv : Inv qr f) {p : Packet}
    (hp : ∀ x ∈ p.body, x.forSource = true → x ∈ f.echoed) :
    Settled qr { f with source := f.source.parse p } := by
  have hdone := completed_le_range inv
  have hcut := inv.source.range_lt
  have hsize := qr.receiveBufferSize_lt
  have hall : f.source.range ≤ (f.source.parse p).range ∧
      ((f.source.parse p).range = 0 ∨
        Announced qr.receiveBufferSize f.sink (f.source.parse p).range) ∧
      ∀ v ∈ (f.source.parse p).acks.keys,
        Announced qr.receiveBufferSize f.sink v ∧ v ≤ (f.source.parse p).range := by
    refine Ostreamer.parse_induct (P := fun o => f.source.range ≤ o.range ∧
      (o.range = 0 ∨ Announced qr.receiveBufferSize f.sink o.range) ∧
      ∀ v ∈ o.acks.keys, Announced qr.receiveBufferSize f.sink v ∧ v ≤ o.range) ?_ ?_
      ⟨Nat.le_refl _, t.range, t.acks⟩
    · exact fun o h _ ho => ho
    · rintro o v hm ⟨hle, hrange, hacks⟩
      obtain ⟨c, hc, hv⟩ := t.echoed v (hp _ hm rfl)
      -- a wrapped edge is below the completed reads, and changes nothing
      have hnew : Announced qr.receiveBufferSize f.sink (max o.range v) := by
        by_cases hwrap : qr.receiveBufferSize + c < 2 ^ 64
        · rw [Nat.mod_eq_of_lt hwrap] at hv
          rcases Nat.le_total o.range v with hov | hov
          · rw [Nat.max_eq_right hov]
            exact ⟨c, hc, hv, by omega⟩
          · rw [Nat.max_eq_left hov]
            rcases hrange with hzero | hann
            · exact ⟨c, hc, by omega, by omega⟩
            · exact hann
        · have hlt : v < o.range := by omega
          rw [Nat.max_eq_left (Nat.le_of_lt hlt)]
          rcases hrange with hzero | hann
          · omega
          · exact hann
      refine ⟨Nat.le_trans hle (Nat.le_max_left _ _), .inr hnew, fun w hw => ?_⟩
      show Announced _ _ w ∧ w ≤ max o.range v
      rcases SortedMap.mem_keys_emplace.mp hw with hw | rfl
      · obtain ⟨ha, hwle⟩ := hacks w hw
        exact ⟨ha, Nat.le_trans hwle (Nat.le_max_left _ _)⟩
      · exact ⟨hnew, Nat.le_refl _⟩
  obtain ⟨hle, hrange, hacks⟩ := hall
  exact { t with
    range := hrange
    acks := hacks
    sent := fun v hv => (t.sent v hv).imp id fun h => Nat.le_trans h hle
    edge := fun h => (t.edge h).imp id fun h => Nat.le_trans h hle }

theorem answer (t : Settled qr f) (inv : Inv qr f) {now : Time} {resend : Int} (room : Nat)
    (htick : later now resend ≠ maxDateTime) :
    Settled qr { f with
      sink := (f.sink.imbue now resend room).1
      echoed := f.echoed ++ (f.sink.imbue now resend room).2 } := by
  obtain ⟨_, hstored, houts, hrange, hout⟩ := inv.sink.imbue now resend room
  have hg : f.sink.Grows (f.sink.imbue now resend room).1 := .of_eq houts hstored
  have hsame : (f.sink.imbue now resend room).1.completed = f.sink.completed ∧
      ((f.sink.imbue now resend room).1.edge.time = maxDateTime →
        f.sink.edge.time = maxDateTime) := by
    obtain ⟨acks, time, heq, -, rfl | rfl⟩ := f.sink.imbue_cases now resend room
    · rw [heq]
      exact ⟨rfl, id⟩
    · rw [heq]
      exact ⟨rfl, fun h => absurd h htick⟩
  obtain ⟨hdone, htime⟩ := hsame
  have t' := t.setSink (b := f.sinkOpen) hg
    (fun h => by rw [hdone, hrange]; exact t.edge (htime h))
  refine { t' with echoed := fun v hv => ?_ }
  rcases List.mem_append.mp hv with hv | hv
  · exact t'.echoed v hv
  · rcases hout _ hv with ⟨w, _, heq⟩ | heq
    · cases heq
    · cases heq
      exact ⟨f.sink.completed, Nat.le_of_eq hdone.symm, inv.sink.edge⟩

theorem read (t : Settled qr f) {buffer : Bytes} {callback : Handler} {i : Istreamer}
    (h : f.sink.append buffer callback = some i) : Settled qr { f with sink := i } :=
  t.setSink (Istreamer.append_grows h) (Istreamer.transmit_edge h t.edge)

theorem arrive (t : Settled qr f) (inv : Inv qr f) (hopen : f.sinkOpen = true) {p : Packet}
    {i : Istreamer} (hp : ∀ x ∈ p.body, x.forSink = true → x ∈ f.sent)
    (h : f.sink.parse qr p = some i) : Settled qr { f with sink := i } := by
  have hgrows := Istreamer.parse_grows h
  obtain ⟨i₁, hall, h⟩ := Option.bind_eq_some_iff.mp h
  have s := inv.sink
  rw [hopen] at s
  have hlt := inv.source.cut_lt
  have hsize := qr.receiveBufferSize_lt
  have hwalk : SinkInv qr f.source.pulled i₁ true ∧ f.sink.Grows i₁ ∧
      (i₁.edge.time = maxDateTime →
        qr.receiveBufferSize + i₁.completed < 2 ^ 64 ∧ i₁.edge.range ≤ f.source.range) := by
    refine Istreamer.takeAll_induct (P := fun j => SinkInv qr f.source.pulled j true ∧
      f.sink.Grows j ∧ (j.edge.time = maxDateTime →
        qr.receiveBufferSize + j.completed < 2 ^ 64 ∧ j.edge.range ≤ f.source.range)) ?_ ?_ hall
      ⟨s, .refl _, t.edge⟩
    · rintro j k d hm ⟨sj, hg, he⟩
      refine ⟨sj.store hlt p.pin (inv.move_mem hp hm),
        hg.trans (Istreamer.store_grows qr p.pin j k d), ?_⟩
      rcases j.store_cases qr p.pin k d with ⟨heq, _⟩ | ⟨heq, _⟩ | ⟨_, _, _, _, heq⟩ <;>
        rw [heq] <;> exact he
    · rintro j v hm ⟨sj, hg, he⟩
      refine ⟨sj.settle v, hg.trans (Istreamer.settle_grows j v), ?_⟩
      unfold Istreamer.settle
      split
      · next heq =>
        intro _
        obtain ⟨⟨c, hc, hv, _⟩, hvle⟩ := t.sent v (hp _ hm rfl)
        have hmono := hg.completed_le
        have hshort := sj.completed_le
        have hlong := sj.history.length_le
        have hedge := sj.edge
        change _ ≤ f.source.cut.length at hlong
        show qr.receiveBufferSize + j.completed < 2 ^ 64 ∧ j.edge.range ≤ f.source.range
        omega
      · exact he
  obtain ⟨_, _, he₁⟩ := hwalk
  exact t.setSink hgrows (Istreamer.transmit_edge h he₁)

/-- One act at a timely moment keeps what is known of the window. -/
theorem step (t : Settled qr f) (inv : Inv qr f) {a : Act} (hok : Terms.timely.flow f a)
    (h : Flow.step qs qr f a = some f') : Settled qr f' := by
  cases a with
  | initSource =>
    cases h
    exact { t with }
  | write buffer callback =>
    obtain ⟨⟨_, hb⟩, h⟩ := Option.ite_none_right_eq_some.mp h
    cases h
    rcases Ostreamer.append_cases (q := qs) callback hb inv.source.tail_lt with
      ⟨_, _, _, _, heq⟩ | ⟨_, _, heq⟩ <;> rw [heq] <;> exact { t with }
  | push now resend room =>
    obtain ⟨_, h⟩ := Option.ite_none_right_eq_some.mp h
    cases h
    exact t.push now resend room
  | acknowledge p =>
    obtain ⟨⟨_, hp⟩, h⟩ := Option.ite_none_right_eq_some.mp h
    cases h
    exact t.acknowledge inv hp
  | abortSource ec =>
    obtain ⟨_, h⟩ := Option.ite_none_left_eq_some.mp h
    cases h
    exact { t with }
  | initSink =>
    cases h
    exact { t with }
  | read buffer callback =>
    obtain ⟨_, h⟩ := Option.ite_none_right_eq_some.mp h
    obtain ⟨i, hi, rfl⟩ := Option.map_eq_some_iff.mp h
    exact t.read hi
  | answer now resend room =>
    obtain ⟨_, h⟩ := Option.ite_none_right_eq_some.mp h
    cases h
    exact t.answer inv room hok
  | arrive p =>
    obtain ⟨⟨hopen, hp⟩, h⟩ := Option.ite_none_right_eq_some.mp h
    obtain ⟨i, hi, rfl⟩ := Option.map_eq_some_iff.mp h
    exact t.arrive inv hopen hp hi
  | abortSink ec =>
    obtain ⟨hec, h⟩ := Option.ite_none_left_eq_some.mp h
    cases h
    have hdone : (f.sink.error ec).completed = f.sink.completed := by
      simp [Istreamer.completed, Istreamer.error, Reader.posted, List.filter_append,
        List.filter_map, Function.comp_def, hec]
    refine t.setSink (Istreamer.error_grows _ ec) fun h => ?_
    rw [hdone]
    exact t.edge h

/-- An edge that counts as acknowledged is the sender's `range`. -/
theorem range_eq (t : Settled qr f) (inv : Inv qr f) (hedge : f.sink.edge.time = maxDateTime) :
    f.source.range = f.sink.edge.range := by
  obtain ⟨hsmall, hle⟩ := t.edge hedge
  have hsink := inv.sink.edge
  rw [Nat.mod_eq_of_lt hsmall] at hsink
  rcases t.range with hzero | ⟨c, hc, hv, _⟩
  · omega
  · omega

end Settled

/-- Every state of a flow in time knows its window. -/
theorem Reaches.settled {qs qr : Qos} {f : Flow}
    (h : (system qs qr).Reaches Terms.timely.flow f) : Settled qr f :=
  h.invariant_with (fun _ hs => Reaches.inv hs) (fun _ hs => hs ▸ .create)
    (fun _ _ _ hok inv t hstep => t.step inv hok hstep)

end Flow

namespace Session

variable {q : Side → Qos} {s : Session} {d : Side}

/-- In a session in time an edge that the receiver regards as acknowledged is the sender's
`range`. -/
theorem window_known (h : (system q).Reaches (Terms.timely.session d) s)
    (hedge : (s.chan d.other).istreamer.edge.time = maxDateTime) :
    (s.chan d).ostreamer.range = (s.chan d.other).istreamer.edge.range := by
  obtain ⟨f, hf, w⟩ := follows h
  rw [← w.sink] at hedge ⊢
  rw [← w.source]
  exact (Flow.Reaches.settled hf).range_eq (Flow.Reaches.inv hf) hedge

/-- The test of the terms on one act of a session. -/
def Act.timely (d : Side) (s : Session) : Act → Bool
  | .act x (.produce k) =>
    decide (x ≠ d.other) || decide (later k.istreamer (s.chan x).connector.resend ≠ maxDateTime)
  | _ => true

theorem timely_session (s : Session) (a : Act) (h : a.timely d s = true) :
    Terms.timely.session d s a := by
  cases a with
  | act x e =>
    refine ⟨fun _ => ?_, ?_⟩
    · cases e <;> trivial
    · rintro rfl
      cases e with
      | produce k => simpa [Act.timely, Terms.sink, Terms.timely] using h
      | _ => trivial
  | deliver => trivial
  | lose => trivial

/-- A byte was sent and read, and the edge that moved for it was announced and answered. -/
theorem window_known_moved :
    ∃ s, (system fun _ => .default).Reaches (Terms.timely.session .left) s ∧
      (s.chan .right).istreamer.edge = ⟨5 * 1024 * 1024 + 1, maxDateTime⟩ ∧
      (s.chan .left).ostreamer.range = (s.chan .right).istreamer.edge.range := by
  have hrun : ((system fun _ => .default).checked (fun s a => a.timely .left s)
      (create fun _ => .default)
      (handshake ++ [.act .right (.read [0] 8), .act .left (.write [1] 9),
        .act .left (.produce ⟨6, 6, 6⟩), .deliver .right 7 1, .act .right (.produce ⟨8, 8, 8⟩),
        .deliver .left 9 1, .act .left (.produce ⟨10, 10, 10⟩), .deliver .right 11 2])).map
      (fun s => (s.chan .right).istreamer.edge) = some ⟨5 * 1024 * 1024 + 1, maxDateTime⟩ := by
    decide +kernel
  obtain ⟨s, hs, hedge⟩ := Option.map_eq_some_iff.mp hrun
  have hreach := System.Reaches.checked (timely_session (d := .left)) _ (.start rfl) hs
  refine ⟨s, hreach, hedge, ?_⟩
  exact window_known hreach (congrArg EdgeJob.time hedge)

/-- A session that links, sends a byte and announces the edge that moved for it, a hundred
milliseconds before `max_date_time`. -/
def lastMoment : List Act :=
  let late (n : Int) : Time := maxDateTime - 100010 + n
  let clock (n : Int) : Clock := ⟨late n, late n, late n⟩
  [.act .left .openAt, .act .right .openAt, .act .left (.connect (late 1) 1 1 .success),
    .act .right (.accept (late 1) 2 2 .success), .act .left (.produce (clock 2)),
    .deliver .right (late 3) 0, .act .right (.produce (clock 4)), .deliver .left (late 5) 0,
    .act .right (.read [0] 8), .act .left (.write [1] 9), .act .left (.produce (clock 6)),
    .deliver .right (late 7) 1, .act .right (.produce (clock 10))]

/-- The next announcement of the edge is due exactly at `max_date_time`: the receiver regards the
edge as acknowledged, and no packet has told the sender of it. -/
theorem window_lost :
    ∃ s, (system fun _ => .default).Reachable s ∧
      (s.chan .left).connector.status = .linked ∧ (s.chan .right).connector.status = .linked ∧
      (s.chan .right).istreamer.edge.time = maxDateTime ∧
      (s.chan .left).ostreamer.range ≠ (s.chan .right).istreamer.edge.range := by
  obtain ⟨s, hs, hv⟩ := System.exists_of_run (S := system fun _ => .default)
    (f := fun s => decide ((s.chan .left).connector.status = .linked ∧
      (s.chan .right).connector.status = .linked ∧
      (s.chan .right).istreamer.edge.time = maxDateTime ∧
      (s.chan .left).ostreamer.range ≠ (s.chan .right).istreamer.edge.range)) (v := true)
    lastMoment rfl (by decide +kernel)
  exact ⟨s, hs, of_decide_eq_true hv⟩

end Session

end Tubus.Udp
