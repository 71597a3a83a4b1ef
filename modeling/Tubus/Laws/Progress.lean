import Tubus.Laws.Acknowledgement
import Tubus.Laws.Window

/-!
# Progress

A stream with nothing left to wait for has an open window. When nothing is in flight and the
receiver's edge is acknowledged, everything that was sent has arrived and was copied into
readers, and the sender's `range` is the receive buffer's size past the completed reads. The
bytes between the completed reads and the head lie in the first reader, which is not full. So the
window is open as long as no reader is larger than the receive buffer (`window_open`).

A reader that is larger swallows the whole window and waits for a byte the sender may not send
(`window_stuck`).
-/

namespace Tubus.Udp

open Lib

namespace Istreamer

/-- `transmit` lets no reader grow. -/
theorem transmit_sizes {i i' : Istreamer} (h : i.transmit = some i') {size : Nat}
    (hr : ∀ r ∈ i.readers, r.Sound) (sizes : ∀ r ∈ i.readers, r.buffer.length ≤ size) :
    ∀ r ∈ i'.readers, r.buffer.length ≤ size := by
  have hall : ∀ r ∈ i'.readers, r.Sound ∧ r.buffer.length ≤ size := by
    refine transmit_induct (P := fun j => ∀ r ∈ j.readers, r.Sound ∧ r.buffer.length ≤ size) ?_ h
      fun r hm => ⟨hr r hm, sizes r hm⟩
    intro j j' hm hj
    cases hm with
    | @copy r r' rest data b first avail short pulled filled =>
      rw [first] at hj
      obtain ⟨hsound, hle⟩ := hj r List.mem_cons_self
      have hlen := ReceiveBuffer.pull_length avail pulled
      obtain ⟨hsound', hsize, _⟩ := hsound.fill (by omega) filled
      intro x hx
      rcases List.mem_cons.mp hx with rfl | hx
      · exact ⟨hsound', by omega⟩
      · exact hj x (List.mem_cons_of_mem _ hx)
    | @complete r rest first full =>
      rw [first] at hj
      exact fun x hx => hj x (List.mem_cons_of_mem _ hx)
  exact fun r hm => (hall r hm).2

end Istreamer

/-! ## The invariant of a flow -/

/-- Writes are not empty, reads are not larger than the receive buffer, and no resend is due
exactly at `max_date_time`, the time that marks an acknowledged edge. -/
def Terms.paced (size : Nat) : Terms where
  write buffer := buffer ≠ []
  read buffer := buffer.length ≤ size
  tick now resend := later now resend ≠ maxDateTime

theorem Terms.paced_nonEmpty {size : Nat} (f : Flow) (a : Flow.Act) (h : (paced size).flow f a) :
    nonEmpty.flow f a := by
  cases a <;> first | exact h | trivial

theorem Terms.paced_timely {size : Nat} (f : Flow) (a : Flow.Act) (h : (paced size).flow f a) :
    timely.flow f a := by
  cases a <;> first | exact h | trivial

namespace Flow

/-- What the readers and the edge of a flow keep to. -/
structure Paced (qr : Qos) (f : Flow) : Prop extends Settled qr f where
  done : f.sink.readers = [] ∨ f.sink.buffer.available = false
  waits : ∀ r ∈ f.sink.readers, r.Waits
  sizes : ∀ r ∈ f.sink.readers, r.buffer.length ≤ qr.receiveBufferSize

namespace Paced

variable {qs qr : Qos} {f f' : Flow}

theorem create : Paced qr (create qr) where
  toSettled := .create
  done := .inl rfl
  waits r hr := by cases hr
  sizes r hr := by cases hr

theorem read (t : Paced qr f) (inv : Inv qr f) {buffer : Bytes} {callback : Handler}
    {i : Istreamer} (hb : buffer.length < 2 ^ 64) (hle : buffer.length ≤ qr.receiveBufferSize)
    (h : f.sink.append buffer callback = some i) : Paced qr { f with sink := i } := by
  have hnew : ∀ r ∈ f.sink.readers ++ [Reader.create buffer callback],
      r.Sound ∧ r.Waits ∧ r.buffer.length ≤ qr.receiveBufferSize := by
    intro r hr
    rcases List.mem_append.mp hr with hr | hr
    · exact ⟨inv.sink.readers r hr, t.waits r hr, t.sizes r hr⟩
    · rw [List.mem_singleton.mp hr]
      refine ⟨.create callback hb, ?_, hle⟩
      show 0 < buffer.length ∨ buffer.length = 0
      omega
  have htransmit : Istreamer.transmit { f.sink with
      readers := f.sink.readers ++ [.create buffer callback]
      asked := f.sink.asked ++ [(buffer.length, callback)] } = some i := h
  obtain ⟨hdone, hwaits⟩ := Istreamer.transmit_done
    (fun r hr => ⟨(hnew r hr).1.measured, (hnew r hr).2.1⟩) htransmit
  have hsizes := Istreamer.transmit_sizes htransmit
    (fun r hr => (hnew r hr).1) (fun r hr => (hnew r hr).2.2)
  exact { t.toSettled.read h with done := hdone, waits := hwaits, sizes := hsizes }

theorem arrive (t : Paced qr f) (inv : Inv qr f) (hopen : f.sinkOpen = true) {p : Packet}
    {i : Istreamer} (hp : ∀ x ∈ p.body, x.forSink = true → x ∈ f.sent)
    (h : f.sink.parse qr p = some i) : Paced qr { f with sink := i } := by
  have settled := t.toSettled.arrive inv hopen hp h
  obtain ⟨i₁, hall, h⟩ := Option.bind_eq_some_iff.mp h
  have s := inv.sink
  rw [hopen] at s
  have hlt := inv.source.cut_lt
  have hwalk : SinkInv qr f.source.pulled i₁ true ∧ i₁.readers = f.sink.readers := by
    refine Istreamer.takeAll_induct (P := fun j => SinkInv qr f.source.pulled j true ∧
      j.readers = f.sink.readers) ?_ ?_ hall ⟨s, rfl⟩
    · rintro j k d hm ⟨sj, hr⟩
      refine ⟨sj.store hlt p.pin (inv.move_mem hp hm), ?_⟩
      rcases j.store_cases qr p.pin k d with ⟨heq, _⟩ | ⟨heq, _⟩ | ⟨_, _, _, _, heq⟩ <;>
        rw [heq] <;> exact hr
    · rintro j v _ ⟨sj, hr⟩
      refine ⟨sj.settle v, ?_⟩
      unfold Istreamer.settle
      split <;> exact hr
  obtain ⟨s₁, hr₁⟩ := hwalk
  obtain ⟨hdone, hwaits⟩ := Istreamer.transmit_done
    (fun r hr => ⟨(s₁.readers r hr).measured, t.waits r (by rw [← hr₁]; exact hr)⟩) h
  have hsizes := Istreamer.transmit_sizes h s₁.readers
    (fun r hr => t.sizes r (by rw [← hr₁]; exact hr))
  exact { settled with done := hdone, waits := hwaits, sizes := hsizes }

/-- One act keeps the pace. -/
theorem step (t : Paced qr f) (inv : Inv qr f) {a : Act}
    (hok : (Terms.paced qr.receiveBufferSize).flow f a) (h : Flow.step qs qr f a = some f') :
    Paced qr f' := by
  have settled := t.toSettled.step inv (Terms.paced_timely f a hok) h
  cases a with
  | initSource =>
    cases h
    exact { settled with done := t.done, waits := t.waits, sizes := t.sizes }
  | write buffer callback =>
    obtain ⟨_, h⟩ := Option.ite_none_right_eq_some.mp h
    cases h
    exact { settled with done := t.done, waits := t.waits, sizes := t.sizes }
  | push now resend room =>
    obtain ⟨_, h⟩ := Option.ite_none_right_eq_some.mp h
    cases h
    exact { settled with done := t.done, waits := t.waits, sizes := t.sizes }
  | acknowledge p =>
    obtain ⟨_, h⟩ := Option.ite_none_right_eq_some.mp h
    cases h
    exact { settled with done := t.done, waits := t.waits, sizes := t.sizes }
  | abortSource ec =>
    obtain ⟨_, h⟩ := Option.ite_none_left_eq_some.mp h
    cases h
    exact { settled with done := t.done, waits := t.waits, sizes := t.sizes }
  | initSink =>
    cases h
    exact { settled with done := t.done, waits := t.waits, sizes := t.sizes }
  | read buffer callback =>
    obtain ⟨⟨_, hb⟩, h⟩ := Option.ite_none_right_eq_some.mp h
    obtain ⟨i, hi, rfl⟩ := Option.map_eq_some_iff.mp h
    exact t.read inv hb hok hi
  | answer now resend room =>
    obtain ⟨_, h⟩ := Option.ite_none_right_eq_some.mp h
    cases h
    obtain ⟨acks, time, heq, -⟩ := f.sink.imbue_cases now resend room
    refine { settled with done := ?_, waits := ?_, sizes := ?_ }
    · rw [heq]
      exact t.done
    · rw [heq]
      exact t.waits
    · rw [heq]
      exact t.sizes
  | arrive p =>
    obtain ⟨⟨hopen, hp⟩, h⟩ := Option.ite_none_right_eq_some.mp h
    obtain ⟨i, hi, rfl⟩ := Option.map_eq_some_iff.mp h
    exact t.arrive inv hopen hp hi
  | abortSink ec =>
    obtain ⟨_, h⟩ := Option.ite_none_left_eq_some.mp h
    cases h
    exact { settled with
      done := .inl rfl
      waits := fun r hr => by cases hr
      sizes := fun r hr => by cases hr }

end Paced

/-- Every state of a flow within the terms keeps the pace. -/
theorem Reaches.paced {qs qr : Qos} {f : Flow}
    (h : (system qs qr).Reaches (Terms.paced qr.receiveBufferSize).flow f) : Paced qr f :=
  h.invariant_with (fun _ hs => Reaches.inv hs) (fun _ hs => hs ▸ .create)
    (fun _ _ _ hok inv t hstep => t.step inv hok hstep)

/-- Nothing in flight, the edge acknowledged and a reader that waits: the sink has taken all that
was sent, and the window is open. -/
theorem head_lt_range {qr : Qos} {f : Flow} (inv : Inv qr f) (t : Truthful f) (p : Paced qr f)
    (hsource : f.sourceOpen = true) (hsink : f.sinkOpen = true)
    (hflights : f.source.moves.entries = []) (hedge : f.sink.edge.time = maxDateTime)
    (hreader : ∃ r ∈ f.sink.readers, r.buffer ≠ []) : f.source.buffer.head < f.source.range := by
  have s := inv.sink
  rw [hsink] at s
  have src := inv.source
  rw [hsource] at src
  have landed := t.landed hsource
  obtain ⟨r₀, hr₀, hne₀⟩ := hreader
  have hpos : 0 < r₀.buffer.length := List.length_pos_iff.mpr hne₀
  have hsome := p.sizes r₀ hr₀
  -- all that was cut is stored
  have hall : ∀ k x, (k, x) ∈ f.source.pulled → x ≠ [] → (k, x) ∈ f.sink.got := by
    intro k x hm _
    rcases landed.landed k x hm with hk | hgot
    · obtain ⟨g, hg⟩ := SortedMap.mem_keys.mp hk
      rw [hflights] at hg
      cases hg
    · exact hgot
  -- and taken, since nothing is available
  have hnone : ∀ top, f.sink.buffer.data.first? ≠ some (f.sink.buffer.head, top) := by
    intro top htop
    rcases p.done with hnil | hav
    · rw [hnil] at hr₀
      cases hr₀
    · rw [ReceiveBuffer.available_iff.mpr ⟨top, htop⟩] at hav
      cases hav
  have hhead : f.sink.buffer.head = f.source.cut.length :=
    (s.live rfl).assembly.head_eq_of_got hall hnone
  have hsrc : f.source.buffer.head = f.source.cut.length := (src.queue rfl).2
  -- the first reader holds what was taken and not completed
  obtain ⟨hsmall, hrange⟩ := p.edge hedge
  rw [s.edge, Nat.mod_eq_of_lt hsmall] at hrange
  have hfirst : f.sink.history.length < f.sink.completed + qr.receiveBufferSize := by
    have houts : (f.sink.readouts.map Readout.copied).flatten.length = f.sink.completed := by
      have hok : f.sink.readouts.filter (fun r => decide (r.ec = .success)) = f.sink.readouts :=
        List.filter_eq_self.mpr fun r hr => decide_eq_true ((s.live rfl).success r hr)
      rw [Istreamer.completed, hok, List.length_flatten, List.map_map]
      congr 1
      exact List.map_congr_left fun r hr => (s.readouts r hr).1.symm
    rw [Istreamer.history, List.length_append, houts]
    cases hcase : f.sink.readers with
    | nil =>
      rw [hcase] at hr₀
      cases hr₀
    | cons r rest =>
      have hwait := s.waiting
      have hmem : r ∈ f.sink.readers := by
        rw [hcase]
        exact List.mem_cons_self
      rw [hcase] at hwait
      have hrest : (rest.map Reader.copied).flatten = [] := by
        rw [List.flatten_eq_nil_iff]
        intro c hc
        obtain ⟨x, hx, rfl⟩ := List.mem_map.mp hc
        exact hwait x hx
      rw [List.map_cons, List.flatten_cons, hrest, List.append_nil, ← (s.readers r hmem).read_eq]
      have hle := (s.readers r hmem).read_le
      have hsize := p.sizes r hmem
      rcases p.waits r hmem with hlt | hzero
      · omega
      · omega
  rw [s.length_history] at hfirst
  omega

end Flow

/-! ## The next round -/

/-- With nothing in flight and an open window a round with room for a snippet sends one. -/
theorem Ostreamer.imbue_sends {o : Ostreamer} (q : Qos) (now : Time) (resend : Int) {room : Nat}
    (hflights : o.moves.entries = []) (hqueued : ∀ x ∈ o.buffer.data, x ≠ [])
    (hsome : o.buffer.data ≠ []) (hwindow : o.buffer.head < o.range) (hrange : o.range < 2 ^ 64)
    (hroom : overhead < room) (hswarm : 0 < q.snippetSwarm) :
    ∃ k x, x ≠ [] ∧ .move k x ∈ (o.imbue q now resend room).2.1 := by
  have hagain : o.repeatLoop q now resend room room = (o, [], room, false) :=
    repeatLoop_idle q now resend room room fun e he => absurd (hflights ▸ he) List.not_mem_nil
  have hlimit : wsub o.range o.buffer.head = o.range - o.buffer.head :=
    wsub_of_le (Nat.le_of_lt hwindow) hrange
  have hsize : o.moves.size < q.snippetSwarm := by
    rw [SortedMap.size, hflights]
    exact hswarm
  have hav : o.buffer.available = true := by
    simpa [SendBuffer.available] using hsome
  have hfresh : ∃ rest, (o.freshLoop q now resend (room + 1) room).2.1
      = o.snippet (min (wsub o.range o.buffer.head) (room - overhead)) :: rest := by
    rw [freshLoop, if_pos ⟨hav, hsize⟩]
    dsimp only
    rw [if_neg (by omega)]
    exact ⟨_, rfl⟩
  obtain ⟨rest, hrest⟩ := hfresh
  have hne : (o.buffer.pull (min (wsub o.range o.buffer.head) (room - overhead))).1 ≠ [] :=
    (o.buffer.pull_ne_nil hsome (by omega) hqueued).1
  refine ⟨o.buffer.head, _, hne, ?_⟩
  unfold imbue
  rw [hagain]
  dsimp only
  rw [if_neg (by decide), List.nil_append]
  refine List.mem_append_left _ ?_
  rw [hrest]
  exact List.mem_cons_self

/-! ## Sessions -/

namespace Session

variable {q : Side → Qos} {s : Session} {d : Side}

/-- In a session within the terms: while both sides are linked, nothing of the sender is in
flight and the receiver's edge is acknowledged, a sender with bytes queued and a receiver with
a reader that waits for bytes have an open window between them, and the sender's next round that
has room for a snippet sends one. -/
theorem window_open (h : (system q).Reaches
      ((Terms.paced (q d.other).receiveBufferSize).session d) s)
    (hd : (s.chan d).connector.status = .linked)
    (hother : (s.chan d.other).connector.status = .linked)
    (hflights : (s.chan d).ostreamer.moves.entries = [])
    (hedge : (s.chan d.other).istreamer.edge.time = maxDateTime)
    (hqueued : (s.chan d).ostreamer.buffer.data.flatten ≠ [])
    (hreader : ∃ r ∈ (s.chan d.other).istreamer.readers, r.buffer ≠ []) :
    (s.chan d).ostreamer.buffer.head < (s.chan d).ostreamer.range ∧
      ∀ now resend room, overhead < room → 0 < (q d).snippetSwarm →
        ∃ k x, x ≠ [] ∧
          .move k x ∈ ((s.chan d).ostreamer.imbue (q d) now resend room).2.1 := by
  obtain ⟨f, hf, w⟩ := follows h
  have inv := Flow.Reaches.inv hf
  have truthful := Flow.Reaches.truthful (hf.mono Terms.paced_nonEmpty)
  have hsource : f.sourceOpen = true := by
    cases hc : f.sourceOpen with
    | true => rfl
    | false =>
      have := w.sourceOpen hc
      rw [hd] at this
      cases this
  have hsink : f.sinkOpen = true := by
    cases hc : f.sinkOpen with
    | true => rfl
    | false =>
      have := w.sinkOpen hc
      rw [hother] at this
      cases this
  rw [← w.source] at hflights hqueued ⊢
  rw [← w.sink] at hedge hreader
  have hwindow := Flow.head_lt_range inv truthful (Flow.Reaches.paced hf) hsource hsink hflights
    hedge hreader
  refine ⟨hwindow, fun now resend room hroom hswarm => ?_⟩
  refine Ostreamer.imbue_sends (q d) now resend hflights (truthful.landed hsource).queued ?_
    hwindow inv.source.range_lt hroom hswarm
  intro hnil
  rw [hnil] at hqueued
  exact hqueued rfl

/-- The test of the terms on one act of a session. -/
def Act.paced (size : Nat) (d : Side) (s : Session) : Act → Bool
  | .act x (.write buffer _) => decide (x ≠ d) || !buffer.isEmpty
  | .act x (.read buffer _) => decide (x ≠ d.other) || decide (buffer.length ≤ size)
  | .act x (.produce k) =>
    decide (x ≠ d.other) || decide (later k.istreamer (s.chan x).connector.resend ≠ maxDateTime)
  | _ => true

theorem paced_session (size : Nat) (s : Session) (a : Act) (h : a.paced size d s = true) :
    (Terms.paced size).session d s a := by
  cases a with
  | act x e =>
    refine ⟨?_, ?_⟩
    · rintro rfl
      cases e with
      | write buffer k =>
        rintro rfl
        simp [Act.paced] at h
      | _ => trivial
    · rintro rfl
      cases e with
      | read buffer k => simpa [Act.paced, Terms.sink, Terms.paced] using h
      | produce k => simpa [Act.paced, Terms.sink, Terms.paced] using h
      | _ => trivial
  | deliver => trivial
  | lose => trivial

/-- The edge is acknowledged, three bytes are queued and a reader waits for one. -/
theorem window_open_default :
    ∃ s, (system fun _ => .default).Reaches ((Terms.paced (5 * 1024 * 1024)).session .left) s ∧
      (s.chan .left).ostreamer.buffer.data = [[1, 2, 3]] ∧
      (s.chan .left).ostreamer.buffer.head < (s.chan .left).ostreamer.range := by
  have hrun : ((system fun _ => .default).checked (fun s a => a.paced (5 * 1024 * 1024) .left s)
      (create fun _ => .default)
      (handshake ++ [.act .left (.produce ⟨6, 6, 6⟩), .deliver .right 7 1,
        .act .right (.read [0] 8), .act .left (.write [1, 2, 3] 9)])).map
      (fun s => decide ((s.chan .left).connector.status = .linked ∧
        (s.chan .right).connector.status = .linked ∧
        (s.chan .left).ostreamer.moves.entries = [] ∧
        (s.chan .right).istreamer.edge.time = maxDateTime ∧
        (s.chan .left).ostreamer.buffer.data = [[1, 2, 3]] ∧
        (s.chan .right).istreamer.readers = [⟨[0], 0, 8, []⟩])) = some true := by decide +kernel
  obtain ⟨s, hs, hv⟩ := Option.map_eq_some_iff.mp hrun
  obtain ⟨hl, hr, hflights, hedge, hdata, hreaders⟩ := of_decide_eq_true hv
  have hreach := System.Reaches.checked (paced_session (d := .left) (5 * 1024 * 1024)) _
    (.start rfl) hs
  refine ⟨s, hreach, hdata, ?_⟩
  refine (window_open (d := .left) hreach hl hr hflights hedge ?_ ?_).1
  · rw [hdata]
    decide
  · refine ⟨⟨[0], 0, 8, []⟩, ?_, by decide⟩
    show _ ∈ (s.chan .right).istreamer.readers
    rw [hreaders]
    exact List.mem_singleton.mpr rfl

/-- Parameters with a receive buffer of one byte. -/
def narrow : Qos := { Qos.default with receiveBufferSize := 1, receiveBufferSize_lt := by decide }

/-- A read of two bytes with a receive buffer of one: no packet is on its way, nothing is in
flight and nothing is left to acknowledge, a byte is queued, the reader waits for it, and the
window is closed. -/
theorem window_stuck :
    ∃ s, (system fun _ => narrow).Reachable s ∧
      (s.chan .left).connector.status = .linked ∧ (s.chan .right).connector.status = .linked ∧
      s.net .left = [] ∧ s.net .right = [] ∧
      (s.chan .left).ostreamer.moves.entries = [] ∧ (s.chan .left).ostreamer.acks.entries = [] ∧
      (s.chan .right).istreamer.acks.entries = [] ∧
      (s.chan .right).istreamer.edge.time = maxDateTime ∧
      (s.chan .left).ostreamer.buffer.data = [[2]] ∧
      (s.chan .right).istreamer.readers = [⟨[1, 0], 1, 8, [1]⟩] ∧
      (s.chan .left).ostreamer.range = (s.chan .left).ostreamer.buffer.head := by
  obtain ⟨s, hs, hv⟩ := System.exists_of_run (S := system fun _ => narrow)
    (f := fun s => decide ((s.chan .left).connector.status = .linked ∧
      (s.chan .right).connector.status = .linked ∧ s.net .left = [] ∧ s.net .right = [] ∧
      (s.chan .left).ostreamer.moves.entries = [] ∧ (s.chan .left).ostreamer.acks.entries = [] ∧
      (s.chan .right).istreamer.acks.entries = [] ∧
      (s.chan .right).istreamer.edge.time = maxDateTime ∧
      (s.chan .left).ostreamer.buffer.data = [[2]] ∧
      (s.chan .right).istreamer.readers = [⟨[1, 0], 1, 8, [1]⟩] ∧
      (s.chan .left).ostreamer.range = (s.chan .left).ostreamer.buffer.head)) (v := true)
    (handshake ++ [.act .left (.write [1, 2] 9), .act .right (.read [0, 0] 8),
      .act .left (.produce ⟨6, 6, 6⟩), .deliver .right 7 1, .act .right (.produce ⟨8, 8, 8⟩),
      .deliver .left 9 1, .lose .left 0, .lose .left 0, .lose .right 0, .lose .right 0])
    rfl (by decide +kernel)
  exact ⟨s, hs, of_decide_eq_true hv⟩

end Session

end Tubus.Udp
