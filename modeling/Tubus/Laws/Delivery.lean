import Tubus.Laws.Session

/-!
# Delivery

The two results that hold of every session without any condition on its run. What was read on
one side is a front of what was written on the other (`delivered_prefix_stream`). While the
receiver is linked, the sender stays within its window (`window_never_overrun`).

The window is a word. When the receive buffer's size and the bytes of the completed reads
together pass `2 ^ 64`, `m_edge.range` wraps and is below an edge it announced before
(`edge_range_wraps`); the sender keeps the larger one. That is the only inequality that needs
room below the wrap.
-/

namespace Tubus.Udp.Session

open Lib

variable {q : Side → Qos} {s : Session}

/-- A flow for one direction of a session, with its accounts. -/
theorem exists_flow (h : (system q).Reachable s) (d : Side) :
    ∃ f, Flow.Inv (q d.other) f ∧ Follows q d s f := by
  obtain ⟨f, hf, w⟩ := follows (m := .any) (d := d) (h.mono fun s a _ => Terms.any_session d s a)
  exact ⟨f, Flow.Reaches.inv hf, w⟩

/-! ## The stream arrives in order and once -/

/-- The bytes in the read buffers of one side are a front of the bytes of the writes that the
other side queued. -/
theorem delivered_prefix_stream (h : (system q).Reachable s) (d : Side) :
    (s.chan d.other).istreamer.delivered <+: (s.chan d).ostreamer.stream := by
  obtain ⟨f, inv, w⟩ := exists_flow h d
  rw [← w.sink, ← w.source, inv.sink.delivered_eq]
  exact inv.sink.history.trans inv.source.front

/-- A write of five bytes, and two reads of three that get it in parts. -/
theorem delivered_prefix_stream_parts :
    ∃ s, (system fun _ => .default).Reachable s ∧
      (s.chan .right).istreamer.delivered = [1, 2, 3, 4, 5] ∧
      (s.chan .right).istreamer.delivered <+: (s.chan .left).ostreamer.stream := by
  obtain ⟨s, hs, hv⟩ := System.exists_of_run (S := system fun _ => .default)
    (f := fun s => (s.chan .right).istreamer.delivered) (v := [1, 2, 3, 4, 5])
    (handshake ++ [.act .left (.write [1, 2, 3, 4, 5] 7), .act .left (.produce ⟨6, 6, 6⟩),
      .act .right (.read [0, 0, 0] 8), .deliver .right 7 1, .act .right (.read [0, 0, 0] 9)])
    rfl (by decide +kernel)
  exact ⟨s, hs, hv, delivered_prefix_stream hs .left⟩

/-! ## The window -/

/-- While the receiver is linked: what the sender may send ends at the announced edge, unless the
edge has wrapped; the edge is at most a receive buffer past the receiver's head; everything in
flight or on its way ends within what the sender may send and is mapped; the receiver has raised
no error; and it holds no more than its receive buffer. -/
theorem window_never_overrun (h : (system q).Reachable s) (d : Side)
    (hother : (s.chan d.other).connector.status = .linked) :
    let o := (s.chan d).ostreamer
    let i := (s.chan d.other).istreamer
    let size := (q d.other).receiveBufferSize
    (size + i.completed < 2 ^ 64 → o.range ≤ i.edge.range) ∧
      i.edge.range ≤ i.buffer.head + size ∧
      (∀ k f, (k, f) ∈ o.moves.entries → k + f.data.length ≤ o.range) ∧
      (∀ p ∈ s.net d, ∀ k x, .move k x ∈ p.body →
        k + x.length ≤ o.range ∧ (i.buffer.map (q d.other) k x).1 = true) ∧
      i.errors = [] ∧ i.buffered ≤ size := by
  obtain ⟨f, inv, w⟩ := exists_flow h d
  have hsink : f.sinkOpen = true := by
    cases hc : f.sinkOpen with
    | true => rfl
    | false =>
      have := w.sinkOpen hc
      rw [hother] at this
      cases this
  have hs := inv.sink
  rw [hsink] at hs
  have hcut := inv.source.cut_lt
  have hin := inv.source.window
  have hwin := inv.window
  have hdone := hs.completed_le
  rw [hs.length_history] at hdone
  have hends : ∀ k x, (k, x) ∈ f.source.pulled → k + x.length ≤ f.source.range := fun k x hm =>
    Nat.le_trans (inv.source.snippet_prefix hm).1 hin
  rw [← w.sink, ← w.source]
  refine ⟨?_, ?_, ?_, ?_, inv.quiet, ?_⟩
  · intro hlt
    rw [hs.edge, Nat.mod_eq_of_lt hlt]
    exact hwin
  · rw [hs.edge]
    have := Nat.mod_le ((q d.other).receiveBufferSize + f.sink.completed) (2 ^ 64)
    omega
  · intro k g hm
    exact hends k g.data (inv.source.flights k g hm)
  · intro p hp k x hm
    have hmem := inv.move_mem (fun y hy hf => w.sent p hp y hy hf) hm
    refine ⟨hends k x hmem, ?_⟩
    have hroom : (joined f.source.pulled).length
        ≤ f.sink.buffer.head + (q d.other).receiveBufferSize := by
      change f.source.cut.length ≤ _
      omega
    rcases f.sink.buffer.map_cases (q d.other) k x with ⟨_, hover⟩ | ⟨heq, _⟩ | ⟨_, _, _, _, heq⟩
    · exact absurd hover (hs.not_refused hcut hroom hmem)
    · rw [heq]
    · rw [heq]
  · have := (hs.live rfl).assembly.kept_le
    change f.sink.buffer.head + f.sink.buffered ≤ f.source.cut.length at this
    omega

/-- One byte in flight and one byte read, with the default window. -/
theorem window_never_overrun_default :
    ∃ s, (system fun _ => .default).Reachable s ∧
      (s.chan .right).istreamer.buffered = 1 ∧ (s.chan .right).istreamer.completed = 1 ∧
      (s.chan .left).ostreamer.range ≤ (s.chan .right).istreamer.edge.range := by
  obtain ⟨s, hs, hv⟩ := System.exists_of_run (S := system fun _ => .default)
    (f := fun s => ((s.chan .right).connector.status,
      (s.chan .right).istreamer.buffered, (s.chan .right).istreamer.completed))
    (v := (.linked, 1, 1))
    (handshake ++ [.act .left (.write [1, 2] 7), .act .left (.produce ⟨6, 6, 6⟩),
      .act .right (.read [0] 8), .deliver .right 7 1])
    rfl (by decide +kernel)
  simp only [Prod.mk.injEq] at hv
  obtain ⟨hr, hb, hc⟩ := hv
  refine ⟨s, hs, hb, hc, (window_never_overrun hs .left hr).1 ?_⟩
  show Qos.default.receiveBufferSize + (s.chan .right).istreamer.completed < 2 ^ 64
  rw [hc]
  decide

/-- Parameters with the largest receive buffer. -/
def widest : Qos :=
  { Qos.default with receiveBufferSize := 2 ^ 64 - 1, receiveBufferSize_lt := maxWord_lt }

/-- A stream of one byte: both sides are linked, and the receiver's edge has wrapped to zero. -/
theorem edge_range_wraps :
    ∃ s, (system fun _ => widest).Reachable s ∧
      (s.chan .left).connector.status = .linked ∧ (s.chan .right).connector.status = .linked ∧
      (s.chan .left).ostreamer.stream.length = 1 ∧
      (s.chan .left).ostreamer.range = 2 ^ 64 - 1 ∧ (s.chan .right).istreamer.edge.range = 0 := by
  obtain ⟨s, hs, hv⟩ := System.exists_of_run (S := system fun _ => widest)
    (f := fun s => ((s.chan .left).connector.status, (s.chan .right).connector.status,
      (s.chan .left).ostreamer.stream.length, (s.chan .left).ostreamer.range,
      (s.chan .right).istreamer.edge.range))
    (v := (.linked, .linked, 1, 2 ^ 64 - 1, 0))
    (handshake ++ [.act .left (.write [1] 7), .act .left (.produce ⟨6, 6, 6⟩),
      .act .right (.read [0] 8), .deliver .right 7 1])
    rfl (by decide +kernel)
  simp only [Prod.mk.injEq] at hv
  exact ⟨s, hs, hv⟩

end Tubus.Udp.Session
