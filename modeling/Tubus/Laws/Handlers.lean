import Tubus.Laws.Flow
import Tubus.Laws.Transport

/-!
# Handlers

No handler is lost, called twice or called out of turn, whatever packets arrive and however the
channel ends. The handlers posted so far, followed by those that wait, are the handlers that were
queued, in the order of the calls. A read that is posted with success has filled its buffer, and
one that is posted with an error reports what was copied into it.
-/

namespace Tubus.Udp

open Lib

/-! ## Reads -/

/-- The account of the read handlers. A reader is known by its size and its callback. -/
structure Istreamer.InTurn (i : Istreamer) : Prop where
  readers : ∀ r ∈ i.readers, r.Sound
  turn : (i.readouts.map fun r => (r.buffer.length, r.callback))
    ++ (i.readers.map fun r => (r.buffer.length, r.callback)) = i.asked
  sizes : ∀ r ∈ i.readouts, r.size = r.copied.length ∧ r.buffer.take r.size = r.copied
  full : ∀ r ∈ i.readouts, r.ec = .success → r.size = r.buffer.length

namespace Istreamer.InTurn

variable {q : Qos} {i i' : Istreamer}

theorem create : InTurn (.create q) where
  readers r hr := by cases hr
  turn := rfl
  sizes r hr := by cases hr
  full r hr := by cases hr

theorem moves (t : InTurn i) (h : Moves i i') : InTurn i' := by
  cases h with
  | @copy r r' rest data b first avail short pulled filled =>
    have hr : r.Sound := t.readers r (by rw [first]; exact List.mem_cons_self)
    have hlen := ReceiveBuffer.pull_length avail pulled
    obtain ⟨hr', hsize, hcallback, _, _⟩ := hr.fill (by omega) filled
    refine ⟨fun x hx => ?_, ?_, t.sizes, t.full⟩
    · rcases List.mem_cons.mp hx with rfl | hx
      · exact hr'
      · exact t.readers x (by rw [first]; exact List.mem_cons_of_mem _ hx)
    · have hturn := t.turn
      rw [first, List.map_cons] at hturn
      rw [List.map_cons, hsize, hcallback]
      exact hturn
  | @complete r rest first full =>
    have hr : r.Sound := t.readers r (by rw [first]; exact List.mem_cons_self)
    refine ⟨fun x hx => t.readers x (by rw [first]; exact List.mem_cons_of_mem _ hx), ?_, ?_, ?_⟩
    · have hturn := t.turn
      rw [first, List.map_cons] at hturn
      rw [List.map_append, List.append_assoc]
      exact hturn
    · intro x hx
      rcases List.mem_append.mp hx with hx | hx
      · exact t.sizes x hx
      · rw [List.mem_singleton.mp hx]
        exact ⟨hr.read_eq, hr.front⟩
    · intro x hx hec
      rcases List.mem_append.mp hx with hx | hx
      · exact t.full x hx hec
      · rw [List.mem_singleton.mp hx]
        exact full.symm

theorem append (t : InTurn i) {buffer : Bytes} {k : Handler} (hlt : buffer.length < 2 ^ 64)
    (h : i.append buffer k = some i') : InTurn i' := by
  refine transmit_induct (P := InTurn) (fun _ _ hm t => t.moves hm) h ⟨?_, ?_, t.sizes, t.full⟩
  · intro r hr
    rcases List.mem_append.mp hr with hr | hr
    · exact t.readers r hr
    · rw [List.mem_singleton.mp hr]
      exact .create k hlt
  · show _ ++ (i.readers ++ [Reader.create buffer k]).map _ = i.asked ++ [(buffer.length, k)]
    rw [← t.turn, List.map_append, List.append_assoc]
    rfl

theorem parse (t : InTurn i) {p : Packet} (h : i.parse q p = some i') : InTurn i' := by
  refine parse_induct (P := InTurn) ?_ ?_ (fun _ _ hm t => t.moves hm) h t
  · intro j k d _ tj
    rcases j.store_cases q p.pin k d with ⟨heq, _⟩ | ⟨heq, _⟩ | ⟨_, _, _, _, heq⟩ <;>
      rw [heq] <;> exact { tj with }
  · intro j v _ tj
    unfold settle
    split
    · exact { tj with }
    · exact tj

theorem error (t : InTurn i) {ec : Ec} (hec : ec ≠ .success) : InTurn (i.error ec) := by
  refine ⟨fun r hr => (by cases hr), ?_, ?_, ?_⟩
  · show (i.readouts ++ i.readers.map fun r => r.posted ec).map _ ++ [] = i.asked
    rw [List.append_nil, List.map_append, List.map_map, ← t.turn]
    rfl
  · intro r hr
    rcases List.mem_append.mp hr with hr | hr
    · exact t.sizes r hr
    · obtain ⟨x, hx, rfl⟩ := List.mem_map.mp hr
      exact ⟨(t.readers x hx).read_eq, (t.readers x hx).front⟩
  · intro r hr hs
    rcases List.mem_append.mp hr with hr | hr
    · exact t.full r hr hs
    · obtain ⟨x, hx, rfl⟩ := List.mem_map.mp hr
      exact absurd hs hec

/-- Every operation of a receiving half keeps the account. -/
theorem op {fed : Packet → Prop} (t : InTurn i) (h : Op q fed i i') : InTurn i' := by
  cases h with
  | init => exact { t with }
  | append buffer k hlt h => exact t.append hlt h
  | parse p _ h => exact t.parse h
  | imbue now resend room =>
    obtain ⟨acks, time, heq, -⟩ := i.imbue_cases now resend room
    rw [heq]
    exact { t with }
  | error _ ec hec => exact t.error hec

end Istreamer.InTurn

/-! ## Writes -/

/-- The account of the write handlers. -/
def Ostreamer.InTurn (o : Ostreamer) : Prop :=
  o.written.map Written.callback ++ o.writers.map Writer.callback = o.accepted.map Prod.snd

namespace Ostreamer.InTurn

variable {q : Qos} {o o' : Ostreamer}

theorem parse (t : InTurn o) (p : Packet) : InTurn (o.parse p) := by
  refine parse_induct (P := InTurn) ?_ (fun _ _ _ t => t) t
  intro o h _ t
  have hsplit := (complete_eq (o.acknowledge p.pin h).cursor o.writers).1
  have hwritten : (o.acknowledge p.pin h).written = o.written
      ++ (complete (o.acknowledge p.pin h).cursor o.writers).1.map
        (fun w => ⟨w.callback, .success, w.size⟩) := rfl
  have hwriters : (o.acknowledge p.pin h).writers
      = (complete (o.acknowledge p.pin h).cursor o.writers).2 := rfl
  have hturn := t
  unfold InTurn at hturn ⊢
  rw [hsplit, List.map_append] at hturn
  rw [hwritten, hwriters, List.map_append, List.map_map, List.append_assoc]
  exact hturn

theorem append (t : InTurn o) (buffer : Bytes) (k : Handler) : InTurn (o.append q buffer k) := by
  unfold Ostreamer.append
  dsimp only
  split
  · exact t
  · show _ ++ (o.writers ++ [_]).map _ = (o.accepted ++ [(buffer, k)]).map _
    rw [List.map_append, ← List.append_assoc, t, List.map_append]
    rfl

theorem error (t : InTurn o) (ec : Ec) : InTurn (o.error ec) := by
  have hwritten : (o.error ec).written
      = o.written ++ o.writers.map (fun w => ⟨w.callback, ec, sent o.cursor w⟩) := rfl
  have hwriters : (o.error ec).writers = [] := rfl
  have hturn := t
  unfold InTurn at hturn ⊢
  rw [hwritten, hwriters, List.map_append, List.map_map, List.map_nil, List.append_nil]
  exact hturn

/-- Every operation of a sending half keeps the account. -/
theorem op {fed : Packet → Prop} {linked : Prop} (t : InTurn o) (h : Op q fed linked o o') :
    InTurn o' := by
  cases h with
  | init => exact t
  | append _ buffer k => exact t.append buffer k
  | parse _ p => exact t.parse p
  | imbue now resend room =>
    exact imbue_induct q now resend (P := fun o _ => InTurn o)
      (fun _ _ _ _ hstep t => by cases hstep <;> exact t) room t
  | error _ ec => exact t.error ec

end Ostreamer.InTurn

/-! ## Channels -/

/-- In every state of a channel: the read handlers posted and those that wait are the ones that
were queued, in order, and so are the write handlers; the `n`-th read, posted with success,
reports the size it asked for; and a read posted with an error reports the number of bytes copied
into its buffer. -/
theorem Transport.handlers_in_turn {q : Qos} {t : Transport} (h : (system q).Reachable t) :
    t.istreamer.readouts.map Readout.callback ++ t.istreamer.readers.map Reader.callback
        = t.istreamer.asked.map Prod.snd ∧
      t.ostreamer.written.map Written.callback ++ t.ostreamer.writers.map Writer.callback
        = t.ostreamer.accepted.map Prod.snd ∧
      ∀ (n : Nat) (r : Readout), t.istreamer.readouts[n]? = some r →
        (r.ec = .success → t.istreamer.asked[n]? = some (r.size, r.callback)) ∧
        (r.ec ≠ .success → r.size = r.copied.length ∧ r.buffer.take r.size = r.copied) := by
  have hi : t.istreamer.InTurn :=
    (istreamer_invariant (P := Istreamer.InTurn) .create (fun _ _ _ h t => t.op h) h).2
  have ho : t.ostreamer.InTurn :=
    ostreamer_invariant (P := Ostreamer.InTurn) rfl (fun _ _ _ _ h t => t.op h) h
  refine ⟨?_, ho, fun n r hn => ⟨fun hec => ?_, fun _ => ?_⟩⟩
  · rw [← hi.turn, List.map_append, List.map_map, List.map_map]
    rfl
  · have hmem := List.mem_of_getElem? hn
    have hlt := (List.getElem?_eq_some_iff.mp hn).1
    rw [← hi.turn, List.getElem?_append_left (by rw [List.length_map]; exact hlt),
      List.getElem?_map, hn, Option.map_some, hi.full r hmem hec]
  · exact hi.sizes r (List.mem_of_getElem? hn)

/-- Two reads of two bytes, three bytes received and then an error: the first read is complete,
the second reports one byte. -/
theorem Transport.handlers_in_turn_error :
    ∃ t, (system .default).Reachable t ∧ t.istreamer.asked = [(2, 5), (2, 6)] ∧
      t.istreamer.readouts = [⟨5, .success, 2, [1, 2], [1, 2]⟩, ⟨6, .interrupted, 1, [3, 0], [3]⟩] ∧
      t.istreamer.readouts.map Readout.callback ++ t.istreamer.readers.map Reader.callback
        = t.istreamer.asked.map Prod.snd := by
  obtain ⟨t, ht, hv⟩ := System.exists_of_run (S := system .default)
    (f := fun t => (t.istreamer.asked, t.istreamer.readouts))
    (v := ([(2, 5), (2, 6)],
      [⟨5, .success, 2, [1, 2], [1, 2]⟩, ⟨6, .interrupted, 1, [3, 0], [3]⟩]))
    [.openAt, .connect 1 1 1 .success, .feed 2 ⟨2, [.linkEcho]⟩, .read [0, 0] 5, .read [0, 0] 6,
      .feed 3 ⟨2, [.move 0 [1, 2, 3]]⟩, .mistake .interrupted] rfl (by decide +kernel)
  simp only [Prod.mk.injEq] at hv
  exact ⟨t, ht, hv.1, hv.2, (handlers_in_turn ht).1⟩

end Tubus.Udp
