import Tubus.Lib.Account
import Tubus.Laws.Flush

/-!
# The queue drains

A sending half owes a unit for each snippet in flight, and for each buffer in its queue and each
byte in it. Rounds, packets that are read and errors never add to that; a write adds its length and
one. A round trip that begins with something due and something that fits pays at least one unit
back. So in a run of any length, whatever is lost, repeated or reordered between them, there are at
most as many such round trips as the writes have paid for, and when nothing is owed any more every
write has been called back and nothing is missing at the peer (`trips_bounded`).

A write that waits for its callback has bytes that are not acknowledged (`writers_wait`).
-/

namespace Tubus.Udp

open Lib

/-! ## What a sending half owes -/

/-- A unit for each buffer and each byte. -/
def SendBuffer.volume (b : SendBuffer) : Nat := (b.data.map fun d => d.length + 1).sum

/-- What goes out is gone from the queue. -/
theorem SendBuffer.volume_pull (b : SendBuffer) {max : Nat} (hne : b.data ≠ []) (hpos : 0 < max) :
    (b.pull max).2.volume + 1 ≤ b.volume := by
  unfold pull volume
  split
  · next hnil => exact absurd hnil hne
  · next top rest hdata =>
    split
    · simp only [hdata, List.map_cons, List.sum_cons]
      omega
    · simp only [hdata, List.map_cons, List.sum_cons, List.length_drop]
      omega

theorem SendBuffer.volume_add (q : Qos) (b : SendBuffer) (buf : Bytes) :
    (b.add q buf).volume ≤ b.volume + (buf.length + 1) := by
  rcases b.add_cases q buf with ⟨hadd, -⟩ | ⟨hadd, -⟩ <;> rw [hadd]
  · exact Nat.le_add_right _ _
  · simp [volume]

namespace Ostreamer

variable {q : Qos} {o : Ostreamer}

/-- A unit for each snippet in flight, and what the queue holds. -/
def owed (o : Ostreamer) : Nat := o.moves.size + o.buffer.volume

theorem owed_eq_zero : o.owed = 0 ↔ o.moves.entries = [] ∧ o.buffer.data = [] := by
  unfold owed SendBuffer.volume SortedMap.size
  cases o.moves.entries <;> cases o.buffer.data <;> simp

/-- A round owes no more than it finds. -/
theorem imbue_owed (q : Qos) (now : Time) (resend : Int) (room : Nat) :
    (o.imbue q now resend room).1.owed ≤ o.owed := by
  refine imbue_induct q now resend (P := fun o' _ => o'.owed ≤ o.owed) ?_ room (Nat.le_refl _)
  intro o₁ l o₂ l₂ hstep ho
  refine Nat.le_trans ?_ ho
  cases hstep with
  | again | giveUp =>
    refine Nat.add_le_add_right (SortedMap.size_le_of_keys fun k hk => ?_) _
    rwa [SortedMap.keys_modify] at hk
  | @fresh _ _ max queued pos _ =>
    have hpull := o₁.buffer.volume_pull queued pos
    have hgrow := o₁.moves.size_emplace_le o₁.buffer.head
      ⟨(o₁.buffer.pull max).1, later now resend, 1⟩
    unfold owed launch
    dsimp only
    omega
  | echo => exact Nat.le_refl _

/-- What a round writes is in flight after it. -/
theorem imbue_sent (q : Qos) (now : Time) (resend : Int) (room : Nat) {k : Nat} {d : Bytes}
    (hm : .move k d ∈ (o.imbue q now resend room).2.1) :
    k ∈ (o.imbue q now resend room).1.moves.keys := by
  refine imbue_induct q now resend (o := o)
    (P := fun o' l => ∀ k d, .move k d ∈ l → k ∈ o'.moves.keys) ?_ room
    (fun _ _ hm => absurd hm List.not_mem_nil) k d hm
  intro o₁ l o₂ l₂ hstep ho k d hm
  cases hstep with
  | again mem =>
    rw [SortedMap.keys_modify]
    rcases List.mem_append.mp hm with hm | hm
    · exact ho k d hm
    · cases List.mem_singleton.mp hm
      exact SortedMap.mem_keys.mpr ⟨_, mem⟩
  | giveUp =>
    rw [SortedMap.keys_modify]
    exact ho k d hm
  | fresh =>
    apply SortedMap.mem_keys_emplace.mpr
    rcases List.mem_append.mp hm with hm | hm
    · exact .inl (ho k d hm)
    · cases List.mem_singleton.mp hm
      exact .inr rfl
  | echo owed =>
    rcases List.mem_append.mp hm with hm | hm
    · exact ho k d hm
    · obtain ⟨v, -, heq⟩ := owed _ hm
      cases heq

/-- A packet adds nothing to what is owed. -/
theorem parse_owed (p : Packet) : (o.parse p).owed ≤ o.owed := by
  unfold owed
  rw [(parse_keeps p).1]
  exact Nat.add_le_add_right (SortedMap.size_le_of_keys fun _ => parse_moves_keys) _

/-- The acknowledgement of a flight pays for it. -/
theorem parse_pays {p : Packet} {k : Nat} (h : .moveEcho k ∈ p.body) (hk : k ∈ o.moves.keys) :
    (o.parse p).owed < o.owed := by
  unfold owed
  rw [(parse_keeps p).1]
  exact Nat.add_lt_add_right
    (SortedMap.size_lt_of_keys (fun _ => parse_moves_keys) hk (parse_lands h)) _

theorem append_owed (q : Qos) (buf : Bytes) (h : Handler) :
    (o.append q buf h).owed ≤ o.owed + (buf.length + 1) := by
  have hadd := o.buffer.volume_add q buf
  unfold append owed
  dsimp only
  split <;> (dsimp only; omega)

theorem error_owed (ec : Ec) : (o.error ec).owed = 0 := owed_eq_zero.mpr ⟨rfl, rfl⟩

end Ostreamer

/-- What an event pays in. -/
def Event.volume : Event → Nat
  | .write buffer _ => buffer.length + 1
  | .openAt | .connect _ _ _ _ | .accept _ _ _ _ | .shutdown _ _ | .mistake _ | .read _ _
  | .feed _ _ | .consume | .produce _ => 0

/-- An event adds to what is owed what it pays in, and no more. -/
theorem Transport.act_owed {t t' : Transport} {e : Event} {out : Option Packet}
    (hsound : e.sound = true) (h : t.act e = some (t', out)) :
    t'.ostreamer.owed ≤ t.ostreamer.owed + e.volume := by
  obtain ⟨-, halves⟩ := act_cases hsound h
  cases halves with
  | quiet _ source _ | read _ _ _ _ _ source _ =>
    rw [source]
    exact Nat.le_add_right _ _
  | opened _ _ source _ =>
    rw [source]
    exact Nat.le_add_right _ _
  | write buffer k event _ _ source _ =>
    subst event
    rw [source]
    exact Ostreamer.append_owed _ _ _
  | parsed now p _ _ _ _ source _ =>
    rw [source]
    exact Nat.le_trans (Ostreamer.parse_owed p) (Nat.le_add_right _ _)
  | closed _ _ _ _ _ _ _ source _ | aborted _ _ _ _ source _ =>
    rw [source, Ostreamer.error_owed]
    exact Nat.zero_le _
  | round _ _ _ _ _ _ source _ =>
    rw [source]
    exact Nat.le_trans (Ostreamer.imbue_owed _ _ _ _) (Nat.le_add_right _ _)

/-! ## What a round can send -/

/-- A round with room for what is due, or for the front of the queue, sends a snippet. -/
theorem Ostreamer.imbue_carries (q : Qos) (now : Time) (resend : Int) {room : Nat} {o : Ostreamer}
    (hroom : overhead < room) (hrange : o.range < 2 ^ 64)
    (hfresh : ∀ e ∈ o.moves.entries, e.2.time < now → e.2.attempt ≠ q.moveAttempts)
    (hwork : (∃ e ∈ o.moves.entries, e.2.time < now ∧ overhead + e.2.data.length ≤ room) ∨
      (o.buffer.data ≠ [] ∧ o.moves.size < q.snippetSwarm ∧ o.buffer.head < o.range)) :
    ∃ k d, .move k d ∈ (o.imbue q now resend room).2.1 := by
  cases hfind : o.moves.entries.find? (ready now room) with
  | some e =>
    -- the first flight that is due and fits goes first
    obtain ⟨k, f⟩ := e
    have hdue := List.find?_some hfind
    simp only [ready, Bool.and_eq_true, decide_eq_true_eq] at hdue
    have hunspent := hfresh _ (List.mem_of_find?_eq_some hfind) hdue.1
    have hagain : ∃ rest, (o.repeatLoop q now resend room room).2.1 = .move k f.data :: rest := by
      obtain ⟨fuel, hfuel⟩ := Nat.exists_eq_succ_of_ne_zero (by omega : room ≠ 0)
      nth_rewrite 1 [hfuel]
      rw [repeatLoop, if_neg (by omega), hfind]
      dsimp only
      rw [if_neg hunspent]
      exact ⟨_, rfl⟩
    obtain ⟨rest, hrest⟩ := hagain
    refine ⟨k, f.data, ?_⟩
    unfold imbue
    rcases hr : o.repeatLoop q now resend room room with ⟨o₁, again, room₁, gaveUp⟩
    rw [hr] at hrest
    dsimp only at hrest ⊢
    subst hrest
    split
    · exact List.mem_cons_self
    · exact List.mem_append_left _ (List.mem_append_left _ List.mem_cons_self)
  | none =>
    have hidle : ∀ e ∈ o.moves.entries, ready now room e = false := fun e he => by
      simpa using List.find?_eq_none.mp hfind e he
    obtain ⟨e, he, hdue, hfits⟩ | ⟨hsome, hswarm, hwindow⟩ := hwork
    · have hready := hidle e he
      simp only [ready, Bool.and_eq_false_iff, decide_eq_false_iff_not] at hready
      rcases hready with hlate | hlong
      · exact absurd hdue hlate
      · omega
    · have hlimit : wsub o.range o.buffer.head = o.range - o.buffer.head :=
        wsub_of_le (Nat.le_of_lt hwindow) hrange
      have hsent : ∃ rest, (o.freshLoop q now resend (room + 1) room).2.1 =
          o.snippet (min (wsub o.range o.buffer.head) (room - overhead)) :: rest := by
        rw [freshLoop, if_pos ⟨by simpa [SendBuffer.available] using hsome, hswarm⟩]
        dsimp only
        rw [if_neg (by omega)]
        exact ⟨_, rfl⟩
      obtain ⟨rest, hrest⟩ := hsent
      refine ⟨o.buffer.head,
        (o.buffer.pull (min (wsub o.range o.buffer.head) (room - overhead))).1, ?_⟩
      unfold imbue
      rw [repeatLoop_idle q now resend room room hidle]
      dsimp only
      rw [if_neg (by decide), List.nil_append]
      refine List.mem_append_left _ ?_
      rw [hrest]
      exact List.mem_cons_self

/-! ## Round trips -/

/-- What the next packet leaves to the sending half, at least. -/
def Transport.spare (t : Transport) : Nat :=
  t.qos.maxPacketSize - (Datagram.headerSize + 40 + (t.istreamer.acks.size + 1) * overhead)

/-- A channel that has something to send at a moment: a flight that is due and fits into the next
packet, or a queue that the window and the swarm have room for. No flight that is due has used up
its attempts. -/
structure Transport.Able (t : Transport) (k : Clock) : Prop where
  patient : k.connector ≤ later k.connector t.connector.resend
  room : overhead < t.spare
  fresh : ∀ e ∈ t.ostreamer.moves.entries,
    e.2.time < k.ostreamer → e.2.attempt ≠ t.qos.moveAttempts
  work : (∃ e ∈ t.ostreamer.moves.entries,
      e.2.time < k.ostreamer ∧ overhead + e.2.data.length ≤ t.spare) ∨
    (t.ostreamer.buffer.data ≠ [] ∧ t.ostreamer.moves.size < t.qos.snippetSwarm ∧
      t.ostreamer.buffer.head < t.ostreamer.range)

instance (t : Transport) (k : Clock) : Decidable (t.Able k) :=
  decidable_of_iff (k.connector ≤ later k.connector t.connector.resend ∧ overhead < t.spare ∧
      (∀ e ∈ t.ostreamer.moves.entries,
        e.2.time < k.ostreamer → e.2.attempt ≠ t.qos.moveAttempts) ∧
      ((∃ e ∈ t.ostreamer.moves.entries,
          e.2.time < k.ostreamer ∧ overhead + e.2.data.length ≤ t.spare) ∨
        (t.ostreamer.buffer.data ≠ [] ∧ t.ostreamer.moves.size < t.qos.snippetSwarm ∧
          t.ostreamer.buffer.head < t.ostreamer.range)))
    ⟨fun h => ⟨h.1, h.2.1, h.2.2.1, h.2.2.2⟩, fun h => ⟨h.patient, h.room, h.fresh, h.work⟩⟩

namespace Session

variable {q : Side → Qos} {s s₁ s₂ : Session} {x : Side}

/-- What an act pays in for a side. -/
def Act.volume (x : Side) : Act → Nat
  | .act y e => if y = x then e.volume else 0
  | .deliver _ _ _ | .lose _ _ => 0

theorem step_owed {a : Act} (h : s.step a = some s₁) :
    (s₁.chan x).ostreamer.owed ≤ (s.chan x).ostreamer.owed + a.volume x := by
  cases a with
  | act y e =>
    obtain ⟨⟨hsound, -⟩, h⟩ := Option.ite_none_right_eq_some.mp h
    obtain ⟨⟨t, out⟩, hact, rfl⟩ := Option.map_eq_some_iff.mp h
    by_cases hy : y = x
    · subst hy
      rw [put_chan_self, Act.volume, if_pos rfl]
      exact Transport.act_owed hsound hact
    · rw [put_chan_of_ne (Ne.symm hy)]
      exact Nat.le_add_right _ _
  | deliver y now n =>
    obtain ⟨p, -, h⟩ := Option.bind_eq_some_iff.mp h
    obtain ⟨⟨t, out⟩, hact, rfl⟩ := Option.map_eq_some_iff.mp h
    by_cases hy : y = x
    · subst hy
      rw [put_chan_self]
      exact Transport.act_owed (e := .feed now p) rfl hact
    · rw [put_chan_of_ne (Ne.symm hy)]
      exact Nat.le_add_right _ _
  | lose y n =>
    cases h
    exact Nat.le_refl _

/-- A round trip of a side that has something to send pays a unit back. -/
theorem trip_pays {k₁ k₂ : Clock} {now₁ now₂ : Time} (h : (system q).Reachable s)
    (hlinked : ∀ y, (s.chan y).connector.status = .linked)
    (hable : (s.chan x).Able k₁) (hroom : Roomy (s₁.chan x.other) k₂.connector)
    (h₁ : s.pass x k₁ now₁ = some s₁) (h₂ : s₁.pass x.other k₂ now₂ = some s₂) :
    (s₂.chan x).ostreamer.owed < (s.chan x).ostreamer.owed := by
  obtain ⟨-, p, p', resend, room, -, hleft, hsource, hback, hsent, hack⟩ :=
    round_trip h hlinked hroom h₁ h₂
  have hleft := hleft hable.patient
  have hspare : (s.chan x).spare ≤ room := by
    unfold Transport.spare
    omega
  have hrange : (s.chan x).ostreamer.range < 2 ^ 64 := by
    obtain ⟨f, inv, w⟩ := exists_flow h x
    rw [← w.source]
    exact inv.source.range_lt
  obtain ⟨a, d, hm⟩ := Ostreamer.imbue_carries (s.chan x).qos k₁.ostreamer resend
    (Nat.lt_of_lt_of_le hable.room hspare) hrange hable.fresh
    (hable.work.imp (fun ⟨e, he, hdue, hfits⟩ => ⟨e, he, hdue, Nat.le_trans hfits hspare⟩) id)
  have hfly := Ostreamer.imbue_sent _ _ _ _ hm
  have hround := (s.chan x).ostreamer.imbue_owed (s.chan x).qos k₁.ostreamer resend room
  rw [← hsource] at hfly hround
  rw [hback]
  exact Nat.lt_of_lt_of_le (Ostreamer.parse_pays (hack a d (hsent _ hm)) hfly) hround

end Session

/-! ## A write that waits -/

namespace Ostreamer

variable {q : Qos} {o : Ostreamer}

theorem imbue_cursor (q : Qos) (now : Time) (resend : Int) (room : Nat) :
    (o.imbue q now resend room).1.cursor ≤ o.cursor := by
  refine imbue_induct q now resend (P := fun o' _ => o'.cursor ≤ o.cursor) ?_ room (Nat.le_refl _)
  intro o₁ l o₂ l₂ hstep ho
  refine Nat.le_trans ?_ ho
  cases hstep with
  | again mem | giveUp mem =>
    refine cursor_le_of_keys (fun k hk => ?_) fun hnil => ?_
    · rwa [SortedMap.keys_modify]
    · rw [hnil] at mem
      cases mem
  | fresh =>
    refine cursor_le_of_keys (fun k hk => ?_) fun _ => ?_
    · exact SortedMap.mem_keys_emplace.mpr (.inl hk)
    · exact cursor_le (SortedMap.mem_keys_emplace.mpr (.inr rfl))
  | echo => exact Nat.le_refl _

theorem cursor_le_stream (s : SourceInv o true) : o.cursor ≤ o.stream.length := by
  refine Nat.le_trans ?_ s.front.length_le
  unfold cursor
  split
  · exact Nat.le_of_eq (s.queue rfl).2
  · next h f hf =>
    have hend := (s.snippet_prefix (s.flights h f (SortedMap.first?_mem hf))).1
    omega

theorem stream_le_append (q : Qos) (o : Ostreamer) (buf : Bytes) (h : Handler) :
    o.stream.length ≤ (o.append q buf h).stream.length := by
  unfold append
  dsimp only
  split
  · exact Nat.le_refl _
  · simp [stream]

/-- Not all of the first writer is acknowledged. -/
def Waits (o : Ostreamer) : Prop :=
  ∀ w, o.writers.head? = some w → ¬ wadd w.head w.size ≤ o.cursor

theorem Waits.imbue (h : o.Waits) (q : Qos) (now : Time) (resend : Int) (room : Nat) :
    (o.imbue q now resend room).1.Waits := by
  have hwriters := (o.imbue_keeps q now resend room).1
  intro w hw hle
  rw [hwriters] at hw
  exact h w hw (Nat.le_trans hle (imbue_cursor q now resend room))

theorem Waits.parse (h : o.Waits) (p : Packet) : (o.parse p).Waits :=
  parse_induct (P := Waits) (fun _ _ _ _ _ hw => complete_rest hw) (fun _ _ _ ho => ho) h

theorem Waits.append {got : List (Nat × Bytes)} (h : o.Waits) (s : SourceInv o true)
    (l : Ledger o got true) (q : Qos) {buf : Bytes} (k : Handler) (hlt : buf.length < 2 ^ 64)
    (hall : (o.append q buf k).stream.length < 2 ^ 64) : (o.append q buf k).Waits := by
  rcases append_cases (q := q) k hlt s.tail_lt with ⟨_, _, _, _, heq⟩ | ⟨hne, _, heq⟩
  · rw [heq]
    exact h
  · intro w hw hle
    have hstream : (o.append q buf k).stream.length = o.stream.length + buf.length := by
      rw [heq]
      simp [stream]
    rw [hstream] at hall
    rw [heq] at hw hle
    cases hold : o.writers.head? with
    | some w' =>
      rw [List.head?_append, hold] at hw
      cases hw
      exact h w hold hle
    | none =>
      rw [List.head?_append, hold] at hw
      cases hw
      have hcursor := cursor_le_stream s
      have hpos := List.length_pos_iff.mpr hne
      rw [l.tail rfl, wadd_of_lt hall] at hle
      change _ ≤ o.cursor at hle
      omega

end Ostreamer

/-- No writer waits whose bytes are all acknowledged. -/
theorem Flow.Reaches.waits {qs qr : Qos} {f : Flow}
    (h : (system qs qr).Reaches Terms.nonEmpty.flow f) :
    f.source.stream.length < 2 ^ 64 → f.source.Waits := by
  refine System.Reaches.invariant_with (I := fun f => Inv qr f ∧ Truthful f)
    (P := fun f => f.source.stream.length < 2 ^ 64 → f.source.Waits)
    (fun f hf => ⟨Reaches.inv hf, Reaches.truthful hf⟩) ?_ ?_ h
  · rintro f rfl hlt w hw
    cases hw
  · rintro f a f' hok ⟨inv, truthful⟩ hf hstep
    cases a with
    | initSource =>
      cases hstep
      exact hf
    | write buffer callback =>
      obtain ⟨⟨hopen, hb⟩, hstep⟩ := Option.ite_none_right_eq_some.mp hstep
      cases hstep
      intro hlt
      have hs := inv.source
      have hold : f.source.stream.length < 2 ^ 64 :=
        Nat.lt_of_le_of_lt (f.source.stream_le_append qs buffer callback) hlt
      have hl := truthful.ledger hold
      rw [hopen] at hs hl
      exact (hf hold).append hs hl qs callback hb hlt
    | push now resend room =>
      obtain ⟨-, hstep⟩ := Option.ite_none_right_eq_some.mp hstep
      cases hstep
      intro hlt
      refine (hf ?_).imbue qs now resend room
      rwa [← (f.source.imbue_keeps qs now resend room).2.2]
    | acknowledge p =>
      obtain ⟨-, hstep⟩ := Option.ite_none_right_eq_some.mp hstep
      cases hstep
      intro hlt
      refine (hf ?_).parse p
      rwa [← (f.source.parse_keeps p).2]
    | abortSource ec =>
      obtain ⟨-, hstep⟩ := Option.ite_none_left_eq_some.mp hstep
      cases hstep
      rintro - w hw
      cases hw
    | initSink =>
      cases hstep
      exact hf
    | read buffer callback =>
      obtain ⟨-, hstep⟩ := Option.ite_none_right_eq_some.mp hstep
      obtain ⟨i, -, rfl⟩ := Option.map_eq_some_iff.mp hstep
      exact hf
    | answer now resend room =>
      obtain ⟨-, hstep⟩ := Option.ite_none_right_eq_some.mp hstep
      cases hstep
      exact hf
    | arrive p =>
      obtain ⟨-, hstep⟩ := Option.ite_none_right_eq_some.mp hstep
      obtain ⟨i, -, rfl⟩ := Option.map_eq_some_iff.mp hstep
      exact hf
    | abortSink ec =>
      obtain ⟨-, hstep⟩ := Option.ite_none_left_eq_some.mp hstep
      cases hstep
      exact hf

/-- The slots of a list of writes are one behind the other. -/
theorem Ostreamer.slots_pairwise (k : Nat) (l : List (Bytes × Handler)) :
    (slots k l).Pairwise (fun a b => a.head + a.size ≤ b.head) ∧ ∀ w ∈ slots k l, k ≤ w.head := by
  induction l generalizing k with
  | nil => exact ⟨.nil, fun w hw => absurd hw List.not_mem_nil⟩
  | cons e rest ih =>
    obtain ⟨hrest, hstart⟩ := ih (k + e.1.length)
    refine ⟨List.pairwise_cons.mpr ⟨hstart, hrest⟩, fun w hw => ?_⟩
    rcases List.mem_cons.mp hw with rfl | hw
    · exact Nat.le_refl k
    · exact Nat.le_trans (Nat.le_add_right _ _) (hstart w hw)

namespace Session

variable {q : Side → Qos} {s s₁ : Session} {x : Side}

/-- No writer that waits is covered: each ends above the cursor. -/
theorem cursor_lt (h : (system q).Reaches (Terms.nonEmpty.session x) s)
    (hlt : (s.chan x).ostreamer.stream.length < 2 ^ 64) :
    ∀ w ∈ (s.chan x).ostreamer.writers, (s.chan x).ostreamer.cursor < w.head + w.size := by
  obtain ⟨f, hf, w⟩ := follows h
  have hwaits := Flow.Reaches.waits hf
  have hledger := (Flow.Reaches.truthful hf).ledger
  rw [w.source] at hwaits hledger
  have hwaits := hwaits hlt
  have hledger := hledger hlt
  intro v hv
  cases hopen : f.sourceOpen with
  | false =>
    rw [hledger.closed hopen] at hv
    cases hv
  | true =>
    have hwriters := hledger.writers hopen
    cases hall : (s.chan x).ostreamer.writers with
    | nil =>
      rw [hall] at hv
      cases hv
    | cons first rest =>
      -- the first writer is not covered, and the others end behind it
      rw [hopen] at hledger
      have hfirst := hwaits first (by rw [hall]; rfl)
      rw [wadd_of_lt (hledger.writer_lt hlt (by rw [hall]; exact List.mem_cons_self))] at hfirst
      have hpairs := (Ostreamer.slots_pairwise 0 (s.chan x).ostreamer.accepted).1.sublist
        (List.drop_sublist (s.chan x).ostreamer.written.length _)
      rw [← hwriters, hall] at hpairs
      rw [hall] at hv
      rcases List.mem_cons.mp hv with rfl | hv
      · exact Nat.lt_of_not_le hfirst
      · have hbehind := (List.pairwise_cons.mp hpairs).1 v hv
        omega

/-- A write waits for a reason. In every state of a session in which a side writes no empty buffer,
a write of that side that waits for its callback has a snippet in flight that begins before its
end, or was not sent to its end. -/
theorem writers_wait (h : (system q).Reaches (Terms.nonEmpty.session x) s)
    (hlt : (s.chan x).ostreamer.stream.length < 2 ^ 64) :
    ∀ w ∈ (s.chan x).ostreamer.writers,
      (∃ k ∈ (s.chan x).ostreamer.moves.keys, k < w.head + w.size) ∨
        (s.chan x).ostreamer.buffer.head < w.head + w.size := by
  intro w hw
  have hcursor := cursor_lt h hlt w hw
  rw [Ostreamer.cursor.eq_def] at hcursor
  split at hcursor
  · exact .inr hcursor
  · next k f hk => exact .inl ⟨k, SortedMap.mem_keys.mpr ⟨f, SortedMap.first?_mem hk⟩, hcursor⟩

/-- A write is on its way. -/
theorem writers_wait_one : ∃ s,
    (system fun _ => .default).Reaches (Terms.nonEmpty.session .left) s ∧
    (s.chan .left).ostreamer.writers = [⟨0, 3, 7⟩] ∧
      ∃ k ∈ (s.chan .left).ostreamer.moves.keys, k < 3 := by
  have hnone : ∀ a ∈ handshake ++ [.act .left (.write [1, 2, 3] 7),
      .act .left (.produce ⟨6, 6, 6⟩)], a.emptyWrite .left = false := by decide
  have hrun : ((system fun _ => .default).run (create fun _ => .default) (handshake ++
      [.act .left (.write [1, 2, 3] 7), .act .left (.produce ⟨6, 6, 6⟩)])).map
      (fun s => decide ((s.chan .left).ostreamer.writers = [⟨0, 3, 7⟩] ∧
        (s.chan .left).ostreamer.buffer.head = 3 ∧
        (s.chan .left).ostreamer.stream.length = 3)) = some true := by decide +kernel
  obtain ⟨s, hs, hv⟩ := Option.map_eq_some_iff.mp hrun
  obtain ⟨hwriters, hhead, hlength⟩ := of_decide_eq_true hv
  have hreach : (system fun _ => .default).Reaches (Terms.nonEmpty.session .left) s :=
    .run _ (.start rfl) (fun s a ha => nonEmpty_session s (hnone a ha)) hs
  refine ⟨s, hreach, hwriters, ?_⟩
  obtain hfly | hlater := writers_wait hreach (by omega) ⟨0, 3, 7⟩
    (by rw [hwriters]; exact List.mem_singleton.mpr rfl)
  · exact hfly
  · rw [hhead] at hlater
    exact absurd hlater (by decide)

/-! ## Runs with round trips -/

/-- An act of a session, or a round trip of one side. -/
inductive Leg where
  | act (a : Act)
  | trip (k₁ : Clock) (now₁ : Time) (k₂ : Clock) (now₂ : Time)
  deriving DecidableEq, Repr

/-- Is it a round trip? -/
def Leg.trips : Leg → Nat
  | .act _ => 0
  | .trip _ _ _ _ => 1

/-- What it pays in for a side. -/
def Leg.volume (x : Side) : Leg → Nat
  | .act a => a.volume x
  | .trip _ _ _ _ => 0

/-- A session in which the round trips of one side are told apart. -/
def journeys (x : Side) (q : Side → Qos) : System Session Leg where
  init s := s = create q
  step s
    | .act a => s.step a
    | .trip k₁ now₁ k₂ now₂ => (s.pass x k₁ now₁).bind (pass x.other k₂ now₂)

/-- The side writes no empty buffer. A round trip begins between linked sides, with something to
send, and the peer's packet has room for what it owes by then. -/
def Heeds (x : Side) (s : Session) : Leg → Prop
  | .act a => Terms.nonEmpty.session x s a
  | .trip k₁ now₁ k₂ _ => (∀ y, (s.chan y).connector.status = .linked) ∧ (s.chan x).Able k₁ ∧
      ∀ s₁, s.pass x k₁ now₁ = some s₁ → Roomy (s₁.chan x.other) k₂.connector

theorem reaches_of_journeys (h : (journeys x q).Reaches (Heeds x) s) :
    (system q).Reaches (Terms.nonEmpty.session x) s := by
  induction h with
  | start hs => exact .start hs
  | @next s s' e _ hok hstep ih =>
    cases e with
    | act a => exact .next ih hok hstep
    | trip k₁ now₁ k₂ now₂ =>
      obtain ⟨s₁, h₁, h₂⟩ := Option.bind_eq_some_iff.mp hstep
      exact nonEmpty_pass (nonEmpty_pass ih h₁) h₂

/-- A round trip is paid for, and an act pays in what it adds. -/
theorem leg_owed {e : Leg} (h : (system q).Reaches (Terms.nonEmpty.session x) s)
    (hok : Heeds x s e) (hstep : (journeys x q).step s e = some s₁) :
    e.trips + (s₁.chan x).ostreamer.owed ≤ (s.chan x).ostreamer.owed + e.volume x := by
  cases e with
  | act a =>
    rw [Leg.trips, Leg.volume, Nat.zero_add]
    exact step_owed hstep
  | trip k₁ now₁ k₂ now₂ =>
    obtain ⟨s', h₁, h₂⟩ := Option.bind_eq_some_iff.mp hstep
    obtain ⟨hlinked, hable, hroom⟩ := hok
    have hpays := trip_pays (h.mono fun _ _ _ => trivial) hlinked hable (hroom s' h₁) h₁ h₂
    rw [Leg.trips, Leg.volume]
    omega

/-- Round trips are bounded by what is written. In every run in which one side writes no empty
buffer, there are at most as many round trips of that side that begin with something to send as the
lengths of its writes and their number add up to, less what it still owes. When it owes nothing and
both sides are linked, every write has been called back, and what the peer has handed to its
readers and what it can still read are together as long as all that was written. -/
theorem trips_bounded {es : List Leg} (h : (journeys x q).Runs (Heeds x) (create q) es s) :
    (es.map Leg.trips).sum + (s.chan x).ostreamer.owed ≤ (es.map (Leg.volume x)).sum ∧
      ((s.chan x).ostreamer.owed = 0 → (∀ y, (s.chan y).connector.status = .linked) →
        (s.chan x).ostreamer.stream.length < 2 ^ 64 →
          (s.chan x).ostreamer.writers = [] ∧
            (s.chan x.other).istreamer.delivered.length +
              (s.chan x.other).istreamer.buffer.readableBytes =
                (s.chan x).ostreamer.stream.length) := by
  refine ⟨?_, fun howed hlinked hlt => ?_⟩
  · have haccount := h.account (fun s => (s.chan x).ostreamer.owed) Leg.trips (Leg.volume x)
      (fun _ _ _ hs => leg_owed (reaches_of_journeys hs)) (.start rfl)
    rwa [show ((create q).chan x).ostreamer.owed = 0 from rfl, Nat.zero_add] at haccount
  · have hreach := reaches_of_journeys (h.reaches (.start rfl))
    obtain ⟨hflights, hempty⟩ := Ostreamer.owed_eq_zero.mp howed
    refine ⟨List.eq_nil_iff_forall_not_mem.mpr fun w hw => ?_,
      delivered_all hreach hlinked hflights hempty⟩
    obtain ⟨got, pieces, src, -, ledger, -⟩ := exists_linked_flow hreach hlinked
    obtain ⟨hstream, hhead⟩ := src.queue rfl
    have hcursor := cursor_lt hreach hlt w hw
    rw [(ledger hlt).writers rfl] at hw
    have hend := Ostreamer.slots_end 0 _ (List.mem_of_mem_drop hw)
    rw [Nat.zero_add] at hend
    change _ ≤ (s.chan x).ostreamer.stream.length at hend
    rw [hempty, List.flatten_nil, List.append_nil] at hstream
    rw [Ostreamer.cursor, SortedMap.first?_eq_none.mpr hflights] at hcursor
    rw [hstream, ← hhead] at hend
    exact absurd hend (Nat.not_le_of_lt hcursor)

/-- The test of `Heeds`. -/
def heeds (x : Side) (s : Session) : Leg → Bool
  | .act a => !a.emptyWrite x
  | .trip k₁ now₁ k₂ _ => decide ((s.chan .left).connector.status = .linked ∧
      (s.chan .right).connector.status = .linked ∧ (s.chan x).Able k₁ ∧
      ∀ s₁ ∈ s.pass x k₁ now₁, Roomy (s₁.chan x.other) k₂.connector)

theorem heeds_sound (x : Side) (s : Session) (e : Leg) (h : heeds x s e = true) : Heeds x s e := by
  cases e with
  | act a => exact nonEmpty_session s (by simpa [heeds] using h)
  | trip k₁ now₁ k₂ now₂ =>
    obtain ⟨hleft, hright, hable, hroom⟩ := of_decide_eq_true h
    exact ⟨fun y => by cases y <;> assumption, hable, hroom⟩

/-- A write is lost and sent again, and another one follows: two round trips for six units. -/
theorem trips_bounded_two : ∃ es s,
    (journeys .left fun _ => .default).Runs (Heeds .left) (create fun _ => .default) es s ∧
      (es.map Leg.trips).sum = 2 ∧ (es.map (Leg.volume .left)).sum = 6 ∧
      2 + (s.chan .left).ostreamer.owed ≤ 6 ∧ (s.chan .left).ostreamer.writers = [] ∧
      (s.chan .right).istreamer.buffer.readableBytes = 4 := by
  have hrun : ((journeys .left fun _ => .default).checked (heeds .left)
      (create fun _ => .default) (handshake.map .act ++ [.act (.act .left (.write [1, 2, 3] 7)),
        .act (.act .left (.produce ⟨6, 6, 6⟩)), .act (.lose .left 1),
        .trip ⟨200000, 200000, 200000⟩ 200001 ⟨200002, 200002, 200002⟩ 200003,
        .act (.act .left (.write [4] 8)),
        .trip ⟨200004, 200004, 200004⟩ 200005 ⟨200006, 200006, 200006⟩ 200007])).map
      (fun s => decide ((s.chan .left).connector.status = .linked ∧
        (s.chan .right).connector.status = .linked ∧ (s.chan .left).ostreamer.owed = 0 ∧
        (s.chan .left).ostreamer.stream.length = 4 ∧
        (s.chan .right).istreamer.delivered = [])) = some true := by decide +kernel
  obtain ⟨s, hs, hv⟩ := Option.map_eq_some_iff.mp hrun
  obtain ⟨hleft, hright, howed, hlength, hnone⟩ := of_decide_eq_true hv
  have hruns := System.Runs.checked (heeds_sound .left) hs
  obtain ⟨hbound, hdone⟩ := trips_bounded hruns
  obtain ⟨hwriters, hall⟩ := hdone howed (fun y => by cases y <;> assumption) (by omega)
  change (s.chan .right).istreamer.delivered.length + _ = _ at hall
  rw [hnone, List.length_nil, Nat.zero_add, hlength] at hall
  exact ⟨_, s, hruns, rfl, rfl, hbound, hwriters, hall⟩

end Session

end Tubus.Udp
