import Tubus.Laws.Delivery
import Tubus.Laws.Progress
import Tubus.Laws.Readable
import Tubus.Laws.Round
import Tubus.Laws.RoundTrip

/-!
# The round trip of a stream

The streams of two linked sides need one round trip as well. Every snippet in a packet that gets
through is owed an acknowledgement by the peer, since the window keeps it from being refused; the
next packet of the peer pays what it owes, first of all that the streams write; and a side that
reads the acknowledgement drops the flight and calls back the writers before the first one left
(`snippets_round_trip`).

So a side with nothing in flight whose queue fits into the window and into one packet has the
whole of it confirmed in one round trip, and nothing of the stream is missing at the peer
(`flush_round_trip`).
-/

namespace Tubus.Udp

open Lib

/-! ## The receiving half owes and pays -/

/-- Where all acknowledgements fit, all are written. -/
theorem takeAcks_all {form : Nat → Section} (hform : ∀ v, (form v).size = overhead) {room : Nat}
    {l : List (Nat × Unit)} (hroom : l.length * overhead ≤ room) :
    (takeAcks form room l).1 = l.map fun e => form e.1 := by
  induction l generalizing room with
  | nil => rfl
  | cons e rest ih =>
    obtain ⟨v, u⟩ := e
    rw [List.length_cons, Nat.succ_mul] at hroom
    rw [takeAcks, if_neg (by omega), List.map_cons]
    dsimp only
    rw [ih (by rw [hform]; omega)]

namespace Istreamer

variable {q : Qos} {pin : Nat} {pieces : List (Nat × Bytes)} {i i' : Istreamer}

/-- What is owed stays owed while a packet is read. -/
theorem takeAll_acks {body : List Section} (h : takeAll q pin i body = some i') :
    ∀ k ∈ i.acks.keys, k ∈ i'.acks.keys := by
  refine takeAll_induct (P := fun j => ∀ k ∈ i.acks.keys, k ∈ j.acks.keys) ?_ ?_ h fun _ => id
  · intro j k d _ hj
    have hadd : ∀ v ∈ i.acks.keys, v ∈ (j.acks.emplace k ()).keys :=
      fun v hv => SortedMap.mem_keys_emplace.mpr (.inl (hj v hv))
    rcases j.store_cases q pin k d with ⟨heq, _⟩ | ⟨heq, _⟩ | ⟨_, _, _, _, heq⟩ <;> rw [heq]
    · exact hj
    · exact hadd
    · exact hadd
  · intro j v _ hj
    unfold settle
    split <;> exact hj

/-- A snippet within the window is taken, and its handle is owed. -/
theorem store_owes (hlt : (joined pieces).length < 2 ^ 64) (s : SinkInv q pieces i true)
    (hroom : (joined pieces).length ≤ q.receiveBufferSize + i.completed) {k : Nat} {d : Bytes}
    (hm : (k, d) ∈ pieces) :
    (i.store q pin k d).2 = true ∧ k ∈ (i.store q pin k d).1.acks.keys := by
  have hdone := s.completed_le
  rw [s.length_history] at hdone
  have howed : k ∈ (i.acks.emplace k ()).keys := SortedMap.mem_keys_emplace.mpr (.inr rfl)
  unfold store
  rcases i.buffer.map_cases q k d with ⟨_, hrefused⟩ | ⟨heq, _⟩ | ⟨_, _, _, _, heq⟩
  · exact absurd hrefused (s.not_refused hlt (by omega) hm)
  · rw [heq]
    exact ⟨rfl, howed⟩
  · rw [heq]
    exact ⟨rfl, howed⟩

/-- The walk over a packet within the window comes to its end, and every snippet in it is owed an
acknowledgement. -/
theorem takeAll_owes (hlt : (joined pieces).length < 2 ^ 64) (s : SinkInv q pieces i true)
    (hroom : (joined pieces).length ≤ q.receiveBufferSize + i.completed) {body : List Section}
    (hp : ∀ k d, .move k d ∈ body → (k, d) ∈ pieces) (h : takeAll q pin i body = some i')
    {k : Nat} {d : Bytes} (hm : .move k d ∈ body) : k ∈ i'.acks.keys := by
  induction body generalizing i with
  | nil => cases hm
  | cons x rest ih =>
    obtain ⟨⟨j, more⟩, htake, hwalk⟩ := Option.bind_eq_some_iff.mp h
    have hrest : ∀ k d, .move k d ∈ rest → (k, d) ∈ pieces :=
      fun k d hm => hp k d (List.mem_cons_of_mem _ hm)
    -- a section that is not a snippet leaves the window and goes on
    have hother : SinkInv q pieces j true → j.completed = i.completed → more = true →
        x ≠ .move k d → k ∈ i'.acks.keys := by
      rintro sj hsame rfl hne
      refine ih sj (by omega) hrest hwalk ?_
      exact (List.mem_cons.mp hm).resolve_left fun heq => hne heq.symm
    cases x with
    | move k' d' =>
      have hpiece := hp k' d' List.mem_cons_self
      obtain ⟨hmore, howed⟩ := @store_owes q pin pieces i hlt s hroom k' d' hpiece
      have hpair : i.store q pin k' d' = (j, more) := Option.some.inj htake
      have sj := s.store hlt pin hpiece
      have hgrown := (store_grows q pin i k' d').completed_le
      rw [hpair] at hmore howed sj hgrown
      subst hmore
      rcases List.mem_cons.mp hm with heq | hm
      · cases heq
        exact takeAll_acks hwalk k howed
      · exact ih sj (by omega) hrest hwalk hm
    | edgeEcho v =>
      cases htake
      refine hother (s.settle v) ?_ rfl Section.noConfusion
      unfold settle
      split <;> rfl
    | runt _ => cases htake
    | link | linkEcho | tear | tearEcho | ping _ | pingEcho _ | moveEcho _ | edge _ =>
      cases htake
      exact hother s rfl rfl Section.noConfusion

/-- Every snippet of a packet within the window is owed an acknowledgement. -/
theorem parse_owes (hlt : (joined pieces).length < 2 ^ 64) (s : SinkInv q pieces i true)
    (hroom : (joined pieces).length ≤ q.receiveBufferSize + i.completed) {p : Packet}
    (hp : ∀ k d, .move k d ∈ p.body → (k, d) ∈ pieces) (h : i.parse q p = some i')
    {k : Nat} {d : Bytes} (hm : .move k d ∈ p.body) : k ∈ i'.acks.keys := by
  obtain ⟨j, hwalk, htransmit⟩ := Option.bind_eq_some_iff.mp h
  have howed := takeAll_owes hlt s hroom hp hwalk hm
  refine transmit_induct (P := fun j => k ∈ j.acks.keys) ?_ htransmit howed
  intro j j' hmove hj
  cases hmove <;> exact hj

/-- A round with room for all acknowledgements pays all that is owed. -/
theorem imbue_pays (now : Time) (resend : Int) {room : Nat}
    (hroom : i.acks.size * overhead ≤ room) {k : Nat} (hk : k ∈ i.acks.keys) :
    .moveEcho k ∈ (i.imbue now resend room).2 := by
  have hecho : .moveEcho k ∈ (takeAcks .moveEcho room i.acks.entries).1 := by
    rw [takeAcks_all (fun v => by simp [Section.size, Section.payload, overhead]) hroom]
    obtain ⟨u, hmem⟩ := SortedMap.mem_keys.mp hk
    exact List.mem_map.mpr ⟨(k, u), hmem, rfl⟩
  unfold imbue drainAcks
  dsimp only
  split
  · exact List.mem_append_left _ hecho
  · exact hecho

end Istreamer

/-! ## The sending half is answered -/

namespace Ostreamer

variable {q : Qos} {o : Ostreamer}

/-- The handles in flight that a packet does not acknowledge stay, and no other comes. -/
theorem parse_moves_keys {p : Packet} {k : Nat} (h : k ∈ (o.parse p).moves.keys) :
    k ∈ o.moves.keys := by
  refine parse_induct (P := fun o' => k ∈ o'.moves.keys → k ∈ o.moves.keys) ?_ ?_ id h
  · exact fun o' v _ ho hk => ho (SortedMap.mem_keys_erase.mp hk).1
  · exact fun _ _ _ ho => ho

/-- A section that comes in a packet has had its effect at the end of the packet. -/
theorem parse_hits {p : Packet} {x : Section} {Q : Ostreamer → Prop}
    (stay : ∀ o s, Q o → Q (o.take p.pin s)) (hit : ∀ o, Q (Ostreamer.take p.pin o x))
    (h : x ∈ p.body) : Q (o.parse p) :=
  @foldl_hits _ _ (take p.pin) (fun _ => True) Q p.body x (fun _ _ _ _ => .inl trivial)
    (fun o s _ => stay o s) (fun o _ => hit o) h o trivial

/-- An acknowledgement ends the flight. -/
theorem parse_lands {p : Packet} {k : Nat} (h : .moveEcho k ∈ p.body) :
    k ∉ (o.parse p).moves.keys := by
  refine parse_hits (Q := fun o => k ∉ o.moves.keys) ?_ ?_ h
  · intro o x ho
    cases x with
    | moveEcho v => exact fun hk => ho (SortedMap.mem_keys_erase.mp hk).1
    | link | linkEcho | tear | tearEcho | ping _ | pingEcho _ | move _ _ | edge _ | edgeEcho _
    | runt _ => exact ho
  · exact fun o hk => (SortedMap.mem_keys_erase.mp hk).2 rfl

/-- The first writer left is not covered. -/
theorem complete_rest {cursor : Nat} {l : List Writer} {w : Writer}
    (h : (complete cursor l).2.head? = some w) : ¬ wadd w.head w.size ≤ cursor := by
  induction l with
  | nil => cases h
  | cons x rest ih =>
    unfold complete at h
    split at h
    · exact ih h
    · next hx =>
      cases h
      exact hx

/-- What the callback of a writer whose bytes were all acknowledged is posted with. -/
def done (w : Writer) : Written := ⟨w.callback, .success, w.size⟩

theorem cursor_le {k : Nat} (h : k ∈ o.moves.keys) : o.cursor ≤ k := by
  obtain ⟨f, hf⟩ := SortedMap.mem_keys.mp h
  unfold cursor
  split
  · next hnone =>
    rw [SortedMap.first?_eq_none.mp hnone] at hf
    cases hf
  · next first hfirst => exact SortedMap.first?_le hfirst hf

/-- The cursor does not go on while all flights stay. -/
theorem cursor_le_of_keys {o' : Ostreamer} (h : ∀ k ∈ o.moves.keys, k ∈ o'.moves.keys)
    (hidle : o.moves.entries = [] → o'.cursor ≤ o.buffer.head) : o'.cursor ≤ o.cursor := by
  cases hfirst : o.moves.first? with
  | none =>
    rw [cursor.eq_def o, hfirst]
    exact hidle (SortedMap.first?_eq_none.mp hfirst)
  | some e =>
    obtain ⟨k, f⟩ := e
    rw [cursor.eq_def o, hfirst]
    exact cursor_le (h k (SortedMap.mem_keys.mpr ⟨f, SortedMap.first?_mem hfirst⟩))

/-- An acknowledgement does not move the cursor back, as long as nothing in flight begins behind the
queue. -/
theorem cursor_le_acknowledge (h : ∀ k ∈ o.moves.keys, k ≤ o.buffer.head) (pin k : Nat) :
    o.cursor ≤ (o.acknowledge pin k).cursor := by
  refine cursor_le_of_keys (fun j hj => (SortedMap.mem_keys_erase.mp hj).1) fun _ => ?_
  show o.cursor ≤ o.buffer.head
  rw [cursor.eq_def]
  split
  · exact Nat.le_refl _
  · next j f hj => exact h j (SortedMap.mem_keys.mpr ⟨f, SortedMap.first?_mem hj⟩)

/-- A packet calls back a front of the writers, with success and in order. They are covered. -/
theorem parse_answers (h : ∀ k ∈ o.moves.keys, k ≤ o.buffer.head) (p : Packet) :
    ∃ front, o.writers = front ++ (o.parse p).writers ∧
      (o.parse p).written = o.written ++ front.map done ∧
      ∀ w ∈ front, wadd w.head w.size ≤ (o.parse p).cursor := by
  refine (parse_induct (P := fun o' => (∀ k ∈ o'.moves.keys, k ≤ o'.buffer.head) ∧
    ∃ front, o.writers = front ++ o'.writers ∧ o'.written = o.written ++ front.map done ∧
      ∀ w ∈ front, wadd w.head w.size ≤ o'.cursor) ?_ ?_
    ⟨h, [], rfl, (List.append_nil _).symm, fun w hw => absurd hw List.not_mem_nil⟩).2
  · rintro o' k _ ⟨hbelow, front, hwriters, hwritten, hcovered⟩
    obtain ⟨hsplit, hnew⟩ := complete_eq (o'.acknowledge p.pin k).cursor o'.writers
    have hcursor := cursor_le_acknowledge hbelow p.pin k
    refine ⟨fun j hj => hbelow j (SortedMap.mem_keys_erase.mp hj).1,
      front ++ (complete (o'.acknowledge p.pin k).cursor o'.writers).1, ?_, ?_, fun w hw => ?_⟩
    · rw [List.append_assoc, hwriters]
      exact congrArg _ hsplit
    · rw [List.map_append, ← List.append_assoc, ← hwritten]
      rfl
    · rcases List.mem_append.mp hw with hw | hw
      · exact Nat.le_trans (hcovered w hw) hcursor
      · exact hnew w hw
  · exact fun _ _ _ ho => ho

/-- After a packet with an acknowledgement the first writer left is not covered. -/
theorem parse_uncovered {p : Packet} {k : Nat} (h : .moveEcho k ∈ p.body) {w : Writer}
    (hw : (o.parse p).writers.head? = some w) : ¬ wadd w.head w.size ≤ (o.parse p).cursor := by
  refine parse_hits
    (Q := fun o => ∀ w, o.writers.head? = some w → ¬ wadd w.head w.size ≤ o.cursor) ?_ ?_ h w hw
  · intro o x ho
    cases x with
    | moveEcho v => exact fun w hw => complete_rest hw
    | link | linkEcho | tear | tearEcho | ping _ | pingEcho _ | move _ _ | edge _ | edgeEcho _
    | runt _ => exact ho
  · exact fun o w hw => complete_rest hw

/-! ## The sending half empties its queue -/

/-- A round calls nobody back and adds nothing to the stream. -/
theorem imbue_keeps (q : Qos) (now : Time) (resend : Int) (room : Nat) :
    (o.imbue q now resend room).1.writers = o.writers ∧
      (o.imbue q now resend room).1.written = o.written ∧
      (o.imbue q now resend room).1.stream = o.stream := by
  refine imbue_induct q now resend
    (P := fun o' _ => o'.writers = o.writers ∧ o'.written = o.written ∧ o'.stream = o.stream)
    ?_ room ⟨rfl, rfl, rfl⟩
  intro _ _ _ _ hstep ho
  cases hstep <;> exact ho

/-- A packet takes nothing out of the queue and adds nothing to the stream. -/
theorem parse_keeps (p : Packet) :
    (o.parse p).buffer = o.buffer ∧ (o.parse p).stream = o.stream :=
  parse_induct (P := fun o' => o'.buffer = o.buffer ∧ o'.stream = o.stream)
    (fun _ _ _ ho => ho) (fun _ _ _ ho => ho) ⟨rfl, rfl⟩

/-- What is in flight after a round was in flight before, or is in the packet. -/
theorem imbue_flies (q : Qos) (now : Time) (resend : Int) (room : Nat) {k : Nat}
    (h : k ∈ (o.imbue q now resend room).1.moves.keys) :
    k ∈ o.moves.keys ∨ ∃ d, .move k d ∈ (o.imbue q now resend room).2.1 := by
  refine imbue_induct q now resend (P := fun o' l => k ∈ o'.moves.keys →
    k ∈ o.moves.keys ∨ ∃ d, .move k d ∈ l) ?_ room .inl h
  intro o₁ l o₂ l₂ hstep ho hk
  cases hstep with
  | again =>
    rw [SortedMap.keys_modify] at hk
    exact (ho hk).imp id fun ⟨d, hd⟩ => ⟨d, List.mem_append_left _ hd⟩
  | giveUp =>
    rw [SortedMap.keys_modify] at hk
    exact ho hk
  | fresh =>
    rcases SortedMap.mem_keys_emplace.mp hk with hk | rfl
    · exact (ho hk).imp id fun ⟨d, hd⟩ => ⟨d, List.mem_append_left _ hd⟩
    · exact .inr ⟨_, List.mem_append_right _ (List.mem_singleton.mpr rfl)⟩
  | echo => exact (ho hk).imp id fun ⟨d, hd⟩ => ⟨d, List.mem_append_left _ hd⟩

/-- A queue that the window, the swarm and the packet have room for is cut to its end. -/
theorem freshLoop_all (q : Qos) (now : Time) (resend : Int) {fuel room : Nat} {o : Ostreamer}
    (hne : ∀ x ∈ o.buffer.data, x ≠ [])
    (hswarm : o.moves.size + o.buffer.data.length ≤ q.snippetSwarm)
    (hwindow : o.buffer.head + o.buffer.data.flatten.length ≤ o.range) (hrange : o.range < 2 ^ 64)
    (hroom : o.buffer.data.length * overhead + o.buffer.data.flatten.length ≤ room)
    (hfuel : o.buffer.data.length < fuel) :
    (o.freshLoop q now resend fuel room).1.buffer.data = [] := by
  induction fuel generalizing o room with
  | zero => omega
  | succ fuel ih =>
    unfold freshLoop
    cases hdata : o.buffer.data with
    | nil =>
      rw [if_neg (by simp [SendBuffer.available, hdata])]
      exact hdata
    | cons top rest =>
      rw [hdata] at hne hswarm hwindow hroom hfuel
      rw [List.length_cons] at hswarm hroom hfuel
      rw [List.flatten_cons, List.length_append] at hwindow hroom
      rw [Nat.succ_mul] at hroom
      have htop : 0 < top.length := List.length_pos_iff.mpr (hne top List.mem_cons_self)
      have hlimit : wsub o.range o.buffer.head = o.range - o.buffer.head :=
        wsub_of_le (by omega) hrange
      rw [if_pos ⟨by simp [SendBuffer.available, hdata], by omega⟩]
      dsimp only
      rw [if_neg (by omega)]
      -- the front buffer goes as a whole
      have hpull : o.buffer.pull (min (wsub o.range o.buffer.head) (room - overhead)) =
          (top, { o.buffer with head := wadd o.buffer.head top.length, data := rest }) := by
        unfold SendBuffer.pull
        rw [hdata]
        exact if_pos (by omega)
      have hsize : (o.snippet (min (wsub o.range o.buffer.head) (room - overhead))).size =
          overhead + top.length := by
        rw [snippet, size_move, hpull]
      have hgrow := o.moves.size_emplace_le o.buffer.head ⟨top, later now resend, 1⟩
      refine ih ?_ ?_ ?_ hrange ?_ ?_
      all_goals
        unfold launch
        rw [hpull]
        dsimp only
      · exact fun x hx => hne x (List.mem_cons_of_mem _ hx)
      · omega
      · rw [wadd_of_lt (by omega)]
        omega
      · rw [hsize]
        omega
      · omega

/-- With nothing in flight, a round empties a queue that fits. -/
theorem imbue_empties (q : Qos) (now : Time) (resend : Int) {room : Nat}
    (hflights : o.moves.entries = []) (hne : ∀ x ∈ o.buffer.data, x ≠ [])
    (hswarm : o.buffer.data.length ≤ q.snippetSwarm)
    (hwindow : o.buffer.head + o.buffer.data.flatten.length ≤ o.range) (hrange : o.range < 2 ^ 64)
    (hroom : o.buffer.data.length * overhead + o.buffer.data.flatten.length ≤ room) :
    (o.imbue q now resend room).1.buffer.data = [] := by
  have hagain : o.repeatLoop q now resend room room = (o, [], room, false) :=
    repeatLoop_idle q now resend room room fun e he => absurd (hflights ▸ he) List.not_mem_nil
  have hsize : o.moves.size = 0 := by rw [SortedMap.size, hflights, List.length_nil]
  unfold imbue
  rw [hagain]
  dsimp only
  rw [if_neg Bool.false_ne_true]
  refine freshLoop_all q now resend hne (by omega) hwindow hrange hroom ?_
  have hpos : o.buffer.data.length ≤ o.buffer.data.length * overhead :=
    Nat.le_mul_of_pos_right _ (by decide)
  omega

end Ostreamer

/-! ## Nothing is missing -/

/-- When every piece was got, the chain runs from the head to the end of the pieces. -/
theorem ReceiveBuffer.chain_all {pieces got : List (Nat × Bytes)} {b : ReceiveBuffer}
    (hlt : (joined pieces).length < 2 ^ 64) (r : Reassembles pieces got b.head b.data)
    (hall : ∀ k d, (k, d) ∈ pieces → d ≠ [] → (k, d) ∈ got) :
    chain b.head b.data.entries = (joined pieces).length := by
  induction hn : b.data.size generalizing b with
  | zero =>
    have hnil : b.data.entries = [] := List.length_eq_zero_iff.mp hn
    rw [hnil]
    refine r.head_eq_of_got hall fun top htop => ?_
    rw [SortedMap.first?_eq_none.mpr hnil] at htop
    cases htop
  | succ n ih =>
    by_cases hav : b.available = true
    · obtain ⟨top, htop⟩ := available_iff.mp hav
      have hend := (r.prefix_drop (SortedMap.first?_mem htop)).2
      have hentries : b.data.entries = (b.head, top) :: b.data.eraseFirst.entries := by
        obtain ⟨rest, hrest⟩ := List.head?_eq_some_iff.mp htop
        rw [hrest]
        simp [SortedMap.eraseFirst, hrest]
      rw [hentries, chain, if_pos rfl, wadd_of_lt (by omega)]
      refine ih (b := ⟨b.head + top.length, b.tail, b.data.eraseFirst⟩) (r.takeWhole htop) ?_
      have hsize := SortedMap.size_eraseFirst htop
      show b.data.eraseFirst.size = n
      omega
    · have hnone : ∀ top, b.data.first? ≠ some (b.head, top) :=
        fun top htop => hav (available_iff.mpr ⟨top, htop⟩)
      have hhead := r.head_eq_of_got hall hnone
      cases hentries : b.data.entries with
      | nil => exact hhead
      | cons e rest =>
        obtain ⟨k, d⟩ := e
        have hk : k ≠ b.head := by
          rintro rfl
          exact hnone d (by rw [SortedMap.first?, hentries]; rfl)
        rw [chain, if_neg hk]
        exact hhead

/-- When every piece was got, what was handed over and what can be read are the whole. -/
theorem SinkInv.delivered_readable {q : Qos} {pieces : List (Nat × Bytes)} {i : Istreamer}
    (hlt : (joined pieces).length < 2 ^ 64) (s : SinkInv q pieces i true)
    (hall : ∀ k d, (k, d) ∈ pieces → d ≠ [] → (k, d) ∈ i.got) :
    i.delivered.length + i.buffer.readableBytes = (joined pieces).length := by
  have r := (s.live rfl).assembly
  have hhead := r.head_le
  have hbounded : i.buffer.Bounded := by
    refine ⟨by omega, fun e he => ?_⟩
    have hend := (r.prefix_drop he).2
    omega
  rw [s.delivered_eq, s.length_history, hbounded.readableBytes_eq,
    ReceiveBuffer.chain_all hlt r hall]
  omega

/-! ## The packets of linked channels -/

/-- The receiving half writes its acknowledgements and one edge at most. -/
theorem Istreamer.sizes_imbue_le (now : Time) (resend : Int) (room : Nat) (i : Istreamer) :
    Transport.sizes (i.imbue now resend room).2 ≤ (i.acks.size + 1) * overhead := by
  have hsum := i.imbue_room now resend room
  have hacks : acksSize room i.acks.size ≤ i.acks.size * overhead := by
    rw [acksSize, Nat.mul_comm]
    exact Nat.mul_le_mul_right _ (Nat.min_le_left _ _)
  rw [Nat.succ_mul]
  unfold leaves at hsum
  split at hsum <;> omega

namespace Transport

variable {t t' : Transport}

/-- A linked channel that reads a packet without a `tear` hands it to both halves, and stays
linked. -/
theorem feed_linked {now : Time} {p : Packet} (hlinked : t.connector.status = .linked)
    (hadmits : t.connector.admits p.pin = true) (htear : .tear ∉ p.body)
    (h : t.feed now p = some t') :
    t'.connector.status = .linked ∧ t.istreamer.parse t.qos p = some t'.istreamer ∧
      t'.ostreamer = t.ostreamer.parse p := by
  have hstays : (t.connector.parse t.qos now p).status = .linked := by
    rcases Connector.parse_open t.qos now (by rw [hlinked]; decide) htear with
      ⟨hsame, _⟩ | ⟨_, hsame⟩
    · exact hsame.trans hlinked
    · exact hsame
  rcases feed_cases h with ⟨hno, _⟩ | ⟨_, i, o, hstreams, hclosing⟩
  · exact absurd (hadmits.symm.trans hno) Bool.noConfusion
  · rcases hstreams with ⟨_, hi, rfl⟩ | ⟨hno, _⟩
    · rcases hclosing with ⟨hclosing, _⟩ | ⟨_, rfl⟩
      · exact absurd hclosing (by rw [hstays]; decide)
      · exact ⟨hstays, hi, rfl⟩
    · exact absurd hno (by rw [hlinked]; decide)

/-- The packet of a linked channel. The connector leaves all but forty bytes of it to the receiving
half, and that all but its acknowledgements and one edge to the sending half. -/
theorem produce_linked {k : Clock} {p : Packet} (hlinked : t.connector.status = .linked)
    (hecho : .tearEcho ∉ t.connector.jobs.keys) (h : t.produce k = some (t', some p)) :
    t'.connector.status = .linked ∧ ∃ resend roomI roomO,
      (k.connector ≤ later k.connector t.connector.resend →
        t.qos.maxPacketSize ≤ Datagram.headerSize + 40 + roomI) ∧
      roomI ≤ (t.istreamer.acks.size + 1) * overhead + roomO ∧
      t'.ostreamer = (t.ostreamer.imbue t.qos k.ostreamer resend roomO).1 ∧
      (∀ x ∈ (t.istreamer.imbue k.istreamer resend roomI).2, x ∈ p.body) ∧
      ∀ x ∈ (t.ostreamer.imbue t.qos k.ostreamer resend roomO).2.1, x ∈ p.body := by
  have hstays := (Connector.imbue_open t.qos k.connector
    (t.qos.maxPacketSize - Datagram.headerSize) (by rw [hlinked]; decide) hecho).1.trans hlinked
  unfold produce at h
  rw [if_neg (by rw [hlinked]; decide)] at h
  dsimp only at h
  obtain ⟨_, h⟩ := Option.ite_none_left_eq_some.mp h
  unfold imbue at h
  dsimp only at h
  have hfirst := @Connector.sizes_imbue_le t.connector t.qos k.connector
    (t.qos.maxPacketSize - Datagram.headerSize)
  generalize t.connector.imbue t.qos k.connector (t.qos.maxPacketSize - Datagram.headerSize) = r
    at h hstays hfirst
  obtain ⟨c, first⟩ := r
  dsimp only at h hstays hfirst
  have hsecond := Istreamer.sizes_imbue_le k.istreamer c.resend
    (t.qos.maxPacketSize - Datagram.headerSize - sizes first) t.istreamer
  split at h
  · obtain ⟨rfl, hout⟩ := Prod.mk.inj (Option.some.inj h)
    obtain ⟨_, hout⟩ := Option.ite_none_left_eq_some.mp hout
    cases hout
    refine ⟨hstays, c.resend, t.qos.maxPacketSize - Datagram.headerSize - sizes first, _,
      fun hwaits => ?_, ?_, rfl, fun x hx => ?_, fun x hx => List.mem_append_right _ hx⟩
    · by_cases hsmall : 40 ≤ t.qos.maxPacketSize - Datagram.headerSize
      · have hle := hfirst (Connector.relapses_of_waits hwaits) hsmall
        omega
      · omega
    · omega
    · exact List.mem_append_left _ (List.mem_append_right _ hx)
  · next hmute => exact absurd (by rw [hstays]; rfl) hmute

end Transport

namespace Session

variable {q : Side → Qos} {s s₁ s₂ : Session} {x : Side}

/-- A channel whose next packet has room for every acknowledgement it owes. The connector does not
fill it: what it writes is not due again at once. -/
structure Roomy (t : Transport) (now : Time) : Prop where
  patient : now ≤ later now t.connector.resend
  room : Datagram.headerSize + 40 + t.istreamer.acks.size * overhead ≤ t.qos.maxPacketSize

instance (t : Transport) (now : Time) : Decidable (Roomy t now) :=
  decidable_of_iff (now ≤ later now t.connector.resend ∧
      Datagram.headerSize + 40 + t.istreamer.acks.size * overhead ≤ t.qos.maxPacketSize)
    ⟨fun h => ⟨h.1, h.2⟩, fun h => ⟨h.patient, h.room⟩⟩

/-- The packets of two linked sides get through to both halves, and both stay linked. -/
theorem pass_linked {k : Clock} {now : Time} (h : (system q).Reachable s)
    (hlinked : ∀ y, (s.chan y).connector.status = .linked) (hpass : s.pass x k now = some s₁) :
    (∀ y, (s₁.chan y).connector.status = .linked) ∧
      ∃ p, (s.chan x).produce k = some (s₁.chan x, some p) ∧
        .tearEcho ∉ (s.chan x).connector.jobs.keys ∧
        (s.chan x.other).istreamer.parse (s.chan x.other).qos p =
          some (s₁.chan x.other).istreamer ∧
        (s₁.chan x.other).ostreamer = (s.chan x.other).ostreamer.parse p := by
  have i := Reachable.parting h
  have j := Reachable.paired h
  obtain ⟨p, hround, hfeed, -⟩ := pass_split hpass
  have hx := hlinked x
  have hy := hlinked x.other
  have hecho : .tearEcho ∉ (s.chan x).connector.jobs.keys := fun hin =>
    absurd (hy ▸ i.echoJob x hin) (by decide)
  have htear : .tear ∉ p.body := fun hin =>
    absurd (hx ▸ i.tearJob x ((Transport.act_writes (e := .produce k) hround).2 hin)) (by decide)
  have hadmits : (s.chan x.other).connector.admits p.pin = true := by
    have hall := j.admits (x := x.other) (by rw [hy]; decide) (by rw [hy]; decide)
      (by rw [Side.other_other, hx]; decide)
    obtain ⟨-, -, rest, hp⟩ := Transport.produce_sends hround
    rw [Side.other_other] at hall
    rw [hp]
    exact hall
  obtain ⟨hsent, -⟩ := Transport.produce_linked hx hecho hround
  obtain ⟨hread, hsink, hsource⟩ := Transport.feed_linked hy hadmits htear hfeed
  refine ⟨fun y => ?_, p, hround, hecho, hsink, hsource⟩
  rcases Side.eq_or_other x y with rfl | rfl
  · exact hsent
  · exact hread

/-- The peer owes an acknowledgement for every snippet in a packet that gets through. -/
theorem pass_owes {k : Clock} {now : Time} {t : Transport} {p : Packet}
    (h : (system q).Reachable s) (hlinked : ∀ y, (s.chan y).connector.status = .linked)
    (hround : (s.chan x).produce k = some (t, some p)) (hpass : s.pass x k now = some s₁) {a : Nat}
    {d : Bytes} (hm : .move a d ∈ p.body) : a ∈ (s₁.chan x.other).istreamer.acks.keys := by
  obtain ⟨-, p₁, hround₁, -, hsink, -⟩ := pass_linked h hlinked hpass
  obtain ⟨p₂, hround₂, -, s', hstep, hp, hself, hother⟩ := pass_split hpass
  rw [hround] at hround₁ hround₂
  cases hround₁
  cases hround₂
  -- the packet as the flow sees it, when it is on its way
  have hsent : (system q).Reachable s' := .next (e := .act x (.produce k)) h trivial hstep
  obtain ⟨f, inv, w⟩ := exists_flow hsent x
  have hopen : f.sinkOpen = true := by
    cases hc : f.sinkOpen with
    | true => rfl
    | false =>
      have hover := w.sinkOpen hc
      rw [hother, hlinked x.other] at hover
      cases hover
  have hs := inv.sink
  rw [hopen, w.sink, hother] at hs
  have hwindow := Nat.le_trans inv.source.window inv.window
  rw [w.sink, hother] at hwindow
  rw [← hother, w.qos, hother] at hsink
  exact Istreamer.parse_owes inv.source.cut_lt hs hwindow
    (fun k d => inv.move_mem (fun y hy hf => w.sent p hp y hy hf)) hsink hm

/-- Nothing that a linked side has in flight begins behind its queue. -/
theorem flights_le_head (h : (system q).Reachable s)
    (hlinked : (s.chan x).connector.status = .linked) :
    ∀ k ∈ (s.chan x).ostreamer.moves.keys, k ≤ (s.chan x).ostreamer.buffer.head := by
  obtain ⟨f, inv, w⟩ := exists_flow h x
  have hopen : f.sourceOpen = true := by
    cases hc : f.sourceOpen with
    | true => rfl
    | false =>
      have hover := w.sourceOpen hc
      rw [hlinked] at hover
      cases hover
  have hs := inv.source
  rw [hopen, w.source] at hs
  intro k hk
  obtain ⟨g, hg⟩ := SortedMap.mem_keys.mp hk
  have hend := (hs.snippet_prefix (hs.flights k g hg)).1
  rw [(hs.queue rfl).2]
  omega

/-- The next packet of a side with room acknowledges all that it owes. -/
theorem pass_pays {k : Clock} {now : Time} (h : (system q).Reachable s)
    (hlinked : ∀ y, (s.chan y).connector.status = .linked) (hroom : Roomy (s.chan x) k.connector)
    (hpass : s.pass x k now = some s₁) :
    ∃ p, (s₁.chan x.other).ostreamer = (s.chan x.other).ostreamer.parse p ∧
      ∀ a ∈ (s.chan x).istreamer.acks.keys, .moveEcho a ∈ p.body := by
  obtain ⟨-, p, hround, hecho, -, hsource⟩ := pass_linked h hlinked hpass
  obtain ⟨-, resend, roomI, -, hleft, -, -, hwrites, -⟩ :=
    Transport.produce_linked (hlinked x) hecho hround
  refine ⟨p, hsource, fun a ha => hwrites _ ?_⟩
  have hle := hleft hroom.patient
  have hneed := hroom.room
  exact Istreamer.imbue_pays k.istreamer resend (by omega) ha

/-- A round trip of two linked sides. The sending half makes its round, and then reads a packet
that acknowledges every snippet of it. -/
theorem round_trip {k₁ k₂ : Clock} {now₁ now₂ : Time} (h : (system q).Reachable s)
    (hlinked : ∀ y, (s.chan y).connector.status = .linked)
    (hroom : Roomy (s₁.chan x.other) k₂.connector) (h₁ : s.pass x k₁ now₁ = some s₁)
    (h₂ : s₁.pass x.other k₂ now₂ = some s₂) :
    (∀ y, (s₂.chan y).connector.status = .linked) ∧ ∃ p p' resend room,
      (s.chan x).produce k₁ = some (s₁.chan x, some p) ∧
      (k₁.connector ≤ later k₁.connector (s.chan x).connector.resend →
        (s.chan x).qos.maxPacketSize ≤ Datagram.headerSize + 40 +
          ((s.chan x).istreamer.acks.size + 1) * overhead + room) ∧
      (s₁.chan x).ostreamer =
        ((s.chan x).ostreamer.imbue (s.chan x).qos k₁.ostreamer resend room).1 ∧
      (s₂.chan x).ostreamer = (s₁.chan x).ostreamer.parse p' ∧
      (∀ y ∈ ((s.chan x).ostreamer.imbue (s.chan x).qos k₁.ostreamer resend room).2.1,
        y ∈ p.body) ∧
      ∀ a d, .move a d ∈ p.body → .moveEcho a ∈ p'.body := by
  obtain ⟨hlinked₁, p, hround, hecho, -⟩ := pass_linked h hlinked h₁
  obtain ⟨-, resend, roomI, roomO, hfirst, hsecond, hsource, -, hsent⟩ :=
    Transport.produce_linked (hlinked x) hecho hround
  obtain ⟨p', hback, hpaid⟩ := pass_pays (Reachable.pass h h₁) hlinked₁ hroom h₂
  obtain ⟨hlinked₂, -⟩ := pass_linked (Reachable.pass h h₁) hlinked₁ h₂
  rw [Side.other_other] at hback
  refine ⟨hlinked₂, p, p', resend, roomO, hround, fun hwaits => ?_, hsource, hback, hsent, ?_⟩
  · have hleft := hfirst hwaits
    omega
  · exact fun a d hm => hpaid a (pass_owes h hlinked hround h₁ hm)

/-- Snippets take one round trip. Whatever was lost or repeated before, when the packet of a round
gets through and the next packet of the peer, with room for what it owes, gets back, no snippet of
the first packet is in flight any more, nothing that was not in flight before is so now, and the
writers that are called back, with success, are those at the front that are covered by then: all
called back are covered, and if the packet had a snippet, the first one left is not. -/
theorem snippets_round_trip {k₁ k₂ : Clock} {now₁ now₂ : Time} {t : Transport} {p : Packet}
    (h : (system q).Reachable s) (hlinked : ∀ y, (s.chan y).connector.status = .linked)
    (hround : (s.chan x).produce k₁ = some (t, some p))
    (hroom : Roomy (s₁.chan x.other) k₂.connector) (h₁ : s.pass x k₁ now₁ = some s₁)
    (h₂ : s₁.pass x.other k₂ now₂ = some s₂) :
    let o := (s.chan x).ostreamer
    let o' := (s₂.chan x).ostreamer
    (∀ a d, .move a d ∈ p.body → a ∉ o'.moves.keys) ∧ (∀ a ∈ o'.moves.keys, a ∈ o.moves.keys) ∧
      ∃ front, o.writers = front ++ o'.writers ∧
        o'.written = o.written ++ front.map Ostreamer.done ∧
        (∀ w ∈ front, wadd w.head w.size ≤ o'.cursor) ∧
        ((∃ a d, .move a d ∈ p.body) → ∀ w, o'.writers.head? = some w →
          ¬ wadd w.head w.size ≤ o'.cursor) := by
  obtain ⟨-, p₁, p', resend, roomO, hround₁, -, hsource, hback, hsent, hack⟩ :=
    round_trip h hlinked hroom h₁ h₂
  have hlinked₁ := (pass_linked h hlinked h₁).1
  rw [hround] at hround₁
  cases hround₁
  have hlands : ∀ a d, .move a d ∈ p.body → a ∉ (s₂.chan x).ostreamer.moves.keys := by
    intro a d hm
    rw [hback]
    exact Ostreamer.parse_lands (hack a d hm)
  refine ⟨hlands, fun a ha => ?_, ?_⟩
  · have hfly := ha
    rw [hback] at hfly
    have hfly := Ostreamer.parse_moves_keys hfly
    rw [hsource] at hfly
    refine (Ostreamer.imbue_flies _ _ _ _ hfly).resolve_right ?_
    rintro ⟨d, hd⟩
    exact hlands a d (hsent _ hd) ha
  · obtain ⟨hwriters, hwritten, -⟩ := (s.chan x).ostreamer.imbue_keeps (s.chan x).qos
      k₁.ostreamer resend roomO
    rw [← hsource] at hwriters hwritten
    have hbelow := flights_le_head (Reachable.pass h h₁) (hlinked₁ x)
    obtain ⟨front, hfront, hdone, hcovered⟩ := (s₁.chan x).ostreamer.parse_answers hbelow p'
    rw [hwriters, ← hback] at hfront
    rw [hwritten, ← hback] at hdone
    rw [← hback] at hcovered
    refine ⟨front, hfront, hdone, hcovered, ?_⟩
    rintro ⟨a, d, hm⟩ w hw
    rw [hback] at hw ⊢
    exact Ostreamer.parse_uncovered (hack a d hm) hw

/-- The first packet with a snippet is lost. Its repetition gets through, and so does the answer. -/
theorem snippets_round_trip_again :
    ∃ s s₁ s₂, (system fun _ => .default).Reachable s ∧
      (s.chan .left).ostreamer.moves.keys = [0] ∧ (s.chan .right).istreamer.stored = [] ∧
      s.pass .left ⟨200000, 200000, 200000⟩ 200001 = some s₁ ∧
      s₁.pass .right ⟨200002, 200002, 200002⟩ 200003 = some s₂ ∧
      0 ∉ (s₂.chan .left).ostreamer.moves.keys ∧
      (s₂.chan .left).ostreamer.written = [⟨7, .success, 3⟩] := by
  obtain ⟨s, hs, hv⟩ := System.exists_of_run (S := system fun _ => .default)
    (f := fun s => decide ((s.chan .left).connector.status = .linked ∧
      (s.chan .right).connector.status = .linked ∧ (s.chan .left).ostreamer.moves.keys = [0] ∧
      (s.chan .right).istreamer.stored = [] ∧
      ∃ r ∈ (s.chan .left).produce ⟨200000, 200000, 200000⟩,
        (∃ p ∈ r.2, .move 0 [1, 2, 3] ∈ p.body) ∧
        ∃ s₁ ∈ s.pass .left ⟨200000, 200000, 200000⟩ 200001, Roomy (s₁.chan .right) 200002 ∧
          ∃ s₂ ∈ s₁.pass .right ⟨200002, 200002, 200002⟩ 200003,
            (s₂.chan .left).ostreamer.written = [⟨7, .success, 3⟩]))
    (v := true)
    (handshake ++ [.act .left (.write [1, 2, 3] 7), .act .left (.produce ⟨6, 6, 6⟩),
      .lose .left 1]) rfl (by decide +kernel)
  obtain ⟨hleft, hright, hflight, hstored, ⟨t, out⟩, hround, ⟨p, hp, hm⟩, s₁, h₁, hroom, s₂, h₂,
    hwritten⟩ := of_decide_eq_true hv
  cases hp
  have hall := snippets_round_trip hs (fun y => by cases y <;> assumption) hround hroom h₁ h₂
  exact ⟨s, s₁, s₂, hs, hflight, hstored, h₁, h₂, hall.1 0 [1, 2, 3] hm, hwritten⟩

/-- A channel with nothing in flight, whose queue the window, the swarm and the next packet have
room for. -/
structure Fits (t : Transport) (now : Time) : Prop where
  idle : t.ostreamer.moves.entries = []
  queued : t.ostreamer.buffer.data ≠ []
  swarm : t.ostreamer.buffer.data.length ≤ t.qos.snippetSwarm
  window : t.ostreamer.buffer.head + t.ostreamer.buffer.data.flatten.length ≤ t.ostreamer.range
  packet : Datagram.headerSize + 40 + (t.istreamer.acks.size + 1) * overhead +
    (t.ostreamer.buffer.data.length * overhead + t.ostreamer.buffer.data.flatten.length) ≤
      t.qos.maxPacketSize
  patient : now ≤ later now t.connector.resend

instance (t : Transport) (now : Time) : Decidable (Fits t now) :=
  decidable_of_iff (t.ostreamer.moves.entries = [] ∧ t.ostreamer.buffer.data ≠ [] ∧
      t.ostreamer.buffer.data.length ≤ t.qos.snippetSwarm ∧
      t.ostreamer.buffer.head + t.ostreamer.buffer.data.flatten.length ≤ t.ostreamer.range ∧
      Datagram.headerSize + 40 + (t.istreamer.acks.size + 1) * overhead +
        (t.ostreamer.buffer.data.length * overhead + t.ostreamer.buffer.data.flatten.length) ≤
          t.qos.maxPacketSize ∧
      now ≤ later now t.connector.resend)
    ⟨fun ⟨h₁, h₂, h₃, h₄, h₅, h₆⟩ => ⟨h₁, h₂, h₃, h₄, h₅, h₆⟩,
      fun h => ⟨h.idle, h.queued, h.swarm, h.window, h.packet, h.patient⟩⟩

/-- A round trip writes nothing new. -/
theorem nonEmpty_pass {y : Side} {k : Clock} {now : Time}
    (h : (system q).Reaches (Terms.nonEmpty.session x) s) (hpass : s.pass y k now = some s₁) :
    (system q).Reaches (Terms.nonEmpty.session x) s₁ := by
  obtain ⟨s', hround, hread⟩ := Option.bind_eq_some_iff.mp hpass
  have hmid : (system q).Reaches (Terms.nonEmpty.session x) s' :=
    .next (e := .act y (.produce k)) h ⟨fun _ => trivial, fun _ => trivial⟩ hround
  exact .next (e := .deliver y.other now _) hmid trivial hread

/-- Two linked sides have the flow between them open at both ends. -/
theorem exists_linked_flow (h : (system q).Reaches (Terms.nonEmpty.session x) s)
    (hlinked : ∀ y, (s.chan y).connector.status = .linked) :
    ∃ got pieces, SourceInv (s.chan x).ostreamer true ∧ Landed (s.chan x).ostreamer got ∧
      ((s.chan x).ostreamer.stream.length < 2 ^ 64 → Ledger (s.chan x).ostreamer got true) ∧
      SinkInv (q x.other) pieces (s.chan x.other).istreamer true ∧
      pieces = (s.chan x).ostreamer.pulled ∧ got = (s.chan x.other).istreamer.got := by
  obtain ⟨f, hf, w⟩ := follows h
  have inv := Flow.Reaches.inv hf
  have truthful := Flow.Reaches.truthful hf
  have hsource : f.sourceOpen = true := by
    cases hc : f.sourceOpen with
    | true => rfl
    | false =>
      have hover := w.sourceOpen hc
      rw [hlinked x] at hover
      cases hover
  have hsink : f.sinkOpen = true := by
    cases hc : f.sinkOpen with
    | true => rfl
    | false =>
      have hover := w.sinkOpen hc
      rw [hlinked x.other] at hover
      cases hover
  have hs := inv.source
  have hi := inv.sink
  have hl := truthful.landed hsource
  have hledger := truthful.ledger
  rw [hsource, w.source, w.sink] at hledger
  rw [hsource, w.source] at hs
  rw [hsink, w.source, w.sink] at hi
  rw [w.source, w.sink] at hl
  exact ⟨_, _, hs, hl, hledger, hi, rfl, rfl⟩

/-- When nothing of a linked side is queued or in flight, nothing is missing at the peer. -/
theorem delivered_all (h : (system q).Reaches (Terms.nonEmpty.session x) s)
    (hlinked : ∀ y, (s.chan y).connector.status = .linked)
    (hflights : (s.chan x).ostreamer.moves.entries = [])
    (hempty : (s.chan x).ostreamer.buffer.data = []) :
    (s.chan x.other).istreamer.delivered.length +
      (s.chan x.other).istreamer.buffer.readableBytes = (s.chan x).ostreamer.stream.length := by
  obtain ⟨got, pieces, src, landed, -, sink, rfl, rfl⟩ := exists_linked_flow h hlinked
  have hall := (src.queue rfl).1
  rw [hempty, List.flatten_nil, List.append_nil] at hall
  rw [hall]
  refine sink.delivered_readable src.cut_lt fun k d hm _ => ?_
  refine (landed.landed k d hm).resolve_left fun hk => ?_
  obtain ⟨g, hg⟩ := SortedMap.mem_keys.mp hk
  rw [hflights] at hg
  cases hg

/-- A queue takes one round trip. When a side with nothing in flight has a queue that fits, its
next packet gets through, and the next packet of the peer gets back, then nothing is queued or in
flight any more, every write has been called back with success, and what the peer has handed to
its readers and what it can still read are together as long as all that was written. -/
theorem flush_round_trip {k₁ k₂ : Clock} {now₁ now₂ : Time}
    (h : (system q).Reaches (Terms.nonEmpty.session x) s)
    (hlinked : ∀ y, (s.chan y).connector.status = .linked) (hfits : Fits (s.chan x) k₁.connector)
    (hroom : Roomy (s₁.chan x.other) k₂.connector) (h₁ : s.pass x k₁ now₁ = some s₁)
    (h₂ : s₁.pass x.other k₂ now₂ = some s₂) :
    let o := (s.chan x).ostreamer
    let o' := (s₂.chan x).ostreamer
    let i' := (s₂.chan x.other).istreamer
    o'.moves.entries = [] ∧ o'.buffer.data = [] ∧ o'.writers = [] ∧
      o'.written = o.written ++ o.writers.map Ostreamer.done ∧
      i'.delivered.length + i'.buffer.readableBytes = o.stream.length := by
  have hany : (system q).Reachable s := h.mono fun _ _ _ => trivial
  obtain ⟨got, pieces, src, landed, -, -, -, -⟩ := exists_linked_flow h hlinked
  obtain ⟨hstream, hhead⟩ := src.queue rfl
  have hlength : (s.chan x).ostreamer.stream.length =
      (s.chan x).ostreamer.buffer.head + (s.chan x).ostreamer.buffer.data.flatten.length := by
    rw [hstream, List.length_append, hhead]
  have hwindow := hfits.window
  have hpacket := hfits.packet
  have hrange := src.range_lt
  have hlt : (s.chan x).ostreamer.stream.length < 2 ^ 64 := by omega
  obtain ⟨hlinked₂, p, p', resend, roomO, -, hleft, hsource, hback, hsent, hack⟩ :=
    round_trip hany hlinked hroom h₁ h₂
  have hleft := hleft hfits.patient
  obtain ⟨hwriters, hwritten, hsame⟩ := (s.chan x).ostreamer.imbue_keeps (s.chan x).qos
    k₁.ostreamer resend roomO
  rw [← hsource] at hwriters hwritten hsame
  obtain ⟨hbuffer, hstream'⟩ := (s₁.chan x).ostreamer.parse_keeps p'
  rw [← hback] at hbuffer hstream'
  -- every snippet of the first packet is acknowledged, and nothing else was in flight
  have hflights : (s₂.chan x).ostreamer.moves.entries = [] := by
    refine List.eq_nil_iff_forall_not_mem.mpr ?_
    rintro ⟨a, f⟩ hm
    have hin : a ∈ (s₂.chan x).ostreamer.moves.keys := SortedMap.mem_keys.mpr ⟨f, hm⟩
    have hfly := hin
    rw [hback] at hfly hin
    have hfly := Ostreamer.parse_moves_keys hfly
    rw [hsource] at hfly
    rcases Ostreamer.imbue_flies _ _ _ _ hfly with hold | ⟨d, hd⟩
    · obtain ⟨g, hg⟩ := SortedMap.mem_keys.mp hold
      rw [hfits.idle] at hg
      cases hg
    · exact Ostreamer.parse_lands (hack a d (hsent _ hd)) hin
  have hempty : (s₂.chan x).ostreamer.buffer.data = [] := by
    rw [hbuffer, hsource]
    exact Ostreamer.imbue_empties _ _ _ hfits.idle landed.queued hfits.swarm hwindow hrange
      (by omega)
  -- the accounts at the end
  have h' := nonEmpty_pass (nonEmpty_pass h h₁) h₂
  obtain ⟨_, _, src₂, -, ledger₂, -⟩ := exists_linked_flow h' hlinked₂
  obtain ⟨hall, hend⟩ := src₂.queue rfl
  rw [hempty, List.flatten_nil, List.append_nil, hstream', hsame] at hall
  have hcursor : (s₂.chan x).ostreamer.cursor = (s.chan x).ostreamer.stream.length := by
    rw [Ostreamer.cursor, SortedMap.first?_eq_none.mpr hflights, hall]
    exact hend
  have hnone : (s₂.chan x).ostreamer.writers = [] := by
    have hcount : 1 * overhead ≤ (s.chan x).ostreamer.buffer.data.length * overhead :=
      Nat.mul_le_mul_right _ (List.length_pos_iff.mpr hfits.queued)
    have hbytes : 0 < (s.chan x).ostreamer.buffer.data.flatten.length := by
      refine List.length_pos_iff.mpr fun hnil => ?_
      obtain ⟨b, hb⟩ := List.exists_mem_of_ne_nil _ hfits.queued
      exact landed.queued b hb (List.flatten_eq_nil_iff.mp hnil b hb)
    have hroomO : overhead < roomO := by omega
    have hswarm := Nat.lt_of_lt_of_le (List.length_pos_iff.mpr hfits.queued) hfits.swarm
    obtain ⟨a, d, -, hm⟩ := Ostreamer.imbue_sends (s.chan x).qos k₁.ostreamer resend hfits.idle
      landed.queued hfits.queued (by omega) hrange hroomO hswarm
    refine List.head?_eq_none_iff.mp (Option.eq_none_iff_forall_not_mem.mpr fun w hw => ?_)
    have hslot := List.mem_of_mem_head? hw
    rw [(ledger₂ (by rw [hstream', hsame]; exact hlt)).writers rfl] at hslot
    have hcovered := Ostreamer.slots_end 0 _ (List.mem_of_mem_drop hslot)
    rw [Nat.zero_add] at hcovered
    change _ ≤ (s₂.chan x).ostreamer.stream.length at hcovered
    rw [hstream', hsame] at hcovered
    rw [hback] at hw
    have hleft := Ostreamer.parse_uncovered (hack a d (hsent _ hm)) hw
    rw [← hback, hcursor, wadd_of_lt (by omega)] at hleft
    exact hleft hcovered
  have hbelow := flights_le_head (Reachable.pass hany h₁) ((pass_linked hany hlinked h₁).1 x)
  obtain ⟨front, hfront, hdone, -⟩ := (s₁.chan x).ostreamer.parse_answers hbelow p'
  rw [hwriters, ← hback, hnone, List.append_nil] at hfront
  rw [hwritten, ← hback, ← hfront] at hdone
  refine ⟨hflights, hempty, hnone, hdone, (delivered_all h' hlinked₂ hflights hempty).trans ?_⟩
  rw [hstream', hsame]

/-- Two writes go in one packet, and a reader has half of them. -/
theorem flush_round_trip_two :
    ∃ s s₁ s₂, (system fun _ => .default).Reaches (Terms.nonEmpty.session .left) s ∧
      s.pass .left ⟨6, 6, 6⟩ 7 = some s₁ ∧ s₁.pass .right ⟨8, 8, 8⟩ 9 = some s₂ ∧
      (s.chan .left).ostreamer.buffer.data = [[1, 2, 3], [4]] ∧
      (s₂.chan .left).ostreamer.buffer.data = [] ∧
      (s₂.chan .left).ostreamer.written = [⟨7, .success, 3⟩, ⟨8, .success, 1⟩] ∧
      (s₂.chan .right).istreamer.delivered = [1, 2] ∧
      (s₂.chan .right).istreamer.buffer.readableBytes = 2 := by
  have hnone : ∀ a ∈ handshake ++ [.act .left (.write [1, 2, 3] 7), .act .left (.write [4] 8),
      .act .right (.read [0, 0] 9)], a.emptyWrite .left = false := by decide
  have hrun : ((system fun _ => .default).run (create fun _ => .default) (handshake ++
      [.act .left (.write [1, 2, 3] 7), .act .left (.write [4] 8),
        .act .right (.read [0, 0] 9)])).map
      (fun s => decide ((s.chan .left).connector.status = .linked ∧
        (s.chan .right).connector.status = .linked ∧ Fits (s.chan .left) 6 ∧
        (s.chan .left).ostreamer.buffer.data = [[1, 2, 3], [4]] ∧
        (s.chan .left).ostreamer.written = [] ∧
        (s.chan .left).ostreamer.writers = [⟨0, 3, 7⟩, ⟨3, 1, 8⟩] ∧
        (s.chan .left).ostreamer.stream.length = 4 ∧
        ∃ s₁ ∈ s.pass .left ⟨6, 6, 6⟩ 7, Roomy (s₁.chan .right) 8 ∧
          ∃ s₂ ∈ s₁.pass .right ⟨8, 8, 8⟩ 9, (s₂.chan .right).istreamer.delivered = [1, 2])) =
        some true := by decide +kernel
  obtain ⟨s, hs, hv⟩ := Option.map_eq_some_iff.mp hrun
  obtain ⟨hleft, hright, hfits, hqueue, hwritten, hwriters, hlength, s₁, h₁, hroom, s₂, h₂,
    hdelivered⟩ := of_decide_eq_true hv
  have hreach : (system fun _ => .default).Reaches (Terms.nonEmpty.session .left) s :=
    .run _ (.start rfl) (fun s a ha => nonEmpty_session s (hnone a ha)) hs
  obtain ⟨-, hempty, -, hcalled, hall⟩ := flush_round_trip hreach
    (fun y => by cases y <;> assumption) hfits hroom h₁ h₂
  rw [hwritten, hwriters] at hcalled
  change _ + (s₂.chan .right).istreamer.buffer.readableBytes = _ at hall
  rw [hlength] at hall
  change (s₂.chan .right).istreamer.delivered.length + _ = 4 at hall
  rw [hdelivered, List.length_cons, List.length_singleton] at hall
  exact ⟨s, s₁, s₂, hreach, h₁, h₂, hqueue, hempty, hcalled, hdelivered, by omega⟩

end Session

end Tubus.Udp
