import Tubus.Laws.Session

/-!
# Acknowledgement

A write callback tells the truth. The callbacks posted are those of the first queued writes, in
order, and the bytes a callback reports, from the front of its write, are bytes the other side
has stored (`written_stored`).

Two facts carry it. A snippet is in flight or stored by the sink (`Landed`), so everything below
the least flight is stored. And the writers are the queued writes that were not called back,
each with its place in the stream (`Ledger`).

The places are words. A write that ends at `2 ^ 64` has an end that wrapped to zero, and an error
then reports it as sent in full, with nothing stored (`written_wraps`). So the account needs a
stream that is shorter than that.
-/

namespace Tubus.Udp

open Lib

namespace Ostreamer

/-- The writers of a list of writes, the first one at `k`. -/
def slots : Nat → List (Bytes × Handler) → List Writer
  | _, [] => []
  | k, (buf, h) :: rest => ⟨k, buf.length, h⟩ :: slots (k + buf.length) rest

theorem slots_append (k : Nat) (l : List (Bytes × Handler)) (buf : Bytes) (h : Handler) :
    slots k (l ++ [(buf, h)])
      = slots k l ++ [⟨k + ((l.map Prod.fst).flatten).length, buf.length, h⟩] := by
  induction l generalizing k with
  | nil => rfl
  | cons e rest ih =>
    simp only [List.cons_append, slots, ih, List.map_cons, List.flatten_cons, List.length_append,
      Nat.add_assoc]

theorem getElem?_slots (k : Nat) (l : List (Bytes × Handler)) (n : Nat) {w : Writer}
    (h : (slots k l)[n]? = some w) :
    ∃ buf, l[n]? = some (buf, w.callback) ∧ w.size = buf.length ∧
      w.head = k + (((l.take n).map Prod.fst).flatten).length := by
  induction l generalizing k n with
  | nil => cases h
  | cons e rest ih =>
    obtain ⟨buf, c⟩ := e
    cases n with
    | zero =>
      cases h
      exact ⟨buf, rfl, rfl, rfl⟩
    | succ n =>
      obtain ⟨b, hb, hsize, hhead⟩ := ih _ n h
      refine ⟨b, hb, hsize, ?_⟩
      rw [hhead]
      simp only [List.take_succ_cons, List.map_cons, List.flatten_cons, List.length_append]
      omega

theorem slots_end (k : Nat) (l : List (Bytes × Handler)) {w : Writer} (h : w ∈ slots k l) :
    w.head + w.size ≤ k + ((l.map Prod.fst).flatten).length := by
  induction l generalizing k with
  | nil => cases h
  | cons e rest ih =>
    obtain ⟨buf, c⟩ := e
    simp only [List.map_cons, List.flatten_cons, List.length_append]
    rcases List.mem_cons.mp h with rfl | h
    · simp only
      omega
    · have := ih _ h
      omega

end Ostreamer

/-- A position of the stream lies in a fragment of a list. -/
def Covered (got : List (Nat × Bytes)) (p : Nat) : Prop :=
  ∃ k x, (k, x) ∈ got ∧ k ≤ p ∧ p < k + x.length

/-- A callback that tells the truth about a writer. -/
structure Answers (got : List (Nat × Bytes)) (s : Writer) (w : Written) : Prop where
  callback : w.callback = s.callback
  le : w.size ≤ s.size
  success : w.ec = .success → w.size = s.size
  covered : ∀ p, s.head ≤ p → p < s.head + w.size → Covered got p

/-- Every snippet of a live source is in flight or stored by the sink. -/
structure Landed (o : Ostreamer) (got : List (Nat × Bytes)) : Prop where
  queued : ∀ x ∈ o.buffer.data, x ≠ []
  cut : ∀ e ∈ o.pulled, e.2 ≠ []
  landed : ∀ k x, (k, x) ∈ o.pulled → k ∈ o.moves.keys ∨ (k, x) ∈ got

/-- The writers are the queued writes that were not called back, and the callbacks posted are
those of the others. -/
structure Ledger (o : Ostreamer) (got : List (Nat × Bytes)) (live : Bool) : Prop where
  tail : live = true → o.buffer.tail = o.stream.length
  writers : live = true → o.writers = (Ostreamer.slots 0 o.accepted).drop o.written.length
  closed : live = false → o.writers = []
  posted : ∀ (n : Nat) (w : Written), o.written[n]? = some w →
    ∃ s, (Ostreamer.slots 0 o.accepted)[n]? = some s ∧ Answers got s w

variable {o : Ostreamer} {got : List (Nat × Bytes)} {live : Bool}

theorem Answers.mono {s : Writer} {w : Written} (a : Answers got s w) {got' : List (Nat × Bytes)}
    (h : ∀ e ∈ got, e ∈ got') : Answers got' s w :=
  { a with
    covered := fun p hp hlt => by
      obtain ⟨k, x, hm, hin⟩ := a.covered p hp hlt
      exact ⟨k, x, h _ hm, hin⟩ }

theorem Landed.mono (l : Landed o got) {got' : List (Nat × Bytes)} (h : ∀ e ∈ got, e ∈ got') :
    Landed o got' :=
  { l with landed := fun k x hm => (l.landed k x hm).imp id (h _) }

theorem Ledger.mono (l : Ledger o got live) {got' : List (Nat × Bytes)}
    (h : ∀ e ∈ got, e ∈ got') : Ledger o got' live :=
  { l with
    posted := fun n w hw => by
      obtain ⟨s, hs, ha⟩ := l.posted n w hw
      exact ⟨s, hs, ha.mono h⟩ }

/-! ## Everything below the cursor is stored -/

theorem Landed.below_cursor (l : Landed o got) (s : SourceInv o true) {p : Nat}
    (hp : p < o.cursor) : Covered got p := by
  have hcursor : o.cursor ≤ o.cut.length := by
    unfold Ostreamer.cursor
    split
    · exact Nat.le_of_eq (s.queue rfl).2
    · next h f hf =>
      have := (s.snippet_prefix (s.flights h f (SortedMap.first?_mem hf))).1
      omega
  obtain ⟨k, x, hm, hk, hlt⟩ := s.tiles.cover (Nat.zero_le p)
    (by rw [Nat.zero_add]; exact Nat.lt_of_lt_of_le hp hcursor)
  rcases l.landed k x hm with hfly | hgot
  · exfalso
    obtain ⟨f, hf⟩ := SortedMap.mem_keys.mp hfly
    have hle : o.cursor ≤ k := by
      unfold Ostreamer.cursor
      split
      · next hnone =>
        rw [SortedMap.first?_eq_none.mp hnone] at hf
        cases hf
      · next h g hg => exact SortedMap.first?_le hg hf
    omega
  · exact ⟨k, x, hgot, hk, hlt⟩

/-- A callback with success, when everything of its writer lies below the cursor. -/
theorem Landed.answers_success (l : Landed o got) (s : SourceInv o true) {w : Writer}
    (hlt : w.head + w.size < 2 ^ 64) (hle : wadd w.head w.size ≤ o.cursor) :
    Answers got w ⟨w.callback, .success, w.size⟩ := by
  rw [wadd_of_lt hlt] at hle
  exact ⟨rfl, Nat.le_refl _, fun _ => rfl, fun p _ hp =>
    l.below_cursor s (Nat.lt_of_lt_of_le hp hle)⟩

/-- A callback with an error reports what lies below the cursor. -/
theorem Landed.answers_error (l : Landed o got) (s : SourceInv o true) {w : Writer} {ec : Ec}
    (hlt : w.head + w.size < 2 ^ 64) (hec : ec ≠ .success) :
    Answers got w ⟨w.callback, ec, Ostreamer.sent o.cursor w⟩ := by
  have hsent : Ostreamer.sent o.cursor w ≤ w.size ∧
      (Ostreamer.sent o.cursor w ≠ 0 → w.head + Ostreamer.sent o.cursor w ≤ o.cursor) := by
    unfold Ostreamer.sent
    rw [wadd_of_lt hlt]
    split
    · exact ⟨Nat.le_refl _, fun _ => by assumption⟩
    · split
      · next hge hhead =>
        rw [wsub_of_le (Nat.le_of_lt hhead) (by omega)]
        omega
      · exact ⟨Nat.zero_le _, fun h => absurd rfl h⟩
  refine ⟨rfl, hsent.1, fun h => absurd h hec, fun p hp hin => l.below_cursor s ?_⟩
  have hin : p < w.head + Ostreamer.sent o.cursor w := hin
  have := hsent.2 (by omega)
  omega

/-! ## The steps of a source -/

namespace Landed

theorem imbue (l : Landed o got) (q : Qos) (now : Time) (resend : Int) (room : Nat) :
    Landed (o.imbue q now resend room).1 got := by
  refine Ostreamer.imbue_induct q now resend (P := fun o' _ => Landed o' got) ?_ room l
  intro o₁ _ o₂ _ hstep l₁
  cases hstep with
  | again =>
    exact { l₁ with
      landed := fun k x hm => by
        rw [SortedMap.keys_modify]
        exact l₁.landed k x hm }
  | giveUp =>
    exact { l₁ with landed := fun k x hm => by rw [SortedMap.keys_modify]; exact l₁.landed k x hm }
  | @fresh _ _ max queued pos _ =>
    obtain ⟨hne, hrest⟩ := o₁.buffer.pull_ne_nil queued pos l₁.queued
    refine ⟨hrest, ?_, ?_⟩
    · intro e he
      rcases List.mem_append.mp he with he | he
      · exact l₁.cut e he
      · rw [List.mem_singleton.mp he]
        exact hne
    · intro k x hm
      show k ∈ (o₁.moves.emplace _ _).keys ∨ _
      rcases List.mem_append.mp hm with hm | hm
      · exact (l₁.landed k x hm).imp (fun hk => SortedMap.mem_keys_emplace.mpr (.inl hk)) id
      · cases List.mem_singleton.mp hm
        exact .inl (SortedMap.mem_keys_emplace.mpr (.inr rfl))
  | echo => exact { l₁ with }

theorem append (l : Landed o got) (s : SourceInv o true) (q : Qos) {buf : Bytes} (h : Handler)
    (hne : buf ≠ []) (hlt : buf.length < 2 ^ 64) : Landed (o.append q buf h) got := by
  rcases Ostreamer.append_cases (q := q) h hlt s.tail_lt with
    ⟨data, _, _, hdata, heq⟩ | ⟨_, _, heq⟩
  · rw [heq]
    refine { l with queued := ?_ }
    rcases hdata with rfl | ⟨hnil, _⟩
    · exact l.queued
    · exact absurd hnil hne
  · rw [heq]
    refine { l with queued := fun x hx => ?_ }
    rcases List.mem_append.mp hx with hx | hx
    · exact l.queued x hx
    · rw [List.mem_singleton.mp hx]
      exact hne

/-- Erasing a flight whose handle the sink has. -/
theorem erase (l : Landed o got) (s : SourceInv o true) {h : Nat} (hgot : ∀ e ∈ got, e ∈ o.pulled)
    (hack : h ∈ got.map Prod.fst) : Landed { o with moves := o.moves.erase h } got := by
  refine { l with landed := fun k x hm => ?_ }
  by_cases hk : k = h
  · subst hk
    obtain ⟨⟨k', x'⟩, hmem, rfl⟩ := List.mem_map.mp hack
    have hpulled := hgot _ hmem
    rw [s.tiles.eq_of_label hm hpulled (l.cut _ hm) (l.cut _ hpulled)]
    exact .inr hmem
  · refine (l.landed k x hm).imp (fun hkeys => ?_) id
    obtain ⟨f, hf⟩ := SortedMap.mem_keys.mp hkeys
    exact SortedMap.mem_keys.mpr ⟨f, SortedMap.mem_erase.mpr ⟨hf, hk⟩⟩

end Landed

namespace Ledger

theorem count_le (l : Ledger o got live) :
    o.written.length ≤ (Ostreamer.slots 0 o.accepted).length := by
  by_contra hlt
  obtain ⟨w, hw⟩ : ∃ w, o.written[(Ostreamer.slots 0 o.accepted).length]? = some w :=
    ⟨_, List.getElem?_eq_getElem (by omega)⟩
  obtain ⟨s, hs, _⟩ := l.posted _ w hw
  rw [List.getElem?_eq_none (Nat.le_refl _)] at hs
  cases hs

/-- The account when the front of the writers is called back, truthfully. -/
theorem post (l : Ledger o got true) {front rest : List Writer} (hsplit : o.writers = front ++ rest)
    (g : Writer → Written) (hg : ∀ w ∈ front, Answers got w (g w)) :
    rest = (Ostreamer.slots 0 o.accepted).drop (o.written ++ front.map g).length ∧
    ∀ (n : Nat) (w : Written), (o.written ++ front.map g)[n]? = some w →
      ∃ s, (Ostreamer.slots 0 o.accepted)[n]? = some s ∧ Answers got s w := by
  have hw := l.writers rfl
  rw [hsplit] at hw
  refine ⟨?_, fun n w hn => ?_⟩
  · rw [List.length_append, List.length_map, ← List.drop_drop, ← hw, List.drop_left]
  · by_cases hold : n < o.written.length
    · rw [List.getElem?_append_left hold] at hn
      exact l.posted n w hn
    · rw [List.getElem?_append_right (by omega), List.getElem?_map] at hn
      obtain ⟨s, hs, rfl⟩ := Option.map_eq_some_iff.mp hn
      refine ⟨s, ?_, hg s (List.mem_of_getElem? hs)⟩
      have hget := congrArg (fun l => l[n - o.written.length]?) hw
      simp only [List.getElem?_drop] at hget
      rw [List.getElem?_append_left (List.getElem?_eq_some_iff.mp hs).1, hs] at hget
      rw [hget]
      congr 1
      omega

theorem writer_lt (l : Ledger o got true) (hlt : o.stream.length < 2 ^ 64) {w : Writer}
    (hw : w ∈ o.writers) : w.head + w.size < 2 ^ 64 := by
  rw [l.writers rfl] at hw
  have := Ostreamer.slots_end 0 o.accepted (List.mem_of_mem_drop hw)
  rw [Nat.zero_add] at this
  exact Nat.lt_of_le_of_lt this hlt

theorem imbue (l : Ledger o got live) (q : Qos) (now : Time) (resend : Int) (room : Nat) :
    Ledger (o.imbue q now resend room).1 got live := by
  refine Ostreamer.imbue_induct q now resend (P := fun o' _ => Ledger o' got live) ?_ room l
  intro o₁ _ o₂ _ hstep l₁
  cases hstep with
  | again => exact { l₁ with }
  | giveUp => exact { l₁ with }
  | @fresh _ _ max _ _ _ =>
    exact { l₁ with tail := fun h => (o₁.buffer.pull_tail max).trans (l₁.tail h) }
  | echo => exact { l₁ with }

theorem append (l : Ledger o got true) (s : SourceInv o true) (q : Qos) {buf : Bytes} (h : Handler)
    (hlt : buf.length < 2 ^ 64) (hall : (o.append q buf h).stream.length < 2 ^ 64) :
    Ledger (o.append q buf h) got true := by
  rcases Ostreamer.append_cases (q := q) h hlt s.tail_lt with ⟨_, _, _, _, heq⟩ | ⟨_, _, heq⟩
  · rw [heq]
    exact { l with }
  · have hstream : (o.append q buf h).stream = o.stream ++ buf := by
      rw [heq]
      simp [Ostreamer.stream]
    have hslots := Ostreamer.slots_append 0 o.accepted buf h
    have hcount := l.count_le
    have htail := l.tail rfl
    rw [hstream, List.length_append] at hall
    have hw : wadd o.buffer.tail buf.length = o.stream.length + buf.length := by
      rw [htail]
      exact wadd_of_lt hall
    rw [heq] at hstream ⊢
    refine ⟨fun _ => ?_, fun _ => ?_, fun hc => (by cases hc), fun n w hn => ?_⟩
    · rw [hstream, List.length_append]
      exact hw
    · show o.writers ++ [_] = (Ostreamer.slots 0 (o.accepted ++ [(buf, h)])).drop _
      rw [hslots, List.drop_append_of_le_length hcount, ← l.writers rfl, htail, Nat.zero_add]
      rfl
    · obtain ⟨s, hs, ha⟩ := l.posted n w hn
      refine ⟨s, ?_, ha⟩
      show (Ostreamer.slots 0 (o.accepted ++ [(buf, h)]))[n]? = some s
      rw [hslots, List.getElem?_append_left (List.getElem?_eq_some_iff.mp hs).1, hs]

theorem acknowledge (l : Ledger o got true) (s : SourceInv o true) (pin h : Nat)
    (hlt : o.stream.length < 2 ^ 64)
    (hland : Landed { o with moves := o.moves.erase h } got) :
    Ledger (o.acknowledge pin h) got true := by
  have s₁ := s.acknowledge pin h
  have hcursor : (o.acknowledge pin h).cursor
      = Ostreamer.cursor { o with moves := o.moves.erase h } := rfl
  have hland₁ : Landed (o.acknowledge pin h) got := { hland with }
  obtain ⟨hsplit, hdone⟩ := Ostreamer.complete_eq (o.acknowledge pin h).cursor o.writers
  obtain ⟨hrest, hposted⟩ := l.post hsplit (fun w => ⟨w.callback, .success, w.size⟩) (by
    intro w hw
    refine hland₁.answers_success s₁ (l.writer_lt hlt ?_) (hdone w hw)
    rw [hsplit]
    exact List.mem_append_left _ hw)
  exact ⟨l.tail, fun _ => hrest, fun hc => (by cases hc), hposted⟩

theorem error (l : Ledger o got live) (s : SourceInv o live) (hlt : o.stream.length < 2 ^ 64)
    (hland : live = true → Landed o got) {ec : Ec} (hec : ec ≠ .success) :
    Ledger (o.error ec) got false := by
  refine ⟨fun hc => (by cases hc), fun hc => (by cases hc), fun _ => rfl, ?_⟩
  cases live with
  | false =>
    intro n w hn
    refine l.posted n w ?_
    rw [← hn]
    simp [Ostreamer.error, l.closed rfl]
  | true =>
    refine (l.post (List.append_nil o.writers).symm
      (fun w => ⟨w.callback, ec, Ostreamer.sent o.cursor w⟩) ?_).2
    intro w hw
    exact (hland rfl).answers_error s (l.writer_lt hlt hw) hec

end Ledger

/-! ## The invariant of a flow -/

/-- Writes are not empty. -/
def Terms.nonEmpty : Terms := { Terms.any with write := fun buffer => buffer ≠ [] }

namespace Flow

/-- The account of the callbacks in a flow. -/
structure Truthful (f : Flow) : Prop where
  landed : f.sourceOpen = true → Landed f.source f.sink.got
  ledger : f.source.stream.length < 2 ^ 64 → Ledger f.source f.sink.got f.sourceOpen

namespace Truthful

variable {qs qr : Qos} {f f' : Flow}

theorem create : Truthful (create qr) where
  landed _ := ⟨fun x hx => (by cases hx), fun e he => (by cases he), fun k x hm => (by cases hm)⟩
  ledger _ := ⟨fun _ => rfl, fun _ => rfl, fun _ => rfl, fun n w hn => (by cases hn)⟩

/-- A sink that went on. -/
theorem setSink (t : Truthful f) {i : Istreamer} (hg : f.sink.Grows i) {b : Bool} :
    Truthful { f with sink := i, sinkOpen := b } where
  landed h := (t.landed h).mono fun _ he => hg.got_subset he
  ledger h := (t.ledger h).mono fun _ he => hg.got_subset he

theorem acknowledge (t : Truthful f) (inv : Inv qr f) (hopen : f.sourceOpen = true) {p : Packet}
    (hp : ∀ x ∈ p.body, x.forSource = true → x ∈ f.echoed) :
    Truthful { f with source := f.source.parse p } := by
  have hs := inv.source
  rw [hopen] at hs
  have hacked : ∀ k, .moveEcho k ∈ p.body → k ∈ f.sink.got.map Prod.fst := by
    intro k hm
    obtain ⟨v, heq, hv⟩ | ⟨v, heq, _⟩ := inv.echoed _ (hp _ hm rfl)
    · cases heq
      exact hv (t.landed hopen).cut
    · cases heq
  -- the account of the flow, and what of the source the steps do not touch
  have hall : SourceInv (f.source.parse p) true ∧ Landed (f.source.parse p) f.sink.got ∧
      (f.source.parse p).stream = f.source.stream ∧
      (f.source.parse p).pulled = f.source.pulled ∧
      (f.source.stream.length < 2 ^ 64 → Ledger (f.source.parse p) f.sink.got true) := by
    refine Ostreamer.parse_induct (P := fun o => SourceInv o true ∧ Landed o f.sink.got ∧
      o.stream = f.source.stream ∧ o.pulled = f.source.pulled ∧
      (f.source.stream.length < 2 ^ 64 → Ledger o f.sink.got true)) ?_ ?_
      ⟨hs, t.landed hopen, rfl, rfl, fun h => by rw [← hopen]; exact t.ledger h⟩
    · rintro o k hm ⟨so, lo, hstream, hpulled, led⟩
      have hland := lo.erase so (fun e he => by rw [hpulled]; exact inv.sink.got e he) (hacked k hm)
      refine ⟨so.acknowledge p.pin k, { hland with }, hstream, hpulled, fun hlt => ?_⟩
      exact (led hlt).acknowledge so p.pin k (by rw [hstream]; exact hlt) hland
    · rintro o v hm ⟨so, lo, hstream, hpulled, led⟩
      obtain ⟨w, heq, _⟩ | ⟨w, heq, hlt, _⟩ := inv.echoed _ (hp _ hm rfl)
      · cases heq
      · cases heq
        exact ⟨so.widen p.pin hlt, { lo with }, hstream, hpulled, fun h => { led h with }⟩
  obtain ⟨_, hland, hstream, _, hled⟩ := hall
  refine ⟨fun _ => hland, fun h => ?_⟩
  change (f.source.parse p).stream.length < 2 ^ 64 at h
  rw [hstream] at h
  show Ledger (f.source.parse p) f.sink.got f.sourceOpen
  rw [hopen]
  exact hled h

theorem write (t : Truthful f) (inv : Inv qr f) (hopen : f.sourceOpen = true) (q : Qos)
    {buf : Bytes} (h : Handler) (hne : buf ≠ []) (hb : buf.length < 2 ^ 64) :
    Truthful { f with source := f.source.append q buf h } := by
  have hs := inv.source
  rw [hopen] at hs
  refine ⟨fun _ => (t.landed hopen).append hs q h hne hb, fun hlt => ?_⟩
  have hold : f.source.stream.length < 2 ^ 64 := by
    refine Nat.lt_of_le_of_lt ?_ hlt
    rcases Ostreamer.append_cases (q := q) h hb hs.tail_lt with ⟨_, _, _, _, heq⟩ | ⟨_, _, heq⟩
    · rw [heq]
      exact Nat.le_refl _
    · rw [heq]
      simp [Ostreamer.stream]
  have hl := t.ledger hold
  rw [hopen] at hl
  show Ledger (f.source.append q buf h) f.sink.got f.sourceOpen
  rw [hopen]
  exact hl.append hs q h hb hlt

theorem push (t : Truthful f) (now : Time) (resend : Int) (room : Nat) :
    Truthful { f with
      source := (f.source.imbue qs now resend room).1
      sent := f.sent ++ (f.source.imbue qs now resend room).2.1 } := by
  have hstream : (f.source.imbue qs now resend room).1.stream = f.source.stream :=
    Ostreamer.imbue_induct qs now resend (P := fun o _ => o.stream = f.source.stream)
      (fun _ _ _ _ hstep ho => by cases hstep <;> exact ho) room rfl
  refine ⟨fun h => (t.landed h).imbue qs now resend room, fun h => ?_⟩
  change (f.source.imbue qs now resend room).1.stream.length < 2 ^ 64 at h
  rw [hstream] at h
  exact (t.ledger h).imbue qs now resend room

/-- One act keeps the account. -/
theorem step (t : Truthful f) (inv : Inv qr f) {a : Act} (hok : Terms.nonEmpty.flow f a)
    (h : Flow.step qs qr f a = some f') : Truthful f' := by
  cases a with
  | initSource =>
    cases h
    exact ⟨fun ho => { t.landed ho with }, fun hlt => { t.ledger hlt with }⟩
  | write buffer callback =>
    obtain ⟨⟨hopen, hb⟩, h⟩ := Option.ite_none_right_eq_some.mp h
    cases h
    exact t.write inv hopen qs callback hok hb
  | push now resend room =>
    obtain ⟨_, h⟩ := Option.ite_none_right_eq_some.mp h
    cases h
    exact t.push now resend room
  | acknowledge p =>
    obtain ⟨⟨hopen, hp⟩, h⟩ := Option.ite_none_right_eq_some.mp h
    cases h
    exact t.acknowledge inv hopen hp
  | abortSource ec =>
    obtain ⟨hec, h⟩ := Option.ite_none_left_eq_some.mp h
    cases h
    refine ⟨fun hc => (by cases hc), fun hlt => ?_⟩
    exact (t.ledger hlt).error inv.source hlt t.landed hec
  | initSink =>
    cases h
    exact t.setSink (i := f.sink.init) ⟨List.prefix_refl _, List.prefix_refl _⟩
  | read buffer callback =>
    obtain ⟨_, h⟩ := Option.ite_none_right_eq_some.mp h
    obtain ⟨i, hi, rfl⟩ := Option.map_eq_some_iff.mp h
    exact t.setSink (Istreamer.append_grows hi)
  | answer now resend room =>
    obtain ⟨_, h⟩ := Option.ite_none_right_eq_some.mp h
    cases h
    obtain ⟨_, hstored, houts, _, _⟩ := inv.sink.imbue now resend room
    have hg : f.sink.Grows (f.sink.imbue now resend room).1 := .of_eq houts hstored
    have t' := t.setSink hg (b := f.sinkOpen)
    exact ⟨t'.landed, t'.ledger⟩
  | arrive p =>
    obtain ⟨_, h⟩ := Option.ite_none_right_eq_some.mp h
    obtain ⟨i, hi, rfl⟩ := Option.map_eq_some_iff.mp h
    exact t.setSink (Istreamer.parse_grows hi)
  | abortSink ec =>
    obtain ⟨_, h⟩ := Option.ite_none_left_eq_some.mp h
    cases h
    exact t.setSink (Istreamer.error_grows _ ec)

end Truthful

/-- Every state of a flow with no empty write keeps the account. -/
theorem Reaches.truthful {qs qr : Qos} {f : Flow}
    (h : (system qs qr).Reaches Terms.nonEmpty.flow f) : Truthful f :=
  h.invariant_with (fun _ hs => Reaches.inv hs) (fun _ hs => hs ▸ .create)
    (fun _ _ _ hok inv t hstep => t.step inv hok hstep)

end Flow

/-! ## Sessions -/

/-- Where a queued write begins in the stream. -/
def Ostreamer.place (o : Ostreamer) (n : Nat) : Nat :=
  (((o.accepted.take n).map Prod.fst).flatten).length

/-- A queued write is the part of the stream at its place. -/
theorem Ostreamer.getElem?_stream (o : Ostreamer) {n : Nat} {buf : Bytes} {h : Handler}
    (hn : o.accepted[n]? = some (buf, h)) {j : Nat} (hj : j < buf.length) :
    o.stream[o.place n + j]? = buf[j]? := by
  obtain ⟨hlt, hget⟩ := List.getElem?_eq_some_iff.mp hn
  have hsplit : o.accepted = o.accepted.take n ++ (buf, h) :: o.accepted.drop (n + 1) := by
    rw [← hget, List.getElem_cons_drop, List.take_append_drop]
  have hstream : o.stream = ((o.accepted.take n).map Prod.fst).flatten
      ++ (buf ++ ((o.accepted.drop (n + 1)).map Prod.fst).flatten) := by
    rw [stream]
    conv_lhs => rw [hsplit]
    simp only [List.map_append, List.map_cons, List.flatten_append, List.flatten_cons]
  rw [hstream, place, List.getElem?_append_right (Nat.le_add_right _ _), Nat.add_sub_cancel_left,
    List.getElem?_append_left hj]

namespace Session

variable {q : Side → Qos} {s : Session} {d : Side}

/-- The `n`-th callback posted is that of the `n`-th queued write. It reports at most the size of
the write, and the whole of it when it reports success; and every byte it reports is in a fragment
that the other side has stored. -/
theorem written_stored (h : (system q).Reaches (Terms.nonEmpty.session d) s)
    (hlt : (s.chan d).ostreamer.stream.length < 2 ^ 64) {n : Nat} {w : Written}
    (hw : (s.chan d).ostreamer.written[n]? = some w) :
    ∃ buf, (s.chan d).ostreamer.accepted[n]? = some (buf, w.callback) ∧ w.size ≤ buf.length ∧
      (w.ec = .success → w.size = buf.length) ∧
      ∀ j, j < w.size → ∃ pin k x, (pin, k, x) ∈ (s.chan d.other).istreamer.stored ∧
        k ≤ (s.chan d).ostreamer.place n + j ∧
        x[(s.chan d).ostreamer.place n + j - k]? = buf[j]? := by
  obtain ⟨f, hf, v⟩ := follows h
  have inv := Flow.Reaches.inv hf
  have truthful := Flow.Reaches.truthful hf
  rw [← v.source] at hlt hw ⊢
  rw [← v.sink]
  obtain ⟨slot, hslot, ha⟩ := (truthful.ledger hlt).posted n w hw
  obtain ⟨buf, hbuf, hsize, hhead⟩ := Ostreamer.getElem?_slots 0 f.source.accepted n hslot
  rw [Nat.zero_add] at hhead
  change slot.head = f.source.place n at hhead
  refine ⟨buf, ?_, ?_, ?_, fun j hj => ?_⟩
  · rw [ha.callback]
    exact hbuf
  · rw [← hsize]
    exact ha.le
  · rw [← hsize]
    exact ha.success
  · obtain ⟨k, x, hm, hk, hin⟩ := ha.covered (f.source.place n + j) (by omega) (by omega)
    obtain ⟨⟨pin, k', x'⟩, hstored, heq⟩ := List.mem_map.mp hm
    cases heq
    refine ⟨pin, k, x, hstored, hk, ?_⟩
    have hpre : x <+: f.source.stream.drop k := prefix_drop_mono inv.source.front
      (inv.source.snippet_prefix (inv.sink.got _ hm)).2
    have hjlt : j < buf.length := by
      have := ha.le
      omega
    rw [← f.source.getElem?_stream hbuf hjlt]
    obtain ⟨r, hr⟩ := hpre
    have hget := congrArg (fun l => l[f.source.place n + j - k]?) hr
    simp only [List.getElem?_drop] at hget
    rw [List.getElem?_append_left (by omega)] at hget
    rw [hget]
    congr 1
    omega

/-- A write of an empty buffer by `d`. -/
def Act.emptyWrite (d : Side) : Act → Bool
  | .act x (.write buffer _) => decide (x = d) && buffer.isEmpty
  | _ => false

theorem nonEmpty_session (s : Session) {a : Act} (h : a.emptyWrite d = false) :
    Terms.nonEmpty.session d s a := by
  cases a with
  | act x e =>
    refine ⟨?_, fun _ => ?_⟩
    · rintro rfl
      cases e with
      | write buf k =>
        rintro rfl
        simp [Act.emptyWrite] at h
      | _ => trivial
    · cases e <;> trivial
  | deliver => trivial
  | lose => trivial

/-- A write of two bytes that is sent, stored and acknowledged. -/
def acknowledged : List Act :=
  handshake ++ [.act .left (.write [1, 2] 7), .act .left (.produce ⟨6, 6, 6⟩),
    .deliver .right 7 1, .act .right (.produce ⟨8, 8, 8⟩), .deliver .left 9 1]

theorem written_stored_once :
    ∃ s, (system fun _ => .default).Reaches (Terms.nonEmpty.session .left) s ∧
      (s.chan .left).ostreamer.written = [⟨7, .success, 2⟩] ∧
      ∃ pin k x, (pin, k, x) ∈ (s.chan .right).istreamer.stored ∧ k ≤ 1 ∧ x[1 - k]? = some 2 := by
  have hnone : ∀ a ∈ acknowledged, a.emptyWrite .left = false := by decide
  have hrun : ((system fun _ => .default).run (create fun _ => .default) acknowledged).map
      (fun s => ((s.chan .left).ostreamer.written, (s.chan .left).ostreamer.accepted))
      = some ([⟨7, .success, 2⟩], [([1, 2], 7)]) := by decide +kernel
  obtain ⟨s, hs, hv⟩ := Option.map_eq_some_iff.mp hrun
  simp only [Prod.mk.injEq] at hv
  obtain ⟨hwritten, haccepted⟩ := hv
  have hreach : (system fun _ => .default).Reaches (Terms.nonEmpty.session .left) s :=
    .run _ (.start rfl) (fun s a ha => nonEmpty_session s (hnone a ha)) hs
  have hstream : (s.chan .left).ostreamer.stream.length < 2 ^ 64 := by
    rw [Ostreamer.stream, haccepted]
    decide
  obtain ⟨buf, hbuf, _, _, hbytes⟩ := written_stored hreach hstream (n := 0) (by rw [hwritten]; rfl)
  rw [haccepted] at hbuf
  cases hbuf
  obtain ⟨pin, k, x, hm, hk, hx⟩ := hbytes 1 (by decide)
  have hplace : (s.chan .left).ostreamer.place 0 = 0 := rfl
  rw [hplace] at hk hx
  exact ⟨s, hreach, hwritten, pin, k, x, hm, hk, hx⟩

/-- Parameters with the largest send buffer. -/
def roomiest : Qos :=
  { Qos.default with sendBufferSize := 2 ^ 64 - 1, sendBufferSize_lt := maxWord_lt }

/-- Two writes that end at `2 ^ 64`, and an error: the second is reported as sent in full. -/
theorem error_wraps {o : Ostreamer} (hbuffer : o.buffer = .fresh) (hmoves : o.moves.entries = [])
    (hwriters : o.writers = []) {a b : Bytes} (ha : a.length = 2 ^ 64 - 2) (hb : b.length = 2)
    (k l : Handler) (ec : Ec) :
    (((o.append roomiest a k).append roomiest b l).error ec).written
      = o.written ++ [⟨k, ec, 0⟩, ⟨l, ec, 2⟩] ∧
    (((o.append roomiest a k).append roomiest b l).error ec).accepted
      = o.accepted ++ [(a, k), (b, l)] := by
  have hfirst : o.append roomiest a k = { o with
      buffer := ⟨0, 2 ^ 64 - 2, [a]⟩
      writers := [⟨0, 2 ^ 64 - 2, k⟩]
      accepted := o.accepted ++ [(a, k)] } := by
    simp [Ostreamer.append, SendBuffer.add, hbuffer, SendBuffer.fresh, ha, roomiest, wadd, wsub,
      hwriters]
  have hsecond : (o.append roomiest a k).append roomiest b l = { o with
      buffer := ⟨0, 0, [a, b]⟩
      writers := [⟨0, 2 ^ 64 - 2, k⟩, ⟨2 ^ 64 - 2, 2, l⟩]
      accepted := o.accepted ++ [(a, k), (b, l)] } := by
    rw [hfirst]
    simp [Ostreamer.append, SendBuffer.add, hb, roomiest, wadd, wsub]
  have hcursor : Ostreamer.cursor { o with
      buffer := ⟨0, 0, [a, b]⟩
      writers := [⟨0, 2 ^ 64 - 2, k⟩, ⟨2 ^ 64 - 2, 2, l⟩]
      accepted := o.accepted ++ [(a, k), (b, l)] } = 0 := by
    simp [Ostreamer.cursor, SortedMap.first?, hmoves]
  rw [hsecond, Ostreamer.error, hcursor]
  simp [Ostreamer.sent, wadd]

/-- The left side queues `2 ^ 64` bytes in two writes and fails before any of them is sent. The
second write is called back with its full size, and the right side has stored nothing. -/
theorem written_wraps :
    ∃ s, (system fun _ => roomiest).Reaches (Terms.nonEmpty.session .left) s ∧
      (s.chan .left).ostreamer.written[1]? = some ⟨8, .brokenPipe, 2⟩ ∧
      (s.chan .left).ostreamer.accepted[1]? = some ([1, 2], 8) ∧
      (s.chan .right).istreamer.stored = [] := by
  have hnone : ∀ a ∈ handshake, a.emptyWrite .left = false := by decide
  have hrun : ((system fun _ => roomiest).run (create fun _ => roomiest) handshake).map
      (fun s => decide ((s.chan .left).connector.status = .linked ∧
        (s.chan .left).ostreamer.buffer = .fresh ∧
        (s.chan .left).ostreamer.moves.entries = [] ∧ (s.chan .left).ostreamer.writers = [] ∧
        (s.chan .left).ostreamer.written = [] ∧ (s.chan .left).ostreamer.accepted = [] ∧
        (s.chan .right).istreamer.stored = [])) = some true := by decide +kernel
  obtain ⟨s, hs, hv⟩ := Option.map_eq_some_iff.mp hrun
  obtain ⟨hlinked, hbuffer, hmoves, hwriters, hwritten, haccepted, hstored⟩ := of_decide_eq_true hv
  have hreach : (system fun _ => roomiest).Reaches (Terms.nonEmpty.session .left) s :=
    .run _ (.start rfl) (fun s a ha => nonEmpty_session s (hnone a ha)) hs
  obtain ⟨f, _, v⟩ := follows hreach
  have hqos : (s.chan .left).qos = roomiest := v.qos .left
  obtain ⟨a, ha⟩ : ∃ a : Bytes, a.length = 2 ^ 64 - 2 :=
    ⟨List.replicate (2 ^ 64 - 2) 0, List.length_replicate⟩
  have hne : a ≠ [] := by
    rintro rfl
    cases ha
  obtain ⟨hw, hacc⟩ := error_wraps hbuffer hmoves hwriters ha (b := [1, 2]) rfl 7 8 .brokenPipe
  rw [hwritten, List.nil_append] at hw
  rw [haccepted, List.nil_append] at hacc
  have hwrite : ∀ (s : Session) (buf : Bytes) (k : Handler), buf.length < 2 ^ 64 →
      step s (.act .left (.write buf k)) =
        some (s.put .left ((s.chan .left).write buf k) none) := by
    intro s buf k hlt
    simp only [step, Event.sound, Event.incoming, Transport.act, decide_eq_true hlt, and_self,
      if_true, Option.map_some]
  let s₁ := s.put .left ((s.chan .left).write a 7) none
  let s₂ := s₁.put .left ((s₁.chan .left).write [1, 2] 8) none
  have h₁ : (system fun _ => roomiest).Reaches (Terms.nonEmpty.session .left) s₁ := by
    refine .next hreach (e := .act .left (.write a 7)) (nonEmpty_session s ?_)
      (hwrite s a 7 (by rw [ha]; decide))
    simp [Act.emptyWrite, hne]
  have h₂ : (system fun _ => roomiest).Reaches (Terms.nonEmpty.session .left) s₂ :=
    .next h₁ (e := .act .left (.write [1, 2] 8)) (nonEmpty_session s₁ (by decide))
      (hwrite s₁ [1, 2] 8 (by decide))
  have h₃ : (system fun _ => roomiest).Reaches (Terms.nonEmpty.session .left)
      (s₂.put .left ((s₂.chan .left).mistake .brokenPipe) none) :=
    .next h₂ (e := .act .left (.mistake .brokenPipe)) (nonEmpty_session s₂ (by decide)) rfl
  have hleft : (s₂.chan .left).ostreamer
      = ((s.chan .left).ostreamer.append roomiest a 7).append roomiest [1, 2] 8 := by
    simp only [s₂, s₁, put_chan_self, Transport.write, hlinked, if_true, hqos]
  refine ⟨_, h₃, ?_, ?_, ?_⟩
  · rw [put_chan_self]
    show ((s₂.chan .left).ostreamer.error .brokenPipe).written[1]? = _
    rw [hleft, hw]
    rfl
  · rw [put_chan_self]
    show ((s₂.chan .left).ostreamer.error .brokenPipe).accepted[1]? = _
    rw [hleft, hacc]
    rfl
  · have hne : Side.right ≠ Side.left := by decide
    simp only [s₂, s₁, put_chan_of_ne hne]
    exact hstored

end Session

end Tubus.Udp
