import Tubus.Laws.Ostreamer
import Tubus.Lib.System

/-!
# The arithmetic of the sending half

Four structures have to agree: the queue, the flights, the writers and the window. `Sane` says how,
and every operation keeps it, whatever edges and acknowledgements a peer sends, in every order
(`sane_of_reaches`). So the unsigned differences of positions that `imbue` and `writable` take do
not wrap, at no point within a round, and nothing goes out beyond the greatest edge that was
received (`sender_safe`).
-/

namespace Tubus.Udp

open Lib

/-- The writers one after another, from a position to a position. -/
def Writer.Abut : Nat → List Writer → Nat → Prop
  | k, [], last => k = last
  | k, w :: rest, last => w.head = k ∧ Abut (k + w.size) rest last

namespace Writer

theorem Abut.snoc {l : List Writer} {k last : Nat} (h : Abut k l last) (size : Nat)
    (callback : Handler) : Abut k (l ++ [⟨last, size, callback⟩]) (last + size) := by
  induction l generalizing k with
  | nil =>
    cases h
    exact ⟨rfl, rfl⟩
  | cons w rest ih => exact ⟨h.1, ih h.2⟩

/-- The writers behind some others. -/
theorem Abut.behind {l m : List Writer} {k last : Nat} (h : Abut k (l ++ m) last) :
    ∃ k', Abut k' m last := by
  induction l generalizing k with
  | nil => exact ⟨k, h⟩
  | cons w rest ih => exact ih h.2

end Writer

namespace Ostreamer

variable {q : Qos} {o o' : Ostreamer}

/-- How the queue, the flights, the writers and the window agree. -/
structure Sane (q : Qos) (o : Ostreamer) : Prop where
  /-- Nothing was cut off beyond the window. -/
  head_le : o.buffer.head ≤ o.range
  range_lt : o.range < 2 ^ 64
  /-- The queue fills the stream from the head to the tail. -/
  tail_eq : o.buffer.tail = o.buffer.head + o.buffer.data.flatten.length
  tail_lt : o.buffer.tail < 2 ^ 64
  room : o.buffer.tail - o.buffer.head < q.sendBufferSize
  queue : ∀ x ∈ o.buffer.data, x ≠ []
  /-- A flight was cut off the stream. -/
  flights : ∀ h f, (h, f) ∈ o.moves.entries → h < o.buffer.head ∧ h + f.data.length ≤ o.buffer.head
  disjoint : ∀ h₁ f₁ h₂ f₂, (h₁, f₁) ∈ o.moves.entries → (h₂, f₂) ∈ o.moves.entries → h₁ < h₂ →
    h₁ + f₁.data.length ≤ h₂
  writers : ∃ k, Writer.Abut k o.writers o.buffer.tail

namespace Sane

theorem create (hpos : 0 < q.sendBufferSize) : Sane q create where
  head_le := Nat.le_refl _
  range_lt := by decide
  tail_eq := rfl
  tail_lt := by decide
  room := hpos
  queue _ hx := absurd hx List.not_mem_nil
  flights _ _ hm := absurd hm List.not_mem_nil
  disjoint _ _ _ _ hm := absurd hm List.not_mem_nil
  writers := ⟨0, rfl⟩

theorem init (s : o.Sane q) : o.init.Sane q := { s with }

/-- Dropping the stream keeps the window, and starts a new one. -/
theorem error (hpos : 0 < q.sendBufferSize) (s : o.Sane q) (ec : Ec) : (o.error ec).Sane q where
  head_le := Nat.zero_le _
  range_lt := s.range_lt
  tail_eq := rfl
  tail_lt := Nat.two_pow_pos 64
  room := hpos
  queue _ hx := absurd hx List.not_mem_nil
  flights _ _ hm := absurd hm List.not_mem_nil
  disjoint _ _ _ _ hm := absurd hm List.not_mem_nil
  writers := ⟨0, rfl⟩

/-! ## What the peer sends -/

/-- An acknowledgement of any handle takes flights away, and writers from the front. -/
theorem acknowledge (s : o.Sane q) (pin h : Nat) : (o.acknowledge pin h).Sane q :=
  { s with
    flights := fun k f hm => s.flights k f (SortedMap.mem_erase.mp hm).1
    disjoint := fun h₁ f₁ h₂ f₂ hm₁ hm₂ =>
      s.disjoint h₁ f₁ h₂ f₂ (SortedMap.mem_erase.mp hm₁).1 (SortedMap.mem_erase.mp hm₂).1
    writers := by
      obtain ⟨k, habut⟩ := s.writers
      have hsplit := (complete_eq ({ o with
        moves := o.moves.erase h
        acked := if o.moves.contains h then o.acked ++ [(pin, h)] else o.acked } : Ostreamer).cursor
          o.writers).1
      rw [hsplit] at habut
      exact habut.behind }

/-- An edge only widens the window. -/
theorem widen (s : o.Sane q) (pin : Nat) {v : Nat} (hv : v < 2 ^ 64) : (o.widen pin v).Sane q :=
  { s with
    head_le := Nat.le_trans s.head_le (Nat.le_max_left _ _)
    range_lt := Nat.max_lt.mpr ⟨s.range_lt, hv⟩ }

theorem parse (s : o.Sane q) {p : Packet} (hedges : ∀ v, .edge v ∈ p.body → v < 2 ^ 64) :
    (o.parse p).Sane q := by
  apply parse_induct (P := fun o => o.Sane q) _ _ s
  · intro o h _ s
    exact s.acknowledge p.pin h
  · intro o v hm s
    exact s.widen p.pin (hedges v hm)

/-! ## Writes -/

/-- A write goes in behind the others if it leaves room, or not at all. -/
theorem append (s : o.Sane q) {buf : Bytes} (k : Handler) (hne : buf ≠ [])
    (hlt : o.buffer.tail + buf.length < 2 ^ 64) : (o.append q buf k).Sane q := by
  have htail := s.tail_eq
  have hw : wadd o.buffer.tail buf.length = o.buffer.tail + buf.length := wadd_of_lt hlt
  have hpos : 0 < buf.length := List.length_pos_iff.mpr hne
  obtain ⟨data, errors, refused, hdata, happend⟩ | ⟨-, hroom, happend⟩ :=
    append_cases (q := q) k (show buf.length < 2 ^ 64 by omega) s.tail_lt
  · obtain rfl | ⟨hnil, -⟩ := hdata
    · rw [happend]
      exact { s with }
    · exact absurd hnil hne
  · rw [hw, wsub_of_le (by omega) hlt] at hroom
    obtain ⟨start, habut⟩ := s.writers
    rw [happend, hw]
    exact { s with
      tail_eq := by
        show o.buffer.tail + buf.length = o.buffer.head + (o.buffer.data ++ [buf]).flatten.length
        rw [List.flatten_append, List.length_append, List.flatten_singleton]
        omega
      tail_lt := hlt
      room := hroom
      queue := fun x hx => by
        obtain hx | hx := List.mem_append.mp hx
        · exact s.queue x hx
        · rw [List.mem_singleton.mp hx]
          exact hne
      writers := ⟨start, habut.snoc buf.length k⟩ }

/-! ## A round -/

/-- What is sent again stays where it is. -/
theorem modify (s : o.Sane q) (h : Nat) {g : Flight → Flight}
    (keeps : ∀ f, (g f).data = f.data) : Sane q { o with moves := o.moves.modify h g } := by
  have hold : ∀ k f, (k, f) ∈ (o.moves.modify h g).entries →
      ∃ f₀, (k, f₀) ∈ o.moves.entries ∧ f.data = f₀.data := by
    intro k f hm
    obtain ⟨hm, -⟩ | ⟨hk, f₀, hm, hf⟩ := SortedMap.mem_modify.mp hm
    · exact ⟨f, hm, rfl⟩
    · change k = h at hk
      change f = g f₀ at hf
      exact ⟨f₀, hk ▸ hm, by rw [hf, keeps]⟩
  exact { s with
    flights := fun k f hm => by
      obtain ⟨f₀, hm₀, hdata⟩ := hold k f hm
      rw [hdata]
      exact s.flights k f₀ hm₀
    disjoint := fun h₁ f₁ h₂ f₂ hm₁ hm₂ hlt => by
      obtain ⟨g₁, hg₁, hdata⟩ := hold h₁ f₁ hm₁
      obtain ⟨g₂, hg₂, -⟩ := hold h₂ f₂ hm₂
      rw [hdata]
      exact s.disjoint h₁ g₁ h₂ g₂ hg₁ hg₂ hlt }

/-- The window that is left, as `imbue` computes it. -/
theorem limit_eq (s : o.Sane q) : wsub o.range o.buffer.head = o.range - o.buffer.head :=
  wsub_of_le s.head_le s.range_lt

/-- A fresh snippet is cut at the head, within the window. -/
theorem launch (s : o.Sane q) {max : Nat} (time : Time) (queued : o.buffer.data ≠ [])
    (pos : 0 < max) (window : max ≤ wsub o.range o.buffer.head) :
    (o.launch max time).Sane q ∧
      (o.launch max time).buffer.head = o.buffer.head + (o.buffer.pull max).1.length := by
  have hlen := o.buffer.pull_length_le max
  have hrange := s.range_lt
  have htail := s.tail_eq
  have hroom := s.room
  obtain ⟨hne, hqueue⟩ := o.buffer.pull_ne_nil queued pos s.queue
  have hpos : 0 < (o.buffer.pull max).1.length := List.length_pos_iff.mpr hne
  rw [s.limit_eq] at window
  have hle := s.head_le
  have hhead : (o.buffer.pull max).2.head = o.buffer.head + (o.buffer.pull max).1.length := by
    rw [SendBuffer.pull_head _ _ queued, wadd_of_lt (by omega)]
  have htail' : (o.buffer.pull max).2.tail = o.buffer.tail := SendBuffer.pull_tail _ _
  have hsplit := congrArg List.length (o.buffer.pull_flatten max)
  rw [List.length_append] at hsplit
  have hnew : ∀ k f, (k, f) ∈ (o.launch max time).moves.entries →
      (k, f) ∈ o.moves.entries ∨ (k = o.buffer.head ∧ f.data = (o.buffer.pull max).1) := by
    intro k f hm
    obtain hm | ⟨heq, -⟩ := SortedMap.mem_emplace.mp hm
    · exact .inl hm
    · cases heq
      exact .inr ⟨rfl, rfl⟩
  refine ⟨⟨?_, hrange, ?_, ?_, ?_, hqueue, ?_, ?_, ?_⟩, hhead⟩
  · show (o.buffer.pull max).2.head ≤ o.range
    omega
  · show (o.buffer.pull max).2.tail =
      (o.buffer.pull max).2.head + (o.buffer.pull max).2.data.flatten.length
    omega
  · show (o.buffer.pull max).2.tail < 2 ^ 64
    rw [htail']
    exact s.tail_lt
  · show (o.buffer.pull max).2.tail - (o.buffer.pull max).2.head < q.sendBufferSize
    omega
  · intro k f hm
    show k < (o.buffer.pull max).2.head ∧ k + f.data.length ≤ (o.buffer.pull max).2.head
    obtain hm | ⟨rfl, hdata⟩ := hnew k f hm
    · have hold := s.flights k f hm
      omega
    · rw [hdata]
      omega
  · intro h₁ f₁ h₂ f₂ hm₁ hm₂ hlt
    obtain hm₁ | ⟨rfl, -⟩ := hnew h₁ f₁ hm₁
    · obtain hm₂ | ⟨rfl, -⟩ := hnew h₂ f₂ hm₂
      · exact s.disjoint h₁ f₁ h₂ f₂ hm₁ hm₂ hlt
      · exact (s.flights h₁ f₁ hm₁).2
    · obtain hm₂ | ⟨rfl, -⟩ := hnew h₂ f₂ hm₂
      · have hold := (s.flights h₂ f₂ hm₂).1
        omega
      · exact absurd hlt (Nat.lt_irrefl _)
  · show ∃ k, Writer.Abut k o.writers (o.buffer.pull max).2.tail
    rw [htail']
    exact s.writers

/-- One step of a round: the account stays sane, the window stays where it is, and a snippet that
is written ends before the head. -/
theorem emits {time : Time} {l l' : List Section} (h : Emits q time (o, l) (o', l'))
    (s : o.Sane q) (hl : ∀ k d, .move k d ∈ l → k + d.length ≤ o.buffer.head) :
    o'.Sane q ∧ o'.range = o.range ∧ ∀ k d, .move k d ∈ l' → k + d.length ≤ o'.buffer.head := by
  cases h with
  | again mem =>
    refine ⟨s.modify _ fun _ => rfl, rfl, fun k d hm => ?_⟩
    obtain hm | hm := List.mem_append.mp hm
    · exact hl k d hm
    · cases List.mem_singleton.mp hm
      exact (s.flights _ _ mem).2
  | @giveUp _ _ h _ mem used =>
    have s₁ := s.modify (g := Flight.tried) h fun _ => rfl
    exact ⟨{ s₁ with }, rfl, hl⟩
  | fresh queued pos window =>
    obtain ⟨s₁, hhead⟩ := s.launch time queued pos window
    refine ⟨s₁, rfl, fun k d hm => ?_⟩
    rw [hhead]
    obtain hm | hm := List.mem_append.mp hm
    · exact Nat.le_trans (hl k d hm) (Nat.le_add_right _ _)
    · cases List.mem_singleton.mp hm
      exact Nat.le_refl _
  | echo owed left =>
    refine ⟨{ s with }, rfl, fun k d hm => ?_⟩
    obtain hm | hm := List.mem_append.mp hm
    · exact hl k d hm
    · obtain ⟨v, -, heq⟩ := owed _ hm
      cases heq

open Relation (ReflTransGen)

/-- Wherever a round has come to. -/
theorem round (s : o.Sane q) {time : Time} {x : Ostreamer × List Section}
    (h : ReflTransGen (Emits q time) (o, []) x) :
    x.1.Sane q ∧ x.1.range = o.range ∧ ∀ k d, .move k d ∈ x.2 → k + d.length ≤ x.1.buffer.head := by
  induction h with
  | refl => exact ⟨s, rfl, fun k d hm => absurd hm List.not_mem_nil⟩
  | @tail y z _ hstep ih =>
    obtain ⟨hy, hrange, hl⟩ := ih
    obtain ⟨hz, hsame, hl'⟩ := emits hstep hy hl
    exact ⟨hz, hsame.trans hrange, hl'⟩

/-- The room that is left, as `writable` computes it. -/
theorem writable_eq (s : o.Sane q) :
    o.writable q = if o.buffer.tail < o.range then
      min (o.range - o.buffer.tail) (q.sendBufferSize - (o.buffer.tail - o.buffer.head))
    else 0 := by
  have htail := s.tail_eq
  have hroom := s.room
  unfold writable
  split
  · rw [wsub_of_le (by omega) s.range_lt, wsub_of_le (by omega) s.tail_lt,
      wsub_of_le (by omega) q.sendBufferSize_lt]
  · rfl

end Sane

/-! ## Any sequence of operations -/

/-- The edges in some sections. -/
def edges : List Section → List Nat :=
  List.filterMap fun
    | .edge v => some v
    | _ => none

/-- `parse` leaves the greatest of the range and the edges. -/
theorem parse_range (o : Ostreamer) (p : Packet) :
    (o.parse p).range = (edges p.body).foldl max o.range := by
  unfold parse
  generalize p.body = body
  induction body generalizing o with
  | nil => rfl
  | cons s rest ih =>
    rw [List.foldl_cons, ih]
    cases s <;> rfl

end Ostreamer

/-- A sending half. `edges` is history: the edges received so far. -/
structure Sender where
  half : Ostreamer
  edges : List Nat

namespace Sender

/-- What can happen to a sending half. -/
inductive Event where
  | init
  | append (buffer : Bytes) (k : Handler)
  | parse (p : Packet)
  | imbue (now : Time) (resend : Int) (room : Nat)
  | error (ec : Ec)
  deriving DecidableEq, Repr

def step (q : Qos) (s : Sender) : Event → Sender
  | .init => { s with half := s.half.init }
  | .append buffer k => { s with half := s.half.append q buffer k }
  | .parse p => ⟨s.half.parse p, s.edges ++ Ostreamer.edges p.body⟩
  | .imbue now resend room => { s with half := (s.half.imbue q now resend room).1 }
  | .error ec => { s with half := s.half.error ec }

/-- A sending half under any operations. -/
def system (q : Qos) : System Sender Event where
  init s := s = ⟨.create, []⟩
  step s e := some (s.step q e)

/-- Buffers are not empty, the stream ends below the last number, and an edge is a word. -/
def Proper (s : Sender) : Event → Prop
  | .append buffer _ => buffer ≠ [] ∧ s.half.buffer.tail + buffer.length < 2 ^ 64
  | .parse p => ∀ v, .edge v ∈ p.body → v < 2 ^ 64
  | .init | .imbue _ _ _ | .error _ => True

/-- Every operation keeps the account. -/
theorem step_sane {q : Qos} (hpos : 0 < q.sendBufferSize) {s : Sender} {e : Event}
    (h : s.half.Sane q ∧ s.half.range = s.edges.foldl max 0) (hproper : s.Proper e) :
    (s.step q e).half.Sane q ∧ (s.step q e).half.range = (s.step q e).edges.foldl max 0 := by
  obtain ⟨hsane, hrange⟩ := h
  cases e with
  | init => exact ⟨hsane.init, hrange⟩
  | append buffer k =>
    obtain ⟨-, -, hsame⟩ := s.half.append_keeps q buffer k
    exact ⟨hsane.append k hproper.1 hproper.2, hsame.trans hrange⟩
  | parse p =>
    refine ⟨hsane.parse hproper, ?_⟩
    show (s.half.parse p).range = (s.edges ++ Ostreamer.edges p.body).foldl max 0
    rw [Ostreamer.parse_range, hrange, List.foldl_append]
  | imbue now resend room =>
    obtain ⟨hround, hsame, -⟩ := hsane.round (Ostreamer.imbue_emits q now resend room s.half)
    exact ⟨hround, hsame.trans hrange⟩
  | error ec => exact ⟨hsane.error hpos ec, hrange⟩

theorem sane_of_reaches {q : Qos} (hpos : 0 < q.sendBufferSize) {s : Sender}
    (h : (system q).Reaches Proper s) :
    s.half.Sane q ∧ s.half.range = s.edges.foldl max 0 := by
  refine System.Reaches.invariant
    (P := fun s => s.half.Sane q ∧ s.half.range = s.edges.foldl max 0) ?_ ?_ h
  · rintro s rfl
    exact ⟨.create hpos, rfl⟩
  · intro s e s' hproper hs hstep
    cases hstep
    exact step_sane hpos hs hproper

open Relation (ReflTransGen)

/-- The account of a sending half holds after every operation and at every point within a round,
where the window that `imbue` computes is the true one and every snippet written so far ends within
the greatest edge received; and `writable` is the true difference too. -/
theorem sender_safe {q : Qos} (hpos : 0 < q.sendBufferSize) {s : Sender}
    (h : (system q).Reaches Proper s) :
    s.half.Sane q ∧ s.half.range = s.edges.foldl max 0 ∧
      (s.half.writable q = if s.half.buffer.tail < s.half.range then
        min (s.half.range - s.half.buffer.tail)
          (q.sendBufferSize - (s.half.buffer.tail - s.half.buffer.head)) else 0) ∧
      ∀ now resend room,
        ReflTransGen (Ostreamer.Emits q (later now resend)) (s.half, [])
          ((s.half.imbue q now resend room).1, (s.half.imbue q now resend room).2.1) ∧
        ∀ x, ReflTransGen (Ostreamer.Emits q (later now resend)) (s.half, []) x →
          x.1.Sane q ∧ x.1.range = s.edges.foldl max 0 ∧
            wsub x.1.range x.1.buffer.head = x.1.range - x.1.buffer.head ∧
            ∀ k d, .move k d ∈ x.2 → k + d.length ≤ s.edges.foldl max 0 := by
  obtain ⟨hsane, hrange⟩ := sane_of_reaches hpos h
  refine ⟨hsane, hrange, hsane.writable_eq, fun now resend room => ⟨?_, fun x hx => ?_⟩⟩
  · exact Ostreamer.imbue_emits q now resend room s.half
  · obtain ⟨hround, hsame, hl⟩ := hsane.round hx
    refine ⟨hround, hsame.trans hrange, hround.limit_eq, fun k d hm => ?_⟩
    have hend := hl k d hm
    have hle := hround.head_le
    rw [← hrange, ← hsame]
    omega

/-- Three bytes are written, two of them go out to an edge of two, and an edge of a million and an
acknowledgement of a handle that was never sent come in. -/
theorem sender_safe_three :
    ∃ s, (system .default).Reaches Proper s ∧ s.half.range = 1000000 ∧ s.half.Sane .default := by
  have hgo : ∀ {s : Sender} (e : Event), (system .default).Reaches Proper s → s.Proper e →
      (system .default).Reaches Proper (s.step .default e) := fun e h hproper => h.next hproper rfl
  have hedge := hgo (.parse ⟨1, [.edge 2]⟩) (.start rfl) (fun v hv => by
    simp only [List.mem_singleton, Section.edge.injEq] at hv
    omega)
  have hwrite := hgo (.append [1, 2, 3] 4) hedge ⟨by decide, by decide⟩
  have hround := hgo (.imbue 5 10000 100) hwrite trivial
  have hreach := hgo (.parse ⟨1, [.edge 1000000, .moveEcho 7]⟩) hround (fun v hv => by
    simp only [List.mem_cons, Section.edge.injEq, List.not_mem_nil, or_false, reduceCtorEq] at hv
    omega)
  obtain ⟨hsane, hrange, -⟩ := sender_safe (by decide) hreach
  exact ⟨_, hreach, hrange, hsane⟩

end Sender

end Tubus.Udp
