import Tubus.Laws.Ostreamer
import Tubus.Lib.Tiling
import Tubus.Udp.Flow

/-!
# The source of a flow

The sending half keeps one account of the stream: the snippets cut off so far tile its front,
what is still queued follows them, every flight is one of the snippets, and nothing was cut
beyond the window.

The window bounds the arithmetic too. `range` is a `uint64_t` that only grows, and a snippet is
cut only below it, so `head` never wraps, however long the stream is. `tail` may wrap; nothing
here depends on it.
-/

namespace Tubus.Udp

open Lib

/-- The bytes cut off the stream so far. -/
def Ostreamer.cut (o : Ostreamer) : Bytes := joined o.pulled

/-- The account a sending half keeps; `live` while it was not aborted. -/
structure SourceInv (o : Ostreamer) (live : Bool) : Prop where
  tiles : Tiles 0 o.pulled
  window : o.cut.length ≤ o.range
  range_lt : o.range < 2 ^ 64
  tail_lt : o.buffer.tail < 2 ^ 64
  front : o.cut <+: o.stream
  queue : live = true → o.stream = o.cut ++ o.buffer.data.flatten ∧ o.buffer.head = o.cut.length
  flights : ∀ h f, (h, f) ∈ o.moves.entries → (h, f.data) ∈ o.pulled
  echoes : ∀ v ∈ o.acks.keys, v ≤ o.range

namespace SourceInv

variable {o : Ostreamer} {live : Bool}

theorem create : SourceInv .create true where
  tiles := trivial
  window := Nat.le_refl _
  range_lt := by decide
  tail_lt := by decide
  front := List.prefix_refl _
  queue _ := ⟨rfl, rfl⟩
  flights h f hm := by cases hm
  echoes v hv := by cases hv

theorem init (s : SourceInv o live) : SourceInv o.init live := { s with }

/-- Fewer bytes were cut than a word counts. -/
theorem cut_lt (s : SourceInv o live) : o.cut.length < 2 ^ 64 :=
  Nat.lt_of_le_of_lt s.window s.range_lt

/-- A snippet is the part of the stream at its handle. -/
theorem snippet_prefix (s : SourceInv o live) {h : Nat} {d : Bytes} (hm : (h, d) ∈ o.pulled) :
    h + d.length ≤ o.cut.length ∧ d <+: o.cut.drop h := by
  obtain ⟨_, hend, hpre⟩ := s.tiles.prefix_drop hm
  rw [Nat.zero_add] at hend
  rw [Nat.sub_zero] at hpre
  exact ⟨hend, hpre⟩

/-- Changing the flights and nothing else, except in what is not their data. -/
theorem modify (s : SourceInv o live) (h : Nat) {g : Flight → Flight}
    (keeps : ∀ f, (g f).data = f.data) : SourceInv { o with moves := o.moves.modify h g } live :=
  { s with
    flights := by
      intro k f hm
      rcases SortedMap.mem_modify.mp hm with ⟨hm, _⟩ | ⟨hk, f₀, hm, hf⟩
      · exact s.flights k f hm
      · change k = h at hk
        change f = g f₀ at hf
        rw [hk, hf, keeps]
        exact s.flights h f₀ hm }

/-- The account of a fresh snippet. -/
theorem launch (s : SourceInv o true) {max : Nat} (time : Time) (queued : o.buffer.data ≠ [])
    (window : max ≤ wsub o.range o.buffer.head) :
    SourceInv (o.launch max time) true ∧
      (o.launch max time).pulled = o.pulled ++ [(o.buffer.head, (o.buffer.pull max).1)] := by
  obtain ⟨hstream, hhead⟩ := s.queue rfl
  have hlen := o.buffer.pull_length_le max
  have hwin := s.window
  have hrange := s.range_lt
  rw [hhead, wsub_of_le hwin hrange] at window
  have hcut : (o.launch max time).cut = o.cut ++ (o.buffer.pull max).1 := by
    simp only [Ostreamer.cut, Ostreamer.launch, joined_append, joined_cons, joined_nil,
      List.append_nil]
  have hsplit := o.buffer.pull_flatten max
  refine ⟨⟨?_, ?_, hrange, ?_, ?_, fun _ => ⟨?_, ?_⟩, ?_, s.echoes⟩, rfl⟩
  · have hsnoc := s.tiles.snoc (o.buffer.pull max).1
    rw [Nat.zero_add] at hsnoc
    show Tiles 0 (o.pulled ++ [(o.buffer.head, (o.buffer.pull max).1)])
    rw [hhead]
    exact hsnoc
  · show (o.launch max time).cut.length ≤ o.range
    rw [hcut, List.length_append]
    omega
  · show (o.buffer.pull max).2.tail < 2 ^ 64
    rw [SendBuffer.pull_tail]
    exact s.tail_lt
  · show (o.launch max time).cut <+: o.stream
    rw [hcut, hstream, ← hsplit, ← List.append_assoc]
    exact List.prefix_append _ _
  · show o.stream = (o.launch max time).cut ++ (o.buffer.pull max).2.data.flatten
    rw [hcut, hstream, List.append_assoc, hsplit]
  · show (o.buffer.pull max).2.head = (o.launch max time).cut.length
    rw [SendBuffer.pull_head _ _ queued, hcut, List.length_append, hhead, wadd_of_lt (by omega)]
  · intro h f hm
    show (h, f.data) ∈ o.pulled ++ [(o.buffer.head, (o.buffer.pull max).1)]
    rcases SortedMap.mem_emplace.mp hm with hm | ⟨heq, _⟩
    · exact List.mem_append_left _ (s.flights h f hm)
    · cases heq
      exact List.mem_append_right _ (List.mem_singleton.mpr rfl)

/-- The account after an acknowledgement. -/
theorem acknowledge (s : SourceInv o live) (pin h : Nat) :
    SourceInv (o.acknowledge pin h) live :=
  { s with
    flights := fun k f hm => s.flights k f (SortedMap.mem_erase.mp hm).1 }

/-- The account after an edge. -/
theorem widen (s : SourceInv o live) (pin : Nat) {v : Nat} (hv : v < 2 ^ 64) :
    SourceInv (o.widen pin v) live :=
  { s with
    window := Nat.le_trans s.window (Nat.le_max_left _ _)
    range_lt := Nat.max_lt.mpr ⟨s.range_lt, hv⟩
    echoes := by
      intro x hx
      show x ≤ max o.range v
      rcases SortedMap.mem_keys_emplace.mp hx with hx | rfl
      · exact Nat.le_trans (s.echoes x hx) (Nat.le_max_left _ _)
      · exact Nat.le_refl _ }

/-- The account after a write call. -/
theorem append (s : SourceInv o true) (q : Qos) {buf : Bytes} (h : Handler)
    (hlt : buf.length < 2 ^ 64) : SourceInv (o.append q buf h) true := by
  obtain ⟨hstream, hhead⟩ := s.queue rfl
  rcases Ostreamer.append_cases (q := q) h hlt s.tail_lt with
    ⟨data, errors, refused, hdata, happ⟩ | ⟨_, _, happ⟩
  · rw [happ]
    refine { s with queue := fun _ => ⟨?_, hhead⟩ }
    show o.stream = o.cut ++ data.flatten
    rcases hdata with rfl | ⟨_, rfl⟩
    · exact hstream
    · rw [hstream, List.flatten_append, List.flatten_singleton, List.append_nil]
  · have hgrow : (o.append q buf h).stream = o.stream ++ buf := by
      rw [happ]
      simp [Ostreamer.stream]
    have hcut : (o.append q buf h).cut = o.cut := by rw [happ]; rfl
    have hfront : (o.append q buf h).cut <+: (o.append q buf h).stream := by
      rw [hgrow, hcut]
      exact s.front.trans (List.prefix_append _ _)
    have hqueue : (o.append q buf h).stream
        = (o.append q buf h).cut ++ (o.append q buf h).buffer.data.flatten := by
      rw [hgrow, hcut, happ, hstream]
      simp
    rw [happ] at hfront hqueue ⊢
    exact { s with
      tail_lt := wadd_lt _ _
      front := hfront
      queue := fun _ => ⟨hqueue, hhead⟩ }

/-- The account after the streams were dropped. -/
theorem error (s : SourceInv o live) (ec : Ec) : SourceInv (o.error ec) false :=
  { s with
    tail_lt := show (0 : Nat) < 2 ^ 64 by decide
    queue := fun h => absurd h (by decide)
    flights := fun h f hm => by cases hm }

/-- What a round of `imbue` leaves: a longer account, and sections that are in it. -/
theorem imbue (s : SourceInv o true) (q : Qos) (now : Time) (resend : Int) (room : Nat) :
    let r := o.imbue q now resend room
    SourceInv r.1 true ∧ o.pulled <+: r.1.pulled ∧ r.1.range = o.range ∧
      (∀ x ∈ r.2.1, (∃ h d, x = .move h d ∧ (h, d) ∈ r.1.pulled) ∨
        ∃ v, x = .edgeEcho v ∧ v ≤ r.1.range) := by
  refine Ostreamer.imbue_induct q now resend
    (P := fun o' l => SourceInv o' true ∧ o.pulled <+: o'.pulled ∧ o'.range = o.range ∧
      ∀ x ∈ l, (∃ h d, x = .move h d ∧ (h, d) ∈ o'.pulled) ∨ ∃ v, x = .edgeEcho v ∧ v ≤ o'.range)
    ?_ room ⟨s, List.prefix_refl _, rfl, fun x hx => absurd hx List.not_mem_nil⟩
  rintro o₁ l o₂ l₂ hstep ⟨s₁, hpre, hrange, hl⟩
  cases hstep with
  | again hm =>
    refine ⟨s₁.modify _ fun _ => rfl, hpre, hrange, fun x hx => ?_⟩
    rcases List.mem_append.mp hx with hx | hx
    · exact hl x hx
    · exact .inl ⟨_, _, List.mem_singleton.mp hx, s₁.flights _ _ hm⟩
  | @giveUp _ _ h _ hm _ =>
    have s₂ := s₁.modify (g := Flight.tried) h fun _ => rfl
    exact ⟨{ s₂ with }, hpre, hrange, hl⟩
  | fresh hq hpos hwin =>
    obtain ⟨s₂, hpulled⟩ := s₁.launch (later now resend) hq hwin
    refine ⟨s₂, ?_, hrange, fun x hx => ?_⟩
    · rw [hpulled]
      exact hpre.trans (List.prefix_append _ _)
    · rw [hpulled]
      rcases List.mem_append.mp hx with hx | hx
      · rcases hl x hx with ⟨h, d, rfl, hm⟩ | hv
        · exact .inl ⟨h, d, rfl, List.mem_append_left _ hm⟩
        · exact .inr hv
      · exact .inl ⟨_, _, List.mem_singleton.mp hx,
          List.mem_append_right _ (List.mem_singleton.mpr rfl)⟩
  | echo hecho hleft =>
    refine ⟨{ s₁ with echoes := fun v hv => s₁.echoes v (hleft v hv) }, hpre, hrange,
      fun x hx => ?_⟩
    rcases List.mem_append.mp hx with hx | hx
    · exact hl x hx
    · obtain ⟨v, hv, rfl⟩ := hecho x hx
      exact .inr ⟨v, rfl, s₁.echoes v hv⟩

end SourceInv

end Tubus.Udp
