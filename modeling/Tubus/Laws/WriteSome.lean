import Tubus.Laws.Room
import Tubus.Udp.WriteSome

/-!
# Back-pressure

A transfer asks `writable` how much it may hand over, and hands over that much: nothing at all when
nothing was counted yet, and all of the room when the buffer is large enough. `append` refuses
both, and a refused write ends the connection. Where neither happens (`admits`), no write of the
transfer is refused, and the transfer fails only after the channel has left the state `linked`.
-/

namespace Tubus.Udp

open Lib Socket

/-! ## Events that are no writes -/

namespace Ostreamer

/-- What a streamer keeps while nothing is written: the writes refused, the errors of refused
writes, and the write callbacks posted, to which those of a healthy channel add successes. -/
structure Kept (healthy : Prop) (o o' : Ostreamer) : Prop where
  refused : o'.refused = o.refused
  errors : o'.errors.count .noBufferSpace = o.errors.count .noBufferSpace
  written : ∃ more, o'.written = o.written ++ more ∧ (healthy → ∀ w ∈ more, w.ec = .success)

variable {q : Qos} {healthy : Prop} {o o' o'' : Ostreamer}

namespace Kept

theorem refl (o : Ostreamer) : Kept healthy o o := ⟨rfl, rfl, [], by simp, by simp⟩

theorem trans (h : Kept healthy o o') (h' : Kept healthy o' o'') : Kept healthy o o'' := by
  obtain ⟨more, hmore, hok⟩ := h.written
  obtain ⟨more', hmore', hok'⟩ := h'.written
  refine ⟨h'.refused.trans h.refused, h'.errors.trans h.errors, more ++ more', ?_, ?_⟩
  · rw [hmore', hmore, List.append_assoc]
  · intro hh w hw
    rcases List.mem_append.mp hw with hw | hw
    · exact hok hh w hw
    · exact hok' hh w hw

theorem init (o : Ostreamer) : Kept healthy o o.init :=
  ⟨rfl, rfl, [], by simp [Ostreamer.init], by simp⟩

theorem parse (o : Ostreamer) (p : Packet) : Kept healthy o (o.parse p) := by
  refine parse_induct (P := fun o' => Kept healthy o o') ?_ ?_ (refl o)
  · intro o' h _ hk
    refine hk.trans ⟨rfl, rfl, _, rfl, fun _ w hw => ?_⟩
    obtain ⟨x, _, rfl⟩ := List.mem_map.mp hw
    rfl
  · intro o' v _ hk
    exact hk.trans ⟨rfl, rfl, [], by simp [widen], by simp⟩

theorem imbue (now : Time) (resend : Int) (room : Nat) (o : Ostreamer) :
    Kept healthy o (o.imbue q now resend room).1 := by
  refine imbue_induct q now resend (P := fun o' _ => Kept healthy o o') ?_ room (refl o)
  intro o' l o'' l' hstep hk
  cases hstep with
  | again => exact hk.trans ⟨rfl, rfl, [], by simp, by simp⟩
  | giveUp => exact hk.trans ⟨rfl, by simp, [], by simp, by simp⟩
  | fresh => exact hk.trans ⟨rfl, rfl, [], by simp [launch], by simp⟩
  | echo => exact hk.trans ⟨rfl, rfl, [], by simp, by simp⟩

theorem error (o : Ostreamer) (ec : Ec) (h : ¬ healthy) : Kept healthy o (o.error ec) :=
  ⟨rfl, rfl, _, rfl, fun hh => absurd hh h⟩

end Kept

end Ostreamer

namespace Transport

open Ostreamer (Kept)

variable {t t' : Transport} {out : Option Packet}

/-- An event that is no write refuses none, and the callbacks that it posts in a channel that is
not over are successes. -/
theorem act_kept {e : Event} (hsound : e.sound = true) (hw : WriteSome.isWrite e = false)
    (h : t.act e = some (t', out)) :
    Kept (t'.connector.status.rank ≤ 3) t.ostreamer t'.ostreamer := by
  have unhealthy : t'.connector.status.over = true → ¬ t'.connector.status.rank ≤ 3 :=
    fun ended hle => absurd (of_decide_eq_true ended) (Nat.not_le.mpr (Nat.lt_succ_of_le hle))
  cases (act_cases hsound h).2 with
  | quiet _ source =>
    rw [source]
    exact .refl _
  | opened _ _ source =>
    rw [source]
    exact .init _
  | read _ _ _ _ _ source =>
    rw [source]
    exact .refl _
  | write buffer k event =>
    rw [event] at hw
    cases hw
  | parsed now p _ _ _ _ source =>
    rw [source]
    exact .parse _ p
  | closed now p _ _ streams ended _ source =>
    rw [source]
    refine Kept.trans ?_ (.error _ _ (unhealthy ended))
    rcases streams with ⟨_, _, rfl⟩ | ⟨_, rfl⟩
    · exact .parse _ p
    · exact .refl _
  | aborted ec _ ended _ source =>
    rw [source]
    exact .error _ ec (unhealthy ended)
  | round k _ roomO _ _ _ source =>
    rw [source]
    exact .imbue _ _ roomO _

theorem write_written (t : Transport) (buffer : Bytes) (k : Handler) :
    (t.write buffer k).ostreamer.written = t.ostreamer.written := by
  unfold write
  split
  · unfold Ostreamer.append
    dsimp only
    split <;> rfl
  · rfl

/-- All write callbacks of a channel that is not over were successes. -/
theorem Reachable.written {q : Qos} (h : (system q).Reachable t)
    (hrank : t.connector.status.rank ≤ 3) : ∀ w ∈ t.ostreamer.written, w.ec = .success := by
  revert hrank
  refine (act_invariant (P := fun t => t.connector.status.rank ≤ 3 →
    ∀ w ∈ t.ostreamer.written, w.ec = .success) ?_ ?_ h).2
  · rintro - w hw
    cases hw
  · intro s e s' out _ _ hsound hact hs hle
    have hbefore := hs (Nat.le_trans (act_rank hact) hle)
    cases hw : WriteSome.isWrite e with
    | false =>
      obtain ⟨more, hmore, hok⟩ := (act_kept hsound hw hact).written
      intro w hmem
      rw [hmore] at hmem
      rcases List.mem_append.mp hmem with hmem | hmem
      · exact hbefore w hmem
      · exact hok hle w hmem
    | true =>
      cases e with
      | write buffer k =>
        cases hact
        rw [write_written]
        exact hbefore
      | _ => cases hw

end Transport

/-! ## The transfer -/

namespace WriteSome

/-- May the transfer run on this buffer? It may not hand over nothing before anything was counted,
and not what fills the send buffer. -/
def admits (t : Transport) (result : Nat) (buffer : Bytes) : Bool :=
  decide (t.connector.status ≠ .linked) || decide (buffer.length = 0) ||
    (if min t.writable buffer.length = 0 then decide (result ≠ 0)
    else t.ostreamer.buffer.leaves t.qos (min t.writable buffer.length))

def admitsFirst (t : Transport) (result : Nat) : List Bytes → Bool
  | [] => true
  | buffer :: _ => admits t result buffer

/-- Is the buffer that the act comes to one that the transfer may run on? -/
def spares (s : WriteSome) : Act → Bool
  | .channel _ => true
  | .complete =>
    match s.answered, s.transfer.stage with
    | some (.success, size), .waiting _ result buffer _ _ =>
      admits s.channel (wadd result size) (buffer.drop size)
    | _, _ => true
  | .callback =>
    match s.transfer.stage with
    | .returning .success size outer later => admitsFirst s.channel (wadd outer size) later
    | _ => true

/-- Has the transfer failed? -/
def failed : Stage UInt8 → Prop
  | .waiting _ _ _ _ _ => False
  | .returning ec _ _ _ => ec ≠ .success
  | .done ec _ => ec ≠ .success

/-- The channel under a transfer that began at `t₀`. -/
structure Base (t₀ t : Transport) : Prop where
  rank : 3 ≤ t.connector.status.rank
  refused : t.ostreamer.refused = t₀.ostreamer.refused
  errors : t.ostreamer.errors.count .noBufferSpace = t₀.ostreamer.errors.count .noBufferSpace
  written : t.connector.status.rank ≤ 3 → ∀ w ∈ t.ostreamer.written, w.ec = .success

/-- What holds along a transfer: as long as the channel is linked, nothing has failed. -/
structure Inv (t₀ : Transport) (s : WriteSome) : Prop where
  base : Base t₀ s.channel
  answer : s.channel.connector.status.rank ≤ 3 → ∀ ec n, s.answer ≠ some (.given ec n)
  fine : s.channel.connector.status.rank ≤ 3 → ¬ failed s.transfer.stage

variable {t₀ t : Transport}

theorem linked_of_rank {s : Status} (hge : 3 ≤ s.rank) (hle : s.rank ≤ 3) : s = .linked := by
  revert hge hle
  cases s <;> decide

/-- A write that the send buffer has room for. -/
theorem Base.write (b : Base t₀ t) (hl : t.connector.status = .linked) {part : Bytes}
    (hpos : 0 < part.length) (hle : part.length ≤ t.writable)
    (hleaves : t.ostreamer.buffer.leaves t.qos part.length = true) :
    Base t₀ (t.write part 0) ∧ ∃ n, answerTo t part = .nth n := by
  have hlt := Nat.lt_of_le_of_lt hle t.writable_lt
  have hroom : part.length ≤ t.ostreamer.buffer.room t.qos := by
    rw [Transport.writable, if_pos hl] at hle
    exact Nat.le_trans hle Ostreamer.writable_le_room
  have hwrite : t.write part 0 = { t with ostreamer := t.ostreamer.append t.qos part 0 } := by
    rw [Transport.write, if_pos hl]
  have happend := Ostreamer.append_of_lt (q := t.qos) (o := t.ostreamer) (k := 0) hpos hlt
    ((SendBuffer.add_accepts_iff hroom).mpr hleaves)
  rw [happend] at hwrite
  refine ⟨?_, ?_⟩
  · rw [hwrite]
    exact ⟨b.rank, b.refused, b.errors, b.written⟩
  · refine ⟨t.ostreamer.written.length + t.ostreamer.writers.length, ?_⟩
    rw [answerTo, if_neg (fun hne => hne hl), hwrite, if_pos rfl]

/-- No call is made where a callback was posted. -/
theorem Inv.rest (b : Base t₀ t) {x : Transfer UInt8} {e : Ec}
    (hstage : (∃ size outer later, x.stage = .returning e size outer later) ∨
      ∃ size, x.stage = .done e size)
    (hfine : t.connector.status.rank ≤ 3 → e = .success) : Inv t₀ (issue t x) := by
  rcases hstage with ⟨size, outer, later, hstage⟩ | ⟨size, hstage⟩
  · have hissue : issue t x = ⟨t, x, none⟩ := by rw [issue, hstage]
    rw [hissue]
    refine ⟨b, fun _ _ _ => (by simp), fun hle hfailed => ?_⟩
    rw [hstage] at hfailed
    exact hfailed (hfine hle)
  · have hissue : issue t x = ⟨t, x, none⟩ := by rw [issue, hstage]
    rw [hissue]
    refine ⟨b, fun _ _ _ => (by simp), fun hle hfailed => ?_⟩
    rw [hstage] at hfailed
    exact hfailed (hfine hle)

/-- The call that the inner form comes to is not refused. -/
theorem Inv.postOne (b : Base t₀ t) (x : Transfer UInt8) {result : Nat} {buffer : Bytes}
    (hadmits : admits t result buffer = true) (outer : Nat) (later : List Bytes) :
    Inv t₀ (issue t (x.postOne t.writable result buffer outer later)) := by
  unfold Transfer.postOne
  split
  · exact .rest b (e := .success) (.inl ⟨_, _, _, rfl⟩) fun _ => rfl
  · next hne =>
    dsimp only
    split
    · next hpart =>
      show Inv t₀ ⟨t.write (buffer.take (min t.writable buffer.length)) 0, _,
        some (answerTo t (buffer.take (min t.writable buffer.length)))⟩
      have hlen : (buffer.take (min t.writable buffer.length)).length =
          min t.writable buffer.length := by
        rw [List.length_take]
        omega
      generalize buffer.take (min t.writable buffer.length) = part at hpart hlen ⊢
      by_cases hl : t.connector.status = .linked
      · have hpos : 0 < min t.writable buffer.length ∧
            t.ostreamer.buffer.leaves t.qos (min t.writable buffer.length) = true := by
          simp only [admits, hl, hne, ne_eq, not_true_eq_false, decide_false, Bool.false_or]
            at hadmits
          split at hadmits
          · next hzero =>
            have hresult : result ≠ 0 := of_decide_eq_true hadmits
            omega
          · exact ⟨by omega, hadmits⟩
        rw [← hlen] at hpos
        obtain ⟨b', n, hanswer⟩ := b.write hl hpos.1 (by omega) hpos.2
        rw [hanswer]
        exact ⟨b', fun _ _ _ => (by simp), fun _ h => h⟩
      · have hover : ¬ t.connector.status.rank ≤ 3 := fun hle => hl (linked_of_rank b.rank hle)
        have hwrite : t.write part 0 = t.decline 0 := if_neg hl
        rw [hwrite]
        exact ⟨⟨b.rank, b.refused, b.errors, b.written⟩, fun hle => absurd hle hover,
          fun hle => absurd hle hover⟩
    · exact .rest b (e := .success) (.inl ⟨_, _, _, rfl⟩) fun _ => rfl

theorem Inv.postAll (b : Base t₀ t) (x : Transfer UInt8) {result : Nat} {buffers : List Bytes}
    (hadmits : admitsFirst t result buffers = true) :
    Inv t₀ (issue t (x.postAll t.writable result buffers)) := by
  cases buffers with
  | nil => exact .rest b (e := .success) (.inr ⟨_, rfl⟩) fun _ => rfl
  | cons buffer later => exact .postOne b _ hadmits result later

theorem Inv.channel {s : WriteSome} (i : Inv t₀ s) {e : Event} {t' : Transport}
    {out : Option Packet} (hsound : e.sound = true) (hw : isWrite e = false)
    (h : s.channel.act e = some (t', out)) : Inv t₀ { s with channel := t' } := by
  have hrank := Transport.act_rank h
  have hkept := Transport.act_kept hsound hw h
  have hbefore : t'.connector.status.rank ≤ 3 → s.channel.connector.status.rank ≤ 3 :=
    fun hle => Nat.le_trans hrank hle
  refine ⟨⟨Nat.le_trans i.base.rank hrank, hkept.refused.trans i.base.refused,
    hkept.errors.trans i.base.errors, fun hle w hw => ?_⟩, fun hle => i.answer (hbefore hle),
    fun hle => i.fine (hbefore hle)⟩
  obtain ⟨more, hmore, hok⟩ := hkept.written
  change w ∈ t'.ostreamer.written at hw
  rw [hmore] at hw
  rcases List.mem_append.mp hw with hw | hw
  · exact i.base.written (hbefore hle) w hw
  · exact hok hle w hw

/-- A write under way in a linked channel reports success. -/
theorem Inv.answered {s : WriteSome} (i : Inv t₀ s) {ec : Ec} {size : Nat}
    (h : s.answered = some (ec, size)) (hle : s.channel.connector.status.rank ≤ 3) :
    ec = .success := by
  unfold WriteSome.answered at h
  split at h
  · cases h
  · next hgiven => exact absurd hgiven (i.answer hle _ _)
  · obtain ⟨w, hw, heq⟩ := Option.map_eq_some_iff.mp h
    cases heq
    exact i.base.written hle w (List.mem_of_getElem? hw)

theorem Inv.complete {s s' : WriteSome} (i : Inv t₀ s) (hspares : spares s .complete = true)
    (h : s.step .complete = some s') : Inv t₀ s' := by
  obtain ⟨⟨ec, size⟩, hanswered, h⟩ := Option.bind_eq_some_iff.mp h
  obtain ⟨x, hx, heq⟩ := Option.bind_eq_some_iff.mp h
  cases heq
  unfold Transfer.complete at hx
  cases hstage : s.transfer.stage with
  | waiting part result buffer outer later =>
    simp only [hstage] at hx
    by_cases hec : ec = .success
    · subst hec
      simp only [spares, hanswered, hstage] at hspares
      simp only [ne_eq, not_true_eq_false, if_false, Option.some.injEq] at hx
      rw [← hx]
      exact .postOne i.base _ hspares outer later
    · simp only [ne_eq, hec, not_false_eq_true, if_true, Option.some.injEq] at hx
      rw [← hx]
      exact .rest i.base (.inl ⟨_, _, _, rfl⟩) fun hle => i.answered hanswered hle
  | returning e n outer later =>
    rw [hstage] at hx
    cases hx
  | done e n =>
    rw [hstage] at hx
    cases hx

theorem Inv.callback {s s' : WriteSome} (i : Inv t₀ s) (hspares : spares s .callback = true)
    (h : s.step .callback = some s') : Inv t₀ s' := by
  obtain ⟨x, hx, heq⟩ := Option.bind_eq_some_iff.mp h
  cases heq
  unfold Transfer.callback at hx
  cases hstage : s.transfer.stage with
  | returning ec size outer later =>
    simp only [hstage] at hx
    by_cases hec : ec = .success
    · subst hec
      simp only [spares, hstage] at hspares
      simp only [ne_eq, not_true_eq_false, if_false, Option.some.injEq] at hx
      rw [← hx]
      exact .postAll i.base _ hspares
    · simp only [ne_eq, hec, not_false_eq_true, if_true, Option.some.injEq] at hx
      rw [← hx]
      refine .rest i.base (.inr ⟨_, rfl⟩) fun hle => ?_
      have hfine := i.fine hle
      rw [hstage] at hfine
      exact absurd hec hfine
  | waiting part result buffer outer later =>
    rw [hstage] at hx
    cases hx
  | done e n =>
    rw [hstage] at hx
    cases hx

/-- A transfer on a linked channel with no other writer. As long as it never comes to a buffer
that it may not run on, none of its writes is refused, no error of a refused write is posted, and
while the channel is linked the transfer waits or has succeeded. -/
theorem writes_not_refused {q : Qos} {t₀ : Transport} {buffers : List Bytes} {acts : List Act}
    {s : WriteSome} (h₀ : (Transport.system q).Reachable t₀) (hl : t₀.connector.status = .linked)
    (hfirst : admitsFirst t₀ 0 buffers = true)
    (h : (system t₀ buffers).checked spares (start t₀ buffers) acts = some s) :
    s.channel.ostreamer.refused = t₀.ostreamer.refused ∧
      s.channel.ostreamer.errors.count .noBufferSpace =
        t₀.ostreamer.errors.count .noBufferSpace ∧
      (s.channel.connector.status = .linked → ∀ ec n, s.transfer.stage = .done ec n →
        ec = .success) := by
  have hrank : t₀.connector.status.rank = 3 := by rw [hl]; rfl
  have i : Inv t₀ s := by
    have hreach : (system t₀ buffers).Reaches (fun s a => spares s a = true) s :=
      System.Reaches.checked (fun _ _ h => h) acts (.start rfl) h
    refine System.Reaches.invariant (P := Inv t₀) ?_ ?_ hreach
    · rintro s rfl
      exact .postAll ⟨by omega, rfl, rfl, fun hle => Transport.Reachable.written h₀ hle⟩ _ hfirst
    · intro s a s' hok i hstep
      cases a with
      | channel e =>
        obtain ⟨⟨hsound, hw⟩, hstep⟩ := Option.ite_none_right_eq_some.mp hstep
        obtain ⟨⟨t, out⟩, hact, rfl⟩ := Option.map_eq_some_iff.mp hstep
        exact i.channel hsound hw hact
      | complete => exact i.complete hok hstep
      | callback => exact i.callback hok hstep
  refine ⟨i.base.refused, i.base.errors, fun hlinked ec n hdone => ?_⟩
  have hfine := i.fine (by rw [hlinked]; decide)
  rw [hdone] at hfine
  by_contra hne
  exact hfine hne

/-- Two bytes into an open window: they are sent, acknowledged and reported. -/
theorem writes_not_refused_two :
    ∃ t₀ s, (Transport.system .default).Reachable t₀ ∧
      (system t₀ [[1, 2]]).checked spares (start t₀ [[1, 2]])
        [.channel (.produce ⟨3, 3, 3⟩), .channel (.feed 4 ⟨2, [.moveEcho 0]⟩), .complete,
          .callback] = some s ∧
      s.transfer.stage = .done .success 2 ∧
      s.channel.ostreamer.refused = t₀.ostreamer.refused := by
  obtain ⟨t₀, ht₀, hv⟩ := System.exists_of_run (S := Transport.system .default)
    (f := fun t => (t.connector.status, admitsFirst t 0 [[1, 2]],
      ((system t [[1, 2]]).checked spares (start t [[1, 2]])
        [.channel (.produce ⟨3, 3, 3⟩), .channel (.feed 4 ⟨2, [.moveEcho 0]⟩), .complete,
          .callback]).map (·.transfer.stage)))
    (v := (.linked, true, some (.done .success 2)))
    [.openAt, .connect 1 1 1 .success, .feed 2 ⟨2, [.linkEcho, .edge 100]⟩] rfl
    (by decide +kernel)
  simp only [Prod.mk.injEq] at hv
  obtain ⟨hl, hfirst, hrun⟩ := hv
  obtain ⟨s, hs, hdone⟩ := Option.map_eq_some_iff.mp hrun
  exact ⟨t₀, s, ht₀, hs, hdone, (writes_not_refused ht₀ hl hfirst hs).1⟩

/-- A peer that has not opened its window yet: the transfer writes an empty part, which is refused
and reported as an error of the channel. -/
theorem empty_write_refused :
    ¬ ∀ (q : Qos) (t₀ : Transport) (buffers : List Bytes) (acts : List Act) (s : WriteSome),
      (Transport.system q).Reachable t₀ → t₀.connector.status = .linked →
      (∃ buffer ∈ buffers, buffer ≠ []) →
      (system t₀ buffers).run (start t₀ buffers) acts = some s →
      s.channel.ostreamer.refused = t₀.ostreamer.refused ∧
        s.channel.ostreamer.errors.count .noBufferSpace =
          t₀.ostreamer.errors.count .noBufferSpace := by
  intro hall
  obtain ⟨t₀, ht₀, hv⟩ := System.exists_of_run (S := Transport.system .default)
    (f := fun t => (t.connector.status, t.ostreamer.refused,
      (start t [[1]]).channel.ostreamer.refused, (start t [[1]]).channel.ostreamer.errors))
    (v := (.linked, [], [0], [.noBufferSpace]))
    [.openAt, .connect 1 1 1 .success, .feed 2 ⟨2, [.linkEcho]⟩] rfl (by decide +kernel)
  simp only [Prod.mk.injEq] at hv
  obtain ⟨hl, hrefused, hrefused', _⟩ := hv
  have hsame := (hall _ t₀ [[1]] [] (start t₀ [[1]]) ht₀ hl ⟨[1], by simp, by simp⟩ rfl).1
  rw [hrefused, hrefused'] at hsame
  cases hsame

end WriteSome

end Tubus.Udp
