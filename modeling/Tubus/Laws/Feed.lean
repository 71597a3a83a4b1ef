import Tubus.Laws.Handlers
import Tubus.Laws.Proto

/-!
# What a datagram can do

A datagram is fed without a throw unless it trips the channel (`feedBytes_isSome_iff`): it carries
a `move` section whose declared length is below eight, and the receiving half gets to it.
`section::valid` asks of a `move` that eight bytes follow the header and that the declared length
is not more than what follows, but not that the declared length is eight at least; `handle` then
reads eight bytes of a shorter value.
-/

namespace Tubus.Udp

open Lib

/-- What a section does to a receive buffer, and whether the walk goes on behind it. -/
def ReceiveBuffer.offer (q : Qos) (b : ReceiveBuffer) : Section → Bool × ReceiveBuffer
  | .move h d => b.map q h d
  | .link | .linkEcho | .tear | .tearEcho | .ping _ | .pingEcho _ | .moveEcho _ | .edge _
  | .edgeEcho _ | .runt _ => (true, b)

/-- Does a receive buffer take every fragment of some sections, one after another? -/
def ReceiveBuffer.takesAll (q : Qos) : ReceiveBuffer → List Section → Bool
  | _, [] => true
  | b, s :: rest => (b.offer q s).1 && takesAll q (b.offer q s).2 rest

/-- Sections in which the receiving half gets to a `move` that is too short for a handle: the
buffer takes every fragment before it. -/
def ReceiveBuffer.Trips (q : Qos) (b : ReceiveBuffer) (l : List Section) : Prop :=
  ∃ before v after, l = before ++ .runt v :: after ∧ v.length < Section.valueSize ∧
    b.takesAll q before = true

/-- A datagram that trips a channel: the header is right and the pin is admitted, the channel is
accepting, connecting or linked, and the body has such a `move`. -/
def Transport.Trips (t : Transport) (pack : Bytes) : Prop :=
  t.connector.valid pack = some true ∧ t.connector.status.streams = true ∧
    ∃ body l, Datagram.body pack = some body ∧ Section.sections body = some l ∧
      t.istreamer.buffer.Trips t.qos l

/-! ## The receiving half -/

namespace ReceiveBuffer

variable {q : Qos} {b : ReceiveBuffer} {s : Section} {l : List Section}

theorem not_trips_nil : ¬ b.Trips q [] := by
  rintro ⟨before, v, after, heq, _⟩
  cases before <;> cases heq

/-- Behind a section that opens, a runt is got to if the section lets the walk go on. -/
theorem trips_cons (hopens : ∀ v, s ≠ .runt v) :
    b.Trips q (s :: l) ↔ (b.offer q s).1 = true ∧ (b.offer q s).2.Trips q l := by
  constructor
  · rintro ⟨before, v, after, heq, hv, htakes⟩
    cases before with
    | nil =>
      cases heq
      exact absurd rfl (hopens v)
    | cons x before =>
      cases heq
      obtain ⟨hgo, hrest⟩ := Bool.and_eq_true_iff.mp htakes
      exact ⟨hgo, before, v, after, rfl, hv, hrest⟩
  · rintro ⟨hgo, before, v, after, rfl, hv, htakes⟩
    exact ⟨s :: before, v, after, rfl, hv, Bool.and_eq_true_iff.mpr ⟨hgo, htakes⟩⟩

end ReceiveBuffer

namespace Istreamer

variable {q : Qos} {i : Istreamer}

/-- A section that opens is taken, and its mark on the buffer is that of `offer`. -/
theorem take_offer (q : Qos) (pin : Nat) (i : Istreamer) {s : Section} (hopens : ∀ v, s ≠ .runt v) :
    ∃ i', i.take q pin s = some (i', (i.buffer.offer q s).1) ∧
      ((i.buffer.offer q s).1 = true → i'.buffer = (i.buffer.offer q s).2) := by
  cases s with
  | move h d =>
    refine ⟨(i.store q pin h d).1, ?_, ?_⟩
    · simp only [take, store, ReceiveBuffer.offer, Option.some.injEq]
      cases hok : (i.buffer.map q h d).1 <;> simp
    · intro hok
      simp only [ReceiveBuffer.offer] at hok
      simp [store, hok, ReceiveBuffer.offer]
  | edgeEcho v =>
    refine ⟨i.settle v, rfl, fun _ => ?_⟩
    unfold settle
    split <;> rfl
  | runt v => exact absurd rfl (hopens v)
  | _ => exact ⟨i, rfl, fun _ => rfl⟩

/-- The walk throws exactly when it gets to a runt. -/
theorem takeAll_isSome_iff (pin : Nat) {l : List Section}
    (hshort : ∀ v, .runt v ∈ l → v.length < Section.valueSize) :
    (takeAll q pin i l).isSome = true ↔ ¬ i.buffer.Trips q l := by
  induction l generalizing i with
  | nil => simp [takeAll, ReceiveBuffer.not_trips_nil]
  | cons s l ih =>
    by_cases hopens : ∀ v, s ≠ .runt v
    · obtain ⟨i', htake, hbuffer⟩ := take_offer q pin i hopens
      rw [ReceiveBuffer.trips_cons hopens]
      simp only [takeAll, htake, Option.bind_eq_bind, Option.bind_some]
      cases hgo : (i.buffer.offer q s).1 with
      | false => simp
      | true =>
        rw [if_pos rfl, ih fun v hv => hshort v (List.mem_cons_of_mem _ hv), hbuffer hgo]
        simp
    · obtain ⟨v, rfl⟩ := not_forall_not.mp hopens
      have htrips : i.buffer.Trips q (.runt v :: l) :=
        ⟨[], v, l, rfl, hshort v List.mem_cons_self, rfl⟩
      simp [takeAll, take, htrips]

/-- With sound readers `parse` throws only at a runt it gets to. -/
theorem parse_isSome_iff {p : Packet} (hreaders : ∀ r ∈ i.readers, r.Sound)
    (hshort : ∀ v, .runt v ∈ p.body → v.length < Section.valueSize) :
    (i.parse q p).isSome = true ↔ ¬ i.buffer.Trips q p.body := by
  rw [← takeAll_isSome_iff p.pin hshort]
  constructor
  · intro h
    obtain ⟨i', hi'⟩ := Option.isSome_iff_exists.mp h
    obtain ⟨i₁, hall, _⟩ := Option.bind_eq_some_iff.mp hi'
    rw [hall]
    rfl
  · intro h
    obtain ⟨i₁, hall⟩ := Option.isSome_iff_exists.mp h
    have hkeep : ∀ r ∈ i₁.readers, r.Sound := by
      refine takeAll_induct (P := fun j => ∀ r ∈ j.readers, r.Sound) ?_ ?_ hall hreaders
      · intro j k d _ hj
        rcases j.store_cases q p.pin k d with ⟨heq, _⟩ | ⟨heq, _⟩ | ⟨_, _, _, _, heq⟩ <;>
          rw [heq] <;> exact hj
      · intro j v _ hj
        unfold settle
        split <;> exact hj
    obtain ⟨i', hi'⟩ := transmit_isSome fun r hr => (hkeep r hr).measured
    simp [parse, hall, hi']

end Istreamer

/-! ## The datagram -/

theorem Datagram.pin_isSome (pack : Bytes) : ∃ n, pin pack = some n := by
  unfold pin
  split
  · next hlt =>
    have hle : 12 + 4 ≤ pack.length := Nat.le_of_lt hlt
    exact ⟨_, Buffer.getBE_of_le hle⟩
  · exact ⟨0, rfl⟩

/-- The test of a datagram never throws. -/
theorem Connector.valid_isSome (c : Connector) (pack : Bytes) : ∃ ok, c.valid pack = some ok := by
  obtain ⟨pin, hpin⟩ := Datagram.pin_isSome pack
  have hsign : ∃ n, Datagram.sign pack = some n := by
    unfold Datagram.sign
    split
    · next hlt =>
      have hle : 16 < pack.length := hlt
      exact ⟨_, Buffer.getBE_of_le (by omega)⟩
    · exact ⟨0, rfl⟩
  have hversion : ∃ n, Datagram.version pack = some n := by
    unfold Datagram.version
    split
    · next hlt =>
      have hle : 16 < pack.length := hlt
      exact ⟨_, Buffer.getBE_of_le (by omega)⟩
    · exact ⟨0, rfl⟩
  obtain ⟨sign, hsign⟩ := hsign
  obtain ⟨version, hversion⟩ := hversion
  simp [valid, hpin, hsign, hversion]

/-- What the test says of a datagram that passes it. -/
theorem Connector.valid_true {c : Connector} {pack : Bytes} (h : c.valid pack = some true) :
    Datagram.headerSize < pack.length ∧
      ∃ pin, Datagram.pin pack = some pin ∧ c.admits pin = true := by
  obtain ⟨sign, _, h⟩ := Option.bind_eq_some_iff.mp h
  obtain ⟨version, _, h⟩ := Option.bind_eq_some_iff.mp h
  obtain ⟨pin, hpin, h⟩ := Option.bind_eq_some_iff.mp h
  simp only [Option.pure_def, Option.some.injEq, Bool.and_eq_true, decide_eq_true_eq] at h
  exact ⟨h.1.1.1, pin, hpin, h.2⟩

namespace Transport

variable {q : Qos} {t : Transport}

/-- A packet that is fed to sound readers throws only at a runt that the receiving half of an
open channel gets to. -/
theorem feed_isSome_iff (now : Time) {p : Packet} (hreaders : ∀ r ∈ t.istreamer.readers, r.Sound)
    (hshort : ∀ v, .runt v ∈ p.body → v.length < Section.valueSize)
    (hadmits : t.connector.admits p.pin = true) :
    (t.feed now p).isSome = true ↔
      ¬ (t.connector.status.streams = true ∧ t.istreamer.buffer.Trips t.qos p.body) := by
  have hparse := Istreamer.parse_isSome_iff (q := t.qos) hreaders hshort
  simp only [feed, hadmits, if_true, feedStreams]
  cases t.connector.status.streams with
  | false => simp
  | true =>
    rw [not_and]
    simp only [if_true, forall_const, ← hparse]
    cases t.istreamer.parse t.qos p <;> simp

/-- With sound readers a datagram is fed to the end exactly when it does not trip the channel. -/
theorem feedBytes_returns_iff (hreaders : ∀ r ∈ t.istreamer.readers, r.Sound) (now : Time)
    {pack : Bytes} (hlt : pack.length < 2 ^ 64) :
    (t.feedBytes now pack).isSome = true ↔ ¬ t.Trips pack := by
  obtain ⟨ok, hok⟩ := t.connector.valid_isSome pack
  by_cases hvalid : ok = true
  · subst hvalid
    obtain ⟨hlong, pin, hpin, hadmits⟩ := Connector.valid_true hok
    have hle := Nat.le_of_lt hlong
    have hbody := Datagram.body_of_le hlt hle
    have hshorter : (pack.drop Datagram.headerSize).length < 2 ^ 64 := by
      rw [List.length_drop]
      omega
    obtain ⟨l, hl⟩ := Section.sections_isSome hshorter
    have hfeed := feed_isSome_iff (t := t) now (p := ⟨pin, l⟩) hreaders
      (fun v hv => Section.length_lt_of_runt_mem _ hshorter hl hv) hadmits
    simp only [feedBytes, if_neg (Nat.not_lt.mpr hle), hok, hbody, hl, hpin, Option.bind_eq_bind,
      Option.bind_some, if_true]
    rw [hfeed]
    simp [Trips, hok, hbody, hl]
  · have hno : ok = false := by simpa using hvalid
    subst hno
    have htrips : ¬ t.Trips pack := by
      rintro ⟨htrue, _⟩
      rw [hok] at htrue
      cases htrue
    simp only [feedBytes, hok, Option.bind_eq_bind, Option.bind_some]
    split <;> simp [htrips]

/-- The readers of a channel that can be reached are sound. -/
theorem readers_sound (h : (system q).Reachable t) : ∀ r ∈ t.istreamer.readers, r.Sound :=
  (istreamer_invariant (P := Istreamer.InTurn) .create (fun _ _ _ h t => t.op h) h).2.readers

/-- For every channel that can be reached and every datagram: `feed` runs to its end exactly when
the datagram does not trip the channel. -/
theorem feedBytes_isSome_iff (h : (system q).Reachable t) (now : Time) (pack : Bytes)
    (hlt : pack.length < 2 ^ 64) :
    (t.feedBytes now pack).isSome = true ↔ ¬ t.Trips pack :=
  feedBytes_returns_iff (readers_sound h) now hlt

/-- A `link` of pin 7, as a datagram, to a channel that accepts. -/
theorem feedBytes_isSome_link :
    ∃ t, (system .default).Reachable t ∧ t.connector.status = .accepting ∧
      (t.feedBytes 2
        [0, 0, 0, 0, 0, 0, 0, 0, 9, 9, 1, 2, 0, 0, 0, 7, 0, 2, 0, 0]).isSome = true := by
  obtain ⟨t, ht, hv⟩ := System.exists_of_run (S := system .default)
    [.openAt, .accept 1 1 1 .success] rfl
    (f := fun t => t.connector.status) (v := .accepting) (by decide +kernel)
  refine ⟨t, ht, hv, (feedBytes_isSome_iff ht 2 _ (by decide)).mpr ?_⟩
  rintro ⟨_, _, body, l, hbody, hl, before, v, after, rfl, _⟩
  have hfour : body = [0, 2, 0, 0] := Option.some.inj (hbody.symm.trans (by decide +kernel))
  subst hfour
  have hlink : before ++ .runt v :: after = [.link] :=
    Option.some.inj (hl.symm.trans (by decide +kernel))
  have hmem : Section.runt v ∈ [Section.link] := by
    rw [← hlink]
    simp
  cases List.mem_singleton.mp hmem

/-- An accepting channel and a datagram of pin 7 with one section, a `move` of declared length
zero, and eight bytes behind it: the handle is read from a value of no bytes. -/
theorem feedBytes_runt :
    ∃ t, (system .default).Reachable t ∧ t.connector.status = .accepting ∧
      t.feedBytes 2 [0, 0, 0, 0, 0, 0, 0, 0, 9, 9, 1, 2, 0, 0, 0, 7, 0, 8, 0, 0,
        0, 0, 0, 0, 0, 0, 0, 0] = none := by
  obtain ⟨t, ht, hv⟩ := System.exists_of_run (S := system .default)
    [.openAt, .accept 1 1 1 .success] rfl
    (f := fun t => decide (t.connector.status = .accepting) &&
      (t.feedBytes 2 [0, 0, 0, 0, 0, 0, 0, 0, 9, 9, 1, 2, 0, 0, 0, 7, 0, 8, 0, 0,
        0, 0, 0, 0, 0, 0, 0, 0]).isNone) (v := true) (by decide +kernel)
  obtain ⟨hacc, hnone⟩ := Bool.and_eq_true_iff.mp hv
  exact ⟨t, ht, of_decide_eq_true hacc, Option.isNone_iff_eq_none.mp hnone⟩

end Transport

end Tubus.Udp
