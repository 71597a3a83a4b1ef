import Tubus.Laws.Connector
import Tubus.Udp.Network

/-!
# The handshake

A channel that is linked was told its peer by a greeting: by a `link` if it accepts, by a
`link|echo` if it connects. The first greeting decides, and the greeting does not say whom it is
for. So the peer is some instance of the other endpoint, and it is the instance that is there now
exactly when that instance's greeting was the one taken (`linked_iff_greeted`).

A greeting of an instance that is gone can come first: `stale_greeting` links a channel with an
accepting side that took the delayed `link` of the channel's predecessor.
-/

namespace Tubus.Udp

open Lib

/-! ## What tells a connector its peer -/

namespace Connector

/-- The sections of a packet one after another: the peer is the sender if the packet greets in the
state it finds, and who it was otherwise. -/
theorem foldl_take_remotePin (q : Qos) (pin : Nat) (l : List Section) (c : Connector) :
    (l.foldl (take q pin) c).remotePin =
      if c.status.greeted l = true then pin else c.remotePin := by
  induction l generalizing c with
  | nil => cases c.status <;> simp [Status.greeted]
  | cons s l ih =>
    rw [List.foldl_cons, ih]
    -- An accepting connector stays accepting through the packet, a connecting one up to the
    -- echo, and no other state is left for one of these two.
    cases hs : c.status <;> cases s <;> simp [take, hs, Status.greeted, post]

theorem parse_remotePin_eq (q : Qos) (now : Time) (c : Connector) (p : Packet) :
    (c.parse q now p).remotePin = if c.status.greeted p.body = true then p.pin else c.remotePin :=
  foldl_take_remotePin q p.pin p.body { c with seen := now }

end Connector

namespace Transport

variable {t t' : Transport} {out : Option Packet}

/-- An event changes the peer of a channel by a greeting only, or ends the channel. -/
theorem act_remotePin {e : Event} (h : t.act e = some (t', out)) :
    t'.connector.remotePin = (t.greeting e).getD t.connector.remotePin ∨
      t'.connector.status = .finished := by
  rcases act_pins h with ⟨_, ⟨hsame, hquiet⟩ | ⟨now, p, rfl, hadmits, heq⟩⟩ | ⟨_, hfin⟩
  · have hno : t.greeting e = none := by
      cases e with
      | feed now p =>
        have hadmits : t.connector.admits p.pin ≠ true := fun h => hquiet p ⟨⟨now, rfl⟩, h⟩
        simp [greeting, hadmits]
      | _ => rfl
    rw [hno]
    exact .inl hsame
  · refine .inl ?_
    rw [heq, Connector.parse_remotePin_eq]
    simp only [greeting, hadmits, true_and]
    split <;> rfl
  · exact .inr hfin

/-- A channel that has not started sends nothing. -/
theorem produce_silent {k : Clock} (b : t.connector.Bound) (hle : t.connector.status.rank ≤ 1)
    (h : t.produce k = some (t', out)) : out = none := by
  have hmute : ∀ room, (t.connector.imbue t.qos k.connector room).1.status = t.connector.status ∧
      (t.connector.imbue t.qos k.connector room).2 = [] := by
    intro room
    have hall := Connector.imbue_induct t.qos k.connector (c := t.connector)
      (P := fun c l => c.jobs.entries = [] ∧ c.status = t.connector.status ∧ l = []) id
      (fun c l item hmem _ hc => by rw [hc.1] at hmem; cases hmem) room
      ⟨(b.fresh hle).1, rfl, rfl⟩
    exact hall.2
  have hspeaks : t.connector.status.speaks = false := by
    revert hle
    cases t.connector.status <;> decide
  unfold produce at h
  split at h
  · cases h
    rfl
  · obtain ⟨hstatus, hbody⟩ := hmute (t.qos.maxPacketSize - Datagram.headerSize)
    simp only [imbue, hstatus, hspeaks, hbody, Bool.false_eq_true, if_false] at h
    obtain ⟨_, h⟩ := Option.ite_none_left_eq_some.mp h
    cases h
    rfl

/-- A packet that is sent carries the pin of its channel, which has one. -/
theorem act_sent {e : Event} {p : Packet} (b : t.connector.Bound)
    (h : t.act e = some (t', some p)) :
    p.pin = t.connector.localPin ∧ t.connector.localPin ≠ 0 := by
  cases e with
  | produce k =>
    have hstarted : 2 ≤ t.connector.status.rank := by
      by_contra hlt
      cases produce_silent b (by omega) h
    have hnamed : t.connector.status ≠ .finished → t.connector.localPin ≠ 0 := by
      intro hne
      refine b.named hstarted ?_
      revert hne
      cases t.connector.status <;> decide
    rcases produce_cases h with ⟨_, _, hout⟩ | ⟨hne, room, ⟨_, _, _, _, hout⟩ | ⟨_, _, hout⟩⟩
    · cases hout
    · rw [hout p rfl]
      exact ⟨rfl, hnamed hne⟩
    · rw [hout p rfl]
      exact ⟨rfl, hnamed hne⟩
  | read buffer k =>
    obtain ⟨_, _, heq⟩ := Option.map_eq_some_iff.mp h
    cases heq
  | feed now p =>
    obtain ⟨_, _, heq⟩ := Option.map_eq_some_iff.mp h
    cases heq
  | _ => cases h

end Transport

namespace Network

/-! ## The account of an endpoint -/

/-- What holds of an instance, given the pins of its endpoint, the pins of the other one, and the
greetings it took. -/
structure Account (mine yours greeted : List Nat) (t : Transport) : Prop where
  bound : t.connector.Bound
  own : t.connector.localPin ≠ 0 → t.connector.localPin ∈ mine
  fresh : t.connector.status.rank ≤ 1 → greeted = []
  heard : ∀ pin ∈ greeted, pin ∈ yours ∧ pin ≠ 0
  taken : t.connector.status.rank ≤ 3 → ∀ pin ∈ greeted, t.connector.remotePin = pin
  known : t.connector.status.rank ≤ 3 → t.connector.remotePin ≠ 0 →
    t.connector.remotePin ∈ greeted

theorem Account.create (mine yours : List Nat) (q : Qos) :
    Account mine yours [] (Transport.create q) where
  bound := .create
  own h := absurd rfl h
  fresh _ := rfl
  heard _ h := absurd h List.not_mem_nil
  taken _ _ h := absurd h List.not_mem_nil
  known _ h := absurd rfl h

theorem mem_record_of_mem {pins : List Nat} {pin : Nat} (t : Transport) (h : pin ∈ pins) :
    pin ∈ record pins t := by
  unfold record
  split
  · exact h
  · exact List.mem_append_left _ h

theorem mem_record_self {pins : List Nat} {t : Transport} (h : t.connector.localPin ≠ 0) :
    t.connector.localPin ∈ record pins t := by
  unfold record
  split
  · next hc => exact hc.resolve_left h
  · exact List.mem_append_right _ List.mem_cons_self

/-- More pins at the other endpoint. -/
theorem Account.mono {mine yours yours' greeted : List Nat} {t : Transport}
    (a : Account mine yours greeted t) (h : ∀ pin ∈ yours, pin ∈ yours') :
    Account mine yours' greeted t :=
  { a with heard := fun pin hpin => ⟨h pin (a.heard pin hpin).1, (a.heard pin hpin).2⟩ }

/-- One event of the instance. A packet it is fed carries a pin of the other endpoint. -/
theorem Account.act {mine yours greeted : List Nat} {t t' : Transport} {e : Event}
    {out : Option Packet} (a : Account mine yours greeted t) (hsound : e.sound = true)
    (hfed : ∀ now p, e = .feed now p → p.pin ∈ yours ∧ p.pin ≠ 0)
    (h : t.act e = some (t', out)) :
    Account (record mine t') yours (greeted ++ (t.greeting e).toList) t' := by
  have hstamped : e.stamped = true := by
    cases e with
    | feed now p => exact decide_eq_true (hfed now p rfl).2
    | _ => rfl
  have hrank := Transport.act_rank h
  have hgreeting : ∀ pin, t.greeting e = some pin →
      pin ∈ yours ∧ pin ≠ 0 ∧ (t.connector.remotePin = 0 ∨ t.connector.remotePin = pin) ∧
        2 ≤ t.connector.status.rank := by
    intro pin hpin
    cases e with
    | feed now p =>
      obtain ⟨⟨hadmits, hgreets⟩, heq⟩ := Option.ite_none_right_eq_some.mp hpin
      cases heq
      refine ⟨(hfed now p rfl).1, (hfed now p rfl).2, (Connector.admits_iff.mp hadmits).2, ?_⟩
      revert hgreets
      cases t.connector.status <;> simp [Status.greeted, Status.rank]
    | _ => cases hpin
  have hremote : t'.connector.status.rank ≤ 3 →
      t'.connector.remotePin = (t.greeting e).getD t.connector.remotePin := by
    intro hle
    refine (Transport.act_remotePin h).resolve_right fun hfin => ?_
    rw [hfin] at hle
    exact absurd hle (by decide)
  refine ⟨Transport.act_bound hsound hstamped h a.bound, mem_record_self, ?_, ?_, ?_, ?_⟩
  · intro hle
    cases hg : t.greeting e with
    | none => simpa using a.fresh (Nat.le_trans hrank hle)
    | some pin =>
      have hstarted := (hgreeting pin hg).2.2.2
      omega
  · intro pin hpin
    rcases List.mem_append.mp hpin with hpin | hpin
    · exact a.heard pin hpin
    · obtain ⟨hyours, hne, _⟩ := hgreeting pin (Option.mem_toList.mp hpin)
      exact ⟨hyours, hne⟩
  · intro hle pin hpin
    rw [hremote hle]
    cases hg : t.greeting e with
    | none =>
      rw [hg] at hpin
      exact a.taken (Nat.le_trans hrank hle) pin (by simpa using hpin)
    | some p =>
      rw [hg] at hpin
      rcases List.mem_append.mp hpin with hold | hnew
      · -- A greeting was taken before, so only its sender is admitted.
        have heq := a.taken (Nat.le_trans hrank hle) pin hold
        rcases (hgreeting p hg).2.2.1 with hzero | hsame
        · rw [heq] at hzero
          exact absurd hzero (a.heard pin hold).2
        · exact hsame.symm.trans heq
      · simpa using (List.mem_singleton.mp hnew).symm
  · intro hle hne
    rw [hremote hle] at hne ⊢
    cases hg : t.greeting e with
    | none =>
      rw [hg] at hne
      simpa using a.known (Nat.le_trans hrank hle) hne
    | some p => simp

/-! ## Both endpoints -/

/-- The account of both endpoints, and of the packets on their way. -/
structure Inv (s : Network) : Prop where
  account : ∀ x, Account (s.pins x) (s.pins x.other) (s.greeted x) (s.session.chan x)
  sent : ∀ x, ∀ p ∈ s.session.net x, p.pin ∈ s.pins x ∧ p.pin ≠ 0

/-- An event of one instance, with what it sends. -/
theorem Inv.put {s : Network} (i : Inv s) {x : Side} {e : Event} {t : Transport}
    {out : Option Packet} (hsound : e.sound = true)
    (hfed : ∀ now p, e = .feed now p → p.pin ∈ s.pins x.other ∧ p.pin ≠ 0)
    (h : (s.session.chan x).act e = some (t, out)) {greeted : Side → List Nat}
    (hself : greeted x = s.greeted x ++ ((s.session.chan x).greeting e).toList)
    (hother : greeted x.other = s.greeted x.other) :
    Inv ⟨s.session.put x t out,
      fun y => record (s.pins y) ((s.session.put x t out).chan y), greeted⟩ := by
  have hgrow : ∀ y pin, pin ∈ s.pins y →
      pin ∈ record (s.pins y) ((s.session.put x t out).chan y) :=
    fun y pin hpin => mem_record_of_mem _ hpin
  refine ⟨fun y => ?_, fun y p hp => ?_⟩
  · rcases Side.eq_or_other x y with rfl | rfl
    · have hact := ((i.account y).act hsound hfed h).mono (hgrow y.other)
      rw [← hself] at hact
      simpa using hact
    · have hkeep := (i.account x.other).mono (hgrow x.other.other)
      rw [← hother] at hkeep
      have hchan : (s.session.put x t out).chan x.other = s.session.chan x.other :=
        Session.put_chan_of_ne x.other_ne
      refine { hkeep with bound := ?_, own := ?_, fresh := ?_, taken := ?_, known := ?_ } <;>
        dsimp only <;> rw [hchan]
      · exact hkeep.bound
      · exact mem_record_self
      · exact hkeep.fresh
      · exact hkeep.taken
      · exact hkeep.known
  · rcases Side.eq_or_other x y with rfl | rfl
    · change p ∈ (s.session.put y t out).net y at hp
      rw [Session.put_net_self] at hp
      rcases List.mem_append.mp hp with hp | hp
      · exact ⟨hgrow y p.pin (i.sent y p hp).1, (i.sent y p hp).2⟩
      · rw [Option.mem_toList.mp hp] at h
        obtain ⟨hpin, hne⟩ := Transport.act_sent (i.account y).bound h
        rw [hpin]
        exact ⟨hgrow y _ ((i.account y).own hne), hne⟩
    · change p ∈ (s.session.put x t out).net x.other at hp
      rw [Session.put_net_of_ne x.other_ne] at hp
      exact ⟨hgrow x.other p.pin (i.sent x.other p hp).1, (i.sent x.other p hp).2⟩

theorem Inv.step {s s' : Network} (i : Inv s) {a : Act} (h : s.step a = some s') : Inv s' := by
  cases a with
  | within a =>
    obtain ⟨_, h⟩ := Option.ite_none_right_eq_some.mp h
    obtain ⟨w, hw, rfl⟩ := Option.map_eq_some_iff.mp h
    cases a with
    | act x e =>
      obtain ⟨⟨hsound, hin⟩, hw⟩ := Option.ite_none_right_eq_some.mp hw
      obtain ⟨⟨t, out⟩, hact, rfl⟩ := Option.map_eq_some_iff.mp hw
      have hquiet : (s.session.chan x).greeting e = none := by
        cases e <;> first | rfl | cases hin
      refine i.put hsound ?_ hact ?_ rfl
      · rintro now p rfl
        cases hin
      · simp [hquiet, hear]
    | deliver x now n =>
      obtain ⟨p, hp, hw⟩ := Option.bind_eq_some_iff.mp hw
      obtain ⟨⟨t, out⟩, hact, rfl⟩ := Option.map_eq_some_iff.mp hw
      refine i.put rfl ?_ hact ?_ ?_
      · intro _ _ heq
        cases heq
        exact i.sent x.other p (List.mem_of_getElem? hp)
      · simp [hear, hp]
      · simp [hear, x.other_ne]
    | lose x n =>
      cases hw
      have hsame : ∀ y, record (s.pins y) (s.session.chan y) = s.pins y := by
        intro y
        unfold record
        split
        · rfl
        · next hno =>
          obtain ⟨hne, hmem⟩ := not_or.mp hno
          exact absurd ((i.account y).own hne) hmem
      refine ⟨fun y => ?_, fun y p hp => ?_⟩
      · simpa [hsame, hear] using i.account y
      · have hmem : p ∈ s.session.net y := by
          dsimp only at hp
          split at hp
          · exact List.mem_of_mem_eraseIdx hp
          · exact hp
        simpa [hsame] using i.sent y p hmem
  | restart x q =>
    cases h
    refine ⟨fun y => ?_, i.sent⟩
    by_cases hy : y = x
    · simpa [hy] using Account.create (s.pins x) (s.pins x.other) q
    · simpa [hy] using i.account y

theorem Reachable.inv {q : Side → Qos} {s : Network} (h : (system q).Reachable s) : Inv s := by
  refine h.invariant ?_ fun _ _ _ _ i hstep => i.step hstep
  rintro s rfl
  exact ⟨fun x => .create _ _ _, fun x p hp => absurd hp List.not_mem_nil⟩

/-- Two linked channels, the first linked with the second: the first took a greeting of the
second, the second is linked with an instance of the first's endpoint, and it is linked with the
first exactly when it took a greeting of the first. -/
theorem linked_iff_greeted {q : Side → Qos} {s : Network} (h : (system q).Reachable s) (x : Side)
    (hx : (s.session.chan x).connector.status = .linked)
    (hpeer : (s.session.chan x).connector.remotePin =
      (s.session.chan x.other).connector.localPin)
    (hy : (s.session.chan x.other).connector.status = .linked) :
    (s.session.chan x.other).connector.localPin ∈ s.greeted x ∧
      (s.session.chan x.other).connector.remotePin ∈ s.pins x ∧
      ((s.session.chan x.other).connector.remotePin = (s.session.chan x).connector.localPin ↔
        (s.session.chan x).connector.localPin ∈ s.greeted x.other) := by
  have i := Reachable.inv h
  have hrank : ∀ y, (s.session.chan y).connector.status = .linked →
      (s.session.chan y).connector.status.rank ≤ 3 := by
    intro y hl
    rw [hl]
    decide
  have hself := (i.account x).known (hrank x hx) ((i.account x).bound.linked hx)
  have hother :=
    (i.account x.other).known (hrank x.other hy) ((i.account x.other).bound.linked hy)
  have hpins := ((i.account x.other).heard _ hother).1
  rw [Side.other_other] at hpins
  refine ⟨hpeer ▸ hself, hpins, fun heq => heq ▸ hother, ?_⟩
  exact (i.account x.other).taken (hrank x.other hy) _

/-- The acts by which two fresh channels link. -/
theorem linked_iff_greeted_handshake :
    ∃ s, (system fun _ => .default).Reachable s ∧
      (s.session.chan .left).connector.status = .linked ∧ s.greeted .right = [1] ∧
      (s.session.chan .right).connector.remotePin = (s.session.chan .left).connector.localPin := by
  obtain ⟨s, hreach, hv⟩ := System.exists_of_run (S := system fun _ => .default)
    (Session.handshake.map .within) rfl
    (f := fun s => decide ((s.session.chan .left).connector.status = .linked ∧
      (s.session.chan .left).connector.remotePin = (s.session.chan .right).connector.localPin ∧
      (s.session.chan .right).connector.status = .linked ∧ s.greeted .right = [1] ∧
      (s.session.chan .left).connector.localPin = 1))
    (v := true) (by decide +kernel)
  obtain ⟨hl, hpeer, hr, hgreeted, hpin⟩ := of_decide_eq_true hv
  refine ⟨s, hreach, hl, hgreeted, (linked_iff_greeted hreach .left hl hpeer hr).2.2.mpr ?_⟩
  show _ ∈ s.greeted .right
  rw [hgreeted, hpin]
  decide

/-- The left endpoint connects with pin 1, sends its `link` and is started over, now with pin 3.
The right one accepts with pin 2, takes the `link` of pin 1 and answers. The answer links the left
one with pin 2, which is linked with pin 1. -/
theorem stale_greeting :
    ∃ s, (system fun _ => .default).Reachable s ∧
      (s.session.chan .left).connector.status = .linked ∧
      (s.session.chan .left).connector.localPin = 3 ∧
      (s.session.chan .left).connector.remotePin = (s.session.chan .right).connector.localPin ∧
      (s.session.chan .right).connector.status = .linked ∧
      (s.session.chan .right).connector.remotePin = 1 := by
  obtain ⟨s, hreach, hv⟩ := System.exists_of_run (S := system fun _ => .default)
    [.within (.act .left .openAt), .within (.act .left (.connect 1 1 1 .success)),
      .within (.act .left (.produce ⟨2, 2, 2⟩)), .restart .left .default,
      .within (.act .left .openAt), .within (.act .left (.connect 3 3 3 .success)),
      .within (.act .right .openAt), .within (.act .right (.accept 3 2 2 .success)),
      .within (.deliver .right 4 0), .within (.act .right (.produce ⟨5, 5, 5⟩)),
      .within (.deliver .left 6 0)] rfl
    (f := fun s => decide ((s.session.chan .left).connector.status = .linked ∧
      (s.session.chan .left).connector.localPin = 3 ∧
      (s.session.chan .left).connector.remotePin = (s.session.chan .right).connector.localPin ∧
      (s.session.chan .right).connector.status = .linked ∧
      (s.session.chan .right).connector.remotePin = 1))
    (v := true) (by decide +kernel)
  exact ⟨s, hreach, of_decide_eq_true hv⟩

end Network

end Tubus.Udp
