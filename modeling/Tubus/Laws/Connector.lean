import Tubus.Laws.Transport
import Tubus.Udp.Session

/-!
# What the connector keeps

A connector that has not started owes nothing and knows no one (`Bound.fresh`). One that accepts
owes a `link|echo` only after it took a `link`, and so knows its peer; and a linked connector
knows its peer. All of this asks for packets whose pin is not zero, the value that stands for no
peer.
-/

namespace Tubus.Udp

open Lib

/-- The packets fed carry a pin. -/
def Event.stamped : Event → Bool
  | .feed _ p => decide (p.pin ≠ 0)
  | .openAt | .connect _ _ _ _ | .accept _ _ _ _ | .shutdown _ _ | .mistake _ | .read _ _
  | .write _ _ | .consume | .produce _ => true

namespace Connector

/-- What a connector keeps at every moment. -/
structure Bound (c : Connector) : Prop where
  fresh : c.status.rank ≤ 1 → c.jobs.entries = [] ∧ c.remotePin = 0 ∧ c.localPin = 0
  named : 2 ≤ c.status.rank → c.status.rank ≤ 4 → c.localPin ≠ 0
  accepting : c.status = .accepting → .linkEcho ∈ c.jobs.keys → c.remotePin ≠ 0
  linked : c.status = .linked → c.remotePin ≠ 0

variable {c : Connector}

/-! ## Sections -/

theorem take_localPin (q : Qos) (pin : Nat) (s : Section) :
    (c.take q pin s).localPin = c.localPin := by
  have h := take_took q pin c s
  generalize c.take q pin s = c' at h ⊢
  cases h <;> rfl

theorem parse_localPin (q : Qos) (now : Time) (p : Packet) :
    (c.parse q now p).localPin = c.localPin :=
  parse_induct (P := fun c' => c'.localPin = c.localPin)
    (fun c' s _ h => (c'.take_localPin q p.pin s).trans h) rfl

/-- A section leaves the peer alone, or makes the sender of the packet the peer. -/
theorem take_remotePin (q : Qos) (pin : Nat) (s : Section) :
    (c.take q pin s).remotePin = c.remotePin ∨ (c.take q pin s).remotePin = pin := by
  have h := take_took q pin c s
  generalize c.take q pin s = c' at h ⊢
  cases h with
  | link =>
    dsimp only
    split
    · exact .inr rfl
    · exact .inl rfl
  | linked => exact .inr rfl
  | tearing | tear | finished | ping | pingEcho | quiet => exact .inl rfl

theorem parse_remotePin (q : Qos) (now : Time) (p : Packet) :
    (c.parse q now p).remotePin = c.remotePin ∨ (c.parse q now p).remotePin = p.pin := by
  refine parse_induct (P := fun c' => c'.remotePin = c.remotePin ∨ c'.remotePin = p.pin) ?_
    (.inl rfl)
  intro c' s _ h
  rcases c'.take_remotePin q p.pin s with heq | heq
  · rw [heq]
    exact h
  · exact .inr heq

theorem admits_iff {pin : Nat} :
    c.admits pin = true ↔ c.localPin ≠ 0 ∧ (c.remotePin = 0 ∨ c.remotePin = pin) := by
  simp [admits]

/-- A peer that is known stays the peer. -/
theorem parse_remotePin_of_known (q : Qos) (now : Time) {p : Packet} (h : c.admits p.pin = true)
    (hknown : c.remotePin ≠ 0) : (c.parse q now p).remotePin = c.remotePin := by
  rcases c.parse_remotePin q now p with heq | heq
  · exact heq
  · rcases (admits_iff.mp h).2 with hzero | hsame
    · exact absurd hzero hknown
    · rw [heq, hsame]

/-- To write a job queues no other. -/
theorem wrote_keys (now : Time) (job : Job) {j : Job} (hj : j ∈ (c.wrote now job).jobs.keys) :
    j ∈ c.jobs.keys := by
  have h := wrote_wrote now c job
  generalize c.wrote now job = c' at h hj
  cases h with
  | linked | linkEcho | pingEcho | finished => exact (SortedMap.mem_keys_erase.mp hj).1
  | again =>
    rw [SortedMap.keys_modify] at hj
    exact hj

namespace Bound

theorem create : Bound .create where
  fresh _ := ⟨rfl, rfl, rfl⟩
  named h _ := absurd h (by decide)
  accepting h := by cases h
  linked h := by cases h

/-- One section of a packet that carries a pin, in a connector that has started. -/
theorem take (b : Bound c) (q : Qos) {pin : Nat} (hpin : pin ≠ 0) (hstarted : 2 ≤ c.status.rank)
    (s : Section) : Bound (c.take q pin s) := by
  have hrank := c.take_rank q pin s
  have hlocal := c.take_localPin q pin s
  refine ⟨fun h => absurd h (by omega), ?_, ?_, ?_⟩
  · intro _ hle
    rw [hlocal]
    exact b.named hstarted (by omega)
  · have h := take_took q pin c s
    generalize c.take q pin s = c' at h ⊢
    intro hacc hk
    cases h with
    | link =>
      show (if c.status = .accepting then pin else c.remotePin) ≠ 0
      rw [if_pos hacc]
      exact hpin
    | linked => cases hacc
    | tearing => cases hacc
    | tear =>
      have hback := (SortedMap.mem_keys_emplace.mp hk).resolve_right Job.noConfusion
      exact b.accepting hacc hback
    | finished => cases hacc
    | ping v =>
      have hback := (SortedMap.mem_keys_emplace.mp hk).resolve_right Job.noConfusion
      exact b.accepting hacc hback
    | pingEcho v =>
      have hback := (SortedMap.mem_keys_emplace.mp hk).resolve_right Job.noConfusion
      exact b.accepting hacc (SortedMap.mem_keys_erase.mp hback).1
    | quiet => exact b.accepting hacc hk
  · have h := take_took q pin c s
    generalize c.take q pin s = c' at h ⊢
    intro hl
    cases h with
    | link =>
      have hother : c.status ≠ .accepting := hl.trans_ne Status.noConfusion
      show (if c.status = .accepting then pin else c.remotePin) ≠ 0
      rw [if_neg hother]
      exact b.linked hl
    | linked => exact hpin
    | tearing => cases hl
    | finished => cases hl
    | tear | ping | pingEcho | quiet => exact b.linked hl

theorem parse (b : Bound c) (q : Qos) (now : Time) {p : Packet} (hpin : p.pin ≠ 0)
    (hadmits : c.admits p.pin = true) : Bound (c.parse q now p) := by
  have hstarted : 2 ≤ c.status.rank := by
    by_contra hlt
    exact (admits_iff.mp hadmits).1 (b.fresh (by omega)).2.2
  have hall : 2 ≤ (c.parse q now p).status.rank ∧ Bound (c.parse q now p) := by
    refine parse_induct (P := fun c' => 2 ≤ c'.status.rank ∧ Bound c') ?_ ⟨hstarted, { b with }⟩
    rintro c' s _ ⟨hs, b'⟩
    exact ⟨Nat.le_trans hs (c'.take_rank q p.pin s), b'.take q hpin hs s⟩
  exact hall.2

/-! ## Writing -/

theorem wrote (b : Bound c) (now : Time) {item : Job × Time} (hmem : item ∈ c.jobs.entries) :
    Bound (c.wrote now item.1) := by
  obtain ⟨job, time⟩ := item
  show Bound (c.wrote now job)
  have hstarted : ¬ c.status.rank ≤ 1 := by
    intro hle
    rw [(b.fresh hle).1] at hmem
    cases hmem
  have hrank := c.wrote_rank now job
  obtain ⟨hlocal, hremote, _⟩ := c.wrote_keeps now job
  have h := wrote_wrote now c job
  refine ⟨fun h => absurd h (by omega), fun _ hle => ?_, fun hacc hk => ?_, fun hl => ?_⟩
  · rw [hlocal]
    exact b.named (by omega) (by omega)
  · have hsame : c.status = .accepting := by
      generalize c.wrote now job = c' at h hacc
      cases h with
      | linked hc => exact hc
      | finished => cases hacc
      | linkEcho | pingEcho | again => exact hacc
    rw [hremote]
    exact b.accepting hsame (wrote_keys now job hk)
  · rw [hremote]
    generalize c.wrote now job = c' at h hl
    cases h with
    | linked hacc => exact b.accepting hacc (SortedMap.mem_keys.mpr ⟨time, hmem⟩)
    | finished => cases hl
    | linkEcho | pingEcho | again => exact b.linked hl

theorem imbue (b : Bound c) (q : Qos) (now : Time) (room : Nat) : Bound (c.imbue q now room).1 :=
  imbue_induct q now (P := fun c' _ => Bound c') (fun b => { b with })
    (fun _ _ _ hmem _ b => b.wrote now hmem) room b

theorem error (ec : Ec) : Bound (c.error ec) where
  fresh h := absurd h (show ¬ Status.finished.rank ≤ 1 by decide)
  named _ h := absurd h (show ¬ Status.finished.rank ≤ 4 by decide)
  accepting h := by cases h
  linked h := by cases h

/-- Every event keeps the connector bound, as long as packets carry a pin. -/
theorem turn {q : Qos} {e : Event} {c' : Connector} (b : Bound c) (hsound : e.sound = true)
    (hstamped : e.stamped = true) (h : c.Turn q e c') : Bound c' := by
  cases h with
  | quiet => exact b
  | init hc =>
    exact ⟨fun _ => b.fresh (by rw [hc]; exact Nat.zero_le _),
      fun hlt _ => absurd hlt (show ¬ 2 ≤ Status.initial.rank by decide),
      fun h => (by cases h), fun h => (by cases h)⟩
  | refuse => exact { b with }
  | connect now pin k _ hc =>
    simp only [Connector.connect, hc, if_true]
    exact ⟨fun hle => absurd hle (show ¬ Status.connecting.rank ≤ 1 by decide),
      fun _ _ => of_decide_eq_true hsound, fun h => (by cases h), fun h => (by cases h)⟩
  | accept now pin k _ hc =>
    simp only [Connector.accept, hc, if_true]
    refine ⟨fun hle => absurd hle (show ¬ Status.accepting.rank ≤ 1 by decide),
      fun _ _ => of_decide_eq_true hsound, fun _ hk => ?_, fun h => (by cases h)⟩
    -- nothing was queued before
    obtain ⟨time, ht⟩ := SortedMap.mem_keys.mp hk
    change _ ∈ c.jobs.entries at ht
    rw [(b.fresh (by rw [hc]; decide)).1] at ht
    cases ht
  | shutdown now k =>
    unfold Connector.shutdown
    split
    · exact { b with }
    · next hc =>
      exact ⟨fun hle => absurd hle (show ¬ Status.shutting.rank ≤ 1 by decide),
        fun _ _ => b.named (by rw [hc]; decide) (by rw [hc]; decide),
        fun h => (by cases h), fun h => (by cases h)⟩
    · exact { b with }
    · exact { b with }
    · exact { b with }
  | error ec => exact .error ec
  | parse now p admits => exact b.parse q now (of_decide_eq_true hstamped) admits
  | imbue k room => exact b.imbue q k.connector room

end Bound

theorem shutdown_pins (q : Qos) (now : Time) (k : Handler) :
    (c.shutdown q now k).localPin = c.localPin ∧
      (c.shutdown q now k).remotePin = c.remotePin := by
  unfold shutdown
  split <;> exact ⟨rfl, rfl⟩

/-- What an event does to the pins: an admitted packet may name the peer, nothing else does, and
the end of the channel forgets both. -/
theorem Turn.pins {q : Qos} {e : Event} {c' : Connector} (h : c.Turn q e c') :
    ((c.status = .initial ∨ c'.localPin = c.localPin) ∧
      ((c'.remotePin = c.remotePin ∧ ∀ now p, e = .feed now p → c.admits p.pin = false) ∨
        ∃ now p, e = .feed now p ∧ c.admits p.pin = true ∧
          c'.remotePin = (c.parse q now p).remotePin)) ∨
    (c'.localPin = 0 ∧ c'.status = .finished) := by
  cases h with
  | quiet _ unheard => exact .inl ⟨.inr rfl, .inl ⟨rfl, unheard⟩⟩
  | init => exact .inl ⟨.inr rfl, .inl ⟨rfl, fun _ _ he => (by cases he)⟩⟩
  | refuse k ec event =>
    refine .inl ⟨.inr rfl, .inl ⟨rfl, fun now p he => ?_⟩⟩
    obtain ⟨_, _, _, rfl | rfl⟩ := event <;> cases he
  | connect now pin k _ hc =>
    simp only [Connector.connect, hc, if_true]
    exact .inl ⟨.inl trivial, .inl ⟨trivial, fun _ _ he => (by cases he)⟩⟩
  | accept now pin k _ hc =>
    simp only [Connector.accept, hc, if_true]
    exact .inl ⟨.inl trivial, .inl ⟨trivial, fun _ _ he => (by cases he)⟩⟩
  | shutdown now k =>
    obtain ⟨hl, hr⟩ := c.shutdown_pins q now k
    exact .inl ⟨.inr hl, .inl ⟨hr, fun _ _ he => (by cases he)⟩⟩
  | error ec => exact .inr ⟨rfl, rfl⟩
  | parse now p admits =>
    exact .inl ⟨.inr (c.parse_localPin q now p), .inr ⟨now, p, rfl, admits, rfl⟩⟩
  | imbue k room =>
    obtain ⟨hl, hr, _⟩ := c.imbue_keeps q k.connector room
    exact .inl ⟨.inr hl, .inl ⟨hr, fun _ _ he => (by cases he)⟩⟩

end Connector

namespace Transport

variable {t t' : Transport} {out : Option Packet}

/-- Every event keeps the connector bound, as long as packets carry a pin. -/
theorem act_bound {e : Event} (hsound : e.sound = true) (hstamped : e.stamped = true)
    (h : t.act e = some (t', out)) (b : t.connector.Bound) : t'.connector.Bound :=
  b.turn hsound hstamped (act_turn h)

/-- What an event does to the pins of a channel: an admitted packet may name the peer, nothing
else does, and the end of the channel forgets both. -/
theorem act_pins {e : Event} (h : t.act e = some (t', out)) :
    ((t.connector.status = .initial ∨ t'.connector.localPin = t.connector.localPin) ∧
      ((t'.connector.remotePin = t.connector.remotePin ∧ ∀ p, ¬ t.Fed e p) ∨
        ∃ now p, e = .feed now p ∧ t.connector.admits p.pin = true ∧
          t'.connector.remotePin = (t.connector.parse t.qos now p).remotePin)) ∨
    (t'.connector.localPin = 0 ∧ t'.connector.status = .finished) := by
  refine (act_turn h).pins.imp_left (And.imp_right (Or.imp_left (And.imp_right ?_)))
  rintro unheard p ⟨⟨now, rfl⟩, hadmits⟩
  rw [unheard now p rfl] at hadmits
  cases hadmits

end Transport

end Tubus.Udp
