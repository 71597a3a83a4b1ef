import Tubus.Laws.Lifecycle
import Tubus.Udp.Session

/-!
# Shutdown agreement

A `tear` is sent only by a channel that has begun to shut down, and a `tear|echo` only by one that
is finished by it. So whoever answers a tear, or is answered, has a peer that is past `linked`:
the packets on their way and the jobs that are queued carry that knowledge from one side to the
other (`Session.Parting`).
-/

namespace Tubus.Udp

open Lib

namespace Connector

variable {q : Qos} {w : Prop} {f : Section → Prop} {given lost : List Handler} {c c' : Connector}

/-- Where a job comes from: the `tear` from a shutdown, and its echo from a `tear` taken. -/
theorem Move.added (h : Move q w f given lost c c') {j : Job} (hj : j ∈ c'.jobs.keys) :
    j ∈ c.jobs.keys ∨ ((j = .tear → c'.status = .shutting) ∧ (j = .tearEcho → f .tear)) := by
  have hemplace : ∀ (m : SortedMap Job Time) (j' : Job) (time : Time),
      j ∈ (m.emplace j' time).keys → j ∈ m.keys ∨ j = j' :=
    fun _ _ _ hk => SortedMap.mem_keys_emplace.mp hk
  have herase : ∀ (m : SortedMap Job Time) (j' : Job), j ∈ (m.erase j').keys → j ∈ m.keys :=
    fun _ _ hk => (SortedMap.mem_keys_erase.mp hk).1
  cases h with
  | init => exact .inl hj
  | hear => exact .inl hj
  | @take _ pin s hs =>
    have htook := take_took q pin c s
    generalize c.take q pin s = c₁ at htook hj ⊢
    cases htook with
    | link =>
      rcases hemplace _ _ _ hj with hj | rfl
      · exact .inl hj
      · exact .inr ⟨fun h => (by cases h), fun h => (by cases h)⟩
    | linked =>
      rcases hemplace _ _ _ hj with hj | rfl
      · exact .inl (herase _ _ hj)
      · exact .inr ⟨fun h => (by cases h), fun h => (by cases h)⟩
    | tearing | tear =>
      rcases hemplace _ _ _ hj with hj | rfl
      · exact .inl hj
      · exact .inr ⟨fun h => (by cases h), fun _ => hs⟩
    | finished => exact .inl (herase _ _ hj)
    | ping v =>
      rcases hemplace _ _ _ hj with hj | rfl
      · exact .inl hj
      · exact .inr ⟨fun h => (by cases h), fun h => (by cases h)⟩
    | pingEcho v =>
      rcases hemplace _ _ _ hj with hj | rfl
      · exact .inl (herase _ _ hj)
      · exact .inr ⟨fun h => (by cases h), fun h => (by cases h)⟩
    | quiet => exact .inl hj
  | giveUp => exact .inl hj
  | wrote _ now item => exact .inl (wrote_keys now item.1 hj)
  | refuse => exact .inl hj
  | connect now k hpin hc =>
    rw [Connector.connect, if_pos hc] at hj
    rcases hemplace _ _ _ hj with hj | rfl
    · exact .inl hj
    · exact .inr ⟨fun h => (by cases h), fun h => (by cases h)⟩
  | accept now k hpin hc =>
    rw [Connector.accept, if_pos hc] at hj
    exact .inl hj
  | shutdown _ now k =>
    unfold Connector.shutdown at hj ⊢
    split at hj
    · exact .inl hj
    · rcases hemplace _ _ _ hj with hj | rfl
      · exact .inl hj
      · exact .inr ⟨fun _ => rfl, fun h => (by cases h)⟩
    · exact .inl hj
    · exact .inl hj
    · exact .inl hj
  | error => cases hj

theorem Moves.tear (h : Moves q w f given lost c c')
    (hc : .tear ∈ c.jobs.keys → 4 ≤ c.status.rank) :
    .tear ∈ c'.jobs.keys → 4 ≤ c'.status.rank := by
  refine h.induct (P := fun c => .tear ∈ c.jobs.keys → 4 ≤ c.status.rank) ?_ hc
  intro _ _ c₁ c₂ hmove h₁ hj
  rcases hmove.added hj with hj | ⟨hshut, _⟩
  · have hrank := h₁ hj
    rcases hmove.forward with heq | hlt
    · rw [heq]
      exact hrank
    · omega
  · rw [hshut rfl]
    decide

theorem Moves.tearEcho (h : Moves q w f given lost c c') :
    .tearEcho ∈ c'.jobs.keys → .tearEcho ∈ c.jobs.keys ∨ f .tear := by
  refine h.induct (P := fun c' => .tearEcho ∈ c'.jobs.keys → .tearEcho ∈ c.jobs.keys ∨ f .tear)
    ?_ .inl
  intro _ _ c₁ c₂ hmove h₁ hj
  rcases hmove.added hj with hj | ⟨_, hecho⟩
  · exact h₁ hj
  · exact .inr (hecho rfl)

/-- How often the handler of a shutdown was told of its success. -/
def told (k : Handler) (c : Connector) : Nat := c.posts.count (.handler (some k) .success)

theorem told_post {k : Handler} {p : Post} (h : p ≠ .handler (some k) .success) :
    (c.post p).told k = c.told k := by
  rw [told, post, List.count_append, List.count_singleton, beq_eq_false_iff_ne.mpr h]
  rfl

theorem told_postIf {k : Handler} {callback : Option Handler} {ec : Ec} (h : ec ≠ .success) :
    (c.postIf callback ec).told k = c.told k := by
  unfold postIf
  split
  · refine told_post fun heq => ?_
    cases heq
    exact h rfl
  · rfl

/-- In a channel that is closing, only an answer to a tear, taken or written, tells of success. -/
theorem Move.told {k : Handler} (h : Move q w f [] lost c c') (hrank : 4 ≤ c.status.rank)
    (hf : ¬ f .tearEcho) (hw : w → .tearEcho ∉ c.jobs.keys) : c'.told k = c.told k := by
  have hother : ∀ s : Status, s.rank < 4 → c.status ≠ s := by
    rintro s hlt rfl
    omega
  generalize hg : ([] : List Handler) = given at h
  cases h with
  | init hc => exact absurd hc (hother _ (by decide))
  | hear => rfl
  | @take _ pin s hs =>
    have htook := take_took q pin c s
    generalize c.take q pin s = c₁ at htook ⊢
    cases htook with
    | linked hc => exact absurd hc (hother _ (by decide))
    | finished => exact absurd hs hf
    | link | tearing | tear | ping | pingEcho | quiet => rfl
  | giveUp => exact told_post Post.noConfusion
  | wrote hw' now item queued =>
    obtain ⟨job, time⟩ := item
    have hwrote := wrote_wrote now c job
    generalize c.wrote now job = c₁ at hwrote ⊢
    cases hwrote with
    | linked hc => exact absurd hc (hother _ (by decide))
    | finished => exact absurd (SortedMap.mem_keys.mpr ⟨time, queued⟩) (hw hw')
    | linkEcho | pingEcho | again => rfl
  | refuse => cases hg
  | connect => cases hg
  | accept => cases hg
  | shutdown => cases hg
  | error _ fails => exact (told_postIf fails).trans (told_postIf fails)

theorem Moves.told {k : Handler} (h : Moves q w f [] lost c c') (hrank : 4 ≤ c.status.rank)
    (hf : ¬ f .tearEcho) (hw : w → .tearEcho ∉ c.jobs.keys ∧ ¬ f .tear) :
    c'.told k = c.told k := by
  generalize hg : ([] : List Handler) = given at h
  induction h with
  | refl => rfl
  | @tail given given' lost lost' c₀ c₁ c₂ hmoves hmove ih =>
    obtain ⟨rfl, rfl⟩ := List.append_eq_nil_iff.mp hg.symm
    have hrank' : 4 ≤ c₁.status.rank := by
      rcases hmoves.forward with heq | hlt
      · rw [heq]
        exact hrank
      · omega
    refine (hmove.told hrank' hf fun hw' hmem => ?_).trans (ih hrank hw rfl)
    exact (hmoves.tearEcho hmem).elim (hw hw').1 (hw hw').2

/-- What a round writes: an answer to a tear finishes the connection, and a tear was queued. -/
theorem imbue_writes (now : Time) (room : Nat) :
    (.tearEcho ∈ (c.imbue q now room).2 → (c.imbue q now room).1.status = .finished) ∧
      (.tear ∈ (c.imbue q now room).2 → .tear ∈ c.jobs.keys) := by
  have hall := imbue_induct q now (c := c)
    (P := fun c' l => (∀ j, j ∈ c'.jobs.keys → j ∈ c.jobs.keys) ∧
      (Section.tearEcho ∈ l → c'.status = .finished) ∧
      (Section.tear ∈ l → Job.tear ∈ c.jobs.keys))
    (fun h => h) ?_ room
    ⟨fun _ h => h, fun h => absurd h List.not_mem_nil, fun h => absurd h List.not_mem_nil⟩
  · exact hall.2
  · rintro c' l ⟨job, time⟩ hmem _ ⟨hkeys, hecho, htear⟩
    have hjob := hkeys job (SortedMap.mem_keys.mpr ⟨time, hmem⟩)
    refine ⟨fun j hj => hkeys j (wrote_keys now job hj), fun h => ?_, fun h => ?_⟩
    · rcases List.mem_append.mp h with h | h
      · have hrank := c'.wrote_rank now job
        rw [hecho h] at hrank
        revert hrank
        cases (c'.wrote now job).status <;> decide
      · cases job with
        | tearEcho => rfl
        | _ => exact absurd (List.mem_singleton.mp h) Section.noConfusion
    · rcases List.mem_append.mp h with h | h
      · exact htear h
      · cases job with
        | tear => exact hjob
        | _ => exact absurd (List.mem_singleton.mp h) Section.noConfusion

end Connector

/-! ## The packets of a round -/

theorem Istreamer.imbue_forSource (now : Time) (resend : Int) (room : Nat) (i : Istreamer) :
    ∀ x ∈ (i.imbue now resend room).2, x.forSource = true := by
  intro x hx
  obtain ⟨v, -, rfl⟩ | rfl := i.imbue_sections now resend room x hx
  · rfl
  · rfl

theorem Ostreamer.imbue_forSink (q : Qos) (now : Time) (resend : Int) (room : Nat)
    (o : Ostreamer) : ∀ x ∈ (o.imbue q now resend room).2.1, x.forSink = true := by
  refine imbue_induct q now resend (P := fun _ l => ∀ x ∈ l, x.forSink = true) ?_ room
    (fun x hx => absurd hx List.not_mem_nil)
  intro _ l _ _ hstep hl
  have hmore : ∀ more : List Section, (∀ x ∈ more, x.forSink = true) →
      ∀ x ∈ l ++ more, x.forSink = true := by
    intro more hall x hx
    rcases List.mem_append.mp hx with hx | hx
    · exact hl x hx
    · exact hall x hx
  cases hstep with
  | again => exact hmore _ fun x hx => by rw [List.mem_singleton.mp hx]; rfl
  | giveUp => exact hl
  | fresh => exact hmore _ fun x hx => by rw [List.mem_singleton.mp hx]; rfl
  | echo owed _ =>
    refine hmore _ fun x hx => ?_
    obtain ⟨v, _, rfl⟩ := owed x hx
    rfl

namespace Transport

variable {t t' : Transport}

/-- What is for neither streamer was written by the connector. -/
theorem act_writes {e : Event} {p : Packet} (h : t.act e = some (t', some p)) :
    (.tearEcho ∈ p.body → t'.connector.status = .finished) ∧
      (.tear ∈ p.body → .tear ∈ t.connector.jobs.keys) := by
  cases e with
  | produce k =>
    rcases produce_cases h with
      ⟨_, _, hout⟩ | ⟨_, room, ⟨_, roomI, roomO, ht, hout⟩ | ⟨_, ht, hout⟩⟩
    · cases hout
    · have hfirst : ∀ s : Section, s.forSource = false → s.forSink = false → s ∈ p.body →
          s ∈ (t.connector.imbue t.qos k.connector room).2 := by
        intro s hsource hsink hs
        rw [hout p rfl] at hs
        rcases List.mem_append.mp hs with hs | hs
        · rcases List.mem_append.mp hs with hs | hs
          · exact hs
          · have hyes := Istreamer.imbue_forSource _ _ _ _ s hs
            rw [hsource] at hyes
            cases hyes
        · have hyes := Ostreamer.imbue_forSink _ _ _ _ _ s hs
          rw [hsink] at hyes
          cases hyes
      obtain ⟨hecho, htear⟩ := t.connector.imbue_writes (q := t.qos) k.connector room
      rw [ht]
      exact ⟨fun hs => hecho (hfirst _ rfl rfl hs), fun hs => htear (hfirst _ rfl rfl hs)⟩
    · obtain ⟨hecho, htear⟩ := t.connector.imbue_writes (q := t.qos) k.connector room
      rw [hout p rfl, ht]
      exact ⟨hecho, htear⟩
  | read buffer k =>
    obtain ⟨_, _, heq⟩ := Option.map_eq_some_iff.mp h
    cases heq
  | feed now p =>
    obtain ⟨_, _, heq⟩ := Option.map_eq_some_iff.mp h
    cases heq
  | _ => cases h

end Transport

/-! ## Sessions -/

namespace Session

/-- What is queued and on its way tells of the state of its sender. -/
structure Parting (s : Session) : Prop where
  armed : ∀ x, (s.chan x).connector.Armed
  tearJob : ∀ x, .tear ∈ (s.chan x).connector.jobs.keys → 4 ≤ (s.chan x).connector.status.rank
  echoJob : ∀ x, .tearEcho ∈ (s.chan x).connector.jobs.keys →
    4 ≤ (s.chan x.other).connector.status.rank
  tearSent : ∀ x, ∀ p ∈ s.net x, .tear ∈ p.body → 4 ≤ (s.chan x).connector.status.rank
  echoSent : ∀ x, ∀ p ∈ s.net x, .tearEcho ∈ p.body → (s.chan x).connector.status = .finished

theorem Parting.put {s : Session} (i : Parting s) {x : Side} {e : Event} {t : Transport}
    {out : Option Packet} (hsound : e.sound = true) (h : (s.chan x).act e = some (t, out))
    (hcarried : e.Carries .tear → 4 ≤ (s.chan x.other).connector.status.rank) :
    Parting (s.put x t out) := by
  have hmoves := Transport.act_moves hsound h
  have hrank := Transport.act_rank h
  have htear := hmoves.tear (i.tearJob x)
  -- both sides are as far as before
  have hmono : ∀ y n, n ≤ (s.chan y).connector.status.rank →
      n ≤ ((s.put x t out).chan y).connector.status.rank := by
    intro y n hn
    by_cases hy : y = x
    · subst hy
      rw [put_chan_self]
      exact Nat.le_trans hn hrank
    · rw [put_chan_of_ne hy]
      exact hn
  have hsent : ∀ p, out = some p → (.tearEcho ∈ p.body → t.connector.status = .finished) ∧
      (.tear ∈ p.body → .tear ∈ (s.chan x).connector.jobs.keys) := by
    rintro p rfl
    exact Transport.act_writes h
  refine ⟨fun y => ?_, fun y => ?_, fun y => ?_, fun y p hp hs => ?_, fun y p hp hs => ?_⟩
  · by_cases hy : y = x
    · subst hy
      rw [put_chan_self]
      exact hmoves.induct (fun _ _ _ _ h a => a.move h) (i.armed y)
    · rw [put_chan_of_ne hy]
      exact i.armed y
  · by_cases hy : y = x
    · subst hy
      rw [put_chan_self]
      exact htear
    · rw [put_chan_of_ne hy]
      exact i.tearJob y
  · intro hj
    apply hmono
    by_cases hy : y = x
    · subst hy
      rw [put_chan_self] at hj
      exact (hmoves.tearEcho hj).elim (i.echoJob y) hcarried
    · rw [put_chan_of_ne hy] at hj
      exact i.echoJob y hj
  · by_cases hy : y = x
    · subst hy
      rw [put_net_self] at hp
      rcases List.mem_append.mp hp with hp | hp
      · exact hmono y 4 (i.tearSent y p hp hs)
      · exact hmono y 4 (i.tearJob y ((hsent p (Option.mem_toList.mp hp)).2 hs))
    · rw [put_net_of_ne hy] at hp
      exact hmono y 4 (i.tearSent y p hp hs)
  · by_cases hy : y = x
    · subst hy
      rw [put_net_self] at hp
      rcases List.mem_append.mp hp with hp | hp
      · refine Status.finished_of_rank (hmono y _ ?_)
        rw [i.echoSent y p hp hs]
      · rw [put_chan_self]
        exact (hsent p (Option.mem_toList.mp hp)).1 hs
    · rw [put_net_of_ne hy] at hp
      refine Status.finished_of_rank (hmono y _ ?_)
      rw [i.echoSent y p hp hs]

theorem Parting.create (q : Side → Qos) : Parting (create q) where
  armed _ := .create
  tearJob _ h := by cases h
  echoJob _ h := by cases h
  tearSent _ p hp := by cases hp
  echoSent _ p hp := by cases hp

theorem Parting.step {s s' : Session} (i : Parting s) {a : Act} (h : s.step a = some s') :
    Parting s' := by
  cases a with
  | act x e =>
    obtain ⟨⟨hsound, hin⟩, h⟩ := Option.ite_none_right_eq_some.mp h
    obtain ⟨⟨t, out⟩, hact, rfl⟩ := Option.map_eq_some_iff.mp h
    refine i.put hsound hact ?_
    rintro ⟨now, p, rfl, _⟩
    cases hin
  | deliver x now n =>
    obtain ⟨p, hp, h⟩ := Option.bind_eq_some_iff.mp h
    obtain ⟨⟨t, out⟩, hact, rfl⟩ := Option.map_eq_some_iff.mp h
    refine i.put rfl hact ?_
    rintro ⟨_, _, heq, hs⟩
    cases heq
    exact i.tearSent _ p (List.mem_of_getElem? hp) hs
  | lose x n =>
    cases h
    have hnet : ∀ y p, p ∈ (if y = x then (s.net y).eraseIdx n else s.net y) → p ∈ s.net y := by
      intro y p hp
      split at hp
      · exact List.mem_of_mem_eraseIdx hp
      · exact hp
    exact { i with
      tearSent := fun y p hp => i.tearSent y p (hnet y p hp)
      echoSent := fun y p hp => i.echoSent y p (hnet y p hp) }

theorem Reachable.parting {q : Side → Qos} {s : Session} (h : (system q).Reachable s) :
    Parting s := by
  refine System.Reaches.invariant (P := Parting) ?_ ?_ h
  · rintro s rfl
    exact .create q
  · intro s a s' _ i hstep
    exact i.step hstep

/-- Does a side parse a packet or write one? -/
def Act.talks (x : Side) : Act → Bool
  | .deliver y _ _ => decide (y = x)
  | .act y (.produce _) => decide (y = x)
  | .act _ _ | .lose _ _ => false

/-- Whenever the handler of a shutdown is told of its success by a packet that is parsed or
written, the peer is shutting down, tearing down or finished. -/
theorem shutdown_agreed {q : Side → Qos} {s s' : Session} {x : Side} {k : Handler} {a : Act}
    (h : (system q).Reachable s) (hstep : s.step a = some s') (htalks : a.talks x = true)
    (hslot : (s.chan x).connector.onShutdown = some k)
    (htold : (s.chan x).connector.told k < (s'.chan x).connector.told k) :
    (s'.chan x.other).connector.status = .shutting ∨
      (s'.chan x.other).connector.status = .tearing ∨
      (s'.chan x.other).connector.status = .finished := by
  have i := Reachable.parting h
  have hrank : 4 ≤ (s.chan x).connector.status.rank :=
    Nat.le_of_eq ((i.armed x).shutdownSlot (by rw [hslot]; rfl)).symm
  have hover : ∀ {t : Transport} {out : Option Packet},
      4 ≤ (s.chan x.other).connector.status.rank →
      ((s.put x t out).chan x.other).connector.status = .shutting ∨
        ((s.put x t out).chan x.other).connector.status = .tearing ∨
        ((s.put x t out).chan x.other).connector.status = .finished := by
    intro t out hge
    rw [put_chan_of_ne x.other_ne]
    revert hge
    cases (s.chan x.other).connector.status <;> decide
  cases a with
  | act y e =>
    cases e with
    | produce c =>
      cases of_decide_eq_true htalks
      unfold step at hstep
      obtain ⟨⟨hsound, _⟩, hstep⟩ := Option.ite_none_right_eq_some.mp hstep
      obtain ⟨⟨t, out⟩, hact, rfl⟩ := Option.map_eq_some_iff.mp hstep
      apply hover
      by_cases hjob : .tearEcho ∈ (s.chan x).connector.jobs.keys
      · exact i.echoJob x hjob
      · have hsame := (Transport.act_moves hsound hact).told (k := k) hrank
          (by rintro ⟨_, _, heq, _⟩; cases heq)
          fun _ => ⟨hjob, by rintro ⟨_, _, heq, _⟩; cases heq⟩
        rw [put_chan_self, hsame] at htold
        exact absurd htold (Nat.lt_irrefl _)
    | _ => cases htalks
  | deliver y now n =>
    cases of_decide_eq_true htalks
    obtain ⟨p, hp, hstep⟩ := Option.bind_eq_some_iff.mp hstep
    obtain ⟨⟨t, out⟩, hact, rfl⟩ := Option.map_eq_some_iff.mp hstep
    apply hover
    by_cases hecho : .tearEcho ∈ p.body
    · rw [i.echoSent x.other p (List.mem_of_getElem? hp) hecho]
      decide
    · have hsame := (Transport.act_moves (e := .feed now p) rfl hact).told (k := k) hrank
        (by rintro ⟨_, _, heq, hs⟩; cases heq; exact hecho hs) fun hw => by cases hw
      rw [put_chan_self, hsame] at htold
      exact absurd htold (Nat.lt_irrefl _)
  | lose y n => cases htalks

/-- The left side shuts down, and is told so by the answer of the right side. -/
theorem shutdown_agreed_answer :
    ∃ s s', (system fun _ => .default).Reachable s ∧
      (s.chan .left).connector.onShutdown = some 9 ∧
      s.step (.deliver .left 10 1) = some s' ∧ (s'.chan .left).connector.told 9 = 1 ∧
      ((s'.chan .right).connector.status = .shutting ∨
        (s'.chan .right).connector.status = .tearing ∨
        (s'.chan .right).connector.status = .finished) := by
  obtain ⟨s, hs, hv⟩ := System.exists_of_run (S := system fun _ => .default)
    (f := fun s => ((s.chan .left).connector.onShutdown, (s.chan .left).connector.told 9,
      (s.step (.deliver .left 10 1)).map fun s' => (s'.chan .left).connector.told 9))
    (v := (some 9, 0, some 1))
    (handshake ++ [.act .left (.shutdown 6 9), .act .left (.produce ⟨7, 7, 7⟩),
      .deliver .right 8 1, .act .right (.produce ⟨9, 9, 9⟩)]) rfl (by decide +kernel)
  simp only [Prod.mk.injEq] at hv
  obtain ⟨hslot, hbefore, hstep⟩ := hv
  obtain ⟨s', hs', hafter⟩ := Option.map_eq_some_iff.mp hstep
  refine ⟨s, s', hs, hslot, hs', hafter, ?_⟩
  exact shutdown_agreed (x := .left) hs hs' rfl hslot (by rw [hbefore, hafter]; decide)

end Session

end Tubus.Udp
