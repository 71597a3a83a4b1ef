import Tubus.Laws.Connector

/-!
# The life of a connection

Every event changes the connector by a few moves of its own: a section taken, a job written, a
call of the user, an error (`Connector.Move`, `act_moves`). A move is labelled with the handlers
that come with it and with those that are overwritten by it, so that the account of handlers can
be kept along a run.

What holds at every moment is `Connector.Armed`. A connector that still needs an answer has its
handler stored and the job queued that asks for the answer.
-/

namespace Tubus.Udp

open Lib

theorem Status.finished_or_lt (s : Status) :
    Status.finished = s ∨ s.rank < Status.finished.rank := by
  cases s <;> decide

namespace Connector

/-- One move of the connector, with the handlers it is given and those it overwrites. Jobs are
written only where `w` holds, and sections taken only if they meet `f`. -/
inductive Move (q : Qos) (w : Prop) (f : Section → Prop) :
    List Handler → List Handler → Connector → Connector → Prop where
  | init {c : Connector} (hc : c.status = .neither) : Move q w f [] [] c c.init
  | hear (c : Connector) (now : Time) : Move q w f [] [] c { c with seen := now }
  | take {c : Connector} (pin : Nat) {s : Section} (hf : f s) (named : c.localPin ≠ 0) :
      Move q w f [] [] c (c.take q pin s)
  | giveUp {c : Connector} {now : Time} (late : c.timedOut q now = true) :
      Move q w f [] [] c (c.post (.error .interrupted))
  | wrote {c : Connector} (hw : w) (now : Time) (item : Job × Time)
      (queued : item ∈ c.jobs.entries) : Move q w f [] [] c (c.wrote now item.1)
  | refuse (c : Connector) (k : Handler) (ec : Ec) :
      Move q w f [k] [] c (c.post (.handler (some k) ec))
  | connect {c : Connector} (now : Time) {pin : Nat} (k : Handler) (hpin : pin ≠ 0)
      (hc : c.status = .initial) : Move q w f [k] [] c (c.connect q now pin k)
  | accept {c : Connector} (now : Time) {pin : Nat} (k : Handler) (hpin : pin ≠ 0)
      (hc : c.status = .initial) : Move q w f [k] [] c (c.accept q now pin k)
  | shutdown (c : Connector) (now : Time) (k : Handler) :
      Move q w f [k] (if c.status = .tearing then c.onShutdown.toList else []) c
        (c.shutdown q now k)
  | error (c : Connector) {ec : Ec} (fails : ec ≠ .success) : Move q w f [] [] c (c.error ec)

/-- Moves one after another. -/
inductive Moves (q : Qos) (w : Prop) (f : Section → Prop) :
    List Handler → List Handler → Connector → Connector → Prop where
  | refl (c : Connector) : Moves q w f [] [] c c
  | tail {given given' lost lost' : List Handler} {c c' c'' : Connector} :
      Moves q w f given lost c c' → Move q w f given' lost' c' c'' →
        Moves q w f (given ++ given') (lost ++ lost') c c''

variable {q : Qos} {w : Prop} {f : Section → Prop} {given lost : List Handler} {c c' : Connector}

theorem Move.single (h : Move q w f given lost c c') : Moves q w f given lost c c' :=
  (Moves.refl c).tail h

theorem Moves.trans {given' lost' : List Handler} {c'' : Connector}
    (h : Moves q w f given lost c c') (h' : Moves q w f given' lost' c' c'') :
    Moves q w f (given ++ given') (lost ++ lost') c c'' := by
  induction h' with
  | refl =>
    rw [List.append_nil, List.append_nil]
    exact h
  | tail _ hmove ih =>
    rw [← List.append_assoc, ← List.append_assoc]
    exact (ih h).tail hmove

theorem Move.mono {w' : Prop} {f' : Section → Prop} (h : Move q w f given lost c c')
    (hw : w → w') (hf : ∀ s, f s → f' s) : Move q w' f' given lost c c' := by
  cases h with
  | wrote hw' now item queued => exact .wrote (hw hw') now item queued
  | init hc => exact .init hc
  | hear => exact .hear c _
  | take pin hs named => exact .take pin (hf _ hs) named
  | giveUp late => exact .giveUp late
  | refuse => exact .refuse c _ _
  | connect now k hpin hc => exact .connect now k hpin hc
  | accept now k hpin hc => exact .accept now k hpin hc
  | shutdown => exact .shutdown c _ _
  | error _ fails => exact .error c fails

theorem Moves.mono {w' : Prop} {f' : Section → Prop} (h : Moves q w f given lost c c')
    (hw : w → w') (hf : ∀ s, f s → f' s) : Moves q w' f' given lost c c' := by
  induction h with
  | refl => exact .refl _
  | tail _ hmove ih => exact ih.tail (hmove.mono hw hf)

/-- What one move keeps, moves keep. -/
theorem Moves.induct {P : Connector → Prop}
    (step : ∀ given lost c c', Move q w f given lost c c' → P c → P c')
    (h : Moves q w f given lost c c') (hc : P c) : P c' := by
  induction h with
  | refl => exact hc
  | tail _ hmove ih => exact step _ _ _ _ hmove (ih hc)

/-- `parse` takes the sections one after another. -/
theorem parse_moves (now : Time) {p : Packet} (hf : ∀ s ∈ p.body, f s) (named : c.localPin ≠ 0) :
    Moves q w f [] [] c (c.parse q now p) := by
  have hall : Moves q w f [] [] c (c.parse q now p) ∧ (c.parse q now p).localPin = c.localPin := by
    refine parse_induct (P := fun c' => Moves q w f [] [] c c' ∧ c'.localPin = c.localPin) ?_
      ⟨(Move.hear c now).single, rfl⟩
    rintro c' s hs ⟨hmoves, hlocal⟩
    exact ⟨hmoves.tail (.take p.pin (hf s hs) (by rwa [hlocal])),
      (c'.take_localPin q p.pin s).trans hlocal⟩
  exact hall.1

/-- `imbue` writes queued jobs one after another, or gives up. -/
theorem imbue_moves (hw : w) (now : Time) (room : Nat) :
    Moves q w f [] [] c (c.imbue q now room).1 := by
  unfold imbue
  split
  · next hlate => exact (Move.giveUp hlate).single
  · exact imbueLoop_induct (P := fun c' _ => Moves q w f [] [] c c')
      (fun _ _ item hmem _ h => h.tail (.wrote hw now item hmem)) room room (l := []) (.refl c)

/-! ## One direction -/

/-- A move leaves the state or takes the connector on. -/
theorem Move.forward (h : Move q w f given lost c c') :
    c'.status = c.status ∨ c.status.rank < c'.status.rank := by
  cases h with
  | init hc =>
    rw [hc]
    exact .inr (Nat.zero_lt_one)
  | hear => exact .inl rfl
  | @take _ pin s =>
    have htook := take_took q pin c s
    generalize c.take q pin s = c₁ at htook ⊢
    cases htook with
    | linked hc =>
      rw [hc]
      exact .inr (show Status.connecting.rank < Status.linked.rank by decide)
    | tearing hc =>
      rw [hc]
      exact .inr (show Status.linked.rank < Status.tearing.rank by decide)
    | finished hc =>
      rw [hc]
      exact .inr (show Status.shutting.rank < Status.finished.rank by decide)
    | link | tear | ping | pingEcho | quiet => exact .inl rfl
  | giveUp => exact .inl rfl
  | wrote _ now item =>
    obtain ⟨job, time⟩ := item
    have hwrote := wrote_wrote now c job
    generalize c.wrote now job = c₁ at hwrote ⊢
    cases hwrote with
    | linked hc =>
      rw [hc]
      exact .inr (show Status.accepting.rank < Status.linked.rank by decide)
    | finished => exact c.status.finished_or_lt
    | linkEcho | pingEcho | again => exact .inl rfl
  | refuse => exact .inl rfl
  | connect now k hpin hc =>
    rw [Connector.connect, if_pos hc, hc]
    exact .inr (show Status.initial.rank < Status.connecting.rank by decide)
  | accept now k hpin hc =>
    rw [Connector.accept, if_pos hc, hc]
    exact .inr (show Status.initial.rank < Status.accepting.rank by decide)
  | shutdown now k =>
    unfold Connector.shutdown
    split
    · exact .inl rfl
    · next hc =>
      rw [hc]
      exact .inr (show Status.linked.rank < Status.shutting.rank by decide)
    · exact .inl rfl
    · exact .inl rfl
    · exact .inl rfl
  | error ec => exact c.status.finished_or_lt

theorem Moves.forward (h : Moves q w f given lost c c') :
    c'.status = c.status ∨ c.status.rank < c'.status.rank := by
  induction h with
  | refl => exact .inl rfl
  | tail _ hmove ih =>
    rcases hmove.forward with heq | hlt
    · rw [heq]
      exact ih
    · rcases ih with heq' | hlt'
      · rw [← heq']
        exact .inr hlt
      · exact .inr (hlt'.trans hlt)

/-! ## What is stored and queued -/

/-- What a connector keeps at every moment. -/
structure Armed (c : Connector) : Prop where
  fresh : c.status.rank ≤ 1 → c.localPin = 0 ∧ c.remotePin = 0 ∧ c.dead = maxDateTime
  accepting : c.status = .accepting → c.onConnect.isSome = true ∧ c.localPin ≠ 0 ∧
    (c.remotePin ≠ 0 → .linkEcho ∈ c.jobs.keys)
  connecting : c.status = .connecting → c.onConnect.isSome = true ∧ c.localPin ≠ 0 ∧
    .link ∈ c.jobs.keys
  shutting : c.status = .shutting → c.onShutdown.isSome = true ∧ .tear ∈ c.jobs.keys
  fallback : 1 ≤ c.status.rank → c.status ≠ .finished → c.onError = true
  connectSlot : c.onConnect.isSome = true → c.status.rank = 2 ∨ c.status = .finished
  shutdownSlot : c.onShutdown.isSome = true → c.status.rank = 4
  handlers : ∀ ec, .handler none ec ∉ c.posts

namespace Armed

theorem create : Armed .create where
  fresh _ := ⟨rfl, rfl, rfl⟩
  accepting h := by cases h
  connecting h := by cases h
  shutting h := by cases h
  fallback h := absurd h (show ¬ 1 ≤ Status.neither.rank by decide)
  connectSlot h := by cases h
  shutdownSlot h := by cases h
  handlers _ h := by cases h

/-- Jobs may come, and a ping or an echo of one may go. -/
theorem jobs (a : Armed c) (jobs : SortedMap Job Time)
    (h : ∀ j, j = .link ∨ j = .linkEcho ∨ j = .tear → j ∈ c.jobs.keys → j ∈ jobs.keys) :
    Armed { c with jobs := jobs } :=
  { a with
    accepting := fun hc => ⟨(a.accepting hc).1, (a.accepting hc).2.1,
      fun hr => h _ (.inr (.inl rfl)) ((a.accepting hc).2.2 hr)⟩
    connecting := fun hc => ⟨(a.connecting hc).1, (a.connecting hc).2.1,
      h _ (.inl rfl) (a.connecting hc).2.2⟩
    shutting := fun hc => ⟨(a.shutting hc).1, h _ (.inr (.inr rfl)) (a.shutting hc).2⟩ }

theorem emplace (a : Armed c) (j : Job) (t : Time) :
    Armed { c with jobs := c.jobs.emplace j t } :=
  a.jobs _ fun _ _ hk => SortedMap.mem_keys_emplace.mpr (.inl hk)

/-- Posting an error or a handler that is there. -/
theorem post (a : Armed c) {p : Post} (hp : ∀ ec, p ≠ .handler none ec) : Armed (c.post p) :=
  { a with
    handlers := fun ec hmem => by
      rcases List.mem_append.mp hmem with hmem | hmem
      · exact a.handlers ec hmem
      · exact hp ec (List.mem_singleton.mp hmem).symm }

theorem handlers_post (a : Armed c) {k : Option Handler} (hk : k.isSome = true) (ec ec' : Ec) :
    .handler none ec ∉ (c.post (.handler k ec')).posts := by
  refine (a.post (p := .handler k ec') ?_).handlers ec
  rintro ec'' heq
  cases heq
  cases hk

theorem handlers_postIf (a : Armed c) (k : Option Handler) (ec' : Ec) :
    Armed (c.postIf k ec') := by
  unfold postIf
  split
  · next hk =>
    refine a.post ?_
    rintro ec heq
    cases heq
    cases hk
  · exact a

/-- The connection is made: the handler was posted, and nothing more is asked. -/
theorem link (a : Armed c) (hst : c.status.rank = 2) (hk : c.onConnect.isSome = true) (pin : Nat)
    (jobs : SortedMap Job Time) :
    Armed { c.post (.handler c.onConnect .success) with
      status := .linked, dead := maxDateTime, remotePin := pin, jobs := jobs
      onConnect := none } where
  fresh h := absurd h (show ¬ Status.linked.rank ≤ 1 by decide)
  accepting h := by cases h
  connecting h := by cases h
  shutting h := by cases h
  fallback _ _ := by
    refine a.fallback (by omega) fun hfin => ?_
    rw [hfin] at hst
    cases hst
  connectSlot h := by cases h
  shutdownSlot h := by
    have hrank := a.shutdownSlot h
    omega
  handlers ec := a.handlers_post hk ec _

/-- The connection has ended, and the handler of the shutdown is no longer stored. -/
theorem finish (c : Connector) {posts : List Post} (hposts : ∀ ec, .handler none ec ∉ posts)
    (jobs : SortedMap Job Time) :
    Armed { c with posts := posts, status := .finished, jobs := jobs, onShutdown := none } where
  fresh h := absurd h (show ¬ Status.finished.rank ≤ 1 by decide)
  accepting h := by cases h
  connecting h := by cases h
  shutting h := by cases h
  fallback _ h := absurd rfl h
  connectSlot _ := .inr rfl
  shutdownSlot h := by cases h
  handlers := hposts

theorem take (a : Armed c) (pin : Nat) (named : c.localPin ≠ 0) (s : Section) :
    Armed (c.take q pin s) := by
  have h := take_took q pin c s
  generalize c.take q pin s = c' at h ⊢
  cases h with
  | link =>
    have hfresh : ¬ c.status.rank ≤ 1 := fun hle => named (a.fresh hle).1
    refine { a.emplace .linkEcho zeroTime with
      fresh := fun hle => absurd hle hfresh
      accepting := fun hc => ⟨(a.accepting hc).1, named, fun _ => ?_⟩ }
    exact SortedMap.mem_keys_emplace.mpr (.inr rfl)
  | linked hc => exact a.link (by rw [hc]; rfl) (a.connecting hc).1 pin _
  | tearing hc =>
    exact {
      fresh := fun h => absurd h (show ¬ Status.tearing.rank ≤ 1 by decide)
      accepting := fun h => by cases h
      connecting := fun h => by cases h
      shutting := fun h => by cases h
      fallback := fun _ _ =>
        a.fallback (by rw [hc]; decide) (by rw [hc]; exact Status.noConfusion)
      connectSlot := fun h => by
        have hslot := a.connectSlot h
        rw [hc] at hslot
        exact absurd hslot (by decide)
      shutdownSlot := fun _ => rfl
      handlers := a.handlers }
  | tear => exact a.emplace .tearEcho zeroTime
  | finished hc => exact .finish c (fun ec => a.handlers_post (a.shutting hc).1 ec _) _
  | ping v => exact a.emplace .pingEcho _
  | pingEcho v =>
    refine { (a.jobs ((c.jobs.erase .ping).emplace .ping (later c.seen q.pingTimeout)) ?_)
      with }
    intro j hj hk
    have hne : j ≠ .ping := by rcases hj with rfl | rfl | rfl <;> decide
    exact SortedMap.mem_keys_emplace.mpr (.inl (SortedMap.mem_keys_erase.mpr ⟨hk, hne⟩))
  | quiet => exact a

theorem wrote (a : Armed c) (now : Time) (job : Job) (queued : job ∈ c.jobs.keys) :
    Armed (c.wrote now job) := by
  have h := wrote_wrote now c job
  generalize c.wrote now job = c' at h ⊢
  cases h with
  | linked hc => exact a.link (by rw [hc]; rfl) (a.accepting hc).1 c.remotePin _
  | linkEcho hc =>
    refine { a with
      accepting := fun h => absurd h hc
      connecting := fun h => ⟨(a.connecting h).1, (a.connecting h).2.1, ?_⟩
      shutting := fun h => ⟨(a.shutting h).1, ?_⟩ }
    · exact SortedMap.mem_keys_erase.mpr ⟨(a.connecting h).2.2, by decide⟩
    · exact SortedMap.mem_keys_erase.mpr ⟨(a.shutting h).2, by decide⟩
  | pingEcho =>
    refine a.jobs _ fun j hj hk => SortedMap.mem_keys_erase.mpr ⟨hk, ?_⟩
    rcases hj with rfl | rfl | rfl <;> decide
  | finished =>
    have hposts := (a.handlers_postIf c.onShutdown .success).handlers
    simp only [postIf] at hposts ⊢
    split
    · next hk =>
      rw [if_pos hk] at hposts
      exact .finish c hposts _
    · exact .finish c a.handlers _
  | again =>
    refine a.jobs _ fun j _ hk => ?_
    rw [SortedMap.keys_modify]
    exact hk

theorem shutdown (a : Armed c) (now : Time) (k : Handler) : Armed (c.shutdown q now k) := by
  unfold Connector.shutdown
  have hrefuse : ∀ ec, Armed (c.post (.handler (some k) ec)) :=
    fun ec => a.post fun _ heq => by cases heq
  split
  · exact hrefuse _
  · next hc =>
    exact {
      fresh := fun h => absurd h (show ¬ Status.shutting.rank ≤ 1 by decide)
      accepting := fun h => by cases h
      connecting := fun h => by cases h
      shutting := fun _ => ⟨rfl, SortedMap.mem_keys_emplace.mpr (.inr rfl)⟩
      fallback := fun _ _ =>
        a.fallback (by rw [hc]; decide) (by rw [hc]; exact Status.noConfusion)
      connectSlot := fun h => by
        have hslot := a.connectSlot h
        rw [hc] at hslot
        exact absurd hslot (by decide)
      shutdownSlot := fun _ => rfl
      handlers := a.handlers }
  · next hc =>
    exact { a with
      fresh := fun h => by
        change c.status.rank ≤ 1 at h
        rw [hc] at h
        exact absurd h (by decide)
      shutting := fun h => by
        change c.status = .shutting at h
        rw [hc] at h
        cases h
      shutdownSlot := fun _ => by
        show c.status.rank = 4
        rw [hc]
        rfl }
  · exact hrefuse _
  · exact hrefuse _

theorem error (a : Armed c) (ec : Ec) : Armed (c.error ec) where
  fresh h := absurd h (show ¬ Status.finished.rank ≤ 1 by decide)
  accepting h := by cases h
  connecting h := by cases h
  shutting h := by cases h
  fallback _ h := absurd rfl h
  connectSlot h := by cases h
  shutdownSlot h := by cases h
  handlers := ((a.handlers_postIf c.onConnect ec).handlers_postIf c.onShutdown ec).handlers

/-- Every move keeps the connector armed. -/
theorem move (a : Armed c) (h : Move q w f given lost c c') : Armed c' := by
  cases h with
  | init hc =>
    have hslot := a.shutdownSlot
    have hslot' := a.connectSlot
    rw [hc] at hslot hslot'
    exact {
      fresh := fun _ => a.fresh (by rw [hc]; decide)
      accepting := fun h => by cases h
      connecting := fun h => by cases h
      shutting := fun h => by cases h
      fallback := fun _ _ => rfl
      connectSlot := fun h => absurd (hslot' h) (by decide)
      shutdownSlot := fun h => absurd (hslot h) (by decide)
      handlers := a.handlers }
  | hear => exact { a with }
  | @take _ pin s _ named => exact a.take pin named s
  | giveUp => exact a.post fun _ heq => by cases heq
  | wrote _ now item queued => exact a.wrote now item.1 (SortedMap.mem_keys.mpr ⟨_, queued⟩)
  | refuse => exact a.post fun _ heq => by cases heq
  | connect now k hpin hc =>
    have hslot := a.shutdownSlot
    rw [hc] at hslot
    rw [Connector.connect, if_pos hc]
    exact {
      fresh := fun h => absurd h (show ¬ Status.connecting.rank ≤ 1 by decide)
      accepting := fun h => by cases h
      connecting := fun _ => ⟨rfl, hpin, SortedMap.mem_keys_emplace.mpr (.inr rfl)⟩
      shutting := fun h => by cases h
      fallback := fun _ _ =>
        a.fallback (by rw [hc]; decide) (by rw [hc]; exact Status.noConfusion)
      connectSlot := fun _ => .inl rfl
      shutdownSlot := fun h => absurd (hslot h) (by decide)
      handlers := a.handlers }
  | accept now k hpin hc =>
    have hslot := a.shutdownSlot
    rw [hc] at hslot
    rw [Connector.accept, if_pos hc]
    exact {
      fresh := fun h => absurd h (show ¬ Status.accepting.rank ≤ 1 by decide)
      accepting := fun _ => ⟨rfl, hpin,
        fun hremote => absurd (a.fresh (by rw [hc]; decide)).2.1 hremote⟩
      connecting := fun h => by cases h
      shutting := fun h => by cases h
      fallback := fun _ _ =>
        a.fallback (by rw [hc]; decide) (by rw [hc]; exact Status.noConfusion)
      connectSlot := fun _ => .inl rfl
      shutdownSlot := fun h => absurd (hslot h) (by decide)
      handlers := a.handlers }
  | shutdown _ now k => exact a.shutdown now k
  | @error _ ec => exact a.error ec

end Armed

/-- A side that connected goes on pinging: nothing takes the ping away without putting it back. -/
theorem Move.ping (h : Move q w f given lost c c') (hlinked : c'.status = .linked)
    (hc : c.status = .connecting ∨ (c.status = .linked ∧ .ping ∈ c.jobs.keys)) :
    .ping ∈ c'.jobs.keys := by
  have hkeep : c'.status = c.status → (.ping ∈ c.jobs.keys → .ping ∈ c'.jobs.keys) →
      .ping ∈ c'.jobs.keys := by
    intro hsame hjobs
    rcases hc with hc | hc
    · rw [hlinked, hc] at hsame
      cases hsame
    · exact hjobs hc.2
  cases h with
  | init hn =>
    rw [hn] at hc
    exact absurd hc (by simp)
  | hear => exact hkeep rfl id
  | @take _ pin s =>
    have hemplace : ∀ (m : SortedMap Job Time) (j : Job) (time : Time),
        .ping ∈ m.keys → .ping ∈ (m.emplace j time).keys :=
      fun _ _ _ hk => SortedMap.mem_keys_emplace.mpr (.inl hk)
    have htook := take_took q pin c s
    generalize c.take q pin s = c₁ at htook hlinked hkeep ⊢
    cases htook with
    | link => exact hkeep rfl (hemplace _ _ _)
    | linked => exact SortedMap.mem_keys_emplace.mpr (.inr rfl)
    | tearing => cases hlinked
    | tear => exact hkeep rfl (hemplace _ _ _)
    | finished => cases hlinked
    | ping v => exact hkeep rfl (hemplace _ _ _)
    | pingEcho v => exact SortedMap.mem_keys_emplace.mpr (.inr rfl)
    | quiet => exact hkeep rfl id
  | giveUp => exact hkeep rfl id
  | wrote _ now item =>
    have herase : ∀ j : Job, j ≠ .ping → .ping ∈ c.jobs.keys → .ping ∈ (c.jobs.erase j).keys :=
      fun _ hne hk => SortedMap.mem_keys_erase.mpr ⟨hk, hne.symm⟩
    obtain ⟨job, time⟩ := item
    have hwrote := wrote_wrote now c job
    generalize c.wrote now job = c₁ at hwrote hlinked hkeep ⊢
    cases hwrote with
    | linked hacc =>
      rw [hacc] at hc
      exact absurd hc (by simp)
    | linkEcho => exact hkeep rfl (herase _ Job.noConfusion)
    | pingEcho => exact hkeep rfl (herase _ Job.noConfusion)
    | finished => cases hlinked
    | again =>
      refine hkeep rfl fun hk => ?_
      rw [SortedMap.keys_modify]
      exact hk
  | refuse => exact hkeep rfl id
  | connect now k hpin hi =>
    rw [hi] at hc
    exact absurd hc (by simp)
  | accept now k hpin hi =>
    rw [hi] at hc
    exact absurd hc (by simp)
  | shutdown _ now k =>
    rcases hc with hc | ⟨hc, _⟩ <;> simp [Connector.shutdown, Connector.post, hc] at hlinked
  | error => cases hlinked

theorem Moves.ping (h : Moves q w f given lost c c') (hlinked : c'.status = .linked)
    (hc : c.status = .connecting) : .ping ∈ c'.jobs.keys := by
  have hall : c'.status = .connecting ∨ (c'.status = .linked ∧ .ping ∈ c'.jobs.keys) ∨
      4 ≤ c'.status.rank := by
    refine h.induct (P := fun c' => c'.status = .connecting ∨
      (c'.status = .linked ∧ .ping ∈ c'.jobs.keys) ∨ 4 ≤ c'.status.rank) ?_ (.inl hc)
    intro _ _ c₁ c₂ hmove h₁
    by_cases hover : 4 ≤ c₂.status.rank
    · exact .inr (.inr hover)
    · have hc₁ : c₁.status = .connecting ∨ (c₁.status = .linked ∧ .ping ∈ c₁.jobs.keys) := by
        rcases h₁ with h₁ | h₁ | h₁
        · exact .inl h₁
        · exact .inr h₁
        · rcases hmove.forward with heq | hlt
          · rw [heq] at hover
            exact absurd h₁ hover
          · omega
      have hst : c₂.status = .connecting ∨ c₂.status = .linked := by
        rcases hmove.forward with heq | hlt
        · rw [heq]
          exact hc₁.imp_right And.left
        · rcases hc₁ with hc₁ | ⟨hc₁, _⟩ <;> rw [hc₁] at hlt <;> revert hlt hover <;>
            cases c₂.status <;> decide
      exact hst.imp_right fun hl => .inl ⟨hl, hmove.ping hl hc₁⟩
  rcases hall with hall | hall | hall
  · rw [hlinked] at hall
    cases hall
  · exact hall.2
  · rw [hlinked] at hall
    exact absurd hall (by decide)

end Connector

/-! ## Events -/

/-- A section of the packet that an event feeds. -/
def Event.Carries (e : Event) (s : Section) : Prop := ∃ now p, e = .feed now p ∧ s ∈ p.body

/-- Is the event a round of `produce`? -/
def Event.writes : Event → Bool
  | .produce _ => true
  | .openAt | .connect _ _ _ _ | .accept _ _ _ _ | .shutdown _ _ | .mistake _ | .read _ _
  | .write _ _ | .feed _ _ | .consume => false

namespace Transport

open Connector (Move Moves)

variable {t t' : Transport} {out : Option Packet}

/-- The handlers that an event overwrites: those of a shutdown that is asked for again while the
peer's tear is being answered. -/
def overwritten (t : Transport) : Event → List Handler
  | .shutdown _ _ => if t.connector.status = .tearing then t.connector.onShutdown.toList else []
  | .openAt | .connect _ _ _ _ | .accept _ _ _ _ | .mistake _ | .read _ _ | .write _ _ | .feed _ _
  | .consume | .produce _ => []

theorem overwritten_of_uncalled {e : Event} (h : e.handlers = []) : t.overwritten e = [] := by
  cases e with
  | shutdown => cases h
  | _ => rfl

/-- Every event is some moves of the connector. -/
theorem act_moves {e : Event} (hsound : e.sound = true) (h : t.act e = some (t', out)) :
    Moves t.qos (e.writes = true) e.Carries e.handlers (t.overwritten e)
      t.connector t'.connector := by
  have turn := act_turn h
  generalize t'.connector = c' at turn
  cases turn with
  | quiet uncalled =>
    rw [uncalled, overwritten_of_uncalled uncalled]
    exact .refl _
  | init hc => exact (Move.init hc).single
  | refuse k ec event =>
    obtain ⟨_, _, _, rfl | rfl⟩ := event <;> exact (Move.refuse _ k ec).single
  | connect now pin k _ hc => exact (Move.connect now k (of_decide_eq_true hsound) hc).single
  | accept now pin k _ hc => exact (Move.accept now k (of_decide_eq_true hsound) hc).single
  | shutdown now k => exact (Move.shutdown t.connector now k).single
  | error ec => exact (Move.error t.connector (of_decide_eq_true hsound)).single
  | parse now p hadmits =>
    exact Connector.parse_moves now (fun s hs => ⟨now, p, rfl, hs⟩)
      (Connector.admits_iff.mp hadmits).1
  | imbue k room => exact Connector.imbue_moves rfl k.connector room

theorem step_moves {q : Qos} {e : Event} (hq : t.qos = q) (h : (system q).step t e = some t') :
    t'.qos = q ∧
      Moves q (e.writes = true) e.Carries e.handlers (t.overwritten e)
        t.connector t'.connector := by
  obtain ⟨hsound, out, hact⟩ := step_act h
  have hmoves := act_moves hsound hact
  rw [hq] at hmoves
  exact ⟨(act_halves hsound hact).1.trans hq, hmoves⟩

/-- What every move of the connector keeps holds of every channel's. -/
theorem connector_invariant {q : Qos} {P : Connector → Prop} (start : P .create)
    (move : ∀ w f given lost c c', Move q w f given lost c c' → P c → P c')
    {ok : Transport → Event → Prop} (h : (system q).Reaches ok t) : t.qos = q ∧ P t.connector := by
  refine h.invariant (P := fun t => t.qos = q ∧ P t.connector) ?_ ?_
  · rintro s rfl
    exact ⟨rfl, start⟩
  · rintro s e s' _ ⟨hq, hs⟩ hstep
    obtain ⟨hq', hmoves⟩ := step_moves hq hstep
    exact ⟨hq', hmoves.induct (move _ _) hs⟩

/-- The moves that a whole run makes. -/
theorem run_moves {q : Qos} (es : List Event) {t t' : Transport} (hq : t.qos = q)
    (h : (system q).run t es = some t') :
    ∃ lost, Moves q True (fun _ => True) (es.flatMap Event.handlers) lost
      t.connector t'.connector := by
  induction es generalizing t with
  | nil =>
    cases h
    exact ⟨[], .refl _⟩
  | cons e es ih =>
    obtain ⟨u, hstep, hrest⟩ := Option.bind_eq_some_iff.mp h
    obtain ⟨hq', hmoves⟩ := step_moves hq hstep
    obtain ⟨lost, hmoves'⟩ := ih hq' hrest
    exact ⟨_, (hmoves.mono (fun _ => trivial) fun _ _ => trivial).trans hmoves'⟩

end Transport

end Tubus.Udp
