import Tubus.Laws.Receive

/-!
# Who an accepting channel talks to

A channel that accepts with a part of the remote endpoint left open takes its peer from the
datagrams that come in. The receive handler fixes `m_remote` to the sender of the first one that
agrees with the given parts, and only then looks at what was sent; so the peer is vouched for by a
valid datagram in every run in which no other datagram comes from such an endpoint
(`vouched_of_genuine`).
-/

namespace Tubus.Udp

open Lib

namespace Endpoint

/-- Parts that agree with parts that agree with those given agree with them. -/
theorem admits_trans {a b c : Endpoint} (hab : a.admits b = true) (hbc : b.admits c = true) :
    a.admits c = true := by
  simp only [admits, Bool.and_eq_true, Bool.or_eq_true, beq_iff_eq] at hab hbc ⊢
  obtain ⟨hport, haddress⟩ := hab
  obtain ⟨hport', haddress'⟩ := hbc
  refine ⟨?_, ?_⟩
  · obtain hzero | hsame := hport
    · exact .inl hzero
    · rwa [hsame]
  · obtain hopen | hsame := haddress
    · exact .inl hopen
    · rwa [hsame]

end Endpoint

namespace Receiver

variable {e : Endian} {x y : Receiver} {r : Outcome}

/-! ## What a handler does to the endpoints -/

/-- The endpoints and the history are as they were. -/
structure Quiet (x y : Receiver) : Prop where
  remote : y.remote = x.remote
  peer : y.peer = x.peer
  asked : y.asked = x.asked
  dialled : y.dialled = x.dialled
  heard : y.heard = x.heard

theorem quiet_fed {now : Time} {drawn : UInt64} {datagram : Bytes}
    (h : fed e now drawn datagram x = some y) : x.Quiet y := by
  unfold fed at h
  split at h
  · cases h
    exact ⟨rfl, rfl, rfl, rfl, rfl⟩
  · obtain ⟨t, -, rfl⟩ := Option.map_eq_some_iff.mp h
    exact ⟨rfl, rfl, rfl, rfl, rfl⟩

theorem quiet_consumed (available : Nat) (x : Receiver) : x.Quiet (consumed available x) := by
  unfold consumed
  split
  · exact ⟨rfl, rfl, rfl, rfl, rfl⟩
  · split
    · split <;> exact ⟨rfl, rfl, rfl, rfl, rfl⟩
    · exact ⟨rfl, rfl, rfl, rfl, rfl⟩

/-- What a handler leaves: the history, and the endpoints unless it fixes the remote one. -/
structure Left (x y : Receiver) : Prop where
  asked : y.asked = x.asked
  dialled : y.dialled = x.dialled
  heard : y.heard = x.heard
  remote : y.remote = x.remote
  peer : y.peer = x.peer ∨ y.peer = none

theorem Quiet.left (h : x.Quiet y) : x.Left y :=
  ⟨h.asked, h.dialled, h.heard, h.remote, .inl h.peer⟩

theorem left_mistaken (ec : Ec) (x : Receiver) : x.Left (mistaken ec x) :=
  ⟨rfl, rfl, rfl, rfl, .inr rfl⟩

/-- An admitted datagram fixes the remote endpoint, whatever is in it. -/
theorem receivedFrom_fixes (h : r.error = .success) (hadmits : x.remote.admits r.sender = true)
    (hy : ending (receivedFrom e r false x) = some y) :
    y.asked = x.asked ∧ y.dialled = x.dialled ∧ y.heard = x.heard ∧ y.remote = r.sender ∧
      (y.peer = x.peer ∨ y.peer = some r.sender) := by
  cases hfed : fed e r.now r.drawn r.datagram (x.bound r) with
  | none =>
    rw [receivedFrom_throws h hadmits hfed] at hy
    cases hy
  | some z =>
    have hz := quiet_fed hfed
    by_cases hjoin : r.connecting = .success
    · rw [receivedFrom_joined h hadmits hfed hjoin] at hy
      have hquiet := quiet_consumed r.available { z with peer := some z.remote }
      cases hy
      exact ⟨hquiet.asked.trans hz.asked, hquiet.dialled.trans hz.dialled,
        hquiet.heard.trans hz.heard, hquiet.remote.trans hz.remote,
        .inr (hquiet.peer.trans (congrArg some hz.remote))⟩
    · rw [receivedFrom_stuck h hadmits hfed hjoin] at hy
      cases hy
      exact ⟨hz.asked, hz.dialled, hz.heard, hz.remote, .inl hz.peer⟩

/-- Any other datagram leaves it. -/
theorem receivedFrom_left (hno : r.error = .success → x.remote.admits r.sender = false)
    (hy : ending (receivedFrom e r false x) = some y) : x.Left y := by
  by_cases herror : r.error = .success
  · rw [receivedFrom_foreign herror (hno herror)] at hy
    cases hy
    exact (quiet_consumed _ _).left
  · rw [receivedFrom_error herror] at hy
    cases hy
    exact left_mistaken _ _

/-- On a connected socket nothing fixes it. -/
theorem received_left (hy : ending (received e r false x) = some y) : x.Left y := by
  by_cases herror : r.error = .success
  · cases hfed : fed e r.now r.drawn r.datagram x with
    | none =>
      rw [received_none herror hfed] at hy
      cases hy
    | some z =>
      rw [received_some herror hfed] at hy
      have hz := quiet_fed hfed
      have hquiet := quiet_consumed r.available z
      cases hy
      exact ⟨hquiet.asked.trans hz.asked, hquiet.dialled.trans hz.dialled,
        hquiet.heard.trans hz.heard, hquiet.remote.trans hz.remote,
        .inl (hquiet.peer.trans hz.peer)⟩
  · rw [received_error herror] at hy
    cases hy
    exact left_mistaken _ _

/-- Does the outcome fix the remote endpoint? -/
def Fixes (x : Receiver) (r : Outcome) (op : Pending) : Prop :=
  ∃ capacity, op = .receiveFrom capacity ∧ r.error = .success ∧ x.remote.admits r.sender = true

/-- A handler whose outcome does not fix it leaves it. -/
theorem handler_left {op : Pending} (hno : ¬ x.Fixes r op)
    (hy : ending (handler e r op false x) = some y) : x.Left y := by
  cases op with
  | start =>
    cases hy
    exact (quiet_consumed _ _).left
  | receiveFrom capacity =>
    refine receivedFrom_left (fun herror => ?_) hy
    by_contra hadmits
    exact hno ⟨capacity, rfl, herror, by simpa using hadmits⟩
  | receive capacity => exact received_left hy
  | wait =>
    rw [handler, waited_run] at hy
    split at hy
    · cases hy
      exact left_mistaken _ _
    · cases hy
      exact (quiet_consumed _ _).left

/-! ## Before the first call -/

/-- A channel that was not told to connect or accept has no receive loop. -/
def Idle (x : Receiver) : Prop :=
  x.transport.connector.status.rank ≤ 1 → x.heard = [] ∧ x.pending = none

theorem accept_rank {t : Transport} (hinitial : t.connector.status = .initial) (now : Time)
    (pin : Nat) (k : Handler) : (t.accept now pin k .success).connector.status.rank = 2 := by
  simp [Transport.accept, Connector.accept, hinitial, Status.rank]

theorem connect_rank {t : Transport} (hinitial : t.connector.status = .initial) (now : Time)
    (pin : Nat) (k : Handler) : (t.connect now pin k .success).connector.status.rank = 2 := by
  simp [Transport.connect, Connector.connect, hinitial, Status.rank]

theorem Idle.accept (h : x.Idle) (remote : Endpoint) (now : Time) (pin : Nat) (k : Handler)
    (socket : Ec) : (x.accept remote now pin k socket).Idle := by
  have hrank : ∀ socket, x.transport.connector.status.rank ≤
      (x.transport.accept now pin k socket).connector.status.rank :=
    fun socket => Transport.act_rank (e := .accept now pin k socket) rfl
  unfold Receiver.accept
  split
  · intro hle
    exact h ((hrank .success).trans hle)
  · next hinitial =>
    have htwo := accept_rank (not_not.mp hinitial) now pin k
    dsimp only
    split
    · intro hle
      exact absurd (htwo.ge.trans hle) (Nat.not_succ_le_self 1)
    · split
      · intro hle
        exact h ((hrank socket).trans hle)
      · intro hle
        exact absurd (htwo.ge.trans hle) (Nat.not_succ_le_self 1)

theorem Idle.connect (h : x.Idle) (remote : Endpoint) (now : Time) (pin : Nat) (k : Handler)
    (socket : Ec) : (x.connect remote now pin k socket).Idle := by
  have hrank : x.transport.connector.status.rank ≤
      (x.transport.connect now pin k socket).connector.status.rank :=
    Transport.act_rank (e := .connect now pin k socket) rfl
  unfold Receiver.connect
  dsimp only
  split
  · intro hle
    exact h (hrank.trans hle)
  · next hinitial =>
    split
    · intro hle
      exact h (hrank.trans hle)
    · next hsocket =>
      rw [not_not] at hinitial hsocket
      subst hsocket
      have htwo := connect_rank hinitial now pin k
      intro hle
      exact absurd (htwo.ge.trans hle) (Nat.not_succ_le_self 1)

theorem Idle.step {ev : Event} (h : x.Idle) (hstep : x.step e ev = some y) : y.Idle := by
  obtain ⟨-, ⟨_, _, _, _, _, -, -, rfl⟩ | ⟨_, _, _, _, _, -, -, rfl⟩ |
    ⟨event, t, out, -, -, -, hact, rfl⟩ | ⟨r, op, -, hop, hy⟩⟩ := step_cases hstep
  · exact h.accept _ _ _ _ _
  · exact h.connect _ _ _ _ _
  · intro hle
    exact h ((Transport.act_rank hact).trans hle)
  · -- there is a loop, so the channel was told to connect or accept, and stays so
    have hclosed := Closed.of_act e (P := fun t => 2 ≤ t.connector.status.rank)
      fun _ _ _ _ _ hact hle => hle.trans (Transport.act_rank hact)
    have hrank : 2 ≤ (x.taken e r op).transport.connector.status.rank := by
      have hnot : ¬ x.transport.connector.status.rank ≤ 1 := by
        intro hle
        rw [(h hle).2] at hop
        cases hop
      rw [taken_transport]
      omega
    have hafter := ending_all (fun _ hx => hx) (hclosed.handler r op false _ hrank) hy
    intro hle
    omega

/-! ## The peer -/

/-- An endpoint agrees with what was asked for, and a valid datagram came from it. -/
def Vouches (x : Receiver) (r : Endpoint) : Prop :=
  x.asked.admits r = true ∧ (r, true) ∈ x.heard

/-- The remote endpoint is the one that was asked for, or one that is vouched for; so is the one
that the socket is connected to, if no call named it. -/
structure Vouched (x : Receiver) : Prop where
  remote : x.remote = x.asked ∨ x.Vouches x.remote
  peer : ∀ r, x.peer = some r → r ∈ x.dialled ∨ x.Vouches r

/-- Is a datagram that agrees with the remote endpoint accepted by `connector::valid`? -/
def Genuine (e : Endian) (x : Receiver) : Event → Prop
  | .completed r => ∀ capacity, x.pending = some (.receiveFrom capacity) →
      r.error = .success → x.remote.admits r.sender = true →
      x.accepts e r.drawn (r.datagram.take capacity) = true
  | .accept _ _ _ _ _ | .connect _ _ _ _ _ | .call _ => True

/-- Is the datagram of the outcome not accepted, or from an endpoint that does not agree? -/
def Unfit (e : Endian) (x : Receiver) (r : Outcome) : Prop :=
  ∀ capacity, x.pending = some (.receiveFrom capacity) → r.error = .success →
    x.accepts e r.drawn (r.datagram.take capacity) = false ∨ x.remote.admits r.sender = false

theorem Vouches.mono {r : Endpoint} (h : x.Vouches r) (hasked : y.asked = x.asked)
    (hheard : ∀ d ∈ x.heard, d ∈ y.heard) : y.Vouches r :=
  ⟨hasked ▸ h.1, hheard _ h.2⟩

theorem Vouched.accept (h : x.Vouched) (hidle : x.Idle) (remote : Endpoint) (now : Time)
    (pin : Nat) (k : Handler) (socket : Ec) : (x.accept remote now pin k socket).Vouched := by
  unfold Receiver.accept
  split
  · exact ⟨h.remote, h.peer⟩
  · next hinitial =>
    -- no datagram was heard yet, so a call named the peer, if there is one
    have hnone : x.heard = [] := by
      refine (hidle ?_).1
      rw [not_not.mp hinitial]
      exact Nat.le_refl 1
    have hpeer : ∀ r, x.peer = some r → r ∈ x.dialled := by
      intro r hr
      obtain hdialled | ⟨-, hheard⟩ := h.peer r hr
      · exact hdialled
      · rw [hnone] at hheard
        cases hheard
    dsimp only
    split
    · exact ⟨.inl rfl, fun r hr => .inl (hpeer r hr)⟩
    · split
      · exact ⟨.inl rfl, fun r hr => .inl (hpeer r hr)⟩
      · refine ⟨.inl rfl, fun r hr => .inl ?_⟩
        cases hr
        exact List.mem_append_right _ (List.mem_singleton_self _)

theorem Vouched.connect (h : x.Vouched) (remote : Endpoint) (now : Time) (pin : Nat) (k : Handler)
    (socket : Ec) : (x.connect remote now pin k socket).Vouched := by
  unfold Receiver.connect
  dsimp only
  split
  · exact ⟨h.remote, h.peer⟩
  · split
    · exact ⟨h.remote, h.peer⟩
    · refine ⟨h.remote, fun r hr => .inl ?_⟩
      cases hr
      exact List.mem_append_right _ (List.mem_singleton_self _)

theorem Left.vouched (hleft : x.Left y) (h : x.Vouched) : y.Vouched := by
  have hmono : ∀ r, x.Vouches r → y.Vouches r := fun r hr =>
    hr.mono hleft.asked fun d hd => hleft.heard ▸ hd
  refine ⟨?_, fun r hr => ?_⟩
  · rw [hleft.remote, hleft.asked]
    exact h.remote.imp_right (hmono _)
  · obtain hsame | hnone := hleft.peer
    · rw [hleft.dialled]
      exact (h.peer r (hsame ▸ hr)).imp_right (hmono r)
    · rw [hnone] at hr
      cases hr

/-- Before the handler runs, the datagram is only noted. -/
theorem Vouched.taken (h : x.Vouched) (e : Endian) (r : Outcome) (op : Pending) :
    (x.taken e r op).Vouched := by
  have hmono : ∀ d ∈ x.heard, d ∈ (x.taken e r op).heard := by
    intro d hd
    cases op with
    | receiveFrom capacity =>
      dsimp only [Receiver.taken]
      split
      · exact List.mem_append_left _ hd
      · exact hd
    | start | receive _ | wait => exact hd
  have hsame : (x.taken e r op).remote = x.remote ∧ (x.taken e r op).peer = x.peer ∧
      (x.taken e r op).asked = x.asked ∧ (x.taken e r op).dialled = x.dialled := by
    cases op <;> exact ⟨rfl, rfl, rfl, rfl⟩
  obtain ⟨hremote, hpeer, hasked, hdialled⟩ := hsame
  refine ⟨?_, fun s hs => ?_⟩
  · rw [hremote, hasked]
    exact h.remote.imp_right fun hv => hv.mono hasked hmono
  · rw [hdialled]
    exact (h.peer s (hpeer ▸ hs)).imp_right fun hv => hv.mono hasked hmono

/-- A handler after a step in which the remote endpoint is fixed. -/
theorem fixes_taken {op : Pending} (hfixes : x.Fixes r op)
    (hy : ending (handler e r op false (x.taken e r op)) = some y) :
    ∃ capacity, op = .receiveFrom capacity ∧ y.asked = x.asked ∧ y.dialled = x.dialled ∧
      y.heard = x.heard ++ [(r.sender, x.accepts e r.drawn (r.datagram.take capacity))] ∧
      y.remote = r.sender ∧ (y.peer = x.peer ∨ y.peer = some r.sender) := by
  obtain ⟨capacity, rfl, herror, hadmits⟩ := hfixes
  have hfixed := receivedFrom_fixes (x := x.taken e r (.receiveFrom capacity))
    (r := { r with datagram := r.datagram.take capacity }) herror hadmits hy
  obtain ⟨hasked, hdialled, hheard, hremote, hpeer⟩ := hfixed
  refine ⟨capacity, rfl, hasked, hdialled, ?_, hremote, hpeer⟩
  rw [hheard]
  exact if_pos herror

theorem left_taken {op : Pending} (hno : ¬ x.Fixes r op)
    (hy : ending (handler e r op false (x.taken e r op)) = some y) :
    (x.taken e r op).Left y := by
  refine handler_left ?_ hy
  rintro ⟨capacity, rfl, herror, hadmits⟩
  exact hno ⟨capacity, rfl, herror, hadmits⟩

theorem Vouched.step {ev : Event} (h : x.Vouched) (hidle : x.Idle) (hgenuine : x.Genuine e ev)
    (hstep : x.step e ev = some y) : y.Vouched := by
  obtain ⟨-, ⟨_, _, _, _, _, -, -, rfl⟩ | ⟨_, _, _, _, _, -, -, rfl⟩ |
    ⟨event, t, out, -, -, -, -, rfl⟩ | ⟨r, op, rfl, hop, hy⟩⟩ := step_cases hstep
  · exact h.accept hidle _ _ _ _ _
  · exact h.connect _ _ _ _ _
  · refine ⟨h.remote, fun r hr => ?_⟩
    obtain ⟨-, hr⟩ := Option.ite_none_left_eq_some.mp hr
    exact h.peer r hr
  · by_cases hfixes : x.Fixes r op
    · obtain ⟨capacity, rfl, hasked, hdialled, hheard, hremote, hpeer⟩ := fixes_taken hfixes hy
      obtain ⟨_, -, herror, hadmits⟩ := hfixes
      have hmono : ∀ d ∈ x.heard, d ∈ y.heard := fun d hd =>
        hheard ▸ List.mem_append_left _ hd
      have hsender : y.Vouches r.sender := by
        refine ⟨?_, ?_⟩
        · rw [hasked]
          obtain hsame | ⟨hadmitted, -⟩ := h.remote
          · exact hsame ▸ hadmits
          · exact Endpoint.admits_trans hadmitted hadmits
        · rw [hheard, hgenuine capacity hop herror hadmits]
          exact List.mem_append_right _ (List.mem_singleton_self _)
      refine ⟨.inr (hremote ▸ hsender), fun s hs => ?_⟩
      obtain hsame | hnew := hpeer
      · rw [hdialled]
        exact (h.peer s (hsame ▸ hs)).imp_right fun hv => hv.mono hasked hmono
      · rw [hnew] at hs
        cases hs
        exact .inr hsender
    · exact (left_taken hfixes hy).vouched (h.taken e r op)

/-- In every run in which each datagram from an endpoint that agrees with the remote one is accepted
by `connector::valid`, the remote endpoint is the one that was asked for, or it agrees with that one
and a valid datagram came from it. And a datagram from an endpoint other than the remote one is left
without effect on it if it is unfit, exactly in the steps that meet the condition. -/
theorem vouched_of_genuine {q : Qos} {secret : UInt64}
    (h : (system e q secret).Reaches (Genuine e) x) :
    x.Vouched ∧ ∀ r y, x.step e (.completed r) = some y → r.sender ≠ x.remote →
      ((x.Unfit e r → y.remote = x.remote) ↔ x.Genuine e (.completed r)) := by
  refine ⟨?_, ?_⟩
  · refine System.Reaches.invariant_with (I := Idle) (P := Vouched) ?_ ?_ ?_ h
    · intro x hx
      refine System.Reaches.invariant (P := Idle) ?_ (fun _ _ _ _ hx hstep => hx.step hstep) hx
      rintro x rfl -
      exact ⟨rfl, rfl⟩
    · rintro x rfl
      exact ⟨.inl rfl, nofun⟩
    · intro x ev y hgenuine hidle hx hstep
      exact hx.step hidle hgenuine hstep
  · intro r y hstep hsender
    obtain ⟨-, ⟨_, _, _, _, _, hev, -⟩ | ⟨_, _, _, _, _, hev, -⟩ | ⟨_, _, _, hev, -⟩ |
      ⟨_, op, ⟨⟩, hop, hy⟩⟩ := step_cases hstep
    · cases hev
    · cases hev
    · cases hev
    · constructor
      · intro hkept capacity hpending herror hadmits
        rw [hop] at hpending
        cases hpending
        by_contra hno
        have hunfit : x.Unfit e r := by
          intro n hn _
          rw [hop] at hn
          cases hn
          exact .inl (by simpa using hno)
        obtain ⟨_, -, -, -, -, hremote, -⟩ := fixes_taken ⟨capacity, rfl, herror, hadmits⟩ hy
        exact hsender (hremote.symm.trans (hkept hunfit))
      · intro hgenuine hunfit
        have hno : ¬ x.Fixes r op := by
          rintro ⟨capacity, rfl, herror, hadmits⟩
          have haccepts := hgenuine capacity hop herror hadmits
          obtain hinvalid | hforeign := hunfit capacity hop herror
          · rw [haccepts] at hinvalid
            cases hinvalid
          · rw [hadmits] at hforeign
            cases hforeign
        have hsame : (x.taken e r op).remote = x.remote := by cases op <;> rfl
        exact (left_taken hno hy).remote.trans hsame

/-- Does a step meet the condition? -/
def genuine (e : Endian) (x : Receiver) : Event → Bool
  | .completed r =>
    match x.pending with
    | some (.receiveFrom capacity) =>
      decide (r.error ≠ .success) || !x.remote.admits r.sender ||
        x.accepts e r.drawn (r.datagram.take capacity)
    | some .start | some (.receive _) | some .wait | none => true
  | .accept _ _ _ _ _ | .connect _ _ _ _ _ | .call _ => true

theorem genuine_sound (e : Endian) (x : Receiver) (ev : Event) (h : x.genuine e ev = true) :
    x.Genuine e ev := by
  cases ev with
  | completed r =>
    intro capacity hpending herror hadmits
    simpa [genuine, hpending, herror, hadmits] using h
  | accept _ _ _ _ _ | connect _ _ _ _ _ | call _ => trivial

/-- Somebody on this host. -/
def neighbour : Endpoint := ⟨.v4 0x7F000001, 4000⟩

/-- An operation that succeeds, with bytes for one that follows. -/
def ready : Outcome := ⟨.success, .any, [], 2, 0, .success, 28⟩

/-- A channel accepts anybody, and a `link` of pin 7 comes in. -/
theorem vouched_of_genuine_link :
    ∃ x, (system .little .default 0).Reaches (Genuine .little) x ∧ x.remote = neighbour ∧
      x.Vouches neighbour := by
  have hrun : ((system .little .default 0).checked (genuine .little) (create .default 0)
      [.call .openAt, .accept .any 1 5 1 .success, .completed ready,
        .completed { ready with
          sender := neighbour
          datagram := [0, 0, 0, 0, 0, 0, 0, 0, 9, 9, 1, 2, 0, 0, 0, 7, 0, 2, 0, 0] }]).map
        (fun x => (x.remote, x.asked)) = some (neighbour, .any) := by decide +kernel
  obtain ⟨x, hx, hv⟩ := Option.map_eq_some_iff.mp hrun
  obtain ⟨hremote, hasked⟩ := Prod.mk.inj hv
  have hreached := System.Reaches.checked (genuine_sound .little) _ (.start rfl) hx
  obtain hsame | hvouches := (vouched_of_genuine hreached).1.remote
  · rw [hremote, hasked] at hsame
    cases hsame
  · exact ⟨x, hreached, hremote, hremote ▸ hvouches⟩

/-- A channel accepts anybody, and one byte of a stranger makes the stranger its peer. -/
theorem stray_captures :
    ¬ ∀ x, (system .little .default 0).Reachable x → x.Vouched := by
  intro hall
  have hrun : ((system .little .default 0).run (create .default 0)
      [.call .openAt, .accept .any 1 5 1 .success, .completed ready,
        .completed { ready with sender := neighbour, datagram := [0] }]).map
        (fun x => (x.peer, x.dialled, x.heard)) =
      some (some neighbour, [], [(neighbour, false)]) := by decide +kernel
  obtain ⟨x, hx, hv⟩ := Option.map_eq_some_iff.mp hrun
  simp only [Prod.mk.injEq] at hv
  obtain ⟨hpeer, hdialled, hheard⟩ := hv
  obtain hnamed | ⟨-, hvalid⟩ := (hall x (System.reachable_of_run _ rfl hx)).peer _ hpeer
  · rw [hdialled] at hnamed
    cases hnamed
  · rw [hheard] at hvalid
    cases List.mem_singleton.mp hvalid

end Receiver

end Tubus.Udp
