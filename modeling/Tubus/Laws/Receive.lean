import Tubus.Laws.Feed
import Tubus.Udp.Receive

/-!
# What the receive loop does

How the handlers of the receive loop run, first piece by piece. A datagram from an endpoint that
agrees with `m_remote` fixes `m_remote` before it is looked at, and if the socket then cannot be
connected to that endpoint the handler reports the mistake while it holds the mutex that `mistake`
takes.
-/

namespace Tubus.Udp

open Lib

/-- A datagram is dropped, or it is fed as a packet. -/
theorem Transport.feedBytes_cases {t t' : Transport} {now : Time} {pack : Bytes}
    (h : t.feedBytes now pack = some t') : t' = t ∨ ∃ p, t.feed now p = some t' := by
  unfold Transport.feedBytes at h
  split at h
  · cases h
    exact .inl rfl
  · obtain ⟨ok, -, h⟩ := Option.bind_eq_some_iff.mp h
    cases ok with
    | false =>
      cases h
      exact .inl rfl
    | true =>
      obtain ⟨body, -, h⟩ := Option.bind_eq_some_iff.mp h
      obtain ⟨sections, -, h⟩ := Option.bind_eq_some_iff.mp h
      obtain ⟨pin, -, h⟩ := Option.bind_eq_some_iff.mp h
      exact .inr ⟨_, h⟩

namespace Receiver

variable {e : Endian} {x y : Receiver} {r : Outcome}

/-! ## The pieces -/

theorem mistake_run (ec : Ec) (x : Receiver) : mistake ec false x = .returns () (mistaken ec x) :=
  rfl

theorem consume_run (available : Nat) (x : Receiver) :
    consume available false x = .returns () (consumed available x) := rfl

theorem verify_admitted {sender : Endpoint} (h : x.remote.admits sender = true) :
    verify sender false x = .returns true { x with remote := sender } := by
  show (Code.look _ >>= _) true x = _
  rw [Code.bind_returns (Code.look_run _), if_pos h]
  rfl

theorem verify_refused {sender : Endpoint} (h : x.remote.admits sender = false) :
    verify sender false x = .returns false x := by
  show (Code.look _ >>= _) true x = _
  rw [Code.bind_returns (Code.look_run _), if_neg (by simp [h])]
  rfl

theorem connectPeer_success (x : Receiver) :
    connectPeer .success false x = .returns true { x with peer := some x.remote } := rfl

/-- The mistake is reported under the mutex. -/
theorem connectPeer_failure {connecting : Ec} (h : connecting ≠ .success) :
    connectPeer connecting false x = .blocks x := by
  unfold connectPeer
  rw [Code.locked_free, if_pos h]
  rfl

theorem feed_some {now : Time} {drawn : UInt64} {datagram : Bytes}
    (h : fed e now drawn datagram x = some y) :
    feed e now drawn datagram false x = .returns () y := by
  rw [feed, Code.locked_free, Code.attempt_some h]

theorem feed_none {now : Time} {drawn : UInt64} {datagram : Bytes}
    (h : fed e now drawn datagram x = none) : feed e now drawn datagram false x = .throws := by
  rw [feed, Code.locked_free, Code.attempt_none h]

/-! ## The handler of `async_receive_from` -/

/-- The state in which the datagram of an admitted sender is fed. -/
def bound (x : Receiver) (r : Outcome) : Receiver := { x with remote := r.sender }

theorem receivedFrom_error (h : r.error ≠ .success) :
    receivedFrom e r false x = .returns () (mistaken r.error x) := by
  rw [receivedFrom, if_pos h, mistake_run]

theorem receivedFrom_foreign (h : r.error = .success) (hno : x.remote.admits r.sender = false) :
    receivedFrom e r false x = .returns () (consumed r.available x) := by
  rw [receivedFrom, if_neg (not_not_intro h), Code.bind_returns (verify_refused hno),
    if_neg (by simp), consume_run]

section Admitted

variable (h : r.error = .success) (hadmits : x.remote.admits r.sender = true)

include h hadmits

theorem receivedFrom_admitted :
    receivedFrom e r false x =
      (feed e r.now r.drawn r.datagram >>= fun _ => connectPeer r.connecting >>= fun joined =>
        if joined = true then consume r.available else pure ()) false (x.bound r) := by
  rw [receivedFrom, if_neg (not_not_intro h), Code.bind_returns (verify_admitted hadmits),
    if_pos rfl]
  rfl

theorem receivedFrom_throws (hfed : fed e r.now r.drawn r.datagram (x.bound r) = none) :
    receivedFrom e r false x = .throws := by
  rw [receivedFrom_admitted h hadmits, Code.bind_throws (feed_none hfed)]

theorem receivedFrom_joined (hfed : fed e r.now r.drawn r.datagram (x.bound r) = some y)
    (hjoin : r.connecting = .success) :
    receivedFrom e r false x =
      .returns () (consumed r.available { y with peer := some y.remote }) := by
  rw [receivedFrom_admitted h hadmits, Code.bind_returns (feed_some hfed), hjoin,
    Code.bind_returns (connectPeer_success y), if_pos rfl, consume_run]

/-- The handler comes to wait for the mutex that it holds. -/
theorem receivedFrom_stuck (hfed : fed e r.now r.drawn r.datagram (x.bound r) = some y)
    (hjoin : r.connecting ≠ .success) : receivedFrom e r false x = .blocks y := by
  rw [receivedFrom_admitted h hadmits, Code.bind_returns (feed_some hfed),
    Code.bind_blocks (connectPeer_failure hjoin)]

end Admitted

/-! ## The other handlers -/

theorem received_error (h : r.error ≠ .success) :
    received e r false x = .returns () (mistaken r.error x) := by
  rw [received, if_pos h, mistake_run]

theorem received_some (h : r.error = .success)
    (hfed : fed e r.now r.drawn r.datagram x = some y) :
    received e r false x = .returns () (consumed r.available y) := by
  rw [received, if_neg (not_not_intro h), Code.bind_returns (feed_some hfed), consume_run]

theorem received_none (h : r.error = .success)
    (hfed : fed e r.now r.drawn r.datagram x = none) : received e r false x = .throws := by
  rw [received, if_neg (not_not_intro h), Code.bind_throws (feed_none hfed)]

theorem waited_run (r : Outcome) (x : Receiver) :
    waited r false x =
      .returns () (if r.error ≠ .success then mistaken r.error x else consumed r.available x) := by
  unfold waited
  split <;> rfl

/-! ## The channel behind the loop -/

/-- The channel is one that the events of `Transport` lead to, and a buffer has a length. -/
structure Sound (q : Qos) (x : Receiver) : Prop where
  reachable : (Transport.system q).Reachable x.transport
  capacity : ∀ op, x.pending = some op → ∀ n, op = .receiveFrom n ∨ op = .receive n → n < 2 ^ 64

theorem roundUp_lt (size : Nat) : roundUp size < 2 ^ 64 := by
  have hlt := wadd_lt size 255
  unfold roundUp
  omega

/-- A channel after an event is one that events lead to. -/
theorem reachable_act {q : Qos} {t t' : Transport} (ev : Udp.Event) {out : Option Packet}
    (h : (Transport.system q).Reachable t) (hsound : ev.sound = true)
    (hact : t.act ev = some (t', out)) : (Transport.system q).Reachable t' := by
  refine .next (e := ev) h trivial ?_
  show (if ev.sound then (t.act ev).map Prod.fst else none) = some t'
  rw [if_pos hsound, hact]
  rfl

/-! ## What every piece keeps -/

/-- A property that every piece of a handler keeps. -/
structure Closed (e : Endian) (P : Receiver → Prop) : Prop where
  mistaken : ∀ x ec, ec ≠ .success → P x → P (mistaken ec x)
  consumed : ∀ x available, P x → P (consumed available x)
  fed : ∀ x y now drawn datagram, fed e now drawn datagram x = some y → P x → P y
  bound : ∀ x sender, P x → P { x with remote := sender }
  joined : ∀ x, P x → P { x with peer := some x.remote }

section Keeps

variable {P : Receiver → Prop} (h : Closed e P)

include h

theorem Closed.mistake {ec : Ec} (hec : ec ≠ .success) : (mistake ec).Keeps P :=
  .locked (.update fun x => h.mistaken x ec hec)

theorem Closed.consume (available : Nat) : (consume available).Keeps P :=
  .locked (.update fun x => h.consumed x available)

theorem Closed.feed (now : Time) (drawn : UInt64) (datagram : Bytes) :
    (feed e now drawn datagram).Keeps P :=
  .locked (.attempt fun x y hx hfed => h.fed x y now drawn datagram hfed hx)

theorem Closed.verify (sender : Endpoint) : (verify sender).Keeps P := by
  refine .locked (.bind (.look _) fun _ => .ite (fun _ => ?_) fun _ => .pure _)
  exact .bind (.update fun x => h.bound x sender) fun _ => .pure _

theorem Closed.connectPeer (connecting : Ec) : (connectPeer connecting).Keeps P := by
  refine .locked (.ite (fun hec => ?_) fun _ => ?_)
  · exact .bind (h.mistake hec) fun _ => .pure _
  · exact .bind (.update h.joined) fun _ => .pure _

/-- A handler keeps what its pieces keep. -/
theorem Closed.handler (r : Outcome) (op : Pending) : (handler e r op).Keeps P := by
  cases op with
  | start => exact h.consume _
  | receiveFrom capacity =>
    refine .ite h.mistake fun _ => .bind (h.verify _) fun _ => .ite (fun _ => ?_) fun _ => ?_
    · refine .bind (h.feed _ _ _) fun _ => .bind (h.connectPeer _) fun _ => ?_
      exact .ite (fun _ => h.consume _) fun _ => .pure _
    · exact h.consume _
  | receive capacity =>
    exact .ite h.mistake fun _ => .bind (h.feed _ _ _) fun _ => h.consume _
  | wait => exact .ite h.mistake fun _ => h.consume _

end Keeps

/-- What the events of a channel that pass no handler to it keep, the handlers of the receive loop
keep of the channel behind them. -/
theorem Closed.of_uncalled (e : Endian) {P : Transport → Prop}
    (act : ∀ ev t t' out, ev.sound = true → ev.handlers = [] → t.act ev = some (t', out) →
      P t → P t') : Closed e fun x => P x.transport where
  mistaken _ ec hec hx := act (.mistake ec) _ _ none (decide_eq_true hec) rfl rfl hx
  consumed x available hx := by
    unfold Receiver.consumed
    split
    · exact act .consume _ _ none rfl rfl rfl hx
    · split
      · split <;> exact hx
      · exact hx
  fed x y now drawn datagram hfed hx := by
    unfold Receiver.fed at hfed
    split at hfed
    · cases hfed
      exact hx
    · obtain ⟨t, ht, rfl⟩ := Option.map_eq_some_iff.mp hfed
      obtain heq | ⟨p, hp⟩ := Transport.feedBytes_cases ht
      · exact heq ▸ hx
      · refine act (.feed now p) _ _ none rfl rfl ?_ hx
        show (x.transport.feed now p).map (·, none) = some (t, none)
        rw [hp]
        rfl
  bound _ _ hx := hx
  joined _ hx := hx

/-- What the events of a channel keep, the handlers keep of the channel behind them. -/
theorem Closed.of_act (e : Endian) {P : Transport → Prop}
    (act : ∀ ev t t' out, ev.sound = true → t.act ev = some (t', out) → P t → P t') :
    Closed e fun x => P x.transport :=
  .of_uncalled e fun ev t t' out hsound _ => act ev t t' out hsound

/-- The capacities fit a word. -/
theorem closed_capacity (e : Endian) :
    Closed e fun x => ∀ op, x.pending = some op → ∀ n,
      op = .receiveFrom n ∨ op = .receive n → n < 2 ^ 64 where
  mistaken _ _ _ hx := hx
  consumed x available hx := by
    unfold Receiver.consumed
    split
    · exact hx
    · split
      · split
        all_goals
          rintro _ ⟨⟩ n (⟨⟨⟩⟩ | ⟨⟨⟩⟩)
          exact roundUp_lt available
      · rintro _ ⟨⟩ n (⟨⟨⟩⟩ | ⟨⟨⟩⟩)
  fed x y now drawn datagram hfed hx := by
    unfold Receiver.fed at hfed
    split at hfed
    · cases hfed
      exact hx
    · obtain ⟨t, -, rfl⟩ := Option.map_eq_some_iff.mp hfed
      exact hx
  bound _ _ hx := hx
  joined _ hx := hx

theorem closed_sound (e : Endian) (q : Qos) : Closed e (Sound q) := by
  have hchannel := Closed.of_act e (P := (Transport.system q).Reachable)
    fun ev _ _ _ hsound hact hx => reachable_act ev hx hsound hact
  have hcapacity := closed_capacity e
  exact {
    mistaken x ec hec hx :=
      ⟨hchannel.mistaken x ec hec hx.reachable, hcapacity.mistaken x ec hec hx.capacity⟩
    consumed x n hx :=
      ⟨hchannel.consumed x n hx.reachable, hcapacity.consumed x n hx.capacity⟩
    fed x y now drawn datagram hfed hx :=
      ⟨hchannel.fed x y now drawn datagram hfed hx.reachable,
        hcapacity.fed x y now drawn datagram hfed hx.capacity⟩
    bound x sender hx := ⟨hx.reachable, hx.capacity⟩
    joined x hx := ⟨hx.reachable, hx.capacity⟩ }

theorem taken_transport (e : Endian) (x : Receiver) (r : Outcome) (op : Pending) :
    (x.taken e r op).transport = x.transport := by
  cases op <;> rfl

theorem Sound.taken {q : Qos} (h : x.Sound q) (e : Endian) (r : Outcome) (op : Pending) :
    (x.taken e r op).Sound q := by
  cases op <;> exact ⟨h.reachable, nofun⟩

/-- What holds of the state that a handler leaves holds of the receiver after it, unless it tells
a stuck receiver from the others. -/
theorem ending_all {P : Receiver → Prop} (hstuck : ∀ x, P x → P { x with stuck := true })
    {s : Ending Receiver Unit} (h : s.All P) (hy : ending s = some y) : P y := by
  cases s with
  | returns _ x =>
    cases hy
    exact h
  | blocks x =>
    cases hy
    exact hstuck x h
  | throws => cases hy

theorem Sound.accept {q : Qos} (h : x.Sound q) (remote : Endpoint) (now : Time) {pin : Nat}
    (hpin : pin ≠ 0) (k : Handler) (socket : Ec) :
    (x.accept remote now pin k socket).Sound q := by
  have hreached : ∀ socket, (Transport.system q).Reachable (x.transport.accept now pin k socket) :=
    fun socket => reachable_act (.accept now pin k socket) h.reachable (decide_eq_true hpin) rfl
  unfold Receiver.accept
  split
  · exact ⟨hreached _, h.capacity⟩
  · dsimp only
    split
    · exact ⟨hreached _, by rintro _ ⟨⟩ n (⟨⟨⟩⟩ | ⟨⟨⟩⟩)⟩
    · split
      · exact ⟨hreached _, h.capacity⟩
      · exact ⟨hreached _, by rintro _ ⟨⟩ n (⟨⟨⟩⟩ | ⟨⟨⟩⟩)⟩

theorem Sound.connect {q : Qos} (h : x.Sound q) (remote : Endpoint) (now : Time) {pin : Nat}
    (hpin : pin ≠ 0) (k : Handler) (socket : Ec) :
    (x.connect remote now pin k socket).Sound q := by
  have hreached : (Transport.system q).Reachable (x.transport.connect now pin k socket) :=
    reachable_act (.connect now pin k socket) h.reachable (decide_eq_true hpin) rfl
  unfold Receiver.connect
  dsimp only
  split
  · exact ⟨hreached, h.capacity⟩
  · split
    · exact ⟨hreached, h.capacity⟩
    · exact ⟨hreached, by rintro _ ⟨⟩ n (⟨⟨⟩⟩ | ⟨⟨⟩⟩)⟩

/-- What a step is, of a receiver that is not stuck. -/
theorem step_cases {ev : Event} (hstep : x.step e ev = some y) :
    x.stuck = false ∧
      ((∃ remote now pin k socket, ev = .accept remote now pin k socket ∧ pin ≠ 0 ∧
          y = x.accept remote now pin k socket) ∨
        (∃ remote now pin k socket, ev = .connect remote now pin k socket ∧ pin ≠ 0 ∧
          y = x.connect remote now pin k socket) ∨
        (∃ event t out, ev = .call event ∧ event.sound = true ∧ isPlain event = true ∧
          x.transport.act event = some (t, out) ∧
          y = { x with transport := t, peer := if x.closes event then none else x.peer }) ∨
        ∃ r op, ev = .completed r ∧ x.pending = some op ∧
          ending (handler e r op false (x.taken e r op)) = some y) := by
  unfold step at hstep
  split at hstep
  · cases hstep
  · next hfree =>
    refine ⟨by simpa using hfree, ?_⟩
    cases ev with
    | accept remote now pin k socket =>
      obtain ⟨hpin, hy⟩ := Option.ite_none_left_eq_some.mp hstep
      exact .inl ⟨remote, now, pin, k, socket, rfl, hpin, (Option.some.inj hy).symm⟩
    | connect remote now pin k socket =>
      obtain ⟨hpin, hy⟩ := Option.ite_none_left_eq_some.mp hstep
      exact .inr (.inl ⟨remote, now, pin, k, socket, rfl, hpin, (Option.some.inj hy).symm⟩)
    | call event =>
      obtain ⟨hevent, hy⟩ := Option.ite_none_right_eq_some.mp hstep
      obtain ⟨hsound, hplain⟩ := Bool.and_eq_true_iff.mp hevent
      obtain ⟨⟨t, out⟩, hact, rfl⟩ := Option.map_eq_some_iff.mp hy
      exact .inr (.inr (.inl ⟨event, t, out, rfl, hsound, hplain, hact, rfl⟩))
    | completed r =>
      dsimp only at hstep
      cases hop : x.pending with
      | none =>
        rw [hop] at hstep
        cases hstep
      | some op =>
        rw [hop] at hstep
        exact .inr (.inr (.inr ⟨r, op, rfl, rfl, hstep⟩))

theorem Sound.step {q : Qos} {ev : Event} (h : x.Sound q) (hstep : x.step e ev = some y) :
    y.Sound q := by
  obtain ⟨-, ⟨_, _, _, _, _, -, hpin, rfl⟩ | ⟨_, _, _, _, _, -, hpin, rfl⟩ |
    ⟨event, t, out, -, hsound, -, hact, rfl⟩ | ⟨r, op, -, -, hy⟩⟩ := step_cases hstep
  · exact h.accept _ _ hpin _ _
  · exact h.connect _ _ hpin _ _
  · exact ⟨reachable_act event h.reachable hsound hact, h.capacity⟩
  · have hall := (closed_sound e q).handler r op false _ (h.taken e r op)
    exact ending_all (fun _ hx => ⟨hx.reachable, hx.capacity⟩) hall hy

/-- The channel of every receiver that can be reached is one that its own events lead to. -/
theorem sound {q : Qos} {secret : UInt64} {ok : Receiver → Event → Prop}
    (h : (system e q secret).Reaches ok x) : x.Sound q := by
  refine System.Reaches.invariant (P := Sound q) ?_ ?_ h
  · rintro x rfl
    exact ⟨.start rfl, nofun⟩
  · intro x ev y _ hx hstep
    exact hx.step hstep

/-! ## Datagrams of any size -/

theorem length_invertLoop (e : Endian) (salt : UInt64) (dim : Bool) (fuel : Nat) (word : UInt64)
    (b : Bytes) : (Datagram.invertLoop e salt dim fuel word b).length = b.length := by
  induction fuel generalizing word b with
  | zero => rfl
  | succ fuel ih =>
    unfold Datagram.invertLoop
    split
    · next hlong =>
      simp only [List.length_append, xorBytes, List.length_zipWith, List.length_take,
        Endian.length_store, ih, List.length_drop]
      omega
    · next hshort =>
      simp only [xorBytes, List.length_zipWith, Endian.length_store]
      omega

/-- Hiding and showing keep the length of a packet that has a salt. -/
theorem length_invert (e : Endian) (secret drawn : UInt64) {p : Bytes} (h : 8 ≤ p.length) :
    (Datagram.invert e secret drawn p).length = p.length := by
  unfold Datagram.invert
  dsimp only
  split
  all_goals
    simp only [List.length_append, Endian.length_store, List.length_replicate, length_invertLoop,
      List.length_drop]
    omega

theorem length_shown (e : Endian) (x : Receiver) (drawn : UInt64) {datagram : Bytes}
    (h : Datagram.headerSize ≤ datagram.length) :
    (x.shown e drawn datagram).length = datagram.length := by
  unfold shown
  split
  · rfl
  · exact length_invert e _ drawn (Nat.le_trans (by decide) h)

/-- Does the datagram trip the channel once it is shown? -/
def Trips (e : Endian) (x : Receiver) (drawn : UInt64) (datagram : Bytes) : Prop :=
  Datagram.headerSize ≤ datagram.length ∧ x.transport.Trips (x.shown e drawn datagram)

theorem fed_isSome_iff {q : Qos} (h : x.Sound q) (e : Endian) (now : Time) (drawn : UInt64)
    {datagram : Bytes} (hlt : datagram.length < 2 ^ 64) :
    (fed e now drawn datagram x).isSome = true ↔ ¬ x.Trips e drawn datagram := by
  unfold fed Trips
  split
  · next hshort =>
    constructor
    · intro _ htrips
      exact absurd htrips.1 (Nat.not_le.mpr hshort)
    · intro _
      rfl
  · next hlong =>
    have hle := Nat.le_of_not_lt hlong
    have hlen := length_shown e x drawn hle
    rw [Option.isSome_map, Transport.feedBytes_returns_iff (Transport.readers_sound h.reachable) now
      (hlen ▸ hlt), not_and]
    constructor
    · intro hno _
      exact hno
    · intro hno
      exact hno hle

theorem fed_eq_none_iff {q : Qos} (h : x.Sound q) (e : Endian) (now : Time) (drawn : UInt64)
    {datagram : Bytes} (hlt : datagram.length < 2 ^ 64) :
    fed e now drawn datagram x = none ↔ x.Trips e drawn datagram := by
  rw [← Option.not_isSome_iff_eq_none, fed_isSome_iff h e now drawn hlt, not_not]

end Receiver

end Tubus.Udp
