import Mathlib.Data.List.Perm.Basic
import Tubus.Laws.Callbacks
import Tubus.Laws.Capture
import Tubus.Udp.Acceptor

/-!
# The acceptor keeps its promises

A handler passed to `async_accept` waits with the acceptor until a datagram comes, and is then
called by the acceptor or passed on to the socket; a socket posts or stores what was passed to it,
as long as no stored handler is overwritten (`handlers_kept`). So no accept is forgotten on its way
from the acceptor through the socket to its connector.

A socket that only the acceptor has told to accept knows its peer from the start. It never listens
to anybody, so neither can a stray datagram take it, nor does its receive loop come to wait for
itself (`peers_bound`).
-/

namespace Tubus.Udp

open Lib

/-! ## The handlers of a socket -/

namespace Receiver

variable {e : Endian} {x y : Receiver}

/-- The handlers that an event of a socket overwrites. -/
def overwritten (x : Receiver) : Event → List Handler
  | .call event => x.transport.overwritten event
  | .accept _ _ _ _ _ | .connect _ _ _ _ _ | .completed _ => []

theorem accept_transport (x : Receiver) (remote : Endpoint) (now : Time) (pin : Nat) (k : Handler)
    (socket : Ec) : ∃ socket', (x.accept remote now pin k socket).transport =
      x.transport.accept now pin k socket' := by
  unfold accept
  split
  · exact ⟨_, rfl⟩
  · dsimp only
    split
    · exact ⟨_, rfl⟩
    · split <;> exact ⟨_, rfl⟩

theorem connect_transport (x : Receiver) (remote : Endpoint) (now : Time) (pin : Nat)
    (k : Handler) (socket : Ec) : (x.connect remote now pin k socket).transport =
      x.transport.connect now pin k socket := by
  unfold connect
  dsimp only
  split
  · rfl
  · split <;> rfl

/-- The connector is armed, and has had so many copies of a handler. -/
structure Holds (k : Handler) (n : Nat) (t : Transport) : Prop where
  armed : t.connector.Armed
  share : t.connector.share k = n

/-- The account of one event of a channel. -/
theorem Holds.act {k : Handler} {n : Nat} {t t' : Transport} {out : Option Packet}
    (h : Holds k n t) (event : Udp.Event) (hsound : event.sound = true)
    (hact : t.act event = some (t', out)) : t'.connector.Armed ∧
      t'.connector.share k + (t.overwritten event).count k = n + event.handlers.count k := by
  have hmoves := Transport.act_moves hsound hact
  refine ⟨hmoves.induct (fun _ _ _ _ h a => a.move h) h.armed, ?_⟩
  rw [← h.share]
  exact hmoves.account h.armed k

/-- The account of an event that overwrites none. -/
theorem Holds.call {k : Handler} {n : Nat} {t t' : Transport} {out : Option Packet}
    (h : Holds k n t) (event : Udp.Event) (hsound : event.sound = true)
    (hact : t.act event = some (t', out)) (hover : t.overwritten event = []) :
    Holds k (n + event.handlers.count k) t' := by
  obtain ⟨harmed, hshare⟩ := h.act event hsound hact
  rw [hover, List.count_nil, Nat.add_zero] at hshare
  exact ⟨harmed, hshare⟩

/-- The account of one event of a socket. -/
theorem Holds.step {k : Handler} {n : Nat} {ev : Event} (h : Holds k n x.transport)
    (hstep : x.step e ev = some y) : y.transport.connector.Armed ∧
      y.transport.connector.share k + (x.overwritten ev).count k =
        n + (Acceptor.callbacks ev).count k := by
  obtain ⟨-, ⟨remote, now, pin, k', socket, rfl, hpin, rfl⟩ |
    ⟨remote, now, pin, k', socket, rfl, hpin, rfl⟩ |
    ⟨event, t, out, rfl, hsound, hplain, hact, rfl⟩ | ⟨r, op, rfl, hop, hy⟩⟩ := step_cases hstep
  · obtain ⟨socket', heq⟩ := x.accept_transport remote now pin k' socket
    rw [heq]
    have hcall := h.call (.accept now pin k' socket') (decide_eq_true hpin) rfl rfl
    exact ⟨hcall.armed, (Nat.add_zero _).trans hcall.share⟩
  · rw [x.connect_transport]
    have hcall := h.call (.connect now pin k' socket) (decide_eq_true hpin) rfl rfl
    exact ⟨hcall.armed, (Nat.add_zero _).trans hcall.share⟩
  · have hcalls : Acceptor.callbacks (.call event) = event.handlers := by
      cases event <;> first | rfl | cases hplain
    rw [hcalls]
    exact h.act event hsound hact
  · have hclosed : Closed e fun x => Holds k n x.transport := by
      refine .of_uncalled e fun event t t' out hsound huncalled hact ht => ?_
      obtain ⟨harmed, hshare⟩ := ht.act event hsound hact
      rw [Transport.overwritten_of_uncalled huncalled, huncalled] at hshare
      exact ⟨harmed, hshare⟩
    have htaken : Holds k n (x.taken e r op).transport := by
      rw [taken_transport]
      exact h
    have hdone := ending_all (P := fun x => Holds k n x.transport) (fun _ => id)
      (hclosed.handler r op false _ htaken) hy
    exact ⟨hdone.armed, by rw [hdone.share]; rfl⟩

/-- A socket that waits for no sender it does not know. -/
def Deaf (x : Receiver) : Prop := ∀ n, x.pending ≠ some (.receiveFrom n)

theorem Deaf.consumed (h : x.Deaf) (hknown : x.remote.loose = false) (available : Nat) :
    (consumed available x).Deaf := by
  unfold Receiver.consumed
  split
  · exact h
  · split
    · rw [if_neg (by rw [hknown]; decide)]
      exact fun _ => nofun
    · exact fun _ => nofun

theorem Deaf.fed {now : Time} {drawn : UInt64} {datagram : Bytes} (h : x.Deaf)
    (hy : fed e now drawn datagram x = some y) : y.Deaf ∧ y.stuck = x.stuck := by
  unfold Receiver.fed at hy
  split at hy
  · cases hy
    exact ⟨h, rfl⟩
  · obtain ⟨t, -, rfl⟩ := Option.map_eq_some_iff.mp hy
    exact ⟨h, rfl⟩

theorem consumed_stuck (available : Nat) (x : Receiver) :
    (consumed available x).stuck = x.stuck := by
  unfold consumed
  split
  · rfl
  · split
    · split <;> rfl
    · rfl

/-- The handlers of a socket that knows its peer. -/
theorem Deaf.handler {r : Outcome} {op : Pending} (h : x.Deaf) (hknown : x.remote.loose = false)
    (hop : ∀ n, op ≠ .receiveFrom n) (hy : ending (handler e r op false x) = some y) :
    y.Deaf ∧ y.stuck = x.stuck := by
  cases op with
  | start =>
    cases hy
    exact ⟨h.consumed hknown _, consumed_stuck _ _⟩
  | receiveFrom capacity => exact absurd rfl (hop capacity)
  | receive capacity =>
    rw [Receiver.handler] at hy
    by_cases herror : r.error = .success
    · cases hfed : Receiver.fed e r.now r.drawn (r.datagram.take capacity) x with
      | none =>
        rw [received_none (r := { r with datagram := r.datagram.take capacity }) herror hfed] at hy
        cases hy
      | some z =>
        rw [received_some (r := { r with datagram := r.datagram.take capacity }) herror hfed] at hy
        obtain ⟨hdeaf, hstuck⟩ := h.fed hfed
        have hremote := (quiet_fed hfed).remote
        cases hy
        exact ⟨hdeaf.consumed (hremote ▸ hknown) _, (consumed_stuck _ _).trans hstuck⟩
    · rw [received_error (r := { r with datagram := r.datagram.take capacity }) herror] at hy
      cases hy
      exact ⟨h, rfl⟩
  | wait =>
    rw [Receiver.handler, waited_run] at hy
    split at hy
    · cases hy
      exact ⟨h, rfl⟩
    · cases hy
      exact ⟨h.consumed hknown _, consumed_stuck _ _⟩

end Receiver

/-! ## What a step is -/

namespace Acceptor

variable {e : Endian} {q : Nat → Qos} {secret : Nat → UInt64} {x y : Acceptor} {ev : Event}

/-- A socket that is opened, and told to accept. -/
def welcome (p : Receiver) (w : Waiter) (r : Arrival) : Receiver :=
  { p with transport := p.transport.openAt }.accept r.sender r.now r.pin w.callback r.connecting

/-- The account of a socket that is told to accept. -/
theorem holds_welcome {k : Handler} {n : Nat} {p : Receiver} {w : Waiter} {r : Arrival}
    (h : Receiver.Holds k n p.transport) (named : r.pin ≠ 0) :
    Receiver.Holds k (n + [w.callback].count k) (welcome p w r).transport := by
  obtain ⟨socket, heq⟩ := Receiver.accept_transport
    { p with transport := p.transport.openAt } r.sender r.now r.pin w.callback r.connecting
  unfold welcome
  rw [heq]
  exact (h.call .openAt rfl rfl rfl).call (.accept r.now r.pin w.callback socket)
    (decide_eq_true named) rfl rfl

/-- What an event does. -/
inductive Turn (e : Endian) (x : Acceptor) : Event → Acceptor → Prop where
  | moved {ev : Event} (isOpen : Bool) (host : Endpoint) (own : ∀ i ev', ev ≠ .socket i ev') :
      Turn e x ev { x with isOpen := isOpen, host := host }
  | accept (peer : Nat) (h : Handler) : Turn e x (.accept peer h) (x.accept peer h)
  | told (place : Nat) (r : Arrival) (w : Waiter) (ec : Ec) (waits : x.waiters[place]? = some w)
      (fails : ec ≠ .success) :
      Turn e x (.received place r)
        ({ x with waiters := x.waiters.eraseIdx place }.tell w.callback ec)
  | introduced (place : Nat) (r : Arrival) (w : Waiter) (waits : x.waiters[place]? = some w)
      (came : r.error = .success) (fresh : (x.peers w.peer).transport.connector.status = .neither)
      (free : (x.peers w.peer).stuck = false) (named : r.pin ≠ 0) :
      Turn e x (.received place r)
        { x.setPeer w.peer (welcome (x.peers w.peer) w r) with
          waiters := x.waiters.eraseIdx place
          introduced := x.introduced ++ [⟨w.peer, w.host, r.sender, w.callback⟩] }
  | socket (i : Nat) (ev : Receiver.Event) (p : Receiver) (goes : (x.peers i).step e ev = some p) :
      Turn e x (.socket i ev)
        { x.setPeer i p with others := x.others ++ (callbacks ev).map fun h => (i, h) }

/-- The setup of a socket that is not done leaves an error. -/
theorem setupCode_ne {setup : Tcp.Setup} (h : setup ≠ .done) : setupCode setup ≠ .success := by
  cases setup with
  | done => exact absurd rfl h
  | thrown ec _ => exact ec.2

theorem step_turn (h : step e x ev = some y) : Turn e x ev y := by
  cases ev with
  | «open» host setup =>
    have hown : ∀ i ev', Event.open host setup ≠ .socket i ev' := by
      intro i ev' heq
      cases heq
    cases h
    unfold openAt
    split
    · exact .moved x.isOpen x.host hown
    · cases setup with
      | done => exact .moved true host hown
      | thrown ec opened => exact .moved opened x.host hown
  | close =>
    cases h
    apply Turn.moved false x.host
    intro i ev' heq
    cases heq
  | accept peer k =>
    cases h
    exact .accept peer k
  | received place r =>
    dsimp only [step] at h
    split at h
    · cases h
    · next w hw =>
      obtain ⟨hfree, h⟩ := Option.ite_none_left_eq_some.mp h
      cases h
      unfold received
      split
      · next herror => exact .told place r w r.error hw herror
      · next herror =>
        obtain ⟨hpin, hstuck⟩ := not_or.mp fun hor => hfree ⟨not_not.mp herror, hor⟩
        unfold openPeer
        dsimp only
        split
        · exact .told place r w .noPermission hw (by decide)
        · next hfresh =>
          split
          · next hsetup =>
            rw [if_pos (setupCode_ne hsetup)]
            exact .told place r w _ hw (setupCode_ne hsetup)
          · rw [if_neg (not_not_intro rfl)]
            exact .introduced place r w hw (not_not.mp herror) (not_not.mp hfresh)
              (Bool.eq_false_iff.mpr hstuck) hpin
  | socket i ev =>
    obtain ⟨p, hp, rfl⟩ := Option.map_eq_some_iff.mp h
    exact .socket i ev p hp

/-! ## Every handler is accounted for -/

/-- The handlers that were passed to a socket, by the acceptor and by others. -/
def passed (x : Acceptor) (i : Nat) : List Handler :=
  (x.introduced.filter fun g => g.peer = i).map Introduction.callback ++
    (x.others.filter fun o => o.1 = i).map Prod.snd

/-- The handlers of a socket that an event overwrites. -/
def overwritten (x : Acceptor) (i : Nat) : Event → List Handler
  | .socket j ev => if j = i then (x.peers j).overwritten ev else []
  | .open _ _ | .close | .accept _ _ | .received _ _ => []

/-- Does the event leave the stored handlers of the sockets alone? -/
def Keeps (x : Acceptor) (ev : Event) : Prop := ∀ i, x.overwritten i ev = []

/-- Where the handlers are. -/
structure Kept (x : Acceptor) : Prop where
  armed : ∀ i, (x.peers i).transport.connector.Armed
  asked : ∀ k, (x.waiters.map Waiter.callback).count k + (x.told.map Prod.fst).count k +
    (x.introduced.map Introduction.callback).count k = x.asked.count k
  held : ∀ i k, (x.peers i).transport.connector.share k = (x.passed i).count k

theorem Kept.create : Kept (create q secret) where
  armed _ := .create
  asked _ := rfl
  held _ _ := rfl

/-- A wait that came out waits no more. -/
theorem count_eraseIdx {l : List Waiter} {place : Nat} {w : Waiter} (h : l[place]? = some w)
    (k : Handler) : ((l.eraseIdx place).map Waiter.callback).count k + [w.callback].count k =
      (l.map Waiter.callback).count k := by
  obtain ⟨hlt, rfl⟩ := List.getElem?_eq_some_iff.mp h
  have hperm := (List.getElem_cons_eraseIdx_perm hlt).map Waiter.callback
  rw [← hperm.count_eq k, List.map_cons, List.count_cons, List.count_cons, List.count_nil,
    Nat.zero_add]

theorem passed_introduced (x : Acceptor) (g : Introduction) (i : Nat) (k : Handler) :
    ({ x with introduced := x.introduced ++ [g] }.passed i).count k =
      (x.passed i).count k + if g.peer = i then [g.callback].count k else 0 := by
  unfold passed
  by_cases hi : g.peer = i
  · simp only [List.filter_append, List.filter_cons, List.filter_nil, hi, decide_true,
      List.map_append, List.map_cons, List.map_nil, List.count_append, if_true]
    omega
  · simp [hi]

theorem passed_others (x : Acceptor) (j : Nat) (l : List Handler) (i : Nat) (k : Handler) :
    ({ x with others := x.others ++ l.map fun h => (j, h) }.passed i).count k =
      (x.passed i).count k + if j = i then l.count k else 0 := by
  unfold passed
  by_cases hi : j = i
  · simp [hi, List.filter_map, Function.comp_def, Nat.add_assoc]
  · simp [hi, List.filter_map, Function.comp_def]

/-- The account of one event. -/
theorem Kept.account (h : x.Kept) (hstep : step e x ev = some y) :
    (∀ i, (y.peers i).transport.connector.Armed) ∧
      (∀ k, (y.waiters.map Waiter.callback).count k + (y.told.map Prod.fst).count k +
        (y.introduced.map Introduction.callback).count k = y.asked.count k) ∧
      ∀ i k, (y.peers i).transport.connector.share k + (x.overwritten i ev).count k =
        (y.passed i).count k := by
  have hholds : ∀ i k, Receiver.Holds k ((x.passed i).count k) (x.peers i).transport :=
    fun i k => ⟨h.armed i, h.held i k⟩
  cases step_turn hstep with
  | moved isOpen host own =>
    have hnone : ∀ i, x.overwritten i ev = [] := by
      intro i
      cases ev <;> first | rfl | exact absurd rfl (own _ _)
    refine ⟨h.armed, h.asked, fun i k => ?_⟩
    rw [hnone]
    exact h.held i k
  | accept peer k' =>
    refine ⟨h.armed, fun k => ?_, h.held⟩
    have hasked := h.asked k
    simp only [accept, List.map_append, List.map_singleton, List.count_append]
    omega
  | told place r w ec waits fails =>
    refine ⟨h.armed, fun k => ?_, h.held⟩
    have hasked := h.asked k
    have herase := count_eraseIdx waits k
    simp only [tell, List.map_append, List.map_singleton, List.count_append]
    omega
  | introduced place r w waits came fresh free named =>
    refine ⟨fun i => ?_, fun k => ?_, fun i k => ?_⟩
    · by_cases hi : i = w.peer
      · subst hi
        rw [setPeer_self]
        exact (holds_welcome (hholds w.peer 0) named).armed
      · rw [setPeer_of_ne hi]
        exact h.armed i
    · have hasked := h.asked k
      have herase := count_eraseIdx waits k
      simp only [setPeer, List.map_append, List.map_singleton, List.count_append]
      omega
    · have hpassed := x.passed_introduced ⟨w.peer, w.host, r.sender, w.callback⟩ i k
      refine Eq.trans ?_ hpassed.symm
      by_cases hi : i = w.peer
      · subst hi
        rw [setPeer_self, if_pos rfl]
        exact (holds_welcome (hholds w.peer k) named).share
      · rw [setPeer_of_ne hi, if_neg (Ne.symm hi)]
        exact h.held i k
  | socket j ev' p goes =>
    refine ⟨fun i => ?_, h.asked, fun i k => ?_⟩
    · by_cases hi : i = j
      · subst hi
        rw [setPeer_self]
        exact ((hholds i 0).step goes).1
      · rw [setPeer_of_ne hi]
        exact h.armed i
    · have hpassed := x.passed_others j (callbacks ev') i k
      refine Eq.trans ?_ hpassed.symm
      by_cases hi : i = j
      · subst hi
        rw [setPeer_self, overwritten, if_pos rfl, if_pos rfl]
        exact ((hholds i k).step goes).2
      · rw [setPeer_of_ne hi, overwritten, if_neg (Ne.symm hi), if_neg (Ne.symm hi)]
        exact h.held i k

theorem Kept.step_iff (h : x.Kept) (hstep : step e x ev = some y) : y.Kept ↔ x.Keeps ev := by
  obtain ⟨harmed, hasked, hheld⟩ := h.account hstep
  constructor
  · intro hy i
    refine List.eq_nil_iff_forall_not_mem.mpr fun k hk => ?_
    have hone := List.count_pos_iff.mpr hk
    have hshare := hheld i k
    rw [hy.held i k] at hshare
    omega
  · intro hkeeps
    refine ⟨harmed, hasked, fun i k => ?_⟩
    rw [← hheld i k, hkeeps i, List.count_nil, Nat.add_zero]

theorem kept (h : (system e q secret).Reaches Keeps x) : x.Kept := by
  refine System.Reaches.invariant ?_ ?_ h
  · rintro x rfl
    exact .create
  · intro x ev y hkeeps hx hstep
    exact (hx.step_iff hstep).mpr hkeeps

/-- In every run in which no stored handler of a socket is overwritten, each handler passed to
`async_accept` waits with the acceptor, was called by it, or was passed on to a socket, once for
each time it was passed; and the handlers that a socket has posted and those it has stored are
those that were passed to it, by the acceptor and by others. A further step leaves it so exactly if
it overwrites none either. -/
theorem handlers_kept (h : (system e q secret).Reaches Keeps x) :
    (x.waiters.map Waiter.callback ++ x.told.map Prod.fst ++
        x.introduced.map Introduction.callback).Perm x.asked ∧
      (∀ i, ((x.peers i).transport.connector.answered ++
        (x.peers i).transport.connector.held).Perm (x.passed i)) ∧
      ∀ ev y, step e x ev = some y → ((∀ i, ((y.peers i).transport.connector.answered ++
        (y.peers i).transport.connector.held).Perm (y.passed i)) ↔ x.Keeps ev) := by
  have hkept := kept h
  refine ⟨List.perm_iff_count.mpr fun k => ?_, fun i => List.perm_iff_count.mpr (hkept.held i), ?_⟩
  · rw [List.count_append, List.count_append]
    exact hkept.asked k
  · intro ev y hstep
    obtain ⟨harmed, hasked, -⟩ := hkept.account hstep
    refine Iff.trans ⟨fun hall => ?_, fun hy i => ?_⟩ (hkept.step_iff hstep)
    · exact ⟨harmed, hasked, fun i => (hall i).count_eq⟩
    · exact List.perm_iff_count.mpr (hy.held i)

/-- The test of `Keeps`. -/
def keeps (x : Acceptor) : Event → Bool
  | .socket i ev => ((x.peers i).overwritten ev).isEmpty
  | .open _ _ | .close | .accept _ _ | .received _ _ => true

theorem keeps_sound (x : Acceptor) (ev : Event) (h : x.keeps ev = true) : x.Keeps ev := by
  intro i
  cases ev with
  | socket j ev =>
    rw [overwritten, List.isEmpty_iff.mp h, ite_self]
  | «open» _ _ | close | accept _ _ | received _ _ => rfl

/-- Where the acceptor of the runs below is bound to. -/
def stall : Endpoint := ⟨.v4 0x7F000001, 3000⟩

/-- A datagram of a neighbour comes, and all goes well. -/
def visit : Arrival := ⟨.success, Receiver.neighbour, .done, 1, 5, .success⟩

/-- Two accepts for one socket, and two datagrams. -/
theorem handlers_kept_two : ∃ x, (system .little (fun _ => .default) fun _ => 0).Reaches Keeps x ∧
    (x.told.map Prod.fst ++ x.introduced.map Introduction.callback).Perm [1, 2] ∧
    ((x.peers 0).transport.connector.answered ++
      (x.peers 0).transport.connector.held).Perm [1] := by
  have hrun : ((system .little (fun _ => .default) fun _ => 0).checked keeps
      (create (fun _ => .default) fun _ => 0)
      [.open stall .done, .accept 0 1, .accept 0 2, .received 0 visit, .received 0 visit]).map
        (fun x => (x.waiters, x.asked, x.passed 0)) = some ([], [1, 2], [1]) := by decide +kernel
  obtain ⟨x, hx, hv⟩ := Option.map_eq_some_iff.mp hrun
  simp only [Prod.mk.injEq] at hv
  obtain ⟨hwaiters, hasked, hpassed⟩ := hv
  have hreached := System.Reaches.checked keeps_sound _ (.start rfl) hx
  obtain ⟨hall, hpeers, -⟩ := handlers_kept hreached
  rw [hwaiters, hasked] at hall
  exact ⟨x, hreached, hall, hpassed ▸ hpeers 0⟩

/-! ## An accepted socket knows its peer -/

/-- The introductions of a socket. -/
def guests (x : Acceptor) (i : Nat) : List Introduction :=
  x.introduced.filter fun g => g.peer = i

/-- Only the acceptor tells sockets whom to accept, and every sender has an address and a port. -/
def Through : Event → Prop
  | .received _ r => r.error = .success → r.sender.loose = false
  | .socket _ ev => (∃ event, ev = .call event) ∨ ∃ r, ev = .completed r
  | .open _ _ | .close | .accept _ _ => True

/-- A socket before it is introduced, and after it was. -/
structure Bound (x : Acceptor) (i : Nat) : Prop where
  free : (x.peers i).stuck = false
  deaf : (x.peers i).Deaf
  heard : (x.peers i).heard = []
  idle : x.guests i = [] → (x.peers i).pending = none ∧ (x.peers i).peer = none
  guest : ∀ g ∈ x.guests i, x.guests i = [g] ∧ (x.peers i).remote = g.remote
  started : x.guests i ≠ [] → 0 < (x.peers i).transport.connector.status.rank
  known : x.guests i ≠ [] → (x.peers i).remote.loose = false
  peer : ∀ r, (x.peers i).peer = some r → (x.peers i).remote = r

theorem Bound.create (i : Nat) : (create q secret).Bound i where
  free := rfl
  deaf _ := nofun
  heard := rfl
  idle _ := ⟨rfl, rfl⟩
  guest _ hg := absurd hg List.not_mem_nil
  started h := absurd rfl h
  known h := absurd rfl h
  peer _ := nofun

/-- A socket that stays with its peer. -/
theorem Bound.left {i : Nat} (h : x.Bound i) {p : Receiver} (hleft : (x.peers i).Left p)
    (hfree : p.stuck = (x.peers i).stuck) (hdeaf : p.Deaf)
    (hrank : (x.peers i).transport.connector.status.rank ≤ p.transport.connector.status.rank)
    (hidle : x.guests i = [] → p.pending = none) (hp : y.peers i = p)
    (hguests : y.guests i = x.guests i) : y.Bound i := by
  subst hp
  refine ⟨hfree.trans h.free, hdeaf, hleft.heard.trans h.heard, ?_, ?_, ?_, ?_, fun r hr => ?_⟩
  · rw [hguests]
    exact fun hnone => ⟨hidle hnone, hleft.peer.elim (fun heq => heq.trans (h.idle hnone).2) id⟩
  · rw [hguests, hleft.remote]
    exact h.guest
  · rw [hguests]
    exact fun hsome => Nat.lt_of_lt_of_le (h.started hsome) hrank
  · rw [hguests, hleft.remote]
    exact h.known
  · rcases hleft.peer with heq | hnone
    · rw [hleft.remote]
      exact h.peer r (heq.symm.trans hr)
    · rw [hnone] at hr
      cases hr

/-- A socket that is left as it is. -/
theorem Bound.same {i : Nat} (h : x.Bound i) (hpeer : y.peers i = x.peers i)
    (hguests : y.guests i = x.guests i) : y.Bound i :=
  h.left ⟨rfl, rfl, rfl, rfl, .inl rfl⟩ rfl h.deaf (Nat.le_refl _) (fun hnone => (h.idle hnone).1)
    hpeer hguests

/-- A fresh socket that is told to accept a sender with an address and a port is bound to it. -/
theorem welcome_bound {p : Receiver} {w : Waiter} {r : Arrival}
    (hfresh : p.transport.connector.status = .neither) (hknown : r.sender.loose = false) :
    (welcome p w r).stuck = p.stuck ∧ (welcome p w r).heard = p.heard ∧
      (welcome p w r).remote = r.sender ∧
      0 < (welcome p w r).transport.connector.status.rank ∧
      (((welcome p w r).pending = p.pending ∧ (welcome p w r).peer = p.peer) ∨
        ((welcome p w r).pending = some .start ∧ (welcome p w r).peer = some r.sender)) := by
  have hopened : p.transport.openAt.connector.status = .initial := by
    rw [Transport.openAt, if_pos hfresh]
    rfl
  have hrank : ∀ socket, 0 < (p.transport.openAt.accept r.now r.pin w.callback
      socket).connector.status.rank := fun socket =>
    Nat.lt_of_lt_of_le (by rw [hopened]; decide)
      (Transport.act_rank (e := .accept r.now r.pin w.callback socket) rfl)
  unfold welcome Receiver.accept
  rw [if_neg (not_not_intro hopened)]
  dsimp only
  rw [if_neg (by rw [hknown]; decide)]
  split
  · exact ⟨rfl, rfl, rfl, hrank _, .inl ⟨rfl, rfl⟩⟩
  · exact ⟨rfl, rfl, rfl, hrank _, .inr ⟨rfl, rfl⟩⟩

/-- A fresh socket is introduced. -/
theorem Bound.introduced {w : Waiter} {r : Arrival} (h : x.Bound w.peer)
    (hfresh : (x.peers w.peer).transport.connector.status = .neither)
    (hknown : r.sender.loose = false) (hpeer : y.peers w.peer = welcome (x.peers w.peer) w r)
    (hguests : y.guests w.peer =
      x.guests w.peer ++ [⟨w.peer, w.host, r.sender, w.callback⟩]) : y.Bound w.peer := by
  have hnone : x.guests w.peer = [] := by
    by_contra hsome
    have hpos := h.started hsome
    rw [hfresh] at hpos
    exact absurd hpos (by decide)
  obtain ⟨hpending, hfree⟩ := h.idle hnone
  rw [hnone, List.nil_append] at hguests
  obtain ⟨hstuck, hheard, hremote, hrank, hgoes⟩ := welcome_bound (w := w) hfresh hknown
  rw [hpending, hfree] at hgoes
  refine ⟨?_, ?_, ?_, fun hempty => ?_, fun g hg => ?_, fun _ => ?_, fun _ => ?_, fun r' hr => ?_⟩
  · rw [hpeer]
    exact hstuck.trans h.free
  · rw [hpeer]
    intro n
    rcases hgoes with ⟨hp, -⟩ | ⟨hp, -⟩ <;> rw [hp] <;> exact nofun
  · rw [hpeer]
    exact hheard.trans h.heard
  · rw [hguests] at hempty
    cases hempty
  · rw [hguests] at hg ⊢
    cases List.mem_singleton.mp hg
    rw [hpeer]
    exact ⟨rfl, hremote⟩
  · rw [hpeer]
    exact hrank
  · rw [hpeer, hremote]
    exact hknown
  · rw [hpeer] at hr ⊢
    rcases hgoes with ⟨-, hp⟩ | ⟨-, hp⟩ <;> rw [hp] at hr <;> cases hr
    exact hremote

/-- A socket goes on by itself. -/
theorem Bound.socket {i : Nat} {ev : Receiver.Event} {p : Receiver} (h : x.Bound i)
    (hthrough : Through (.socket i ev)) (goes : (x.peers i).step e ev = some p)
    (hpeer : y.peers i = p) (hguests : y.guests i = x.guests i) : y.Bound i := by
  obtain ⟨-, ⟨remote, now, pin, k, socket, rfl, -, -⟩ | ⟨remote, now, pin, k, socket, rfl, -, -⟩ |
    ⟨event, t, out, -, -, -, hact, rfl⟩ | ⟨r, op, -, hop, hy⟩⟩ := Receiver.step_cases goes
  · rcases hthrough with ⟨_, heq⟩ | ⟨_, heq⟩ <;> cases heq
  · rcases hthrough with ⟨_, heq⟩ | ⟨_, heq⟩ <;> cases heq
  · refine h.left (p := { x.peers i with transport := t, peer := _ }) ⟨rfl, rfl, rfl, rfl, ?_⟩ rfl
      h.deaf (Transport.act_rank hact) (fun hnone => (h.idle hnone).1) hpeer hguests
    dsimp only
    split
    · exact .inr rfl
    · exact .inl rfl
  · -- the receive loop runs, so the socket was introduced and knows its peer
    have hsome : x.guests i ≠ [] := by
      intro hnone
      rw [(h.idle hnone).1] at hop
      cases hop
    have hstranger : ∀ n, op ≠ .receiveFrom n := by
      rintro n rfl
      exact h.deaf n hop
    have htaken : (x.peers i).taken e r op = { x.peers i with pending := none } := by
      cases op with
      | receiveFrom n => exact absurd rfl (hstranger n)
      | start | receive | wait => rfl
    rw [htaken] at hy
    have hfixes : ¬ { x.peers i with pending := none }.Fixes r op := by
      rintro ⟨n, heq, -⟩
      exact hstranger n heq
    have hleft := Receiver.handler_left hfixes hy
    have hquiet := Receiver.Deaf.handler (x := { x.peers i with pending := none })
      (fun _ => nofun) (h.known hsome) hstranger hy
    have hclosed := Receiver.Closed.of_act e
      (P := fun t => (x.peers i).transport.connector.status.rank ≤ t.connector.status.rank)
      fun _ _ _ _ _ hact hle => Nat.le_trans hle (Transport.act_rank hact)
    have hrank := Receiver.ending_all
      (P := fun y => (x.peers i).transport.connector.status.rank ≤
        y.transport.connector.status.rank)
      (fun _ => id) (hclosed.handler r op false { x.peers i with pending := none }
        (Nat.le_refl _)) hy
    exact h.left ⟨hleft.asked, hleft.dialled, hleft.heard, hleft.remote, hleft.peer⟩ hquiet.2
      hquiet.1 hrank (fun hnone => absurd hnone hsome) hpeer hguests

theorem Bound.step {i : Nat} (h : x.Bound i) (hthrough : Through ev)
    (hstep : step e x ev = some y) : y.Bound i := by
  cases step_turn hstep with
  | moved | accept | told => exact h.same rfl rfl
  | introduced place r w waits came fresh free named =>
    by_cases hi : w.peer = i
    · subst hi
      refine h.introduced fresh (hthrough came) (setPeer_self _ _ _) ?_
      simp [guests]
    · refine h.same (setPeer_of_ne (Ne.symm hi)) ?_
      simp [guests, hi]
  | socket j ev' p goes =>
    by_cases hi : i = j
    · subst hi
      exact h.socket hthrough goes (setPeer_self _ _ _) rfl
    · exact h.same (setPeer_of_ne hi) rfl

/-- In every run in which only the acceptor tells sockets whom to accept, and every sender has an
address and a port, no socket comes to wait for itself, and none listens to a sender it does not
know. A socket is told to accept at most once. Before that it has no peer; after it its remote
endpoint is the sender of the datagram that was accepted, and it is connected to nobody else. -/
theorem peers_bound (h : (system e q secret).Reaches (fun _ ev => Through ev) x) (i : Nat) :
    (x.peers i).stuck = false ∧ (∀ n, (x.peers i).pending ≠ some (.receiveFrom n)) ∧
      (x.peers i).heard = [] ∧
      ((x.guests i = [] ∧ (x.peers i).pending = none ∧ (x.peers i).peer = none) ∨
        ∃ g, x.guests i = [g] ∧ (x.peers i).remote = g.remote ∧
          ∀ r, (x.peers i).peer = some r → r = g.remote) := by
  have hbound : x.Bound i := by
    refine System.Reaches.invariant (P := fun x => x.Bound i) ?_ ?_ h
    · rintro x rfl
      exact .create i
    · intro x ev y hthrough hx hstep
      exact hx.step hthrough hstep
  refine ⟨hbound.free, hbound.deaf, hbound.heard, ?_⟩
  cases hguests : x.guests i with
  | nil => exact .inl ⟨rfl, hbound.idle hguests⟩
  | cons g rest =>
    obtain ⟨hone, hremote⟩ := hbound.guest g (by rw [hguests]; exact List.mem_cons_self)
    refine .inr ⟨g, hguests.symm.trans hone, hremote, fun r hr => ?_⟩
    exact (hbound.peer r hr).symm.trans hremote

/-- The test of `Through`. -/
def through : Event → Bool
  | .received _ r => decide (r.error = .success → r.sender.loose = false)
  | .socket _ (.call _) | .socket _ (.completed _) => true
  | .socket _ _ => false
  | .open _ _ | .close | .accept _ _ => true

theorem through_sound (_ : Acceptor) (ev : Event) (h : through ev = true) : Through ev := by
  cases ev with
  | received _ r =>
    unfold Through
    exact of_decide_eq_true h
  | socket i ev =>
    cases ev with
    | accept _ _ _ _ _ | connect _ _ _ _ _ => cases h
    | call event => exact .inl ⟨event, rfl⟩
    | completed r => exact .inr ⟨r, rfl⟩
  | «open» _ _ | close | accept _ _ => trivial

/-- A socket accepts a neighbour, and waits for its datagrams only. -/
theorem peers_bound_visit : ∃ x, (system .little (fun _ => .default) fun _ => 0).Reaches
    (fun _ ev => Through ev) x ∧ (x.peers 0).pending = some (.receive 256) ∧
      (x.peers 0).remote = Receiver.neighbour ∧
      ∀ r, (x.peers 0).peer = some r → r = Receiver.neighbour := by
  have hrun : ((system .little (fun _ => .default) fun _ => 0).checked (fun _ => through)
      (create (fun _ => .default) fun _ => 0)
      [.open stall .done, .accept 0 1, .received 0 visit,
        .socket 0 (.completed Receiver.ready)]).map (fun x => (x.guests 0, (x.peers 0).pending)) =
      some ([⟨0, stall, Receiver.neighbour, 1⟩], some (.receive 256)) := by decide +kernel
  obtain ⟨x, hx, hv⟩ := Option.map_eq_some_iff.mp hrun
  obtain ⟨hguests, hpending⟩ := Prod.mk.inj hv
  have hreached := System.Reaches.checked through_sound _ (.start rfl) hx
  obtain ⟨-, -, -, ⟨hnone, -⟩ | ⟨g, hone, hremote, hpeer⟩⟩ := peers_bound hreached 0
  · rw [hguests] at hnone
    cases hnone
  · cases List.singleton_inj.mp (hguests.symm.trans hone)
    exact ⟨x, hreached, hpending, hremote, hpeer⟩

end Acceptor

end Tubus.Udp
