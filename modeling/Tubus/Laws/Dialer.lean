import Mathlib.Data.List.Perm.Basic
import Tubus.Tcp.Dialer

/-!
# The handlers of a TCP channel that connects

Of the calls that take a handler, whatever the order of completions, timers and further calls. Each
handler is in one place at any time (`Dialer.held`): with an operation, with a wait for the next
attempt, or called. There is one exception: `remote_endpoint` throws in the handler of an accept if
the peer is gone, and takes the handler along (`handlers_kept_iff`). Attempts come to an end
(`attempts_end`), and only peers that were asked for are reported (`peers_expected`).
-/

namespace Tubus.Tcp

open Lib
open Udp (Endpoint)

/-- The handler that an operation will lead to. -/
def Op.handler : Op → Handler
  | .connect _ h _ | .accept _ h | .verdict _ h _ => h

/-- The handler that a wait will lead to, if any. -/
def Alarm.handlers : Alarm → List Handler
  | .closeSocket | .closeAcceptor => []
  | .retry _ h _ => [h]

namespace Dialer

variable {timeout : Int} {x x' : Dialer} {ev : Event}

/-- The handlers that are still to be called. -/
def owed (x : Dialer) : List Handler :=
  x.ops.map Op.handler ++ (x.waits.map fun w => w.alarm.handlers).flatten

/-- In how many places a handler is. -/
def held (x : Dialer) (k : Handler) : Nat :=
  x.owed.count k + (x.calls.map Prod.fst).count k

/-! ## Where a handler goes -/

theorem held_call (x : Dialer) (h : Handler) (ec : Ec) (k : Handler) :
    (x.call h ec).held k = x.held k + [h].count k := by
  simp only [held, call, owed, List.map_append, List.count_append, List.map_singleton]
  omega

theorem held_cancel (x : Dialer) (k : Handler) : x.cancel.held k = x.held k := by
  simp only [held, cancel, owed, List.map_map]
  rfl

theorem held_wait (x : Dialer) (alarm : Alarm) (k : Handler) :
    (x.wait alarm).held k = x.held k + alarm.handlers.count k := by
  simp only [held, wait, owed, List.map_append, List.flatten_append, List.count_append,
    List.map_singleton, List.flatten_singleton]
  omega

theorem held_start (x : Dialer) (op : Op) (k : Handler) :
    (x.start op).held k = x.held k + [op.handler].count k := by
  simp only [held, start, owed, List.map_append, List.count_append, List.map_singleton]
  omega

theorem held_doConnect (setup : Setup) (x : Dialer) (remote : Endpoint) (h : Handler)
    (deadline : Time) (k : Handler) :
    (x.doConnect setup remote h deadline).held k = x.held k + [h].count k := by
  cases setup with
  | done =>
    rw [doConnect, held_start, held_wait, held_cancel]
    rfl
  | thrown ec opened => exact held_call _ h ec k

theorem held_doAccept (setup : Setup) (x : Dialer) (remote : Endpoint) (h : Handler)
    (k : Handler) : (x.doAccept setup remote h).held k = x.held k + [h].count k := by
  unfold doAccept
  split
  · exact held_start _ _ k
  · split
    · exact held_call _ h _ k
    · cases setup with
      | done =>
        dsimp only
        rw [held_start, held_wait, held_cancel]
        rfl
      | thrown ec opened => exact held_call _ h ec k

theorem held_settle (x : Dialer) (h : Handler) (ec : Ec) (k : Handler) :
    (x.settle h ec).held k = x.held k + [h].count k := by
  rw [settle, held_call, ← held_cancel x]
  rfl

theorem held_connected (x : Dialer) (remote : Endpoint) (h : Handler) (deadline : Time) (ec : Ec)
    (now : Time) (k : Handler) :
    (x.connected remote h deadline ec now).held k = x.held k + [h].count k := by
  unfold connected
  split
  · dsimp only
    split
    · rw [held_call, held_cancel]
    · split
      · rw [held_call, held_cancel]
      · rw [held_wait, held_cancel, held_cancel]
        rfl
  · exact held_call x h _ k

/-- The handler is gone if `remote_endpoint` throws. -/
theorem held_accepted (x : Dialer) (remote : Endpoint) (h : Handler) (r : Accepted) (k : Handler) :
    (x.accepted remote h r).held k =
      x.held k + if x.alive = true ∧ r = .peer none then 0 else [h].count k := by
  unfold accepted
  split
  · next halive =>
    cases r with
    | failed ec =>
      rw [if_neg (fun hr => nomatch hr.2)]
      exact held_settle x h ec k
    | peer actual =>
      cases actual with
      | none =>
        rw [if_pos ⟨halive, rfl⟩]
        rfl
      | some actual =>
        rw [if_neg (fun hr => nomatch hr.2)]
        exact held_start _ _ k
  · next hgone =>
    rw [if_neg (fun hr => hgone hr.1)]
    exact held_call x h _ k

theorem held_decided (setup : Setup) (x : Dialer) (remote : Endpoint) (h : Handler)
    (expected : Bool) (k : Handler) :
    (x.decided setup remote h expected).held k = x.held k + [h].count k := by
  unfold decided
  split
  · exact held_settle x h _ k
  · exact held_doAccept setup x remote h k

theorem held_woken (setup : Setup) (x : Dialer) (alarm : Alarm) (expired : Bool) (k : Handler) :
    (x.woken setup alarm expired).held k = x.held k + alarm.handlers.count k := by
  cases alarm with
  | closeSocket =>
    simp only [woken]
    split <;> rfl
  | closeAcceptor =>
    simp only [woken]
    split <;> rfl
  | retry remote h deadline =>
    simp only [woken]
    split
    · split
      · exact held_doConnect setup x remote h deadline k
      · exact held_call x h _ k
    · exact held_call x h _ k

/-! ## Where it comes from -/

/-- An element taken out of its place is as good as the first one. -/
theorem perm_cons_eraseIdx {α : Type} {l : List α} {place : Nat} {a : α}
    (h : l[place]? = some a) : (a :: l.eraseIdx place).Perm l := by
  obtain ⟨hlt, rfl⟩ := List.getElem?_eq_some_iff.mp h
  exact List.getElem_cons_eraseIdx_perm hlt

theorem held_eraseOp {place : Nat} {op : Op} (h : x.ops[place]? = some op) (k : Handler) :
    { x with ops := x.ops.eraseIdx place }.held k + [op.handler].count k = x.held k := by
  have hcount := ((perm_cons_eraseIdx h).map Op.handler).count_eq k
  rw [List.map_cons, ← List.singleton_append, List.count_append] at hcount
  simp only [held, owed, List.count_append]
  omega

theorem held_eraseWait {place : Nat} {w : Wait} (h : x.waits[place]? = some w) (k : Handler) :
    { x with waits := x.waits.eraseIdx place }.held k + w.alarm.handlers.count k = x.held k := by
  have hcount := ((perm_cons_eraseIdx h).map fun w => w.alarm.handlers).flatten.count_eq k
  rw [List.map_cons, List.flatten_cons, List.count_append] at hcount
  simp only [held, owed, List.count_append]
  omega

/-! ## What was asked for stays -/

theorem asked_doConnect (setup : Setup) (x : Dialer) (remote : Endpoint) (h : Handler)
    (deadline : Time) : (x.doConnect setup remote h deadline).asked = x.asked := by
  cases setup <;> rfl

theorem asked_doAccept (setup : Setup) (x : Dialer) (remote : Endpoint) (h : Handler) :
    (x.doAccept setup remote h).asked = x.asked := by
  unfold doAccept
  split
  · rfl
  · split
    · rfl
    · cases setup <;> rfl

theorem asked_connected (x : Dialer) (remote : Endpoint) (h : Handler) (deadline : Time) (ec : Ec)
    (now : Time) : (x.connected remote h deadline ec now).asked = x.asked := by
  unfold connected
  split
  · dsimp only
    split
    · rfl
    · split <;> rfl
  · rfl

theorem asked_accepted (x : Dialer) (remote : Endpoint) (h : Handler) (r : Accepted) :
    (x.accepted remote h r).asked = x.asked := by
  unfold accepted
  split
  · cases r with
    | failed ec => rfl
    | peer actual => cases actual <;> rfl
  · rfl

theorem asked_decided (setup : Setup) (x : Dialer) (remote : Endpoint) (h : Handler)
    (expected : Bool) : (x.decided setup remote h expected).asked = x.asked := by
  unfold decided
  split
  · rfl
  · exact asked_doAccept setup x remote h

theorem asked_woken (setup : Setup) (x : Dialer) (alarm : Alarm) (expired : Bool) :
    (x.woken setup alarm expired).asked = x.asked := by
  cases alarm with
  | closeSocket =>
    simp only [woken]
    split <;> rfl
  | closeAcceptor =>
    simp only [woken]
    split <;> rfl
  | retry remote h deadline =>
    simp only [woken]
    split
    · split
      · exact asked_doConnect setup x remote h deadline
      · rfl
    · rfl

/-! ## Each handler is called once -/

/-- Each handler is in as many places as it was passed to the channel. -/
def Kept (x : Dialer) : Prop := ∀ k, x.held k = (x.asked.map Prod.snd).count k

theorem Kept.ask (h : x.Kept) (r : Request) {y : Dialer} {k : Handler}
    (hasked : y.asked = (x.ask r k).asked) (hheld : ∀ j, y.held j = x.held j + [k].count j) :
    y.Kept := by
  intro j
  rw [hheld, hasked, h j, Dialer.ask, List.map_append, List.count_append]
  rfl

theorem Kept.pass (h : x.Kept) {y : Dialer} (hasked : y.asked = x.asked)
    (hheld : ∀ j, y.held j = x.held j) : y.Kept := by
  intro j
  rw [hheld, hasked, h j]

/-- Does `remote_endpoint` have an answer, where a step calls it? -/
def Stays (x : Dialer) : Event → Prop
  | .accepted _ (.peer none) => x.alive = false
  | _ => True

/-- A step keeps the handlers, exactly if no exception takes one along. -/
theorem Kept.step_iff (h : x.Kept) (hstep : x.step timeout ev = some x') :
    x'.Kept ↔ x.Stays ev := by
  cases ev with
  | «open» endpoint =>
    obtain ⟨-, hx'⟩ := Option.ite_none_right_eq_some.mp hstep
    cases hx'
    exact iff_of_true h trivial
  | connect setup now remote k =>
    obtain ⟨-, hx'⟩ := Option.ite_none_right_eq_some.mp hstep
    cases hx'
    refine iff_of_true ?_ trivial
    exact h.ask (.connect remote) (asked_doConnect _ _ _ _ _) (held_doConnect _ _ _ _ _)
  | accept setup remote k =>
    obtain ⟨-, hx'⟩ := Option.ite_none_right_eq_some.mp hstep
    cases hx'
    refine iff_of_true ?_ trivial
    exact h.ask (.accept remote) (asked_doAccept _ _ _ _) (held_doAccept _ _ _ _)
  | close =>
    obtain ⟨-, hx'⟩ := Option.ite_none_right_eq_some.mp hstep
    cases hx'
    exact iff_of_true (h.pass rfl (held_cancel x)) trivial
  | shutdown ec k =>
    obtain ⟨-, hx'⟩ := Option.ite_none_right_eq_some.mp hstep
    cases hx'
    exact iff_of_true (h.ask .shutdown rfl (held_settle _ k ec)) trivial
  | connected place ec now =>
    simp only [step] at hstep
    split at hstep
    · next remote k deadline hplace =>
      cases hstep
      refine iff_of_true (h.pass (asked_connected _ _ _ _ _ _) fun j => ?_) trivial
      rw [held_connected]
      exact held_eraseOp hplace j
    · cases hstep
  | accepted place r =>
    simp only [step] at hstep
    split at hstep
    · next remote k hplace =>
      cases hstep
      have hasked : ({ x with ops := x.ops.eraseIdx place }.accepted remote k r).asked = x.asked :=
        asked_accepted _ _ _ _
      by_cases hthrows : x.alive = true ∧ r = .peer none
      · obtain ⟨halive, rfl⟩ := hthrows
        refine iff_of_false (fun hkept => ?_) (fun hgone => ?_)
        · -- the handler that the exception took along is missing
          have hmissing := held_eraseOp hplace k
          have hall := hkept k
          rw [hasked, ← h k, held_accepted, if_pos ⟨halive, rfl⟩, ← hmissing] at hall
          simp [Op.handler] at hall
        · rw [Stays, halive] at hgone
          cases hgone
      · refine iff_of_true (h.pass hasked fun j => ?_) ?_
        · rw [held_accepted, if_neg hthrows]
          exact held_eraseOp hplace j
        · unfold Stays
          split
          · exact Bool.eq_false_of_not_eq_true fun halive => hthrows ⟨halive, by simp_all⟩
          · trivial
    · cases hstep
  | decided place setup =>
    simp only [step] at hstep
    split at hstep
    · next remote k expected hplace =>
      cases hstep
      refine iff_of_true (h.pass (asked_decided _ _ _ _ _) fun j => ?_) trivial
      rw [held_decided]
      exact held_eraseOp hplace j
    · cases hstep
  | woken place expired setup =>
    simp only [step] at hstep
    split at hstep
    · next w hplace =>
      obtain ⟨-, hx'⟩ := Option.ite_none_left_eq_some.mp hstep
      cases hx'
      refine iff_of_true (h.pass (asked_woken _ _ _ _) fun j => ?_) trivial
      rw [held_woken]
      exact held_eraseWait hplace j
    · cases hstep
  | destroy =>
    obtain ⟨-, hx'⟩ := Option.ite_none_right_eq_some.mp hstep
    cases hx'
    exact iff_of_true (h.pass rfl (held_cancel x)) trivial

theorem kept (h : (system timeout).Reaches Stays x) : x.Kept := by
  refine System.Reaches.invariant ?_ ?_ h
  · rintro x rfl k
    rfl
  · intro x ev x' hstays hx hstep
    exact (hx.step_iff hstep).mpr hstays

/-- In every run in which `remote_endpoint` has an answer where it is called, each handler passed to
`connect`, `accept` or `shutdown` is still to be called or was called, once for each time it was
passed; and a further step leaves it so exactly if `remote_endpoint` has an answer in it. -/
theorem handlers_kept_iff (h : (system timeout).Reaches Stays x) :
    (∀ k, x.owed.count k + (x.calls.map Prod.fst).count k = (x.asked.map Prod.snd).count k) ∧
      ∀ ev x', x.step timeout ev = some x' →
        ((∀ k, x'.owed.count k + (x'.calls.map Prod.fst).count k =
          (x'.asked.map Prod.snd).count k) ↔ x.Stays ev) :=
  ⟨kept h, fun _ _ hstep => (kept h).step_iff hstep⟩

/-- Does it? -/
def stays (x : Dialer) : Event → Bool
  | .accepted _ (.peer none) => !x.alive
  | _ => true

theorem stays_sound (x : Dialer) (ev : Event) (h : x.stays ev = true) : x.Stays ev := by
  unfold stays at h
  unfold Stays
  split
  · simpa using h
  · trivial

/-- A peer that is asked for, and one that is not. -/
def friend : Endpoint := ⟨.v4 0x7F000001, 4000⟩

def stranger : Endpoint := ⟨.v4 0x7F000001, 5000⟩

/-- The stranger comes first. -/
def visits : List Event :=
  [.accept .done ⟨.v4 0, 4000⟩ 1, .accepted 0 (.peer (some stranger)), .decided 0 .done,
    .accepted 0 (.peer (some friend)), .decided 0 .done]

theorem visits_reach : ∃ x, (system 15000000).Reaches Stays x ∧
    x.asked = [(.accept ⟨.v4 0, 4000⟩, 1)] ∧ x.calls = [(1, .success)] := by
  have hrun : ((system 15000000).checked stays create visits).map
      (fun x => (x.asked, x.calls)) =
      some ([(.accept ⟨.v4 0, 4000⟩, 1)], [(1, .success)]) := by decide
  obtain ⟨x, hx, hv⟩ := Option.map_eq_some_iff.mp hrun
  obtain ⟨hasked, hcalls⟩ := Prod.mk.inj hv
  exact ⟨x, System.Reaches.checked stays_sound visits (.start rfl) hx, hasked, hcalls⟩

theorem handlers_kept_iff_visits :
    ∃ x, (system 15000000).Reaches Stays x ∧ x.calls = [(1, .success)] ∧ x.owed.count 1 = 0 := by
  obtain ⟨x, hx, hasked, hcalls⟩ := visits_reach
  have hkept := (handlers_kept_iff hx).1 1
  rw [hasked, hcalls] at hkept
  exact ⟨x, hx, hcalls, by simpa using hkept⟩

/-! ## Attempts come to an end -/

/-- How many completions an operation can lead to. The rest of the handler of an accept may start
another accept and a wait. -/
def opWeight : Op → Nat
  | .connect _ _ _ | .accept _ _ => 1
  | .verdict _ _ _ => 3

/-- How many completions a wait can lead to. -/
def alarmWeight : Alarm → Nat
  | .closeSocket | .closeAcceptor => 1
  | .retry _ _ _ => 3

def weight (x : Dialer) : Nat :=
  (x.ops.map opWeight).sum + (x.waits.map fun w => alarmWeight w.alarm).sum

theorem weight_cancel (x : Dialer) : x.cancel.weight = x.weight := by
  simp only [weight, cancel, List.map_map]
  rfl

theorem weight_wait (x : Dialer) (alarm : Alarm) :
    (x.wait alarm).weight = x.weight + alarmWeight alarm := by
  simp only [weight, wait, List.map_append, List.sum_append, List.map_singleton,
    List.sum_singleton, Nat.add_assoc]

theorem weight_start (x : Dialer) (op : Op) : (x.start op).weight = x.weight + opWeight op := by
  simp only [weight, start, List.map_append, List.sum_append, List.map_singleton,
    List.sum_singleton]
  omega

theorem weight_doConnect (setup : Setup) (x : Dialer) (remote : Endpoint) (h : Handler)
    (deadline : Time) : (x.doConnect setup remote h deadline).weight ≤ x.weight + 2 := by
  cases setup with
  | done =>
    rw [doConnect, weight_start, weight_wait, weight_cancel]
    exact Nat.le_refl _
  | thrown ec opened => exact Nat.le_add_right x.weight 2

theorem weight_doAccept (setup : Setup) (x : Dialer) (remote : Endpoint) (h : Handler) :
    (x.doAccept setup remote h).weight ≤ x.weight + 2 := by
  unfold doAccept
  split
  · rw [weight_start]
    exact Nat.le_succ _
  · split
    · exact Nat.le_add_right x.weight 2
    · cases setup with
      | done =>
        dsimp only
        rw [weight_start, weight_wait, weight_cancel]
        exact Nat.le_refl _
      | thrown ec opened => exact Nat.le_add_right x.weight 2

theorem weight_settle (x : Dialer) (h : Handler) (ec : Ec) : (x.settle h ec).weight = x.weight :=
  weight_cancel x

theorem weight_eraseOp {place : Nat} {op : Op} (h : x.ops[place]? = some op) :
    { x with ops := x.ops.eraseIdx place }.weight + opWeight op = x.weight := by
  have hsum := ((perm_cons_eraseIdx h).map opWeight).sum_nat
  rw [List.map_cons, List.sum_cons] at hsum
  simp only [weight]
  omega

theorem weight_eraseWait {place : Nat} {w : Wait} (h : x.waits[place]? = some w) :
    { x with waits := x.waits.eraseIdx place }.weight + alarmWeight w.alarm = x.weight := by
  have hsum := ((perm_cons_eraseIdx h).map fun w => alarmWeight w.alarm).sum_nat
  rw [List.map_cons, List.sum_cons] at hsum
  simp only [weight]
  omega

/-- A completion when there is no time left: a refused attempt is past its deadline, and no more
connections come in. -/
def late (x : Dialer) : Event → Bool
  | .connected place ec now =>
    match x.ops[place]? with
    | some (.connect _ _ deadline) => decide (ec ≠ connectionRefused ∨ deadline < now)
    | _ => false
  | .accepted _ (.failed _) | .decided _ _ | .woken _ _ _ => true
  | .accepted _ (.peer _) | .open _ | .connect _ _ _ _ | .accept _ _ _ | .close | .shutdown _ _
  | .destroy => false

theorem late_stays (h : x.late ev = true) : x.Stays ev := by
  cases ev with
  | accepted place r =>
    cases r with
    | failed ec => trivial
    | peer actual => cases h
  | _ => trivial

/-- Then there is less to complete. -/
theorem weight_lt (hlate : x.late ev = true) (hstep : x.step timeout ev = some x') :
    x'.weight < x.weight := by
  cases ev with
  | connected place ec now =>
    simp only [step] at hstep
    split at hstep
    · next remote k deadline hplace =>
      cases hstep
      have hrest := weight_eraseOp hplace
      simp only [late, hplace, decide_eq_true_eq] at hlate
      have hsame : ({ x with ops := x.ops.eraseIdx place }.connected remote k deadline ec
          now).weight = { x with ops := x.ops.eraseIdx place }.weight := by
        unfold connected
        split
        · exact weight_cancel { x with ops := x.ops.eraseIdx place }
        · rfl
      rw [hsame, ← hrest]
      exact Nat.lt_succ_self _
    · cases hstep
  | accepted place r =>
    cases r with
    | peer actual => cases hlate
    | failed ec =>
      simp only [step] at hstep
      split at hstep
      · next remote k hplace =>
        cases hstep
        have hrest := weight_eraseOp hplace
        have hsame : ({ x with ops := x.ops.eraseIdx place }.accepted remote k
            (.failed ec)).weight = { x with ops := x.ops.eraseIdx place }.weight := by
          unfold accepted
          split
          · exact weight_settle _ k ec
          · rfl
        rw [hsame, ← hrest]
        exact Nat.lt_succ_self _
      · cases hstep
  | decided place setup =>
    simp only [step] at hstep
    split at hstep
    · next remote k expected hplace =>
      cases hstep
      have hrest := weight_eraseOp hplace
      have hle : ({ x with ops := x.ops.eraseIdx place }.decided setup remote k expected).weight ≤
          { x with ops := x.ops.eraseIdx place }.weight + 2 := by
        unfold decided
        split
        · rw [weight_settle]
          exact Nat.le_add_right _ 2
        · exact weight_doAccept setup _ remote k
      rw [← hrest]
      exact Nat.lt_succ_of_le hle
    · cases hstep
  | woken place expired setup =>
    simp only [step] at hstep
    split at hstep
    · next w hplace =>
      obtain ⟨-, hx'⟩ := Option.ite_none_left_eq_some.mp hstep
      cases hx'
      have hrest := weight_eraseWait hplace
      rw [← hrest]
      cases w.alarm with
      | closeSocket =>
        simp only [woken]
        split <;> exact Nat.lt_succ_self _
      | closeAcceptor =>
        simp only [woken]
        split <;> exact Nat.lt_succ_self _
      | retry remote k deadline =>
        simp only [woken]
        split
        · split
          · exact Nat.lt_succ_of_le (weight_doConnect setup _ remote k deadline)
          · exact Nat.lt_add_of_pos_right (Nat.zero_lt_succ 2)
        · exact Nat.lt_add_of_pos_right (Nat.zero_lt_succ 2)
    · cases hstep
  | «open» _ | connect _ _ _ _ | accept _ _ _ | close | shutdown _ _ | destroy => cases hlate

/-- As long as a handler is owed, something can complete, however late. -/
theorem late_of_owed (timeout : Int) (h : x.owed ≠ []) :
    ∃ ev, x.late ev = true ∧ (x.step timeout ev).isSome = true := by
  cases hops : x.ops with
  | cons op rest =>
    cases op with
    | connect remote k deadline =>
      exact ⟨.connected 0 .success 0, by simp [late, hops, connectionRefused], by simp [step, hops]⟩
    | accept remote k =>
      exact ⟨.accepted 0 (.failed ⟨operationAborted, by simp [operationAborted]⟩), rfl,
        by simp [step, hops]⟩
    | verdict remote k expected => exact ⟨.decided 0 .done, rfl, by simp [step, hops]⟩
  | nil =>
    cases hwaits : x.waits with
    | cons w rest => exact ⟨.woken 0 true .done, rfl, by simp [step, hwaits]⟩
    | nil =>
      rw [owed, hops, hwaits] at h
      exact absurd rfl h

/-- Once the deadlines are over and no more connections come in, the completions come to an end,
and when there is none left, each handler was called once for each time it was passed. -/
theorem attempts_end {es : List Event} (h : (system timeout).Reaches Stays x)
    (hrun : (system timeout).checked late x es = some x') :
    es.length ≤ x.weight ∧
      ((∀ ev, x'.late ev = true → x'.step timeout ev = none) →
        ∀ k, (x'.calls.map Prod.fst).count k = (x'.asked.map Prod.snd).count k) := by
  have hreached := h.checked (fun _ _ => late_stays) es hrun
  constructor
  · induction es generalizing x with
    | nil => exact Nat.zero_le _
    | cons ev es ih =>
      obtain ⟨hlate, hrest⟩ := Option.ite_none_right_eq_some.mp hrun
      obtain ⟨y, hstep, hrun⟩ := Option.bind_eq_some_iff.mp hrest
      have hle := ih (.next h (late_stays hlate) hstep) hrun
      have hlt := weight_lt hlate hstep
      rw [List.length_cons]
      omega
  · intro hnone k
    have hkept := (kept hreached) k
    have howed : x'.owed = [] := by
      by_contra hne
      obtain ⟨ev, hlate, hsome⟩ := late_of_owed timeout hne
      rw [hnone ev hlate] at hsome
      cases hsome
    rw [held, howed, List.count_nil, Nat.zero_add] at hkept
    exact hkept

theorem late_idle (timeout : Int) (hops : x.ops = []) (hwaits : x.waits = []) (ev : Event)
    (hlate : x.late ev = true) : x.step timeout ev = none := by
  cases ev with
  | connected _ _ _ | accepted _ _ | decided _ _ => simp [step, hops]
  | woken _ _ _ => simp [step, hwaits]
  | «open» _ | connect _ _ _ _ | accept _ _ _ | close | shutdown _ _ | destroy => cases hlate

/-- An attempt is refused when its time is over. -/
theorem attempts_end_refused :
    ∃ x x', (system 100).Reaches Stays x ∧
      (system 100).checked late x [.connected 0 connectionRefused 200, .woken 0 false .done] =
        some x' ∧
      (x'.calls.map Prod.fst).count 1 = (x'.asked.map Prod.snd).count 1 := by
  have hrun : ((system 100).checked stays create [.connect .done 0 friend 1]).bind (fun x =>
      ((system 100).checked late x
        [.connected 0 connectionRefused 200, .woken 0 false .done]).map fun x' =>
          (x'.ops, x'.waits)) = some ([], []) := by decide
  obtain ⟨x, hx, hnext⟩ := Option.bind_eq_some_iff.mp hrun
  obtain ⟨x', hx', hv⟩ := Option.map_eq_some_iff.mp hnext
  obtain ⟨hops, hwaits⟩ := Prod.mk.inj hv
  have hreached := System.Reaches.checked stays_sound _ (.start rfl) hx
  exact ⟨x, x', hreached, hx', (attempts_end hreached hx').2 (late_idle 100 hops hwaits) 1⟩

/-! ## Only the peers that were asked for -/

/-- Was the handler passed to a call that gives it success for another reason than an accepted
connection? -/
def Calls (x : Dialer) (k : Handler) : Prop :=
  (∃ remote, (.connect remote, k) ∈ x.asked) ∨ (.shutdown, k) ∈ x.asked

/-- Was the endpoint of a peer compared for the handler, and found to be one asked for? -/
def Meets (x : Dialer) (remote : Endpoint) (k : Handler) : Prop :=
  (.accept remote, k) ∈ x.asked ∧
    ∃ actual, (remote, k, actual) ∈ x.compared ∧ remote.admits actual = true

/-- Where an operation comes from. -/
def FromOp (x : Dialer) : Op → Prop
  | .connect remote k _ => (.connect remote, k) ∈ x.asked
  | .accept remote k => (.accept remote, k) ∈ x.asked
  | .verdict remote k expected =>
    (.accept remote, k) ∈ x.asked ∧ (expected = true → x.Meets remote k)

/-- Where a wait comes from. -/
def FromAlarm (x : Dialer) : Alarm → Prop
  | .closeSocket | .closeAcceptor => True
  | .retry remote k _ => (.connect remote, k) ∈ x.asked

/-- Operations, waits and successes have their reasons. -/
structure Sourced (x : Dialer) : Prop where
  ops : ∀ op ∈ x.ops, x.FromOp op
  waits : ∀ w ∈ x.waits, x.FromAlarm w.alarm
  calls : ∀ k, (k, .success) ∈ x.calls → x.Calls k ∨ ∃ remote, x.Meets remote k

namespace Sourced

theorem call (h : x.Sourced) {k : Handler} {ec : Ec}
    (hec : ec = .success → x.Calls k ∨ ∃ remote, x.Meets remote k) : (x.call k ec).Sourced := by
  refine ⟨h.ops, h.waits, fun j hj => ?_⟩
  obtain hold | hnew := List.mem_append.mp hj
  · exact h.calls j hold
  · have hsame := List.mem_singleton.mp hnew
    cases hsame
    exact hec rfl

theorem cancel (h : x.Sourced) : x.cancel.Sourced := by
  refine ⟨h.ops, fun w hw => ?_, h.calls⟩
  obtain ⟨w, hold, rfl⟩ := List.mem_map.mp hw
  exact h.waits w hold

theorem wait (h : x.Sourced) {alarm : Alarm} (halarm : x.FromAlarm alarm) :
    (x.wait alarm).Sourced := by
  refine ⟨h.ops, fun w hw => ?_, h.calls⟩
  obtain hold | hnew := List.mem_append.mp hw
  · exact h.waits w hold
  · rw [List.mem_singleton.mp hnew]
    exact halarm

theorem start (h : x.Sourced) {op : Op} (hop : x.FromOp op) : (x.start op).Sourced := by
  refine ⟨fun o ho => ?_, h.waits, h.calls⟩
  obtain hold | hnew := List.mem_append.mp ho
  · exact h.ops o hold
  · rw [List.mem_singleton.mp hnew]
    exact hop

/-- The flags do not matter. -/
theorem flags (h : x.Sourced) (alive isOpen listening : Bool) (bind : Endpoint) :
    Sourced { x with
      alive := alive, isOpen := isOpen, listening := listening, bind := bind } :=
  ⟨h.ops, h.waits, h.calls⟩

theorem eraseOp (h : x.Sourced) (place : Nat) :
    Sourced { x with ops := x.ops.eraseIdx place } :=
  ⟨fun op hop => h.ops op (List.mem_of_mem_eraseIdx hop), h.waits, h.calls⟩

theorem eraseWait (h : x.Sourced) (place : Nat) :
    Sourced { x with waits := x.waits.eraseIdx place } :=
  ⟨h.ops, fun w hw => h.waits w (List.mem_of_mem_eraseIdx hw), h.calls⟩

theorem meets_mono {y : Dialer} (hasked : x.asked ⊆ y.asked) (hcompared : x.compared ⊆ y.compared)
    {remote : Endpoint} {k : Handler} (h : x.Meets remote k) : y.Meets remote k :=
  ⟨hasked h.1, h.2.imp fun _ hactual => ⟨hcompared hactual.1, hactual.2⟩⟩

/-- What is added to the history takes no reason away. -/
theorem mono {y : Dialer} (h : x.Sourced) (hasked : x.asked ⊆ y.asked)
    (hcompared : x.compared ⊆ y.compared) (hops : y.ops = x.ops) (hwaits : y.waits = x.waits)
    (hcalls : y.calls = x.calls) : y.Sourced := by
  refine ⟨fun op hop => ?_, fun w hw => ?_, fun k hk => ?_⟩
  · have hfrom := h.ops op (hops ▸ hop)
    cases op with
    | connect remote k deadline => exact hasked hfrom
    | accept remote k => exact hasked hfrom
    | verdict remote k expected =>
      exact ⟨hasked hfrom.1, fun hyes => meets_mono hasked hcompared (hfrom.2 hyes)⟩
  · have hfrom := h.waits w (hwaits ▸ hw)
    cases halarm : w.alarm with
    | closeSocket => trivial
    | closeAcceptor => trivial
    | retry remote k deadline =>
      rw [halarm] at hfrom
      exact hasked hfrom
  · obtain (⟨remote, hmine⟩ | hmine) | ⟨remote, hmeets⟩ := h.calls k (hcalls ▸ hk)
    · exact .inl (.inl ⟨remote, hasked hmine⟩)
    · exact .inl (.inr (hasked hmine))
    · exact .inr ⟨remote, meets_mono hasked hcompared hmeets⟩

theorem ask (h : x.Sourced) (r : Request) (k : Handler) : (x.ask r k).Sourced :=
  h.mono (List.subset_append_left _ _) (List.Subset.refl _) rfl rfl rfl

theorem doConnect (h : x.Sourced) (setup : Setup) {remote : Endpoint} {k : Handler}
    (hasked : (.connect remote, k) ∈ x.asked) (deadline : Time) :
    (x.doConnect setup remote k deadline).Sourced := by
  cases setup with
  | done =>
    apply start
    · apply wait
      · exact (h.flags x.alive true x.listening x.bind).cancel
      · trivial
    · exact hasked
  | thrown ec opened =>
    apply call (h.flags x.alive opened x.listening x.bind)
    intro hec
    exact absurd hec ec.property

theorem doAccept (h : x.Sourced) (setup : Setup) {remote : Endpoint} {k : Handler}
    (hasked : (.accept remote, k) ∈ x.asked) : (x.doAccept setup remote k).Sourced := by
  unfold Dialer.doAccept
  split
  · exact (h.flags x.alive false x.listening x.bind).start hasked
  · split
    · apply h.call
      intro hec
      cases hec
    · cases setup with
      | done =>
        apply start
        · apply wait
          · exact (h.flags x.alive x.isOpen true x.bind).cancel
          · trivial
        · exact hasked
      | thrown ec opened =>
        apply call (h.flags x.alive x.isOpen opened x.bind)
        intro hec
        exact absurd hec ec.property

theorem settle (h : x.Sourced) {k : Handler} {ec : Ec}
    (hec : ec = .success → x.Calls k ∨ ∃ remote, x.Meets remote k) :
    (x.settle k ec).Sourced :=
  (h.cancel.flags x.alive x.isOpen false x.bind).call hec

theorem connected (h : x.Sourced) {remote : Endpoint} {k : Handler}
    (hasked : (.connect remote, k) ∈ x.asked) (deadline : Time) (ec : Ec) (now : Time) :
    (x.connected remote k deadline ec now).Sourced := by
  unfold Dialer.connected
  split
  · dsimp only
    split
    · exact h.cancel.call fun _ => .inl (.inl ⟨remote, hasked⟩)
    · split
      · exact h.cancel.call fun _ => .inl (.inl ⟨remote, hasked⟩)
      · exact h.cancel.cancel.wait hasked
  · exact h.call fun _ => .inl (.inl ⟨remote, hasked⟩)

theorem accepted (h : x.Sourced) {remote : Endpoint} {k : Handler}
    (hasked : (.accept remote, k) ∈ x.asked) (r : Accepted) :
    (x.accepted remote k r).Sourced := by
  unfold Dialer.accepted
  split
  · cases r with
    | failed ec =>
      apply h.settle
      intro hec
      exact absurd hec ec.property
    | peer actual =>
      cases actual with
      | none => exact h.flags x.alive true x.listening x.bind
      | some actual =>
        apply start
        · exact h.mono (List.Subset.refl _) (List.subset_append_left _ _) rfl rfl rfl
        · refine ⟨hasked, fun hyes => ⟨hasked, actual, ?_, hyes⟩⟩
          exact List.mem_append_right _ List.mem_cons_self
  · apply h.call
    intro hec
    cases hec

theorem decided (h : x.Sourced) (setup : Setup) {remote : Endpoint} {k : Handler} {expected : Bool}
    (hfrom : x.FromOp (.verdict remote k expected)) :
    (x.decided setup remote k expected).Sourced := by
  unfold Dialer.decided
  split
  · next hyes => exact h.settle fun _ => .inr ⟨remote, hfrom.2 hyes⟩
  · exact h.doAccept setup hfrom.1

theorem woken (h : x.Sourced) (setup : Setup) {alarm : Alarm} (hfrom : x.FromAlarm alarm)
    (expired : Bool) : (x.woken setup alarm expired).Sourced := by
  cases alarm with
  | closeSocket =>
    simp only [Dialer.woken]
    split
    · exact h.flags x.alive false x.listening x.bind
    · exact h
  | closeAcceptor =>
    simp only [Dialer.woken]
    split
    · exact h.flags x.alive x.isOpen false x.bind
    · exact h
  | retry remote k deadline =>
    simp only [Dialer.woken]
    split
    · split
      · exact h.doConnect setup hfrom deadline
      · exact h.call fun _ => .inl (.inl ⟨remote, hfrom⟩)
    · exact h.call fun _ => .inl (.inl ⟨remote, hfrom⟩)

theorem step (h : x.Sourced) (hstep : x.step timeout ev = some x') : x'.Sourced := by
  cases ev with
  | «open» endpoint =>
    obtain ⟨-, hx'⟩ := Option.ite_none_right_eq_some.mp hstep
    cases hx'
    exact h.flags x.alive x.isOpen x.listening endpoint
  | connect setup now remote k =>
    obtain ⟨-, hx'⟩ := Option.ite_none_right_eq_some.mp hstep
    cases hx'
    exact (h.ask _ _).doConnect setup (List.mem_append_right _ List.mem_cons_self) _
  | accept setup remote k =>
    obtain ⟨-, hx'⟩ := Option.ite_none_right_eq_some.mp hstep
    cases hx'
    exact (h.ask _ _).doAccept setup (List.mem_append_right _ List.mem_cons_self)
  | close =>
    obtain ⟨-, hx'⟩ := Option.ite_none_right_eq_some.mp hstep
    cases hx'
    exact h.cancel.flags x.alive false false x.bind
  | shutdown ec k =>
    obtain ⟨-, hx'⟩ := Option.ite_none_right_eq_some.mp hstep
    cases hx'
    exact (h.ask _ _).settle fun _ =>
      .inl (.inr (List.mem_append_right _ List.mem_cons_self))
  | connected place ec now =>
    simp only [Dialer.step] at hstep
    split at hstep
    · next remote k deadline hplace =>
      cases hstep
      exact (h.eraseOp place).connected (h.ops _ (List.mem_of_getElem? hplace)) deadline ec now
    · cases hstep
  | accepted place r =>
    simp only [Dialer.step] at hstep
    split at hstep
    · next remote k hplace =>
      cases hstep
      exact (h.eraseOp place).accepted (h.ops _ (List.mem_of_getElem? hplace)) r
    · cases hstep
  | decided place setup =>
    simp only [Dialer.step] at hstep
    split at hstep
    · next remote k expected hplace =>
      cases hstep
      exact (h.eraseOp place).decided setup (h.ops _ (List.mem_of_getElem? hplace))
    · cases hstep
  | woken place expired setup =>
    simp only [Dialer.step] at hstep
    split at hstep
    · next w hplace =>
      obtain ⟨-, hx'⟩ := Option.ite_none_left_eq_some.mp hstep
      cases hx'
      exact (h.eraseWait place).woken setup (h.waits _ (List.mem_of_getElem? hplace)) expired
    · cases hstep
  | destroy =>
    obtain ⟨-, hx'⟩ := Option.ite_none_right_eq_some.mp hstep
    cases hx'
    exact h.cancel.flags false false false x.bind

end Sourced

/-- A handler that was passed to `accept` only is called with success only if the endpoint of the
peer was compared for it, and agrees with all that was given of the remote endpoint it was passed
with, whatever calls and completions come in between. -/
theorem peers_expected (h : (system timeout).Reachable x) (k : Handler)
    (honly : ∀ r, (r, k) ∈ x.asked → ∃ remote, r = .accept remote)
    (hcalled : (k, .success) ∈ x.calls) :
    ∃ remote actual, (.accept remote, k) ∈ x.asked ∧ (remote, k, actual) ∈ x.compared ∧
      remote.admits actual = true := by
  have hsourced : x.Sourced := by
    refine System.Reaches.invariant ?_ ?_ h
    · rintro x rfl
      exact ⟨fun _ ho => absurd ho List.not_mem_nil, fun _ hw => absurd hw List.not_mem_nil,
        fun _ hc => absurd hc List.not_mem_nil⟩
    · intro x ev x' _ hx hstep
      exact hx.step hstep
  obtain (⟨remote, hmine⟩ | hmine) | ⟨remote, hasked, actual, hcompared, hadmits⟩ :=
    hsourced.calls k hcalled
  · obtain ⟨_, hr⟩ := honly _ hmine
    cases hr
  · obtain ⟨_, hr⟩ := honly _ hmine
    cases hr
  · exact ⟨remote, actual, hasked, hcompared, hadmits⟩

theorem peers_expected_visits :
    ∃ x remote actual, (system 15000000).Reachable x ∧ (1, .success) ∈ x.calls ∧
      (remote, 1, actual) ∈ x.compared ∧ remote.admits actual = true := by
  obtain ⟨x, hx, hasked, hcalls⟩ := visits_reach
  have hreached : (system 15000000).Reachable x := hx.mono fun _ _ _ => trivial
  have hcalled : (1, .success) ∈ x.calls := hcalls ▸ List.mem_cons_self
  obtain ⟨remote, actual, -, hcompared, hadmits⟩ := peers_expected hreached 1 (fun r hr => by
    rw [hasked] at hr
    cases List.mem_singleton.mp hr
    exact ⟨_, rfl⟩) hcalled
  exact ⟨x, remote, actual, hreached, hcalled, hcompared, hadmits⟩

end Dialer

end Tubus.Tcp
