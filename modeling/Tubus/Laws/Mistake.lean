import Tubus.Laws.Capture

/-!
# A socket operation that fails

The handlers of the receive loop report a failure by `mistake`, which ends the channel and posts
every handler that waits (`Settled`). They do so without the mutex, except where the socket cannot
be connected to the endpoint that was just fixed: there the handler holds it, and never goes on. The
other way for a handler not to come to its end is the datagram that trips the channel
(`handled_iff`).
-/

namespace Tubus.Udp

open Lib

/-- What `mistake` is for: the channel is finished, and every pending handler is posted with the
code. -/
structure Settled (ec : Ec) (t t' : Transport) : Prop where
  status : t'.connector.status = .finished
  connect : t'.connector.onConnect = none
  shutdown : t'.connector.onShutdown = none
  posts : t'.connector.posts = t.connector.posts ++
    (t.connector.onConnect.toList ++ t.connector.onShutdown.toList).map
      fun h => .handler (some h) ec
  readers : t'.istreamer.readers = []
  readouts : t'.istreamer.readouts =
    t.istreamer.readouts ++ t.istreamer.readers.map fun r => r.posted ec
  writers : t'.ostreamer.writers = []
  written : t'.ostreamer.written = t.ostreamer.written ++
    t.ostreamer.writers.map fun w => ⟨w.callback, ec, Ostreamer.sent t.ostreamer.cursor w⟩

theorem Connector.posts_error (c : Connector) (ec : Ec) :
    (c.error ec).posts = c.posts ++
      (c.onConnect.toList ++ c.onShutdown.toList).map fun h => .handler (some h) ec := by
  have hpostIf : ∀ (d : Connector) (k : Option Handler),
      (d.postIf k ec).posts = d.posts ++ k.toList.map fun h => .handler (some h) ec := by
    intro d k
    cases k with
    | none => simp [postIf]
    | some h => simp [postIf, post]
  simp only [error, hpostIf, List.map_append, List.append_assoc]

theorem settled_mistake (ec : Ec) (t : Transport) : Settled ec t (t.mistake ec) where
  status := rfl
  connect := rfl
  shutdown := rfl
  posts := t.connector.posts_error ec
  readers := rfl
  readouts := rfl
  writers := rfl
  written := rfl

namespace Receiver

variable {e : Endian} {x y : Receiver} {r : Outcome}

/-- The part of the datagram that fits the buffer of the operation. -/
def fits (r : Outcome) : Pending → Bytes
  | .receiveFrom capacity | .receive capacity => r.datagram.take capacity
  | .start | .wait => []

/-- Does a handler feed the datagram? -/
def Feeds (x : Receiver) (r : Outcome) (op : Pending) : Prop :=
  x.Fixes r op ∨ ∃ capacity, op = .receive capacity ∧ r.error = .success

/-- A handler runs to its end, and if an operation of the socket failed the channel is settled: at
once if it is the one the handler was left with, and after the datagram was fed if it is the
connect. -/
def Handled (e : Endian) (x : Receiver) (r : Outcome) (op : Pending) : Prop :=
  ∃ y, handler e r op false (x.taken e r op) = .returns () y ∧
    (op ≠ .start → r.error ≠ .success → Settled r.error x.transport y.transport) ∧
    (x.Fixes r op → r.connecting ≠ .success →
      ∃ z, fed e r.now r.drawn (fits r op) ((x.taken e r op).bound r) = some z ∧
        Settled r.connecting z.transport y.transport)

/-- Does the operation reach the branch that reports under the mutex? -/
def Jams (x : Receiver) (r : Outcome) (op : Pending) : Prop :=
  x.Fixes r op ∧ r.connecting ≠ .success

/-- Does it feed a datagram that trips the channel? -/
def Crashes (e : Endian) (x : Receiver) (r : Outcome) (op : Pending) : Prop :=
  x.Feeds r op ∧ x.Trips e r.drawn (fits r op)

section Datagram

variable {q : Qos} {capacity : Nat} (h : x.Sound q) (hlt : capacity < 2 ^ 64) (r : Outcome)

include hlt in
theorem length_fits_lt : (r.datagram.take capacity).length < 2 ^ 64 :=
  (List.length_take_le _ _).trans_lt hlt

include h hlt

theorem handled_receiveFrom :
    x.Handled e r (.receiveFrom capacity) ↔
      ¬ x.Jams r (.receiveFrom capacity) ∧ ¬ x.Crashes e r (.receiveFrom capacity) := by
  have hbound : ((x.taken e r (.receiveFrom capacity)).bound r).Sound q :=
    (closed_sound e q).bound _ r.sender (h.taken e r (.receiveFrom capacity))
  have htrips := fed_eq_none_iff hbound e r.now r.drawn (length_fits_lt hlt r)
  have hfeeds : x.Feeds r (.receiveFrom capacity) → x.Fixes r (.receiveFrom capacity) := by
    rintro (hfixes | ⟨_, ⟨⟩, -⟩)
    exact hfixes
  by_cases hfixes : x.Fixes r (.receiveFrom capacity)
  · obtain ⟨_, -, herror, hadmits⟩ := id hfixes
    cases hfed : fed e r.now r.drawn (r.datagram.take capacity)
        ((x.taken e r (.receiveFrom capacity)).bound r) with
    | none =>
      have hcrashes : x.Crashes e r (.receiveFrom capacity) := ⟨.inl hfixes, htrips.mp hfed⟩
      constructor
      · rintro ⟨y, hrun, -⟩
        cases hrun.symm.trans (receivedFrom_throws herror hadmits hfed)
      · rintro ⟨-, hno⟩
        exact absurd hcrashes hno
    | some z =>
      have hno : ¬ x.Crashes e r (.receiveFrom capacity) := by
        intro hcrashes
        cases hfed.symm.trans (htrips.mpr hcrashes.2)
      by_cases hjoin : r.connecting = .success
      · constructor
        · intro _
          exact ⟨fun hjams => hjams.2 hjoin, hno⟩
        · intro _
          refine ⟨_, receivedFrom_joined herror hadmits hfed hjoin, fun _ hfails => ?_,
            fun _ hfails => ?_⟩
          · exact absurd herror hfails
          · exact absurd hjoin hfails
      · constructor
        · rintro ⟨y, hrun, -⟩
          cases hrun.symm.trans (receivedFrom_stuck herror hadmits hfed hjoin)
        · rintro ⟨hjams, -⟩
          exact absurd ⟨hfixes, hjoin⟩ hjams
  · have hright : ¬ x.Jams r (.receiveFrom capacity) ∧ ¬ x.Crashes e r (.receiveFrom capacity) :=
      ⟨fun hjams => hfixes hjams.1, fun hcrashes => hfixes (hfeeds hcrashes.1)⟩
    refine iff_of_true ?_ hright
    by_cases herror : r.error = .success
    · have hforeign : x.remote.admits r.sender = false := by
        by_contra hadmits
        exact hfixes ⟨capacity, rfl, herror, by simpa using hadmits⟩
      refine ⟨_, receivedFrom_foreign herror hforeign, fun _ hfails => ?_, fun hno => ?_⟩
      · exact absurd herror hfails
      · exact absurd hno hfixes
    · refine ⟨_, receivedFrom_error herror, fun _ _ => ?_, fun hno => ?_⟩
      · exact settled_mistake _ _
      · exact absurd hno hfixes

theorem handled_receive :
    x.Handled e r (.receive capacity) ↔
      ¬ x.Jams r (.receive capacity) ∧ ¬ x.Crashes e r (.receive capacity) := by
  have htrips := fed_eq_none_iff (h.taken e r (.receive capacity)) e r.now r.drawn
    (length_fits_lt hlt r)
  have hfixes : ¬ x.Fixes r (.receive capacity) := by
    rintro ⟨_, ⟨⟩, _⟩
  have hjams : ¬ x.Jams r (.receive capacity) := fun hjams => hfixes hjams.1
  by_cases herror : r.error = .success
  · cases hfed : fed e r.now r.drawn (r.datagram.take capacity)
        (x.taken e r (.receive capacity)) with
    | none =>
      have hcrashes : x.Crashes e r (.receive capacity) :=
        ⟨.inr ⟨capacity, rfl, herror⟩, htrips.mp hfed⟩
      constructor
      · rintro ⟨y, hrun, -⟩
        cases hrun.symm.trans (received_none herror hfed)
      · rintro ⟨-, hno⟩
        exact absurd hcrashes hno
    | some z =>
      have hno : ¬ x.Crashes e r (.receive capacity) := by
        intro hcrashes
        cases hfed.symm.trans (htrips.mpr hcrashes.2)
      refine iff_of_true ⟨_, received_some herror hfed, fun _ hfails => ?_, fun hno => ?_⟩
        ⟨hjams, hno⟩
      · exact absurd herror hfails
      · exact absurd hno hfixes
  · have hno : ¬ x.Crashes e r (.receive capacity) := by
      rintro ⟨hfeeds | ⟨_, -, hsuccess⟩, -⟩
      · exact hfixes hfeeds
      · exact herror hsuccess
    refine iff_of_true ⟨_, received_error herror, fun _ _ => ?_, fun hno => ?_⟩ ⟨hjams, hno⟩
    · exact settled_mistake _ _
    · exact absurd hno hfixes

end Datagram

/-- For every channel that can be reached, every pending operation of its receive loop and every
outcome of the socket's operations: the handler runs to its end without waiting for the mutex that
it holds, and leaves the channel settled if an operation failed, exactly when it does not fail to
connect to an endpoint it has just fixed and feeds no datagram that trips the channel. -/
theorem handled_iff {q : Qos} {secret : UInt64} (h : (system e q secret).Reachable x) {op : Pending}
    (hop : x.pending = some op) (r : Outcome) :
    x.Handled e r op ↔ ¬ x.Jams r op ∧ ¬ x.Crashes e r op := by
  have hsound := sound h
  cases op with
  | start =>
    constructor
    · intro _
      refine ⟨?_, ?_⟩
      · rintro ⟨⟨_, ⟨⟩, _⟩, _⟩
      · rintro ⟨⟨_, ⟨⟩, _⟩ | ⟨_, ⟨⟩, _⟩, _⟩
    · intro _
      refine ⟨_, consume_run _ _, fun hstart => absurd rfl hstart, ?_⟩
      rintro ⟨_, ⟨⟩, _⟩
  | receiveFrom capacity =>
    exact handled_receiveFrom hsound (hsound.capacity _ hop _ (.inl rfl)) r
  | receive capacity =>
    exact handled_receive hsound (hsound.capacity _ hop _ (.inr rfl)) r
  | wait =>
    constructor
    · intro _
      refine ⟨?_, ?_⟩
      · rintro ⟨⟨_, ⟨⟩, _⟩, _⟩
      · rintro ⟨⟨_, ⟨⟩, _⟩ | ⟨_, ⟨⟩, _⟩, _⟩
    · intro _
      refine ⟨_, waited_run _ _, fun _ herror => ?_, ?_⟩
      · rw [if_pos herror]
        exact settled_mistake _ _
      · rintro ⟨_, ⟨⟩, _⟩

/-- A channel accepts anybody, a datagram has been announced, and receiving it fails. -/
theorem handled_iff_aborted :
    ∃ x, (system .little .default 0).Reachable x ∧ x.pending = some (.receiveFrom 256) ∧
      x.Handled .little { ready with error := .system 125 } (.receiveFrom 256) := by
  obtain ⟨x, hx, hpending⟩ := System.exists_of_run (S := system .little .default 0)
    [.call .openAt, .accept .any 1 5 1 .success, .completed ready] rfl
    (f := fun x => x.pending) (v := some (.receiveFrom 256)) (by decide +kernel)
  refine ⟨x, hx, hpending, (handled_iff hx hpending _).mpr ⟨?_, ?_⟩⟩
  · rintro ⟨⟨_, -, ⟨⟩, -⟩, -⟩
  · rintro ⟨⟨_, -, ⟨⟩, -⟩ | ⟨_, ⟨⟩, -⟩, -⟩

/-- A datagram comes from an endpoint to which the socket cannot be connected. -/
theorem connect_jams :
    ¬ ∀ (x : Receiver) (op : Pending) (r : Outcome), (system .little .default 0).Reachable x →
      x.pending = some op → x.Handled .little r op := by
  intro hall
  obtain ⟨x, hx, hv⟩ := System.exists_of_run (S := system .little .default 0)
    [.call .openAt, .accept .any 1 5 1 .success, .completed ready] rfl
    (f := fun x => (x.pending, x.remote)) (v := (some (.receiveFrom 256), .any)) (by decide +kernel)
  obtain ⟨hpending, hremote⟩ := Prod.mk.inj hv
  let r : Outcome :=
    { ready with sender := neighbour, datagram := [0], connecting := .system 101 }
  obtain ⟨y, hrun, -⟩ := hall x (.receiveFrom 256) r hx hpending
  have hadmits : (x.taken .little r (.receiveFrom 256)).remote.admits r.sender = true := by
    show x.remote.admits neighbour = true
    rw [hremote]
    decide
  have hfed : fed .little 2 0 [0] ((x.taken .little r (.receiveFrom 256)).bound r) =
      some ((x.taken .little r (.receiveFrom 256)).bound r) := if_pos (by decide)
  cases hrun.symm.trans (receivedFrom_stuck rfl hadmits hfed nofun)

end Receiver

end Tubus.Udp
