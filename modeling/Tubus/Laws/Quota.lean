import Mathlib.Algebra.BigOperators.Group.List.Basic
import Tubus.Tcp.Transport

/-!
# The quotas of a TCP channel

A queue, the operation under way for its first task and the sum of its sizes stay together
(`Lane.Lined`), whatever is called and completed. The quota of the reads is another matter:
`transport::read` tests the size of the queued writes. A read goes wrong exactly when its length is
between the room beside the queued reads and the room beside the queued writes, and a run without
such a read keeps the quota (`read_quota`).
-/

namespace Tubus.Tcp

open Lib

namespace Lane

variable {κ : Type} {l : Lane κ}

/-- The bytes in the queue. -/
def load (l : Lane κ) : Nat := (l.queue.map Task.size).sum

/-- An operation is under way for the first task exactly, and the size is that of the queue, as a
word. -/
structure Lined (l : Lane κ) : Prop where
  outstanding : l.outstanding.map Prod.snd = l.queue.take 1
  size : l.size = l.load % 2 ^ 64

theorem Lined.create : Lined (create : Lane κ) := ⟨rfl, rfl⟩

/-! ## What a call and a completion do -/

/-- A task goes into the queue, and is handed to the stream if it is the only one. -/
def enter (kind : κ) (t : Task) (l : Lane κ) : Lane κ :=
  if (l.push t).queue.length = 1 then (l.push t).start kind t else l.push t

/-- An operation completes, and the next task is handed to the stream. -/
def leave (place : Nat) (kind : κ) (t : Task) (ec : Ec) (count : Nat) (l : Lane κ) : Lane κ :=
  let l := { l with outstanding := l.outstanding.eraseIdx place }.pop t
  match l.queue with
  | [] => l.call t ec count
  | op :: _ => (l.start kind op).call t ec count

theorem queue_enter (kind : κ) (t : Task) (l : Lane κ) :
    (l.enter kind t).queue = l.queue ++ [t] := by
  unfold enter
  split <;> rfl

theorem load_enter (kind : κ) (t : Task) (l : Lane κ) :
    (l.enter kind t).load = l.load + t.size := by
  rw [load, queue_enter, List.map_append, List.sum_append, List.map_singleton, List.sum_singleton]
  rfl

theorem size_enter (kind : κ) (t : Task) (l : Lane κ) :
    (l.enter kind t).size = wadd l.size t.size := by
  unfold enter
  split <;> rfl

theorem Lined.enter (h : l.Lined) (kind : κ) (t : Task) : (l.enter kind t).Lined := by
  refine ⟨?_, ?_⟩
  · have hlined := h.outstanding
    unfold Lane.enter
    cases hqueue : l.queue with
    | nil =>
      rw [hqueue, List.take_nil, List.map_eq_nil_iff] at hlined
      simp [push, start, hqueue, hlined]
    | cons first rest =>
      rw [hqueue] at hlined
      simpa [push, hqueue] using hlined
  · rw [size_enter, load_enter, h.size, wadd, Nat.mod_add_mod]

/-- The operation that completes is that of the first task. -/
theorem Lined.first (h : l.Lined) {place : Nat} {kind : κ} {t : Task}
    (hplace : l.outstanding[place]? = some (kind, t)) :
    l.outstanding.eraseIdx place = [] ∧ l.queue = t :: l.queue.tail := by
  have hlined := h.outstanding
  cases hqueue : l.queue with
  | nil =>
    rw [hqueue, List.take_nil, List.map_eq_nil_iff] at hlined
    rw [hlined] at hplace
    cases hplace
  | cons first rest =>
    rw [hqueue, List.take_succ_cons, List.take_zero] at hlined
    obtain ⟨op, hop, rfl⟩ := List.map_eq_singleton_iff.mp hlined
    rw [hop] at hplace ⊢
    cases place with
    | zero =>
      cases hplace
      exact ⟨rfl, rfl⟩
    | succ place => cases hplace

theorem load_leave {t : Task} (hqueue : l.queue = t :: l.queue.tail) (place : Nat) (kind : κ)
    (ec : Ec) (count : Nat) : (l.leave place kind t ec count).load + t.size = l.load := by
  have hload : l.load = t.size + (l.queue.tail.map Task.size).sum := by
    conv_lhs => rw [load, hqueue]
    rfl
  rw [hload, Nat.add_comm]
  congr 1
  unfold leave
  dsimp only
  split <;> rfl

theorem size_leave (place : Nat) (kind : κ) (t : Task) (ec : Ec) (count : Nat) :
    (l.leave place kind t ec count).size = wsub l.size t.size := by
  unfold leave
  dsimp only
  split <;> rfl

theorem Lined.leave (h : l.Lined) {place : Nat} {kind kind' : κ} {t : Task}
    (hplace : l.outstanding[place]? = some (kind, t)) (ec : Ec) (count : Nat) :
    (l.leave place kind' t ec count).Lined := by
  obtain ⟨hnone, hqueue⟩ := h.first hplace
  refine ⟨?_, ?_⟩
  · unfold Lane.leave
    rw [hnone]
    cases hrest : l.queue.tail with
    | nil => simp [pop, call, hrest]
    | cons op rest => simp [pop, call, start, hrest]
  · have hload := load_leave hqueue place kind' ec count
    rw [size_leave, h.size, ← hload]
    unfold wsub
    omega

end Lane

namespace Transport

variable {e : Endian} {q : Qos} {x x' : Transport} {ev : Event} {buffer : Bytes}

/-! ## What the functions of a channel come to -/

theorem read_refused (h : Handler)
    (hno : x.isOpen = false ∨ q.receiveBufferSize < wadd x.writes.size buffer.length) :
    ∃ ec, x.read q buffer h = x.refuse h ec := by
  unfold Transport.read
  split
  · exact ⟨_, rfl⟩
  · next hopen => exact ⟨_, if_pos (hno.resolve_left hopen)⟩

theorem read_taken (h : Handler) (hopen : x.isOpen = true)
    (hroom : ¬ q.receiveBufferSize < wadd x.writes.size buffer.length) :
    x.read q buffer h = { x with reads := x.reads.enter x.stream.asyncRead ⟨buffer, h⟩ } := by
  unfold Transport.read Lane.enter
  rw [if_neg (by simp [hopen]), if_neg hroom]
  dsimp only
  split <;> rfl

theorem write_refused (salt : UInt64) (h : Handler)
    (hno : x.isOpen = false ∨ q.sendBufferSize < wadd x.writes.size buffer.length) :
    ∃ ec, x.write e q salt buffer h = x.refuse h ec := by
  unfold Transport.write
  split
  · exact ⟨_, rfl⟩
  · next hopen => exact ⟨_, if_pos (hno.resolve_left hopen)⟩

theorem write_taken (salt : UInt64) (h : Handler) (hopen : x.isOpen = true)
    (hroom : ¬ q.sendBufferSize < wadd x.writes.size buffer.length) :
    ∃ stream head, x.write e q salt buffer h =
      { x with stream := stream, writes := x.writes.enter head ⟨buffer, h⟩ } := by
  unfold Transport.write Lane.enter
  rw [if_neg (by simp [hopen]), if_neg hroom]
  dsimp only
  split
  · exact ⟨_, _, rfl⟩
  · exact ⟨x.stream, (x.stream.asyncWrite e salt buffer).2.2, rfl⟩

/-- The read at the place is over, and the stream is what it leaves. -/
def readOver (x : Transport) (place : Nat) (stream : Stream) : Transport :=
  { x with
    stream := stream
    reads := { x.reads with outstanding := x.reads.outstanding.eraseIdx place } }

/-- The write at the place is over. -/
def writeOver (x : Transport) (place : Nat) : Transport :=
  { x with writes := { x.writes with outstanding := x.writes.outstanding.eraseIdx place } }

theorem readDone_alive (halive : x.alive = true) (place : Nat) (stream : Stream) (t : Task)
    (ec : Ec) (count : Nat) : (x.readOver place stream).readDone t ec count =
      { x with stream := stream, reads := x.reads.leave place stream.asyncRead t ec count } := by
  unfold Transport.readDone Lane.leave
  dsimp only
  rw [if_pos (show (x.readOver place stream).alive = true from halive)]
  cases hrest : x.reads.queue.tail with
  | nil => simp only [readOver, Lane.pop, hrest]
  | cons op rest => simp only [readOver, Lane.pop, hrest, asyncRead]

theorem writeDone_alive (halive : x.alive = true) (place : Nat) (salt : UInt64) (t : Task) (ec : Ec)
    (count : Nat) : ∃ stream head, (x.writeOver place).writeDone e salt t ec count =
      { x with stream := stream, writes := x.writes.leave place head t ec count } := by
  unfold Transport.writeDone Lane.leave
  dsimp only
  rw [if_pos (show (x.writeOver place).alive = true from halive)]
  cases hrest : x.writes.queue.tail with
  | nil =>
    refine ⟨x.stream, false, ?_⟩
    simp only [writeOver, Lane.pop, hrest]
  | cons op rest =>
    refine ⟨(x.stream.asyncWrite e salt op.buffer).1, (x.stream.asyncWrite e salt op.buffer).2.2,
      ?_⟩
    simp only [writeOver, Lane.pop, hrest, asyncWrite]

/-- A channel that is gone calls the handler only. -/
theorem readDone_gone (hgone : x.alive = false) (place : Nat) (stream : Stream) (t : Task) (ec : Ec)
    (count : Nat) : (x.readOver place stream).readDone t ec count =
      { x.readOver place stream with reads := (x.readOver place stream).reads.call t ec count } :=
  if_neg (Bool.eq_false_iff.mp hgone)

theorem writeDone_gone (hgone : x.alive = false) (place : Nat) (salt : UInt64) (t : Task) (ec : Ec)
    (count : Nat) : (x.writeOver place).writeDone e salt t ec count =
      { x.writeOver place with writes := (x.writeOver place).writes.call t ec count } :=
  if_neg (Bool.eq_false_iff.mp hgone)

/-- Everything a step can be. -/
theorem step_cases (hstep : x.step e q ev = some x') :
    (x.alive = true ∧ x'.alive = true ∧ x'.reads = x.reads ∧ x'.writes = x.writes) ∨
    (∃ buffer h, ev = .read buffer h ∧ x.alive = true ∧ x.isOpen = true ∧
      ¬ q.receiveBufferSize < wadd x.writes.size buffer.length ∧
      x' = { x with reads := x.reads.enter x.stream.asyncRead ⟨buffer, h⟩ }) ∨
    (∃ salt buffer h stream head, ev = .write salt buffer h ∧ x.alive = true ∧ x.isOpen = true ∧
      ¬ q.sendBufferSize < wadd x.writes.size buffer.length ∧
      x' = { x with stream := stream, writes := x.writes.enter head ⟨buffer, h⟩ }) ∨
    (∃ place kind t stream ec count, x.reads.outstanding[place]? = some (kind, t) ∧
      x' = (x.readOver place stream).readDone t ec count) ∨
    (∃ place head t salt ec count, x.writes.outstanding[place]? = some (head, t) ∧
      x' = (x.writeOver place).writeDone e salt t ec count) ∨
    (x.alive = true ∧ x' = x.destroy) := by
  cases ev with
  | socket isOpen =>
    obtain ⟨halive, hx'⟩ := Option.ite_none_right_eq_some.mp hstep
    cases hx'
    exact .inl ⟨halive, halive, rfl, rfl⟩
  | read buffer h =>
    obtain ⟨halive, hx'⟩ := Option.ite_none_right_eq_some.mp hstep
    cases hx'
    by_cases hno : x.isOpen = false ∨ q.receiveBufferSize < wadd x.writes.size buffer.length
    · obtain ⟨ec, heq⟩ := read_refused h hno
      rw [heq]
      exact .inl ⟨halive, halive, rfl, rfl⟩
    · obtain ⟨hopen, hroom⟩ := not_or.mp hno
      have hopen := Bool.eq_true_of_not_eq_false hopen
      exact .inr (.inl ⟨buffer, h, rfl, halive, hopen, hroom, read_taken h hopen hroom⟩)
  | write salt buffer h =>
    obtain ⟨halive, hx'⟩ := Option.ite_none_right_eq_some.mp hstep
    cases hx'
    by_cases hno : x.isOpen = false ∨ q.sendBufferSize < wadd x.writes.size buffer.length
    · obtain ⟨ec, heq⟩ := write_refused (e := e) salt h hno
      rw [heq]
      exact .inl ⟨halive, halive, rfl, rfl⟩
    · obtain ⟨hopen, hroom⟩ := not_or.mp hno
      have hopen := Bool.eq_true_of_not_eq_false hopen
      obtain ⟨stream, head, heq⟩ := write_taken (e := e) salt h hopen hroom
      exact .inr (.inr (.inl ⟨salt, buffer, h, stream, head, rfl, halive, hopen, hroom, heq⟩))
  | readDone place ec moved =>
    simp only [step] at hstep
    cases hplace : x.reads.outstanding[place]? with
    | none =>
      rw [hplace] at hstep
      cases hstep
    | some operation =>
      rw [hplace] at hstep
      cases hstep
      exact .inr (.inr (.inr (.inl ⟨place, operation.1, operation.2, _, _, _, hplace, rfl⟩)))
  | writeDone place salt ec count =>
    simp only [step] at hstep
    cases hplace : x.writes.outstanding[place]? with
    | none =>
      rw [hplace] at hstep
      cases hstep
    | some operation =>
      rw [hplace] at hstep
      cases hstep
      exact .inr (.inr (.inr (.inr (.inl
        ⟨place, operation.1, operation.2, salt, _, _, hplace, rfl⟩))))
  | destroy =>
    obtain ⟨halive, hx'⟩ := Option.ite_none_right_eq_some.mp hstep
    cases hx'
    exact .inr (.inr (.inr (.inr (.inr ⟨halive, rfl⟩))))

/-- A completion that leaves a channel behind found it there. -/
theorem alive_of_readDone {place count : Nat} {stream : Stream} {t : Task} {ec : Ec}
    (h : ((x.readOver place stream).readDone t ec count).alive = true) : x.alive = true := by
  by_contra hgone
  rw [readDone_gone (Bool.eq_false_of_not_eq_true hgone)] at h
  exact hgone h

theorem alive_of_writeDone {place count : Nat} {salt : UInt64} {t : Task} {ec : Ec}
    (h : ((x.writeOver place).writeDone e salt t ec count).alive = true) : x.alive = true := by
  by_contra hgone
  rw [writeDone_gone (Bool.eq_false_of_not_eq_true hgone)] at h
  exact hgone h

/-! ## The reads of a channel -/

/-- What a step does to the reads of a channel that is there after it. -/
theorem step_reads (hstep : x.step e q ev = some x') (halive : x'.alive = true) :
    x.alive = true ∧
      (x'.reads = x.reads ∨
        (∃ buffer h, ev = .read buffer h ∧ x.isOpen = true ∧
          ¬ q.receiveBufferSize < wadd x.writes.size buffer.length ∧
          x'.reads = x.reads.enter x.stream.asyncRead ⟨buffer, h⟩) ∨
        ∃ place kind kind' t ec count, x.reads.outstanding[place]? = some (kind, t) ∧
          x'.reads = x.reads.leave place kind' t ec count) := by
  obtain ⟨hx, -, hreads, -⟩ | ⟨buffer, h, hev, hx, hopen, hroom, rfl⟩ |
    ⟨_, _, _, _, _, _, hx, _, _, rfl⟩ | ⟨place, kind, t, stream, ec, count, hplace, rfl⟩ |
    ⟨place, _, t, salt, ec, count, -, rfl⟩ | ⟨-, rfl⟩ := step_cases hstep
  · exact ⟨hx, .inl hreads⟩
  · exact ⟨hx, .inr (.inl ⟨buffer, h, hev, hopen, hroom, rfl⟩)⟩
  · exact ⟨hx, .inl rfl⟩
  · have hx := alive_of_readDone halive
    rw [readDone_alive hx]
    exact ⟨hx, .inr (.inr ⟨place, kind, _, t, ec, count, hplace, rfl⟩)⟩
  · have hx := alive_of_writeDone halive
    obtain ⟨stream, head, heq⟩ := writeDone_alive (e := e) hx place salt t ec count
    rw [heq]
    exact ⟨hx, .inl rfl⟩
  · cases halive

/-- A length between the two rooms under a limit: a buffer of that length has room beside one of
the two sizes and none beside the other. -/
def Between (limit reads writes length : Nat) : Prop :=
  (reads + length ≤ limit ∧ limit < wadd writes length) ∨
    (wadd writes length ≤ limit ∧ limit < reads + length)

instance (limit reads writes length : Nat) : Decidable (Between limit reads writes length) :=
  inferInstanceAs (Decidable (_ ∨ _))

/-- Where both sizes are the same, no length is between the rooms. -/
theorem not_between {limit size length : Nat} (h : size + length < 2 ^ 64) :
    ¬ Between limit size size length := by
  unfold Between wadd
  rw [Nat.mod_eq_of_lt h]
  omega

/-- No read has a length between the room that the queued reads leave and the one that the queued
writes leave. -/
def Level (q : Qos) (x : Transport) : Event → Prop
  | .read buffer _ => x.isOpen = true →
    ¬ Between q.receiveBufferSize x.reads.size x.writes.size buffer.length
  | .socket _ | .write _ _ _ | .readDone _ _ _ | .writeDone _ _ _ _ | .destroy => True

instance (q : Qos) (x : Transport) : DecidablePred (x.Level q)
  | .read _ _ => inferInstanceAs (Decidable (_ → _))
  | .socket _ | .write _ _ _ | .readDone _ _ _ | .writeDone _ _ _ _ | .destroy =>
    inferInstanceAs (Decidable True)

/-- A read is queued when it fits beside the queued reads, and turned away when it does not. -/
structure Judged (q : Qos) (x : Transport) (buffer : Bytes) (h : Handler) : Prop where
  taken : x.reads.size + buffer.length ≤ q.receiveBufferSize →
    (x.read q buffer h).reads.queue = x.reads.queue ++ [⟨buffer, h⟩]
  refused : q.receiveBufferSize < x.reads.size + buffer.length →
    x.read q buffer h = x.refuse h .messageSize

/-- The queued reads keep the quota. -/
structure Quota (q : Qos) (x : Transport) : Prop where
  lined : x.reads.Lined
  load_le : x.reads.load ≤ q.receiveBufferSize

theorem Quota.size_eq {q : Qos} {x : Transport} (h : x.Quota q) : x.reads.size = x.reads.load := by
  have hlt := q.receiveBufferSize_lt
  have hle := h.load_le
  rw [h.lined.size]
  exact Nat.mod_eq_of_lt (by omega)

/-- The queue tells a read that was taken from one that was turned away. -/
theorem judged_iff {h : Handler} (hopen : x.isOpen = true) : x.Judged q buffer h ↔
    ¬ Between q.receiveBufferSize x.reads.size x.writes.size buffer.length := by
  by_cases hroom : q.receiveBufferSize < wadd x.writes.size buffer.length
  · have hread : x.read q buffer h = x.refuse h .messageSize := by
      unfold Transport.read
      rw [if_neg (by simp [hopen]), if_pos hroom]
    constructor
    · rintro hjudged (⟨hle, -⟩ | ⟨hle, -⟩)
      · have hqueue := congrArg List.length (hjudged.taken hle)
        rw [hread, List.length_append, List.length_singleton] at hqueue
        exact absurd hqueue (Nat.ne_of_lt (Nat.lt_succ_self _))
      · exact absurd hroom (Nat.not_lt.mpr hle)
    · intro hbetween
      exact ⟨fun hle => absurd (.inl ⟨hle, hroom⟩) hbetween, fun _ => hread⟩
  · have hread := read_taken (q := q) h hopen hroom
    constructor
    · rintro hjudged (⟨-, hlt⟩ | ⟨-, hlt⟩)
      · exact hroom hlt
      · have hqueue := congrArg (fun x => x.reads.queue.length) (hjudged.refused hlt)
        rw [hread] at hqueue
        dsimp only at hqueue
        rw [Lane.queue_enter, List.length_append, List.length_singleton] at hqueue
        exact absurd hqueue (Nat.ne_of_gt (Nat.lt_succ_self _))
    · intro hbetween
      refine ⟨fun _ => ?_, fun hlt => absurd (.inr ⟨Nat.le_of_not_lt hroom, hlt⟩) hbetween⟩
      rw [hread]
      exact Lane.queue_enter _ _ _

theorem Quota.step {e : Endian} {q : Qos} {x x' : Transport} {ev : Event}
    (h : x.alive = true → x.Quota q) (hlevel : x.Level q ev) (hstep : x.step e q ev = some x')
    (halive : x'.alive = true) : x'.Quota q := by
  obtain ⟨hx, hreads⟩ := step_reads hstep halive
  have hquota := h hx
  obtain hsame | ⟨buffer, handler, rfl, hopen, hroom, henter⟩ |
    ⟨place, kind, kind', t, ec, count, hplace, hleave⟩ := hreads
  · exact ⟨hsame ▸ hquota.lined, hsame ▸ hquota.load_le⟩
  · have hsize := hquota.size_eq
    refine ⟨henter ▸ hquota.lined.enter _ _, ?_⟩
    rw [henter, Lane.load_enter, ← hsize]
    by_contra hlt
    exact hlevel hopen (.inr ⟨Nat.le_of_not_lt hroom, Nat.lt_of_not_le hlt⟩)
  · have hload := Lane.load_leave (hquota.lined.first hplace).2 place kind' ec count
    have hle := hquota.load_le
    refine ⟨hleave ▸ hquota.lined.leave hplace ec count, ?_⟩
    rw [hleave]
    omega

/-- The reads of a channel keep their quota in every run without a read whose length is between the
room that the queued reads leave and the one that the queued writes leave. In the states of such a
run these are the only reads that the queued reads and the buffer do not decide. -/
theorem read_quota {e : Endian} {q : Qos} {secret : UInt64} {x : Transport}
    (h : (system e q secret).Reaches (Level q) x) (halive : x.alive = true) :
    x.reads.size = (x.reads.queue.map Task.size).sum ∧
      x.reads.size ≤ q.receiveBufferSize ∧
      ∀ buffer handler, x.isOpen = true → (x.Judged q buffer handler ↔
        ¬ Between q.receiveBufferSize x.reads.size x.writes.size buffer.length) := by
  have hquota : x.alive = true → x.Quota q := by
    refine System.Reaches.invariant (P := fun x => x.alive = true → x.Quota q) ?_ ?_ h
    · rintro x rfl -
      exact ⟨.create, Nat.zero_le _⟩
    · intro x ev x' hlevel hx hstep
      exact Quota.step hx hlevel hstep
  have hquota := hquota halive
  exact ⟨hquota.size_eq, hquota.size_eq ▸ hquota.load_le, fun _ _ hopen => judged_iff hopen⟩

/-- A quota of four bytes in each direction. -/
def four : Qos := ⟨4, 4, four_lt, four_lt⟩

/-- Two bytes are read and two are written, and then a read of three is turned away. -/
theorem read_quota_three :
    ∃ x, (system .little four 0).Reaches (Level four) x ∧ x.reads.size = 2 ∧
      x.reads.size ≤ four.receiveBufferSize ∧
      x.read four [0, 0, 0] 3 = x.refuse 3 .messageSize := by
  have hrun : ((system .little four 0).checked
      (fun x ev => decide (x.Level four ev)) (create 0)
      [.socket true, .read [0, 0] 1, .write 7 [8, 9] 2]).map
        (fun x => (x.alive, x.isOpen, x.reads.size, x.writes.size)) =
      some (true, true, 2, 2) := by decide
  obtain ⟨x, hx, hv⟩ := Option.map_eq_some_iff.mp hrun
  simp only [Prod.mk.injEq] at hv
  obtain ⟨halive, hopen, hreads, hwrites⟩ := hv
  have hreached := System.Reaches.checked (fun _ _ => of_decide_eq_true) _ (.start rfl) hx
  obtain ⟨-, hle, hjudged⟩ := read_quota hreached halive
  have hbetween : ¬ Between four.receiveBufferSize x.reads.size x.writes.size 3 := by
    rw [hreads, hwrites]
    exact not_between (by decide)
  refine ⟨x, hreached, hreads, hle, ((hjudged [0, 0, 0] 3 hopen).mpr hbetween).refused ?_⟩
  rw [hreads]
  decide

/-- Two reads of four bytes are queued under a quota of four. -/
theorem reads_exceed :
    ¬ ∀ (q : Qos) (x : Transport), (system .little q 0).Reachable x →
      x.reads.size ≤ q.receiveBufferSize := by
  intro hall
  have hrun : ((system .little four 0).run (create 0)
      [.socket true, .read [0, 0, 0, 0] 1, .read [0, 0, 0, 0] 2]).map (fun x => x.reads.size) =
      some 8 := by decide
  obtain ⟨x, hx, hsize⟩ := System.exists_of_run _ rfl hrun
  have hle := hall four x hx
  rw [hsize] at hle
  revert hle
  decide

end Transport

end Tubus.Tcp
