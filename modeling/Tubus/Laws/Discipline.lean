import Mathlib.Algebra.Order.BigOperators.Group.List
import Tubus.Laws.Quota

/-!
# The queues of a TCP channel

Tasks are handed to the stream one at a time and in the order of the calls, and their handlers are
called in that order, whatever completes and however it fails (`Lane.InTurn`). The two sizes are
`size_t` values, so they are the sums over the queues only as long as the queued bytes stay below
`2 ^ 64`. Nothing sees to that: the reads have no quota of their own, and the quota of the writes is
tested against a sum that may wrap (`orderly_iff_fits`).
-/

namespace Tubus.Tcp

open Lib

namespace Lane

variable {κ : Type} {l : Lane κ}

/-- Tasks leave the queue in the order in which they came, each is handed to the stream when it is
the first, and its handler is called when it leaves. -/
def InTurn (l : Lane κ) : Prop :=
  ∃ left, l.accepted = left ++ l.queue ∧ l.started = left ++ l.queue.take 1 ∧
    l.calls.map Call.callback = left.map Task.callback

theorem InTurn.create : (create : Lane κ).InTurn := ⟨[], rfl, rfl, rfl⟩

theorem InTurn.enter (h : l.InTurn) (kind : κ) (t : Task) : (l.enter kind t).InTurn := by
  obtain ⟨left, haccepted, hstarted, hcalls⟩ := h
  refine ⟨left, ?_⟩
  unfold Lane.enter
  cases hqueue : l.queue with
  | nil => simp_all [push, start]
  | cons first rest => simp_all [push]

theorem InTurn.leave (h : l.InTurn) {t : Task} (hqueue : l.queue = t :: l.queue.tail) (place : Nat)
    (kind : κ) (ec : Ec) (count : Nat) : (l.leave place kind t ec count).InTurn := by
  obtain ⟨left, haccepted, hstarted, hcalls⟩ := h
  rw [hqueue] at haccepted hstarted
  refine ⟨left ++ [t], ?_⟩
  unfold Lane.leave
  cases hrest : l.queue.tail with
  | nil => simp_all [pop, call]
  | cons op rest => simp_all [pop, call, start]

/-- What a direction owes its callers: one operation is under way exactly when the queue is not
empty, and it is that of the first task; the calls are served in turn; and the size is the sum over
the queue, which therefore covers the task that is about to leave. -/
structure Orderly (l : Lane κ) : Prop where
  outstanding : l.outstanding.map Prod.snd = l.queue.take 1
  inTurn : l.InTurn
  size : l.size = l.load
  covers : ∀ op ∈ l.outstanding, op.2.size ≤ l.size

/-- The first task is a part of the load. -/
theorem Lined.covers (h : l.Lined) : ∀ op ∈ l.outstanding, op.2.size ≤ l.load := by
  intro op hop
  have hfirst : op.2 ∈ l.queue.take 1 := h.outstanding ▸ List.mem_map_of_mem hop
  exact List.single_le_sum (fun _ _ => Nat.zero_le _) _
    (List.mem_map_of_mem (List.mem_of_mem_take hfirst))

/-- With the rest in place, a direction is orderly exactly while its bytes fit a word. -/
theorem Lined.orderly_iff (h : l.Lined) (hturn : l.InTurn) : l.Orderly ↔ l.load < 2 ^ 64 := by
  constructor
  · intro ho
    rw [← ho.size, h.size]
    exact Nat.mod_lt _ (by decide)
  · intro hlt
    have hsize : l.size = l.load := h.size.trans (Nat.mod_eq_of_lt hlt)
    exact ⟨h.outstanding, hturn, hsize, fun op hop => hsize ▸ h.covers op hop⟩

end Lane

namespace Transport

/-- What a step does to the writes of a channel that is there after it. -/
theorem step_writes {e : Endian} {q : Qos} {x x' : Transport} {ev : Event}
    (hstep : x.step e q ev = some x') (halive : x'.alive = true) :
    x'.writes = x.writes ∨
      (∃ salt buffer h head, ev = .write salt buffer h ∧ x.isOpen = true ∧
        ¬ q.sendBufferSize < wadd x.writes.size buffer.length ∧
        x'.writes = x.writes.enter head ⟨buffer, h⟩) ∨
      ∃ place head head' t ec count, x.writes.outstanding[place]? = some (head, t) ∧
        x'.writes = x.writes.leave place head' t ec count := by
  obtain ⟨-, -, -, hwrites⟩ | ⟨_, _, _, _, _, _, rfl⟩ |
    ⟨salt, buffer, h, _, head, hev, -, hopen, hroom, rfl⟩ |
    ⟨place, _, t, stream, ec, count, -, rfl⟩ | ⟨place, head, t, salt, ec, count, hplace, rfl⟩ |
    ⟨-, rfl⟩ := step_cases hstep
  · exact .inl hwrites
  · exact .inl rfl
  · exact .inr (.inl ⟨salt, buffer, h, head, hev, hopen, hroom, rfl⟩)
  · rw [readDone_alive (alive_of_readDone halive)]
    exact .inl rfl
  · obtain ⟨stream, head', heq⟩ :=
      writeDone_alive (e := e) (alive_of_writeDone halive) place salt t ec count
    rw [heq]
    exact .inr (.inr ⟨place, head, head', t, ec, count, hplace, rfl⟩)
  · cases halive

/-- Both directions are served one task at a time, whatever their sizes have become. -/
structure Lined (x : Transport) : Prop where
  reads : x.reads.Lined
  readsTurn : x.reads.InTurn
  writes : x.writes.Lined
  writesTurn : x.writes.InTurn

theorem Lined.step {e : Endian} {q : Qos} {x x' : Transport} {ev : Event}
    (h : x.alive = true → x.Lined) (hstep : x.step e q ev = some x') (halive : x'.alive = true) :
    x'.Lined := by
  obtain ⟨hx, hreads⟩ := step_reads hstep halive
  have hwrites := step_writes hstep halive
  have hlined := h hx
  have hread : x'.reads.Lined ∧ x'.reads.InTurn := by
    obtain heq | ⟨_, _, _, _, _, heq⟩ | ⟨_, _, _, _, _, _, hplace, heq⟩ := hreads
    · exact heq ▸ ⟨hlined.reads, hlined.readsTurn⟩
    · exact heq ▸ ⟨hlined.reads.enter _ _, hlined.readsTurn.enter _ _⟩
    · have hfirst := (hlined.reads.first hplace).2
      exact heq ▸ ⟨hlined.reads.leave hplace _ _, hlined.readsTurn.leave hfirst _ _ _ _⟩
  have hwrite : x'.writes.Lined ∧ x'.writes.InTurn := by
    obtain heq | ⟨_, _, _, _, _, _, _, heq⟩ | ⟨_, _, _, _, _, _, hplace, heq⟩ := hwrites
    · exact heq ▸ ⟨hlined.writes, hlined.writesTurn⟩
    · exact heq ▸ ⟨hlined.writes.enter _ _, hlined.writesTurn.enter _ _⟩
    · have hfirst := (hlined.writes.first hplace).2
      exact heq ▸ ⟨hlined.writes.leave hplace _ _, hlined.writesTurn.leave hfirst _ _ _ _⟩
  exact ⟨hread.1, hread.2, hwrite.1, hwrite.2⟩

theorem lined {e : Endian} {q : Qos} {secret : UInt64} {ok : Transport → Event → Prop}
    {x : Transport} (h : (system e q secret).Reaches ok x) (halive : x.alive = true) :
    x.Lined := by
  refine System.Reaches.invariant (P := fun x => x.alive = true → x.Lined) ?_ ?_ h halive
  · rintro x rfl -
    exact ⟨.create, .create, .create, .create⟩
  · intro x ev x' _ hx hstep
    exact Lined.step hx hstep

/-- What a live channel owes its callers. -/
structure Orderly (q : Qos) (x : Transport) : Prop where
  reads : x.reads.Orderly
  writes : x.writes.Orderly
  size_le : x.writes.size ≤ q.sendBufferSize
  writable : x.writable q + x.writes.size = q.sendBufferSize

/-- Does a call that is taken leave the queued bytes below `2 ^ 64`? -/
def Fits (q : Qos) (x : Transport) : Event → Prop
  | .read buffer _ =>
    x.isOpen = true → wadd x.writes.size buffer.length ≤ q.receiveBufferSize →
      x.reads.load + buffer.length < 2 ^ 64
  | .write _ buffer _ =>
    x.isOpen = true → wadd x.writes.size buffer.length ≤ q.sendBufferSize →
      x.writes.load + buffer.length < 2 ^ 64
  | .socket _ | .readDone _ _ _ | .writeDone _ _ _ _ | .destroy => True

/-- The bytes of the two queues are few enough: for the reads a word can hold them, and the writes
keep their quota. -/
structure Small (q : Qos) (x : Transport) : Prop where
  reads : x.reads.load < 2 ^ 64
  writes : x.writes.load ≤ q.sendBufferSize

/-- A channel is orderly exactly while its queues are small. -/
theorem Lined.orderly_iff {q : Qos} {x : Transport} (h : x.Lined) :
    x.Orderly q ↔ x.Small q := by
  have hlt := q.sendBufferSize_lt
  constructor
  · intro ho
    exact ⟨(h.reads.orderly_iff h.readsTurn).mp ho.reads, ho.writes.size ▸ ho.size_le⟩
  · intro hs
    have hwrites := (h.writes.orderly_iff h.writesTurn).mpr (hs.writes.trans_lt hlt)
    have hle : x.writes.size ≤ q.sendBufferSize := hwrites.size ▸ hs.writes
    refine ⟨(h.reads.orderly_iff h.readsTurn).mpr hs.reads, hwrites, hle, ?_⟩
    rw [Transport.writable, wsub_of_le hle hlt]
    exact Nat.sub_add_cancel hle

/-- A read that is not turned away adds its bytes. -/
theorem load_read {q : Qos} {x : Transport} {buffer : Bytes} (h : Handler) (hopen : x.isOpen = true)
    (hroom : wadd x.writes.size buffer.length ≤ q.receiveBufferSize) :
    (x.read q buffer h).reads.load = x.reads.load + buffer.length := by
  rw [read_taken h hopen (Nat.not_lt.mpr hroom)]
  exact Lane.load_enter _ _ _

/-- So does a write. -/
theorem load_write (e : Endian) {q : Qos} (salt : UInt64) {x : Transport} {buffer : Bytes}
    (h : Handler) (hopen : x.isOpen = true)
    (hroom : wadd x.writes.size buffer.length ≤ q.sendBufferSize) :
    (x.write e q salt buffer h).writes.load = x.writes.load + buffer.length := by
  obtain ⟨stream, head, heq⟩ := write_taken (e := e) salt h hopen (Nat.not_lt.mpr hroom)
  rw [heq]
  exact Lane.load_enter _ _ _

/-- A step that fits keeps the queues small. -/
theorem Small.step {e : Endian} {q : Qos} {x x' : Transport} {ev : Event} (hlined : x.Lined)
    (h : x.Small q) (hfits : x.Fits q ev) (hstep : x.step e q ev = some x')
    (halive : x'.alive = true) : x'.Small q := by
  have hreads := h.reads
  have hwrites := h.writes
  refine ⟨?_, ?_⟩
  · obtain heq | ⟨buffer, _, rfl, hopen, hroom, heq⟩ |
      ⟨place, _, kind, t, ec, count, hplace, heq⟩ := (step_reads hstep halive).2
    · rwa [heq]
    · rw [heq, Lane.load_enter]
      exact hfits hopen (Nat.le_of_not_lt hroom)
    · have hload := Lane.load_leave (hlined.reads.first hplace).2 place kind ec count
      rw [heq]
      omega
  · obtain heq | ⟨_, buffer, _, _, rfl, hopen, hroom, heq⟩ |
      ⟨place, _, head, t, ec, count, hplace, heq⟩ := step_writes hstep halive
    · rwa [heq]
    · have hle := Nat.le_of_not_lt hroom
      have hlt := hfits hopen hle
      have hsize : x.writes.size = x.writes.load :=
        hlined.writes.size.trans (Nat.mod_eq_of_lt (hwrites.trans_lt q.sendBufferSize_lt))
      rw [hsize, wadd_of_lt hlt] at hle
      rwa [heq, Lane.load_enter]
    · have hload := Lane.load_leave (hlined.writes.first hplace).2 place head ec count
      rw [heq]
      omega

/-- A step after which the queues are small did fit. -/
theorem Small.fits {e : Endian} {q : Qos} {x x' : Transport} {ev : Event} (h : x'.Small q)
    (hstep : x.step e q ev = some x') : x.Fits q ev := by
  cases ev with
  | read buffer handler =>
    obtain ⟨-, hx'⟩ := Option.ite_none_right_eq_some.mp hstep
    cases hx'
    intro hopen hroom
    rw [← load_read handler hopen hroom]
    exact h.reads
  | write salt buffer handler =>
    obtain ⟨-, hx'⟩ := Option.ite_none_right_eq_some.mp hstep
    cases hx'
    intro hopen hroom
    rw [← load_write e salt handler hopen hroom]
    exact h.writes.trans_lt q.sendBufferSize_lt
  | socket _ | readDone _ _ _ | writeDone _ _ _ _ | destroy => trivial

/-- In every run whose calls fit, a live channel is orderly in every state reached, and a further
step leaves it orderly exactly if it fits, too. -/
theorem orderly_iff_fits {e : Endian} {q : Qos} {secret : UInt64} {x : Transport}
    (h : (system e q secret).Reaches (Fits q) x) (halive : x.alive = true) :
    x.Orderly q ∧ ∀ ev x', x.step e q ev = some x' → x'.alive = true →
      (x'.Orderly q ↔ x.Fits q ev) := by
  have hsmall : x.Small q := by
    refine System.Reaches.invariant_with (I := fun x => x.alive = true → x.Lined)
      (P := fun x => x.alive = true → x.Small q) ?_ ?_ ?_ h halive
    · intro x hx
      exact lined hx
    · rintro x rfl -
      exact ⟨Nat.two_pow_pos 64, Nat.zero_le _⟩
    · intro x ev x' hfits hlined hx hstep hx'
      have halive := (step_reads hstep hx').1
      exact (hx halive).step (hlined halive) hfits hstep hx'
  have hlined := lined h halive
  refine ⟨hlined.orderly_iff.mpr hsmall, fun ev x' hstep hx' => ?_⟩
  have hlined' : x'.Lined := Lined.step (fun _ => hlined) hstep hx'
  rw [hlined'.orderly_iff]
  constructor
  · intro hsmall'
    exact hsmall'.fits hstep
  · intro hfits
    exact hsmall.step hlined hfits hstep hx'

instance (q : Qos) (x : Transport) : (ev : Event) → Decidable (x.Fits q ev)
  | .read _ _ | .write _ _ _ => inferInstanceAs (Decidable (_ → _ → _))
  | .socket _ | .readDone _ _ _ | .writeDone _ _ _ _ | .destroy => .isTrue trivial

/-- Two reads and a write are queued, and the first read fails. -/
theorem orderly_iff_fits_three :
    ∃ x x', (system .little four 0).Reaches (Fits four) x ∧ x.Orderly four ∧
      x.step .little four (.readDone 0 .interrupted []) = some x' ∧ x'.Orderly four ∧
      x'.reads.calls = [⟨1, .interrupted, 0⟩] := by
  have hrun : ((system .little four 0).checked (fun x ev => decide (x.Fits four ev)) (create 0)
      [.socket true, .read [0, 0] 1, .read [0] 2, .write 7 [8, 9] 3]).bind (fun x =>
        (x.step .little four (.readDone 0 .interrupted [])).map fun x' =>
          (x.alive, x'.alive, x'.reads.calls)) =
      some (true, true, [⟨1, .interrupted, 0⟩]) := by decide
  obtain ⟨x, hx, hnext⟩ := Option.bind_eq_some_iff.mp hrun
  obtain ⟨x', hstep, hv⟩ := Option.map_eq_some_iff.mp hnext
  simp only [Prod.mk.injEq] at hv
  obtain ⟨halive, halive', hcalls⟩ := hv
  have hreached : (system .little four 0).Reaches (Fits four) x :=
    System.Reaches.checked (fun _ _ htest => of_decide_eq_true htest) _ (.start rfl) hx
  obtain ⟨horderly, hnext⟩ := orderly_iff_fits hreached halive
  exact ⟨x, x', hreached, horderly, hstep, (hnext _ x' hstep halive').mpr trivial, hcalls⟩

/-- A quota of a terabyte for the reads. -/
theorem terabyte_lt : 2 ^ 40 < 2 ^ 64 := by decide

def wide : Qos := ⟨2 ^ 40, 4, terabyte_lt, four_lt⟩

/-- Any number of reads of a terabyte is queued. -/
theorem reads_pile {buffer : Bytes} (hlen : buffer.length = 2 ^ 40) (n : Nat) :
    ∃ x, (system .little wide 0).Reachable x ∧ x.alive = true ∧ x.isOpen = true ∧
      x.writes.size = 0 ∧ x.reads.load = n * 2 ^ 40 := by
  induction n with
  | zero =>
    exact ⟨_, .next (e := .socket true) (.start rfl) trivial rfl, rfl, rfl, rfl,
      (Nat.zero_mul _).symm⟩
  | succ n ih =>
    obtain ⟨x, hx, halive, hopen, hwrites, hload⟩ := ih
    have hroom : wadd x.writes.size buffer.length ≤ wide.receiveBufferSize := by
      rw [hwrites, hlen, wadd_of_lt (by omega)]
      exact Nat.le_of_eq (Nat.zero_add _)
    have hrest : (x.read wide buffer 1).alive = x.alive ∧
        (x.read wide buffer 1).isOpen = x.isOpen ∧ (x.read wide buffer 1).writes = x.writes := by
      rw [read_taken 1 hopen (Nat.not_lt.mpr hroom)]
      exact ⟨rfl, rfl, rfl⟩
    obtain ⟨halive', hopen', hwrites'⟩ := hrest
    refine ⟨x.read wide buffer 1, ?_, halive'.trans halive, hopen'.trans hopen, ?_, ?_⟩
    · exact .next (e := .read buffer 1) hx trivial (if_pos halive)
    · rw [hwrites', hwrites]
    · rw [load_read 1 hopen hroom, hload, hlen, Nat.add_mul, Nat.one_mul]

/-- With `2 ^ 24` reads of a terabyte queued, the size no longer is the sum. -/
theorem reads_wrap :
    ¬ ∀ (q : Qos) (x : Transport), (system .little q 0).Reachable x → x.alive = true →
      x.Orderly q := by
  intro hall
  obtain ⟨buffer, hlen⟩ : ∃ buffer : Bytes, buffer.length = 2 ^ 40 :=
    ⟨List.replicate (2 ^ 40) 0, List.length_replicate⟩
  obtain ⟨x, hx, halive, _, _, hload⟩ := reads_pile hlen (2 ^ 24)
  have hlt := ((lined hx halive).orderly_iff.mp (hall wide x hx halive)).reads
  omega

end Transport

end Tubus.Tcp
