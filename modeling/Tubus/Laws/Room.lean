import Tubus.Laws.Transport

/-!
# The room for a write

`writable` and `streambuf::add` count the room in the send buffer each on its own. `writable` is
the size of the buffer less what is queued, so it offers all of it; `add` wants the queue to stay
below that size, and refuses the write that would fill it (`add_accepts_iff`).

Both count in words. A queue that is longer than the send buffer, which takes a write of nearly
`2 ^ 64` bytes, is offered the room that is left when the count wraps.
-/

namespace Tubus.Udp

open Lib

/-- What is queued in a channel, as `streambuf` counts it. -/
def SendBuffer.queued (b : SendBuffer) : Nat := wsub b.tail b.head

/-- The room in the send buffer, as `writable` counts it. -/
def SendBuffer.room (q : Qos) (b : SendBuffer) : Nat := wsub q.sendBufferSize b.queued

/-- The sizes that `add` takes: they leave room, and so does the queue, unless the count wraps. -/
def SendBuffer.leaves (q : Qos) (b : SendBuffer) (n : Nat) : Bool :=
  decide (n ≠ b.room q) && (decide (b.queued ≤ q.sendBufferSize) || decide (2 ^ 64 ≤ b.queued + n))

theorem SendBuffer.wsub_wadd (b : SendBuffer) (n : Nat) :
    wsub (wadd b.tail n) b.head = (b.queued + n) % 2 ^ 64 := by
  unfold queued wsub wadd
  omega

/-- Within the room, `add` takes what does not fill it. -/
theorem SendBuffer.add_accepts_iff {q : Qos} {b : SendBuffer} {n : Nat} (hle : n ≤ b.room q) :
    wsub (wadd b.tail n) b.head < q.sendBufferSize ↔ b.leaves q n = true := by
  have hq : b.queued < 2 ^ 64 := wsub_lt _ _
  have hs := q.sendBufferSize_lt
  rw [wsub_wadd, leaves]
  simp only [Bool.and_eq_true, Bool.or_eq_true, decide_eq_true_eq]
  by_cases hfull : b.queued ≤ q.sendBufferSize
  · have hroom : b.room q = q.sendBufferSize - b.queued := wsub_of_le hfull hs
    rw [hroom] at hle ⊢
    omega
  · have hroom : b.room q = q.sendBufferSize + (2 ^ 64 - b.queued) := by
      rw [room, wsub, Nat.mod_eq_of_lt hq, Nat.mod_eq_of_lt (by omega)]
    rw [hroom] at hle ⊢
    omega

namespace Ostreamer

variable {q : Qos} {o : Ostreamer} {buffer : Bytes} {k : Handler}

theorem writable_le_room : o.writable q ≤ o.buffer.room q := by
  unfold writable
  split
  · exact Nat.min_le_right _ _
  · exact Nat.zero_le _

/-- A write that `add` takes is queued. -/
theorem append_of_lt (hpos : 0 < buffer.length) (hlt : buffer.length < 2 ^ 64)
    (hadd : wsub (wadd o.buffer.tail buffer.length) o.buffer.head < q.sendBufferSize) :
    o.append q buffer k = { o with
      buffer := { o.buffer with
        tail := wadd o.buffer.tail buffer.length, data := o.buffer.data ++ [buffer] }
      writers := o.writers ++ [⟨o.buffer.tail, buffer.length, k⟩]
      accepted := o.accepted ++ [(buffer, k)] } := by
  have hb : o.buffer.add q buffer = { o.buffer with
      tail := wadd o.buffer.tail buffer.length, data := o.buffer.data ++ [buffer] } :=
    if_neg (Nat.not_le.mpr hadd)
  have hne : wadd o.buffer.tail buffer.length ≠ o.buffer.tail := by
    unfold wadd
    omega
  rw [append, hb]
  exact if_neg hne

/-- A write that `add` does not take is refused. -/
theorem append_of_le
    (hadd : q.sendBufferSize ≤ wsub (wadd o.buffer.tail buffer.length) o.buffer.head) :
    o.append q buffer k = { o with
      refused := o.refused ++ [k]
      errors := if o.onError then o.errors ++ [.noBufferSpace] else o.errors } := by
  have hb : o.buffer.add q buffer = o.buffer := if_pos hadd
  rw [append, hb]
  exact if_pos rfl

end Ostreamer

namespace Transport

theorem writable_lt (t : Transport) : t.writable < 2 ^ 64 := by
  unfold writable Ostreamer.writable
  split
  · split
    · exact Nat.lt_of_le_of_lt (Nat.min_le_left _ _) (wsub_lt _ _)
    · decide
  · decide

/-- A linked channel queues a write within `writable` exactly when the write does not fill the
send buffer. -/
theorem write_queued_iff {t : Transport} (hl : t.connector.status = .linked) (buffer : Bytes)
    (k : Handler) (hpos : 0 < buffer.length) (hle : buffer.length ≤ t.writable) :
    ((t.write buffer k).ostreamer.refused = t.ostreamer.refused ∧
      (t.write buffer k).ostreamer.errors = t.ostreamer.errors ∧
      (t.write buffer k).ostreamer.buffer.data = t.ostreamer.buffer.data ++ [buffer] ∧
      (t.write buffer k).ostreamer.buffer.tail =
        wadd t.ostreamer.buffer.tail buffer.length) ↔
    t.ostreamer.buffer.leaves t.qos buffer.length = true := by
  have hlt := Nat.lt_of_le_of_lt hle t.writable_lt
  have hroom : buffer.length ≤ t.ostreamer.buffer.room t.qos := by
    rw [writable, if_pos hl] at hle
    exact Nat.le_trans hle Ostreamer.writable_le_room
  rw [← SendBuffer.add_accepts_iff hroom, write, if_pos hl]
  constructor
  · rintro ⟨hrefused, _⟩
    by_contra hfull
    rw [Ostreamer.append_of_le (Nat.le_of_not_lt hfull)] at hrefused
    simp at hrefused
  · intro hadd
    rw [Ostreamer.append_of_lt hpos hlt hadd]
    exact ⟨rfl, rfl, rfl, rfl⟩

/-- A channel with a send buffer of four bytes. -/
def narrow : Qos := { Qos.default with sendBufferSize := 4, sendBufferSize_lt := by decide }

/-- Three bytes into an empty send buffer of four. -/
theorem write_queued_iff_three :
    ∃ t, (system narrow).Reachable t ∧ t.writable = 4 ∧
      (t.write [1, 2, 3] 5).ostreamer.refused = t.ostreamer.refused ∧
      (t.write [1, 2, 3] 5).ostreamer.buffer.data = [[1, 2, 3]] := by
  obtain ⟨t, ht, hv⟩ := System.exists_of_run (S := system narrow)
    (f := fun t => (t.connector.status, t.writable, t.ostreamer.buffer.data,
      t.ostreamer.buffer.leaves t.qos 3)) (v := (.linked, 4, [], true))
    [.openAt, .connect 1 1 1 .success, .feed 2 ⟨2, [.linkEcho, .edge 100]⟩] rfl
    (by decide +kernel)
  simp only [Prod.mk.injEq] at hv
  obtain ⟨hl, hw, hdata, hleaves⟩ := hv
  obtain ⟨hrefused, _, hqueue, _⟩ := (write_queued_iff hl [1, 2, 3] 5 (by decide)
    (by rw [hw]; decide)).mpr hleaves
  rw [hdata] at hqueue
  exact ⟨t, ht, hw, hrefused, hqueue⟩

/-- Four bytes into an empty send buffer of four, which `writable` offers, are refused. -/
theorem write_fills :
    ¬ ∀ (q : Qos) (t : Transport), (system q).Reachable t → t.connector.status = .linked →
      ∀ (buffer : Bytes) (k : Handler), 0 < buffer.length → buffer.length ≤ t.writable →
        (t.write buffer k).ostreamer.refused = t.ostreamer.refused ∧
        (t.write buffer k).ostreamer.errors = t.ostreamer.errors ∧
        (t.write buffer k).ostreamer.buffer.tail =
          wadd t.ostreamer.buffer.tail buffer.length := by
  intro hall
  obtain ⟨t, ht, hv⟩ := System.exists_of_run (S := system narrow)
    (f := fun t => (t.connector.status, t.writable, t.ostreamer.refused,
      (t.write [1, 2, 3, 4] 5).ostreamer.refused)) (v := (.linked, 4, [], [5]))
    [.openAt, .connect 1 1 1 .success, .feed 2 ⟨2, [.linkEcho, .edge 100]⟩] rfl
    (by decide +kernel)
  simp only [Prod.mk.injEq] at hv
  obtain ⟨hl, hw, hrefused, hrefused'⟩ := hv
  have hsame := (hall narrow t ht hl [1, 2, 3, 4] 5 (by decide) (by rw [hw]; decide)).1
  rw [hrefused, hrefused'] at hsame
  cases hsame

end Transport

end Tubus.Udp
