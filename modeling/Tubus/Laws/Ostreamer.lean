import Mathlib.Logic.Relation
import Tubus.Udp.Ostreamer

/-!
# What the sending half can do

`ostreamer::imbue` as small steps: send a flight again, give up on one, cut a fresh snippet off
the stream, write echoes (`Emits`). Its two loops are some sequence of these, and
`imbue_induct` carries an invariant over them. `parse` is a fold, and `append`, `pull` and
`add` have one case lemma each.
-/

namespace Tubus.Udp

open Lib

/-! ## Acknowledgement lists -/

/-- The echoes written are those of the least numbers, and the others are left. -/
theorem takeAcks_eq (form : Nat → Section) (room : Nat) (l : List (Nat × Unit)) :
    ∃ pre, l = pre ++ (takeAcks form room l).2.1 ∧
      (takeAcks form room l).1 = pre.map (fun e => form e.1) := by
  induction l generalizing room with
  | nil => exact ⟨[], rfl, rfl⟩
  | cons e rest ih =>
    obtain ⟨v, u⟩ := e
    unfold takeAcks
    split
    · exact ⟨[], rfl, rfl⟩
    · obtain ⟨pre, hpre, hsecs⟩ := ih (room - (form v).size)
      refine ⟨(v, u) :: pre, ?_, ?_⟩
      · rw [List.cons_append, ← hpre]
      · rw [List.map_cons, ← hsecs]

/-- Every echo written answers a number of the set. -/
theorem drainAcks_mem {form : Nat → Section} {room : Nat} {acks : SortedSet Nat} {s : Section}
    (h : s ∈ (drainAcks form room acks).1) : ∃ v ∈ acks.keys, s = form v := by
  obtain ⟨pre, hpre, hsecs⟩ := takeAcks_eq form room acks.entries
  change s ∈ (takeAcks form room acks.entries).1 at h
  rw [hsecs] at h
  obtain ⟨e, he, rfl⟩ := List.mem_map.mp h
  refine ⟨e.1, List.mem_map.mpr ⟨e, ?_, rfl⟩, rfl⟩
  rw [hpre]
  exact List.mem_append_left _ he

/-- What is left of the set was in it. -/
theorem drainAcks_keys {form : Nat → Section} {room : Nat} {acks : SortedSet Nat} {v : Nat}
    (h : v ∈ (drainAcks form room acks).2.1.keys) : v ∈ acks.keys := by
  obtain ⟨e, he, rfl⟩ := List.mem_map.mp h
  exact List.mem_map.mpr ⟨e, (takeAcks_suffix form room acks.entries).subset he, rfl⟩

/-! ## The stream buffer -/

namespace SendBuffer

/-- What `pull` gives is the front of the queue, and the rest stays. -/
theorem pull_flatten (b : SendBuffer) (max : Nat) :
    (b.pull max).1 ++ (b.pull max).2.data.flatten = b.data.flatten := by
  unfold pull
  split
  · next h => simp [h]
  · next top rest h =>
    split
    · rw [h, List.flatten_cons]
    · rw [h, List.flatten_cons, List.flatten_cons, ← List.append_assoc, List.take_append_drop]

theorem pull_length_le (b : SendBuffer) (max : Nat) : (b.pull max).1.length ≤ max := by
  unfold pull
  split
  · exact Nat.zero_le _
  · split
    · assumption
    · exact List.length_take_le _ _

theorem pull_head (b : SendBuffer) (max : Nat) (hne : b.data ≠ []) :
    (b.pull max).2.head = wadd b.head (b.pull max).1.length := by
  unfold pull
  split
  · next h => exact absurd h hne
  · split
    · rfl
    · simp only [List.length_take]
      congr 1
      omega

theorem pull_tail (b : SendBuffer) (max : Nat) : (b.pull max).2.tail = b.tail := by
  unfold pull
  split
  · rfl
  · split <;> rfl

/-- A buffer that is queued whole, or a part of one: nothing empty comes out of buffers that
are not. -/
theorem pull_ne_nil (b : SendBuffer) {max : Nat} (hne : b.data ≠ []) (hpos : 0 < max)
    (hall : ∀ x ∈ b.data, x ≠ []) :
    (b.pull max).1 ≠ [] ∧ ∀ x ∈ (b.pull max).2.data, x ≠ [] := by
  unfold pull
  split
  · next h => exact absurd h hne
  · next top rest h =>
    have htop : top ≠ [] := hall top (by rw [h]; exact List.mem_cons_self)
    have hrest : ∀ x ∈ rest, x ≠ [] := fun x hx =>
      hall x (by rw [h]; exact List.mem_cons_of_mem _ hx)
    split
    · exact ⟨htop, hrest⟩
    · next hlt =>
      refine ⟨?_, ?_⟩
      · intro hnil
        have := congrArg List.length hnil
        simp only [List.length_take, List.length_nil] at this
        omega
      · intro x hx
        rcases List.mem_cons.mp hx with rfl | hx
        · intro hnil
          have := congrArg List.length hnil
          simp only [List.length_drop, List.length_nil] at this
          omega
        · exact hrest x hx

/-- `add` refuses, or puts the buffer at the end of the queue. -/
theorem add_cases (q : Qos) (b : SendBuffer) (buf : Bytes) :
    (b.add q buf = b ∧ q.sendBufferSize ≤ wsub (wadd b.tail buf.length) b.head) ∨
      (b.add q buf = { b with tail := wadd b.tail buf.length, data := b.data ++ [buf] } ∧
        wsub (wadd b.tail buf.length) b.head < q.sendBufferSize) := by
  unfold add
  split
  · next h => exact .inl ⟨rfl, h⟩
  · next h => exact .inr ⟨rfl, Nat.lt_of_not_le h⟩

end SendBuffer

namespace Ostreamer

/-! ## The small steps of `imbue` -/

/-- One step of `imbue`: the streamer, and the sections written so far. -/
inductive Emits (q : Qos) (time : Time) :
    Ostreamer × List Section → Ostreamer × List Section → Prop where
  | again {o : Ostreamer} {l : List Section} {h : Nat} {f : Flight}
      (mem : (h, f) ∈ o.moves.entries) :
      Emits q time (o, l)
        ({ o with moves := o.moves.modify h (Flight.resent time) }, l ++ [.move h f.data])
  | giveUp {o : Ostreamer} {l : List Section} {h : Nat} {f : Flight}
      (mem : (h, f) ∈ o.moves.entries) (used : f.attempt = q.moveAttempts) :
      Emits q time (o, l)
        ({ o with
          moves := o.moves.modify h Flight.tried
          errors := o.errors ++ [.brokenPipe] }, l)
  | fresh {o : Ostreamer} {l : List Section} {max : Nat} (queued : o.buffer.data ≠ [])
      (pos : 0 < max) (window : max ≤ wsub o.range o.buffer.head) :
      Emits q time (o, l) (o.launch max time, l ++ [o.snippet max])
  | echo {o : Ostreamer} {l : List Section} {echoes : List Section} {acks : SortedSet Nat}
      (owed : ∀ s ∈ echoes, ∃ v ∈ o.acks.keys, s = .edgeEcho v)
      (left : ∀ v ∈ acks.keys, v ∈ o.acks.keys) :
      Emits q time (o, l) ({ o with acks := acks }, l ++ echoes)

open Relation (ReflTransGen)

private theorem repeatLoop_emits (q : Qos) (now : Time) (resend : Int) :
    ∀ (fuel room : Nat) (o : Ostreamer) (l : List Section),
      ReflTransGen (Emits q (later now resend)) (o, l)
        ((o.repeatLoop q now resend fuel room).1, l ++ (o.repeatLoop q now resend fuel room).2.1)
  | 0, room, o, l => by
    rw [repeatLoop, List.append_nil]
  | fuel + 1, room, o, l => by
    unfold repeatLoop
    split
    · rw [List.append_nil]
    · split
      · rw [List.append_nil]
      · next h f hfind =>
        have hmem := List.mem_of_find?_eq_some hfind
        split
        · next hused =>
          rw [List.append_nil]
          exact .single (.giveUp hmem hused)
        · have hrest := repeatLoop_emits q now resend fuel (room - (Section.move h f.data).size)
            { o with moves := o.moves.modify h (Flight.resent (later now resend)) }
            (l ++ [.move h f.data])
          rw [List.append_assoc, List.singleton_append] at hrest
          exact .head (.again hmem) hrest

private theorem freshLoop_emits (q : Qos) (now : Time) (resend : Int) :
    ∀ (fuel room : Nat) (o : Ostreamer) (l : List Section),
      ReflTransGen (Emits q (later now resend)) (o, l)
        ((o.freshLoop q now resend fuel room).1, l ++ (o.freshLoop q now resend fuel room).2.1)
  | 0, room, o, l => by
    rw [freshLoop, List.append_nil]
  | fuel + 1, room, o, l => by
    unfold freshLoop
    split
    · next hc =>
      dsimp only
      split
      · rw [List.append_nil]
      · next hroom =>
        have hne : o.buffer.data ≠ [] := by
          have := hc.1
          simp only [SendBuffer.available, Bool.not_eq_true', List.isEmpty_eq_false_iff] at this
          exact this
        have hrest := freshLoop_emits q now resend fuel
          (room - (o.snippet (min (wsub o.range o.buffer.head) (room - overhead))).size)
          (o.launch (min (wsub o.range o.buffer.head) (room - overhead)) (later now resend))
          (l ++ [o.snippet (min (wsub o.range o.buffer.head) (room - overhead))])
        rw [List.append_assoc, List.singleton_append] at hrest
        exact .head (.fresh hne (by omega) (Nat.min_le_left _ _)) hrest
    · rw [List.append_nil]

/-- `imbue` is a sequence of small steps. -/
theorem imbue_emits (q : Qos) (now : Time) (resend : Int) (room : Nat) (o : Ostreamer) :
    ReflTransGen (Emits q (later now resend)) (o, [])
      ((o.imbue q now resend room).1, (o.imbue q now resend room).2.1) := by
  have hagain := repeatLoop_emits q now resend room room o []
  rw [List.nil_append] at hagain
  unfold imbue
  rcases hr : o.repeatLoop q now resend room room with ⟨o₁, again, room₁, gaveUp⟩
  rw [hr] at hagain
  dsimp only at hagain ⊢
  split
  · exact hagain
  · have hfresh := freshLoop_emits q now resend (room₁ + 1) room₁ o₁ again
    rcases hf : o₁.freshLoop q now resend (room₁ + 1) room₁ with ⟨o₂, fresh, room₂⟩
    rw [hf] at hfresh
    dsimp only at hfresh ⊢
    exact (hagain.trans hfresh).trans
      (.single (.echo (fun s hs => drainAcks_mem hs) (fun v hv => drainAcks_keys hv)))

/-- What every small step keeps, `imbue` keeps. -/
theorem imbue_induct (q : Qos) (now : Time) (resend : Int) {P : Ostreamer → List Section → Prop}
    (step : ∀ o l o' l', Emits q (later now resend) (o, l) (o', l') → P o l → P o' l')
    (room : Nat) {o : Ostreamer} (ho : P o []) :
    P (o.imbue q now resend room).1 (o.imbue q now resend room).2.1 := by
  have hall : ∀ x y : Ostreamer × List Section, ReflTransGen (Emits q (later now resend)) x y →
      P x.1 x.2 → P y.1 y.2 := by
    intro x y hxy hx
    induction hxy with
    | refl => exact hx
    | tail _ hm ih => exact step _ _ _ _ hm ih
  exact hall _ _ (imbue_emits q now resend room o) ho

/-- Nothing is due. -/
theorem repeatLoop_idle (q : Qos) (now : Time) (resend : Int) (fuel room : Nat) {o : Ostreamer}
    (h : ∀ e ∈ o.moves.entries, ready now room e = false) :
    o.repeatLoop q now resend fuel room = (o, [], room, false) := by
  have hnone : o.moves.entries.find? (ready now room) = none :=
    List.find?_eq_none.mpr fun e he => by simp [h e he]
  cases fuel with
  | zero => rfl
  | succ n =>
    rw [repeatLoop, hnone]
    split <;> rfl

/-! ## Parsing and appending -/

/-- What an acknowledgement and an edge keep, `parse` keeps. -/
theorem parse_induct {p : Packet} {P : Ostreamer → Prop}
    (acknowledge : ∀ o h, .moveEcho h ∈ p.body → P o → P (o.acknowledge p.pin h))
    (widen : ∀ o v, .edge v ∈ p.body → P o → P (o.widen p.pin v))
    {o : Ostreamer} (ho : P o) : P (o.parse p) := by
  unfold parse
  generalize hb : p.body = body at acknowledge widen
  clear hb
  induction body generalizing o with
  | nil => exact ho
  | cons s rest ih =>
    rw [List.foldl_cons]
    refine ih ?_ (fun o h hm => acknowledge o h (List.mem_cons_of_mem _ hm))
      (fun o v hm => widen o v (List.mem_cons_of_mem _ hm))
    cases s with
    | moveEcho h => exact acknowledge o h List.mem_cons_self ho
    | edge v => exact widen o v List.mem_cons_self ho
    | _ => exact ho

/-- The posted writers are the front of the queue: each ends at or before the cursor, and the
queue that is left begins with one that does not. -/
theorem complete_eq (cursor : Nat) (l : List Writer) :
    l = (complete cursor l).1 ++ (complete cursor l).2 ∧
      ∀ w ∈ (complete cursor l).1, wadd w.head w.size ≤ cursor := by
  induction l with
  | nil => exact ⟨rfl, fun w hw => absurd hw List.not_mem_nil⟩
  | cons w rest ih =>
    unfold complete
    split
    · next hle =>
      refine ⟨by rw [List.cons_append, ← ih.1], fun x hx => ?_⟩
      rcases List.mem_cons.mp hx with rfl | hx
      · exact hle
      · exact ih.2 x hx
    · exact ⟨rfl, fun x hx => absurd hx List.not_mem_nil⟩

/-- A write leaves what is in flight and the window as they are. -/
theorem append_keeps (q : Qos) (o : Ostreamer) (buf : Bytes) (h : Handler) :
    (o.append q buf h).moves = o.moves ∧ (o.append q buf h).pulled = o.pulled ∧
      (o.append q buf h).range = o.range := by
  unfold append
  dsimp only
  split <;> exact ⟨rfl, rfl, rfl⟩

/-- What `append` can do: leave the queue alone or, for an empty buffer, put an empty entry into
it, and refuse the write; or queue the buffer and its writer. -/
theorem append_cases {q : Qos} {o : Ostreamer} {buf : Bytes} (h : Handler)
    (hlt : buf.length < 2 ^ 64) (htail : o.buffer.tail < 2 ^ 64) :
    (∃ data errors refused, (data = o.buffer.data ∨ (buf = [] ∧ data = o.buffer.data ++ [[]])) ∧
      o.append q buf h = { o with
        buffer := { o.buffer with data := data }, errors := errors, refused := refused }) ∨
    (buf ≠ [] ∧ wsub (wadd o.buffer.tail buf.length) o.buffer.head < q.sendBufferSize ∧
      o.append q buf h = { o with
        buffer := { o.buffer with
          tail := wadd o.buffer.tail buf.length, data := o.buffer.data ++ [buf] }
        writers := o.writers ++ [⟨o.buffer.tail, buf.length, h⟩]
        accepted := o.accepted ++ [(buf, h)] }) := by
  unfold append
  rcases o.buffer.add_cases q buf with ⟨hadd, _⟩ | ⟨hadd, hroom⟩
  · rw [hadd, if_pos rfl]
    exact .inl ⟨o.buffer.data, _, _, .inl rfl, rfl⟩
  · rw [hadd]
    by_cases hnil : buf = []
    · subst hnil
      have htl : wadd o.buffer.tail ([] : Bytes).length = o.buffer.tail := by
        simpa using wadd_of_lt (b := 0) htail
      simp only [htl, if_true]
      exact .inl ⟨o.buffer.data ++ [[]], _, _, .inr ⟨trivial, rfl⟩, rfl⟩
    · have hpos : 0 < buf.length := List.length_pos_iff.mpr hnil
      have hne : wadd o.buffer.tail buf.length ≠ o.buffer.tail := by
        unfold wadd
        omega
      rw [if_neg hne]
      exact .inr ⟨hnil, hroom, rfl⟩

end Ostreamer

end Tubus.Udp
