import Tubus.Laws.Istreamer
import Tubus.Laws.Ostreamer
import Tubus.Lib.Reassembly
import Tubus.Udp.Flow

/-!
# The sink of a flow

The receiving half, judged against the snippets the sending half has cut so far: `pieces`. While
it is live, its map reassembles them, and the bytes copied into readers are the stream up to
`head`. After an abort the map is gone, but what was copied stays a front of the stream.

The window follows the completed reads and nothing else, modulo a word: `edge.range` is the
receive buffer's size plus the sizes of the reads posted with success.
-/

namespace Tubus.Udp

open Lib

namespace Istreamer

/-- The fragments that were put in. -/
def got (i : Istreamer) : List (Nat × Bytes) := i.stored.map Prod.snd

/-- All bytes copied into readers, in the order of the copies. -/
def history (i : Istreamer) : Bytes :=
  (i.readouts.map Readout.copied).flatten ++ (i.readers.map Reader.copied).flatten

/-- The bytes of the reads posted with success. -/
def completed (i : Istreamer) : Nat :=
  ((i.readouts.filter fun r => decide (r.ec = .success)).map Readout.size).sum

/-- The bytes in the map. -/
def buffered (i : Istreamer) : Nat := (i.buffer.data.entries.map fun e => e.2.length).sum

end Istreamer

/-- What a live receiving half knows of the stream. -/
structure SinkLive (pieces : List (Nat × Bytes)) (i : Istreamer) : Prop where
  assembly : Reassembles pieces i.got i.buffer.head i.buffer.data
  ends : ∀ k d, (k, d) ∈ i.buffer.data.entries → k + d.length ≤ i.buffer.tail
  head_le : i.buffer.head ≤ i.buffer.tail
  taken : i.history = (joined pieces).take i.buffer.head
  success : ∀ r ∈ i.readouts, r.ec = .success

/-- The account a receiving half keeps; `live` while it was not aborted. -/
structure SinkInv (q : Qos) (pieces : List (Nat × Bytes)) (i : Istreamer) (live : Bool) : Prop where
  readers : ∀ r ∈ i.readers, r.Sound
  waiting : ∀ r ∈ i.readers.tail, r.copied = []
  readouts : ∀ r ∈ i.readouts, r.size = r.copied.length ∧ r.buffer.take r.size = r.copied
  got : ∀ e ∈ i.got, e ∈ pieces
  history : i.history <+: joined pieces
  edge : i.edge.range = (q.receiveBufferSize + i.completed) % 2 ^ 64
  acks : (∀ e ∈ pieces, e.2 ≠ []) → ∀ v ∈ i.acks.keys, v ∈ i.got.map Prod.fst
  live : live = true → SinkLive pieces i

namespace SinkInv

variable {q : Qos} {pieces : List (Nat × Bytes)} {i i' : Istreamer} {live : Bool}

theorem create : SinkInv q [] (.create q) true where
  readers r hr := by cases hr
  waiting r hr := by cases hr
  readouts r hr := by cases hr
  got e he := by cases he
  history := List.prefix_refl _
  edge := (Nat.mod_eq_of_lt q.receiveBufferSize_lt).symm
  acks _ v hv := by cases hv
  live _ := {
    assembly := .nothing
    ends := fun k d hm => (by cases hm)
    head_le := Nat.le_refl _
    taken := rfl
    success := fun r hr => (by cases hr) }

theorem init (s : SinkInv q pieces i live) : SinkInv q pieces i.init live :=
  { s with live := fun h => { s.live h with } }

/-- The account while more is cut off the stream. -/
theorem grow (s : SinkInv q pieces i live) {pieces' : List (Nat × Bytes)}
    (hpre : pieces <+: pieces') (ht : Tiles 0 pieces') : SinkInv q pieces' i live := by
  have hjoin : joined pieces <+: joined pieces' := by
    obtain ⟨more, rfl⟩ := hpre
    rw [joined_append]
    exact List.prefix_append _ _
  refine { s with
    got := fun e he => hpre.subset (s.got e he)
    history := s.history.trans hjoin
    acks := fun hne => s.acks fun e he => hne e (hpre.subset he)
    live := fun h => ?_ }
  have l := s.live h
  refine { l with assembly := l.assembly.grow hpre ht, taken := ?_ }
  obtain ⟨more, hmore⟩ := hjoin
  rw [l.taken, ← hmore, List.take_append_of_le_length l.assembly.head_le]

/-- The readers behind the first one hold nothing yet. -/
theorem copied_waiting (s : SinkInv q pieces i live) :
    (i.readers.tail.map Reader.copied).flatten = [] := by
  rw [List.flatten_eq_nil_iff]
  intro c hc
  obtain ⟨x, hx, rfl⟩ := List.mem_map.mp hc
  exact s.waiting x hx

/-- The bytes in the read buffers are the bytes that were copied. -/
theorem delivered_eq (s : SinkInv q pieces i live) : i.delivered = i.history := by
  have houts : (i.readouts.map fun r => r.buffer.take r.size) = i.readouts.map Readout.copied :=
    List.map_congr_left fun r hr => (s.readouts r hr).2
  unfold Istreamer.delivered Istreamer.history
  rw [houts]
  congr 1
  have hsound := s.readers
  have hrest := s.copied_waiting
  cases hr : i.readers with
  | nil => rfl
  | cons r rest =>
    rw [hr] at hsound hrest
    rw [List.tail_cons] at hrest
    simp only [List.head?_cons, Option.map_some, Option.getD_some, List.map_cons,
      List.flatten_cons, hrest, List.append_nil]
    exact (hsound r List.mem_cons_self).front

/-- No more was completed than was copied. -/
theorem completed_le (s : SinkInv q pieces i live) : i.completed ≤ i.history.length := by
  have hle : ∀ l : List Readout, (∀ r ∈ l, r.size = r.copied.length) →
      ((l.filter fun r => decide (r.ec = .success)).map Readout.size).sum
        ≤ (l.map Readout.copied).flatten.length := by
    intro l
    induction l with
    | nil => simp
    | cons r rest ih =>
      intro h
      have hr := h r List.mem_cons_self
      have := ih fun x hx => h x (List.mem_cons_of_mem _ hx)
      simp only [List.filter_cons, List.map_cons, List.flatten_cons, List.length_append]
      split
      · simp only [List.map_cons, List.sum_cons]
        omega
      · omega
  have := hle i.readouts fun r hr => (s.readouts r hr).1
  rw [Istreamer.history, List.length_append]
  exact Nat.le_trans this (Nat.le_add_right _ _)

/-- A live receiving half has copied exactly the bytes below its head. -/
theorem length_history (s : SinkInv q pieces i true) : i.history.length = i.buffer.head := by
  have l := s.live rfl
  rw [l.taken, List.length_take, Nat.min_eq_left l.assembly.head_le]

/-! ## Steps -/

/-- A pull takes the next bytes of the stream, and leaves the rest of the map in place. -/
theorem pull (hlt : (joined pieces).length < 2 ^ 64) (l : SinkLive pieces i) {max : Nat}
    {data : Bytes} {b : ReceiveBuffer} (avail : i.buffer.available = true)
    (pulled : i.buffer.pull max = some (data, b)) :
    Reassembles pieces i.got b.head b.data ∧
      (∀ k d, (k, d) ∈ b.data.entries → k + d.length ≤ b.tail) ∧ b.head ≤ b.tail ∧
      i.history ++ data = (joined pieces).take b.head := by
  obtain ⟨top, htop, hcase⟩ := ReceiveBuffer.pull_cases avail pulled
  have hmem := SortedMap.first?_mem htop
  obtain ⟨hpre, hend⟩ := l.assembly.prefix_drop hmem
  have htail := l.ends _ _ hmem
  -- the fragment is taken whole, or its front is and the rest goes back
  rcases hcase with ⟨hle, rfl, rfl⟩ | ⟨hgt, rfl, rfl⟩
  · have hw : wadd i.buffer.head data.length = i.buffer.head + data.length :=
      wadd_of_lt (by omega)
    simp only [hw]
    refine ⟨l.assembly.takeWhole htop, ?_, htail, ?_⟩
    · intro k d hm
      exact l.ends k d (SortedMap.mem_eraseFirst hm)
    · rw [l.taken]
      exact take_append_of_prefix_drop hpre
  · have hw : wadd i.buffer.head max = i.buffer.head + max := wadd_of_lt (by omega)
    have htake : (top.take max).length = max := by
      rw [List.length_take]
      omega
    simp only [hw]
    refine ⟨l.assembly.takePart htop hgt, ?_, by omega, ?_⟩
    · intro k d hm
      rcases SortedMap.mem_emplace.mp hm with hm | ⟨heq, _⟩
      · exact l.ends k d (SortedMap.mem_eraseFirst hm)
      · cases heq
        rw [List.length_drop]
        omega
    · have hfront := take_append_of_prefix_drop ((List.take_prefix max top).trans hpre)
      rwa [htake, ← l.taken] at hfront

/-- The account after a copy into the first reader. -/
theorem copy (hlt : (joined pieces).length < 2 ^ 64) (s : SinkInv q pieces i true) {r r' : Reader}
    {rest : List Reader} {data : Bytes} {b : ReceiveBuffer} (first : i.readers = r :: rest)
    (avail : i.buffer.available = true) (short : r.read < r.buffer.length)
    (pulled : i.buffer.pull (r.buffer.length - r.read) = some (data, b))
    (filled : r.fill data = some r') :
    SinkInv q pieces { i with readers := r' :: rest, buffer := b } true := by
  have l := s.live rfl
  have hr : r.Sound := s.readers r (by rw [first]; exact List.mem_cons_self)
  have hlen := ReceiveBuffer.pull_length avail pulled
  obtain ⟨hr', _, _, _, hcopied⟩ := hr.fill (by omega) filled
  obtain ⟨hasm, hends, hhead, htaken⟩ := pull hlt l avail pulled
  have hhist : Istreamer.history { i with readers := r' :: rest, buffer := b }
      = i.history ++ data := by
    have hrest := s.copied_waiting
    rw [first, List.tail_cons] at hrest
    simp only [Istreamer.history, first, List.map_cons, List.flatten_cons, hrest,
      List.append_nil, hcopied, List.append_assoc]
  refine { s with
    readers := ?_, waiting := ?_, history := ?_
    live := fun _ => ⟨hasm, hends, hhead, hhist.trans htaken, l.success⟩ }
  · intro x hx
    rcases List.mem_cons.mp hx with rfl | hx
    · exact hr'
    · exact s.readers x (by rw [first]; exact List.mem_cons_of_mem _ hx)
  · intro x hx
    exact s.waiting x (by rw [first]; exact hx)
  · rw [hhist, htaken]
    exact List.take_prefix _ _

/-- The account after the first reader is full and posted. -/
theorem complete (s : SinkInv q pieces i true) {r : Reader} {rest : List Reader}
    (first : i.readers = r :: rest) :
    SinkInv q pieces { i with
      readers := rest
      readouts := i.readouts ++ [r.posted .success]
      edge := i.edge.moved r.read } true := by
  have l := s.live rfl
  have hr : r.Sound := s.readers r (by rw [first]; exact List.mem_cons_self)
  have hhist : Istreamer.history { i with
      readers := rest
      readouts := i.readouts ++ [r.posted .success]
      edge := i.edge.moved r.read } = i.history := by
    simp [Istreamer.history, first, Reader.posted]
  have hdone : Istreamer.completed { i with
      readers := rest
      readouts := i.readouts ++ [r.posted .success]
      edge := i.edge.moved r.read } = i.completed + r.read := by
    simp [Istreamer.completed, Reader.posted, List.filter_append]
  refine { s with
    readers := ?_, waiting := ?_, readouts := ?_, history := ?_, edge := ?_
    live := fun _ => { l with taken := ?_, success := ?_ } }
  · intro x hx
    exact s.readers x (by rw [first]; exact List.mem_cons_of_mem _ hx)
  · intro x hx
    exact s.waiting x (by rw [first]; exact List.mem_of_mem_tail hx)
  · intro x hx
    rcases List.mem_append.mp hx with hx | hx
    · exact s.readouts x hx
    · rw [List.mem_singleton.mp hx]
      exact ⟨hr.read_eq, hr.front⟩
  · rw [hhist]
    exact s.history
  · rw [hdone]
    show (i.edge.moved r.read).range = _
    have he := s.edge
    unfold EdgeJob.moved
    split
    · show wadd i.edge.range r.read = _
      rw [he, wadd]
      omega
    · rw [he]
      congr 1
      omega
  · rw [hhist]
    exact l.taken
  · intro x hx
    rcases List.mem_append.mp hx with hx | hx
    · exact l.success x hx
    · rw [List.mem_singleton.mp hx]
      rfl

/-- The account after one step of `transmit`. -/
theorem moves (hlt : (joined pieces).length < 2 ^ 64) (h : Istreamer.Moves i i')
    (s : SinkInv q pieces i true) : SinkInv q pieces i' true := by
  cases h with
  | copy first avail short pulled filled => exact s.copy hlt first avail short pulled filled
  | complete first _ => exact s.complete first

/-- The account after a `move` section that carries a snippet of the stream. -/
theorem store (hlt : (joined pieces).length < 2 ^ 64) (s : SinkInv q pieces i true) (pin : Nat)
    {h : Nat} {d : Bytes} (hm : (h, d) ∈ pieces) :
    SinkInv q pieces (i.store q pin h d).1 true := by
  have l := s.live rfl
  have acked : ∀ got : List (Nat × Bytes), i.got <+: got →
      ((∀ e ∈ pieces, e.2 ≠ []) → h ∈ got.map Prod.fst) → (∀ e ∈ pieces, e.2 ≠ []) →
      ∀ v ∈ (i.acks.emplace h ()).keys, v ∈ got.map Prod.fst := by
    intro got hgot hh hne v hv
    rcases SortedMap.mem_keys_emplace.mp hv with hv | rfl
    · exact (hgot.map Prod.fst).subset (s.acks hne v hv)
    · exact hh hne
  rcases i.store_cases q pin h d with ⟨heq, _⟩ | ⟨heq, hno⟩ | ⟨hyes, k, x, hlast, heq⟩
  · rw [heq]
    exact { s with live := fun _ => { l with } }
  · rw [heq]
    refine { s with acks := acked i.got (List.prefix_refl _) ?_, live := fun _ => { l with } }
    intro hne
    have hknown : h < i.buffer.head ∨ h ∈ i.buffer.data.keys := by
      by_contra hcon
      rw [not_or, Nat.not_lt] at hcon
      rw [ReceiveBuffer.inserts_iff.mpr hcon] at hno
      cases hno
    exact List.mem_map.mpr ⟨(h, d),
      l.assembly.got_of_known hm (hne _ hm) (fun e he => hne e (s.got e he)) hknown, rfl⟩
  · obtain ⟨hle, hnew⟩ := ReceiveBuffer.inserts_iff.mp hyes
    have hasm := l.assembly.insert hm hle hnew
    have hgot : Istreamer.got (i.store q pin h d).1 = i.got ++ [(h, d)] := by
      rw [heq]
      simp [Istreamer.got]
    have hkx := SortedMap.last?_mem hlast
    have hw : wadd k x.length = k + x.length :=
      wadd_of_lt (Nat.lt_of_le_of_lt (hasm.prefix_drop hkx).2 hlt)
    rw [heq] at hgot ⊢
    refine { s with
      got := ?_
      acks := ?_
      live := fun _ => ⟨?_, ?_, ?_, l.taken, l.success⟩ }
    · rw [hgot]
      exact hasm.got_mem
    · rw [hgot]
      exact acked _ (List.prefix_append _ _) fun _ => by simp
    · rw [hgot]
      exact hasm
    · intro k' d' hm'
      show k' + d'.length ≤ wadd k x.length
      rw [hw]
      rcases Nat.lt_or_eq_of_le (SortedMap.le_last? hlast hm') with hlt' | heq'
      · have := hasm.end_le hm' hkx hlt'
        omega
      · change k' = k at heq'
        subst heq'
        rw [SortedMap.eq_of_mem hm' hkx]
    · show i.buffer.head ≤ wadd k x.length
      rw [hw]
      have := hasm.low k x hkx
      omega

/-- A snippet that ends within the window is never refused. -/
theorem not_refused (hlt : (joined pieces).length < 2 ^ 64) (s : SinkInv q pieces i true)
    (hroom : (joined pieces).length ≤ i.buffer.head + q.receiveBufferSize) {h : Nat} {d : Bytes}
    (hm : (h, d) ∈ pieces) :
    ¬ (i.buffer.tail ≤ h ∧ q.receiveBufferSize < wsub (wadd h d.length) i.buffer.head) := by
  rintro ⟨htail, hover⟩
  have l := s.live rfl
  have hle := l.head_le
  obtain ⟨-, hend, -⟩ := l.assembly.tiles.prefix_drop hm
  rw [wadd_of_lt (by omega), wsub_of_le (by omega) (by omega)] at hover
  omega

theorem settle (s : SinkInv q pieces i live) (v : Nat) : SinkInv q pieces (i.settle v) live := by
  unfold Istreamer.settle
  split
  · exact { s with live := fun h => { s.live h with } }
  · exact s

/-- The account after a packet whose snippets are snippets of the stream. -/
theorem parse (hlt : (joined pieces).length < 2 ^ 64) (s : SinkInv q pieces i true) {p : Packet}
    (hp : ∀ h d, .move h d ∈ p.body → (h, d) ∈ pieces) (h : i.parse q p = some i') :
    SinkInv q pieces i' true :=
  Istreamer.parse_induct (P := fun i => SinkInv q pieces i true)
    (fun _ _ _ hm s => s.store hlt p.pin (hp _ _ hm))
    (fun _ v _ s => s.settle v)
    (fun _ _ hmoves s => s.moves hlt hmoves) h s

/-- The account after a read call. -/
theorem append (hlt : (joined pieces).length < 2 ^ 64) (s : SinkInv q pieces i true)
    {buffer : Bytes} {callback : Handler} (hb : buffer.length < 2 ^ 64)
    (h : i.append buffer callback = some i') :
    SinkInv q pieces i' true := by
  refine Istreamer.transmit_induct (P := fun i => SinkInv q pieces i true)
    (fun _ _ hmoves s => s.moves hlt hmoves) h ?_
  have l := s.live rfl
  have hhist : Istreamer.history { i with
      readers := i.readers ++ [.create buffer callback]
      asked := i.asked ++ [(buffer.length, callback)] } = i.history := by
    simp [Istreamer.history, Reader.create]
  refine { s with
    readers := ?_, waiting := ?_, history := ?_, live := fun _ => { l with taken := ?_ } }
  · intro r hr
    rcases List.mem_append.mp hr with hr | hr
    · exact s.readers r hr
    · rw [List.mem_singleton.mp hr]
      exact .create callback hb
  · intro r hr
    cases hcase : i.readers with
    | nil =>
      rw [hcase] at hr
      cases hr
    | cons r₀ rest =>
      have hwait := s.waiting
      rw [hcase] at hr hwait
      rcases List.mem_append.mp hr with hr | hr
      · exact hwait r hr
      · rw [List.mem_singleton.mp hr]
        rfl
  · rw [hhist]
    exact s.history
  · rw [hhist]
    exact l.taken

/-- The account after a round of `imbue`, and what the round wrote. -/
theorem imbue (s : SinkInv q pieces i live) (now : Time) (resend : Int) (room : Nat) :
    let r := i.imbue now resend room
    SinkInv q pieces r.1 live ∧ r.1.stored = i.stored ∧ r.1.readouts = i.readouts ∧
      r.1.edge.range = i.edge.range ∧
      ∀ x ∈ r.2, (∃ v ∈ i.acks.keys, x = .moveEcho v) ∨ x = .edge i.edge.range := by
  obtain ⟨acks, time, heq, hacks, -⟩ := i.imbue_cases now resend room
  dsimp only
  rw [heq]
  refine ⟨?_, rfl, rfl, rfl, i.imbue_sections now resend room⟩
  exact { s with
    acks := fun hne v hv => s.acks hne v (hacks v hv)
    live := fun h => { s.live h with } }

/-- The account after the streams were dropped. -/
theorem error (s : SinkInv q pieces i live) {ec : Ec} (hec : ec ≠ .success) :
    SinkInv q pieces (i.error ec) false := by
  have hhist : (i.error ec).history = i.history := by
    simp [Istreamer.history, Istreamer.error, Function.comp_def, Reader.posted]
  have hdone : (i.error ec).completed = i.completed := by
    simp [Istreamer.completed, Istreamer.error, Reader.posted, List.filter_append,
      List.filter_map, Function.comp_def, hec]
  refine { s with
    readers := fun r hr => by cases hr
    waiting := fun r hr => by cases hr
    readouts := ?_
    history := by rw [hhist]; exact s.history
    edge := by rw [hdone]; exact s.edge
    acks := fun _ v hv => by cases hv
    live := fun h => absurd h (by decide) }
  intro r hr
  rcases List.mem_append.mp hr with hr | hr
  · exact s.readouts r hr
  · obtain ⟨x, hx, rfl⟩ := List.mem_map.mp hr
    have hsound := s.readers x hx
    exact ⟨hsound.read_eq, hsound.front⟩

end SinkInv

end Tubus.Udp
