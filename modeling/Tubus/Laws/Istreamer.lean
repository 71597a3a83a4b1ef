import Tubus.Laws.Ostreamer
import Tubus.Udp.Istreamer

/-!
# What the receiving half can do

The loops of `istreamer` as small steps. `transmit` is some sequence of two steps: copy a piece
of the first map entry into the first reader (`Moves.copy`), and post a reader that is full
(`Moves.complete`). `takeAll` is some sequence of stores and settled edges. Every invariant of a
receiving half is proved against these steps, once each, and `transmit_induct` and
`takeAll_induct` carry it over the loops. For `imbue` there is one lemma about what it leaves and
one about what it writes.

`transmit` also has to return. It throws only if a reader was filled past its end, and none is:
`transmit_isSome` needs no more of the readers than that they are not overfull already.
-/

namespace Tubus.Udp

open Lib

/-! ## The stream buffer -/

namespace ReceiveBuffer

variable {b b' : ReceiveBuffer} {data : Bytes} {max : Nat}

/-- Something is available exactly when the least key is the head. -/
theorem available_iff : b.available = true ↔ ∃ top, b.data.first? = some (b.head, top) := by
  unfold available
  cases hf : b.data.first? with
  | none => simp
  | some e =>
    obtain ⟨k, top⟩ := e
    simp only [decide_eq_true_eq, Option.some.injEq, Prod.mk.injEq]
    constructor
    · rintro rfl
      exact ⟨top, rfl, rfl⟩
    · rintro ⟨_, hk, _⟩
      exact hk

/-- What `pull` does when the first entry fits, and when it does not. -/
theorem pull_cases (hav : b.available = true) (h : b.pull max = some (data, b')) :
    ∃ top, b.data.first? = some (b.head, top) ∧
      ((top.length ≤ max ∧ data = top ∧
          b' = { b with head := wadd b.head top.length, data := b.data.eraseFirst }) ∨
        (max < top.length ∧ data = top.take max ∧
          b' = { b with
            head := wadd b.head max
            data := b.data.eraseFirst.emplace (wadd b.head max) (top.drop max) })) := by
  obtain ⟨top, htop⟩ := available_iff.mp hav
  refine ⟨top, htop, ?_⟩
  simp only [pull, hav, if_true, htop] at h
  by_cases hle : top.length ≤ max
  · rw [if_pos hle] at h
    cases h
    exact .inl ⟨hle, rfl, rfl⟩
  · rw [if_neg hle, Buffer.popFront, if_neg (by omega)] at h
    cases h
    exact .inr ⟨by omega, rfl, rfl⟩

/-- `pull` never throws. -/
theorem pull_isSome (b : ReceiveBuffer) (max : Nat) : ∃ r, b.pull max = some r := by
  unfold pull
  split
  · split
    · exact ⟨_, rfl⟩
    · split
      · exact ⟨_, rfl⟩
      · rw [Buffer.popFront, if_neg (by omega)]
        exact ⟨_, rfl⟩
  · exact ⟨_, rfl⟩

/-- `pull` gives at most what it was asked for. -/
theorem pull_length (hav : b.available = true) (h : b.pull max = some (data, b')) :
    data.length ≤ max := by
  obtain ⟨top, _, ⟨hle, rfl, _⟩ | ⟨_, rfl, _⟩⟩ := pull_cases hav h
  · exact hle
  · exact List.length_take_le _ _

/-- `map` refuses, or leaves the buffer as it is, or puts the fragment in and takes the tail
anew. -/
theorem map_cases (q : Qos) (b : ReceiveBuffer) (h : Nat) (d : Bytes) :
    (b.map q h d = (false, b) ∧ b.tail ≤ h ∧
        q.receiveBufferSize < wsub (wadd h d.length) b.head) ∨
      (b.map q h d = (true, b) ∧ b.inserts h = false) ∨
      (b.inserts h = true ∧ ∃ k x, (b.data.emplace h d).last? = some (k, x) ∧
        b.map q h d = (true, { b with data := b.data.emplace h d, tail := wadd k x.length })) := by
  unfold map
  split
  · next hr => exact .inl ⟨rfl, hr.1, hr.2⟩
  · right
    cases hi : b.inserts h with
    | false => exact .inl ⟨by simp, rfl⟩
    | true =>
      refine .inr ⟨rfl, ?_⟩
      cases hl : (b.data.emplace h d).last? with
      | none =>
        have hnil := SortedMap.last?_eq_none.mp hl
        have hmem : (h, d) ∈ (b.data.emplace h d).entries ∨ h ∈ b.data.keys := by
          by_cases hk : h ∈ b.data.keys
          · exact .inr hk
          · exact .inl (SortedMap.mem_emplace.mpr (.inr ⟨rfl, hk⟩))
        rcases hmem with hmem | hk
        · rw [hnil] at hmem
          cases hmem
        · obtain ⟨a, ha⟩ := SortedMap.mem_keys.mp hk
          have := SortedMap.mem_emplace (k := h) (a := d).mpr (.inl ha)
          rw [hnil] at this
          cases this
      | some e => exact ⟨e.1, e.2, rfl, by simp [hl]⟩

/-- `inserts` says that the handle is not below the head and not a key yet. -/
theorem inserts_iff {h : Nat} : b.inserts h = true ↔ b.head ≤ h ∧ h ∉ b.data.keys := by
  simp [inserts, SortedMap.contains]

end ReceiveBuffer

/-! ## Filling readers -/

namespace Reader

/-- A copy that fits. -/
theorem fill_eq {r : Reader} {data : Bytes} (h : r.read + data.length ≤ r.buffer.length) :
    r.fill data = some { r with
      buffer := Buffer.splice r.buffer r.read data
      read := wadd r.read data.length
      copied := r.copied ++ data } := by
  simp only [fill, Buffer.fill_of_le h, Option.bind_eq_bind, Option.bind_some, Option.pure_def]

/-- What a reader keeps to: it counts what was copied, the copied bytes are the front of its
buffer, and the buffer is one a `size_t` measures. -/
structure Sound (r : Reader) : Prop where
  read_eq : r.read = r.copied.length
  read_le : r.read ≤ r.buffer.length
  front : r.buffer.take r.read = r.copied
  size_lt : r.buffer.length < 2 ^ 64

theorem Sound.create {buffer : Bytes} (h : Handler) (hlt : buffer.length < 2 ^ 64) :
    (Reader.create buffer h).Sound :=
  ⟨rfl, Nat.zero_le _, rfl, hlt⟩

/-- A copy that fits keeps a reader sound and its buffer as long as it was. -/
theorem Sound.fill {r r' : Reader} {data : Bytes} (s : r.Sound)
    (hfit : r.read + data.length ≤ r.buffer.length) (h : r.fill data = some r') :
    r'.Sound ∧ r'.buffer.length = r.buffer.length ∧ r'.callback = r.callback ∧
      r'.read = r.read + data.length ∧ r'.copied = r.copied ++ data := by
  have hlt := s.size_lt
  have hw : wadd r.read data.length = r.read + data.length := wadd_of_lt (by omega)
  rw [fill_eq hfit, hw] at h
  cases h
  have hlen := Buffer.length_splice hfit
  refine ⟨⟨?_, ?_, ?_, ?_⟩, hlen, rfl, rfl, rfl⟩
  · rw [List.length_append, s.read_eq]
  · show r.read + data.length ≤ (Buffer.splice r.buffer r.read data).length
    rw [hlen]
    exact hfit
  · show (Buffer.splice r.buffer r.read data).take (r.read + data.length) = r.copied ++ data
    rw [Buffer.take_splice hfit, s.front]
  · show (Buffer.splice r.buffer r.read data).length < 2 ^ 64
    rw [hlen]
    exact hlt

/-- What a loop needs of a reader: it is not overfull, and its buffer is one a `size_t` measures. -/
structure Measured (r : Reader) : Prop where
  read_le : r.read ≤ r.buffer.length
  size_lt : r.buffer.length < 2 ^ 64

theorem Sound.measured {r : Reader} (s : r.Sound) : r.Measured := ⟨s.read_le, s.size_lt⟩

/-- A copy that fits, as seen from outside. -/
theorem Measured.fill {r r' : Reader} {data : Bytes} (h : r.Measured)
    (hfit : r.read + data.length ≤ r.buffer.length) (hfill : r.fill data = some r') :
    r'.Measured ∧ r'.callback = r.callback ∧ r'.buffer.length = r.buffer.length ∧
      r'.read = r.read + data.length := by
  have hlt := h.size_lt
  have hw : wadd r.read data.length = r.read + data.length := wadd_of_lt (by omega)
  have hlen := Buffer.length_splice hfit
  rw [fill_eq hfit, hw] at hfill
  cases hfill
  exact ⟨⟨hlen ▸ hfit, hlen ▸ hlt⟩, rfl, hlen, rfl⟩

/-- A reader that is not full, unless there was nothing to fill. -/
def Waits (r : Reader) : Prop := r.read < r.buffer.length ∨ r.buffer.length = 0

end Reader

namespace Istreamer

/-! ## The small steps of `transmit` -/

/-- One step of `transmit`. -/
inductive Moves : Istreamer → Istreamer → Prop where
  | copy {i : Istreamer} {r r' : Reader} {rest : List Reader} {data : Bytes}
      {b : ReceiveBuffer} (first : i.readers = r :: rest) (avail : i.buffer.available = true)
      (short : r.read < r.buffer.length)
      (pulled : i.buffer.pull (r.buffer.length - r.read) = some (data, b))
      (filled : r.fill data = some r') :
      Moves i { i with readers := r' :: rest, buffer := b }
  | complete {i : Istreamer} {r : Reader} {rest : List Reader} (first : i.readers = r :: rest)
      (full : r.buffer.length = r.read) :
      Moves i { i with
        readers := rest
        readouts := i.readouts ++ [r.posted .success]
        edge := i.edge.moved r.read }

open Relation (ReflTransGen)

private theorem fillLoop_moves (i : Istreamer) (rest : List Reader) :
    ∀ (fuel : Nat) (b : ReceiveBuffer) (r : Reader) {b' : ReceiveBuffer} {r' : Reader},
      fillLoop fuel b r = some (b', r') →
        ReflTransGen Moves { i with readers := r :: rest, buffer := b }
          { i with readers := r' :: rest, buffer := b' }
  | 0, b, r, b', r', h => by
    cases h
    exact .refl
  | fuel + 1, b, r, b', r', h => by
    unfold fillLoop at h
    split at h
    · next hc =>
      obtain ⟨⟨data, b₁⟩, hpull, h⟩ := Option.bind_eq_some_iff.mp h
      obtain ⟨r₁, hfill, h⟩ := Option.bind_eq_some_iff.mp h
      exact .head (.copy rfl hc.1 hc.2 hpull hfill) (fillLoop_moves i rest fuel b₁ r₁ h)
    · cases h
      exact .refl

private theorem transmitLoop_moves (i : Istreamer) :
    ∀ (readers : List Reader) (b : ReceiveBuffer) (e : EdgeJob) (readouts : List Readout)
      {done : List Readout} {left : List Reader} {b' : ReceiveBuffer} {e' : EdgeJob},
      transmitLoop readers b e = some (done, left, b', e') →
        ReflTransGen Moves
          { i with readouts := readouts, readers := readers, buffer := b, edge := e }
          { i with readouts := readouts ++ done, readers := left, buffer := b', edge := e' }
  | [], b, e, readouts, done, left, b', e', h => by
    cases h
    rw [List.append_nil]
  | r :: rest, b, e, readouts, done, left, b', e', h => by
    unfold transmitLoop at h
    split at h
    · obtain ⟨⟨b₁, r₁⟩, hfill, h⟩ := Option.bind_eq_some_iff.mp h
      have hmoves := fillLoop_moves { i with readouts := readouts, edge := e } rest _ b r hfill
      dsimp only at h hmoves
      split at h
      · next hfull =>
        obtain ⟨⟨done₁, left₁, b₂, e₂⟩, hrest, h⟩ := Option.bind_eq_some_iff.mp h
        cases h
        have hdone := transmitLoop_moves i rest b₁ (e.moved r₁.read)
          (readouts ++ [r₁.posted .success]) hrest
        rw [List.append_assoc, List.singleton_append] at hdone
        exact hmoves.trans (.head (.complete rfl hfull) hdone)
      · cases h
        rw [List.append_nil]
        exact hmoves
    · cases h
      rw [List.append_nil]

/-- `transmit` is a sequence of small steps. -/
theorem transmit_moves {i i' : Istreamer} (h : i.transmit = some i') :
    ReflTransGen Moves i i' := by
  obtain ⟨⟨done, left, b, e⟩, hloop, h⟩ := Option.bind_eq_some_iff.mp h
  cases h
  exact transmitLoop_moves i i.readers i.buffer i.edge i.readouts hloop

/-- What every small step keeps, `transmit` keeps. -/
theorem transmit_induct {P : Istreamer → Prop} (step : ∀ i i', Moves i i' → P i → P i')
    {i i' : Istreamer} (h : i.transmit = some i') (hi : P i) : P i' := by
  have hmoves := transmit_moves h
  clear h
  induction hmoves with
  | refl => exact hi
  | tail _ hm ih => exact step _ _ hm ih

/-! ## `transmit` returns -/

private theorem fillLoop_isSome : ∀ (fuel : Nat) (b : ReceiveBuffer) (r : Reader), r.Measured →
    ∃ b' r', fillLoop fuel b r = some (b', r')
  | 0, b, r, _ => ⟨b, r, rfl⟩
  | fuel + 1, b, r, hr => by
    unfold fillLoop
    split
    · next hc =>
      obtain ⟨⟨data, b₁⟩, hpull⟩ := b.pull_isSome (r.buffer.length - r.read)
      have hlen := ReceiveBuffer.pull_length hc.1 hpull
      have hfit : r.read + data.length ≤ r.buffer.length := by omega
      obtain ⟨hr₁, _⟩ := hr.fill hfit (Reader.fill_eq hfit)
      obtain ⟨b', r', h⟩ := fillLoop_isSome fuel b₁ _ hr₁
      refine ⟨b', r', ?_⟩
      simp only [hpull, Option.bind_eq_bind, Option.bind_some, Reader.fill_eq hfit]
      exact h
    · exact ⟨b, r, rfl⟩

private theorem transmitLoop_isSome : ∀ (readers : List Reader) (b : ReceiveBuffer) (e : EdgeJob),
    (∀ r ∈ readers, r.Measured) → ∃ x, transmitLoop readers b e = some x
  | [], b, e, _ => ⟨_, rfl⟩
  | r :: rest, b, e, hr => by
    unfold transmitLoop
    split
    · obtain ⟨b₁, r₁, hfill⟩ := fillLoop_isSome b.data.size b r (hr r List.mem_cons_self)
      simp only [hfill, Option.bind_eq_bind, Option.bind_some]
      split
      · obtain ⟨x, hx⟩ := transmitLoop_isSome rest b₁ (e.moved r₁.read)
          fun r' h' => hr r' (List.mem_cons_of_mem _ h')
        simp only [hx, Option.bind_some]
        exact ⟨_, rfl⟩
      · exact ⟨_, rfl⟩
    · exact ⟨_, rfl⟩

/-- `transmit` never throws on readers that are not overfull. -/
theorem transmit_isSome {i : Istreamer} (h : ∀ r ∈ i.readers, r.Measured) :
    ∃ i', i.transmit = some i' := by
  obtain ⟨x, hx⟩ := transmitLoop_isSome i.readers i.buffer i.edge h
  simp only [transmit, hx, Option.bind_eq_bind, Option.bind_some]
  exact ⟨_, rfl⟩

/-! ## After `transmit` -/

theorem fillLoop_full (fuel : Nat) (b : ReceiveBuffer) {r : Reader}
    (h : r.buffer.length ≤ r.read) : fillLoop fuel b r = some (b, r) := by
  cases fuel with
  | zero => rfl
  | succ fuel => rw [fillLoop, if_neg (by omega)]

/-- After the inner loop nothing is available, or the reader is full. -/
theorem fillLoop_done (fuel : Nat) {b b' : ReceiveBuffer} {r r' : Reader}
    (hfuel : b.data.size ≤ fuel) (hr : r.Measured) (h : fillLoop fuel b r = some (b', r')) :
    r'.Measured ∧ (b'.available = true → r'.buffer.length ≤ r'.read) := by
  induction fuel generalizing b r with
  | zero =>
    cases h
    refine ⟨hr, fun hav => ?_⟩
    obtain ⟨top, htop⟩ := ReceiveBuffer.available_iff.mp hav
    have hmem := SortedMap.first?_mem htop
    rw [List.length_eq_zero_iff.mp (Nat.le_zero.mp hfuel)] at hmem
    cases hmem
  | succ fuel ih =>
    unfold fillLoop at h
    split at h
    · next hc =>
      obtain ⟨⟨data, b₁⟩, hpull, hnext⟩ := Option.bind_eq_some_iff.mp h
      obtain ⟨r₁, hfill, hloop⟩ := Option.bind_eq_some_iff.mp hnext
      have hlen := ReceiveBuffer.pull_length hc.1 hpull
      obtain ⟨hr₁, _, hsize, hread⟩ := hr.fill (by omega) hfill
      obtain ⟨top, htop, ⟨_, _, rfl⟩ | ⟨hgt, rfl, rfl⟩⟩ := ReceiveBuffer.pull_cases hc.1 hpull
      · refine ih ?_ hr₁ hloop
        have := SortedMap.size_eraseFirst htop
        show b.data.eraseFirst.size ≤ fuel
        omega
      · rw [List.length_take] at hread
        have hfull : r₁.buffer.length ≤ r₁.read := by omega
        rw [fillLoop_full fuel _ hfull] at hloop
        cases hloop
        exact ⟨hr₁, fun _ => hfull⟩
    · next hc =>
      cases h
      refine ⟨hr, fun hav => ?_⟩
      by_contra hlt
      exact hc ⟨hav, by omega⟩

theorem transmitLoop_done (readers : List Reader) {b b' : ReceiveBuffer} {e e' : EdgeJob}
    {done : List Readout} {left : List Reader} (hr : ∀ r ∈ readers, r.Measured ∧ r.Waits)
    (h : transmitLoop readers b e = some (done, left, b', e')) :
    (left = [] ∨ b'.available = false) ∧ ∀ r ∈ left, r.Waits := by
  induction readers generalizing b e done with
  | nil =>
    cases h
    exact ⟨.inl rfl, fun r hr => absurd hr List.not_mem_nil⟩
  | cons r rest ih =>
    have hrest : ∀ x ∈ rest, x.Measured ∧ x.Waits := fun x hx =>
      hr x (List.mem_cons_of_mem _ hx)
    unfold transmitLoop at h
    split at h
    · obtain ⟨⟨b₁, r₁⟩, hfill, h⟩ := Option.bind_eq_some_iff.mp h
      obtain ⟨hmeasured, hdone⟩ := fillLoop_done _ (Nat.le_refl _) (hr r List.mem_cons_self).1 hfill
      dsimp only at h
      split at h
      · obtain ⟨⟨done₁, left₁, b₂, e₂⟩, hloop, h⟩ := Option.bind_eq_some_iff.mp h
        cases h
        exact ih hrest hloop
      · next hshort =>
        cases h
        have hle := hmeasured.read_le
        refine ⟨.inr ?_, fun x hx => ?_⟩
        · cases hav : b'.available with
          | false => rfl
          | true =>
            have := hdone hav
            omega
        · rcases List.mem_cons.mp hx with rfl | hx
          · exact .inl (by omega)
          · exact (hrest x hx).2
    · next hav =>
      cases h
      exact ⟨.inr (by simpa using hav), fun x hx => (hr x hx).2⟩

/-- `transmit` leaves no reader and data for it at once, and no reader that is full. -/
theorem transmit_done {i i' : Istreamer} (hr : ∀ r ∈ i.readers, r.Measured ∧ r.Waits)
    (h : i.transmit = some i') :
    (i'.readers = [] ∨ i'.buffer.available = false) ∧ ∀ r ∈ i'.readers, r.Waits := by
  obtain ⟨⟨done, left, b, e⟩, hloop, h⟩ := Option.bind_eq_some_iff.mp h
  cases h
  exact transmitLoop_done i.readers hr hloop

/-! ## The walk over a packet -/

/-- What a stored fragment and a settled edge keep, the walk keeps. -/
theorem takeAll_induct {q : Qos} {pin : Nat} {P : Istreamer → Prop} {body : List Section}
    (store : ∀ i h d, .move h d ∈ body → P i → P (i.store q pin h d).1)
    (settle : ∀ i v, .edgeEcho v ∈ body → P i → P (i.settle v))
    {i i' : Istreamer} (h : takeAll q pin i body = some i') (hi : P i) : P i' := by
  induction body generalizing i with
  | nil =>
    cases h
    exact hi
  | cons s rest ih =>
    obtain ⟨⟨i₁, more⟩, htake, h⟩ := Option.bind_eq_some_iff.mp h
    have hi₁ : P i₁ := by
      cases s with
      | move hd d =>
        have heq : (i.store q pin hd d).1 = i₁ := congrArg Prod.fst (Option.some.inj htake)
        exact heq ▸ store i hd d List.mem_cons_self hi
      | edgeEcho v =>
        have heq : i.settle v = i₁ := congrArg Prod.fst (Option.some.inj htake)
        exact heq ▸ settle i v List.mem_cons_self hi
      | runt _ => cases htake
      | _ =>
        cases htake
        exact hi
    dsimp only at h
    split at h
    · exact ih (fun i hd d hm => store i hd d (List.mem_cons_of_mem _ hm))
        (fun i v hm => settle i v (List.mem_cons_of_mem _ hm)) h hi₁
    · cases h
      exact hi₁

/-- What stores, settled edges and the steps of `transmit` keep, `parse` keeps. -/
theorem parse_induct {q : Qos} {p : Packet} {P : Istreamer → Prop}
    (store : ∀ i h d, .move h d ∈ p.body → P i → P (i.store q p.pin h d).1)
    (settle : ∀ i v, .edgeEcho v ∈ p.body → P i → P (i.settle v))
    (step : ∀ i i', Moves i i' → P i → P i')
    {i i' : Istreamer} (h : i.parse q p = some i') (hi : P i) : P i' := by
  obtain ⟨i₁, hall, h⟩ := Option.bind_eq_some_iff.mp h
  exact transmit_induct step h (takeAll_induct store settle hall hi)

/-- What `store` can do: refuse, acknowledge what it has, or put a new fragment in. -/
theorem store_cases (q : Qos) (pin : Nat) (i : Istreamer) (h : Nat) (d : Bytes) :
    ((i.store q pin h d).1 =
        { i with errors := if i.onError then i.errors ++ [.noBufferSpace] else i.errors } ∧
      i.buffer.tail ≤ h ∧ q.receiveBufferSize < wsub (wadd h d.length) i.buffer.head) ∨
    ((i.store q pin h d).1 = { i with acks := i.acks.emplace h () } ∧
      i.buffer.inserts h = false) ∨
    (i.buffer.inserts h = true ∧ ∃ k x, (i.buffer.data.emplace h d).last? = some (k, x) ∧
      (i.store q pin h d).1 =
        { i with
          buffer := { i.buffer with
            data := i.buffer.data.emplace h d
            tail := wadd k x.length }
          acks := i.acks.emplace h ()
          stored := i.stored ++ [(pin, h, d)] }) := by
  unfold store
  rcases i.buffer.map_cases q h d with ⟨hm, ht, hr⟩ | ⟨hm, hi⟩ | ⟨hi, k, x, hl, hm⟩
  · simp only [hm]
    exact .inl ⟨rfl, ht, hr⟩
  · simp only [hm, hi]
    exact .inr (.inl ⟨rfl, trivial⟩)
  · simp only [hm, hi]
    exact .inr (.inr ⟨trivial, k, x, hl, rfl⟩)

/-! ## A round -/

/-- `imbue` drops acknowledgements that were due, and may put the edge off. -/
theorem imbue_cases (now : Time) (resend : Int) (room : Nat) (i : Istreamer) :
    ∃ acks time, (i.imbue now resend room).1 =
        { i with acks := acks, edge := { i.edge with time := time } } ∧
      (∀ v ∈ acks.keys, v ∈ i.acks.keys) ∧ (time = i.edge.time ∨ time = later now resend) := by
  unfold imbue
  dsimp only
  split
  · exact ⟨_, _, rfl, fun v hv => drainAcks_keys hv, .inr rfl⟩
  · exact ⟨_, i.edge.time, rfl, fun v hv => drainAcks_keys hv, .inl rfl⟩

/-- It writes acknowledgements that were due, and the edge. -/
theorem imbue_sections (now : Time) (resend : Int) (room : Nat) (i : Istreamer) :
    ∀ x ∈ (i.imbue now resend room).2,
      (∃ v ∈ i.acks.keys, x = .moveEcho v) ∨ x = .edge i.edge.range := by
  intro x hx
  unfold imbue at hx
  dsimp only at hx
  split at hx
  · obtain hx | hx := List.mem_append.mp hx
    · exact .inl (drainAcks_mem hx)
    · exact .inr (List.mem_singleton.mp hx)
  · exact .inl (drainAcks_mem hx)

end Istreamer

end Tubus.Udp
