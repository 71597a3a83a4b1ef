import Mathlib.Algebra.BigOperators.Group.List.Basic
import Tubus.Laws.Istreamer

/-!
# The loops of `transmit` come to their end

`transmit` is two nested loops. A turn of the inner one uses an entry of the map up, or cuts it and
so fills the reader; the rest of a cut entry goes back into the map, or is dropped where its key is
taken. So neither the bytes nor the entries grow fewer in each turn, but the readers, the entries
and the readers still to be filled taken together do (`variant`). `Istreamer.transmit` is where the
loops come to their end (`transmit_ends`).
-/

namespace Tubus.Udp

open Lib

namespace Istreamer

variable {i i' i₀ : Istreamer}

/-! ## What a turn makes smaller -/

/-- Is the first reader still to be filled? -/
def unfilled (i : Istreamer) : Nat :=
  match i.readers with
  | [] => 0
  | r :: _ => if r.read < r.buffer.length then 1 else 0

/-- What is left to do: a reader counts more than what it takes to complete it. -/
def weight (i : Istreamer) : Nat := 4 * i.readers.length + i.buffer.data.size + i.unfilled

/-- The variant of the loops. A test that holds has the turns before the next one ahead of it. -/
def variant : Stand × Istreamer → Nat
  | (.outer, i) => i.weight + if i.buffer.available then 3 else 0
  | (.inner, i) => i.weight + 2
  | (.after, i) => i.weight + 1

theorem unfilled_le (i : Istreamer) : i.unfilled ≤ 1 := by
  unfold unfilled
  split
  · exact Nat.zero_le 1
  · split
    · exact Nat.le_refl 1
    · exact Nat.zero_le 1

/-- A copy uses an entry up or fills the reader. -/
theorem weight_copy {r r' : Reader} {rest : List Reader} {data : Bytes} {b : ReceiveBuffer}
    (first : i.readers = r :: rest) (hr : r.Measured) (avail : i.buffer.available = true)
    (short : r.read < r.buffer.length)
    (pulled : i.buffer.pull (r.buffer.length - r.read) = some (data, b))
    (filled : r.fill data = some r') :
    weight { i with readers := r' :: rest, buffer := b } < i.weight := by
  have hlen := ReceiveBuffer.pull_length avail pulled
  obtain ⟨-, -, hsize, hread⟩ := hr.fill (by omega) filled
  have hunfilled : i.unfilled = 1 := by
    unfold unfilled
    rw [first]
    exact if_pos short
  have hle := unfilled_le { i with readers := r' :: rest, buffer := b }
  unfold weight
  rw [first, hunfilled]
  obtain ⟨top, htop, ⟨-, -, rfl⟩ | ⟨hcut, rfl, rfl⟩⟩ := ReceiveBuffer.pull_cases avail pulled
  · have herase := SortedMap.size_eraseFirst htop
    simp only [List.length_cons]
    omega
  · have herase := SortedMap.size_eraseFirst htop
    have hemplace := SortedMap.size_emplace_le i.buffer.data.eraseFirst
      (wadd i.buffer.head (r.buffer.length - r.read)) (top.drop (r.buffer.length - r.read))
    have hfull : unfilled { i with readers := r' :: rest, buffer := { i.buffer with
        head := wadd i.buffer.head (r.buffer.length - r.read)
        data := i.buffer.data.eraseFirst.emplace
          (wadd i.buffer.head (r.buffer.length - r.read))
          (top.drop (r.buffer.length - r.read)) } } = 0 := by
      rw [List.length_take] at hread
      exact if_neg (by omega)
    rw [hfull]
    simp only [List.length_cons]
    omega

/-! ## What the turns keep -/

/-- The same read, however much of it has been filled. -/
structure Same (r r' : Reader) : Prop where
  callback : r'.callback = r.callback
  size : r'.buffer.length = r.buffer.length

/-- The post of a read that is complete. -/
structure Answers (r : Reader) (o : Readout) : Prop where
  callback : o.callback = r.callback
  ec : o.ec = .success
  size : o.size = r.buffer.length

/-- The sum of the sizes of readers. -/
def bytes (readers : List Reader) : Nat := (readers.map fun r => r.buffer.length).sum

/-- A word after it grew by a number. -/
def Grown (a n b : Nat) : Prop := b % 2 ^ 64 = (a + n) % 2 ^ 64 ∧ (a + n < 2 ^ 64 → b = a + n)

theorem Grown.moved {a n read : Nat} {edge : EdgeJob} (h : Grown a n edge.range) :
    Grown a (n + read) (edge.moved read).range := by
  obtain ⟨hword, hexact⟩ := h
  unfold EdgeJob.moved
  split
  · refine ⟨?_, fun hlt => ?_⟩
    · show wadd edge.range read % 2 ^ 64 = _
      rw [wadd, Nat.mod_mod, ← Nat.mod_add_mod, hword, Nat.mod_add_mod, Nat.add_assoc]
    · show wadd edge.range read = _
      rw [hexact (by omega), wadd_of_lt (by omega), Nat.add_assoc]
  · next hzero =>
    have hread : read = 0 := by omega
    rw [hread, Nat.add_zero]
    exact ⟨hword, hexact⟩

/-- From one state to another, the readers in front were completed and posted, the window grew by
their sizes, and the other readers are still there. -/
def Serves (i₀ i : Istreamer) : Prop :=
  ∃ completed left posts, i₀.readers = completed ++ left ∧ List.Forall₂ Same left i.readers ∧
    i.readouts = i₀.readouts ++ posts ∧ List.Forall₂ Answers completed posts ∧
    Grown i₀.edge.range (bytes completed) i.edge.range

theorem Serves.refl (i : Istreamer) : Serves i i := by
  refine ⟨[], i.readers, [], rfl, ?_, (List.append_nil _).symm, .nil, rfl, fun _ => rfl⟩
  exact List.forall₂_same.mpr fun _ _ => ⟨rfl, rfl⟩

theorem Serves.moves (h : Serves i₀ i) (hr : ∀ r ∈ i.readers, r.Measured) (hmoves : Moves i i') :
    Serves i₀ i' := by
  obtain ⟨completed, left, posts, hreaders, hleft, hposts, hcompleted, hgrown⟩ := h
  cases hmoves with
  | @copy r r' rest data b first avail short pulled filled =>
    rw [first] at hr hleft
    have hlen := ReceiveBuffer.pull_length avail pulled
    obtain ⟨-, hcallback, hsize, -⟩ := (hr r List.mem_cons_self).fill (by omega) filled
    obtain ⟨l, ls, hsame, hrest, rfl⟩ := List.forall₂_cons_right_iff.mp hleft
    have hsame' : Same l r' := ⟨hcallback.trans hsame.callback, hsize.trans hsame.size⟩
    exact ⟨completed, l :: ls, posts, hreaders, .cons hsame' hrest, hposts, hcompleted, hgrown⟩
  | @complete r rest first full =>
    rw [first] at hleft
    obtain ⟨l, ls, hsame, hrest, rfl⟩ := List.forall₂_cons_right_iff.mp hleft
    have hread : r.read = l.buffer.length := full.symm.trans hsame.size
    have hanswers : Answers l (r.posted .success) := ⟨hsame.callback, rfl, hread⟩
    refine ⟨completed ++ [l], ls, posts ++ [r.posted .success], ?_, hrest, ?_, ?_, ?_⟩
    · rw [hreaders, List.append_assoc, List.singleton_append]
    · show i.readouts ++ [r.posted .success] = _
      rw [hposts, List.append_assoc]
    · exact List.rel_append hcompleted (.cons hanswers .nil)
    · have hbytes : bytes (completed ++ [l]) = bytes completed + r.read := by
        rw [hread, bytes, List.map_append, List.sum_append]
        rfl
      rw [hbytes]
      exact hgrown.moved

theorem measured_moves (hr : ∀ r ∈ i.readers, r.Measured) (hmoves : Moves i i') :
    ∀ r ∈ i'.readers, r.Measured := by
  cases hmoves with
  | @copy r r' rest data b first avail short pulled filled =>
    rw [first] at hr
    have hlen := ReceiveBuffer.pull_length avail pulled
    have hfilled := (hr r List.mem_cons_self).fill (by omega) filled
    exact List.forall_mem_cons.mpr ⟨hfilled.1, fun s hs => hr s (List.mem_cons_of_mem _ hs)⟩
  | complete first full =>
    rw [first] at hr
    exact fun s hs => hr s (List.mem_cons_of_mem _ hs)

/-! ## The turns -/

/-- What holds where the control stands: within the outer loop there is a reader, and behind the
inner one it is full or nothing is available. -/
def Stands : Stand × Istreamer → Prop
  | (.outer, _) => True
  | (.inner, i) => i.readers ≠ []
  | (.after, i) => ∃ r rest, i.readers = r :: rest ∧
      (i.buffer.available = true → r.buffer.length ≤ r.read)

/-- The invariant of the loops. -/
structure Turning (i₀ : Istreamer) (w : Stand × Istreamer) : Prop where
  stands : Stands w
  measured : ∀ r ∈ w.2.readers, r.Measured
  serves : Serves i₀ w.2

/-- A turn of the inner loop. -/
theorem turn_copy {r : Reader} {rest : List Reader} (first : i.readers = r :: rest)
    (hr : r.Measured) (avail : i.buffer.available = true) (short : r.read < r.buffer.length) :
    ∃ i', turn (.inner, i) = .next (.inner, i') ∧ Moves i i' ∧ i'.weight < i.weight ∧
      i'.readers ≠ [] := by
  obtain ⟨⟨data, b⟩, hpull⟩ := i.buffer.pull_isSome (r.buffer.length - r.read)
  have hlen := ReceiveBuffer.pull_length avail hpull
  have hroom : r.read + data.length ≤ r.buffer.length := by omega
  have hfill := Reader.fill_eq hroom
  refine ⟨_, ?_, .copy first avail short hpull hfill,
    weight_copy first hr avail short hpull hfill, List.cons_ne_nil _ _⟩
  simp only [turn, first, hpull, hfill, avail, short, and_self, if_true]

/-- A turn behind the inner loop, when the reader is full. -/
theorem turn_complete {r : Reader} {rest : List Reader} (first : i.readers = r :: rest)
    (full : r.buffer.length = r.read) :
    ∃ i', turn (.after, i) = .next (.outer, i') ∧ Moves i i' ∧ i'.weight + 3 ≤ i.weight := by
  refine ⟨_, ?_, .complete first full, ?_⟩
  · simp only [turn, first, full, if_true]
  · have hle := unfilled_le { i with
      readers := rest
      readouts := i.readouts ++ [r.posted .success]
      edge := i.edge.moved r.read }
    unfold weight
    rw [first, List.length_cons]
    dsimp only
    omega

/-- A turn ends the loops with no reader or nothing available, or it keeps the invariant and makes
the variant smaller. -/
theorem Turning.turn {w : Stand × Istreamer} (h : Turning i₀ w) :
    (∃ i, turn w = .exit i ∧ Serves i₀ i ∧ (i.readers = [] ∨ i.buffer.available = false)) ∨
      ∃ w', turn w = .next w' ∧ Turning i₀ w' ∧ variant w' < variant w := by
  obtain ⟨stand, i⟩ := w
  obtain ⟨hstands, hmeasured, hserves⟩ := h
  cases stand with
  | outer =>
    cases hav : i.buffer.available with
    | false =>
      refine .inl ⟨i, ?_, hserves, .inr hav⟩
      simp only [Istreamer.turn, hav, Bool.false_eq_true, if_false]
    | true =>
      cases first : i.readers with
      | nil =>
        refine .inl ⟨i, ?_, hserves, .inl first⟩
        simp only [Istreamer.turn, hav, first, if_true]
      | cons r rest =>
        refine .inr ⟨(.inner, i), ?_, ⟨?_, hmeasured, hserves⟩, ?_⟩
        · simp only [Istreamer.turn, hav, first, if_true]
        · show i.readers ≠ []
          rw [first]
          exact List.cons_ne_nil _ _
        · show i.weight + 2 < i.weight + if i.buffer.available then 3 else 0
          rw [if_pos hav]
          omega
  | inner =>
    obtain ⟨r, rest, first⟩ := List.exists_cons_of_ne_nil hstands
    have hr := hmeasured r (first ▸ List.mem_cons_self)
    by_cases hgo : i.buffer.available = true ∧ r.read < r.buffer.length
    · obtain ⟨i', hturn, hmoves, hlt, hne⟩ := turn_copy first hr hgo.1 hgo.2
      refine .inr ⟨_, hturn, ⟨hne, measured_moves hmeasured hmoves,
        hserves.moves hmeasured hmoves⟩, ?_⟩
      exact Nat.add_lt_add_right hlt 2
    · refine .inr ⟨(.after, i), ?_, ⟨⟨r, rest, first, fun hav => ?_⟩, hmeasured, hserves⟩, ?_⟩
      · simp only [Istreamer.turn, first, if_neg hgo]
      · by_contra hlt
        exact hgo ⟨hav, by omega⟩
      · exact Nat.lt_succ_self _
  | after =>
    obtain ⟨r, rest, first, hfull⟩ := hstands
    have hle := (hmeasured r (first ▸ List.mem_cons_self)).read_le
    by_cases full : r.buffer.length = r.read
    · obtain ⟨i', hturn, hmoves, hlt⟩ := turn_complete first full
      refine .inr ⟨_, hturn, ⟨trivial, measured_moves hmeasured hmoves,
        hserves.moves hmeasured hmoves⟩, ?_⟩
      show i'.weight + (if i'.buffer.available then 3 else 0) < i.weight + 1
      split <;> omega
    · -- the reader waits, so nothing is available and the outer loop ends next
      have hnone : i.buffer.available = false := by
        by_contra hav
        have := hfull (by simpa using hav)
        omega
      refine .inr ⟨(.outer, i), ?_, ⟨trivial, hmeasured, hserves⟩, ?_⟩
      · simp only [Istreamer.turn, first, if_neg full]
      · show i.weight + (if i.buffer.available then 3 else 0) < i.weight + 1
        rw [hnone]
        exact Nat.lt_succ_self _

/-! ## Where the loops end -/

private theorem fillLoop_passes (i : Istreamer) (rest : List Reader) (fuel : Nat)
    {b b' : ReceiveBuffer} {r r' : Reader} (h : fillLoop fuel b r = some (b', r')) :
    Turn.Passes turn (.inner, { i with readers := r :: rest, buffer := b })
      (.inner, { i with readers := r' :: rest, buffer := b' }) := by
  induction fuel generalizing b r with
  | zero =>
    cases h
    exact .here
  | succ fuel ih =>
    unfold fillLoop at h
    split at h
    · next hgo =>
      obtain ⟨⟨data, b₁⟩, hpull, h⟩ := Option.bind_eq_some_iff.mp h
      obtain ⟨r₁, hfill, h⟩ := Option.bind_eq_some_iff.mp h
      refine .next ?_ (ih h)
      simp only [turn, if_pos hgo, hpull, hfill]
    · cases h
      exact .here

/-- The loops over some readers end where the function on lists of readers does. -/
private theorem transmitLoop_ends (i : Istreamer) (readers : List Reader) {b b' : ReceiveBuffer}
    {e e' : EdgeJob} (readouts : List Readout) {done : List Readout} {left : List Reader}
    (hr : ∀ r ∈ readers, r.Measured)
    (h : transmitLoop readers b e = some (done, left, b', e')) :
    ∃ k, Turn.Ends turn
      (.outer, { i with readouts := readouts, readers := readers, buffer := b, edge := e }) k
      { i with readouts := readouts ++ done, readers := left, buffer := b', edge := e' } := by
  induction readers generalizing b e readouts done with
  | nil =>
    cases h
    refine ⟨1, .exit ?_⟩
    simp only [turn, ite_self, List.append_nil]
  | cons r rest ih =>
    unfold transmitLoop at h
    split at h
    · next hav =>
      obtain ⟨⟨b₁, r₁⟩, hfill, h⟩ := Option.bind_eq_some_iff.mp h
      obtain ⟨hmeasured, hdone⟩ := fillLoop_done _ (Nat.le_refl _) (hr r List.mem_cons_self) hfill
      let j : Istreamer := { i with readouts := readouts, edge := e }
      have hinner : Turn.Passes turn (.outer, { j with readers := r :: rest, buffer := b })
          (.inner, { j with readers := r₁ :: rest, buffer := b₁ }) := by
        refine .next ?_ (fillLoop_passes j rest _ hfill)
        simp only [turn, hav, if_true]
      have hafter : Turn.Passes turn (.outer, { j with readers := r :: rest, buffer := b })
          (.after, { j with readers := r₁ :: rest, buffer := b₁ }) := by
        refine hinner.tail ?_
        have hstop : ¬ (b₁.available = true ∧ r₁.read < r₁.buffer.length) := by
          rintro ⟨hav₁, hlt⟩
          have := hdone hav₁
          omega
        simp only [turn, if_neg hstop]
      dsimp only at h
      split at h
      · next hfull =>
        obtain ⟨⟨done₁, left₁, b₂, e₂⟩, hrest, h⟩ := Option.bind_eq_some_iff.mp h
        cases h
        obtain ⟨k, hk⟩ := ih (readouts ++ [r₁.posted .success])
          (fun s hs => hr s (List.mem_cons_of_mem _ hs)) hrest
        rw [List.append_assoc, List.singleton_append] at hk
        refine (hafter.tail ?_).ends hk
        simp only [turn, if_pos hfull, j]
      · next hshort =>
        have hle := hmeasured.read_le
        have hnone : b₁.available = false := by
          by_contra hav₁
          have := hdone (by simpa using hav₁)
          omega
        have hout : turn (.after, { j with readers := r₁ :: rest, buffer := b₁ }) =
            .next (.outer, { j with readers := r₁ :: rest, buffer := b₁ }) := by
          simp only [turn, if_neg hshort]
        cases h
        rw [List.append_nil]
        refine (hafter.tail hout).ends (.exit ?_)
        simp only [turn, hnone, Bool.false_eq_true, if_false, j]
    · next hav =>
      cases h
      refine ⟨1, .exit ?_⟩
      simp only [turn, if_neg hav, List.append_nil]

/-- For every map and every list of readers that are not overfull, the loops of `transmit` come to
their end without a throw, and this is where `transmit` says. No reader is overfull on the way. At
the end there is no reader or nothing is available; the readers in front were completed and posted,
and the window grew by the sum of their sizes. -/
theorem transmit_ends (i : Istreamer) (hr : ∀ r ∈ i.readers, r.Measured) :
    ∃ k i', Turn.Ends turn (.outer, i) k i' ∧
      k ≤ 4 * i.readers.length + i.buffer.data.size + 5 ∧
      i.transmit = some i' ∧
      (∀ w, Turn.Passes turn (.outer, i) w → ∀ r ∈ w.2.readers, r.read ≤ r.buffer.length) ∧
      (i'.readers = [] ∨ i'.buffer.available = false) ∧
      ∃ completed left posts, i.readers = completed ++ left ∧ List.Forall₂ Same left i'.readers ∧
        i'.readouts = i.readouts ++ posts ∧ List.Forall₂ Answers completed posts ∧
        i'.edge.range % 2 ^ 64 = (i.edge.range + bytes completed) % 2 ^ 64 ∧
        (i.edge.range + bytes completed < 2 ^ 64 →
          i'.edge.range = i.edge.range + bytes completed) := by
  have hstart : Turning i (.outer, i) := ⟨trivial, hr, .refl i⟩
  obtain ⟨k, i', hle, hends, hserves, hdone⟩ :=
    Turn.ends_of_variant variant (fun _ h => h.turn) hstart
  obtain ⟨i'', htransmit⟩ := transmit_isSome hr
  have hsame : i'' = i' := by
    obtain ⟨⟨done, left, b, e⟩, hloop, h⟩ := Option.bind_eq_some_iff.mp htransmit
    cases h
    obtain ⟨k', hends'⟩ := transmitLoop_ends i i.readers i.readouts hr hloop
    exact (hends'.unique hends).2
  subst hsame
  refine ⟨k, i'', hends, ?_, htransmit, ?_, hdone, hserves⟩
  · have hweight := unfilled_le i
    have hvariant : variant (.outer, i) ≤ i.weight + 3 := by
      show i.weight + (if i.buffer.available then 3 else 0) ≤ _
      split <;> omega
    unfold weight at hvariant
    omega
  · intro w hpasses r hmem
    have hturning : Turning i w := by
      refine Turn.Passes.invariant ?_ hpasses hstart
      intro s s' hs hnext
      obtain ⟨_, hexit, -⟩ | ⟨s'', hnext', hs', -⟩ := hs.turn
      · rw [hnext] at hexit
        cases hexit
      · rw [hnext] at hnext'
        cases hnext'
        exact hs'
    exact (hturning.measured r hmem).read_le

/-- Three bytes at the head, of which the third one is there a second time, and reads of two, none
and two bytes. -/
def collided : Istreamer :=
  { create .default with
    buffer := ⟨0, 3, (SortedMap.empty.emplace 0 [1, 2, 3]).emplace 2 [9]⟩
    readers := [.create [0, 0] 1, .create [] 2, .create [0, 0] 3] }

/-- The rest of the cut entry is dropped, two reads are completed, and the third one waits. -/
theorem transmit_ends_collided :
    ∃ k i', Turn.Ends turn (.outer, collided) k i' ∧ i'.buffer.available = false ∧
      i'.readers.map Reader.copied = [[9]] ∧ i'.edge.range = 5 * 1024 * 1024 + 2 := by
  have hr : ∀ r ∈ collided.readers, r.Measured := by
    intro r hr
    have hsize : r.read = 0 ∧ r.buffer.length < 2 ^ 64 := by
      revert r
      decide
    exact ⟨hsize.1 ▸ Nat.zero_le _, hsize.2⟩
  obtain ⟨k, i', hends, -, htransmit, -, hdone, -⟩ := transmit_ends collided hr
  have hrun : collided.transmit.map (fun i => (i.readers.map Reader.copied, i.edge.range)) =
      some ([[9]], 5 * 1024 * 1024 + 2) := by decide +kernel
  rw [htransmit] at hrun
  obtain ⟨hreaders, hrange⟩ := Prod.mk.inj (Option.some.inj hrun)
  refine ⟨k, i', hends, ?_, hreaders, hrange⟩
  obtain hnil | hnone := hdone
  · rw [hnil] at hreaders
    cases hreaders
  · exact hnone

end Istreamer

end Tubus.Udp
