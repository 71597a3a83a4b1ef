import Tubus.Laws.Transport

/-!
# What is readable

`readable` walks the chain of entries from the head on, while `transmit` pulls them one by one and
puts the rest of a cut entry back. A reader gets the shorter of what it lacks and what the chain
holds (`fillLoop_read`): an entry is cut only for a reader that it completes, so what becomes of its
rest does not matter to that reader. And no reader waits while something is available. So the walk
tells exactly which reads are completed at once (`readable_exact`).
-/

namespace Tubus.Udp

open Lib

namespace ReceiveBuffer

variable {b b' : ReceiveBuffer}

/-- Nothing in the buffer reaches the end of the numbers. -/
structure Bounded (b : ReceiveBuffer) : Prop where
  head_lt : b.head < 2 ^ 64
  end_lt : ∀ e ∈ b.data.entries, e.1 + e.2.length < 2 ^ 64

theorem Bounded.fresh : Bounded fresh := ⟨by decide, fun _ he => absurd he List.not_mem_nil⟩

theorem Bounded.clear (b : ReceiveBuffer) : Bounded b.clear :=
  ⟨Nat.two_pow_pos 64, fun _ he => absurd he List.not_mem_nil⟩

/-- The end of the entry at the head. -/
theorem Bounded.top_lt (h : b.Bounded) {top : Bytes} (htop : b.data.first? = some (b.head, top)) :
    b.head + top.length < 2 ^ 64 :=
  h.end_lt _ (SortedMap.first?_mem htop)

theorem Bounded.pull (h : b.Bounded) (hav : b.available = true) {max : Nat} {data : Bytes}
    (hpull : b.pull max = some (data, b')) : b'.Bounded := by
  obtain ⟨top, htop, ⟨-, -, rfl⟩ | ⟨hgt, -, rfl⟩⟩ := pull_cases hav hpull
  · exact ⟨wadd_lt _ _, fun e he => h.end_lt e (SortedMap.mem_eraseFirst he)⟩
  · refine ⟨wadd_lt _ _, fun e he => ?_⟩
    obtain he | ⟨rfl, -⟩ := SortedMap.mem_emplace.mp he
    · exact h.end_lt e (SortedMap.mem_eraseFirst he)
    · have hend := h.top_lt htop
      have hle := wadd_le b.head max
      rw [List.length_drop]
      omega

/-- The chain does not run backwards, and it does not wrap. -/
theorem le_chain (entries : List (Nat × Bytes)) (cursor : Nat)
    (hlt : ∀ e ∈ entries, e.1 + e.2.length < 2 ^ 64) :
    cursor ≤ chain cursor entries ∧ (cursor < 2 ^ 64 → chain cursor entries < 2 ^ 64) := by
  induction entries generalizing cursor with
  | nil => exact ⟨Nat.le_refl _, id⟩
  | cons e rest ih =>
    obtain ⟨k, d⟩ := e
    unfold chain
    split
    · next hk =>
      have hend : k + d.length < 2 ^ 64 := hlt (k, d) List.mem_cons_self
      have hw : wadd cursor d.length = cursor + d.length := wadd_of_lt (by omega)
      have hrest := ih (wadd cursor d.length) fun e he => hlt e (List.mem_cons_of_mem _ he)
      rw [hw] at hrest ⊢
      omega
    · exact ⟨Nat.le_refl _, id⟩

/-- The bytes of the chain. -/
theorem Bounded.readableBytes_eq (h : b.Bounded) :
    b.readableBytes = chain b.head b.data.entries - b.head := by
  obtain ⟨hle, hlt⟩ := le_chain b.data.entries b.head h.end_lt
  exact wsub_of_le hle (hlt h.head_lt)

/-- The chain begins with the entry at the head. -/
theorem Bounded.readableBytes_cons (h : b.Bounded) {top : Bytes}
    (htop : b.data.first? = some (b.head, top)) :
    b.readableBytes = top.length +
      (chain (b.head + top.length) b.data.eraseFirst.entries - (b.head + top.length)) := by
  have hentries : b.data.entries = (b.head, top) :: b.data.eraseFirst.entries := by
    obtain ⟨rest, hrest⟩ := List.head?_eq_some_iff.mp htop
    rw [hrest]
    simp [SortedMap.eraseFirst, hrest]
  have hw : wadd b.head top.length = b.head + top.length := wadd_of_lt (h.top_lt htop)
  have hle := (le_chain b.data.eraseFirst.entries (b.head + top.length) fun e he =>
    h.end_lt e (SortedMap.mem_eraseFirst he)).1
  rw [h.readableBytes_eq, hentries, chain, if_pos rfl, hw]
  omega

/-- Nothing is readable when nothing is available. -/
theorem Bounded.readableBytes_none (h : b.Bounded) (hav : ¬ b.available = true) :
    b.readableBytes = 0 := by
  rw [h.readableBytes_eq]
  cases hentries : b.data.entries with
  | nil => exact Nat.sub_self _
  | cons e rest =>
    obtain ⟨k, d⟩ := e
    have hk : k ≠ b.head := by
      rintro rfl
      apply hav
      apply available_iff.mpr
      exact ⟨d, by rw [SortedMap.first?, hentries]; rfl⟩
    rw [chain, if_neg hk]
    exact Nat.sub_self _

end ReceiveBuffer

namespace Istreamer

/-! ## One reader -/

/-- A reader gets the shorter of what it lacks and what the chain holds. -/
theorem fillLoop_read (fuel : Nat) {b b' : ReceiveBuffer} {r r' : Reader}
    (hb : b.Bounded) (hfuel : b.data.size ≤ fuel) (hr : r.Sound)
    (h : fillLoop fuel b r = some (b', r')) :
    r'.callback = r.callback ∧ r'.buffer.length = r.buffer.length ∧
      r'.read = r.read + min (r.buffer.length - r.read) b.readableBytes := by
  induction fuel generalizing b r with
  | zero =>
    cases h
    have hav : ¬ b'.available = true := by
      intro hav
      obtain ⟨top, htop⟩ := ReceiveBuffer.available_iff.mp hav
      have hmem := SortedMap.first?_mem htop
      rw [List.length_eq_zero_iff.mp (Nat.le_zero.mp hfuel)] at hmem
      cases hmem
    rw [hb.readableBytes_none hav]
    exact ⟨rfl, rfl, by omega⟩
  | succ fuel ih =>
    unfold fillLoop at h
    split at h
    · next hc =>
      obtain ⟨⟨data, b₁⟩, hpull, hnext⟩ := Option.bind_eq_some_iff.mp h
      obtain ⟨r₁, hfill, hloop⟩ := Option.bind_eq_some_iff.mp hnext
      have hlen := ReceiveBuffer.pull_length hc.1 hpull
      have hb₁ := hb.pull hc.1 hpull
      obtain ⟨hr₁, hsize, hcallback, hread, _⟩ := hr.fill (by omega) hfill
      obtain ⟨top, htop, ⟨hle, rfl, rfl⟩ | ⟨hgt, rfl, rfl⟩⟩ :=
        ReceiveBuffer.pull_cases hc.1 hpull
      · -- the entry is used up, and the chain goes on behind it
        have hw : wadd b.head data.length = b.head + data.length := wadd_of_lt (hb.top_lt htop)
        have hfuel₁ : b.data.eraseFirst.size ≤ fuel := by
          have hsize := SortedMap.size_eraseFirst htop
          omega
        obtain ⟨hcallback', hsize', hread'⟩ := ih hb₁ hfuel₁ hr₁ hloop
        have hrest := hb₁.readableBytes_eq
        simp only [hw] at hrest
        rw [hb.readableBytes_cons htop, ← hrest, hread', hread, hsize]
        simp only [hw]
        exact ⟨hcallback'.trans hcallback, hsize'.trans hsize, by omega⟩
      · -- the entry is cut, and the reader is full
        rw [List.length_take] at hread
        have hfull : r₁.buffer.length ≤ r₁.read := by omega
        rw [fillLoop_full fuel _ hfull] at hloop
        cases hloop
        rw [hb.readableBytes_cons htop, hread]
        exact ⟨hcallback, hsize, by omega⟩
    · next hc =>
      cases h
      refine ⟨rfl, rfl, ?_⟩
      by_cases hav : b'.available = true
      · have hfull : ¬ r'.read < r'.buffer.length := fun hlt => hc ⟨hav, hlt⟩
        omega
      · rw [hb.readableBytes_none hav]
        omega

/-! ## The readers -/

/-- What a receiving half keeps between its operations. -/
structure Served (i : Istreamer) : Prop where
  bounded : i.buffer.Bounded
  readers : ∀ r ∈ i.readers, r.Sound ∧ r.Waits
  done : i.readers = [] ∨ i.buffer.available = false

theorem Served.create (q : Qos) : (create q).Served :=
  ⟨.fresh, fun _ hr => absurd hr List.not_mem_nil, .inl rfl⟩

theorem waits_create (buffer : Bytes) (k : Handler) : (Reader.create buffer k).Waits := by
  show 0 < buffer.length ∨ buffer.length = 0
  omega

/-- `transmit` serves its readers. -/
theorem Served.transmit {i i' : Istreamer} (hb : i.buffer.Bounded)
    (hr : ∀ r ∈ i.readers, r.Sound ∧ r.Waits) (h : i.transmit = some i') : i'.Served := by
  obtain ⟨hdone, hwaits⟩ := transmit_done (fun r hm => ⟨(hr r hm).1.measured, (hr r hm).2⟩) h
  have hkept : i'.buffer.Bounded ∧ ∀ r ∈ i'.readers, r.Sound := by
    refine transmit_induct (P := fun j => j.buffer.Bounded ∧ ∀ r ∈ j.readers, r.Sound) ?_ h
      ⟨hb, fun r hm => (hr r hm).1⟩
    rintro j j' hm ⟨hbj, hrj⟩
    cases hm with
    | copy first avail short pulled filled =>
      rw [first] at hrj
      have hlen := ReceiveBuffer.pull_length avail pulled
      obtain ⟨hsound, -⟩ := (hrj _ List.mem_cons_self).fill (by omega) filled
      refine ⟨hbj.pull avail pulled, fun x hx => ?_⟩
      obtain rfl | hx := List.mem_cons.mp hx
      · exact hsound
      · exact hrj x (List.mem_cons_of_mem _ hx)
    | complete first full =>
      rw [first] at hrj
      exact ⟨hbj, fun x hx => hrj x (List.mem_cons_of_mem _ hx)⟩
  exact ⟨hkept.1, fun r hm => ⟨hkept.2 r hm, hwaits r hm⟩, hdone⟩

/-- The fragments of a packet end below the last number. -/
def Ends (p : Packet) : Prop := ∀ h d, Section.move h d ∈ p.body → h + d.length < 2 ^ 64

/-- Every operation leaves the readers served. -/
theorem Served.op {q : Qos} {i i' : Istreamer} (s : i.Served) (h : Op q Ends i i') :
    i'.Served := by
  cases h with
  | init => exact ⟨s.bounded, s.readers, s.done⟩
  | append buffer k lt happend =>
    refine Served.transmit (i := { i with
      readers := i.readers ++ [.create buffer k]
      asked := i.asked ++ [(buffer.length, k)] }) s.bounded (fun r hr => ?_) happend
    obtain hr | hr := List.mem_append.mp hr
    · exact s.readers r hr
    · rw [List.mem_singleton.mp hr]
      exact ⟨.create k lt, waits_create buffer k⟩
  | parse p hfed hparse =>
    obtain ⟨i₁, hall, htransmit⟩ := Option.bind_eq_some_iff.mp hparse
    have hwalk : i₁.buffer.Bounded ∧ ∀ r ∈ i₁.readers, r.Sound ∧ r.Waits := by
      refine takeAll_induct (P := fun j => j.buffer.Bounded ∧ ∀ r ∈ j.readers, r.Sound ∧ r.Waits)
        ?_ ?_ hall ⟨s.bounded, s.readers⟩
      · rintro j hd d hm ⟨hb, hr⟩
        obtain ⟨heq, -⟩ | ⟨heq, -⟩ | ⟨-, _, _, -, heq⟩ := j.store_cases q p.pin hd d
        · exact heq ▸ ⟨hb, hr⟩
        · exact heq ▸ ⟨hb, hr⟩
        · rw [heq]
          refine ⟨⟨hb.head_lt, fun e he => ?_⟩, hr⟩
          obtain he | ⟨rfl, -⟩ := SortedMap.mem_emplace.mp he
          · exact hb.end_lt e he
          · exact hfed hd d hm
      · rintro j v - hj
        unfold settle
        split <;> exact hj
    exact .transmit hwalk.1 hwalk.2 htransmit
  | imbue now resend room =>
    obtain ⟨acks, time, heq, -⟩ := i.imbue_cases now resend room
    rw [heq]
    exact ⟨s.bounded, s.readers, s.done⟩
  | error ec fails => exact ⟨.clear _, fun r hr => absurd hr List.not_mem_nil, .inl rfl⟩

/-- Nothing is readable while a reader waits. -/
theorem Served.readable_eq {i : Istreamer} (s : i.Served) :
    i.readable = if i.readers = [] then i.buffer.readableBytes else 0 := by
  unfold readable
  by_cases hnone : i.readers = []
  · rw [if_pos hnone, hnone, unclaimed]
  · have hav := s.done.resolve_left hnone
    rw [if_neg hnone, s.bounded.readableBytes_none (by simp [hav])]
    cases i.readers with
    | nil => rfl
    | cons r rest => rfl

/-- A read that may be completed at once is, and any other one waits. -/
theorem Served.append {i i' : Istreamer} (s : i.Served) {buffer : Bytes} {k : Handler}
    (hlt : buffer.length < 2 ^ 64) (h : i.append buffer k = some i') :
    (0 < buffer.length → buffer.length ≤ i.readable →
      i'.readers = [] ∧ ∃ out : Readout, i'.readouts = i.readouts ++ [out] ∧ out.callback = k ∧
        out.ec = .success ∧ out.size = buffer.length) ∧
    (i.readable < buffer.length →
      i'.readouts = i.readouts ∧ ∃ r : Reader, i'.readers = i.readers ++ [r] ∧ r.callback = k ∧
        r.buffer.length = buffer.length ∧ r.read < buffer.length) := by
  rw [s.readable_eq]
  unfold Istreamer.append Istreamer.transmit at h
  obtain ⟨⟨done, left, b, e⟩, hloop, h⟩ := Option.bind_eq_some_iff.mp h
  cases h
  dsimp only at hloop ⊢
  by_cases hnone : i.readers = []
  · rw [if_pos hnone, hnone]
    rw [hnone, List.nil_append, transmitLoop] at hloop
    split at hloop
    · obtain ⟨⟨b₁, r₁⟩, hfill, hloop⟩ := Option.bind_eq_some_iff.mp hloop
      obtain ⟨hcallback, hsize, hread⟩ :=
        fillLoop_read _ s.bounded (Nat.le_refl _) (.create k hlt) hfill
      have hread : r₁.read = min buffer.length i.buffer.readableBytes := by
        rw [hread]
        exact Nat.zero_add _
      have hsize : r₁.buffer.length = buffer.length := hsize
      dsimp only at hloop
      split at hloop
      · next hfull =>
        cases hloop
        refine ⟨fun _ _ => ⟨rfl, _, rfl, hcallback, rfl, ?_⟩, fun hgt => ?_⟩
        · exact hfull.symm.trans hsize
        · omega
      · next hshort =>
        cases hloop
        refine ⟨fun _ hle => ?_, fun _ => ⟨List.append_nil _, r₁, rfl, hcallback, hsize, ?_⟩⟩
        · omega
        · omega
    · next hav =>
      cases hloop
      rw [s.bounded.readableBytes_none hav]
      refine ⟨fun hpos hle => ?_, fun hpos => ⟨List.append_nil _, _, rfl, rfl, rfl, hpos⟩⟩
      omega
  · have hav := s.done.resolve_left hnone
    rw [if_neg hnone]
    obtain ⟨first, rest, hfirst⟩ := List.exists_cons_of_ne_nil hnone
    rw [hfirst, List.cons_append, transmitLoop, if_neg (by simp [hav])] at hloop
    cases hloop
    refine ⟨fun hpos hle => ?_,
      fun hpos => ⟨List.append_nil _, .create buffer k, ?_, rfl, rfl, hpos⟩⟩
    · omega
    · rw [hfirst, List.cons_append]

end Istreamer

namespace Transport

/-- The fragments of a packet that is fed end below the last number. -/
def Ends (_ : Transport) (e : Event) : Prop := ∀ now p, e = .feed now p → Istreamer.Ends p

/-- `readable` is exact. No reader waits while something is available; a read of so many bytes at
most is completed by the call, and a longer one still waits after it. -/
theorem readable_exact {q : Qos} {t : Transport} (h : (system q).Reaches Ends t)
    (hlinked : t.connector.status = .linked) (buffer : Bytes) (k : Handler)
    (hlt : buffer.length < 2 ^ 64) :
    (t.istreamer.readers = [] ∨ t.istreamer.buffer.available = false) ∧
      ∃ t', t.read buffer k = some t' ∧
        (0 < buffer.length → buffer.length ≤ t.readable →
          t'.istreamer.readers = [] ∧
            ∃ out : Readout, t'.istreamer.readouts = t.istreamer.readouts ++ [out] ∧
              out.callback = k ∧ out.ec = .success ∧ out.size = buffer.length) ∧
        (t.readable < buffer.length →
          t'.istreamer.readouts = t.istreamer.readouts ∧
            ∃ r : Reader, t'.istreamer.readers = t.istreamer.readers ++ [r] ∧ r.callback = k ∧
              r.buffer.length = buffer.length ∧ r.read < buffer.length) := by
  have hserved : t.istreamer.Served := by
    refine (istreamer_invariant_fed (.create q) (fun _ _ hop s => s.op hop) ?_ h).2
    rintro t e p hends ⟨⟨now, rfl⟩, -⟩
    exact hends now p rfl
  obtain ⟨i', happend⟩ : ∃ i', t.istreamer.append buffer k = some i' := by
    apply Istreamer.transmit_isSome
    intro r hr
    obtain hr | hr := List.mem_append.mp hr
    · exact (hserved.readers r hr).1.measured
    · rw [List.mem_singleton.mp hr]
      exact (Reader.Sound.create k hlt).measured
  have hreadable : t.readable = t.istreamer.readable := if_pos hlinked
  refine ⟨hserved.done, { t with istreamer := i' }, ?_, ?_⟩
  · simp only [read, hlinked, happend, if_true, Option.bind_eq_bind, Option.bind_some,
      Option.pure_def]
  · rw [hreadable]
    exact hserved.append hlt happend

/-- Three fragments that overlap, of which two bytes are readable, and a read of two. -/
theorem readable_exact_two :
    ∃ t t', (system .default).Reaches Ends t ∧ t.readable = 2 ∧
      t.read [0, 0] 5 = some t' ∧ t'.istreamer.readers = [] := by
  have hrun : ((system .default).run (create .default)
      [.openAt, .connect 1 1 1 .success,
        .feed 2 ⟨2, [.linkEcho, .move 2 [3], .move 0 [1, 2], .move 1 [9]]⟩]).map (fun t =>
        (t.connector.status, t.readable)) = some (.linked, 2) := by decide +kernel
  obtain ⟨t, ht, hv⟩ := Option.map_eq_some_iff.mp hrun
  obtain ⟨hlinked, hreadable⟩ := Prod.mk.inj hv
  have hreach : (system .default).Reaches Ends t := by
    refine System.Reaches.run _ (.start rfl) (fun _ e he now p heq h d hm => ?_) ht
    subst heq
    simp only [List.mem_cons, reduceCtorEq, Event.feed.injEq, List.not_mem_nil, or_false,
      false_or] at he
    obtain ⟨-, rfl⟩ := he
    simp only [List.mem_cons, reduceCtorEq, Section.move.injEq, List.not_mem_nil, or_false,
      false_or] at hm
    obtain ⟨rfl, rfl⟩ | ⟨rfl, rfl⟩ | ⟨rfl, rfl⟩ := hm <;> decide
  obtain ⟨-, t', hread, hdone, -⟩ := readable_exact hreach hlinked [0, 0] 5 (by decide)
  refine ⟨t, t', hreach, hreadable, hread, (hdone (by decide) ?_).1⟩
  rw [hreadable]
  decide

end Transport

end Tubus.Udp
