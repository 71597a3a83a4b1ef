import Tubus.Laws.Sink
import Tubus.Laws.Source

/-!
# What every run of a flow keeps

`Flow.Inv` joins the accounts of the two halves over everything that was ever written: a snippet
on its way is a piece of the stream, an acknowledgement names a fragment the sink has, and no
edge on its way, old or new, is past the receive buffer's size plus the completed reads.

The window closes the circle: the source cuts below `range`, `range` is some edge, an edge is at
most the completed reads away from the receive buffer's size, and the completed reads end at or
before the sink's head. So no snippet is ever refused.
-/

namespace Tubus.Udp

open Lib

/-! ## What only grows -/

namespace Istreamer

/-- Posted reads and stored fragments are never taken back. -/
def Grows (i i' : Istreamer) : Prop := i.readouts <+: i'.readouts ∧ i.stored <+: i'.stored

theorem Grows.refl (i : Istreamer) : Grows i i := ⟨List.prefix_refl _, List.prefix_refl _⟩

theorem Grows.of_eq {i i' : Istreamer} (hreadouts : i'.readouts = i.readouts)
    (hstored : i'.stored = i.stored) : Grows i i' :=
  ⟨⟨[], by rw [List.append_nil, hreadouts]⟩, ⟨[], by rw [List.append_nil, hstored]⟩⟩

theorem Grows.trans {i j k : Istreamer} (h : Grows i j) (h' : Grows j k) : Grows i k :=
  ⟨h.1.trans h'.1, h.2.trans h'.2⟩

theorem Grows.completed_le {i i' : Istreamer} (h : Grows i i') : i.completed ≤ i'.completed := by
  obtain ⟨more, hmore⟩ := h.1
  rw [completed, completed, ← hmore]
  simp only [List.filter_append, List.map_append, List.sum_append]
  omega

theorem Grows.got_subset {i i' : Istreamer} (h : Grows i i') {e : Nat × Bytes} (he : e ∈ i.got) :
    e ∈ i'.got :=
  (h.2.map Prod.snd).subset he

theorem moves_grows {i i' : Istreamer} (h : Moves i i') : Grows i i' := by
  cases h with
  | copy => exact .refl i
  | complete => exact ⟨List.prefix_append _ _, List.prefix_refl _⟩

theorem store_grows (q : Qos) (pin : Nat) (i : Istreamer) (h : Nat) (d : Bytes) :
    Grows i (i.store q pin h d).1 := by
  rcases i.store_cases q pin h d with ⟨heq, _⟩ | ⟨heq, _⟩ | ⟨_, _, _, _, heq⟩
  · rw [heq]
    exact .refl i
  · rw [heq]
    exact .refl i
  · rw [heq]
    exact ⟨List.prefix_refl _, List.prefix_append _ _⟩

theorem settle_grows (i : Istreamer) (v : Nat) : Grows i (i.settle v) := by
  unfold settle
  split
  · exact .refl i
  · exact .refl i

theorem parse_grows {q : Qos} {i i' : Istreamer} {p : Packet} (h : i.parse q p = some i') :
    Grows i i' :=
  parse_induct (P := Grows i)
    (fun j h d _ hj => hj.trans (store_grows q p.pin j h d))
    (fun j v _ hj => hj.trans (settle_grows j v))
    (fun _ _ hm hj => hj.trans (moves_grows hm)) h (.refl i)

theorem append_grows {i i' : Istreamer} {buffer : Bytes} {callback : Handler}
    (h : i.append buffer callback = some i') : Grows i i' :=
  transmit_induct (P := Grows i) (fun _ _ hm hj => hj.trans (moves_grows hm)) h
    ⟨List.prefix_refl _, List.prefix_refl _⟩

theorem error_grows (i : Istreamer) (ec : Ec) : Grows i (i.error ec) :=
  ⟨List.prefix_append _ _, List.prefix_refl _⟩

end Istreamer

/-- A packet within the window raises no error. -/
theorem SinkInv.parse_errors {q : Qos} {pieces : List (Nat × Bytes)} {i i' : Istreamer} {p : Packet}
    (hlt : (joined pieces).length < 2 ^ 64) (s : SinkInv q pieces i true)
    (hroom : (joined pieces).length ≤ q.receiveBufferSize + i.completed)
    (hp : ∀ h d, .move h d ∈ p.body → (h, d) ∈ pieces) (h : i.parse q p = some i') :
    i'.errors = i.errors := by
  have hall : SinkInv q pieces i' true ∧ i.Grows i' ∧ i'.errors = i.errors := by
    refine Istreamer.parse_induct
      (P := fun j => SinkInv q pieces j true ∧ i.Grows j ∧ j.errors = i.errors) ?_ ?_ ?_ h
      ⟨s, .refl i, rfl⟩
    · rintro j k d hm ⟨sj, hg, he⟩
      refine ⟨sj.store hlt p.pin (hp k d hm), hg.trans (Istreamer.store_grows q p.pin j k d), ?_⟩
      have hdone := hg.completed_le
      have hle := sj.completed_le
      rw [sj.length_history] at hle
      rcases j.store_cases q p.pin k d with ⟨_, hrefused⟩ | ⟨heq, _⟩ | ⟨_, _, _, _, heq⟩
      · exact absurd hrefused (sj.not_refused hlt (by omega) (hp k d hm))
      · rw [heq]
        exact he
      · rw [heq]
        exact he
    · rintro j v _ ⟨sj, hg, he⟩
      refine ⟨sj.settle v, hg.trans (Istreamer.settle_grows j v), ?_⟩
      unfold Istreamer.settle
      split <;> exact he
    · rintro j j' hm ⟨sj, hg, he⟩
      refine ⟨sj.moves hlt hm, hg.trans (Istreamer.moves_grows hm), ?_⟩
      cases hm with
      | copy => exact he
      | complete => exact he
  exact hall.2.2

/-! ## The invariant -/

namespace Flow

/-- The accounts of both halves, and of everything that was written. -/
structure Inv (qr : Qos) (f : Flow) : Prop where
  source : SourceInv f.source f.sourceOpen
  sink : SinkInv qr f.source.pulled f.sink f.sinkOpen
  sent : ∀ x ∈ f.sent, (∃ h d, x = .move h d ∧ (h, d) ∈ f.source.pulled) ∨
    ∃ v, x = .edgeEcho v ∧ v ≤ f.source.range
  echoed : ∀ x ∈ f.echoed,
    (∃ v, x = .moveEcho v ∧ ((∀ e ∈ f.source.pulled, e.2 ≠ []) → v ∈ f.sink.got.map Prod.fst)) ∨
    ∃ v, x = .edge v ∧ v < 2 ^ 64 ∧ v ≤ qr.receiveBufferSize + f.sink.completed
  window : f.source.range ≤ qr.receiveBufferSize + f.sink.completed
  quiet : f.sink.errors = []

namespace Inv

variable {qs qr : Qos} {f f' : Flow}

theorem create : Inv qr (create qr) where
  source := .create
  sink := .create
  sent x hx := by cases hx
  echoed x hx := by cases hx
  window := Nat.zero_le _
  quiet := rfl

/-- A sending half that does no more than before: nothing new is cut, and `range` stays. -/
theorem setSource (inv : Inv qr f) {o : Ostreamer} {live : Bool} (s : SourceInv o live)
    (hpulled : o.pulled = f.source.pulled) (hrange : o.range = f.source.range) :
    Inv qr { f with source := o, sourceOpen := live } where
  source := s
  sink := by rw [hpulled]; exact inv.sink
  sent := by rw [hpulled, hrange]; exact inv.sent
  echoed := by rw [hpulled]; exact inv.echoed
  window := by rw [hrange]; exact inv.window
  quiet := inv.quiet

/-- A receiving half that went on. -/
theorem setSink (inv : Inv qr f) {i : Istreamer} {live : Bool}
    (s : SinkInv qr f.source.pulled i live) (hg : f.sink.Grows i) (hquiet : i.errors = []) :
    Inv qr { f with sink := i, sinkOpen := live } where
  source := inv.source
  sink := s
  sent := inv.sent
  echoed := by
    intro x hx
    have hdone := hg.completed_le
    rcases inv.echoed x hx with ⟨v, rfl, hv⟩ | ⟨v, rfl, hlt, hv⟩
    · refine .inl ⟨v, rfl, fun hne => ?_⟩
      obtain ⟨e, he, rfl⟩ := List.mem_map.mp (hv hne)
      exact List.mem_map.mpr ⟨e, hg.got_subset he, rfl⟩
    · exact .inr ⟨v, rfl, hlt, by show v ≤ qr.receiveBufferSize + i.completed; omega⟩
  window := by
    have hdone := hg.completed_le
    have hwin := inv.window
    show f.source.range ≤ qr.receiveBufferSize + i.completed
    omega
  quiet := hquiet

theorem push (inv : Inv qr f) (hopen : f.sourceOpen = true) (now : Time) (resend : Int)
    (room : Nat) :
    Inv qr { f with
      source := (f.source.imbue qs now resend room).1
      sent := f.sent ++ (f.source.imbue qs now resend room).2.1 } := by
  have hs := inv.source
  rw [hopen] at hs
  obtain ⟨s', hpre, hrange, hout⟩ := hs.imbue qs now resend room
  refine ⟨by rw [hopen]; exact s', inv.sink.grow hpre s'.tiles, ?_, ?_, ?_, inv.quiet⟩
  · intro x hx
    rcases List.mem_append.mp hx with hx | hx
    · rcases inv.sent x hx with ⟨h, d, rfl, hm⟩ | ⟨v, rfl, hv⟩
      · exact .inl ⟨h, d, rfl, hpre.subset hm⟩
      · exact .inr ⟨v, rfl, by rw [hrange]; exact hv⟩
    · exact hout x hx
  · intro x hx
    rcases inv.echoed x hx with ⟨v, rfl, hv⟩ | hedge
    · exact .inl ⟨v, rfl, fun hne => hv fun e he => hne e (hpre.subset he)⟩
    · exact .inr hedge
  · show (f.source.imbue qs now resend room).1.range ≤ _
    rw [hrange]
    exact inv.window

theorem acknowledge (inv : Inv qr f) {p : Packet}
    (hp : ∀ x ∈ p.body, x.forSource = true → x ∈ f.echoed) :
    Inv qr { f with source := f.source.parse p } := by
  refine Ostreamer.parse_induct (P := fun o => Inv qr { f with source := o }) ?_ ?_ inv
  · intro o h _ inv'
    exact inv'.setSource (inv'.source.acknowledge p.pin h) rfl rfl
  · intro o v hm inv'
    obtain ⟨w, heq, _⟩ | ⟨w, heq, hlt, hv⟩ := inv.echoed (.edge v) (hp _ hm rfl)
    · cases heq
    · cases heq
      have hwin := inv'.window
      refine { inv' with
        source := inv'.source.widen p.pin hlt
        sent := ?_
        window := Nat.max_le.mpr ⟨hwin, hv⟩ }
      intro x hx
      rcases inv'.sent x hx with hmove | ⟨u, rfl, hu⟩
      · exact .inl hmove
      · exact .inr ⟨u, rfl, Nat.le_trans hu (Nat.le_max_left _ _)⟩

theorem answer (inv : Inv qr f) (now : Time) (resend : Int) (room : Nat) :
    Inv qr { f with
      sink := (f.sink.imbue now resend room).1
      echoed := f.echoed ++ (f.sink.imbue now resend room).2 } := by
  obtain ⟨s', hstored, houts, _, hout⟩ := inv.sink.imbue now resend room
  have hg : f.sink.Grows (f.sink.imbue now resend room).1 := .of_eq houts hstored
  have hquiet : (f.sink.imbue now resend room).1.errors = [] := by
    obtain ⟨acks, time, heq, -⟩ := f.sink.imbue_cases now resend room
    rw [heq]
    exact inv.quiet
  have inv' := inv.setSink s' hg hquiet
  refine { inv' with echoed := ?_ }
  intro x hx
  rcases List.mem_append.mp hx with hx | hx
  · exact inv'.echoed x hx
  · rcases hout x hx with ⟨v, hv, rfl⟩ | rfl
    · refine .inl ⟨v, rfl, fun hne => ?_⟩
      obtain ⟨e, he, rfl⟩ := List.mem_map.mp (inv.sink.acks hne v hv)
      exact List.mem_map.mpr ⟨e, hg.got_subset he, rfl⟩
    · have hdone := hg.completed_le
      refine .inr ⟨_, rfl, ?_, ?_⟩
      · rw [inv.sink.edge]
        exact Nat.mod_lt _ (by decide)
      · rw [inv.sink.edge]
        show _ ≤ qr.receiveBufferSize + (f.sink.imbue now resend room).1.completed
        exact Nat.le_trans (Nat.mod_le _ _) (by omega)

/-- A snippet on its way is a piece of the stream. -/
theorem move_mem (inv : Inv qr f) {p : Packet}
    (hp : ∀ x ∈ p.body, x.forSink = true → x ∈ f.sent) {h : Nat} {d : Bytes}
    (hm : .move h d ∈ p.body) : (h, d) ∈ f.source.pulled := by
  obtain ⟨h', d', heq, hmem⟩ | ⟨v, heq, _⟩ := inv.sent (.move h d) (hp _ hm rfl)
  · cases heq
    exact hmem
  · cases heq

theorem arrive (inv : Inv qr f) (hopen : f.sinkOpen = true) {p : Packet} {i : Istreamer}
    (hp : ∀ x ∈ p.body, x.forSink = true → x ∈ f.sent) (h : f.sink.parse qr p = some i) :
    Inv qr { f with sink := i } := by
  have s := inv.sink
  rw [hopen] at s
  have hlt := inv.source.cut_lt
  have hroom : f.source.cut.length ≤ qr.receiveBufferSize + f.sink.completed :=
    Nat.le_trans inv.source.window inv.window
  have hmem := fun h d => inv.move_mem hp (h := h) (d := d)
  have inv' := inv.setSink (s.parse hlt hmem h) (Istreamer.parse_grows h)
    (by rw [s.parse_errors hlt hroom hmem h, inv.quiet])
  rw [← hopen] at inv'
  exact inv'

theorem read (inv : Inv qr f) (hopen : f.sinkOpen = true) {buffer : Bytes} {callback : Handler}
    {i : Istreamer} (hb : buffer.length < 2 ^ 64) (h : f.sink.append buffer callback = some i) :
    Inv qr { f with sink := i } := by
  have s := inv.sink
  rw [hopen] at s
  have hquiet : i.errors = [] :=
    Istreamer.transmit_induct (P := fun j => j.errors = [])
      (fun j j' hm hj => by cases hm <;> exact hj) h inv.quiet
  have inv' := inv.setSink (s.append inv.source.cut_lt hb h) (Istreamer.append_grows h) hquiet
  rw [← hopen] at inv'
  exact inv'

/-- One act keeps the accounts. -/
theorem step (inv : Inv qr f) {a : Act} (h : Flow.step qs qr f a = some f') : Inv qr f' := by
  cases a with
  | initSource =>
    cases h
    exact inv.setSource inv.source.init rfl rfl
  | write buffer callback =>
    obtain ⟨⟨hopen, hb⟩, h⟩ := Option.ite_none_right_eq_some.mp h
    cases h
    have hs := inv.source
    rw [hopen] at hs
    obtain ⟨-, hpulled, hrange⟩ := f.source.append_keeps qs buffer callback
    have inv' := inv.setSource (hs.append qs callback hb) hpulled hrange
    rw [← hopen] at inv'
    exact inv'
  | push now resend room =>
    obtain ⟨hopen, h⟩ := Option.ite_none_right_eq_some.mp h
    cases h
    exact inv.push hopen now resend room
  | acknowledge p =>
    obtain ⟨⟨_, hp⟩, h⟩ := Option.ite_none_right_eq_some.mp h
    cases h
    exact inv.acknowledge hp
  | abortSource ec =>
    obtain ⟨_, h⟩ := Option.ite_none_left_eq_some.mp h
    cases h
    exact inv.setSource (inv.source.error ec) rfl rfl
  | initSink =>
    cases h
    exact inv.setSink inv.sink.init (.refl _) inv.quiet
  | read buffer callback =>
    obtain ⟨⟨hopen, hb⟩, h⟩ := Option.ite_none_right_eq_some.mp h
    obtain ⟨i, hi, rfl⟩ := Option.map_eq_some_iff.mp h
    exact inv.read hopen hb hi
  | answer now resend room =>
    obtain ⟨_, h⟩ := Option.ite_none_right_eq_some.mp h
    cases h
    exact inv.answer now resend room
  | arrive p =>
    obtain ⟨⟨hopen, hp⟩, h⟩ := Option.ite_none_right_eq_some.mp h
    obtain ⟨i, hi, rfl⟩ := Option.map_eq_some_iff.mp h
    exact inv.arrive hopen hp hi
  | abortSink ec =>
    obtain ⟨hec, h⟩ := Option.ite_none_left_eq_some.mp h
    cases h
    exact inv.setSink (inv.sink.error hec) (Istreamer.error_grows _ ec) inv.quiet

end Inv

/-- Every state of a flow keeps the accounts. -/
theorem Reaches.inv {qs qr : Qos} {ok : Flow → Act → Prop} {f : Flow}
    (h : (system qs qr).Reaches ok f) : Inv qr f :=
  h.invariant (fun _ hs => hs ▸ .create) (fun _ _ _ _ inv hstep => inv.step hstep)

end Flow

end Tubus.Udp
