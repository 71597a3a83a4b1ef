import Mathlib.Data.List.Infix
import Tubus.Laws.Handlers
import Tubus.Laws.Readable
import Tubus.Laws.Socket
import Tubus.Udp.ReadSome

/-!
# A transfer that reads

A transfer asks `readable` how much it may read, and reads that much. So a read of any bytes at all
is completed by its call, and the only read that can wait is the empty one, which the transfer makes
when nothing is readable and nothing was counted yet. It waits for the first byte in this way, and
never with bytes in hand, and it does not report success without any.

Two accounts are kept. `Ready` is about the transfer alone: what it has counted, and that nothing
counted means nothing read. `Base` is about the channel: the reads of the transfer are the last
ones posted, in order, and what they put into the buffers follows what was delivered before.
-/

namespace Tubus.Udp

open Lib Socket

/-! ## Events that are no reads -/

namespace Istreamer

/-- What an event that is no read leaves: the reads posted stay, and none is queued. -/
structure Leaves (i i' : Istreamer) : Prop where
  readouts : i.readouts <+: i'.readouts
  asked : i'.asked = i.asked

namespace Leaves

variable {q : Qos} {i i' i'' : Istreamer}

theorem refl (i : Istreamer) : Leaves i i := ⟨List.prefix_refl _, rfl⟩

theorem trans (h : Leaves i i') (h' : Leaves i' i'') : Leaves i i'' :=
  ⟨h.readouts.trans h'.readouts, h'.asked.trans h.asked⟩

theorem parse {p : Packet} (h : i.parse q p = some i') : Leaves i i' := by
  refine ⟨(parse_grows h).1, ?_⟩
  refine parse_induct (P := fun j => j.asked = i.asked) ?_ ?_ ?_ h rfl
  · intro j k d _ hj
    rcases j.store_cases q p.pin k d with ⟨heq, _⟩ | ⟨heq, _⟩ | ⟨_, _, _, _, heq⟩ <;>
      rw [heq] <;> exact hj
  · intro j v _ hj
    unfold settle
    split <;> exact hj
  · intro j j' hm hj
    cases hm <;> exact hj

theorem imbue (now : Time) (resend : Int) (room : Nat) (i : Istreamer) :
    Leaves i (i.imbue now resend room).1 := by
  obtain ⟨acks, time, heq, -⟩ := i.imbue_cases now resend room
  rw [heq]
  exact ⟨List.prefix_refl _, rfl⟩

theorem error (i : Istreamer) (ec : Ec) : Leaves i (i.error ec) := ⟨(error_grows i ec).1, rfl⟩

end Leaves

theorem append_asked {i i' : Istreamer} {buffer : Bytes} {k : Handler}
    (h : i.append buffer k = some i') : i'.asked = i.asked ++ [(buffer.length, k)] := by
  refine transmit_induct (P := fun j => j.asked = i.asked ++ [(buffer.length, k)]) ?_ h rfl
  intro j j' hm hj
  cases hm <;> exact hj

end Istreamer

namespace Transport

open Istreamer (Leaves)

variable {t t' : Transport} {out : Option Packet}

theorem act_leaves {e : Event} (hsound : e.sound = true) (hr : ReadSome.isRead e = false)
    (h : t.act e = some (t', out)) : Leaves t.istreamer t'.istreamer := by
  cases (act_cases hsound h).2 with
  | quiet sink =>
    rw [sink]
    exact .refl _
  | opened _ sink =>
    rw [sink]
    exact ⟨List.prefix_refl _, rfl⟩
  | read buffer k event =>
    rw [event] at hr
    cases hr
  | write _ _ _ _ sink =>
    rw [sink]
    exact .refl _
  | parsed now p _ _ _ sink => exact .parse sink
  | closed now p _ _ streams _ sink =>
    rw [sink]
    refine Leaves.trans ?_ (.error _ _)
    rcases streams with ⟨_, hparse, _⟩ | ⟨rfl, _⟩
    · exact .parse hparse
    · exact .refl _
  | aborted ec _ _ sink =>
    rw [sink]
    exact .error _ ec
  | round k roomI _ _ _ sink =>
    rw [sink]
    exact .imbue _ _ roomI _

theorem Reaches.inTurn {q : Qos} {ok : Transport → Event → Prop}
    (h : (Transport.system q).Reaches ok t) : t.istreamer.InTurn :=
  (istreamer_invariant (P := Istreamer.InTurn) .create (fun _ _ _ h t => t.op h) h).2

end Transport

/-- The reads posted and the readers that wait are as many as the reads that were queued. -/
theorem Istreamer.InTurn.length {i : Istreamer} (t : i.InTurn) :
    i.readouts.length + i.readers.length = i.asked.length := by
  have hlen := congrArg List.length t.turn
  rwa [List.length_append, List.length_map, List.length_map] at hlen

namespace ReadSome

/-! ## The transfer -/

/-- Where a transfer into these buffers may stand that has read `taken`: an empty read is made only
when nothing is counted, and nothing read means nothing counted and no buffer begun that has any
room. -/
def Stands (buffers : List Bytes) (taken : Bytes) : Stage UInt8 → Prop
  | .waiting part result buffer outer later =>
    part.length < 2 ^ 64 ∧ (part = [] → result = 0) ∧ (∀ b ∈ buffer :: later, b.length < 2 ^ 64) ∧
      (taken = [] → result = 0 ∧ outer = 0 ∧ (buffer :: later).flatten = buffers.flatten)
  | .returning ec size outer later =>
    (∀ b ∈ later, b.length < 2 ^ 64) ∧
      (ec = .success → taken = [] → size = 0 ∧ outer = 0 ∧ later.flatten = buffers.flatten)
  | .done ec _ => ec = .success → taken = [] → buffers.flatten = []

/-- Is the read that the transfer comes to within the limit? -/
def Within (limit : Nat) (x : Transfer UInt8) : Prop :=
  ∀ part result buffer outer later, x.stage = .waiting part result buffer outer later →
    part.length ≤ limit

/-- The account of the transfer. -/
structure Ready (buffers : List Bytes) (taken : Bytes) (x : Transfer UInt8) : Prop where
  counted : x.Counted
  sum : x.spans.sum = taken.length
  stands : Stands buffers taken x.stage

variable {buffers : List Bytes} {taken data : Bytes} {x x' : Transfer UInt8} {limit : Nat}

theorem postOne_spans (result : Nat) (buffer : Bytes) (outer : Nat) (later : List Bytes) :
    (x.postOne limit result buffer outer later).spans = x.spans := by
  unfold Transfer.postOne
  split
  · rfl
  · dsimp only
    split <;> rfl

/-- The inner form on a buffer. It does not report success where nothing was read, unless the
buffer is empty. -/
theorem postOne_stands {result : Nat} {buffer : Bytes} {outer : Nat} {later : List Bytes}
    (hlt : ∀ b ∈ buffer :: later, b.length < 2 ^ 64)
    (hnone : taken = [] →
      result = 0 ∧ outer = 0 ∧ (buffer :: later).flatten = buffers.flatten) :
    Stands buffers taken (x.postOne limit result buffer outer later).stage ∧
      Within limit (x.postOne limit result buffer outer later) := by
  have hlater : ∀ b ∈ later, b.length < 2 ^ 64 := fun b hb => hlt b (List.mem_cons_of_mem _ hb)
  unfold Transfer.postOne
  split
  · next hempty =>
    refine ⟨⟨hlater, fun _ htaken => ?_⟩, fun _ _ _ _ _ h => by cases h⟩
    obtain ⟨hresult, houter, hrest⟩ := hnone htaken
    rw [List.length_eq_zero_iff.mp hempty, List.flatten_cons, List.nil_append] at hrest
    exact ⟨hresult, houter, hrest⟩
  · dsimp only
    have hlen : (buffer.take (min limit buffer.length)).length ≤ min limit buffer.length := by
      rw [List.length_take]
      exact Nat.min_le_left _ _
    split
    · next hpart =>
      refine ⟨⟨?_, fun hnil => ?_, hlt, hnone⟩, fun part _ _ _ _ h => ?_⟩
      · have hbuffer := hlt buffer List.mem_cons_self
        omega
      · refine hpart.resolve_left fun hpos => ?_
        rw [hnil] at hpos
        exact absurd hpos (Nat.lt_irrefl _)
      · cases h
        exact Nat.le_trans hlen (Nat.min_le_left _ _)
    · next hpart =>
      refine ⟨⟨hlater, fun _ htaken => ?_⟩, fun _ _ _ _ _ h => by cases h⟩
      exact absurd (.inr (hnone htaken).1) hpart

/-- The outer form on the buffers that are left. -/
theorem postAll_stands (x : Transfer UInt8) (limit result : Nat) {later : List Bytes}
    (hlt : ∀ b ∈ later, b.length < 2 ^ 64)
    (hnone : taken = [] → result = 0 ∧ later.flatten = buffers.flatten) :
    Stands buffers taken (x.postAll limit result later).stage ∧
      Within limit (x.postAll limit result later) := by
  cases later with
  | nil => exact ⟨fun _ htaken => (hnone htaken).2.symm, fun _ _ _ _ _ h => by cases h⟩
  | cons buffer later =>
    refine postOne_stands hlt fun htaken => ?_
    obtain ⟨hresult, hrest⟩ := hnone htaken
    exact ⟨hresult, hresult, hrest⟩

theorem postAll_sum (x : Transfer UInt8) (limit result : Nat) (later : List Bytes) :
    (x.postAll limit result later).spans.sum = x.spans.sum := by
  cases later with
  | nil => rfl
  | cons buffer later =>
    rw [Transfer.postAll, postOne_spans, List.sum_cons, Nat.zero_add]

theorem Ready.start (limit : Nat) (hlt : ∀ b ∈ buffers, b.length < 2 ^ 64) :
    Ready buffers [] (Transfer.start true limit buffers) ∧
      Within limit (Transfer.start true limit buffers) := by
  have hstands : Stands buffers [] (Transfer.start true limit buffers).stage ∧
      Within limit (Transfer.start true limit buffers) :=
    postAll_stands _ limit 0 hlt fun _ => ⟨rfl, rfl⟩
  exact ⟨⟨.start true limit buffers, postAll_sum _ limit 0 buffers, hstands.1⟩, hstands.2⟩

theorem Ready.complete {ec : Ec} (r : Ready buffers taken x)
    (h : x.complete limit ec data.length = some x') :
    Ready buffers (taken ++ data) x' ∧ Within limit x' := by
  have hcounted := r.counted.complete h
  obtain ⟨hcount, hsum, hstands⟩ := r
  unfold Transfer.complete at h
  cases hstage : x.stage with
  | waiting part result buffer outer later =>
    rw [Transfer.Counted, hstage] at hcount
    obtain ⟨a, rest, hspans, -, -⟩ := hcount
    rw [hstage] at hstands
    obtain ⟨-, -, hlt, hnone⟩ := hstands
    have hsum' : (Transfer.report data.length x.spans).sum = (taken ++ data).length := by
      rw [List.length_append, ← hsum, hspans, Transfer.report, List.sum_cons, List.sum_cons]
      omega
    simp only [hstage] at h
    split at h
    · next hec =>
      cases h
      refine ⟨⟨hcounted, hsum', fun b hb => hlt b (List.mem_cons_of_mem _ hb), ?_⟩, ?_⟩
      · exact fun hs => absurd hs hec
      · exact fun _ _ _ _ _ h => by cases h
    · have hx' := (Option.some.inj h).symm
      have hstands : Stands buffers (taken ++ data) x'.stage ∧ Within limit x' := by
        rw [hx']
        refine postOne_stands (fun b hb => ?_) fun hall => ?_
        · rcases List.mem_cons.mp hb with rfl | hb
          · have hbuffer := hlt buffer List.mem_cons_self
            rw [List.length_drop]
            omega
          · exact hlt b (List.mem_cons_of_mem _ hb)
        · obtain ⟨htaken, rfl⟩ := List.append_eq_nil_iff.mp hall
          obtain ⟨rfl, houter, hrest⟩ := hnone htaken
          exact ⟨rfl, houter, hrest⟩
      refine ⟨⟨hcounted, ?_, hstands.1⟩, hstands.2⟩
      rw [hx', postOne_spans]
      exact hsum'
  | returning e n outer later =>
    rw [hstage] at h
    cases h
  | done e n =>
    rw [hstage] at h
    cases h

theorem Ready.callback (r : Ready buffers taken x) (h : x.callback limit = some x') :
    Ready buffers taken x' ∧ Within limit x' := by
  have hcounted := r.counted.callback h
  obtain ⟨-, hsum, hstands⟩ := r
  unfold Transfer.callback at h
  cases hstage : x.stage with
  | returning ec size outer later =>
    rw [hstage] at hstands
    obtain ⟨hlt, hnone⟩ := hstands
    simp only [hstage] at h
    split at h
    · next hec =>
      cases h
      exact ⟨⟨hcounted, hsum, fun hs => absurd hs hec⟩, fun _ _ _ _ _ h => by cases h⟩
    · next hec =>
      obtain rfl := Option.some.inj h
      have hstands := postAll_stands x limit (wadd outer size) hlt fun (htaken : taken = []) => by
        obtain ⟨rfl, rfl, hrest⟩ := hnone (not_ne_iff.mp hec) htaken
        exact ⟨rfl, hrest⟩
      exact ⟨⟨hcounted, (postAll_sum x limit _ later).trans hsum, hstands.1⟩, hstands.2⟩
  | waiting part result buffer outer later =>
    rw [hstage] at h
    cases h
  | done e n =>
    rw [hstage] at h
    cases h

/-! ## The channel -/

/-- The channel under a transfer that has completed its reads up to the `n`-th that the streamer
posted: what these put into the buffers follows what was delivered before. -/
structure Base (q : Qos) (before : Bytes) (t : Transport) (n : Nat) (taken : Bytes) : Prop where
  reach : (Transport.system q).Reaches Transport.Ends t
  posted : n ≤ t.istreamer.readouts.length
  data : ((t.istreamer.readouts.take n).map fun r => r.buffer.take r.size).flatten = before ++ taken

/-- Where the answer to the read under way comes from. A read of any bytes at all is completed. -/
def Awaits (t : Transport) (n : Nat) (answer : Option Answer) : Stage UInt8 → Prop
  | .waiting part _ _ _ _ =>
    (∃ ec, answer = some (.given ec 0) ∧ ec ≠ .success ∧ part = [] ∧
        t.istreamer.asked.length = n) ∨
      (answer = some (.nth n) ∧ t.istreamer.asked.length = n + 1 ∧
        (part ≠ [] → ∃ out : Readout, t.istreamer.readouts[n]? = some out ∧ out.ec = .success ∧
          out.size = part.length))
  | .returning _ _ _ _ | .done _ _ => answer = none ∧ t.istreamer.asked.length = n

/-- What holds along a transfer. -/
structure Inv (q : Qos) (before : Bytes) (buffers : List Bytes) (s : ReadSome) : Prop where
  ready : Ready buffers s.taken s.transfer
  base : ∃ n, Base q before s.channel n s.taken ∧ Awaits s.channel n s.answer s.transfer.stage

variable {q : Qos} {before : Bytes} {t t' : Transport} {n : Nat}

theorem Base.leaves (b : Base q before t n taken)
    (reach : (Transport.system q).Reaches Transport.Ends t')
    (h : t.istreamer.readouts <+: t'.istreamer.readouts) : Base q before t' n taken := by
  refine ⟨reach, Nat.le_trans b.posted h.length_le, ?_⟩
  obtain ⟨more, hmore⟩ := h
  rw [← hmore, List.take_append_of_le_length b.posted]
  exact b.data

/-- Where every read that was queued has been completed, no reader waits. -/
theorem Base.idle (b : Base q before t n taken) (h : t.istreamer.asked.length = n) :
    t.istreamer.readers = [] ∧ t.istreamer.readouts.length = n := by
  have hlen := (Transport.Reaches.inTurn b.reach).length
  have hposted := b.posted
  refine ⟨List.length_eq_zero_iff.mp ?_, ?_⟩ <;> omega

theorem declineCode_ne (s : Status) : Transport.declineCode s ≠ .success := by
  cases s <;> exact Ec.noConfusion

/-- The call that the transfer comes to, where nothing waits. -/
theorem Inv.issue (b : Base q before t n taken) (hasked : t.istreamer.asked.length = n)
    (ready : Ready buffers taken x) (within : Within t.readable x) {s : ReadSome}
    (h : issue t x taken = some s) : Inv q before buffers s := by
  obtain ⟨hreaders, hposted⟩ := b.idle hasked
  unfold ReadSome.issue at h
  cases hstage : x.stage with
  | returning ec size outer later =>
    simp only [hstage, Option.some.injEq] at h
    subst h
    refine ⟨ready, n, b, ?_⟩
    rw [hstage]
    exact ⟨rfl, hasked⟩
  | done ec size =>
    simp only [hstage, Option.some.injEq] at h
    subst h
    refine ⟨ready, n, b, ?_⟩
    rw [hstage]
    exact ⟨rfl, hasked⟩
  | waiting part result buffer outer later =>
    simp only [hstage] at h
    obtain ⟨t', hread, rfl⟩ := Option.map_eq_some_iff.mp h
    have hstands := ready.stands
    rw [hstage] at hstands
    have hlt : part.length < 2 ^ 64 := hstands.1
    have hle := within _ _ _ _ _ hstage
    have hreach : (Transport.system q).Reaches Transport.Ends t' := by
      refine .next (e := .read part 0) b.reach (fun _ _ heq => by cases heq) ?_
      have hsound : (Event.read part 0).sound = true := decide_eq_true hlt
      simp only [Transport.system, Transport.act, hread, hsound, if_true, Option.map_some]
    by_cases hl : t.connector.status = .linked
    · obtain ⟨i, happend, hi⟩ : ∃ i, t.istreamer.append part 0 = some i ∧
          t' = { t with istreamer := i } := by
        rw [Transport.read, if_pos hl] at hread
        obtain ⟨i, happend, heq⟩ := Option.bind_eq_some_iff.mp hread
        cases heq
        exact ⟨i, happend, rfl⟩
      refine ⟨ready, n, b.leaves hreach ?_, ?_⟩
      · rw [hi]
        exact (Istreamer.append_grows happend).1
      rw [hstage]
      refine .inr ⟨?_, ?_, fun hne => ?_⟩
      · show some (answerTo t) = _
        rw [answerTo, if_pos hl, hreaders, hposted]
        rfl
      · rw [hi, Istreamer.append_asked happend, List.length_append, hasked]
        rfl
      · obtain ⟨_, t'', hread', hdone, -⟩ := Transport.readable_exact b.reach hl part 0 hlt
        obtain rfl := Option.some.inj (hread.symm.trans hread')
        obtain ⟨_, out, hout, _, hec, hsize⟩ := hdone (List.length_pos_iff.mpr hne) hle
        refine ⟨out, ?_, hec, hsize⟩
        show t'.istreamer.readouts[n]? = _
        rw [hout, ← hposted, List.getElem?_concat_length]
    · rw [Transport.read, if_neg hl] at hread
      cases hread
      refine ⟨ready, n, ⟨hreach, b.posted, b.data⟩, ?_⟩
      rw [hstage]
      refine .inl ⟨_, ?_, declineCode_ne t.connector.status, ?_, hasked⟩
      · show some (answerTo t) = _
        rw [answerTo, if_neg hl]
      · rw [Transport.readable, if_neg hl] at hle
        exact List.length_eq_zero_iff.mp (Nat.le_zero.mp hle)

theorem Inv.channel {s : ReadSome} (i : Inv q before buffers s) {e : Event} {out : Option Packet}
    (hends : s.channel.Ends e) (hsound : e.sound = true) (hr : isRead e = false)
    (h : s.channel.act e = some (t', out)) : Inv q before buffers { s with channel := t' } := by
  obtain ⟨ready, n, b, hawaits⟩ := i
  have hleaves := Transport.act_leaves hsound hr h
  have hreach : (Transport.system q).Reaches Transport.Ends t' := by
    refine .next b.reach hends ?_
    simp only [Transport.system, hsound, if_true, h, Option.map_some]
  refine ⟨ready, n, b.leaves hreach hleaves.readouts, ?_⟩
  dsimp only at hawaits ⊢
  revert hawaits
  cases s.transfer.stage with
  | waiting part result buffer outer later =>
    rintro (⟨ec, hanswer, hec, hpart, hasked⟩ | ⟨hanswer, hasked, hdone⟩)
    · exact .inl ⟨ec, hanswer, hec, hpart, by rw [hleaves.asked]; exact hasked⟩
    · refine .inr ⟨hanswer, by rw [hleaves.asked]; exact hasked, fun hne => ?_⟩
      obtain ⟨o, ho, hfine⟩ := hdone hne
      obtain ⟨more, hmore⟩ := hleaves.readouts
      refine ⟨o, ?_, hfine⟩
      rw [← hmore, List.getElem?_append_left (List.getElem?_eq_some_iff.mp ho).1, ho]
  | returning ec size outer later => exact fun ⟨h, h'⟩ => ⟨h, by rw [hleaves.asked]; exact h'⟩
  | done ec size => exact fun ⟨h, h'⟩ => ⟨h, by rw [hleaves.asked]; exact h'⟩

theorem Inv.complete {s s' : ReadSome} (i : Inv q before buffers s)
    (h : s.step .complete = some s') : Inv q before buffers s' := by
  obtain ⟨ready, n, b, hawaits⟩ := i
  obtain ⟨⟨ec, size, data⟩, hanswered, h⟩ := Option.bind_eq_some_iff.mp h
  obtain ⟨x, hx, hissue⟩ := Option.bind_eq_some_iff.mp h
  obtain ⟨n', b', hasked, hsize⟩ : ∃ n', Base q before s.channel n' (s.taken ++ data) ∧
      s.channel.istreamer.asked.length = n' ∧ size = data.length := by
    revert hawaits
    cases hstage : s.transfer.stage with
    | waiting part result buffer outer later =>
      rintro (⟨ec', hanswer, -, -, hasked⟩ | ⟨hanswer, hasked, -⟩)
      · simp only [answered, hanswer, Option.some.injEq, Prod.mk.injEq] at hanswered
        obtain ⟨-, rfl, rfl⟩ := hanswered
        rw [List.append_nil]
        exact ⟨n, b, hasked, rfl⟩
      · simp only [answered, hanswer] at hanswered
        obtain ⟨r, hr, heq⟩ := Option.map_eq_some_iff.mp hanswered
        cases heq
        obtain ⟨hsize, htaken⟩ := (Transport.Reaches.inTurn b.reach).sizes r
          (List.mem_of_getElem? hr)
        refine ⟨n + 1, ⟨b.reach, (List.getElem?_eq_some_iff.mp hr).1, ?_⟩, hasked, ?_⟩
        · rw [List.take_add_one, hr, List.map_append, List.flatten_append, b.data,
            List.append_assoc]
          simp
        · rw [htaken]
          exact hsize
    | returning e m outer later =>
      rw [Transfer.complete, hstage] at hx
      cases hx
    | done e m =>
      rw [Transfer.complete, hstage] at hx
      cases hx
  subst hsize
  obtain ⟨ready', within⟩ := ready.complete hx
  exact .issue b' hasked ready' within hissue

theorem Inv.callback {s s' : ReadSome} (i : Inv q before buffers s)
    (h : s.step .callback = some s') : Inv q before buffers s' := by
  obtain ⟨ready, n, b, hawaits⟩ := i
  obtain ⟨x, hx, h⟩ := Option.bind_eq_some_iff.mp h
  obtain ⟨ready', within⟩ := ready.callback hx
  refine .issue b ?_ ready' within h
  revert hawaits
  cases hstage : s.transfer.stage with
  | returning e m outer later => exact fun hawaits => hawaits.2
  | waiting part result buffer outer later =>
    rw [Transfer.callback, hstage] at hx
    cases hx
  | done e m =>
    rw [Transfer.callback, hstage] at hx
    cases hx

/-- The packets that come end below the last number of the stream. -/
def Ends (s : ReadSome) : Act → Prop
  | .channel e => s.channel.Ends e
  | .complete | .callback => True

/-- A transfer that reads from a channel with no other reader, whatever comes. What it has put into
the buffers is what the channel delivered since, in order and from the first buffer on, and as much
as was reported. A read that it makes is completed at once, unless it is the empty one that waits
for the first byte; only a count that has wrapped makes it wait again. And it succeeds with at
least one byte, if there is any room for it. -/
theorem waits_for_first {t₀ : Transport} {s : ReadSome}
    (h₀ : (Transport.system q).Reaches Transport.Ends t₀) (hnone : t₀.istreamer.readers = [])
    (hlt : ∀ b ∈ buffers, b.length < 2 ^ 64) (h : (system t₀ buffers).Reaches Ends s) :
    t₀.istreamer.delivered ++ s.taken <+: s.channel.istreamer.delivered ∧
      s.taken.length = s.transfer.spans.sum ∧
      (∀ part result buffer outer later,
        s.transfer.stage = .waiting part result buffer outer later →
          (part ≠ [] → ∃ data, s.answered = some (.success, part.length, data)) ∧
          (part = [] → s.taken = [] ∨ 2 ^ 64 ≤ weigh s.transfer.spans)) ∧
      ∀ n, s.transfer.stage = .done .success n → buffers.flatten ≠ [] → s.taken ≠ [] := by
  have i : Inv q t₀.istreamer.delivered buffers s := by
    refine System.Reaches.invariant (P := Inv q t₀.istreamer.delivered buffers) ?_ ?_ h
    · intro s hs
      obtain ⟨ready, within⟩ := Ready.start t₀.readable hlt
      have hlen := (Transport.Reaches.inTurn h₀).length
      rw [hnone, List.length_nil, Nat.add_zero] at hlen
      refine .issue ⟨h₀, Nat.le_refl _, ?_⟩ hlen.symm ready within hs
      rw [List.take_length, Istreamer.delivered, hnone]
      simp
    · intro s a s' hends i hstep
      cases a with
      | channel e =>
        obtain ⟨⟨hsound, hr⟩, hstep⟩ := Option.ite_none_right_eq_some.mp hstep
        obtain ⟨⟨t, out⟩, hact, rfl⟩ := Option.map_eq_some_iff.mp hstep
        exact i.channel hends hsound hr hact
      | complete => exact i.complete hstep
      | callback => exact i.callback hstep
  obtain ⟨⟨hcounted, hsum, hstands⟩, n, b, hawaits⟩ := i
  refine ⟨?_, hsum.symm, fun part result buffer outer later hstage => ?_, fun n hdone hroom => ?_⟩
  · rw [← b.data, Istreamer.delivered]
    refine List.IsPrefix.trans ?_ (List.prefix_append _ _)
    exact ((List.take_prefix _ _).map _).flatten
  · rw [hstage] at hawaits hstands
    refine ⟨fun hne => ?_, fun hempty => ?_⟩
    · rcases hawaits with ⟨_, -, -, hpart, -⟩ | ⟨hanswer, -, hdone⟩
      · exact absurd hpart hne
      · obtain ⟨o, ho, hec, hsize⟩ := hdone hne
        refine ⟨o.buffer.take o.size, ?_⟩
        simp only [answered, hanswer, ho, Option.map_some, hec, hsize]
    · -- nothing counted although something was read
      rw [Transfer.Counted, hstage] at hcounted
      obtain ⟨a, rest, hspans, -, hresult⟩ := hcounted
      rw [hstands.2.1 hempty] at hresult
      rw [hspans, List.sum_cons] at hsum
      have hrest := weigh_eq rest
      rw [hspans, weigh]
      by_cases hzero : s.taken = []
      · exact .inl hzero
      · have hpos := List.length_pos_iff.mpr hzero
        right
        omega
  · rw [hdone] at hstands
    exact fun htaken => hroom (hstands rfl htaken)

/-- Nothing is readable when the transfer begins. Two bytes come for a buffer of three, and it
succeeds with these. -/
theorem waits_for_first_two :
    ∃ t₀ s, (Transport.system .default).Reaches Transport.Ends t₀ ∧ t₀.readable = 0 ∧
      (system t₀ [[0, 0, 0]]).Reaches Ends s ∧ s.transfer.stage = .done .success 2 ∧
      s.taken.length = 2 ∧ s.taken ≠ [] := by
  have hrun : ((Transport.system .default).run (Transport.create .default)
      [.openAt, .connect 1 1 1 .success, .feed 2 ⟨2, [.linkEcho]⟩]).map (fun t =>
        (t.readable, t.istreamer.readers, ((start t [[0, 0, 0]]).bind fun s =>
          (system t [[0, 0, 0]]).run s [.channel (.feed 3 ⟨2, [.move 0 [1, 2]]⟩), .complete,
            .complete, .callback]).map fun s => (s.transfer.stage, s.transfer.spans)))
      = some (0, [], some (.done .success 2, [2])) := by decide +kernel
  obtain ⟨t₀, ht₀, hv⟩ := Option.map_eq_some_iff.mp hrun
  simp only [Prod.mk.injEq] at hv
  obtain ⟨hreadable, hnone, hv⟩ := hv
  obtain ⟨s, hs, hv⟩ := Option.map_eq_some_iff.mp hv
  obtain ⟨s₀, hs₀, hs⟩ := Option.bind_eq_some_iff.mp hs
  obtain ⟨hdone, hspans⟩ := Prod.mk.inj hv
  have hreach₀ : (Transport.system .default).Reaches Transport.Ends t₀ := by
    refine System.Reaches.run _ (.start rfl) (fun _ e he now p heq h d hm => ?_) ht₀
    subst heq
    simp only [List.mem_cons, reduceCtorEq, Event.feed.injEq, List.not_mem_nil, or_false,
      false_or] at he
    obtain ⟨-, rfl⟩ := he
    simp at hm
  have hreach : (system t₀ [[0, 0, 0]]).Reaches Ends s := by
    refine System.Reaches.run _ (.start hs₀) (fun _ a ha => ?_) hs
    simp only [List.mem_cons, List.not_mem_nil, or_false] at ha
    rcases ha with rfl | rfl | rfl | rfl
    · rintro now p heq h d hm
      cases heq
      obtain ⟨rfl, rfl⟩ : h = 0 ∧ d = [1, 2] := by simpa using hm
      decide
    all_goals exact trivial
  have hall := waits_for_first (q := .default) hreach₀ hnone (by decide) hreach
  refine ⟨t₀, s, hreach₀, hreadable, hreach, hdone, ?_, hall.2.2.2 2 hdone (by decide)⟩
  rw [hall.2.1, hspans]
  rfl

end ReadSome

end Tubus.Udp
