import Tubus.Laws.Round

/-!
# What a round puts on the wire

`emit` writes a round into a buffer that still holds an earlier packet. Each writer finds the end
of the packet by a scan for a zero header, and sets the zero header anew behind what it wrote. So
between two writers the buffer holds the header, the sections so far, a zero header and whatever
was there before (`ended`), and a writer that ends in order takes one such packet to the next.

One path leaves the zero header out: the sending half returns at once when it comes to a flight
that has used up its attempts. With nothing written before it the old zero header is still in
place. With a snippet written before it the header was overwritten, and the scan goes on into the
old bytes. And a ping that is due again at once is written as long as there is room for a section
header, so that the last one may not fit. In all other rounds (`emit_iff`) the bytes are those of
the packet that `produce` sends (`emit_produce`), so that sessions may exchange packets instead of
bytes.
-/

namespace Tubus.Udp

open Lib
open Transport (sizes)

/-! ## The numbers of a channel -/

namespace Section

/-- The number of a section is a 64-bit one. -/
def Word : Section → Prop
  | .link | .linkEcho | .tear | .tearEcho => True
  | .ping v | .pingEcho v | .moveEcho v | .edge v | .edgeEcho v => v < 2 ^ 64
  | .move h _ => h < 2 ^ 64
  | .runt _ => False

/-- A section that a packet has room for can be written. -/
theorem Word.fits {s : Section} (h : s.Word) (hsize : s.size ≤ 65507) : s.Fits := by
  cases s with
  | move handle d =>
    rw [Ostreamer.size_move] at hsize
    refine ⟨h, ?_⟩
    simp only [overhead, headerSize, valueSize] at hsize ⊢
    omega
  | _ => exact h

theorem Fits.word {s : Section} (h : s.Fits) : s.Word := by
  cases s with
  | move handle d => exact h.1
  | _ => exact h

theorem number_lt {v : Bytes} {n : Nat} (h : number v = some n) : n < 2 ^ 64 := by
  obtain ⟨bytes, hget, rfl⟩ := Option.map_eq_some_iff.mp h
  obtain ⟨_, hbytes⟩ := Option.ite_none_left_eq_some.mp hget
  have hlen : bytes.length ≤ 8 := by
    rw [← Option.some.inj hbytes]
    exact List.length_take_le _ _
  exact Nat.lt_of_lt_of_le (ofBE_lt bytes) (Nat.pow_le_pow_right (by decide) hlen)

theorem ofValue_word {t : Nat} {v : Bytes} {s : Section} (h : ofValue t v = some s) :
    s.Word ∨ ∃ w, s = .runt w := by
  have hnumeral : ∀ form : Nat → Section, (∀ n, (form n).Word ↔ n < 2 ^ 64) →
      (number v).map form = some s → s.Word := by
    intro form hform hmap
    obtain ⟨n, hn, rfl⟩ := Option.map_eq_some_iff.mp hmap
    exact (hform n).mpr (number_lt hn)
  unfold ofValue at h
  split at h
  · exact .inl (Option.some.inj h ▸ trivial)
  · exact .inl (Option.some.inj h ▸ trivial)
  · exact .inl (Option.some.inj h ▸ trivial)
  · exact .inl (Option.some.inj h ▸ trivial)
  · exact .inl (hnumeral .ping (fun _ => Iff.rfl) h)
  · exact .inl (hnumeral .pingEcho (fun _ => Iff.rfl) h)
  · split at h
    · next hn _ => exact .inl (Option.some.inj h ▸ number_lt hn)
    · exact .inr ⟨v, (Option.some.inj h).symm⟩
  · exact .inl (hnumeral .moveEcho (fun _ => Iff.rfl) h)
  · exact .inl (hnumeral .edge (fun _ => Iff.rfl) h)
  · exact .inl (hnumeral .edgeEcho (fun _ => Iff.rfl) h)
  · cases h

/-- The numbers that a walk meets are 64-bit ones. -/
theorem walk_word (fuel : Nat) {b : Bytes} {l : List Section} (h : walk fuel b = some l) :
    ∀ s ∈ l, s.Word ∨ ∃ w, s = .runt w := by
  induction fuel generalizing b l with
  | zero =>
    cases h
    exact fun s hs => absurd hs List.not_mem_nil
  | succ fuel ih =>
    obtain ⟨ok, _, h⟩ := Option.bind_eq_some_iff.mp h
    split at h
    · obtain ⟨t, _, h⟩ := Option.bind_eq_some_iff.mp h
      obtain ⟨v, _, h⟩ := Option.bind_eq_some_iff.mp h
      obtain ⟨s₀, hs₀, h⟩ := Option.bind_eq_some_iff.mp h
      obtain ⟨next, _, h⟩ := Option.bind_eq_some_iff.mp h
      obtain ⟨rest, hrest, h⟩ := Option.bind_eq_some_iff.mp h
      cases h
      intro s hs
      rcases List.mem_cons.mp hs with rfl | hs
      · exact ofValue_word hs₀
      · exact ih hrest s hs
    · cases h
      exact fun s hs => absurd hs List.not_mem_nil

end Section

/-- The packets that are fed were read from datagrams. -/
def Event.Carried : Event → Prop
  | .feed _ p => ∃ b : Bytes, Section.sections b = some p.body
  | _ => True

/-- The numbers of a receiving half are 64-bit ones. -/
structure Istreamer.Numbered (i : Istreamer) : Prop where
  acks : ∀ v ∈ i.acks.keys, v < 2 ^ 64
  edge : i.edge.range < 2 ^ 64

/-- The numbers of a sending half are 64-bit ones. -/
structure Ostreamer.Numbered (o : Ostreamer) : Prop where
  head : o.buffer.head < 2 ^ 64
  moves : ∀ h ∈ o.moves.keys, h < 2 ^ 64
  range : o.range < 2 ^ 64
  acks : ∀ v ∈ o.acks.keys, v < 2 ^ 64

theorem Istreamer.Numbered.op {q : Qos} {fed : Packet → Prop} {i i' : Istreamer} (n : Numbered i)
    (hfed : ∀ p, fed p → ∀ s ∈ p.body, s.Word ∨ ∃ w, s = .runt w) (h : Op q fed i i') :
    Numbered i' := by
  have hmoves : ∀ j j', Moves j j' → Numbered j → Numbered j' := by
    intro j j' hm nj
    cases hm with
    | copy => exact { nj with }
    | @complete r rest first full =>
      refine { nj with edge := ?_ }
      show (j.edge.moved r.read).range < 2 ^ 64
      unfold EdgeJob.moved
      split
      · exact wadd_lt _ _
      · exact nj.edge
  cases h with
  | init => exact { n with }
  | append buffer k _ h =>
    exact transmit_induct hmoves h
      (show Numbered { i with readers := _, asked := _ } from { n with })
  | parse p hp h =>
    refine parse_induct ?_ ?_ hmoves h n
    · intro j handle d hm nj
      have hword : handle < 2 ^ 64 := by
        rcases hfed p hp _ hm with hw | ⟨_, hw⟩
        · exact hw
        · cases hw
      have hacks : ∀ v ∈ (j.acks.emplace handle ()).keys, v < 2 ^ 64 := by
        intro v hv
        rcases SortedMap.mem_keys_emplace.mp hv with hv | rfl
        · exact nj.acks v hv
        · exact hword
      rcases j.store_cases q p.pin handle d with ⟨heq, _⟩ | ⟨heq, _⟩ | ⟨_, _, _, _, heq⟩ <;>
        rw [heq]
      · exact { nj with }
      · exact { nj with acks := hacks }
      · exact { nj with acks := hacks }
    · intro j v _ nj
      unfold settle
      split
      · exact { nj with }
      · exact nj
  | imbue now resend room =>
    obtain ⟨acks, time, heq, hacks, -⟩ := i.imbue_cases now resend room
    rw [heq]
    exact { n with acks := fun v hv => n.acks v (hacks v hv) }
  | error _ ec _ => exact { n with acks := fun v hv => by cases hv }

/-- One step of `imbue` keeps the numbers, and writes such ones. -/
theorem Ostreamer.Numbered.emits {q : Qos} {time : Time} {o o' : Ostreamer} {l l' : List Section}
    (h : Emits q time (o, l) (o', l')) (n : Numbered o ∧ ∀ s ∈ l, s.Word) :
    Numbered o' ∧ ∀ s ∈ l', s.Word := by
  obtain ⟨n, hl⟩ := n
  have hadd : ∀ s : Section, s.Word → ∀ x ∈ l ++ [s], x.Word := by
    intro s hs x hx
    rcases List.mem_append.mp hx with hx | hx
    · exact hl x hx
    · rw [List.mem_singleton.mp hx]
      exact hs
  cases h with
  | @again _ _ handle f mem =>
    refine ⟨{ n with moves := ?_ }, hadd _ (n.moves handle (SortedMap.mem_keys.mpr ⟨f, mem⟩))⟩
    show ∀ h ∈ (o.moves.modify handle _).keys, _
    rw [SortedMap.keys_modify]
    exact n.moves
  | @giveUp _ _ handle f mem used =>
    refine ⟨{ n with moves := ?_ }, hl⟩
    show ∀ h ∈ (o.moves.modify handle _).keys, _
    rw [SortedMap.keys_modify]
    exact n.moves
  | @fresh _ _ max queued pos window =>
    refine ⟨{ n with head := ?_, moves := ?_ }, hadd _ n.head⟩
    · show (o.buffer.pull max).2.head < 2 ^ 64
      rw [o.buffer.pull_head max queued]
      exact wadd_lt _ _
    · intro h hh
      rcases SortedMap.mem_keys_emplace.mp hh with hh | rfl
      · exact n.moves h hh
      · exact n.head
  | echo owed left =>
    refine ⟨{ n with acks := fun v hv => n.acks v (left v hv) }, fun s hs => ?_⟩
    rcases List.mem_append.mp hs with hs | hs
    · exact hl s hs
    · obtain ⟨v, hv, rfl⟩ := owed s hs
      exact n.acks v hv

/-- `imbue` keeps the numbers of a sending half, and writes such ones. -/
theorem Ostreamer.Numbered.imbue {o : Ostreamer} (n : Numbered o) (q : Qos) (now : Time)
    (resend : Int) (room : Nat) :
    Numbered (o.imbue q now resend room).1 ∧ ∀ s ∈ (o.imbue q now resend room).2.1, s.Word :=
  imbue_induct q now resend (P := fun o l => Numbered o ∧ ∀ s ∈ l, s.Word)
    (fun _ _ _ _ hstep => emits hstep) room ⟨n, fun _ hs => absurd hs List.not_mem_nil⟩

theorem Ostreamer.Numbered.op {q : Qos} {fed : Packet → Prop} {linked : Prop} {o o' : Ostreamer}
    (n : Numbered o) (hfed : ∀ p, fed p → ∀ s ∈ p.body, s.Word ∨ ∃ w, s = .runt w)
    (h : Op q fed linked o o') : Numbered o' := by
  cases h with
  | init => exact { n with }
  | append _ buffer k _ _ =>
    have hhead : (o.buffer.add q buffer).head < 2 ^ 64 := by
      unfold SendBuffer.add
      split <;> exact n.head
    unfold append
    dsimp only
    split <;> exact { n with head := hhead }
  | parse _ p hp =>
    refine parse_induct ?_ ?_ n
    · intro j handle _ nj
      exact { nj with moves := fun h hh => nj.moves h (SortedMap.mem_keys_erase.mp hh).1 }
    · intro j v hm nj
      have hword : v < 2 ^ 64 := by
        rcases hfed p hp _ hm with hw | ⟨_, hw⟩
        · exact hw
        · cases hw
      have hmax : max j.range v < 2 ^ 64 := Nat.max_lt.mpr ⟨nj.range, hword⟩
      refine { nj with range := hmax, acks := fun w hw => ?_ }
      rcases SortedMap.mem_keys_emplace.mp hw with hw | rfl
      · exact nj.acks w hw
      · exact hmax
  | imbue now resend room => exact (n.imbue q now resend room).1
  | error _ ec _ =>
    exact { n with
      head := (show 0 < 2 ^ 64 by decide)
      moves := fun h hh => by cases hh }

namespace Transport

variable {q : Qos} {t : Transport}

/-- Fed with what was read from datagrams, a channel has 64-bit numbers. -/
theorem Reaches.numbered (h : (system q).Reaches (fun _ e => e.Carried) t) :
    t.qos = q ∧ t.istreamer.Numbered ∧ t.ostreamer.Numbered := by
  refine act_invariant (P := fun t => t.istreamer.Numbered ∧ t.ostreamer.Numbered) ?_ ?_ h
  · have hzero : 0 < 2 ^ 64 := by decide
    exact ⟨⟨fun v hv => (by cases hv), q.receiveBufferSize_lt⟩,
      ⟨hzero, fun v hv => (by cases hv), hzero, fun v hv => (by cases hv)⟩⟩
  · rintro s e s' out hcarried - hsound hact ⟨hi, ho⟩
    obtain ⟨-, histeps, hosteps⟩ := act_halves hsound hact
    have hfed : ∀ p, s.Fed e p → ∀ x ∈ p.body, x.Word ∨ ∃ w, x = .runt w := by
      rintro p ⟨⟨now, rfl⟩, _⟩
      obtain ⟨b, hb⟩ := hcarried
      exact Section.walk_word _ hb
    exact ⟨keeps_of_steps (fun _ _ hop n => n.op hfed hop) histeps hi,
      keeps_of_steps (fun _ _ hop n => n.op hfed hop) hosteps ho⟩

end Transport

/-- The connector writes headers and 64-bit numbers. -/
theorem Connector.imbue_fits (q : Qos) (now : Time) (room : Nat) (c : Connector) :
    ∀ s ∈ (c.imbue q now room).2, s.Fits := by
  have hword : ∀ t : Int, toU64 t < 2 ^ 64 := by
    intro t
    have hlt := Int.emod_lt_of_pos t (show (0 : Int) < 2 ^ 64 by decide)
    have hle := Int.emod_nonneg t (show (2 ^ 64 : Int) ≠ 0 by decide)
    unfold toU64
    omega
  refine imbue_induct q now (P := fun _ l => ∀ s ∈ l, s.Fits) id ?_ room
    fun s hs => absurd hs List.not_mem_nil
  intro _ l item _ _ hl s hs
  rcases List.mem_append.mp hs with hs | hs
  · exact hl s hs
  · rw [List.mem_singleton.mp hs]
    obtain ⟨job, time⟩ := item
    cases job with
    | ping | pingEcho => exact hword _
    | _ => trivial

/-- The receiving half writes 64-bit numbers. -/
theorem Istreamer.Numbered.imbue_word {i : Istreamer} (n : Numbered i) (now : Time) (resend : Int)
    (room : Nat) : ∀ s ∈ (i.imbue now resend room).2, s.Word := by
  intro s hs
  obtain ⟨v, hv, rfl⟩ | rfl := i.imbue_sections now resend room s hs
  · exact n.acks v hv
  · exact n.edge

/-! ## A packet between two writers -/

theorem Section.length_encodeAll (l : List Section) : (encodeAll l).length = sizes l := by
  induction l with
  | nil => rfl
  | cons s l ih => rw [encodeAll_cons, List.length_append, length_encode, ih, Transport.sizes_cons]

/-- No stub shows behind a section, and none gets lost before the next one. -/
theorem Section.stub_drop_stub (b : Bytes) (l : List Section) :
    stub ((stub b).drop (sizes l)) = stub (b.drop (sizes l)) := by
  cases l with
  | nil => rw [Transport.sizes_nil, List.drop_zero, List.drop_zero, stub_stub]
  | cons s l =>
    have hle := s.headerSize_le_size
    rw [drop_stub (by rw [Transport.sizes_cons]; omega)]

namespace Datagram

open Section (encodeAll)

/-- The buffer of a packet that is ended behind its sections. -/
def ended (pin : Nat) (l : List Section) (buffer : Bytes) : Bytes :=
  heading pin ++ (encodeAll l ++ Section.stub (buffer.drop (headerSize + sizes l)))

/-- The buffer of a packet that runs on into what was there before. -/
def unended (pin : Nat) (l : List Section) (buffer : Bytes) : Bytes :=
  heading pin ++ (encodeAll l ++ buffer.drop (headerSize + sizes l))

variable {pin : Nat} {l : List Section} {buffer : Bytes}

theorem length_ended (hle : headerSize + sizes l ≤ buffer.length) :
    (ended pin l buffer).length = buffer.length := by
  rw [ended, List.length_append, List.length_append, length_heading, Section.length_encodeAll,
    Section.length_stub, List.length_drop]
  omega

/-- A writer goes on where the packet ends, and ends it anew unless it gives up behind what it
wrote. -/
theorem imbueAt_ended {σ : Type} (pin : Nat) (writer : Nat → σ × List Section × Bool) {s : σ}
    {body : List Section} {gaveUp : Bool}
    (hwriter : writer (buffer.length - (headerSize + sizes l)) = (s, body, gaveUp))
    (hfits : ∀ x ∈ l ++ body, x.Fits) (hle : headerSize + sizes (l ++ body) ≤ buffer.length)
    (hlt : buffer.length < 2 ^ 64) :
    Transport.imbueAt (ended pin l buffer) writer =
      some (s, if gaveUp && !body.isEmpty then unended pin (l ++ body) buffer
        else ended pin (l ++ body) buffer) := by
  rw [Transport.sizes_append] at hle
  have hlen : (ended pin l buffer).length = buffer.length := length_ended (by omega)
  have hstub : stub (ended pin l buffer) = some ⟨heading pin ++ encodeAll l,
      Section.stub (buffer.drop (headerSize + sizes l))⟩ :=
    stub_ended (length_heading pin) (fun x hx => hfits x (List.mem_append_left _ hx))
      (by rw [← ended, hlen]; exact hlt)
  have hroom : (Section.stub (buffer.drop (headerSize + sizes l))).length =
      buffer.length - (headerSize + sizes l) := by
    rw [Section.length_stub, List.length_drop]
  have hputs : Cursor.puts ⟨heading pin ++ encodeAll l,
      Section.stub (buffer.drop (headerSize + sizes l))⟩ body = _ :=
    Cursor.puts_eq (fun x hx => hfits x (List.mem_append_right _ hx))
      (by rw [Section.length_encodeAll, hroom]; omega) (by rw [hroom]; omega)
  have hbehind : headerSize + sizes l + sizes body = headerSize + sizes (l ++ body) := by
    rw [Transport.sizes_append, Nat.add_assoc]
  unfold Transport.imbueAt
  rw [hstub, Option.bind_eq_bind, Option.bind_some]
  dsimp only
  rw [hroom, hwriter]
  dsimp only
  rw [hputs, Option.bind_some, Section.length_encodeAll]
  refine congrArg some (congrArg (Prod.mk s) ?_)
  cases gaveUp with
  | false =>
    rw [if_neg (by decide), Bool.false_and, if_neg (by decide), Cursor.stub, Cursor.buffer]
    dsimp only
    rw [Section.stub_drop_stub, List.drop_drop, hbehind, ended, Section.encodeAll_append]
    simp only [List.append_assoc]
  | true =>
    rw [if_pos rfl, Cursor.buffer]
    dsimp only
    cases body with
    | nil => simp [ended]
    | cons x rest =>
      have hheader := x.headerSize_le_size
      rw [Section.drop_stub (by rw [Transport.sizes_cons]; omega), List.drop_drop, hbehind]
      simp [unended, Section.encodeAll_append]

/-- A writer whose sections do not fit throws. -/
theorem imbueAt_of_lt {σ : Type} (pin : Nat) (writer : Nat → σ × List Section × Bool) {s : σ}
    {body : List Section} {gaveUp : Bool}
    (hwriter : writer (buffer.length - headerSize) = (s, body, gaveUp))
    (hfits : ∀ x ∈ body, x.Fits) (hlong : buffer.length - headerSize < sizes body)
    (hle : headerSize ≤ buffer.length) (hlt : buffer.length < 2 ^ 64) :
    Transport.imbueAt (ended pin [] buffer) writer = none := by
  have hstub : stub (ended pin [] buffer) =
      some ⟨heading pin, Section.stub (buffer.drop headerSize)⟩ := by
    have hfull : (ended pin [] buffer).length < 2 ^ 64 := by
      rw [length_ended (l := []) hle]
      exact hlt
    have h := stub_ended (l := []) (length_heading pin) (fun x hx => absurd hx List.not_mem_nil)
      hfull
    rw [Section.encodeAll_nil, List.append_nil] at h
    exact h
  have hroom : (Section.stub (buffer.drop headerSize)).length = buffer.length - headerSize := by
    rw [Section.length_stub, List.length_drop]
  unfold Transport.imbueAt
  rw [hstub, Option.bind_eq_bind, Option.bind_some]
  dsimp only
  rw [hroom, hwriter]
  dsimp only
  rw [Cursor.puts_of_lt hfits (by rw [Section.length_encodeAll, hroom]; exact hlong)
    (by rw [hroom]; omega)]
  rfl

/-- A writer that never gives up ends the packet anew. -/
theorem imbueAt_ended_of_whole {σ : Type} (pin : Nat) (writer : Nat → σ × List Section) {s : σ}
    {body : List Section}
    (hwriter : writer (buffer.length - (headerSize + sizes l)) = (s, body))
    (hfits : ∀ x ∈ l ++ body, x.Fits) (hle : headerSize + sizes (l ++ body) ≤ buffer.length)
    (hlt : buffer.length < 2 ^ 64) :
    Transport.imbueAt (ended pin l buffer) (fun room => ((writer room).1, (writer room).2, false)) =
      some (s, ended pin (l ++ body) buffer) := by
  have hwhole : ((writer (buffer.length - (headerSize + sizes l))).1,
      (writer (buffer.length - (headerSize + sizes l))).2, false) = (s, body, false) := by
    rw [hwriter]
  exact imbueAt_ended pin (fun room => ((writer room).1, (writer room).2, false)) hwhole hfits hle
    hlt

/-- An ended packet is trimmed to its header and its sections. -/
theorem trim_ended_eq (hfits : ∀ x ∈ l, x.Fits) (hle : headerSize + sizes l ≤ buffer.length)
    (hlt : buffer.length < 2 ^ 64) :
    trim (ended pin l buffer) = some (heading pin ++ encodeAll l) :=
  trim_ended (length_heading pin) hfits (by rw [← ended, length_ended hle]; exact hlt)

/-- A packet that runs on into bytes of all ones is not trimmed: the scan takes them for a section
of 65535 bytes and leaves the buffer. -/
theorem trim_unended (hfits : ∀ x ∈ l, x.Fits) {size : Nat}
    (hle : headerSize + sizes l + Section.headerSize ≤ size) (hlt : size ≤ 65507) :
    trim (unended pin l (List.replicate size 255)) = none := by
  have hheader : headerSize = 16 := rfl
  have hsection : Section.headerSize = 4 := rfl
  have htail : (List.replicate size (255 : UInt8)).drop (headerSize + sizes l) =
      List.replicate (size - (headerSize + sizes l)) 255 := List.drop_replicate
  have hlen : (unended pin l (List.replicate size 255)).length = size := by
    rw [unended, htail, List.length_append, List.length_append, length_heading,
      Section.length_encodeAll, List.length_replicate]
    omega
  have hshort : (heading pin ++ (encodeAll l ++
      List.replicate (size - (headerSize + sizes l)) 255)).length < 2 ^ 64 := by
    rw [← htail, ← unended, hlen]
    omega
  obtain ⟨f, hf, hstub⟩ := stub_eq (length_heading pin) hfits hshort
  have hfield : ∀ pos, pos + 2 ≤ 4 → Buffer.getBE
      (List.replicate (size - (headerSize + sizes l)) (255 : UInt8)) pos 2 = some 65535 := by
    intro pos hpos
    rw [Buffer.getBE_of_le (by rw [List.length_replicate]; omega), List.drop_replicate,
      List.take_replicate, Nat.min_eq_left (by omega)]
    rfl
  have hscan : Cursor.scan f ⟨heading pin ++ encodeAll l,
      List.replicate (size - (headerSize + sizes l)) 255⟩ = none := by
    cases f with
    | zero => omega
    | succ f =>
      have hin : Section.headerSize ≤
          (List.replicate (size - (headerSize + sizes l)) (255 : UInt8)).length := by
        rw [List.length_replicate]
        omega
      have htype : Section.type (List.replicate (size - (headerSize + sizes l)) 255) =
          some 65535 := by
        rw [Section.type, if_pos hin, hfield 0 (by omega)]
      have hlength : Section.length (List.replicate (size - (headerSize + sizes l)) 255) =
          some 65535 := by
        rw [Section.length, if_pos hin, hfield 2 (by omega)]
      have hcrop : Buffer.crop (List.replicate (size - (headerSize + sizes l)) (255 : UInt8))
          (wadd Section.headerSize 65535) = none := by
        rw [Buffer.crop, if_pos]
        rw [List.length_replicate, show wadd Section.headerSize 65535 = 65539 by decide]
        omega
      simp [Cursor.scan, htype, hlength, Cursor.crop, hcrop]
  rw [trim, unended, htail, hstub, hscan]
  rfl

/-- The fields of a packet's header, read back. -/
theorem heading_fields (hpin : pin < 2 ^ 32) {rest : Bytes} (hrest : rest ≠ []) :
    sign (heading pin ++ rest) = some packetSign ∧
      version (heading pin ++ rest) = some packetVersion ∧
      Datagram.pin (heading pin ++ rest) = some pin := by
  have hlt : headerSize < (heading pin ++ rest).length := by
    rw [List.length_append, length_heading]
    exact Nat.lt_add_of_pos_right (List.length_pos_iff.mpr hrest)
  rw [sign, version, Datagram.pin, if_pos hlt, if_pos hlt, if_pos hlt]
  simp only [heading, List.append_assoc]
  refine ⟨Buffer.getBE_append _ (length_toBE 8 0) (by decide), ?_, ?_⟩
  · rw [← List.append_assoc]
    exact Buffer.getBE_append _ (by simp) (by decide)
  · rw [← List.append_assoc, ← List.append_assoc]
    exact Buffer.getBE_append _ (by simp) hpin

end Datagram

/-! ## A round -/

namespace Transport

open Datagram (ended unended)

variable {q : Qos} {t : Transport}

/-- The room for the sections of a packet. -/
def room (t : Transport) : Nat := t.qos.maxPacketSize - Datagram.headerSize

/-- The connector writes a ping beyond the end of the packet. -/
def overruns (k : Clock) (t : Transport) : Bool :=
  t.connector.overruns t.qos k.connector t.room

/-- The sending half gets to write, and gives up behind a snippet it has written. -/
def spoils (k : Clock) (t : Transport) : Bool :=
  (t.connector.statusNext t.qos k.connector t.room).speaks &&
    t.ostreamer.spoils t.qos k.ostreamer t.connector.resend
      (t.istreamer.leaves k.istreamer (t.connector.leaves t.qos k.connector t.room))

/-- The sections of a round. -/
def written (k : Clock) (t : Transport) : List Section := (t.imbue k t.room).2.1

/-- The channel after a round. -/
def after (k : Clock) (t : Transport) : Transport := (t.imbue k t.room).1

section Emit

variable {k : Clock} {buffer : Bytes} {c : Connector} {first second third : List Section}

/-- The bytes of a round in which the connector alone writes. -/
theorem emit_of_silent
    (hfirst : t.connector.imbue t.qos k.connector (buffer.length - Datagram.headerSize) =
      (c, first)) (hspeaks : c.status.speaks = false) (hfits : ∀ s ∈ first, s.Fits)
    (hmin : Datagram.headerSize + Section.headerSize ≤ buffer.length)
    (hle : Datagram.headerSize + sizes first ≤ buffer.length) (hlt : buffer.length < 2 ^ 64) :
    t.emit k buffer = (Datagram.trim (ended t.connector.localPin first buffer)).map
      ({ t with connector := c }, ·) := by
  have hone := Datagram.imbueAt_ended_of_whole t.connector.localPin (l := [])
    (fun room => t.connector.imbue t.qos k.connector room) hfirst hfits hle hlt
  unfold emit
  rw [Datagram.header_eq _ hmin, Option.bind_eq_bind, Option.bind_some]
  dsimp only
  rw [show Datagram.heading t.connector.localPin ++ Section.stub (buffer.drop Datagram.headerSize)
    = ended t.connector.localPin [] buffer from rfl, hone, Option.bind_eq_bind, Option.bind_some]
  dsimp only
  rw [if_neg (by rw [hspeaks]; decide), Option.map_eq_bind]
  rfl

/-- The bytes of a round in which all three write. -/
theorem emit_of_speaks {i : Istreamer} {o : Ostreamer} {gaveUp : Bool}
    (hfirst : t.connector.imbue t.qos k.connector (buffer.length - Datagram.headerSize) =
      (c, first)) (hspeaks : c.status.speaks = true)
    (hsecond : t.istreamer.imbue k.istreamer c.resend
      (buffer.length - Datagram.headerSize - sizes first) = (i, second))
    (hthird : t.ostreamer.imbue t.qos k.ostreamer c.resend
      (buffer.length - Datagram.headerSize - sizes first - sizes second) = (o, third, gaveUp))
    (hfits : ∀ s ∈ first ++ second ++ third, s.Fits)
    (hmin : Datagram.headerSize + Section.headerSize ≤ buffer.length)
    (hle : Datagram.headerSize + sizes (first ++ second ++ third) ≤ buffer.length)
    (hlt : buffer.length < 2 ^ 64) :
    t.emit k buffer = (Datagram.trim (if gaveUp && !third.isEmpty then
        unended t.connector.localPin (first ++ second ++ third) buffer
      else ended t.connector.localPin (first ++ second ++ third) buffer)).map
      ({ t with connector := c, istreamer := i, ostreamer := o }, ·) := by
  have hsum : sizes (first ++ second ++ third) = sizes first + sizes second + sizes third := by
    rw [sizes_append, sizes_append]
  have hpair : ∀ s ∈ first ++ second, s.Fits := fun s hs => hfits s (List.mem_append_left _ hs)
  have hone := Datagram.imbueAt_ended_of_whole t.connector.localPin (l := [])
    (fun room => t.connector.imbue t.qos k.connector room) hfirst
    (fun s hs => hpair s (List.mem_append_left _ hs)) (by rw [List.nil_append]; omega) hlt
  have htwo := Datagram.imbueAt_ended_of_whole t.connector.localPin (l := first)
    (fun room => t.istreamer.imbue k.istreamer c.resend room)
    (by rw [← Nat.sub_sub, hsecond]) hpair (by rw [sizes_append]; omega) hlt
  have hthree := Datagram.imbueAt_ended t.connector.localPin (l := first ++ second)
    (fun room => t.ostreamer.imbue t.qos k.ostreamer c.resend room)
    (by rw [sizes_append, ← Nat.sub_sub, ← Nat.sub_sub, hthird]) hfits hle hlt
  unfold emit
  rw [Datagram.header_eq _ hmin, Option.bind_eq_bind, Option.bind_some]
  dsimp only
  rw [show Datagram.heading t.connector.localPin ++ Section.stub (buffer.drop Datagram.headerSize)
    = ended t.connector.localPin [] buffer from rfl, hone, Option.bind_eq_bind, Option.bind_some]
  dsimp only
  rw [if_pos hspeaks, List.nil_append, htwo, Option.bind_eq_bind, Option.bind_some]
  dsimp only
  rw [hthree, Option.bind_eq_bind, Option.bind_some, Option.map_eq_bind]
  rfl

end Emit

/-- The bytes of a round in which the connector overruns the packet. -/
theorem emit_of_overruns (k : Clock) (hmin : 56 ≤ t.qos.maxPacketSize)
    (hmax : t.qos.maxPacketSize ≤ 65507) (hover : t.overruns k = true) {buffer : Bytes}
    (hbuffer : buffer.length = t.qos.maxPacketSize) : t.emit k buffer = none := by
  have hheader : Datagram.headerSize = 16 := rfl
  have hsection : Section.headerSize = 4 := rfl
  have hroom : t.room = buffer.length - Datagram.headerSize := by rw [hbuffer]; rfl
  obtain ⟨-, hfit, -⟩ := Connector.imbue_eq (c := t.connector) t.qos k.connector
    (show 40 ≤ t.room by rw [hroom]; omega)
  have hlong : t.room < sizes (t.connector.imbue t.qos k.connector t.room).2 := by
    refine Nat.not_le.mp fun hle => ?_
    rw [overruns, hfit.mp hle] at hover
    cases hover
  have hfits := t.connector.imbue_fits t.qos k.connector t.room
  rw [hroom] at hlong hfits
  unfold emit
  rw [Datagram.header_eq _ (by omega), Option.bind_eq_bind, Option.bind_some]
  dsimp only
  rw [show Datagram.heading t.connector.localPin ++ Section.stub (buffer.drop Datagram.headerSize)
    = ended t.connector.localPin [] buffer from rfl,
    Datagram.imbueAt_of_lt t.connector.localPin
      (fun room => ((t.connector.imbue t.qos k.connector room).1,
        (t.connector.imbue t.qos k.connector room).2, false)) rfl hfits hlong (by omega) (by omega)]
  rfl

/-- A round that does not overrun its packet stays within it. -/
theorem sizes_written_le (k : Clock) (hfit : t.overruns k = false)
    (hmin : 56 ≤ t.qos.maxPacketSize) :
    Datagram.headerSize + sizes (t.written k) ≤ t.qos.maxPacketSize := by
  have hheader : Datagram.headerSize = 16 := rfl
  have hroom : t.room = t.qos.maxPacketSize - Datagram.headerSize := rfl
  obtain ⟨-, hover, -⟩ := Connector.imbue_eq (c := t.connector) t.qos k.connector
    (show 40 ≤ t.room by omega)
  have hfirst := hover.mpr hfit
  unfold written imbue
  rcases hfirst' : t.connector.imbue t.qos k.connector t.room with ⟨c, first⟩
  rw [hfirst'] at hfirst
  dsimp only at hfirst ⊢
  split
  · generalize hfree : t.room - sizes first = room₁
    have hsecond := t.istreamer.imbue_room k.istreamer c.resend room₁
    rcases hsecond' : t.istreamer.imbue k.istreamer c.resend room₁ with ⟨i, second⟩
    rw [hsecond'] at hsecond
    dsimp only at hsecond ⊢
    have hthird := (t.ostreamer.imbue_room t.qos k.ostreamer c.resend (room₁ - sizes second)).1
    rcases hthird' : t.ostreamer.imbue t.qos k.ostreamer c.resend (room₁ - sizes second)
      with ⟨o, third, gaveUp⟩
    rw [hthird'] at hthird
    dsimp only at hthird ⊢
    rw [sizes_append, sizes_append]
    omega
  · dsimp only
    omega

/-- The numbers that a round writes have 64 bits. -/
theorem written_word (k : Clock) (hi : t.istreamer.Numbered) (ho : t.ostreamer.Numbered) :
    ∀ s ∈ t.written k, s.Word := by
  have hfirst : ∀ s ∈ (t.connector.imbue t.qos k.connector t.room).2, s.Word :=
    fun s hs => (t.connector.imbue_fits t.qos k.connector t.room s hs).word
  unfold written imbue
  dsimp only
  split
  · intro s hs
    simp only [List.mem_append] at hs
    rcases hs with (hs | hs) | hs
    · exact hfirst s hs
    · exact hi.imbue_word _ _ _ s hs
    · exact (ho.imbue _ _ _ _).2 s hs
  · exact hfirst

/-- A round that does not overrun the packet writes sections that fit together into its buffer, and
ends the packet behind them unless it spoils it. -/
theorem emit_eq (k : Clock) (hfit : t.overruns k = false) (hi : t.istreamer.Numbered)
    (ho : t.ostreamer.Numbered) (hmin : 56 ≤ t.qos.maxPacketSize)
    (hmax : t.qos.maxPacketSize ≤ 65507) :
    (∀ s ∈ t.written k, s.Fits) ∧
      Datagram.headerSize + sizes (t.written k) ≤ t.qos.maxPacketSize ∧
      (t.spoils k = true → Datagram.headerSize + sizes (t.written k) + Section.headerSize ≤
        t.qos.maxPacketSize) ∧
      ∀ buffer : Bytes, buffer.length = t.qos.maxPacketSize → t.emit k buffer =
        (Datagram.trim (if t.spoils k then unended t.connector.localPin (t.written k) buffer
          else ended t.connector.localPin (t.written k) buffer)).map (t.after k, ·) := by
  have hheader : Datagram.headerSize = 16 := rfl
  have hsection : Section.headerSize = 4 := rfl
  have hoverhead : overhead = 12 := rfl
  have hroom : t.room = t.qos.maxPacketSize - Datagram.headerSize := rfl
  have hle := sizes_written_le k hfit hmin
  have hall : ∀ s ∈ t.written k, s.Fits := by
    intro s hs
    have hsize := size_le_sizes hs
    exact (written_word k hi ho s hs).fits (by omega)
  refine ⟨hall, hle, ?_⟩
  obtain ⟨hstatus, -, hleft₁⟩ := Connector.imbue_eq (c := t.connector) t.qos k.connector
    (show 40 ≤ t.room by omega)
  have hresend := (t.connector.imbue_keeps t.qos k.connector t.room).2.2
  unfold written imbue at hle hall
  unfold written after spoils imbue
  rw [← hstatus, ← hleft₁]
  rcases hfirst : t.connector.imbue t.qos k.connector t.room with ⟨c, first⟩
  rw [hfirst] at hresend hle hall
  dsimp only at hresend hle hall ⊢
  cases hspeaks : c.status.speaks with
  | false =>
    rw [hspeaks, if_neg (by decide)] at hle hall
    rw [if_neg (by decide)]
    dsimp only [Bool.false_and] at hle hall ⊢
    refine ⟨fun h => (by cases h), fun buffer hbuffer => ?_⟩
    exact emit_of_silent (by rw [hbuffer, ← hroom, hfirst]) hspeaks hall (by omega) (by omega)
      (by omega)
  | true =>
    rw [hspeaks, if_pos rfl] at hle hall
    rw [if_pos rfl, Bool.true_and, ← hresend]
    generalize hfree : t.room - sizes first = room₁ at hle hall ⊢
    have hroom₂ := t.istreamer.imbue_room k.istreamer c.resend room₁
    rcases hsecond : t.istreamer.imbue k.istreamer c.resend room₁ with ⟨i, second⟩
    rw [hsecond] at hroom₂ hle hall
    dsimp only at hroom₂ hle hall ⊢
    rw [show t.istreamer.leaves k.istreamer room₁ = room₁ - sizes second by omega]
    obtain ⟨-, hspoils, hleft⟩ := t.ostreamer.imbue_room t.qos k.ostreamer c.resend
      (room₁ - sizes second)
    rcases hthird : t.ostreamer.imbue t.qos k.ostreamer c.resend (room₁ - sizes second)
      with ⟨o, third, gaveUp⟩
    rw [hthird] at hspoils hleft hle hall
    dsimp only at hspoils hleft hle hall ⊢
    refine ⟨fun h => ?_, fun buffer hbuffer => ?_⟩
    · rw [← hspoils] at h
      have hmore := hleft (Bool.and_eq_true_iff.mp h).1
      rw [sizes_append, sizes_append] at hle ⊢
      omega
    · rw [← hspoils]
      exact emit_of_speaks (by rw [hbuffer, ← hroom, hfirst]) hspeaks
        (by rw [hbuffer, ← hroom, hfree, hsecond]) (by rw [hbuffer, ← hroom, hfree, hthird]) hall
        (by omega) (by rw [hbuffer]; exact hle) (by omega)

/-- A channel that is fed the bytes of a packet is fed the packet. -/
theorem feedBytes_pack (u : Transport) (now : Time) {pin : Nat} (hpin : pin < 2 ^ 32)
    {l : List Section} (hne : l ≠ []) (hfits : ∀ s ∈ l, s.Fits)
    (hlt : Datagram.headerSize + sizes l < 2 ^ 64) :
    u.feedBytes now (Datagram.heading pin ++ Section.encodeAll l) = u.feed now ⟨pin, l⟩ := by
  have hlen : (Section.encodeAll l).length = sizes l := Section.length_encodeAll l
  have hbytes : Section.encodeAll l ≠ [] := by
    obtain ⟨s, hs⟩ := List.exists_mem_of_ne_nil l hne
    have hsize := size_le_sizes hs
    have hpos := s.headerSize_le_size
    intro hnil
    rw [hnil, List.length_nil] at hlen
    exact absurd (hpos.trans hsize) (by rw [← hlen]; decide)
  have hsize : (Datagram.heading pin ++ Section.encodeAll l).length =
      Datagram.headerSize + sizes l := by
    rw [List.length_append, Datagram.length_heading, hlen]
  have hlong : Datagram.headerSize < (Datagram.heading pin ++ Section.encodeAll l).length := by
    rw [List.length_append, Datagram.length_heading]
    exact Nat.lt_add_of_pos_right (List.length_pos_iff.mpr hbytes)
  obtain ⟨hsign, hversion, hpinned⟩ := Datagram.heading_fields hpin hbytes
  have hvalid : u.connector.valid (Datagram.heading pin ++ Section.encodeAll l) =
      some (u.connector.admits pin) := by
    simp only [Connector.valid, hsign, hversion, hpinned, decide_eq_true hlong, Option.bind_eq_bind,
      Option.bind_some, Option.pure_def, decide_true, Bool.true_and]
  have hbody : Datagram.body (Datagram.heading pin ++ Section.encodeAll l) =
      some (Section.encodeAll l) := by
    rw [Datagram.body_of_le (by rw [hsize]; exact hlt) hlong.le,
      List.drop_left' (Datagram.length_heading _)]
  have hsections : Section.sections (Section.encodeAll l) = some l :=
    Section.walk_encodeAll hfits (by omega) (Nat.lt_succ_self _)
  unfold feedBytes
  rw [if_neg (Nat.not_lt.mpr hlong.le), hvalid]
  cases hadmits : u.connector.admits pin with
  | false => simp [feed, hadmits]
  | true => simp [hbody, hsections, hpinned]

/-- A round whose sections fit sends them. -/
theorem produce_of_le (k : Clock) (hfin : t.connector.status ≠ .finished)
    (hmin : 56 ≤ t.qos.maxPacketSize)
    (hle : Datagram.headerSize + sizes (t.written k) ≤ t.qos.maxPacketSize) :
    t.produce k = some (t.after k,
      if (t.written k).isEmpty then none else some ⟨t.connector.localPin, t.written k⟩) := by
  have hheader : Datagram.headerSize = 16 := rfl
  have hsection : Section.headerSize = 4 := rfl
  have hroom : ¬ (t.qos.maxPacketSize < Datagram.headerSize + Section.headerSize ∨
      t.qos.maxPacketSize - Datagram.headerSize < sizes (t.written k)) := by
    omega
  rw [produce, if_neg hfin]
  exact if_neg hroom

/-- The two levels of a round agree. Unless the round overruns or spoils its packet, the bytes that
`emit` gives are those of the packet that `produce` sends, whatever the buffer held before, and to
feed them to a channel is to feed it the packet. -/
theorem emit_produce (h : (system q).Reaches (fun _ e => e.Carried) t)
    (hmin : 56 ≤ q.maxPacketSize) (hmax : q.maxPacketSize ≤ 65507) (k : Clock)
    (hfit : t.overruns k = false) (hpin : t.connector.localPin < 2 ^ 32)
    (hfin : t.connector.status ≠ .finished) (hspoils : t.spoils k = false) {buffer : Bytes}
    (hbuffer : buffer.length = q.maxPacketSize) :
    ∃ p, t.emit k buffer = some (t.after k, p) ∧
      ((p.length = Datagram.headerSize ∧ t.produce k = some (t.after k, none)) ∨
        ∃ packet, t.produce k = some (t.after k, some packet) ∧
          ∀ (u : Transport) (now : Time), u.feedBytes now p = u.feed now packet) := by
  obtain ⟨hq, hi, ho⟩ := Reaches.numbered h
  subst hq
  obtain ⟨hfits, hle, _, hemit⟩ := emit_eq k hfit hi ho hmin hmax
  have hheader : Datagram.headerSize = 16 := rfl
  have hsection : Section.headerSize = 4 := rfl
  have hproduce := produce_of_le k hfin hmin hle
  refine ⟨Datagram.heading t.connector.localPin ++ Section.encodeAll (t.written k), ?_, ?_⟩
  · rw [hemit buffer hbuffer, hspoils, if_neg (by decide),
      Datagram.trim_ended_eq hfits (by rw [hbuffer]; exact hle) (by omega)]
    rfl
  · rw [hproduce]
    cases hwritten : t.written k with
    | nil =>
      refine .inl ⟨?_, rfl⟩
      rw [Section.encodeAll_nil, List.append_nil, Datagram.length_heading]
    | cons s rest =>
      rw [← hwritten]
      refine .inr ⟨⟨t.connector.localPin, t.written k⟩, ?_, fun u now => ?_⟩
      · rw [hwritten]
        rfl
      · exact u.feedBytes_pack now hpin (by rw [hwritten]; exact List.cons_ne_nil _ _) hfits
          (by omega)

/-- The channel with another resend interval. -/
def repeating (r : Int) (t : Transport) : Transport :=
  { t with connector := { t.connector with resend := r } }

/-- Whatever the buffer held before: the round throws nothing, and the body of its packet is what
was written in this round, byte for byte and section for section, if and only if the connector does
not write a ping beyond the end of the packet and the sending half does not give up behind a snippet
it has written. -/
theorem emit_iff (h : (system q).Reaches (fun _ e => e.Carried) t) (hmin : 56 ≤ q.maxPacketSize)
    (hmax : q.maxPacketSize ≤ 65507) (k : Clock) (r : Int) :
    (∀ buffer : Bytes, buffer.length = q.maxPacketSize → ∃ p b,
      (t.repeating r).emit k buffer = some ((t.repeating r).after k, p) ∧
        Datagram.body p = some b ∧ b = Section.encodeAll ((t.repeating r).written k) ∧
        Section.sections b = some ((t.repeating r).written k)) ↔
      (t.repeating r).overruns k = false ∧ (t.repeating r).spoils k = false := by
  obtain ⟨hq, hi, ho⟩ := Reaches.numbered h
  subst hq
  have hheader : Datagram.headerSize = 16 := rfl
  have hqos : (t.repeating r).qos = t.qos := rfl
  have hlen := Section.length_encodeAll ((t.repeating r).written k)
  have hlong : (List.replicate t.qos.maxPacketSize (255 : UInt8)).length = t.qos.maxPacketSize :=
    List.length_replicate
  constructor
  · intro hall
    obtain ⟨p, b, hsome, -⟩ := hall _ hlong
    cases hover : (t.repeating r).overruns k with
    | true =>
      rw [emit_of_overruns (t := t.repeating r) k hmin hmax hover hlong] at hsome
      cases hsome
    | false =>
      obtain ⟨hfits, -, hleft, hemit⟩ := emit_eq (t := t.repeating r) k hover hi ho hmin hmax
      rw [hqos] at hleft hemit
      cases hspoils : (t.repeating r).spoils k with
      | false => exact ⟨rfl, rfl⟩
      | true =>
        rw [hemit _ hlong, hspoils, if_pos rfl,
          Datagram.trim_unended hfits (hleft hspoils) hmax] at hsome
        cases hsome
  · rintro ⟨hover, hspoils⟩ buffer hbuffer
    obtain ⟨hfits, hle, -, hemit⟩ := emit_eq (t := t.repeating r) k hover hi ho hmin hmax
    rw [hqos] at hle hemit
    refine ⟨Datagram.heading (t.repeating r).connector.localPin ++
      Section.encodeAll ((t.repeating r).written k), _, ?_, ?_, rfl,
      Section.walk_encodeAll hfits ?_ (Nat.lt_succ_self _)⟩
    · rw [hemit buffer hbuffer, hspoils, if_neg (by decide),
        Datagram.trim_ended_eq hfits (by rw [hbuffer]; exact hle) (by omega)]
      rfl
    · have hsize : (Datagram.heading (t.repeating r).connector.localPin ++
          Section.encodeAll ((t.repeating r).written k)).length =
          Datagram.headerSize + sizes ((t.repeating r).written k) := by
        rw [List.length_append, Datagram.length_heading, hlen]
      rw [Datagram.body_of_le (by omega) (by omega),
        List.drop_left' (Datagram.length_heading _)]
    · omega

/-- The smallest packets, and flights that are sent twice. -/
def tight : Qos := { Qos.default with maxPacketSize := 56, moveAttempts := 2 }

/-- A channel connects, and sends a byte and, once it knows of a shorter resend interval, another
one. -/
def twoBytes : List Event :=
  [.openAt, .connect 1 1 1 .success, .produce ⟨2, 2, 2⟩, .feed 3 ⟨7, [.linkEcho, .edge 1000]⟩,
    .write [1] 8, .produce ⟨4, 4, 4⟩, .feed 6 ⟨7, [.pingEcho 4]⟩, .write [2] 9,
    .produce ⟨10, 10, 10⟩]

theorem twoBytes_carried {e : Event} (h : e ∈ twoBytes) : e.Carried := by
  simp only [twoBytes, List.mem_cons, List.not_mem_nil, or_false] at h
  rcases h with rfl | rfl | rfl | rfl | rfl | rfl | rfl | rfl | rfl
  case inr.inr.inr.inl => exact ⟨Section.encodeAll [.linkEcho, .edge 1000], by decide⟩
  case inr.inr.inr.inr.inr.inr.inl => exact ⟨Section.encodeAll [.pingEcho 4], by decide⟩
  all_goals trivial

/-- The second byte is due before the first one, and goes out alone. -/
theorem emit_iff_second :
    ∃ t, (system tight).Reaches (fun _ e => e.Carried) t ∧
      (t.repeating 10000).written ⟨10015, 10015, 10015⟩ = [.move 1 [2]] ∧
      ∀ buffer : Bytes, buffer.length = 56 → ∃ p b,
        (t.repeating 10000).emit ⟨10015, 10015, 10015⟩ buffer =
            some ((t.repeating 10000).after ⟨10015, 10015, 10015⟩, p) ∧
          Datagram.body p = some b ∧
          b = Section.encodeAll ((t.repeating 10000).written ⟨10015, 10015, 10015⟩) ∧
          Section.sections b = some ((t.repeating 10000).written ⟨10015, 10015, 10015⟩) := by
  have hrun : ((system tight).run (create tight) twoBytes).map (fun t =>
      ((t.repeating 10000).written ⟨10015, 10015, 10015⟩,
        (t.repeating 10000).overruns ⟨10015, 10015, 10015⟩,
        (t.repeating 10000).spoils ⟨10015, 10015, 10015⟩)) =
      some ([.move 1 [2]], false, false) := by
    decide +kernel
  obtain ⟨t, ht, hv⟩ := Option.map_eq_some_iff.mp hrun
  obtain ⟨hwritten, hrest⟩ := Prod.mk.inj hv
  have hreach : (system tight).Reaches (fun _ e => e.Carried) t :=
    System.Reaches.run twoBytes (.start rfl) (fun _ _ he => twoBytes_carried he) ht
  refine ⟨t, hreach, hwritten, ?_⟩
  exact (emit_iff hreach (by decide) (by decide) ⟨10015, 10015, 10015⟩ 10000).mpr
    (Prod.mk.inj hrest)

/-- The second byte has been sent twice when both are due: the first one is sent again, the round
gives up at the second one, and the scan for the end of the packet runs into the old bytes and out
of the buffer. -/
theorem emit_spoiled :
    ∃ t, (system tight).Reaches (fun _ e => e.Carried) t ∧ t.connector.status = .linked ∧
      0 < t.connector.resend ∧
      t.written ⟨100010, 100010, 100010⟩ = [.edge 5242880, .move 0 [1]] ∧
      t.emit ⟨100010, 100010, 100010⟩ (List.replicate 56 255) = none := by
  have hrun : ((system tight).run (create tight)
      (twoBytes ++ [.produce ⟨10015, 10015, 10015⟩])).map (fun t =>
        decide (t.connector.status = .linked ∧ 0 < t.connector.resend ∧
          t.written ⟨100010, 100010, 100010⟩ = [.edge 5242880, .move 0 [1]] ∧
          (t.emit ⟨100010, 100010, 100010⟩ (List.replicate 56 255)).isNone = true)) =
      some true := by
    decide +kernel
  obtain ⟨t, ht, hv⟩ := Option.map_eq_some_iff.mp hrun
  obtain ⟨hlinked, hresend, hwritten, hnone⟩ := of_decide_eq_true hv
  have hreach : (system tight).Reaches (fun _ e => e.Carried) t := by
    refine System.Reaches.run _ (.start rfl) (fun _ e he => ?_) ht
    rcases List.mem_append.mp he with he | he
    · exact twoBytes_carried he
    · rw [List.mem_singleton.mp he]
      trivial
  exact ⟨t, hreach, hlinked, hresend, hwritten, Option.isNone_iff_eq_none.mp hnone⟩

end Transport

end Tubus.Udp
