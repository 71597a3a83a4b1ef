import Tubus.Laws.Connector
import Tubus.Laws.Delivery
import Tubus.Laws.Emission
import Tubus.Laws.Obfuscation
import Tubus.Laws.Produce
import Tubus.Udp.Wire

/-!
# The wire carries a session

Two channels that exchange datagrams go through a run of a session (`refines`): every datagram on
its way holds a packet that the session has on its way, and a datagram that is shown and fed does
what the packet does. So the results about sessions hold of the bytes on the wire, of the reused
packet buffer and of the loops that drive the channels (`bytes_in_order`).

This needs rounds that the packet format can carry, `Producer.Event.Clean`: the round writes no ping
beyond the end of its packet and does not give up behind what it wrote, and the salt is not the
secret.
-/

namespace Tubus.Udp

open Lib
open Transport (sizes)

/-! ## A datagram that holds a packet -/

/-- A datagram that holds a packet, hidden under some salt. -/
structure Carries (e : Endian) (secret : UInt64) (d : Bytes) (p : Packet) : Prop where
  pin : p.pin < 2 ^ 32
  body : p.body ≠ []
  fits : ∀ s ∈ p.body, s.Fits
  size : Datagram.headerSize + sizes p.body ≤ 65507
  bytes : ∃ drawn, (secret = 0 ∨ drawn ≠ secret) ∧
    d = Datagram.veiled e secret drawn (Datagram.heading p.pin ++ Section.encodeAll p.body)

namespace Carries

variable {e : Endian} {secret : UInt64} {d : Bytes} {p : Packet}

theorem length_veiled (e : Endian) (secret drawn : UInt64) {pack : Bytes} (h : 8 ≤ pack.length) :
    (Datagram.veiled e secret drawn pack).length = pack.length := by
  unfold Datagram.veiled
  split
  · rfl
  · exact Receiver.length_invert e secret drawn h

theorem length_pack (p : Packet) :
    (Datagram.heading p.pin ++ Section.encodeAll p.body).length =
      Datagram.headerSize + sizes p.body := by
  rw [List.length_append, Datagram.length_heading, Section.length_encodeAll]

/-- The datagram is shown again, whatever salt would be drawn. -/
theorem shown (c : Carries e secret d p) (drawn : UInt64) :
    Datagram.veiled e secret drawn d =
      Datagram.heading p.pin ++ Section.encodeAll p.body := by
  obtain ⟨salt, hsalt, rfl⟩ := c.bytes
  unfold Datagram.veiled
  split
  · rfl
  · next hsecret =>
    refine Datagram.invert_invert e secret salt drawn _ (hsalt.resolve_left hsecret) ?_
    rw [Datagram.heading, List.append_assoc, List.append_assoc, List.append_assoc,
      List.take_left' (length_toBE 8 0)]
    rfl

theorem length (c : Carries e secret d p) : d.length = Datagram.headerSize + sizes p.body := by
  obtain ⟨salt, _, rfl⟩ := c.bytes
  rw [length_veiled e secret salt (by rw [length_pack]; exact Nat.le_add_right_of_le (by decide)),
    length_pack]

/-- The channel tests the packet's pin. -/
theorem valid (c : Carries e secret d p) (k : Connector) :
    k.valid (Datagram.heading p.pin ++ Section.encodeAll p.body) = some (k.admits p.pin) := by
  have hbytes : Section.encodeAll p.body ≠ [] := by
    obtain ⟨s, hs⟩ := List.exists_mem_of_ne_nil _ c.body
    have hpos := Nat.le_trans s.headerSize_le_size (Transport.size_le_sizes hs)
    rw [← Section.length_encodeAll] at hpos
    exact List.ne_nil_of_length_pos (Nat.lt_of_lt_of_le (by decide) hpos)
  have hlong : Datagram.headerSize <
      (Datagram.heading p.pin ++ Section.encodeAll p.body).length := by
    rw [List.length_append, Datagram.length_heading]
    exact Nat.lt_add_of_pos_right (List.length_pos_iff.mpr hbytes)
  obtain ⟨hsign, hversion, hpin⟩ := Datagram.heading_fields c.pin hbytes
  simp only [Connector.valid, hsign, hversion, hpin, decide_eq_true hlong, Option.bind_eq_bind,
    Option.bind_some, Option.pure_def, decide_true, Bool.true_and]

/-- The packet, read from bytes. -/
theorem carried (c : Carries e secret d p) (now : Time) : (Event.feed now p).Carried := by
  have hsize := c.size
  refine ⟨Section.encodeAll p.body, Section.walk_encodeAll c.fits ?_ (Nat.lt_succ_self _)⟩
  rw [Section.length_encodeAll]
  omega

/-- To feed the datagram is to feed the packet, and to end the wait if the packet is admitted. -/
theorem feed {x : Producer} (c : Carries e x.secret d p) (now : Time) (drawn : UInt64) :
    x.feed e now drawn d = (x.transport.feed now p).map fun t =>
      if x.transport.connector.admits p.pin then Producer.wake { x with transport := t }
      else { x with transport := t } := by
  have hsize := c.size
  have hlong : ¬ d.length < Datagram.headerSize := by
    rw [c.length]
    omega
  have hfeed := x.transport.feedBytes_pack now c.pin c.body c.fits (by omega)
  unfold Producer.feed
  rw [if_neg hlong, c.shown]
  dsimp only
  rw [hfeed, c.valid]
  cases x.transport.feed now p with
  | none => rfl
  | some t => cases x.transport.connector.admits p.pin <;> rfl

end Carries

/-! ## One channel -/

/-- Does a pin that comes with the event fit into its field of the header? -/
def Event.short : Event → Bool
  | .connect _ pin _ _ | .accept _ pin _ _ => decide (pin < 2 ^ 32)
  | .openAt | .shutdown _ _ | .mistake _ | .read _ _ | .write _ _ | .feed _ _ | .consume
  | .produce _ => true

theorem Event.short_of_call {ev : Event} (h : Producer.isCall ev = true) : ev.short = true := by
  cases ev with
  | connect | accept => exact decide_eq_true (Nat.lt_of_lt_of_le (of_decide_eq_true h) (by decide))
  | _ => rfl

/-- The pin of a channel is the one that came with its start. -/
theorem Connector.Turn.localPin {q : Qos} {c c' : Connector} {e : Event} (h : c.Turn q e c') :
    c'.localPin = c.localPin ∨ c'.localPin = 0 ∨ ∃ now pin k socket,
      (e = .connect now pin k socket ∨ e = .accept now pin k socket) ∧ c'.localPin = pin := by
  cases h with
  | connect now pin k socket hc =>
    exact .inr (.inr ⟨now, pin, k, socket, .inl rfl, by simp [Connector.connect, hc]⟩)
  | accept now pin k socket hc =>
    exact .inr (.inr ⟨now, pin, k, socket, .inr rfl, by simp [Connector.accept, hc]⟩)
  | shutdown now k => exact .inl (c.shutdown_pins q now k).1
  | error => exact .inr (.inl rfl)
  | parse now p => exact .inl (c.parse_localPin q now p)
  | imbue k room => exact .inl (c.imbue_keeps q k.connector room).1
  | quiet | init | refuse => exact .inl rfl

namespace Producer

variable {e : Endian} {q : Qos} {secret : UInt64} {x x' : Producer} {r : Round}

/-- The round that a completion may run can be carried by the packet format. -/
def Event.Clean (x : Producer) : Event → Prop
  | .completed _ _ _ r => x.transport.connector.status = .finished ∨
      x.transport.overruns r.clock = false ∧ x.transport.spoils r.clock = false ∧
        (x.secret = 0 ∨ r.drawn ≠ x.secret)
  | .call _ | .feed _ _ _ | .taken _ => True

instance (x : Producer) (ev : Event) : Decidable (ev.Clean x) :=
  match ev with
  | .completed _ _ _ _ => inferInstanceAs (Decidable (_ ∨ _ ∧ _ ∧ _))
  | .call _ | .feed _ _ _ | .taken _ => inferInstanceAs (Decidable True)

/-- A channel with its loop whose halves were fed with what was read from datagrams. -/
structure Fit (q : Qos) (secret : UInt64) (x : Producer) : Prop where
  alive : (Transport.system q).Reaches (fun _ ev => ev.Carried) x.transport
  pin : x.transport.connector.localPin < 2 ^ 32
  buffer : x.buffer.length = q.maxPacketSize
  secret_eq : x.secret = secret

/-- What one event does to the channel is what an event of a session does, or nothing. A packet that
is made holds what the session sends. -/
inductive Goes (e : Endian) (x x' : Producer) : Prop where
  | still (transport : x'.transport = x.transport) (made : x'.made = x.made)
  | acts (ev : Udp.Event) (out : Option Packet) (sound : ev.sound = true)
      (own : ev.incoming = false) (act : x.transport.act ev = some (x'.transport, out))
      (made : ∀ d ∈ x'.made, d ∈ x.made ∨ ∃ p, out = some p ∧ Carries e x.secret d p)

theorem Goes.of_ops {ops : List Producing} (g : Goes e { x with ops := ops } x') : Goes e x x' := by
  cases g with
  | still transport made => exact .still transport made
  | acts ev out sound own act made => exact .acts ev out sound own act made

/-- An event of the channel keeps it fit. -/
theorem Fit.act (f : Fit q secret x) (ev : Udp.Event) {out : Option Packet}
    (hsound : ev.sound = true) (hcarried : ev.Carried)
    (hshort : ev.short = true)
    (hact : x.transport.act ev = some (x'.transport, out))
    (hbuffer : x'.buffer.length = x.buffer.length) (hsecret : x'.secret = x.secret) :
    Fit q secret x' where
  alive := .next f.alive hcarried (by
    rw [Transport.system]
    dsimp only
    rw [if_pos hsound, hact, Option.map_some])
  pin := by
    rcases (Transport.act_turn hact).localPin with heq | heq | ⟨now, pin, k, socket, hev, heq⟩
    · rw [heq]
      exact f.pin
    · rw [heq]
      decide
    · rw [heq]
      rcases hev with rfl | rfl <;> exact of_decide_eq_true hshort
  buffer := hbuffer.trans f.buffer
  secret_eq := hsecret.trans f.secret_eq

/-- A round. -/
theorem Fit.produce (f : Fit q secret x) (hmin : 56 ≤ q.maxPacketSize)
    (hmax : q.maxPacketSize ≤ 65507) (hclean : x.transport.connector.status = .finished ∨
      x.transport.overruns r.clock = false ∧ x.transport.spoils r.clock = false ∧
        (x.secret = 0 ∨ r.drawn ≠ x.secret))
    (h : x.produce e r = some x') :
    Goes e x x' ∧ Fit q secret x' := by
  unfold Producer.produce at h
  split at h
  · next hfin =>
    cases h
    have hact : x.transport.act (.produce r.clock) =
        some (x.transport.abort .connectionAborted, none) := by
      rw [Transport.act, Transport.produce, if_pos hfin]
    exact ⟨.acts (.produce r.clock) none rfl rfl hact fun d hd => .inl hd,
      f.act (.produce r.clock) rfl trivial rfl hact rfl rfl⟩
  · next hlive =>
    obtain ⟨hfit, hspoils, hsalt⟩ := hclean.resolve_left hlive
    obtain ⟨hq, hi, ho⟩ := Transport.Reaches.numbered f.alive
    subst hq
    obtain ⟨hfits, hle, _, hemit⟩ := Transport.emit_eq r.clock hfit hi ho hmin hmax
    have hheader : Datagram.headerSize = 16 := rfl
    have hsection : Section.headerSize = 4 := rfl
    let p : Packet := ⟨x.transport.connector.localPin, x.transport.written r.clock⟩
    have hpack := Carries.length_pack p
    have hproduce : x.transport.act (.produce r.clock) = some (x.transport.after r.clock,
        if (x.transport.written r.clock).isEmpty then none else some p) := by
      rw [Transport.act, Transport.produce, if_neg hlive]
      refine if_neg ?_
      show ¬ (_ ∨ _ < sizes (x.transport.written r.clock))
      omega
    rw [hemit x.buffer f.buffer, hspoils, if_neg (by decide),
      Datagram.trim_ended_eq hfits (by rw [f.buffer]; exact hle) (by rw [f.buffer]; omega)] at h
    obtain ⟨⟨t, pack⟩, heq, h⟩ := Option.bind_eq_some_iff.mp h
    cases heq
    dsimp only at h
    split at h
    · cases h
    · next hrest =>
      have hrest := Decidable.not_not.mp hrest
      split at h
      · next hlong =>
        have hbody : x.transport.written r.clock ≠ [] := fun hc => by
          rw [hpack, show p.body = [] from hc, Transport.sizes_nil] at hlong
          exact absurd hlong (Nat.lt_irrefl _)
        rw [if_neg (by rwa [List.isEmpty_iff])] at hproduce
        have hlength : (Datagram.veiled e x.secret r.drawn
            (Datagram.heading p.pin ++ Section.encodeAll p.body)).length = _ :=
          Carries.length_veiled e x.secret r.drawn (by omega)
        cases h
        refine ⟨.acts (.produce r.clock) (some p) rfl rfl hproduce fun d hd => ?_,
          f.act (.produce r.clock) rfl trivial rfl hproduce ?_ rfl⟩
        · refine (List.mem_append.mp hd).imp_right fun hd => ⟨p, rfl, ?_⟩
          rw [List.mem_singleton.mp hd]
          exact ⟨f.pin, hbody, hfits, Nat.le_trans hle hmax, r.drawn, hsalt, rfl⟩
        · rw [List.length_append, hlength]
          exact hrest
      · next hshort =>
        have hbody : x.transport.written r.clock = [] := by
          by_contra hc
          obtain ⟨s, hs⟩ := List.exists_mem_of_ne_nil _ hc
          have hpos : 4 ≤ sizes p.body :=
            Nat.le_trans s.headerSize_le_size (Transport.size_le_sizes hs)
          exact hshort (by rw [hpack]; omega)
        rw [if_pos (by rw [hbody]; rfl)] at hproduce
        cases h
        exact ⟨.acts (.produce r.clock) none rfl rfl hproduce fun d hd => .inl hd,
          f.act (.produce r.clock) rfl trivial rfl hproduce
            (by rw [List.length_append]; exact hrest) rfl⟩

/-- An error. -/
theorem Fit.mistake (f : Fit q secret x) {ec : Ec} (hec : ec ≠ .success) :
    Goes e x (x.mistake ec) ∧ Fit q secret (x.mistake ec) := by
  have hact : x.transport.act (.mistake ec) = some ((x.mistake ec).transport, none) := rfl
  have hsound : (Udp.Event.mistake ec).sound = true := decide_eq_true hec
  exact ⟨.acts (.mistake ec) none hsound rfl hact fun d hd => .inl hd,
    f.act (.mistake ec) hsound trivial rfl hact rfl rfl⟩

/-- Anything but the arrival of a datagram. -/
theorem Fit.step (f : Fit q secret x) (hmin : 56 ≤ q.maxPacketSize)
    (hmax : q.maxPacketSize ≤ 65507) {ev : Event} (hclean : ev.Clean x)
    (hown : ev.incoming = false) (h : x.step e ev = some x') : Goes e x x' ∧ Fit q secret x' := by
  cases ev with
  | call ev =>
    obtain ⟨hev, h⟩ := Option.ite_none_right_eq_some.mp h
    obtain ⟨hsound, hcall⟩ := Bool.and_eq_true_iff.mp hev
    obtain ⟨⟨t, out⟩, hact, rfl⟩ := Option.map_eq_some_iff.mp h
    have hcarried : ev.Carried := by
      cases ev with
      | feed => cases hcall
      | _ => trivial
    have hlocal : ev.incoming = false := by
      cases ev with
      | feed => cases hcall
      | _ => rfl
    have hshort := Event.short_of_call hcall
    dsimp only
    split
    · exact ⟨.acts ev out hsound hlocal hact fun d hd => .inl hd,
        f.act ev hsound hcarried hshort hact rfl rfl⟩
    · split
      · exact ⟨.acts ev out hsound hlocal hact fun d hd => .inl hd,
          f.act ev hsound hcarried hshort hact rfl rfl⟩
      · exact ⟨.acts ev out hsound hlocal hact fun d hd => .inl hd,
          f.act ev hsound hcarried hshort hact rfl rfl⟩
  | feed => cases hown
  | taken place =>
    simp only [Producer.step] at h
    split at h
    · cases h
      exact ⟨.still rfl rfl, { f with }⟩
    all_goals cases h
  | completed place error size r =>
    simp only [Producer.step] at h
    split at h
    · next op hop =>
      have f₀ : Fit q secret { x with ops := x.ops.eraseIdx place } := { f with }
      have fails : ∀ ec, ec ≠ .success →
          some (Producer.mistake ec { x with ops := x.ops.eraseIdx place }) = some x' →
            Goes e x x' ∧ Fit q secret x' := by
        rintro ec hec heq
        cases heq
        exact (f₀.mistake hec).imp_left Goes.of_ops
      have goes : Producer.produce e r { x with ops := x.ops.eraseIdx place } = some x' →
          Goes e x x' ∧ Fit q secret x' := fun hp =>
        (f₀.produce hmin hmax hclean hp).imp_left Goes.of_ops
      cases op with
      | start => exact goes h
      | cancelled => exact goes h
      | sending n =>
        obtain ⟨hec, h⟩ := Option.ite_none_right_eq_some.mp h
        exact fails error hec h
      | sent n =>
        simp only [handler] at h
        split at h
        · next hec => exact fails error hec h
        · split at h
          · exact fails .messageSize (by decide) h
          · exact goes h
      | waiting since expiry =>
        simp only [handler] at h
        split at h
        · next hec => exact fails error hec h
        · split at h
          · exact goes h
          · cases h
    · cases h

/-- The arrival of a datagram that holds a packet. -/
theorem Fit.feed (f : Fit q secret x) {now : Time} {drawn : UInt64} {d : Bytes} {p : Packet}
    (c : Carries e secret d p) (h : x.feed e now drawn d = some x') :
    x.transport.act (.feed now p) = some (x'.transport, none) ∧ x'.made = x.made ∧
      Fit q secret x' := by
  have c₀ : Carries e x.secret d p := by rwa [f.secret_eq]
  rw [c₀.feed now drawn] at h
  obtain ⟨t, hfed, rfl⟩ := Option.map_eq_some_iff.mp h
  have hact : x.transport.act (.feed now p) = some (t, none) := by
    rw [Transport.act, hfed, Option.map_some]
  split
  · exact ⟨hact, rfl, f.act (.feed now p) rfl (c₀.carried now) rfl hact rfl rfl⟩
  · exact ⟨hact, rfl, f.act (.feed now p) rfl (c₀.carried now) rfl hact rfl rfl⟩

end Producer

/-! ## What does not throw -/

namespace Producer

variable {e : Endian} {q : Qos} {secret : UInt64} {x : Producer}

theorem Fit.readers_sound (f : Fit q secret x) : ∀ r ∈ x.transport.istreamer.readers, r.Sound :=
  Transport.readers_sound (f.alive.mono fun _ _ _ => trivial)

/-- A call of the user has a result. -/
theorem Fit.call_isSome (f : Fit q secret x) {ev : Udp.Event} (hsound : ev.sound = true)
    (hcall : isCall ev = true) : (x.call ev).isSome = true := by
  have hact : (x.transport.act ev).isSome = true := by
    cases ev with
    | read buffer k =>
      rw [Transport.act, Option.isSome_map, Transport.read]
      split
      · have hread : ∃ i', x.transport.istreamer.append buffer k = some i' := by
          apply Istreamer.transmit_isSome
          intro r hr
          rcases List.mem_append.mp hr with hr | hr
          · exact (f.readers_sound r hr).measured
          · rw [List.mem_singleton.mp hr]
            exact (Reader.Sound.create k (of_decide_eq_true hsound)).measured
        obtain ⟨i', hi'⟩ := hread
        rw [hi']
        rfl
      · rfl
    | feed | produce => cases hcall
    | _ => rfl
  rw [Producer.call, Option.isSome_map]
  exact hact

/-- A datagram of the peer has a result: no section of it is too short. -/
theorem Fit.feed_isSome (f : Fit q secret x) {d : Bytes} {p : Packet} (c : Carries e secret d p)
    (now : Time) (drawn : UInt64) : (x.feed e now drawn d).isSome = true := by
  have c₀ : Carries e x.secret d p := by rwa [f.secret_eq]
  have hopens : ∀ v, .runt v ∉ p.body := fun v hv => c.fits _ hv
  rw [c₀.feed now drawn, Option.isSome_map]
  cases hadmits : x.transport.connector.admits p.pin with
  | false =>
    rw [Transport.feed, hadmits]
    rfl
  | true =>
    refine (Transport.feed_isSome_iff now f.readers_sound (fun v hv => absurd hv (hopens v))
      hadmits).mpr ?_
    rintro ⟨_, before, v, after, hbody, _⟩
    exact hopens v (by rw [hbody]; simp)

end Producer

/-! ## Both channels -/

theorem Session.put_same (s : Session) (x : Side) : s.put x (s.chan x) none = s := by
  obtain ⟨chan, net⟩ := s
  simp only [put, Option.toList_none, List.append_nil, ite_self, Session.mk.injEq, and_true]
  ext y
  by_cases hy : y = x
  · rw [if_pos hy, hy]
  · rw [if_neg hy]

namespace Wire

open Producer (Fit Goes)

variable {e : Endian} {q : Side → Qos} {secret : UInt64} {w w' : Wire} {s : Session}

/-- The rounds of a run can be carried by the packet format. -/
def Clean (w : Wire) : Act → Prop
  | .node x ev => ev.Clean (w.node x)
  | .deliver _ _ _ _ | .lose _ _ => True

instance (w : Wire) (a : Act) : Decidable (w.Clean a) :=
  match a with
  | .node x ev => inferInstanceAs (Decidable (ev.Clean (w.node x)))
  | .deliver _ _ _ _ | .lose _ _ => inferInstanceAs (Decidable True)

/-- A session that is what happens on the wire: the same channels, and a packet on its way for every
datagram that was made and every datagram on its way. -/
structure Follows (e : Endian) (secret : UInt64) (w : Wire) (s : Session) : Prop where
  chan : ∀ x, s.chan x = (w.node x).transport
  made : ∀ x, ∀ d ∈ (w.node x).made, ∃ p ∈ s.net x, Carries e secret d p
  air : ∀ x, ∀ d ∈ w.air x, ∃ p ∈ s.net x, Carries e secret d p

/-- What holds of both channels. -/
structure Sound (q : Side → Qos) (secret : UInt64) (w : Wire) : Prop where
  fit : ∀ x, Fit (q x) secret (w.node x)
  paced : ∀ x, (w.node x).Paced

/-- One channel goes on, and the session with it. -/
theorem Follows.put (v : Follows e secret w s) {x : Side} {p : Producer} (hpaced : p.Paced)
    (out : Option Packet)
    (hmade : ∀ d ∈ p.made, d ∈ (w.node x).made ∨ ∃ k, out = some k ∧ Carries e secret d k) :
    Follows e secret (w.put x p) (s.put x p.transport out) := by
  have hheld : ∀ d ∈ p.made, ∃ k ∈ (s.put x p.transport out).net x, Carries e secret d k := by
    intro d hd
    rw [Session.put_net_self]
    rcases hmade d hd with hd | ⟨k, rfl, hk⟩
    · obtain ⟨k, hmem, hk⟩ := v.made x d hd
      exact ⟨k, List.mem_append_left _ hmem, hk⟩
    · exact ⟨k, List.mem_append_right _ (List.mem_singleton.mpr rfl), hk⟩
  refine ⟨fun y => ?_, fun y d hd => ?_, fun y d hd => ?_⟩ <;> by_cases hy : y = x
  · subst hy
    rw [Session.put_chan_self, put_node_self]
  · rw [Session.put_chan_of_ne hy, put_node_of_ne hy, v.chan]
  · subst hy
    rw [put_node_self] at hd
    exact hheld d hd
  · rw [put_node_of_ne hy] at hd
    rw [Session.put_net_of_ne hy]
    exact v.made y d hd
  · subst hy
    rw [put_air_self] at hd
    rcases List.mem_append.mp hd with hd | hd
    · obtain ⟨k, hmem, hk⟩ := v.air y d hd
      rw [Session.put_net_self]
      exact ⟨k, List.mem_append_left _ hmem, hk⟩
    · exact hheld d (hpaced.front.subset (List.mem_of_mem_drop hd))
  · rw [put_air_of_ne hy] at hd
    rw [Session.put_net_of_ne hy]
    exact v.air y d hd

theorem Sound.put (v : Sound q secret w) {x : Side} {p : Producer} (hfit : Fit (q x) secret p)
    (hpaced : p.Paced) : Sound q secret (w.put x p) := by
  refine ⟨fun y => ?_, fun y => ?_⟩ <;> by_cases hy : y = x
  · subst hy
    rwa [put_node_self]
  · rw [put_node_of_ne hy]
    exact v.fit y
  · subst hy
    rwa [put_node_self]
  · rw [put_node_of_ne hy]
    exact v.paced y

/-- Every act on the wire is an act of the session, or nothing there. -/
theorem Follows.step (v : Follows e secret w s) (n : Sound q secret w)
    (hsize : ∀ x, 56 ≤ (q x).maxPacketSize ∧ (q x).maxPacketSize ≤ 65507) {a : Act}
    (hclean : w.Clean a) (h : w.step e a = some w') :
    Sound q secret w' ∧ ∃ s', (s' = s ∨ ∃ b, s.step b = some s') ∧ Follows e secret w' s' := by
  cases a with
  | node x ev =>
    cases hown : ev.incoming with
    | true =>
      rw [Wire.step, hown, if_pos rfl] at h
      cases h
    | false =>
      rw [Wire.step, hown, if_neg (by decide)] at h
      obtain ⟨p, hp, rfl⟩ := Option.map_eq_some_iff.mp h
      obtain ⟨hgoes, hfit⟩ := (n.fit x).step (hsize x).1 (hsize x).2 hclean hown hp
      have hpaced := (n.paced x).step hp
      refine ⟨n.put hfit hpaced, ?_⟩
      cases hgoes with
      | still htransport hmade =>
        refine ⟨_, .inl ?_, v.put hpaced none fun d hd => .inl (hmade ▸ hd)⟩
        rw [htransport, ← v.chan, Session.put_same]
      | acts ev out sound own act made =>
        refine ⟨_, .inr ⟨.act x ev, ?_⟩, v.put hpaced out fun d hd => ?_⟩
        · rw [Session.step, if_pos ⟨sound, own⟩, v.chan, act, Option.map_some]
        · rw [← (n.fit x).secret_eq]
          exact made d hd
  | deliver x now drawn i =>
    obtain ⟨d, hd, h⟩ := Option.bind_eq_some_iff.mp h
    obtain ⟨p, hp, rfl⟩ := Option.map_eq_some_iff.mp h
    obtain ⟨k, hk, hcarries⟩ := v.air x.other d (List.mem_of_getElem? hd)
    obtain ⟨i', hi'⟩ := List.getElem?_of_mem hk
    obtain ⟨hact, hmade, hfit⟩ := (n.fit x).feed hcarries hp
    have hpaced := (n.paced x).feed hp
    refine ⟨n.put hfit hpaced, _, .inr ⟨.deliver x now i', ?_⟩,
      v.put hpaced none fun d hd => .inl (hmade ▸ hd)⟩
    rw [Session.step, hi', Option.bind_some, v.chan, hact, Option.map_some]
  | lose x i =>
    cases h
    refine ⟨⟨n.fit, n.paced⟩, s, .inl rfl, v.chan, v.made, fun y d hd => v.air y d ?_⟩
    dsimp only at hd
    split at hd
    · exact List.mem_of_mem_eraseIdx hd
    · exact hd

theorem follows (h : (system e secret q).Reaches Clean w)
    (hsize : ∀ x, 56 ≤ (q x).maxPacketSize ∧ (q x).maxPacketSize ≤ 65507) :
    ∃ s, (Session.system q).Reachable s ∧ Sound q secret w ∧ Follows e secret w s := by
  refine System.Reaches.simulates (R := fun w s => Sound q secret w ∧ Follows e secret w s) ?_ ?_ h
  · rintro _ ⟨buffer, hbuffer, rfl⟩
    refine ⟨.create q, rfl, ⟨fun x => ?_, fun x => .create (q x) secret (buffer x)⟩,
      fun _ => rfl, fun _ _ hd => absurd hd List.not_mem_nil,
      fun _ _ hd => absurd hd List.not_mem_nil⟩
    exact ⟨.start rfl, (by decide : 0 < 2 ^ 32), hbuffer x, rfl⟩
  · rintro w a w' s hclean ⟨n, v⟩ hs hstep
    obtain ⟨n', s', hs' | ⟨b, hb⟩, v'⟩ := v.step n hsize hclean hstep
    · subst hs'
      exact ⟨s', hs, n', v'⟩
    · exact ⟨s', .next hs trivial hb, n', v'⟩

/-- Every state that the wire reaches by rounds that the packet format can carry is a state of a
session: the channels are the same, and every datagram on its way holds a packet on its way. -/
theorem refines (h : (system e secret q).Reaches Clean w)
    (hsize : ∀ x, 56 ≤ (q x).maxPacketSize ∧ (q x).maxPacketSize ≤ 65507) :
    ∃ s, (Session.system q).Reachable s ∧ (∀ x, s.chan x = (w.node x).transport) ∧
      ∀ x, ∀ d ∈ w.air x, ∃ p ∈ s.net x, Carries e secret d p := by
  obtain ⟨s, hs, _, v⟩ := follows h hsize
  exact ⟨s, hs, v.chan, v.air⟩

/-- Between two such channels nothing throws. A call of a user has a result, a round has one
whatever its buffer held before, and so has a datagram of the peer. -/
theorem nothing_throws (h : (system e secret q).Reaches Clean w)
    (hsize : ∀ x, 56 ≤ (q x).maxPacketSize ∧ (q x).maxPacketSize ≤ 65507) (x : Side) :
    (∀ ev, ev.sound = true → Producer.isCall ev = true → ((w.node x).call ev).isSome = true) ∧
      (∀ k, (w.node x).transport.overruns k = false → (w.node x).transport.spoils k = false →
        ((w.node x).transport.emit k (w.node x).buffer).isSome = true) ∧
      ∀ d ∈ w.air x.other, ∀ now drawn, ((w.node x).feed e now drawn d).isSome = true := by
  obtain ⟨s, _, n, v⟩ := follows h hsize
  have f := n.fit x
  refine ⟨fun ev hsound hcall => f.call_isSome hsound hcall, fun k hfit hspoils => ?_,
    fun d hd now drawn => ?_⟩
  · obtain ⟨hq, hi, ho⟩ := Transport.Reaches.numbered f.alive
    obtain ⟨hmin, hmax⟩ := hsize x
    rw [← hq] at hmin hmax
    have hbuffer : (w.node x).buffer.length = (w.node x).transport.qos.maxPacketSize := by
      rw [hq]
      exact f.buffer
    obtain ⟨hfits, hle, _, hemit⟩ := Transport.emit_eq k hfit hi ho hmin hmax
    rw [hemit _ hbuffer, hspoils, if_neg (by decide),
      Datagram.trim_ended_eq hfits (by rw [hbuffer]; exact hle) (by rw [hbuffer]; omega)]
    rfl
  · obtain ⟨p, _, c⟩ := v.air x.other d hd
    exact f.feed_isSome c now drawn

/-- What one side has read is a front of what the other side has written, over bytes that are
hidden, lost, repeated and reordered. -/
theorem bytes_in_order (h : (system e secret q).Reaches Clean w)
    (hsize : ∀ x, 56 ≤ (q x).maxPacketSize ∧ (q x).maxPacketSize ≤ 65507) (d : Side) :
    (w.node d.other).transport.istreamer.delivered <+: (w.node d).transport.ostreamer.stream := by
  obtain ⟨s, hs, _, v⟩ := follows h hsize
  obtain ⟨f, inv, u⟩ := Session.exists_flow hs d
  rw [← v.chan, ← v.chan, ← u.sink, ← u.source, inv.sink.delivered_eq]
  exact inv.sink.history.trans inv.source.front

/-! ## A run -/

/-- Two channels link, one writes five bytes and the other one reads three. The packet with the
bytes comes twice. -/
def exchange : List Act :=
  [.node .left (.call .openAt), .node .right (.call .openAt),
    .node .left (.call (.connect 1 1 1 .success)), .node .right (.call (.accept 1 2 2 .success)),
    .node .left (.completed 0 .success 0 (.at 2 1374)), .node .left (.taken 0),
    .deliver .right 3 7 0, .node .right (.completed 0 .success 0 (.at 4 1362)),
    .node .right (.taken 0), .deliver .left 5 7 0,
    .node .left (.call (.write [1, 2, 3, 4, 5] 7)), .node .right (.call (.read [0, 0, 0] 8)),
    .node .left (.completed 0 .success 32 (.at 6 1349)), .node .left (.taken 0),
    .deliver .right 7 9 1, .deliver .right 8 9 1]

/-- Two channels that share the secret 5. -/
def initial : Wire := ⟨fun _ => .create .default 5 (List.replicate 1406 255), fun _ => []⟩

theorem exchange_reaches :
    ∃ w : Wire, (system .little 5 fun _ => .default).Reaches Clean w ∧ (w.air .left).length = 2 ∧
      (w.node .right).transport.istreamer.delivered = [1, 2, 3] := by
  have hrun : ((system .little 5 fun _ => .default).checked (fun w a => decide (w.Clean a)) initial
      exchange).map (fun w => decide ((w.air .left).length = 2 ∧
        (w.node .right).transport.istreamer.delivered = [1, 2, 3])) = some true := by
    decide +kernel
  obtain ⟨w, hw, hv⟩ := Option.map_eq_some_iff.mp hrun
  obtain ⟨hair, hdelivered⟩ := of_decide_eq_true hv
  exact ⟨w, System.Reaches.checked (fun _ _ h => of_decide_eq_true h) exchange
    (.start ⟨_, fun _ => List.length_replicate, rfl⟩) hw, hair, hdelivered⟩

theorem refines_exchange :
    ∃ w : Wire, (w.air .left).length = 2 ∧ ∃ s, (Session.system fun _ => .default).Reachable s ∧
      (∀ x, s.chan x = (w.node x).transport) ∧
      ∀ x, ∀ d ∈ w.air x, ∃ p ∈ s.net x, Carries .little 5 d p := by
  obtain ⟨w, hw, hair, _⟩ := exchange_reaches
  exact ⟨w, hair, refines hw fun _ => ⟨by decide, by decide⟩⟩

theorem nothing_throws_exchange :
    ∃ w : Wire, (w.air .left).length = 2 ∧ ∀ d ∈ w.air .left, ∀ now drawn,
      ((w.node .right).feed .little now drawn d).isSome = true := by
  obtain ⟨w, hw, hair, _⟩ := exchange_reaches
  exact ⟨w, hair, (nothing_throws hw (fun _ => ⟨by decide, by decide⟩) .right).2.2⟩

theorem bytes_in_order_exchange :
    ∃ w : Wire, (w.node .right).transport.istreamer.delivered = [1, 2, 3] ∧
      (w.node .right).transport.istreamer.delivered <+:
        (w.node .left).transport.ostreamer.stream := by
  obtain ⟨w, hw, _, hdelivered⟩ := exchange_reaches
  exact ⟨w, hdelivered, bytes_in_order hw (fun _ => ⟨by decide, by decide⟩) .left⟩

end Wire

end Tubus.Udp
