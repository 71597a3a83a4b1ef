import Tubus.Laws.Obfuscation
import Tubus.Laws.Release
import Tubus.Tcp.Connection

/-!
# Reading what the peer wrote

Two TCP channels on one connection, under any calls and completions. What one end put on the wire is
the code of the writes it started (`Stream.Coded`); what the other end took off the wire is the code
of what its reads were given (`Stream.Heard`). The salt is in the head, so the two codes are of one
key, and the reads get the first bytes of the writes, in order and with no gap, whatever fails
(`Connection.reads_written`).
-/

namespace Tubus.Tcp

open Lib
open Udp (Side)

namespace Stream

variable {e : Endian} {s : Stream} {secret salt salt' : UInt64} {data data' code chunk : Bytes}

/-- The head, and data under the key. -/
def encode (e : Endian) (secret salt : UInt64) (data : Bytes) : Bytes :=
  (Cipher.create.writeHead e secret salt signature).2 ++
    mask (· ^^^ ·) (key e salt (makeInverter e secret salt true)) 0 data

theorem length_encode (e : Endian) (secret salt : UInt64) (data : Bytes) :
    (encode e secret salt data).length = headSize + data.length := by
  rw [encode, List.length_append, Cipher.length_writeHead, length_mask]

/-- More data makes more code. -/
theorem encode_append (e : Endian) (secret salt : UInt64) (data data' : Bytes) :
    encode e secret salt (data ++ data') = encode e secret salt data ++
      mask (· ^^^ ·) (key e salt (makeInverter e secret salt true)) data.length data' := by
  rw [encode, encode, mask_append, Nat.zero_add, List.append_assoc]

theorem xor_cancel (a b : UInt8) : a ^^^ b ^^^ b = a := by
  rw [UInt8.xor_assoc, UInt8.xor_self, UInt8.xor_zero]

/-- What begins a code, and has the head, is the code of what begins the data. -/
theorem encode_of_prefix {code : Bytes} (hcode : code <+: encode e secret salt data)
    (hlen : headSize ≤ code.length) :
    code = encode e secret salt (data.take (code.length - headSize)) := by
  have htake := List.prefix_iff_eq_take.mp hcode
  have hhead := Cipher.length_writeHead .create e secret salt signature
  conv_lhs => rw [htake, encode, List.take_append, hhead, take_mask]
  rw [List.take_of_length_le (by rw [hhead]; exact hlen), encode]

/-- Two codes of one secret, where one begins the other, have one salt, and the data of the one
begins that of the other. -/
theorem prefix_of_encode (h : encode e secret salt data <+: encode e secret salt' data') :
    data <+: data' := by
  have hhead := Cipher.length_writeHead .create e secret salt signature
  have hhead' := Cipher.length_writeHead .create e secret salt' signature
  obtain ⟨left, hleft⟩ := h
  rw [encode, encode, List.append_assoc] at hleft
  obtain ⟨hsame, hrest⟩ := List.append_inj hleft (hhead.trans hhead'.symm)
  -- both heads are read in the same way
  have hread := Cipher.readHead_writeHead .create e secret salt signature
  rw [hsame, Cipher.readHead_writeHead] at hread
  have hsalt : salt' = salt := congrArg (fun r : Cipher × UInt64 => r.1.salt) hread
  subst hsalt
  have hback := mask_of_append_eq xor_cancel hrest
  rw [mask_mask xor_cancel, length_mask] at hback
  rw [hback]
  exact List.take_prefix _ _

@[simp] theorem asyncWrite_secret (e : Endian) (salt : UInt64) (s : Stream) (chunk : Bytes) :
    (s.asyncWrite e salt chunk).1.secret = s.secret := by
  unfold asyncWrite
  split
  · rfl
  · split <;> rfl

@[simp] theorem asyncWrite_istate (e : Endian) (salt : UInt64) (s : Stream) (chunk : Bytes) :
    (s.asyncWrite e salt chunk).1.istate = s.istate := by
  unfold asyncWrite
  split
  · rfl
  · split <;> rfl

/-- The kind of a read is a matter of the reading half. -/
theorem asyncRead_congr {s' : Stream} (hsecret : s'.secret = s.secret)
    (histate : s'.istate = s.istate) : s'.asyncRead = s.asyncRead := by
  rw [asyncRead, asyncRead, hsecret, histate]

/-- The completion of a read leaves the writing half alone. -/
theorem received_writing (e : Endian) (alive : Bool) (s : Stream) (got : Bytes) (ec : Ec)
    (kind : Reading) : (s.received e alive got ec kind).1.secret = s.secret ∧
      (s.received e alive got ec kind).1.ostate = s.ostate := by
  cases kind with
  | head =>
    simp only [received]
    split
    · split
      · exact ⟨rfl, rfl⟩
      · split <;> exact ⟨rfl, rfl⟩
    · exact ⟨rfl, rfl⟩
  | plain =>
    simp only [received]
    split <;> exact ⟨rfl, rfl⟩
  | clear => exact ⟨rfl, rfl⟩

/-- A stream that is gone stays as it is. -/
theorem received_gone (e : Endian) (s : Stream) (got : Bytes) (ec : Ec) (kind : Reading) :
    (s.received e false got ec kind).1 = s := by
  cases kind <;> rfl

/-- Where it has a secret, it gives no data. -/
theorem size_received_gone (e : Endian) (got : Bytes) (ec : Ec) (hsecret : s.secret ≠ 0) :
    (s.received e false got ec s.asyncRead).2.size = 0 := by
  unfold asyncRead
  split
  · rfl
  · rfl

/-! ## The writing half -/

/-- The stream was handed this data, and made this code of it. -/
inductive Coded (e : Endian) (s : Stream) (data code : Bytes) : Prop where
  | clear : s.secret = 0 → code = data → Coded e s data code
  | silent : s.secret ≠ 0 → s.ostate = .create → data = [] → code = [] → Coded e s data code
  | keyed (salt : UInt64) : s.secret ≠ 0 → salt ≠ 0 →
    s.ostate.At e salt (makeInverter e s.secret salt true) data.length →
    code = encode e s.secret salt data → Coded e s data code

theorem Coded.congr {s' : Stream} (h : Coded e s data code) (hsecret : s'.secret = s.secret)
    (hostate : s'.ostate = s.ostate) : Coded e s' data code := by
  cases h with
  | clear hs hcode => exact .clear (hsecret.trans hs) hcode
  | silent hs hnew hdata hcode =>
    exact .silent (by rwa [hsecret]) (hostate.trans hnew) hdata hcode
  | keyed salt hs hkey hat hcode =>
    rw [← hsecret] at hs hat hcode
    rw [← hostate] at hat
    exact .keyed salt hs hkey hat hcode

/-- A further write. -/
theorem Coded.write (h : Coded e s data code) (hsalt : salt ≠ 0) (chunk : Bytes) :
    Coded e (s.asyncWrite e salt chunk).1 (data ++ chunk)
      (code ++ (s.asyncWrite e salt chunk).2.1) := by
  cases h with
  | clear hsecret hcode =>
    apply Coded.clear
    · rw [asyncWrite_secret, hsecret]
    · rw [hcode, asyncWrite, if_neg (fun hs => hs.1 hsecret), if_neg (fun hs => hs hsecret)]
  | silent hsecret hnew hdata hcode =>
    have hat := Cipher.writeHead_at e s.secret salt signature
    obtain ⟨hmask, hnext⟩ := hat.masks true chunk
    have hfirst : s.secret ≠ 0 ∧ s.ostate.salt = 0 := ⟨hsecret, by rw [hnew]; rfl⟩
    subst hdata hcode
    apply Coded.keyed salt
    · rw [asyncWrite_secret]
      exact hsecret
    · exact hsalt
    · rw [asyncWrite_secret, asyncWrite, if_pos hfirst, hnew]
      rwa [Nat.zero_add] at hnext
    · rw [asyncWrite_secret, asyncWrite, if_pos hfirst, hnew]
      dsimp only
      rw [hmask]
      rfl
  | keyed salt hsecret hkey hat hcode =>
    obtain ⟨hmask, hnext⟩ := hat.masks true chunk
    have hlater : ¬ (s.secret ≠ 0 ∧ s.ostate.salt = 0) := by
      rw [hat.salt_eq]
      exact fun hs => hkey hs.2
    apply Coded.keyed salt
    · rw [asyncWrite_secret]
      exact hsecret
    · exact hkey
    · rw [asyncWrite_secret, List.length_append, asyncWrite, if_neg hlater, if_pos hsecret]
      exact hnext
    · rw [asyncWrite_secret, encode_append, hcode, asyncWrite, if_neg hlater, if_pos hsecret]
      exact congrArg _ hmask

/-! ## The reading half -/

/-- The stream was given this code, and made this data of it. -/
inductive Heard (e : Endian) (s : Stream) (code data : Bytes) : Prop where
  | clear : s.secret = 0 → data = code → Heard e s code data
  | silent : s.secret ≠ 0 → s.istate = .create → code.length < headSize → data = [] →
    Heard e s code data
  | keyed (salt : UInt64) : s.secret ≠ 0 → salt ≠ 0 →
    s.istate.At e salt (makeInverter e s.secret salt true) data.length →
    code = encode e s.secret salt data → Heard e s code data

theorem Heard.congr {s' : Stream} (h : Heard e s code data) (hsecret : s'.secret = s.secret)
    (histate : s'.istate = s.istate) : Heard e s' code data := by
  cases h with
  | clear hs hdata => exact .clear (hsecret.trans hs) hdata
  | silent hs hnew hlen hdata =>
    exact .silent (by rwa [hsecret]) (histate.trans hnew) hlen hdata
  | keyed salt hs hkey hat hcode =>
    rw [← hsecret] at hs hat hcode
    rw [← histate] at hat
    exact .keyed salt hs hkey hat hcode

/-- Within the head, a read is one for the head. -/
theorem Heard.asyncRead_head (h : Heard e s code data) (hsecret : s.secret ≠ 0)
    (hlen : code.length < headSize) : s.asyncRead = .head := by
  cases h with
  | clear hs _ => exact absurd hs hsecret
  | silent _ hnew _ _ =>
    rw [asyncRead, hnew]
    exact if_pos ⟨hsecret, rfl⟩
  | keyed salt _ _ _ hcode =>
    rw [hcode, length_encode] at hlen
    exact absurd hlen (Nat.not_lt.mpr (Nat.le_add_right _ _))

/-- A further read of a stream that is there. All that was taken begins some code of the peer, and
the head is taken in one piece. -/
theorem Heard.read {all moved : Bytes} (h : Heard e s code data) (ec : Ec)
    (hpeer : s.secret ≠ 0 → salt ≠ 0 ∧ code ++ moved <+: encode e s.secret salt all)
    (hhead : s.secret ≠ 0 → code.length < headSize → moved = [] ∨ code = []) :
    Heard e (s.received e true moved ec s.asyncRead).1 (code ++ moved)
      (data ++ (s.received e true moved ec s.asyncRead).2.chunk.take
        (s.received e true moved ec s.asyncRead).2.size) := by
  cases h with
  | clear hsecret hdata =>
    have hkind : s.asyncRead = .clear := by
      rw [asyncRead, if_neg (fun hs => hs.1 hsecret), if_neg (fun hs => hs hsecret)]
    rw [hkind, received]
    apply Heard.clear hsecret
    rw [hdata, List.take_length]
  | silent hsecret hnew hlen hdata =>
    have hkind := (Heard.silent (e := e) hsecret hnew hlen hdata).asyncRead_head hsecret hlen
    rw [hkind, received, if_pos rfl]
    by_cases hmoved : moved.length < headSize
    · rw [if_pos hmoved]
      apply Heard.silent hsecret hnew
      · obtain rfl | rfl := hhead hsecret hlen
        · rwa [List.append_nil]
        · exact hmoved
      · rw [hdata]
        rfl
    · have hnone : code = [] := by
        obtain rfl | hcode := hhead hsecret hlen
        · exact absurd (show 0 < headSize by decide) hmoved
        · exact hcode
      subst hnone hdata
      -- the first read has the head in full, and some of the data after it
      obtain ⟨hsalt, hprefix⟩ := hpeer hsecret
      have hfirst := encode_of_prefix hprefix (Nat.le_of_not_lt hmoved)
      rw [List.nil_append] at hfirst
      generalize all.take (moved.length - headSize) = first at hfirst
      have hheadlen := Cipher.length_writeHead .create e s.secret salt signature
      have hread := Cipher.readHead_writeHead .create e s.secret salt signature
      obtain ⟨hmask, hnext⟩ := (Cipher.writeHead_at e s.secret salt signature).masks false
        (mask (· ^^^ ·) (key e salt (makeInverter e s.secret salt true)) 0 first)
      rw [mask_mask xor_cancel] at hmask
      rw [length_mask, Nat.zero_add] at hnext
      rw [if_neg hmoved, hnew, hfirst, encode, List.take_left' hheadlen,
        List.drop_left' hheadlen, hread]
      simp only [ne_eq, not_true_eq_false, if_false, hmask, length_mask, List.take_length,
        List.nil_append]
      exact .keyed salt hsecret hsalt hnext rfl
  | keyed salt hsecret hkey hat hcode =>
    have hkind : s.asyncRead = .plain := by
      rw [asyncRead, if_neg (fun hs => hkey (hat.salt_eq.symm.trans hs.2)), if_pos hsecret]
    obtain ⟨hmask, hnext⟩ := hat.masks false moved
    have hlen : (mask (· ^^^ ·) (key e salt (makeInverter e s.secret salt true)) data.length
        moved).length = moved.length := length_mask _
    rw [hkind, received, if_pos rfl]
    dsimp only
    rw [hmask, List.take_of_length_le (Nat.le_of_eq hlen)]
    refine .keyed salt hsecret hkey ?_ ?_
    · rw [List.length_append, hlen]
      exact hnext
    · dsimp only
      rw [encode_append, mask_mask xor_cancel, hcode]

/-- A further read of a stream that may be gone, where there is no secret. -/
theorem Heard.received {all moved : Bytes} (h : Heard e s code data) {alive : Bool} (ec : Ec)
    (halive : alive = true ∨ s.secret = 0)
    (hpeer : s.secret ≠ 0 → salt ≠ 0 ∧ code ++ moved <+: encode e s.secret salt all)
    (hhead : s.secret ≠ 0 → code.length < headSize → moved = [] ∨ code = []) :
    Heard e (s.received e alive moved ec s.asyncRead).1 (code ++ moved)
      (data ++ (s.received e alive moved ec s.asyncRead).2.chunk.take
        (s.received e alive moved ec s.asyncRead).2.size) := by
  by_cases hsecret : s.secret = 0
  · have hkind : s.asyncRead = .clear := by
      rw [asyncRead, if_neg (fun hs => hs.1 hsecret), if_neg (fun hs => hs hsecret)]
    have hsame := h.read ec hpeer hhead
    rw [hkind] at hsame ⊢
    exact hsame
  · rw [halive.resolve_right hsecret]
    exact h.read ec hpeer hhead

/-- What was read of the first part of a code is the first part of what was written. Of all the
code it is all. -/
theorem Heard.coded {w : Stream} {part all : Bytes} (h : Heard e s part data)
    (hcode : Coded e w all code) (hsecret : s.secret = w.secret) (hpart : part <+: code) :
    data <+: all ∧ (part = code → data = all) := by
  cases h with
  | clear hs hdata =>
    cases hcode with
    | clear _ hcode =>
      rw [hdata, ← hcode]
      exact ⟨hpart, id⟩
    | silent hw _ _ _ => exact absurd (hsecret.symm.trans hs) hw
    | keyed _ hw _ _ _ => exact absurd (hsecret.symm.trans hs) hw
  | silent hs _ hlen hnil =>
    rw [hnil]
    refine ⟨List.nil_prefix, fun hall => ?_⟩
    cases hcode with
    | clear hw _ => exact absurd (hsecret.trans hw) hs
    | silent _ _ hnone _ => exact hnone.symm
    | keyed _ _ _ _ hcode =>
      rw [hall, hcode, length_encode] at hlen
      exact absurd hlen (Nat.not_lt.mpr (Nat.le_add_right _ _))
  | keyed salt hs _ _ hmade =>
    rw [hsecret] at hmade
    have hlen := hpart.length_le
    rw [hmade, length_encode] at hlen
    cases hcode with
    | clear hw _ => exact absurd (hsecret.trans hw) hs
    | silent _ _ _ hnone =>
      rw [hnone] at hlen
      exact absurd (Nat.le_add_right headSize data.length |>.trans hlen) (by decide)
    | keyed _ _ _ _ hcode =>
      rw [hmade, hcode] at hpart
      have hdata := prefix_of_encode hpart
      refine ⟨hdata, fun hall => hdata.eq_of_length ?_⟩
      have hsame := congrArg List.length hall
      rw [hmade, hcode, length_encode, length_encode] at hsame
      exact Nat.add_left_cancel hsame

end Stream

namespace Transport

variable {e : Endian} {q : Qos} {x x' : Transport} {ev : Event}

/-- The salt that a step may draw. -/
def Event.salt : Event → Option UInt64
  | .write salt _ _ | .writeDone _ salt _ _ => some salt
  | .socket _ | .read _ _ | .readDone _ _ _ | .destroy => none

/-- The completion of a write? -/
def Event.isWriteDone : Event → Bool
  | .writeDone _ _ _ _ => true
  | .socket _ | .read _ _ | .write _ _ _ | .readDone _ _ _ | .destroy => false

/-- The completion of a read? -/
def Event.isReadDone : Event → Bool
  | .readDone _ _ _ => true
  | .socket _ | .read _ _ | .write _ _ _ | .writeDone _ _ _ _ | .destroy => false

/-- What a step does to the writing half: nothing, or it starts one write. -/
theorem step_starts (hstep : x.step e q ev = some x') :
    (x'.writes.started = x.writes.started ∧ x'.stream.secret = x.stream.secret ∧
        x'.stream.ostate = x.stream.ostate ∧
        (ev.isWriteDone = false → x'.writes.outstanding = x.writes.outstanding)) ∨
      ∃ salt t, ev.salt = some salt ∧ x'.writes.started = x.writes.started ++ [t] ∧
        x'.stream = (x.stream.asyncWrite e salt t.buffer).1 ∧ x'.writes.outstanding ≠ [] := by
  cases ev with
  | socket isOpen =>
    obtain ⟨-, hx'⟩ := Option.ite_none_right_eq_some.mp hstep
    cases hx'
    exact .inl ⟨rfl, rfl, rfl, fun _ => rfl⟩
  | destroy =>
    obtain ⟨-, hx'⟩ := Option.ite_none_right_eq_some.mp hstep
    cases hx'
    exact .inl ⟨rfl, rfl, rfl, fun _ => rfl⟩
  | read buffer h =>
    obtain ⟨-, hx'⟩ := Option.ite_none_right_eq_some.mp hstep
    cases hx'
    left
    unfold Transport.read
    split
    · exact ⟨rfl, rfl, rfl, fun _ => rfl⟩
    · split
      · exact ⟨rfl, rfl, rfl, fun _ => rfl⟩
      · dsimp only
        split <;> exact ⟨rfl, rfl, rfl, fun _ => rfl⟩
  | write salt buffer h =>
    obtain ⟨-, hx'⟩ := Option.ite_none_right_eq_some.mp hstep
    cases hx'
    unfold Transport.write
    split
    · exact .inl ⟨rfl, rfl, rfl, fun _ => rfl⟩
    · split
      · exact .inl ⟨rfl, rfl, rfl, fun _ => rfl⟩
      · dsimp only
        split
        · exact .inr ⟨salt, ⟨buffer, h⟩, rfl, rfl, rfl,
            List.append_ne_nil_of_right_ne_nil _ (by simp)⟩
        · exact .inl ⟨rfl, rfl, rfl, fun _ => rfl⟩
  | readDone place ec moved =>
    simp only [step] at hstep
    cases hplace : x.reads.outstanding[place]? with
    | none =>
      rw [hplace] at hstep
      cases hstep
    | some operation =>
      rw [hplace] at hstep
      cases hstep
      obtain ⟨hsecret, hostate⟩ := Stream.received_writing e x.alive x.stream moved ec operation.1
      left
      unfold Transport.readDone
      dsimp only
      split
      · split <;> exact ⟨rfl, hsecret, hostate, fun _ => rfl⟩
      · exact ⟨rfl, hsecret, hostate, fun _ => rfl⟩
  | writeDone place salt ec count =>
    simp only [step] at hstep
    cases hplace : x.writes.outstanding[place]? with
    | none =>
      rw [hplace] at hstep
      cases hstep
    | some operation =>
      rw [hplace] at hstep
      cases hstep
      unfold Transport.writeDone
      dsimp only
      split
      · split
        · exact .inl ⟨rfl, rfl, rfl, fun hnone => by cases hnone⟩
        · next op _ _ =>
          exact .inr ⟨salt, op, rfl, rfl, rfl, List.append_ne_nil_of_right_ne_nil _ (by simp)⟩
      · exact .inl ⟨rfl, rfl, rfl, fun hnone => by cases hnone⟩

/-- What a step that is not the completion of a read does to the reading half: nothing, or it starts
one read. -/
theorem step_listens (hstep : x.step e q ev = some x') (hev : ev.isReadDone = false) :
    x'.stream.secret = x.stream.secret ∧ x'.stream.istate = x.stream.istate ∧
      (x'.reads.outstanding = x.reads.outstanding ∨
        ∃ t, x'.reads.outstanding = x.reads.outstanding ++ [(x.stream.asyncRead, t)]) := by
  cases ev with
  | socket isOpen =>
    obtain ⟨-, hx'⟩ := Option.ite_none_right_eq_some.mp hstep
    cases hx'
    exact ⟨rfl, rfl, .inl rfl⟩
  | destroy =>
    obtain ⟨-, hx'⟩ := Option.ite_none_right_eq_some.mp hstep
    cases hx'
    exact ⟨rfl, rfl, .inl rfl⟩
  | read buffer h =>
    obtain ⟨-, hx'⟩ := Option.ite_none_right_eq_some.mp hstep
    cases hx'
    unfold Transport.read
    split
    · exact ⟨rfl, rfl, .inl rfl⟩
    · split
      · exact ⟨rfl, rfl, .inl rfl⟩
      · dsimp only
        split
        · exact ⟨rfl, rfl, .inr ⟨⟨buffer, h⟩, rfl⟩⟩
        · exact ⟨rfl, rfl, .inl rfl⟩
  | write salt buffer h =>
    obtain ⟨-, hx'⟩ := Option.ite_none_right_eq_some.mp hstep
    cases hx'
    unfold Transport.write
    split
    · exact ⟨rfl, rfl, .inl rfl⟩
    · split
      · exact ⟨rfl, rfl, .inl rfl⟩
      · dsimp only
        split
        · exact ⟨Stream.asyncWrite_secret e salt _ buffer, Stream.asyncWrite_istate e salt _ buffer,
            .inl rfl⟩
        · exact ⟨rfl, rfl, .inl rfl⟩
  | readDone place ec moved => cases hev
  | writeDone place salt ec count =>
    simp only [step] at hstep
    cases hplace : x.writes.outstanding[place]? with
    | none =>
      rw [hplace] at hstep
      cases hstep
    | some operation =>
      rw [hplace] at hstep
      cases hstep
      unfold Transport.writeDone
      dsimp only
      split
      · split
        · exact ⟨rfl, rfl, .inl rfl⟩
        · next op _ _ =>
          exact ⟨Stream.asyncWrite_secret e salt _ op.buffer,
            Stream.asyncWrite_istate e salt _ op.buffer, .inl rfl⟩
      · exact ⟨rfl, rfl, .inl rfl⟩

/-- The reading half when a read completed. -/
theorem readDone_reading (x : Transport) (place : Nat) (stream : Stream) (t : Task) (ec : Ec)
    (count : Nat) : ((x.readOver place stream).readDone t ec count).stream = stream ∧
      ((x.readOver place stream).readDone t ec count).alive = x.alive ∧
      ∀ op ∈ ((x.readOver place stream).readDone t ec count).reads.outstanding,
        op ∈ x.reads.outstanding.eraseIdx place ∨ op.1 = stream.asyncRead := by
  unfold Transport.readDone
  dsimp only
  split
  · split
    · exact ⟨rfl, rfl, fun op hop => .inl hop⟩
    · refine ⟨rfl, rfl, fun op hop => ?_⟩
      obtain hold | hnew := List.mem_append.mp hop
      · exact .inl hold
      · rw [List.mem_singleton.mp hnew]
        exact .inr rfl
  · exact ⟨rfl, rfl, fun op hop => .inl hop⟩

end Transport

namespace End

variable {e : Endian} {q : Qos} {secret : UInt64} {peer : Bytes} {z z' : End} {ev : Event}

/-- Did the generator give a salt that is not zero? -/
def Event.Drawn : Event → Prop
  | .write salt _ _ | .writeDone salt _ => salt ≠ 0
  | .read _ _ | .close | .destroy | .flow _ | .readDone _ _ => True

/-- What the socket is to be given of the peer's bytes. -/
def moved (peer : Bytes) (z : End) (n : Nat) : Bytes := (peer.drop z.taken).take n

/-- An end whose write completed. -/
def wrote (z : End) (ec : Ec) : End :=
  { z with pending := [], broken := z.broken || ec != .success }

/-- An end whose read completed. -/
def heard (e : Endian) (peer : Bytes) (z : End) (ec : Ec) (n : Nat) (kind : Reading) : End :=
  { z with
    taken := z.taken + n
    ended := z.ended || ec != .success
    received := z.received ++
      [(z.transport.stream.received e z.transport.alive (moved peer z n) ec kind).2] }

theorem go_eq_some {salt : UInt64} {tev : Transport.Event} (h : z.go e q salt tev = some z') :
    ∃ x, z.transport.step e q tev = some x ∧
      z' = { z with transport := x, pending := z.pending ++ handed e salt z.transport x } := by
  obtain ⟨x, hx, hz'⟩ := Option.map_eq_some_iff.mp h
  exact ⟨x, hx, hz'.symm⟩

theorem handed_of_same (e : Endian) (salt : UInt64) {x x' : Transport}
    (h : x'.writes.started = x.writes.started) : handed e salt x x' = [] := by
  rw [handed, h, List.drop_length, List.map_nil, List.flatten_nil]

theorem handed_of_start (e : Endian) (salt : UInt64) {x x' : Transport} {t : Task}
    (h : x'.writes.started = x.writes.started ++ [t]) :
    handed e salt x x' = (x.stream.asyncWrite e salt t.buffer).2.1 := by
  rw [handed, h, List.drop_left, List.map_singleton, List.flatten_singleton]

/-- Everything a step can be: a call, bytes that go out, and a completion. -/
theorem step_cases (hstep : z.step e q peer ev = some z') :
    (∃ salt tev, tev.isReadDone = false ∧ tev.isWriteDone = false ∧
      (∀ drawn, tev.salt = some drawn → drawn = salt ∧ (ev.Drawn → salt ≠ 0)) ∧
      z.go e q salt tev = some z') ∨
    (∃ n, z.broken = false ∧ n ≤ z.pending.length ∧
      z' = { z with wire := z.wire ++ z.pending.take n, pending := z.pending.drop n }) ∨
    (∃ salt ec count, (ev.Drawn → salt ≠ 0) ∧ (ec = .success → z.pending = []) ∧
      (z.wrote ec).go e q salt (.writeDone 0 salt ec count) = some z') ∨
    (∃ ec n kind t, z.transport.reads.outstanding[0]? = some (kind, t) ∧
      (moved peer z n).length = n ∧
      (ec = .success → (Operation.read kind).front ≤ n) ∧ (z.ended = true → n = 0) ∧
      (heard e peer z ec n kind).go e q 0 (.readDone 0 ec (moved peer z n)) = some z') := by
  cases ev with
  | read buffer h =>
    refine .inl ⟨0, .read buffer h, rfl, rfl, fun drawn hdrawn => ?_, hstep⟩
    cases hdrawn
  | write salt buffer h =>
    refine .inl ⟨salt, .write salt buffer h, rfl, rfl, fun drawn hdrawn => ?_, hstep⟩
    cases hdrawn
    exact ⟨rfl, id⟩
  | close =>
    refine .inl ⟨0, .socket false, rfl, rfl, fun drawn hdrawn => ?_, hstep⟩
    cases hdrawn
  | destroy =>
    refine .inl ⟨0, .destroy, rfl, rfl, fun drawn hdrawn => ?_, hstep⟩
    cases hdrawn
  | flow n =>
    obtain ⟨hno, hz'⟩ := Option.ite_none_left_eq_some.mp hstep
    cases hz'
    simp only [not_or, Bool.not_eq_true, Nat.not_lt] at hno
    exact .inr (.inl ⟨n, hno.1, hno.2.2, rfl⟩)
  | writeDone salt ec =>
    simp only [step] at hstep
    cases hout : z.transport.writes.outstanding with
    | nil =>
      rw [hout] at hstep
      cases hstep
    | cons operation rest =>
      rw [hout] at hstep
      obtain ⟨hno, hgo⟩ := Option.ite_none_left_eq_some.mp hstep
      exact .inr (.inr (.inl ⟨salt, ec, _, id, fun hec => by simpa [hec] using hno, hgo⟩))
  | readDone ec n =>
    simp only [step] at hstep
    cases hout : z.transport.reads.outstanding with
    | nil =>
      rw [hout] at hstep
      cases hstep
    | cons operation rest =>
      rw [hout] at hstep
      obtain ⟨hno, hgo⟩ := Option.ite_none_left_eq_some.mp hstep
      simp only [not_or, not_and, Nat.not_lt] at hno
      obtain ⟨hlen, -, hall, hended⟩ := hno
      refine .inr (.inr (.inr ⟨ec, n, operation.1, operation.2, rfl, ?_, ?_, ?_, hgo⟩))
      · exact Nat.le_antisymm (List.length_take_le _ _) hlen
      · intro hec
        exact (Nat.le_add_right _ _).trans (hall hec)
      · intro hend
        exact Nat.le_zero.mp (hended hend)

/-! ## The writing end -/

/-- The buffers of the writes that were started, one after another. -/
def started (z : End) : Bytes := (z.transport.writes.started.map Task.buffer).flatten

/-- What an end puts on the wire: the code of the writes it started, up to where a write failed. -/
structure Sends (e : Endian) (secret : UInt64) (z : End) : Prop where
  secret_eq : z.transport.stream.secret = secret
  coded : ∃ code, z.transport.stream.Coded e z.started code ∧ z.wire <+: code ∧
    (z.broken = false → z.wire ++ z.pending = code)
  idle : z.transport.writes.outstanding = [] → z.pending = []

theorem Sends.go {salt : UInt64} {tev : Transport.Event} (h : z.Sends e secret)
    (hsalt : ∀ drawn, tev.salt = some drawn → drawn = salt ∧ salt ≠ 0)
    (hdone : tev.isWriteDone = true → z.pending = []) (hgo : z.go e q salt tev = some z') :
    z'.Sends e secret := by
  obtain ⟨x, hstep, rfl⟩ := go_eq_some hgo
  obtain ⟨code, hcode, hwire, hall⟩ := h.coded
  obtain ⟨hsame, hsecret, hostate, hout⟩ | ⟨drawn, t, hdrawn, hstart, hstream, hout⟩ :=
    Transport.step_starts hstep
  · have hnone := handed_of_same e salt hsame
    refine ⟨hsecret.trans h.secret_eq, ⟨code, ?_, hwire, ?_⟩, ?_⟩
    · have hstarted : started { z with
          transport := x, pending := z.pending ++ handed e salt z.transport x } = z.started := by
        rw [started, started, hsame]
      rw [hstarted]
      exact hcode.congr hsecret hostate
    · intro hbroken
      dsimp only
      rw [hnone, List.append_nil]
      exact hall hbroken
    · intro hnil
      dsimp only at hnil ⊢
      rw [hnone, List.append_nil]
      cases hev : tev.isWriteDone with
      | false =>
        apply h.idle
        rw [← hout hev, hnil]
      | true => exact hdone hev
  · obtain ⟨rfl, hne⟩ := hsalt drawn hdrawn
    have hgiven := handed_of_start e drawn hstart
    refine ⟨?_, ⟨code ++ (z.transport.stream.asyncWrite e drawn t.buffer).2.1, ?_, ?_, ?_⟩, ?_⟩
    · dsimp only
      rw [hstream, Stream.asyncWrite_secret, h.secret_eq]
    · have hstarted : started { z with
          transport := x, pending := z.pending ++ handed e drawn z.transport x } =
          z.started ++ t.buffer := by
        rw [started, started, hstart, List.map_append, List.flatten_append, List.map_singleton,
          List.flatten_singleton]
      rw [hstarted]
      dsimp only
      rw [hstream]
      exact hcode.write hne t.buffer
    · exact hwire.trans (List.prefix_append _ _)
    · intro hbroken
      dsimp only
      rw [hgiven, ← List.append_assoc, hall hbroken]
    · intro hnil
      exact absurd hnil hout

theorem Sends.step (h : z.Sends e secret) (hdrawn : ev.Drawn)
    (hstep : z.step e q peer ev = some z') : z'.Sends e secret := by
  obtain ⟨salt, tev, -, hev, hsalt, hgo⟩ | ⟨n, hbroken, hle, rfl⟩ |
    ⟨salt, ec, count, hne, hpending, hgo⟩ | ⟨ec, n, kind, t, -, -, -, -, hgo⟩ := step_cases hstep
  · refine h.go (fun drawn hd => ?_) (fun hdone => ?_) hgo
    · exact (hsalt drawn hd).imp_right fun hs => hs hdrawn
    · rw [hev] at hdone
      cases hdone
  · obtain ⟨code, hcode, -, hall⟩ := h.coded
    have hsplit : z.wire ++ z.pending.take n ++ z.pending.drop n = code := by
      rw [List.append_assoc, List.take_append_drop, hall hbroken]
    refine ⟨h.secret_eq, ⟨code, hcode, ⟨_, hsplit⟩, fun _ => hsplit⟩, fun hnil => ?_⟩
    dsimp only
    rw [h.idle hnil, List.drop_nil]
  · have hwrote : (z.wrote ec).Sends e secret := by
      obtain ⟨code, hcode, hwire, hall⟩ := h.coded
      refine ⟨h.secret_eq, ⟨code, hcode, hwire, fun hbroken => ?_⟩, fun _ => rfl⟩
      obtain ⟨hz, hec⟩ := Bool.or_eq_false_iff.mp hbroken
      rw [← hall hz, hpending (by simpa using hec)]
      rfl
    refine hwrote.go (fun drawn hd => ?_) (fun _ => rfl) hgo
    cases hd
    exact ⟨rfl, hne hdrawn⟩
  · have hheard : (heard e peer z ec n kind).Sends e secret := ⟨h.secret_eq, h.coded, h.idle⟩
    refine hheard.go (fun drawn hd => ?_) (fun hdone => ?_) hgo
    · cases hd
    · cases hdone

/-- What is on the wire of an end with a secret begins a code. -/
theorem Sends.code (h : z.Sends e secret) (hsecret : secret ≠ 0) :
    ∃ salt all, salt ≠ 0 ∧ z.wire <+: Stream.encode e secret salt all := by
  obtain ⟨code, hcode, hwire, -⟩ := h.coded
  cases hcode with
  | clear hs _ => exact absurd (h.secret_eq.symm.trans hs) hsecret
  | silent _ _ _ hnil =>
    refine ⟨1, [], by decide, ?_⟩
    rw [hnil] at hwire
    exact hwire.trans List.nil_prefix
  | keyed salt _ hsalt _ hkeyed =>
    rw [h.secret_eq] at hkeyed
    exact ⟨salt, _, hsalt, hkeyed ▸ hwire⟩

/-! ## The reading end -/

/-- What an end made of the bytes of its peer. Those that reads took after the channel was gone are
lost to it, unless there is no secret. -/
structure Hears (e : Endian) (secret : UInt64) (peer : Bytes) (z : End) : Prop where
  secret_eq : z.transport.stream.secret = secret
  kinds : ∀ op ∈ z.transport.reads.outstanding, op.1 = z.transport.stream.asyncRead
  taken_le : z.taken ≤ peer.length
  decoded : ∃ code, code <+: peer.take z.taken ∧ z.transport.stream.Heard e code z.delivered ∧
    (z.transport.alive = true ∨ secret = 0 → code = peer.take z.taken)
  head : secret ≠ 0 → z.ended = false → z.taken < headSize → z.taken = 0

/-- The peer may go on. -/
theorem Hears.grow {peer' : Bytes} (h : z.Hears e secret peer) (hgrow : peer <+: peer') :
    z.Hears e secret peer' := by
  obtain ⟨more, rfl⟩ := hgrow
  have htake : (peer ++ more).take z.taken = peer.take z.taken :=
    List.take_append_of_le_length h.taken_le
  refine ⟨h.secret_eq, h.kinds, ?_, ?_, h.head⟩
  · rw [List.length_append]
    exact h.taken_le.trans (Nat.le_add_right _ _)
  · rw [htake]
    exact h.decoded

/-- A step of the channel that completes no read. -/
theorem Hears.go {salt : UInt64} {tev : Transport.Event} (h : z.Hears e secret peer)
    (hev : tev.isReadDone = false) (hgo : z.go e q salt tev = some z') :
    z'.Hears e secret peer := by
  obtain ⟨x, hstep, rfl⟩ := go_eq_some hgo
  obtain ⟨hsecret, histate, hout⟩ := Transport.step_listens hstep hev
  have hkind := Stream.asyncRead_congr hsecret histate
  obtain ⟨code, hcode, hheard, hall⟩ := h.decoded
  refine ⟨hsecret.trans h.secret_eq, fun op hop => ?_, h.taken_le,
    ⟨code, hcode, hheard.congr hsecret histate, fun hz => ?_⟩, h.head⟩
  · rw [hkind]
    obtain hsame | ⟨t, hmore⟩ := hout
    · exact h.kinds op (hsame ▸ hop)
    · obtain hold | hnew := List.mem_append.mp (hmore ▸ hop)
      · exact h.kinds op hold
      · rw [List.mem_singleton.mp hnew]
  · exact hall (hz.imp_left fun hx => (Transport.step_reads hstep hx).1)

/-- The bytes that a read takes are the next ones. -/
theorem take_moved {n : Nat} (hn : (moved peer z n).length = n) (hle : z.taken ≤ peer.length) :
    peer.take (z.taken + n) = peer.take z.taken ++ moved peer z n ∧
      z.taken + n ≤ peer.length := by
  refine ⟨List.take_add, ?_⟩
  rw [moved, List.length_take, List.length_drop] at hn
  omega

theorem delivered_heard (e : Endian) (peer : Bytes) (z : End) (ec : Ec) (n : Nat) (kind : Reading) :
    (heard e peer z ec n kind).delivered = z.delivered ++
      (z.transport.stream.received e z.transport.alive (moved peer z n) ec kind).2.chunk.take
        (z.transport.stream.received e z.transport.alive (moved peer z n) ec kind).2.size := by
  rw [delivered, heard, List.map_append, List.flatten_append, List.map_singleton,
    List.flatten_singleton]
  rfl

/-- The completion of a read. -/
theorem Hears.readDone {ec : Ec} {n : Nat} {kind : Reading} {t : Task} {salt : UInt64}
    {all : Bytes} (h : z.Hears e secret peer)
    (hlined : z.transport.alive = true → z.transport.reads.Lined)
    (hpeer : secret ≠ 0 → salt ≠ 0 ∧ peer <+: Stream.encode e secret salt all)
    (hplace : z.transport.reads.outstanding[0]? = some (kind, t))
    (hn : (moved peer z n).length = n) (hec : ec = .success → (Operation.read kind).front ≤ n)
    (hended : z.ended = true → n = 0)
    (hgo : (heard e peer z ec n kind).go e q 0 (.readDone 0 ec (moved peer z n)) = some z') :
    z'.Hears e secret peer := by
  have hkind : kind = z.transport.stream.asyncRead := h.kinds _ (List.mem_of_getElem? hplace)
  obtain ⟨htake, hle⟩ := take_moved hn h.taken_le
  obtain ⟨code, hcode, hheard, hall⟩ := h.decoded
  obtain ⟨x, hstep, rfl⟩ := go_eq_some hgo
  have hx : (z.transport.readOver 0
      (z.transport.stream.received e z.transport.alive (moved peer z n) ec kind).1).readDone t
      (z.transport.stream.received e z.transport.alive (moved peer z n) ec kind).2.ec
      (z.transport.stream.received e z.transport.alive (moved peer z n) ec kind).2.size = x := by
    have hstep : z.transport.step e q (.readDone 0 ec (moved peer z n)) = some x := hstep
    simp only [Transport.step, hplace] at hstep
    exact Option.some.inj hstep
  obtain ⟨hstream, halive, hout⟩ := Transport.readDone_reading z.transport 0
    (z.transport.stream.received e z.transport.alive (moved peer z n) ec kind).1 t
    (z.transport.stream.received e z.transport.alive (moved peer z n) ec kind).2.ec
    (z.transport.stream.received e z.transport.alive (moved peer z n) ec kind).2.size
  rw [hx] at hstream halive hout
  -- within the head, a read that moves bytes is the first one
  have hfirst : secret ≠ 0 → z.taken < headSize → n = 0 ∨ z.taken = 0 := by
    intro hs hlt
    cases hend : z.ended with
    | true => exact .inl (hended hend)
    | false => exact .inr (h.head hs hend hlt)
  refine ⟨?_, fun op hop => ?_, hle, ?_, ?_⟩
  · show x.stream.secret = secret
    rw [hstream, (Stream.received_writing _ _ _ _ _ _).1, h.secret_eq]
  · show op.1 = x.stream.asyncRead
    obtain hold | hnew := hout op hop
    · by_cases hz : z.transport.alive = true
      · rw [((hlined hz).first hplace).1] at hold
        cases hold
      · rw [hstream, Bool.eq_false_of_not_eq_true hz, Stream.received_gone]
        exact h.kinds op (List.mem_of_mem_eraseIdx hold)
    · rw [hstream, hnew]
  · show ∃ code, code <+: peer.take (z.taken + n) ∧
      x.stream.Heard e code (heard e peer z ec n kind).delivered ∧
      (x.alive = true ∨ secret = 0 → code = peer.take (z.taken + n))
    rw [delivered_heard, hstream, halive, hkind, htake]
    by_cases hz : z.transport.alive = true ∨ secret = 0
    · have hcode := hall hz
      subst hcode
      refine ⟨_, List.prefix_rfl, ?_, fun _ => rfl⟩
      apply hheard.received ec (by rwa [h.secret_eq])
      · intro hs
        obtain ⟨hsalt, hprefix⟩ := hpeer (by rwa [← h.secret_eq])
        rw [h.secret_eq, ← htake]
        exact ⟨hsalt, (List.take_prefix _ _).trans hprefix⟩
      · intro hs hlt
        rw [List.length_take_of_le h.taken_le] at hlt
        obtain rfl | hzero := hfirst (by rwa [← h.secret_eq]) hlt
        · exact .inl (List.length_eq_zero_iff.mp hn)
        · exact .inr (by rw [hzero, List.take_zero])
    · obtain ⟨hgone, hs⟩ := not_or.mp hz
      have hs' : z.transport.stream.secret ≠ 0 := by rwa [h.secret_eq]
      refine ⟨code, hcode.trans (List.prefix_append _ _), ?_, fun hx => absurd hx hz⟩
      rw [Bool.eq_false_of_not_eq_true hgone, Stream.received_gone,
        Stream.size_received_gone e _ ec hs', List.take_zero, List.append_nil]
      exact hheard
  · show secret ≠ 0 → (z.ended || ec != .success) = false → z.taken + n < headSize →
      z.taken + n = 0
    intro hs hend hlt
    obtain ⟨hend, hec'⟩ := Bool.or_eq_false_iff.mp hend
    have hzero := h.head hs hend (by omega)
    rw [hzero, List.take_zero, List.prefix_nil] at hcode
    subst hcode
    have hhead := hheard.asyncRead_head (by rwa [h.secret_eq]) (by decide)
    have hfront := hec (by simpa using hec')
    rw [hkind, hhead] at hfront
    exact absurd hlt (Nat.not_lt.mpr (hfront.trans (Nat.le_add_left _ _)))

/-- A step at one end. -/
theorem Hears.step {salt : UInt64} {all : Bytes} (h : z.Hears e secret peer)
    (hlined : z.transport.alive = true → z.transport.reads.Lined)
    (hpeer : secret ≠ 0 → salt ≠ 0 ∧ peer <+: Stream.encode e secret salt all)
    (hstep : z.step e q peer ev = some z') : z'.Hears e secret peer := by
  obtain ⟨_, tev, hev, -, -, hgo⟩ | ⟨n, -, -, rfl⟩ | ⟨_, ec, count, -, -, hgo⟩ |
    ⟨ec, n, kind, t, hplace, hn, hec, hended, hgo⟩ := step_cases hstep
  · exact h.go hev hgo
  · exact ⟨h.secret_eq, h.kinds, h.taken_le, h.decoded, h.head⟩
  · have hwrote : (z.wrote ec).Hears e secret peer :=
      ⟨h.secret_eq, h.kinds, h.taken_le, h.decoded, h.head⟩
    exact hwrote.go rfl hgo
  · exact h.readDone hlined hpeer hplace hn hec hended hgo

/-! ## The two ends -/

/-- What is on the wire stays there. -/
theorem wire_grows (hstep : z.step e q peer ev = some z') : z.wire <+: z'.wire := by
  obtain ⟨_, _, -, -, -, hgo⟩ | ⟨n, -, -, rfl⟩ | ⟨_, _, _, -, -, hgo⟩ |
    ⟨_, _, _, _, -, -, -, -, hgo⟩ := step_cases hstep
  · obtain ⟨_, -, rfl⟩ := go_eq_some hgo
    exact List.prefix_rfl
  · exact List.prefix_append _ _
  · obtain ⟨_, -, rfl⟩ := go_eq_some hgo
    exact List.prefix_rfl
  · obtain ⟨_, -, rfl⟩ := go_eq_some hgo
    exact List.prefix_rfl

/-- The channel at an end goes through states that are its own. -/
theorem step_reachable (h : (Transport.system e q secret).Reachable z.transport)
    (hstep : z.step e q peer ev = some z') :
    (Transport.system e q secret).Reachable z'.transport := by
  obtain ⟨_, tev, -, -, -, hgo⟩ | ⟨_, -, -, rfl⟩ | ⟨salt, ec, count, -, -, hgo⟩ |
    ⟨ec, n, _, _, -, -, -, -, hgo⟩ := step_cases hstep
  · obtain ⟨x, hx, rfl⟩ := go_eq_some hgo
    exact .next h trivial hx
  · exact h
  · obtain ⟨x, hx, rfl⟩ := go_eq_some hgo
    exact .next (e := .writeDone 0 salt ec count) h trivial hx
  · obtain ⟨x, hx, rfl⟩ := go_eq_some hgo
    exact .next (e := .readDone 0 ec (moved peer z n)) h trivial hx

end End

/-- The writes that were started are the first of those accepted, also of a channel that is gone. -/
theorem Transport.started_prefix {e : Endian} {q : Qos} {secret : UInt64} {x : Transport}
    (h : (system e q secret).Reachable x) : x.writes.started <+: x.writes.accepted := by
  induction h with
  | start hx =>
    cases hx
    exact List.prefix_rfl
  | @next x x' ev hx _ hstep ih =>
    by_cases hx' : x'.alive = true
    · obtain ⟨left, haccepted, hstarted, -⟩ := (lined (.next hx trivial hstep) hx').writesTurn
      rw [haccepted, hstarted]
      exact (List.prefix_append_right_inj left).mpr (List.take_prefix _ _)
    · by_cases halive : x.alive = true
      · obtain ⟨-, hthere, -⟩ | ⟨_, _, -, -, -, -, rfl⟩ | ⟨_, _, _, _, _, -, -, -, -, rfl⟩ |
          ⟨place, _, t, stream, ec, count, -, rfl⟩ | ⟨place, _, t, salt, ec, count, -, rfl⟩ |
          ⟨-, rfl⟩ := step_cases hstep
        · exact absurd hthere hx'
        · exact absurd halive hx'
        · exact absurd halive hx'
        · exact absurd ((readDone_reading x place stream t ec count).2.1.trans halive) hx'
        · obtain ⟨stream, head, heq⟩ := writeDone_alive (e := e) halive place salt t ec count
          rw [heq] at hx'
          exact absurd halive hx'
        · exact ih
      · obtain ⟨-, ⟨hsame, -⟩ | ⟨-, place, head, t, ec, count, -, hwrites⟩⟩ :=
          step_gone (Bool.eq_false_of_not_eq_true halive) hstep
        · rwa [hsame]
        · rw [hwrites]
          exact ih

namespace Connection

variable {e : Endian} {q : Side → Qos} {secret : UInt64} {c c' : Connection}

/-- Both ends are in order. -/
structure Kept (e : Endian) (q : Side → Qos) (secret : UInt64) (c : Connection) : Prop where
  reachable : ∀ x, (Transport.system e (q x) secret).Reachable (c.node x).transport
  sends : ∀ x, (c.node x).Sends e secret
  hears : ∀ x, (c.node x).Hears e secret (c.node x.other).wire

theorem Kept.create (e : Endian) (q : Side → Qos) (secret : UInt64) :
    Kept e q secret ⟨fun _ => .create secret⟩ := by
  refine ⟨fun x => ?_, fun _ => ⟨rfl, ⟨[], ?_, List.prefix_rfl, fun _ => rfl⟩, fun _ => rfl⟩,
    fun _ => ⟨rfl, ?_, Nat.le_refl 0, ⟨[], List.prefix_rfl, ?_, fun _ => rfl⟩, fun _ _ _ => rfl⟩⟩
  · exact .next (e := .socket true) (.start rfl) trivial rfl
  · by_cases hs : secret = 0
    · exact .clear hs rfl
    · exact .silent hs rfl rfl rfl
  · intro op hop
    cases hop
  · by_cases hs : secret = 0
    · exact .clear hs rfl
    · exact .silent hs rfl (by decide) rfl

theorem Kept.step {a : Act} (h : c.Kept e q secret) (hdrawn : a.event.Drawn)
    (hstep : c.step e q a = some c') : c'.Kept e q secret := by
  obtain ⟨z, hz, rfl⟩ := Option.map_eq_some_iff.mp hstep
  have hother := Side.other_ne a.side
  refine ⟨fun y => ?_, fun y => ?_, fun y => ?_⟩
  · obtain rfl | rfl := Side.eq_or_other a.side y
    · rw [put_node_self]
      exact End.step_reachable (h.reachable a.side) hz
    · rw [put_node_of_ne hother]
      exact h.reachable a.side.other
  · obtain rfl | rfl := Side.eq_or_other a.side y
    · rw [put_node_self]
      exact (h.sends a.side).step hdrawn hz
    · rw [put_node_of_ne hother]
      exact h.sends a.side.other
  · obtain rfl | rfl := Side.eq_or_other a.side y
    · rw [put_node_self, put_node_of_ne hother]
      have hlined := fun halive => (Transport.lined (h.reachable a.side) halive).reads
      by_cases hs : secret = 0
      · have hnone : secret ≠ 0 →
            (1 : UInt64) ≠ 0 ∧ (c.node a.side.other).wire <+: Stream.encode e secret 1 [] :=
          fun hne => absurd hs hne
        exact (h.hears a.side).step hlined hnone hz
      · obtain ⟨salt, all, hcode⟩ := (h.sends a.side.other).code hs
        exact (h.hears a.side).step hlined (fun _ => hcode) hz
    · rw [Side.other_other, put_node_self, put_node_of_ne hother]
      have hkeeps := h.hears a.side.other
      rw [Side.other_other] at hkeeps
      exact hkeeps.grow (End.wire_grows hz)

theorem kept (h : (system e q secret).Reaches (fun _ a => a.event.Drawn) c) :
    c.Kept e q secret := by
  refine System.Reaches.invariant ?_ ?_ h
  · rintro c rfl
    exact .create e q secret
  · intro c a c' hdrawn hc hstep
    exact hc.step hdrawn hstep

/-- What the reads of one end are given is the first part of what was written at the other end, in
order and with no gap, whatever the completions are, whenever a channel is closed or let go, and
whatever the secret makes of the bytes between them. Once no write is queued or has failed and
all of the wire was taken, it is all that was written. -/
theorem reads_written {e : Endian} {q : Side → Qos} {secret : UInt64} {c : Connection}
    (h : (system e q secret).Reaches (fun _ a => a.event.Drawn) c) (x : Side) :
    (c.node x.other).delivered <+: (c.node x).written ∧
      ((c.node x).transport.alive = true → (c.node x).transport.writes.queue = [] →
        (c.node x).broken = false → (c.node x.other).transport.alive = true →
        (c.node x.other).taken = (c.node x).wire.length →
        (c.node x.other).delivered = (c.node x).written) := by
  have hkept := kept h
  have hsends := hkept.sends x
  have hhears := hkept.hears x.other
  rw [Side.other_other] at hhears
  obtain ⟨code, hcode, hwire, hout⟩ := hsends.coded
  obtain ⟨part, hpart, hheard, hall⟩ := hhears.decoded
  have hsecret := hhears.secret_eq.trans hsends.secret_eq.symm
  obtain ⟨hfirst, hwhole⟩ := hheard.coded hcode hsecret
    ((hpart.trans (List.take_prefix _ _)).trans hwire)
  have hstarted : (c.node x).started <+: (c.node x).written := by
    obtain ⟨rest, hrest⟩ := Transport.started_prefix (hkept.reachable x)
    rw [End.started, End.written, ← hrest, List.map_append, List.flatten_append]
    exact List.prefix_append _ _
  refine ⟨hfirst.trans hstarted, ?_⟩
  intro halive hqueue hbroken hthere htaken
  have hlined := Transport.lined (hkept.reachable x) halive
  obtain ⟨left, haccepted, hbegun, -⟩ := hlined.writesTurn
  have hnone : (c.node x).transport.writes.outstanding = [] := by
    have hfirst := hlined.writes.outstanding
    rwa [hqueue, List.take_nil, List.map_eq_nil_iff] at hfirst
  -- the wire has the code of all that was written
  have hcode' := hout hbroken
  rw [hsends.idle hnone, List.append_nil] at hcode'
  have hpart' := hall (.inl hthere)
  rw [htaken, List.take_length, hcode'] at hpart'
  rw [hwhole hpart', End.started, End.written, haccepted, hbegun, hqueue, List.take_nil]

/-- Three bytes under a secret go out in two pieces and are read as two and one. -/
def exchange : List Act :=
  [⟨.left, .write 7 [1, 2, 3] 1⟩, ⟨.left, .flow 17⟩, ⟨.right, .read [0, 0] 2⟩, ⟨.left, .flow 2⟩,
    ⟨.right, .read [0] 3⟩, ⟨.right, .readDone .success 18⟩, ⟨.left, .writeDone 7 .success⟩,
    ⟨.right, .readDone .success 1⟩]

theorem reads_written_exchange :
    ∃ c : Connection, (c.node .right).delivered = [1, 2, 3] ∧
      (c.node .right).delivered = (c.node .left).written := by
  have hrun : ((system .little (fun _ => .default) 5).run ⟨fun _ => .create 5⟩ exchange).map
      (fun c => decide ((c.node .left).transport.alive = true ∧
        (c.node .left).transport.writes.queue = [] ∧ (c.node .left).broken = false ∧
        (c.node .right).transport.alive = true ∧
        (c.node .right).taken = (c.node .left).wire.length ∧
        (c.node .right).delivered = [1, 2, 3])) = some true := by
    decide +kernel
  obtain ⟨c, hc, hv⟩ := Option.map_eq_some_iff.mp hrun
  obtain ⟨halive, hqueue, hbroken, hthere, htaken, hdelivered⟩ := of_decide_eq_true hv
  have hreached : (system .little (fun _ => .default) 5).Reaches (fun _ a => a.event.Drawn) c := by
    refine System.Reaches.run exchange (.start rfl) (fun _ a ha => ?_) hc
    simp only [exchange, List.mem_cons, List.not_mem_nil, or_false] at ha
    rcases ha with rfl | rfl | rfl | rfl | rfl | rfl | rfl | rfl <;> simp [End.Event.Drawn]
  exact ⟨c, hdelivered, (reads_written hreached .left).2 halive hqueue hbroken hthere htaken⟩

end Connection

end Tubus.Tcp
