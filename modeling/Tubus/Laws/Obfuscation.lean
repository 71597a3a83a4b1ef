import Tubus.Lib.Keystream
import Tubus.Tcp.Proto
import Tubus.Udp.Proto

/-!
# Reading what was written

`alter_data` lays a key stream over the data: the blocks are the words that `make_inverter` gives
one after another, starting after the word that covers the head. A state stands for a position in
that stream (`Cipher.At`), and `alter_data` masks from the position on and moves by the length of
the data, however the position falls into words (`Cipher.At.masks`). So the reader, which starts at
the same position as the writer, takes off what was laid on, whatever the cuts (`read_back`).

`packet::invert` does the same with one packet, and a packet that begins with a zero word comes
back when it is run twice (`invert_invert`).
-/

namespace Tubus

open Lib

namespace Endian

theorem toBE_xor (n a b : Nat) : toBE n (a ^^^ b) = xorBytes (toBE n a) (toBE n b) := by
  induction n generalizing a b with
  | zero => rfl
  | succ n ih =>
    have hdiv : (a ^^^ b) / 256 = a / 256 ^^^ b / 256 := Nat.xor_div_two_pow (n := 8)
    rw [toBE, toBE, toBE, hdiv, ih, UInt8.ofNat_xor, xorBytes, xorBytes,
      List.zipWith_append (by simp)]
    rfl

/-- The memory of two words xored is their memory xored. -/
theorem store_xor (e : Endian) (a b : UInt64) :
    e.store (a ^^^ b) = xorBytes (e.store a) (e.store b) := by
  cases e with
  | big => simp only [store, UInt64.toNat_xor, toBE_xor]
  | little =>
    simp only [store, UInt64.toNat_xor, toBE_xor, xorBytes]
    rw [List.reverse_zipWith (by simp)]

end Endian

/-- Both directions use the same words. -/
theorem makeInverter_dim (e : Endian) (secret salt : UInt64) (dim : Bool) :
    makeInverter e secret salt dim = makeInverter e secret salt true := by
  cases dim with
  | true => rfl
  | false => simp [makeInverter, Endian.be64toh_eq]

namespace Tcp

/-- The word after a word. -/
def nextWord (e : Endian) (salt word : UInt64) : UInt64 := makeInverter e word salt true

/-- The key stream after the word of the head. -/
def key (e : Endian) (salt word : UInt64) : ℕ → UInt8 := blockKey 8 e.store (nextWord e salt) word

namespace Cipher

variable {e : Endian} {salt word : UInt64} {p : ℕ} {c : Cipher}

/-- A state at a position of the key stream. -/
structure At (e : Endian) (salt word : UInt64) (p : ℕ) (c : Cipher) : Prop where
  salt_eq : c.salt = salt
  inverter : c.inverter = (nextWord e salt)^[(p + 7) / 8] word
  shift : c.shift = p % 8

/-- The bytes of the word in use, from a position within it. -/
theorem key_in_word (e : Endian) (salt word : UInt64) {i n : ℕ} (hn : n = p / 8 + 1)
    (hi : p % 8 + i < 8) :
    (e.store ((nextWord e salt)^[n] word))[p % 8 + i]? = some (key e salt word (p + i)) := by
  rw [hn]
  exact block_getElem? e.length_store hi

/-! ## The loops -/

theorem alterBegun_eq (key : ℕ → UInt8) (block data : Bytes) (p shift : ℕ)
    (hle : shift ≤ 8) (hkey : ∀ i, shift + i < 8 → block[shift + i]? = some (key (p + i))) :
    alterBegun block shift data =
      (mask (· ^^^ ·) key p (data.take (8 - shift)), min 8 (shift + data.length),
        data.drop (8 - shift)) := by
  induction data generalizing p shift with
  | nil => simp [alterBegun, hle]
  | cons b data ih =>
    unfold alterBegun
    by_cases hlt : shift < 8
    · have hhead : block[shift]? = some (key p) := hkey 0 hlt
      have hrest := ih (p + 1) (shift + 1) hlt fun i hi => by
        rw [Nat.add_right_comm, Nat.add_assoc shift, Nat.add_right_comm p, Nat.add_assoc p]
        exact hkey (i + 1) (by omega)
      have hsub : 8 - shift = 8 - (shift + 1) + 1 := by omega
      simp only [if_pos hlt, hrest, hhead, Option.getD_some]
      rw [hsub, List.take_succ_cons, List.drop_succ_cons, mask, List.length_cons]
      simp only [Prod.mk.injEq, and_true, true_and]
      omega
    · have heq : shift = 8 := by omega
      simp [heq]

theorem alterTail_eq (key : ℕ → UInt8) (block data : Bytes) (p shift : ℕ)
    (hkey : ∀ i, i < data.length → block[i]? = some (key (p + i))) :
    alterTail block shift data = (mask (· ^^^ ·) key p data, shift + data.length) := by
  induction data generalizing p shift block with
  | nil => rfl
  | cons b data ih =>
    have hhead : block.head? = some (key p) := by
      rw [List.head?_eq_getElem?]
      exact hkey 0 (Nat.zero_lt_succ _)
    have hrest := ih block.tail (p + 1) (shift + 1) fun i hi => by
      rw [List.getElem?_tail, Nat.add_right_comm, Nat.add_assoc p]
      exact hkey (i + 1) (Nat.succ_lt_succ hi)
    simp only [alterTail, hrest, hhead, Option.getD_some, mask, List.length_cons, Prod.mk.injEq,
      true_and]
    omega

/-- The whole words of some data, from the start of a word on. -/
theorem alterWords_eq (e : Endian) (salt word : UInt64) (dim : Bool) (fuel : ℕ) {data : Bytes}
    (hdata : data ≠ []) (hfuel : data.length ≤ fuel) (hp : p % 8 = 0) :
    alterWords e salt dim fuel ((nextWord e salt)^[p / 8 + 1] word) data =
      (mask (· ^^^ ·) (key e salt word) p (data.take (8 * (data.length / 8))),
        (nextWord e salt)^[(p + data.length + 7) / 8] word, data.drop (8 * (data.length / 8))) := by
  induction fuel generalizing p data with
  | zero =>
    have hpos := List.length_pos_iff.mpr hdata
    omega
  | succ fuel ih =>
    unfold alterWords
    by_cases hlen : 8 ≤ data.length
    · have hfirst : e.store (e.load (data.take 8) ^^^ (nextWord e salt)^[p / 8 + 1] word) =
          mask (· ^^^ ·) (key e salt word) p (data.take 8) := by
        have htake : (data.take 8).length = 8 := by simpa using hlen
        rw [Endian.store_xor, e.store_load htake, xorBytes]
        refine (mask_eq_zipWith (by rw [htake, e.length_store]) fun i hi => ?_).symm
        have hin := key_in_word e salt word (p := p) (i := i) rfl (by omega)
        rwa [hp, Nat.zero_add] at hin
      simp only [if_pos hlen, hfirst]
      by_cases hrest : data.drop 8 = []
      · have height : data.length = 8 := by
          have hdrop := congrArg List.length hrest
          rw [List.length_drop, List.length_nil] at hdrop
          omega
        have hnil : ∀ n w, alterWords e salt dim n w [] = ([], w, []) := by
          intro n w
          cases n <;> simp [alterWords]
        simp only [hrest, List.isEmpty_nil, if_true, hnil, height, List.append_nil]
        rw [show (p + 8 + 7) / 8 = p / 8 + 1 by omega]
      · have hstep := ih (p := p + 8) hrest (by rw [List.length_drop]; omega) (by omega)
        have hword : makeInverter e ((nextWord e salt)^[p / 8 + 1] word) salt dim =
            (nextWord e salt)^[(p + 8) / 8 + 1] word := by
          rw [makeInverter_dim, show (p + 8) / 8 + 1 = p / 8 + 1 + 1 by omega,
            Function.iterate_succ_apply' _ (p / 8 + 1)]
          rfl
        have hcount : 8 * (data.length / 8) = 8 + 8 * ((data.length - 8) / 8) := by omega
        rw [if_neg (by simpa using hrest), hword, hstep, hcount, List.length_drop, List.take_add,
          mask_append, List.length_take, Nat.min_eq_left hlen, List.drop_drop]
        rw [show p + 8 + (data.length - 8) + 7 = p + data.length + 7 by omega]
    · have hzero : data.length / 8 = 0 := by omega
      have hpos := List.length_pos_iff.mpr hdata
      rw [if_neg hlen, hzero, show (p + data.length + 7) / 8 = p / 8 + 1 by omega]
      rfl

/-! ## All of `alter_data` -/

/-- The part after the first loop, which runs on when a word is used up. -/
theorem At.fresh (h : At e salt word p c) (dim : Bool) (data : Bytes)
    (hp : data ≠ [] → p % 8 = 0) :
    (c.alterFresh e dim data).2 = mask (· ^^^ ·) (key e salt word) p data ∧
      At e salt word (p + data.length) (c.alterFresh e dim data).1 := by
  unfold alterFresh
  by_cases hdata : data = []
  · simpa [hdata] using h
  · have hp := hp hdata
    have hword : makeInverter e c.inverter salt dim = (nextWord e salt)^[p / 8 + 1] word := by
      rw [makeInverter_dim, h.inverter, show (p + 7) / 8 = p / 8 by omega,
        Function.iterate_succ_apply']
      rfl
    have hwords := alterWords_eq e salt word dim data.length hdata (Nat.le_refl _) hp
    have hcount : 8 * (data.length / 8) ≤ data.length := by omega
    have htail := alterTail_eq (key e salt word)
      (e.store ((nextWord e salt)^[(p + data.length + 7) / 8] word))
      (data.drop (8 * (data.length / 8)))
      (p + 8 * (data.length / 8)) c.shift fun i hi => by
        rw [List.length_drop] at hi
        have hin := key_in_word e salt word (p := p + 8 * (data.length / 8)) (i := i)
          (n := (p + data.length + 7) / 8) (by omega) (by omega)
        rwa [show (p + 8 * (data.length / 8)) % 8 = 0 by omega, Nat.zero_add] at hin
    rw [if_neg (by simpa using hdata)]
    simp only [h.salt_eq, hword, hwords, htail]
    refine ⟨?_, ⟨rfl, rfl, ?_⟩⟩
    · show _ ++ _ = _
      nth_rewrite 2 [← Nat.min_eq_left hcount]
      rw [← List.length_take, ← mask_append, List.take_append_drop]
    · show c.shift + (data.drop (8 * (data.length / 8))).length = (p + data.length) % 8
      rw [h.shift, List.length_drop]
      omega

/-- `alter_data` masks from the position of the state on, and moves the position. -/
theorem At.masks (h : At e salt word p c) (dim : Bool) (data : Bytes) :
    (c.alterData e dim data).2 = mask (· ^^^ ·) (key e salt word) p data ∧
      At e salt word (p + data.length) (c.alterData e dim data).1 := by
  unfold alterData
  have hshift := h.shift
  by_cases hpos : 0 < c.shift
  · have hbegun := alterBegun_eq (key e salt word) (e.store c.inverter) data p c.shift
      (by omega) fun i hi => by
        rw [hshift, h.inverter]
        exact key_in_word e salt word (by omega) (by omega)
    -- Where the first loop stops: at the end of the data or of the word.
    have hstop : At e salt word (p + (data.take (8 - c.shift)).length)
        { c with shift := if min 8 (c.shift + data.length) = 8 then 0
          else min 8 (c.shift + data.length) } := by
      refine ⟨h.salt_eq, ?_, ?_⟩
      · show c.inverter = _
        have hsame : (p + 7) / 8 = (p + min (8 - c.shift) data.length + 7) / 8 := by omega
        rw [h.inverter, List.length_take, ← hsame]
      · show (if min 8 (c.shift + data.length) = 8 then 0 else min 8 (c.shift + data.length)) = _
        rw [List.length_take]
        by_cases hfull : 8 ≤ c.shift + data.length
        · rw [Nat.min_eq_left hfull, if_pos rfl, Nat.min_eq_left (by omega)]
          omega
        · rw [Nat.min_eq_right (by omega), if_neg (by omega), Nat.min_eq_right (by omega)]
          omega
    have hfresh := hstop.fresh dim (data.drop (8 - c.shift)) fun hne => by
      have hlen : 8 - c.shift < data.length := by
        by_contra hge
        exact hne (List.drop_eq_nil_of_le (by omega))
      rw [List.length_take]
      omega
    simp only [if_pos hpos, hbegun]
    rw [hfresh.1, ← mask_append, List.take_append_drop]
    refine ⟨rfl, ?_⟩
    have hend := hfresh.2
    rw [Nat.add_assoc, ← List.length_append, List.take_append_drop] at hend
    exact hend
  · rw [if_neg hpos]
    exact h.fresh dim data fun _ => by omega

/-! ## The head -/

/-- The head puts a state that was not used at the start of the key stream. -/
theorem writeHead_at (e : Endian) (secret salt sign : UInt64) :
    At e salt (makeInverter e secret salt true) 0 (create.writeHead e secret salt sign).1 :=
  ⟨rfl, rfl, rfl⟩

theorem length_writeHead (c : Cipher) (e : Endian) (secret salt sign : UInt64) :
    (c.writeHead e secret salt sign).2.length = headSize := by
  simp [writeHead, headSize]

/-- The reader of a head gets the sign, and the state of its writer. -/
theorem readHead_writeHead (c : Cipher) (e : Endian) (secret salt sign : UInt64) :
    create.readHead e secret (c.writeHead e secret salt sign).2 =
      ((create.writeHead e secret salt sign).1, sign) := by
  have hxor : ∀ a b : UInt64, a ^^^ b ^^^ b = a := by
    intro a b
    rw [UInt64.xor_assoc, UInt64.xor_self, UInt64.xor_zero]
  have hdrop : ∀ w : UInt64, (e.store w).take 8 = e.store w := by
    intro w
    exact List.take_of_length_le (by rw [e.length_store])
  have hsalt :
      e.be64toh (e.load ((c.writeHead e secret salt sign).2.take 8)) = salt ^^^ secret := by
    rw [writeHead, List.take_left' (e.length_store _), e.load_store, e.be64toh_htobe64]
  have hsign : e.be64toh (e.load (((c.writeHead e secret salt sign).2.drop 8).take 8)) =
      sign ^^^ makeInverter e secret salt true := by
    rw [writeHead, List.drop_left' (e.length_store _), hdrop, e.load_store, e.be64toh_htobe64]
  simp only [readHead, hsalt, hsign, hxor, makeInverter_dim e secret salt false]
  rfl

end Cipher

namespace Stream

variable {e : Endian} {salt word : UInt64}

/-- Chunks written after the head are masked one after another. -/
theorem writes_masked (drawn : UInt64) (hsalt : salt ≠ 0) (chunks : List Bytes) {s : Stream}
    {p : ℕ} (hsecret : s.secret ≠ 0) (hat : s.ostate.At e salt word p) :
    (s.writes e drawn chunks).2 = mask (· ^^^ ·) (key e salt word) p chunks.flatten := by
  induction chunks generalizing s p with
  | nil => rfl
  | cons chunk chunks ih =>
    obtain ⟨hdata, hnext⟩ := hat.masks true chunk
    have hplain : s.asyncWrite e drawn chunk =
        ({ s with ostate := (s.ostate.alterData e true chunk).1 },
          (s.ostate.alterData e true chunk).2, false) := by
      simp [asyncWrite, hsecret, hat.salt_eq, hsalt]
    have hrest := ih (s := { s with ostate := (s.ostate.alterData e true chunk).1 }) hsecret hnext
    simp only [writes, hplain, List.flatten_cons, mask_append]
    rw [hrest, hdata]

/-- Reads after the head take the mask off, one after another. -/
theorem reads_masked (hsalt : salt ≠ 0) (more : List (Bytes × Ec)) {s : Stream} {p : ℕ}
    (hsecret : s.secret ≠ 0) (hat : s.istate.At e salt word p) :
    ((s.reads e more).2.map Received.ec = more.map Prod.snd) ∧
      (∀ r ∈ (s.reads e more).2, r.size = r.chunk.length) ∧
      ((s.reads e more).2.map Received.chunk).flatten =
        mask (· ^^^ ·) (key e salt word) p (more.map Prod.fst).flatten := by
  induction more generalizing s p with
  | nil => exact ⟨rfl, fun r hr => absurd hr List.not_mem_nil, rfl⟩
  | cons piece more ih =>
    obtain ⟨got, ec⟩ := piece
    obtain ⟨hdata, hnext⟩ := hat.masks false got
    have hplain : s.received e true got ec s.asyncRead =
        ({ s with istate := (s.istate.alterData e false got).1 },
          ⟨ec, got.length, (s.istate.alterData e false got).2⟩) := by
      simp [asyncRead, received, hsecret, hat.salt_eq, hsalt]
    obtain ⟨hec, hsize, hchunk⟩ := ih (s := { s with
      istate := (s.istate.alterData e false got).1 }) hsecret hnext
    simp only [reads, hplain, List.map_cons, List.flatten_cons, mask_append]
    refine ⟨by rw [hec], fun r hr => ?_, by rw [hchunk, hdata]⟩
    rcases List.mem_cons.mp hr with rfl | hr
    · simp [hdata]
    · exact hsize r hr

/-- What a stream with a secret puts on the wire: the head, and the chunks under the key. -/
theorem writes_create (secret : UInt64) (hsecret : secret ≠ 0) (hsalt : salt ≠ 0)
    (chunk : Bytes) (chunks : List Bytes) :
    ((create secret).writes e salt (chunk :: chunks)).2 =
      (Cipher.create.writeHead e secret salt signature).2 ++
        mask (· ^^^ ·) (key e salt (makeInverter e secret salt true)) 0
          (chunk :: chunks).flatten := by
  obtain ⟨hdata, hnext⟩ :=
    (Cipher.writeHead_at e secret salt signature).masks true chunk
  simp only [writes, asyncWrite, create, hsecret, ne_eq, not_false_eq_true, true_and,
    List.flatten_cons, mask_append]
  rw [if_pos (show Cipher.create.salt = 0 from rfl)]
  simp only [hdata, List.append_assoc]
  rw [writes_masked salt hsalt chunks hsecret hnext]

/-- Reads of a stream that was written with the same secret, however the bytes on the wire are cut,
as long as the first read gets the head: the sign is right, every callback gets the result of its
transfer, and the chunks together are the first bytes of the chunks written. -/
theorem read_back (e : Endian) (secret salt : UInt64) (hsecret : secret ≠ 0) (hsalt : salt ≠ 0)
    (chunks : List Bytes) (first : Bytes × Ec) (more : List (Bytes × Ec)) (left : Bytes)
    (hhead : headSize ≤ first.1.length)
    (hcut : ((first :: more).map Prod.fst).flatten ++ left =
      ((create secret).writes e salt chunks).2) :
    (Cipher.create.readHead e secret (first.1.take headSize)).2 = signature ∧
      ((create secret).reads e (first :: more)).2.map Received.ec =
        (first :: more).map Prod.snd ∧
      (∀ r ∈ ((create secret).reads e (first :: more)).2, r.size = r.chunk.length) ∧
      (((create secret).reads e (first :: more)).2.map Received.chunk).flatten =
        chunks.flatten.take (((first :: more).map Prod.fst).flatten.length - headSize) := by
  obtain ⟨got, ec⟩ := first
  cases chunks with
  | nil =>
    have hlen := congrArg List.length hcut
    simp only [writes, List.map_cons, List.flatten_cons, List.length_append, List.length_nil]
      at hlen hhead
    have : 0 < headSize := by decide
    omega
  | cons chunk chunks =>
    rw [writes_create secret hsecret hsalt] at hcut
    -- The first read has the head in full, and some of the data after it.
    have hsplit :
        got = (Cipher.create.writeHead e secret salt signature).2 ++ got.drop headSize := by
      have htake := congrArg (List.take headSize) hcut
      rw [List.map_cons, List.flatten_cons, List.append_assoc,
        List.take_append_of_le_length hhead,
        List.take_left' (Cipher.length_writeHead _ e secret salt signature)] at htake
      rw [← htake, List.take_append_drop]
    generalize got.drop headSize = data at hsplit
    subst hsplit
    have hlen := Cipher.length_writeHead .create e secret salt signature
    have hwire : data ++ (more.map Prod.fst).flatten ++ left =
        mask (· ^^^ ·) (key e salt (makeInverter e secret salt true)) 0
          (chunk :: chunks).flatten := by
      rw [List.map_cons, List.flatten_cons, List.append_assoc, List.append_assoc] at hcut
      rw [List.append_assoc]
      exact List.append_cancel_left hcut
    have hread := Cipher.readHead_writeHead .create e secret salt signature
    obtain ⟨hdata, hnext⟩ := (Cipher.writeHead_at e secret salt signature).masks false data
    have hfirst : (create secret).received e true
        ((Cipher.create.writeHead e secret salt signature).2 ++ data) ec
        (create secret).asyncRead =
        ({ create secret with
            istate :=
              ((Cipher.create.writeHead e secret salt signature).1.alterData e false data).1 },
          ⟨ec, data.length,
            ((Cipher.create.writeHead e secret salt signature).1.alterData e false data).2⟩) := by
      simp only [create] at hread ⊢
      have hkind : asyncRead ⟨secret, .create, .create⟩ = .head := by
        simp [asyncRead, hsecret, Cipher.create]
      rw [hkind, received, if_pos rfl, if_neg (by rw [List.length_append]; omega),
        List.take_left' hlen, List.drop_left' hlen, hread]
      exact if_neg (fun h => h rfl)
    obtain ⟨hec, hsize, hchunk⟩ := reads_masked (e := e) hsalt more (s := { create secret with
      istate := ((Cipher.create.writeHead e secret salt signature).1.alterData e false data).1 })
      hsecret hnext
    refine ⟨?_, ?_, ?_, ?_⟩
    · rw [List.take_left' hlen, hread]
    · simp only [reads, hfirst, List.map_cons, hec]
    · simp only [reads, hfirst]
      intro r hr
      rcases List.mem_cons.mp hr with rfl | hr
      · simp [hdata]
      · exact hsize r hr
    · simp only [reads, hfirst, List.map_cons, List.flatten_cons, hchunk, hdata]
      rw [← mask_append, List.append_assoc, List.length_append, hlen, Nat.add_sub_cancel_left]
      refine mask_of_append_eq (fun a b => ?_) hwire
      rw [UInt8.xor_assoc, UInt8.xor_self, UInt8.xor_zero]

/-- Writes of three, no and eight bytes, read as four and then five. -/
theorem read_back_uneven :
    let wire := ((create 5).writes .little 7 [[1, 2, 3], [], [4, 5, 6, 7, 8, 9, 10, 11]]).2
    (((create 5).reads .little
      [(wire.take 20, .success), ((wire.drop 20).take 5, .success)]).2.map Received.chunk).flatten =
      [1, 2, 3, 4, 5, 6, 7, 8, 9] := by
  intro wire
  have hback := read_back .little 5 7 (by decide) (by decide)
    [[1, 2, 3], [], [4, 5, 6, 7, 8, 9, 10, 11]] (wire.take 20, .success)
    [((wire.drop 20).take 5, .success)] (wire.drop 25) (by decide +kernel) (by decide +kernel)
  exact hback.2.2.2.trans (by decide +kernel)

end Stream

end Tcp

namespace Udp.Datagram

open Tcp (nextWord key)

/-- The loops of `packet::invert` lay the key over the packet, from the start of a word on. -/
theorem invertLoop_eq (e : Endian) (salt word : UInt64) (dim : Bool) (fuel : Nat)
    {p : Nat} {b : Bytes} (hfuel : b.length < 8 * fuel) (hp : p % 8 = 0) :
    invertLoop e salt dim fuel ((nextWord e salt)^[p / 8 + 1] word) b =
      mask (· ^^^ ·) (key e salt word) p b := by
  induction fuel generalizing p b with
  | zero => omega
  | succ fuel ih =>
    have hword : ∀ l : Bytes, l.length ≤ 8 →
        xorBytes l (e.store ((nextWord e salt)^[p / 8 + 1] word)) =
          mask (· ^^^ ·) (key e salt word) p l := by
      intro l hl
      refine (mask_eq_zipWith (by rw [e.length_store]; exact hl) fun i hi => ?_).symm
      have hin := Tcp.Cipher.key_in_word e salt word (p := p) (i := i) rfl (by omega)
      rwa [hp, Nat.zero_add] at hin
    unfold invertLoop
    by_cases hlen : 8 ≤ b.length
    · have htake : (b.take 8).length = 8 := by simpa using hlen
      have hnext : makeInverter e ((nextWord e salt)^[p / 8 + 1] word) salt dim =
          (nextWord e salt)^[(p + 8) / 8 + 1] word := by
        rw [makeInverter_dim, show (p + 8) / 8 + 1 = p / 8 + 1 + 1 by omega,
          Function.iterate_succ_apply' _ (p / 8 + 1)]
        rfl
      rw [if_pos hlen, hword _ (Nat.le_of_eq htake), hnext,
        ih (by rw [List.length_drop]; omega) (by omega)]
      have hsplit : mask (· ^^^ ·) (key e salt word) p (b.take 8 ++ b.drop 8) = _ :=
        mask_append (b.take 8) (b.drop 8)
      rw [htake, List.take_append_drop] at hsplit
      exact hsplit.symm
    · rw [if_neg hlen, hword b (by omega)]

/-- A packet that is hidden: the salt under the secret, and the rest under the key. -/
theorem invert_hide (e : Endian) (secret salt : UInt64) (payload : Bytes) :
    invert e secret salt (List.replicate 8 0 ++ payload) =
      Endian.big.store (salt ^^^ secret) ++ mask (· ^^^ ·) (key e salt secret) 0 payload := by
  have hzero : e.load ((List.replicate 8 0 ++ payload).take 8) = 0 := by
    rw [List.take_left' (by rfl)]
    cases e <;> decide
  have hfuel : payload.length < 8 * (List.replicate 8 (0 : UInt8) ++ payload).length := by
    rw [List.length_append, List.length_replicate]
    omega
  have hloop := invertLoop_eq e salt secret true _ (p := 0) hfuel rfl
  rw [invert]
  simp only [hzero, if_true]
  rw [e.store_htobe64, List.drop_left' (by rfl)]
  exact congrArg _ hloop

/-- A packet that is shown again: the salt comes off the first word, and the key off the rest. -/
theorem invert_show (e : Endian) (secret salt drawn : UInt64) (rest : Bytes)
    (hsalt : salt ≠ secret) :
    invert e secret drawn (Endian.big.store (salt ^^^ secret) ++ rest) =
      List.replicate 8 0 ++ mask (· ^^^ ·) (key e salt secret) 0 rest := by
  have hlen : (Endian.big.store (salt ^^^ secret)).length = 8 := Endian.length_store .big _
  have hcancel : ∀ a b : UInt64, a ^^^ b ^^^ b = a := by
    intro a b
    rw [UInt64.xor_assoc, UInt64.xor_self, UInt64.xor_zero]
  have hword : e.load (Endian.big.store (salt ^^^ secret)) = e.htobe64 (salt ^^^ secret) := rfl
  -- a zero word would ask to hide the packet once more
  have hne : ¬ e.htobe64 (salt ^^^ secret) = 0 := by
    intro hzero
    have hback := e.be64toh_htobe64 (salt ^^^ secret)
    have hnone : e.be64toh 0 = 0 := by cases e <;> decide
    rw [hzero, hnone] at hback
    apply hsalt
    rw [← hcancel salt secret, ← hback, UInt64.zero_xor]
  have hfuel : rest.length < 8 * (Endian.big.store (salt ^^^ secret) ++ rest).length := by
    rw [List.length_append, hlen]
    omega
  have hloop := invertLoop_eq e salt secret false _ (p := 0) hfuel rfl
  rw [invert]
  simp only [List.take_left' hlen, List.drop_left' hlen, hword, if_neg hne, e.be64toh_htobe64,
    hcancel, makeInverter_dim e secret salt false]
  exact congrArg _ hloop

/-- `packet::invert` takes back what it did, for a packet that begins with a zero word. The second
run draws a salt of its own and does not use it. -/
theorem invert_invert (e : Endian) (secret salt drawn : UInt64) (packet : Bytes)
    (hsalt : salt ≠ secret) (hzero : packet.take 8 = List.replicate 8 0) :
    invert e secret drawn (invert e secret salt packet) = packet := by
  have hsplit : packet = List.replicate 8 0 ++ packet.drop 8 := by
    rw [← hzero, List.take_append_drop]
  have hcancel : ∀ a b : UInt8, a ^^^ b ^^^ b = a := by
    intro a b
    rw [UInt8.xor_assoc, UInt8.xor_self, UInt8.xor_zero]
  rw [hsplit, invert_hide, invert_show e secret salt drawn _ hsalt, mask_mask hcancel]

/-- A packet of a zero word and eleven bytes. -/
theorem invert_invert_eleven :
    invert .little 5 9 (invert .little 5 7
      (List.replicate 8 0 ++ [1, 2, 3, 4, 5, 6, 7, 8, 9, 10, 11])) =
      List.replicate 8 0 ++ [1, 2, 3, 4, 5, 6, 7, 8, 9, 10, 11] :=
  invert_invert .little 5 7 9 _ (by decide) rfl

end Udp.Datagram

end Tubus
