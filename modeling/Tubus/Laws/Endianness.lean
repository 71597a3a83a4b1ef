import Tubus.Laws.Obfuscation
import Tubus.Udp.Proto

/-!
# Hosts of different byte order

A key word is converted with `htobe64`, so its memory is the same on every host, and it is the
memory that is laid over the data. But the next word is made from the key word as the host reads
it: from its bytes in one order here and in the other there. So two hosts part with the second
word, unless the two readings of a word lead to the same bytes as far as they are used (`steady`).
The sign in the head of a TCP stream is xored with the word as it is read, before it is converted,
and so shows the difference already in the first word.
-/

namespace Tubus

open Lib
open Tcp (nextWord key)

/-- What `make_inverter` makes of a word before the conversion. -/
def mix (salt word : UInt64) : UInt64 :=
  let base := word + salt
  let shift := (base &&& 0x3F) ||| 0x01
  ((base >>> shift) ||| (base <<< (64 - shift))) ^^^ salt

/-- A word with its bytes in the other order. -/
def swap (word : UInt64) : UInt64 := Endian.little.htobe64 word

theorem nextWord_eq (e : Endian) (salt word : UInt64) :
    nextWord e salt word = e.htobe64 (mix salt word) := rfl

theorem htobe64_big (word : UInt64) : Endian.big.htobe64 word = word :=
  Endian.load_store .big word

/-- The memory of the word after a word is the mixed word, most significant byte first. -/
theorem store_nextWord (e : Endian) (salt word : UInt64) :
    e.store (nextWord e salt word) = Endian.big.store (mix salt word) :=
  e.store_htobe64 _

theorem store_injective (e : Endian) {a b : UInt64} (h : e.store a = e.store b) : a = b := by
  rw [← e.load_store a, h, e.load_store]

/-! ## Where two hosts agree -/

/-- Do the two readings of each word lead to the same bytes? `v` is the first word laid over `n`
bytes, and every word that has bytes behind it is tried, as far as the bytes go. -/
def steady (salt v : UInt64) (n : Nat) : Prop :=
  ∀ j, (Endian.big.store (mix salt (swap ((mix salt)^[j] v)))).take (n - 8 * (j + 1)) =
    (Endian.big.store (mix salt ((mix salt)^[j] v))).take (n - 8 * (j + 1))

/-- Words that agree in full are read in the two orders. -/
theorem little_of_store {w v : UInt64} (h : Endian.little.store w = Endian.big.store v) :
    w = swap v := by
  rw [swap, Endian.htobe64, ← h, Endian.load_store]

/-- The key streams of two hosts whose first words agree. -/
theorem keys_agree_iff {salt w w' v : UInt64} (hlittle : mix salt w = v) (hbig : mix salt w' = v)
    (n : Nat) :
    (∀ i, i < n → key .little salt w i = key .big salt w' i) ↔ steady salt v n := by
  -- the words of the big-endian host are the mixed words themselves
  have hwords : ∀ j, (nextWord .big salt)^[j + 1] w' = (mix salt)^[j] v := by
    intro j
    induction j with
    | zero =>
      rw [Function.iterate_one, nextWord_eq, htobe64_big, hbig]
      rfl
    | succ j ih =>
      rw [Function.iterate_succ_apply', ih, nextWord_eq, htobe64_big, Function.iterate_succ_apply']
  -- one word on, from words that agree in full
  have hstep : ∀ j, Endian.little.store ((nextWord .little salt)^[j + 1] w) =
        Endian.big.store ((mix salt)^[j] v) →
      Endian.little.store ((nextWord .little salt)^[j + 1 + 1] w) =
        Endian.big.store (mix salt (swap ((mix salt)^[j] v))) := by
    intro j h
    rw [Function.iterate_succ_apply', store_nextWord, little_of_store h]
  have hfull : ∀ (l l' : Bytes) (m : Nat), l.length = 8 → l'.length = 8 → 8 ≤ m →
      l.take m = l'.take m → l = l' := by
    intro l l' m hl hl' hm h
    rwa [List.take_of_length_le (by omega), List.take_of_length_le (by omega)] at h
  have hlen : ∀ e : Endian, ∀ w, (e.store w).length = 8 := Endian.length_store
  rw [key, key, blockKey_eq_iff (by decide) (hlen .little) (hlen .big)]
  constructor
  · intro hall j
    by_cases hend : 8 * (j + 1) < n
    · have hj := hall j
      rw [hwords j] at hj
      have hnext := hall (j + 1)
      rw [hstep j (hfull _ _ _ (hlen _ _) (hlen _ _) (by omega) hj), hwords (j + 1),
        Function.iterate_succ_apply'] at hnext
      exact hnext
    · rw [Nat.sub_eq_zero_of_le (by omega), List.take_zero, List.take_zero]
  · intro hsteady j
    rw [hwords j]
    induction j with
    | zero =>
      rw [Function.iterate_one, store_nextWord, hlittle]
      rfl
    | succ j ih =>
      by_cases hend : 8 * (j + 1) < n
      · rw [hstep j (hfull _ _ _ (hlen _ _) (hlen _ _) (by omega) ih), hsteady j,
          Function.iterate_succ_apply']
      · rw [Nat.sub_eq_zero_of_le (by omega), List.take_zero, List.take_zero]

theorem masks_agree_iff {salt w w' v : UInt64} (hlittle : mix salt w = v) (hbig : mix salt w' = v)
    (data : Bytes) :
    mask (· ^^^ ·) (key .little salt w) 0 data = mask (· ^^^ ·) (key .big salt w') 0 data ↔
      steady salt v data.length := by
  have hinj : ∀ a b c : UInt8, a ^^^ b = a ^^^ c → b = c := by
    intro a b c h
    have hcancel := congrArg (a ^^^ ·) h
    simpa [← UInt8.xor_assoc] using hcancel
  rw [mask_eq_mask_iff hinj, ← keys_agree_iff hlittle hbig]
  simp only [Nat.zero_add]

/-! ## Streams -/

/-- The bytes that a TCP stream puts on the wire for its first chunk. -/
def Tcp.Cipher.wire (e : Endian) (secret salt : UInt64) (data : Bytes) : Bytes :=
  let h := create.writeHead e secret salt signature
  h.2 ++ (h.1.alterData e true data).2

theorem Tcp.Cipher.wire_eq (e : Endian) (secret salt : UInt64) (data : Bytes) :
    wire e secret salt data = Endian.big.store (salt ^^^ secret) ++
      (Endian.big.store (signature ^^^ e.htobe64 (mix salt secret)) ++
        mask (· ^^^ ·) (key e salt (e.htobe64 (mix salt secret))) 0 data) := by
  have hdata := ((writeHead_at e secret salt signature).masks true data).1
  unfold wire
  dsimp only
  rw [hdata, writeHead]
  dsimp only
  rw [e.store_htobe64, e.store_htobe64, List.append_assoc]
  rfl

/-- Two hosts of different byte order put the same bytes on the wire: for a packet exactly if its
key is steady, and for a stream exactly if, besides, the first word reads the same in both
orders. -/
theorem wire_agrees_iff (secret salt : UInt64) (payload data : Bytes) :
    (Udp.Datagram.invert .little secret salt (List.replicate 8 0 ++ payload) =
        Udp.Datagram.invert .big secret salt (List.replicate 8 0 ++ payload) ↔
      steady salt (mix salt secret) payload.length) ∧
    (Tcp.Cipher.wire .little secret salt data = Tcp.Cipher.wire .big secret salt data ↔
      swap (mix salt secret) = mix salt secret ∧
        steady salt (mix salt (mix salt secret)) data.length) := by
  constructor
  · rw [Udp.Datagram.invert_hide, Udp.Datagram.invert_hide, List.append_cancel_left_eq]
    exact masks_agree_iff rfl rfl payload
  · rw [Tcp.Cipher.wire_eq, Tcp.Cipher.wire_eq, List.append_cancel_left_eq, htobe64_big]
    have hinj : ∀ a b : UInt64, Tcp.signature ^^^ a = Tcp.signature ^^^ b → a = b := by
      intro a b h
      have hcancel := congrArg (Tcp.signature ^^^ ·) h
      simpa [← UInt64.xor_assoc] using hcancel
    constructor
    · intro h
      obtain ⟨hsign, hdata⟩ := List.append_inj h (by simp)
      have hswap : swap (mix salt secret) = mix salt secret :=
        hinj _ _ (store_injective .big hsign)
      change mask _ (key _ salt (swap (mix salt secret))) 0 data = _ at hdata
      rw [hswap] at hdata
      exact ⟨hswap, (masks_agree_iff rfl rfl data).mp hdata⟩
    · rintro ⟨hswap, hsteady⟩
      change Endian.big.store (Tcp.signature ^^^ swap (mix salt secret)) ++
        mask _ (key _ salt (swap (mix salt secret))) 0 data = _
      rw [hswap]
      exact congrArg _ ((masks_agree_iff rfl rfl data).mpr hsteady)

/-- The second word of a packet already differs, and so does the head of a stream. -/
theorem wire_differs :
    ¬ ∀ (secret salt : UInt64) (payload data : Bytes),
      Udp.Datagram.invert .little secret salt (List.replicate 8 0 ++ payload) =
          Udp.Datagram.invert .big secret salt (List.replicate 8 0 ++ payload) ∧
        Tcp.Cipher.wire .little secret salt data = Tcp.Cipher.wire .big secret salt data := by
  intro hall
  have hsame := (hall 5 7 (List.replicate 16 0) []).1
  revert hsame
  decide +kernel

end Tubus
