import Tubus.Udp.Proto

/-!
# Reading sections

Everything in `proto.h` that reads a section reads its header first, so the lemmas are about a
view of the form `head t n ++ rest`, and every view of four bytes or more has that form
(`exists_head`). From `valid` on the walk never throws, whatever the bytes (`sections_isSome`): a
`move` that is too short for a handle is met as a `runt`, and the throw is left to the parser that
opens it.
-/

namespace Tubus.Udp

open Lib

namespace Section

/-- A section header. -/
def head (t n : Nat) : Bytes := toBE 2 t ++ toBE 2 n

@[simp] theorem length_head (t n : Nat) : (head t n).length = headerSize := by
  simp [head, headerSize]

theorem encode_eq (s : Section) : s.encode = head s.code s.payload.length ++ s.payload := rfl

/-- Every view that a header fits into begins with one. -/
theorem exists_head {b : Bytes} (h : headerSize ≤ b.length) :
    ∃ t n rest, t < 256 ^ 2 ∧ n < 256 ^ 2 ∧ b = head t n ++ rest := by
  have hle : 4 ≤ b.length := h
  have htype : (b.take 2).length = 2 := by
    rw [List.length_take]
    omega
  have hlength : ((b.drop 2).take 2).length = 2 := by
    rw [List.length_take, List.length_drop]
    omega
  refine ⟨ofBE (b.take 2), ofBE ((b.drop 2).take 2), b.drop 4, ?_, ?_, ?_⟩
  · exact (ofBE_lt _).trans_eq (by rw [htype])
  · exact (ofBE_lt _).trans_eq (by rw [hlength])
  · have hfirst := toBE_ofBE (b.take 2)
    have hsecond := toBE_ofBE ((b.drop 2).take 2)
    rw [htype] at hfirst
    rw [hlength] at hsecond
    rw [head, hfirst, hsecond, List.append_assoc, ← List.drop_drop (i := 2) (j := 2),
      List.take_append_drop, List.take_append_drop]

section Head

variable {t n : Nat} {rest : Bytes}

theorem type_head (ht : t < 256 ^ 2) : type (head t n ++ rest) = some t := by
  have hle : headerSize ≤ (head t n ++ rest).length := by simp
  rw [type, if_pos hle, head, List.append_assoc]
  exact Buffer.getBE_append _ (@List.length_nil UInt8) ht

theorem length_head_append (hn : n < 256 ^ 2) : length (head t n ++ rest) = some n := by
  have hle : headerSize ≤ (head t n ++ rest).length := by simp
  rw [length, if_pos hle, head, List.append_assoc]
  exact Buffer.getBE_append _ (length_toBE 2 t) hn

theorem valid_head (ht : t < 256 ^ 2) (hn : n < 256 ^ 2) :
    valid (head t n ++ rest) = some (accepts (headerSize + rest.length) t n) := by
  simp [valid, type_head ht, length_head_append hn]

/-- How far a section reaches, as far as the view does. -/
theorem wsub_header (hlt : headerSize + rest.length < 2 ^ 64) :
    wsub (head t n ++ rest).length headerSize = rest.length := by
  rw [List.length_append, length_head, wsub_of_le (Nat.le_add_right _ _) hlt,
    Nat.add_sub_cancel_left]

theorem value_head (hn : n < 256 ^ 2) (hlt : headerSize + rest.length < 2 ^ 64) :
    value (head t n ++ rest) = some (rest.take n) := by
  have hmin : min headerSize (head t n ++ rest).length = headerSize := by simp
  simp only [value, length_head_append hn, hmin, wsub_header hlt, Option.bind_eq_bind,
    Option.bind_some]
  rw [Buffer.slice_of_le (by simp), List.drop_left' (length_head t n), Nat.min_comm,
    ← List.take_eq_take_min]

theorem advance_head (hn : n < 256 ^ 2) (hlt : headerSize + rest.length < 2 ^ 64) :
    advance (head t n ++ rest) = some (rest.drop n) := by
  have hmin : min headerSize (head t n ++ rest).length = headerSize := by simp
  have hsum : wadd headerSize (min rest.length n) = headerSize + min rest.length n :=
    wadd_of_lt (by omega)
  simp only [advance, length_head_append hn, hmin, wsub_header hlt, hsum, Option.bind_eq_bind,
    Option.bind_some]
  rw [Buffer.crop_of_le (by simp), ← List.drop_drop, List.drop_left' (length_head t n)]
  by_cases hle : rest.length ≤ n
  · rw [Nat.min_eq_left hle, List.drop_length, List.drop_eq_nil_of_le hle]
  · rw [Nat.min_eq_right (by omega)]

end Head

/-- Nothing that is too short for a header is a section. -/
theorem valid_short {b : Bytes} (h : b.length < headerSize) : valid b = some false := by
  have htype : type b = some 0 := if_neg (by omega)
  have hlength : length b = some 0 := if_neg (by omega)
  simp [valid, htype, hlength, accepts]

/-! ## What `valid` accepts can be decoded -/

/-- What the test of `valid` says: a known type, and a value that is there in full. -/
theorem accepts_cases {size t n : Nat} (hlt : headerSize + size < 2 ^ 64)
    (h : accepts (headerSize + size) t n = true) :
    ((t = 2 ∨ t = 3 ∨ t = 4 ∨ t = 5) ∧ n = 0) ∨
    ((t = 6 ∨ t = 7 ∨ t = 9 ∨ t = 10 ∨ t = 11) ∧ n = valueSize ∧ valueSize ≤ size) ∨
    (t = 8 ∧ valueSize ≤ size ∧ n ≤ size) := by
  have hsub : wsub (headerSize + size) headerSize = size := by
    rw [wsub_of_le (Nat.le_add_right _ _) hlt, Nat.add_sub_cancel_left]
  unfold accepts at h
  split at h <;>
    simp only [Bool.and_eq_true, decide_eq_true_eq, hsub, Nat.add_le_add_iff_left,
      Bool.false_eq_true] at h <;>
    simp [h]

theorem number_of_length {v : Bytes} (h : v.length = valueSize) : number v = some (ofBE v) := by
  rw [number, Buffer.getBE_of_le (by omega), List.drop_zero, List.take_of_length_le (by omega)]

theorem ofValue_isSome {size t n : Nat} {v : Bytes} (hlt : headerSize + size < 2 ^ 64)
    (h : accepts (headerSize + size) t n = true) (hv : v.length = min n size) :
    ∃ s, ofValue t v = some s := by
  rcases accepts_cases hlt h with ⟨ht, _⟩ | ⟨ht, rfl, hle⟩ | ⟨rfl, _⟩
  · rcases ht with rfl | rfl | rfl | rfl <;> exact ⟨_, rfl⟩
  · have hnum := number_of_length (hv.trans (Nat.min_eq_left hle))
    rcases ht with rfl | rfl | rfl | rfl | rfl <;> simp [ofValue, hnum]
  · exact ⟨_, rfl⟩

/-- A value with a handle in it opens. -/
theorem opens_of_le {v : Bytes} (hle : valueSize ≤ v.length) (hlt : v.length < 2 ^ 64) :
    number v = some (ofBE (v.take valueSize)) ∧ fragment v = some (v.drop valueSize) := by
  constructor
  · rw [number, Buffer.getBE_of_le (by omega), List.drop_zero]
  · rw [fragment, wsub_of_le hle hlt, Buffer.slice_of_le (by omega),
      List.take_of_length_le (by rw [List.length_drop])]

/-- A `runt` is a `move` whose value is shorter than a handle. -/
theorem length_lt_of_ofValue_runt {t : Nat} {v w : Bytes} (hlt : v.length < 2 ^ 64)
    (h : ofValue t v = some (.runt w)) : w.length < valueSize := by
  unfold ofValue at h
  split at h <;> simp only [Option.map_eq_some_iff, reduceCtorEq, and_false, exists_false,
    Option.some.injEq] at h
  by_cases hle : valueSize ≤ v.length
  · obtain ⟨hnum, hfrag⟩ := opens_of_le hle hlt
    simp only [hnum, hfrag, reduceCtorEq] at h
  · split at h
    · cases h
    · cases h
      omega

/-! ## The walk -/

/-- One round of the walk, at a header. -/
theorem walk_head {t n : Nat} {rest : Bytes} (fuel : Nat) (ht : t < 256 ^ 2) (hn : n < 256 ^ 2)
    (hlt : headerSize + rest.length < 2 ^ 64) :
    walk (fuel + 1) (head t n ++ rest) =
      if accepts (headerSize + rest.length) t n = true then
        (ofValue t (rest.take n)).bind fun s => (walk fuel (rest.drop n)).map (s :: ·)
      else some [] := by
  rw [walk]
  simp only [valid_head ht hn, type_head ht, value_head hn hlt, advance_head hn hlt,
    Option.bind_eq_bind, Option.bind_some, Option.pure_def]
  split
  · simp only [Option.map_eq_bind]
    rfl
  · rfl

theorem walk_short {b : Bytes} (fuel : Nat) (h : b.length < headerSize) :
    walk fuel b = some [] := by
  cases fuel with
  | zero => rfl
  | succ fuel => simp [walk, valid_short h]

/-- The walk never throws. -/
theorem walk_isSome (fuel : Nat) {b : Bytes} (hlt : b.length < 2 ^ 64) :
    ∃ l, walk fuel b = some l := by
  induction fuel generalizing b with
  | zero => exact ⟨[], rfl⟩
  | succ fuel ih =>
    by_cases hshort : b.length < headerSize
    · exact ⟨[], walk_short _ hshort⟩
    · obtain ⟨t, n, rest, ht, hn, rfl⟩ := exists_head (Nat.le_of_not_lt hshort)
      rw [List.length_append, length_head] at hlt
      rw [walk_head fuel ht hn hlt]
      split
      · next hacc =>
        obtain ⟨s, hs⟩ := ofValue_isSome hlt hacc (List.length_take)
        obtain ⟨l, hl⟩ := ih (b := rest.drop n) (by rw [List.length_drop]; omega)
        exact ⟨s :: l, by rw [hs, hl]; rfl⟩
      · exact ⟨[], rfl⟩

/-- The runts of a walk are short. -/
theorem length_lt_of_runt_mem (fuel : Nat) {b v : Bytes} {l : List Section}
    (hlt : b.length < 2 ^ 64) (h : walk fuel b = some l) (hv : .runt v ∈ l) :
    v.length < valueSize := by
  induction fuel generalizing b l with
  | zero =>
    cases h
    cases hv
  | succ fuel ih =>
    by_cases hshort : b.length < headerSize
    · rw [walk_short _ hshort] at h
      cases h
      cases hv
    · obtain ⟨t, n, rest, ht, hn, rfl⟩ := exists_head (Nat.le_of_not_lt hshort)
      rw [List.length_append, length_head] at hlt
      rw [walk_head fuel ht hn hlt] at h
      split at h
      · obtain ⟨s, hs, h⟩ := Option.bind_eq_some_iff.mp h
        obtain ⟨l', hl', rfl⟩ := Option.map_eq_some_iff.mp h
        rcases List.mem_cons.mp hv with rfl | hv
        · exact length_lt_of_ofValue_runt (by rw [List.length_take]; omega) hs
        · exact ih (by rw [List.length_drop]; omega) hl' hv
      · cases h
        cases hv

/-- The sections of a body can always be walked. -/
theorem sections_isSome {b : Bytes} (hlt : b.length < 2 ^ 64) : ∃ l, sections b = some l :=
  walk_isSome _ hlt

/-! ## What is written is read back -/

/-- What the fields of a section can hold. -/
def Fits : Section → Prop
  | .link | .linkEcho | .tear | .tearEcho => True
  | .ping v | .pingEcho v | .moveEcho v | .edge v | .edgeEcho v => v < 2 ^ 64
  | .move h d => h < 2 ^ 64 ∧ valueSize + d.length < 256 ^ 2
  | .runt _ => False

theorem code_ne_zero (s : Section) : s.code ≠ 0 := by cases s <;> simp [code]

theorem code_lt (s : Section) : s.code < 256 ^ 2 := by cases s <;> simp [code]

theorem length_encode (s : Section) : s.encode.length = s.size := by
  rw [encode_eq, List.length_append, length_head, size]

theorem headerSize_le_size (s : Section) : headerSize ≤ s.size := Nat.le_add_right _ _

namespace Fits

variable {s : Section}

theorem payload_lt (h : s.Fits) : s.payload.length < 256 ^ 2 := by
  cases s with
  | move handle d => simpa [payload] using h.2
  | runt v => exact h.elim
  | _ => simp [payload, valueSize]

theorem ofBE_toBE_value {v : Nat} (hv : v < 2 ^ 64) : ofBE (toBE valueSize v) = v := by
  have hlt : v < 256 ^ valueSize := by
    rw [valueSize]
    omega
  exact ofBE_toBE hlt

theorem number_toBE {v : Nat} (hv : v < 2 ^ 64) : number (toBE valueSize v) = some v := by
  rw [number_of_length (length_toBE _ _), ofBE_toBE_value hv]

/-- The value of a section stands for the section. -/
theorem ofValue_payload (h : s.Fits) : ofValue s.code s.payload = some s := by
  cases s with
  | move handle d =>
    simp only [Fits] at h
    have hlen : valueSize ≤ (toBE valueSize handle ++ d).length := by simp
    have hlt : (toBE valueSize handle ++ d).length < 2 ^ 64 := by
      rw [List.length_append, length_toBE]
      omega
    obtain ⟨hnum, hfrag⟩ := opens_of_le hlen hlt
    rw [List.take_left' (length_toBE _ _), ofBE_toBE_value h.1] at hnum
    rw [List.drop_left' (length_toBE _ _)] at hfrag
    show ofValue 8 (toBE valueSize handle ++ d) = _
    rw [ofValue, hnum, hfrag]
  | runt v => exact h.elim
  | ping v | pingEcho v | moveEcho v | edge v | edgeEcho v =>
    simp only [Fits] at h
    simp only [ofValue, code, payload, number_toBE h, Option.map_some]
  | _ => rfl

theorem accepts_payload (h : s.Fits) (size : Nat) (hle : s.payload.length ≤ size)
    (hlt : headerSize + size < 2 ^ 64) :
    accepts (headerSize + size) s.code s.payload.length = true := by
  have hsub : wsub (headerSize + size) headerSize = size := by
    rw [wsub_of_le (Nat.le_add_right _ _) hlt, Nat.add_sub_cancel_left]
  cases s with
  | move handle d =>
    simp only [payload, List.length_append, length_toBE] at hle
    simp [accepts, code, payload, hsub, hle, Nat.le_trans (Nat.le_add_right _ _) hle]
  | runt v => exact h.elim
  | ping v | pingEcho v | moveEcho v | edge v | edgeEcho v =>
    simp only [payload, length_toBE] at hle
    simp [accepts, code, payload, hle]
  | _ => simp [accepts, code, payload]

/-- The walk meets a written section, and goes on behind it. -/
theorem walk_encode (h : s.Fits) (fuel : Nat) (rest : Bytes)
    (hlt : s.size + rest.length < 2 ^ 64) :
    walk (fuel + 1) (s.encode ++ rest) = (walk fuel rest).map (s :: ·) := by
  have hbound : headerSize + (s.payload ++ rest).length < 2 ^ 64 := by
    rw [List.length_append, ← Nat.add_assoc]
    exact hlt
  have hacc := h.accepts_payload (s.payload ++ rest).length (by simp) hbound
  rw [encode_eq, List.append_assoc, walk_head fuel s.code_lt h.payload_lt hbound, if_pos hacc,
    List.take_left, List.drop_left, h.ofValue_payload, Option.bind_some]

end Fits

/-- The bytes of a list of sections. -/
def encodeAll (l : List Section) : Bytes := (l.map encode).flatten

@[simp] theorem encodeAll_nil : encodeAll [] = [] := rfl

@[simp] theorem encodeAll_cons (s : Section) (l : List Section) :
    encodeAll (s :: l) = s.encode ++ encodeAll l := rfl

theorem encodeAll_append (l l' : List Section) :
    encodeAll (l ++ l') = encodeAll l ++ encodeAll l' := by
  simp [encodeAll]

theorem length_le_encodeAll (l : List Section) : l.length ≤ (encodeAll l).length := by
  induction l with
  | nil => exact Nat.le_refl _
  | cons s l ih =>
    have hsize : 4 ≤ s.size := s.headerSize_le_size
    rw [encodeAll_cons, List.length_append, length_encode, List.length_cons]
    omega

/-- The walk over a list of sections meets them in order, and uses all of the bytes. -/
theorem walk_encodeAll {l : List Section} (hfits : ∀ s ∈ l, s.Fits)
    (hlt : (encodeAll l).length < 2 ^ 64) {f : Nat} (hfuel : (encodeAll l).length < f) :
    walk f (encodeAll l) = some l := by
  induction l generalizing f with
  | nil => exact walk_short f (by simp [headerSize])
  | cons s l ih =>
    have hsize := s.headerSize_le_size
    rw [encodeAll_cons, List.length_append, length_encode] at hlt hfuel
    cases f with
    | zero => omega
    | succ fuel =>
      have hpos : 4 ≤ s.size := hsize
      have hrest := ih (fun x hx => hfits x (List.mem_cons_of_mem _ hx)) (f := fuel) (by omega)
        (by omega)
      rw [encodeAll_cons, (hfits s List.mem_cons_self).walk_encode fuel _ hlt, hrest,
        Option.map_some]

/-! ## Writing -/

theorem setBE_start {b : Bytes} {n : Nat} (v : Nat) (h : n ≤ b.length) :
    Buffer.setBE b 0 n v = some (toBE n v ++ b.drop n) := by
  have hset := Buffer.setBE_append v (rfl : ([] : Bytes).length = 0) h
  rwa [List.nil_append, List.nil_append] at hset

/-- A header goes over the first four bytes. -/
theorem head_eq {b : Bytes} (t n : Nat) (h : headerSize ≤ b.length) :
    ((Buffer.setBE b 0 2 t).bind fun b => Buffer.setBE b 2 2 n) =
      some (head t n ++ b.drop headerSize) := by
  have hle : 4 ≤ b.length := h
  rw [setBE_start t (by omega), Option.bind_some,
    Buffer.setBE_append n (length_toBE 2 t) (by rw [List.length_drop]; omega), List.drop_drop]
  rfl

theorem numeral_eq {b : Bytes} (t v : Nat) (h : headerSize + valueSize ≤ b.length) :
    numeral b t v =
      some (head t valueSize ++ toBE valueSize v ++ b.drop (headerSize + valueSize)) := by
  have hhead := head_eq (b := b) t valueSize (by omega)
  obtain ⟨b₁, hb₁, hhead⟩ := Option.bind_eq_some_iff.mp hhead
  simp only [numeral, hb₁, hhead, Option.bind_eq_bind, Option.bind_some]
  rw [Buffer.setBE_append v (length_head t valueSize) (by rw [List.length_drop]; omega),
    List.drop_drop]

theorem snippet_eq {b : Bytes} (h : Nat) (d : Bytes) (hlt : valueSize + d.length < 256 ^ 2)
    (hle : headerSize + valueSize + d.length ≤ b.length) :
    snippet b h d = some (head 8 (valueSize + d.length) ++ toBE valueSize h ++ d
      ++ b.drop (headerSize + valueSize + d.length)) := by
  have hsum : wadd valueSize d.length = valueSize + d.length := wadd_of_lt (by omega)
  have hhead := head_eq (b := b) 8 (valueSize + d.length) (by omega)
  obtain ⟨b₁, hb₁, hhead⟩ := Option.bind_eq_some_iff.mp hhead
  simp only [snippet, hb₁, hsum, hhead, Option.bind_eq_bind, Option.bind_some]
  rw [Buffer.setBE_append h (length_head 8 (valueSize + d.length))
      (by rw [List.length_drop]; omega), Option.bind_some,
    Buffer.fill_append (by rw [List.length_append, length_head, length_toBE])
      (by rw [List.length_drop, List.length_drop]; omega), List.drop_drop, List.drop_drop,
    Nat.add_assoc]

/-- A section that fits into the view goes over its front. -/
theorem Fits.write_eq {s : Section} (h : s.Fits) {b : Bytes} (hle : s.size ≤ b.length) :
    write b s = some (s.encode ++ b.drop s.size) := by
  cases s with
  | link | linkEcho | tear | tearEcho =>
    rw [size, payload, List.length_nil] at hle
    simp only [write, simple, Option.bind_eq_bind]
    rw [head_eq _ _ hle]
    simp [encode_eq, size, code, payload]
  | ping v | pingEcho v | moveEcho v | edge v | edgeEcho v =>
    simp only [size, payload, length_toBE] at hle
    rw [write, numeral_eq _ _ hle]
    simp [encode_eq, size, code, payload]
  | move handle d =>
    simp only [size, payload, List.length_append, length_toBE] at hle
    rw [write, snippet_eq handle d h.2 (by omega)]
    simp [encode_eq, size, code, payload, Nat.add_assoc]
  | runt v => exact h.elim

theorem simple_of_lt {b : Bytes} (t : Nat) (h : b.length < headerSize) : simple b t = none := by
  refine Option.bind_eq_none_iff.mpr fun b₁ h₁ => ?_
  refine Buffer.setBE_of_lt 0 (by decide) ?_
  rw [Buffer.length_of_setBE (by decide) h₁]
  exact h

theorem numeral_of_lt {b : Bytes} (t v : Nat) (h : b.length < headerSize + valueSize) :
    numeral b t v = none := by
  refine Option.bind_eq_none_iff.mpr fun b₁ h₁ => ?_
  refine Option.bind_eq_none_iff.mpr fun b₂ h₂ => ?_
  refine Buffer.setBE_of_lt v (by decide) ?_
  rw [Buffer.length_of_setBE (by decide) h₂, Buffer.length_of_setBE (by decide) h₁]
  exact h

theorem snippet_of_lt {b : Bytes} (h : Nat) (d : Bytes) (hlt : valueSize + d.length < 256 ^ 2)
    (hle : b.length < headerSize + valueSize + d.length) : snippet b h d = none := by
  refine Option.bind_eq_none_iff.mpr fun b₁ h₁ => ?_
  refine Option.bind_eq_none_iff.mpr fun b₂ h₂ => ?_
  refine Option.bind_eq_none_iff.mpr fun b₃ h₃ => ?_
  have hheader : headerSize = 4 := rfl
  have hvalue : valueSize = 8 := rfl
  refine Buffer.fill_of_lt (by omega) ?_
  rw [Buffer.length_of_setBE (by decide) h₃, Buffer.length_of_setBE (by decide) h₂,
    Buffer.length_of_setBE (by decide) h₁]
  exact hle

/-- A section that does not fit into the view throws. -/
theorem Fits.write_of_lt {s : Section} (h : s.Fits) {b : Bytes} (hlt : b.length < s.size) :
    write b s = none := by
  cases s with
  | link | linkEcho | tear | tearEcho => exact simple_of_lt _ hlt
  | ping v | pingEcho v | moveEcho v | edge v | edgeEcho v =>
    simp only [size, payload, length_toBE] at hlt
    exact numeral_of_lt _ v hlt
  | move handle d =>
    simp only [size, payload, List.length_append, length_toBE] at hlt
    exact snippet_of_lt handle d h.2 (by omega)
  | runt v => exact h.elim

theorem type_stub (b : Bytes) : type (stub b) = some 0 := by
  by_cases hle : headerSize ≤ b.length
  · have hzero : List.replicate headerSize (0 : UInt8) = head 0 0 := by decide
    rw [stub, Nat.min_eq_left hle, hzero, type_head (by decide)]
  · have hshort : ¬ headerSize ≤ (stub b).length := by
      simp only [stub, List.length_append, List.length_replicate, List.length_drop]
      omega
    exact if_neg hshort

theorem length_stub (b : Bytes) : (stub b).length = b.length := by
  simp only [stub, List.length_append, List.length_replicate, List.length_drop]
  omega

/-- Behind a header nothing of the stub shows. -/
theorem drop_stub {b : Bytes} {n : Nat} (h : headerSize ≤ n) : (stub b).drop n = b.drop n := by
  rw [stub, List.drop_append, List.drop_eq_nil_of_le (by simp; omega), List.nil_append,
    List.length_replicate, List.drop_drop]
  congr 1
  omega

theorem stub_stub (b : Bytes) : stub (stub b) = stub b := by
  rw [stub, length_stub]
  by_cases hle : headerSize ≤ b.length
  · rw [Nat.min_eq_left hle, drop_stub (Nat.le_refl _), stub, Nat.min_eq_left hle]
  · rw [Nat.min_eq_right (by omega), List.drop_eq_nil_of_le (by rw [length_stub]), stub,
      Nat.min_eq_right (by omega), List.drop_length]

/-! ## The front of what was written -/

theorem type_encode_append (s : Section) (rest : Bytes) :
    type (s.encode ++ rest) = some s.code := by
  rw [encode_eq, List.append_assoc]
  exact type_head s.code_lt

theorem Fits.length_encode_append {s : Section} (h : s.Fits) (rest : Bytes) :
    length (s.encode ++ rest) = some s.payload.length := by
  rw [encode_eq, List.append_assoc]
  exact length_head_append h.payload_lt

theorem crop_encode_append (s : Section) (rest : Bytes) :
    Buffer.crop (s.encode ++ rest) s.size = some rest := by
  rw [Buffer.crop_of_le (by rw [List.length_append, length_encode]; exact Nat.le_add_right _ _),
    List.drop_left' s.length_encode]

end Section

/-! ## The packet buffer -/

namespace Cursor

open Section (encodeAll)

/-- To step over a section that was written is to find it in front. -/
theorem crop_eq (before : Bytes) (s : Section) (rest : Bytes) :
    crop ⟨before, s.encode ++ rest⟩ s.size = some ⟨before ++ s.encode, rest⟩ := by
  simp [crop, s.crop_encode_append, List.take_left' s.length_encode]

theorem advance_eq {s : Section} (h : s.Fits) (before rest : Bytes)
    (hlt : s.size + rest.length < 2 ^ 64) :
    advance ⟨before, s.encode ++ rest⟩ = some ⟨before ++ s.encode, rest⟩ := by
  have hlen : (s.encode ++ rest).length = s.size + rest.length := by
    rw [List.length_append, s.length_encode]
  have hsize : s.size = Section.headerSize + s.payload.length := rfl
  have hle : Section.headerSize ≤ s.size + rest.length := by omega
  have hsub : wsub (s.size + rest.length) Section.headerSize = s.payload.length + rest.length := by
    rw [wsub_of_le hle hlt]
    omega
  have hsum : wadd Section.headerSize s.payload.length = s.size := wadd_of_lt (by omega)
  rw [advance]
  dsimp only
  rw [h.length_encode_append, Option.bind_eq_bind, Option.bind_some, hlen, hsub,
    Nat.min_eq_left hle, Nat.min_eq_right (Nat.le_add_right _ _), hsum, crop_eq]

theorem put_eq {s : Section} (h : s.Fits) {before sect : Bytes} (hle : s.size ≤ sect.length)
    (hlt : sect.length < 2 ^ 64) :
    put ⟨before, sect⟩ s = some ⟨before ++ s.encode, sect.drop s.size⟩ := by
  rw [put]
  dsimp only
  rw [h.write_eq hle, Option.bind_eq_bind, Option.bind_some]
  exact advance_eq h before _ (by rw [List.length_drop]; omega)

/-- A section that does not fit is not written. -/
theorem put_of_lt {s : Section} (h : s.Fits) {before sect : Bytes} (hlt : sect.length < s.size) :
    put ⟨before, sect⟩ s = none := by
  rw [put, h.write_of_lt hlt]
  rfl

/-- Sections that fit together are written one behind the other. -/
theorem puts_eq {l : List Section} (hfits : ∀ s ∈ l, s.Fits) {before sect : Bytes}
    (hle : (encodeAll l).length ≤ sect.length) (hlt : sect.length < 2 ^ 64) :
    puts ⟨before, sect⟩ l = some ⟨before ++ encodeAll l, sect.drop (encodeAll l).length⟩ := by
  induction l generalizing before sect with
  | nil => simp [puts]
  | cons s l ih =>
    rw [Section.encodeAll_cons, List.length_append, s.length_encode] at hle ⊢
    rw [puts, put_eq (hfits s List.mem_cons_self) (by omega) hlt, Option.bind_eq_bind,
      Option.bind_some, ih (fun x hx => hfits x (List.mem_cons_of_mem _ hx))
      (by rw [List.length_drop]; omega) (by rw [List.length_drop]; omega), List.append_assoc,
      List.drop_drop]

/-- Sections that do not fit together are not all written. -/
theorem puts_of_lt {l : List Section} (hfits : ∀ s ∈ l, s.Fits) {before sect : Bytes}
    (hlong : sect.length < (encodeAll l).length) (hlt : sect.length < 2 ^ 64) :
    puts ⟨before, sect⟩ l = none := by
  induction l generalizing before sect with
  | nil => cases hlong
  | cons s l ih =>
    rw [Section.encodeAll_cons, List.length_append, s.length_encode] at hlong
    have hs := hfits s List.mem_cons_self
    by_cases hle : s.size ≤ sect.length
    · rw [puts, put_eq hs hle hlt, Option.bind_eq_bind, Option.bind_some]
      exact ih (fun x hx => hfits x (List.mem_cons_of_mem _ hx))
        (by rw [List.length_drop]; omega) (by rw [List.length_drop]; omega)
    · rw [puts, put_of_lt hs (Nat.not_le.mp hle)]
      rfl

/-- The scan steps over what was written, up to a type of zero. -/
theorem scan_eq {l : List Section} (hfits : ∀ s ∈ l, s.Fits) {before rest : Bytes} {f : Nat}
    (hfuel : l.length < f) :
    scan f ⟨before, encodeAll l ++ rest⟩ =
      scan (f - l.length) ⟨before ++ encodeAll l, rest⟩ := by
  induction l generalizing before f with
  | nil => simp
  | cons s l ih =>
    cases f with
    | zero => omega
    | succ f =>
      have h := hfits s List.mem_cons_self
      have hstep : wadd Section.headerSize s.payload.length = s.size :=
        wadd_of_lt (by have := h.payload_lt; simp only [Section.headerSize]; omega)
      rw [List.length_cons] at hfuel ⊢
      rw [Section.encodeAll_cons, List.append_assoc, scan]
      dsimp only
      rw [Section.type_encode_append, h.length_encode_append]
      simp only [Option.bind_eq_bind, Option.bind_some, s.code_ne_zero, if_false]
      rw [hstep, crop_eq, Option.bind_some,
        ih (fun x hx => hfits x (List.mem_cons_of_mem _ hx)) (by omega), List.append_assoc,
        Nat.add_sub_add_right]

theorem scan_stop {before rest : Bytes} {f : Nat} (h : Section.type rest = some 0) :
    scan f ⟨before, rest⟩ = some ⟨before, rest⟩ := by
  cases f with
  | zero => rfl
  | succ f => simp [scan, h]

end Cursor

namespace Datagram

open Section (encodeAll)

/-- The first sixteen bytes of a packet. -/
def heading (pin : Nat) : Bytes :=
  toBE 8 0 ++ toBE 2 packetSign ++ toBE 2 packetVersion ++ toBE 4 pin

@[simp] theorem length_heading (pin : Nat) : (heading pin).length = headerSize := by
  simp [heading, headerSize]

theorem header_eq {b : Bytes} (pin : Nat) (h : headerSize + Section.headerSize ≤ b.length) :
    header b pin = some (heading pin ++ Section.stub (b.drop headerSize)) := by
  have hle : 20 ≤ b.length := h
  have hzero : toBE 4 0 = List.replicate Section.headerSize 0 := by decide
  simp only [header, Option.bind_eq_bind]
  rw [Section.setBE_start _ (by omega), Option.bind_some,
    Buffer.setBE_append _ (length_toBE _ _) (by rw [List.length_drop]; omega), Option.bind_some,
    Buffer.setBE_append _ (by simp) (by simp only [List.length_drop]; omega), Option.bind_some,
    Buffer.setBE_append _ (by simp) (by simp only [List.length_drop]; omega), Option.bind_some,
    Buffer.setBE_append _ (by simp [headerSize]) (by simp only [List.length_drop]; omega), hzero,
    Section.stub, Nat.min_eq_left (by rw [List.length_drop]; omega), heading]
  simp only [List.drop_drop, List.append_assoc]
  rfl

theorem body_of_le {pack : Bytes} (hlt : pack.length < 2 ^ 64) (hle : headerSize ≤ pack.length) :
    body pack = some (pack.drop headerSize) := by
  rw [body, Nat.min_eq_right hle, wsub_of_le hle hlt, Buffer.slice_of_le (by omega),
    List.take_of_length_le (by rw [List.length_drop])]

/-- The scan of a packet: it steps over the sections and goes on behind them. -/
theorem stub_eq {front : Bytes} (hfront : front.length = headerSize) {l : List Section}
    (hfits : ∀ s ∈ l, s.Fits) {rest : Bytes}
    (hlt : (front ++ (encodeAll l ++ rest)).length < 2 ^ 64) :
    ∃ f, rest.length < f ∧ stub (front ++ (encodeAll l ++ rest)) =
      Cursor.scan f ⟨front ++ encodeAll l, rest⟩ := by
  have hle : headerSize ≤ (front ++ (encodeAll l ++ rest)).length := by
    rw [List.length_append, hfront]
    omega
  have hcount := Section.length_le_encodeAll l
  have hbody : body (front ++ (encodeAll l ++ rest)) = some (encodeAll l ++ rest) := by
    rw [body_of_le hlt hle, List.drop_left' hfront]
  refine ⟨(encodeAll l ++ rest).length + 1 - l.length, ?_, ?_⟩
  · rw [List.length_append]
    omega
  · rw [stub, hbody, Option.bind_eq_bind, Option.bind_some, Nat.min_eq_right hle,
      List.take_left' hfront, Cursor.scan_eq hfits (by rw [List.length_append]; omega)]

/-- The scan of an ended packet stops behind its sections. -/
theorem stub_ended {front : Bytes} (hfront : front.length = headerSize) {l : List Section}
    (hfits : ∀ s ∈ l, s.Fits) {rest : Bytes}
    (hlt : (front ++ (encodeAll l ++ Section.stub rest)).length < 2 ^ 64) :
    stub (front ++ (encodeAll l ++ Section.stub rest)) =
      some ⟨front ++ encodeAll l, Section.stub rest⟩ := by
  obtain ⟨f, _, hscan⟩ := stub_eq hfront hfits hlt
  rw [hscan, Cursor.scan_stop (Section.type_stub rest)]

/-- An ended packet is trimmed to its header and its sections. -/
theorem trim_ended {front : Bytes} (hfront : front.length = headerSize) {l : List Section}
    (hfits : ∀ s ∈ l, s.Fits) {rest : Bytes}
    (hlt : (front ++ (encodeAll l ++ Section.stub rest)).length < 2 ^ 64) :
    trim (front ++ (encodeAll l ++ Section.stub rest)) = some (front ++ encodeAll l) := by
  rw [trim, stub_ended hfront hfits hlt, Option.bind_eq_bind, Option.bind_some,
    ← List.append_assoc]
  have hle := (List.prefix_append (front ++ encodeAll l) (Section.stub rest)).length_le
  rw [Buffer.truncate, if_neg (Nat.not_lt.mpr hle), List.take_left]

/-! ## A list of sections as a packet -/

/-- Write sections one behind the other from the body on, end the packet and trim it. -/
def pack (p : Bytes) (l : List Section) : Option Bytes := do
  let c ← Cursor.puts ⟨p.take (min p.length headerSize), ← body p⟩ l
  trim c.stub.buffer

/-- Whatever the buffer held: the packet has the sections and no byte more, and the walk over its
body meets the same sections and stops, however far it may go. -/
theorem walk_pack {p : Bytes} {l : List Section} (hfits : ∀ s ∈ l, s.Fits)
    (hlt : p.length < 2 ^ 64) (hle : headerSize + (encodeAll l).length ≤ p.length) :
    ∃ packed b, pack p l = some packed ∧ packed.length = headerSize + (encodeAll l).length ∧
      body packed = some b ∧ ∀ f, b.length < f → Section.walk f b = some l := by
  have hmin : min p.length headerSize = headerSize := Nat.min_eq_right (by omega)
  have hfront : (p.take headerSize).length = headerSize := by
    rw [List.length_take, Nat.min_comm, hmin]
  have hsect : (p.drop headerSize).length = p.length - headerSize := List.length_drop
  have hsize : (p.take headerSize ++ encodeAll l).length =
      headerSize + (encodeAll l).length := by
    rw [List.length_append, hfront]
  have htotal : (p.take headerSize ++ (encodeAll l ++
      Section.stub ((p.drop headerSize).drop (encodeAll l).length))).length < 2 ^ 64 := by
    rw [List.length_append, List.length_append, Section.length_stub, List.length_drop, hsect,
      hfront]
    omega
  refine ⟨p.take headerSize ++ encodeAll l, encodeAll l, ?_, hsize, ?_, ?_⟩
  · rw [pack, body_of_le hlt (by omega), Option.bind_eq_bind, Option.bind_some, hmin,
      Cursor.puts_eq hfits (by rw [hsect]; omega) (by rw [hsect]; omega)]
    show trim (Cursor.stub _).buffer = _
    rw [Cursor.stub, Cursor.buffer, List.append_assoc]
    exact trim_ended hfront hfits htotal
  · rw [body_of_le (by omega) (by omega), List.drop_left' hfront]
  · intro f hfuel
    exact Section.walk_encodeAll hfits (by omega) hfuel

/-- Three sections in 22 bytes of body over stale bytes, with two bytes to spare. -/
theorem walk_pack_tight :
    ∃ packed b, pack (List.replicate 38 255) [.link, .moveEcho 7, .tear] = some packed ∧
      packed.length = 36 ∧ body packed = some b ∧
      ∀ f, b.length < f → Section.walk f b = some [.link, .moveEcho 7, .tear] := by
  refine walk_pack (p := List.replicate 38 255) ?_ (by decide) (by decide)
  intro s hs
  simp only [List.mem_cons, List.not_mem_nil, or_false] at hs
  rcases hs with rfl | rfl | rfl <;> simp [Section.Fits]

end Datagram

end Tubus.Udp
