import Tubus.View

/-!
# What buffer views keep to

The tests of `slice`, `get`, `set`, `fill` and `copy` add two `size_t` values before they compare
the sum with the size. As long as the sum does not wrap, a view stays inside the view it comes from
and a call touches no byte outside of the view it is called on (`Contained`). A sum that wraps
passes the test although the range ends far behind the view, and the call leaves it (`escapes`).
-/

namespace Tubus

open Lib

/-- What is relied on of asio's `operator+=`: it moves the start of a buffer by the operand. -/
def Plus.Moves (plus : Plus) : Prop :=
  ∀ data size n, n ≤ size → data + size < 2 ^ 64 → plus data size n = (data + n, size - n)

namespace View

variable {plus : Plus} {m m' m'' : Memory} {u v w : View} {c : Call} {pos len n : Nat}

/-- The view ends before the end of the address space, as an object does. -/
def Placed (v : View) : Prop := v.data + v.size < 2 ^ 64

/-- The byte at the address is one of the view. -/
def Covers (v : View) (a : Nat) : Prop := v.data ≤ a ∧ a < v.data + v.size

/-- A view of the same class and array that lies inside another one. -/
structure Within (w v : View) : Prop where
  kind : w.kind = v.kind
  array : w.array = v.array
  lower : v.data ≤ w.data
  upper : w.data + w.size ≤ v.data + v.size

theorem Within.refl (v : View) : v.Within v := ⟨rfl, rfl, le_rfl, le_rfl⟩

theorem Within.trans (hw : w.Within v) (hv : v.Within u) : w.Within u where
  kind := hw.kind.trans hv.kind
  array := hw.array.trans hv.array
  lower := hv.lower.trans hw.lower
  upper := hw.upper.trans hv.upper

theorem Within.placed (hw : w.Within v) (hv : v.Placed) : w.Placed := hw.upper.trans_lt hv

theorem Within.covers (hw : w.Within v) {a : Nat} (ha : w.Covers a) : v.Covers a :=
  ⟨hw.lower.trans ha.1, ha.2.trans_le hw.upper⟩

/-- Two views side by side that make up a third. -/
structure Adjoin (front back v : View) : Prop where
  first : front.data = v.data
  meet : front.data + front.size = back.data
  last : back.data + back.size = v.data + v.size

/-- The `len` bytes of a view from `pos` on. -/
def part (v : View) (pos len : Nat) : View := { v with data := v.data + pos, size := len }

theorem part_within (h : pos + len ≤ v.size) : (v.part pos len).Within v where
  kind := rfl
  array := rfl
  lower := Nat.le_add_right _ _
  upper := by
    show v.data + pos + len ≤ v.data + v.size
    omega

theorem adjoin_parts (h : len ≤ v.size) :
    Adjoin (v.part 0 len) (v.part len (v.size - len)) v where
  first := rfl
  meet := rfl
  last := by
    show v.data + len + (v.size - len) = v.data + v.size
    omega

/-- The constructor, at an offset from the start of a view. -/
theorem create_eq (hv : v.Placed) (hpos : pos ≤ v.size) (len : Nat) :
    create v.kind v.array (wadd v.offset pos) len = v.part pos len := by
  have hdata : v.data + pos < 2 ^ 64 := (Nat.add_le_add_left hpos _).trans_lt hv
  unfold create offset part
  rw [wadd_wsub_wadd, wadd_of_lt hdata]

theorem create_start (hv : v.Placed) (len : Nat) :
    create v.kind v.array v.offset len = v.part 0 len := by
  have hdata : v.data < 2 ^ 64 := (Nat.le_add_right _ _).trans_lt hv
  unfold create offset part
  rw [wadd_wsub, Nat.mod_eq_of_lt hdata, Nat.add_zero]

theorem advance_eq (hplus : plus.Moves) (hv : v.Placed) (h : len ≤ v.size) :
    v.advance plus len = v.part len (v.size - len) := by
  unfold advance part
  rw [hplus v.data v.size len h hv]

/-! ## Calls that pass their test -/

/-- The name of the method. -/
def Call.name : Call → String
  | .slice _ _ => "slice"
  | .popFront _ => "pop_front"
  | .popBack _ => "pop_back"
  | .truncate _ => "truncate"
  | .crop _ => "crop"
  | .get _ _ => "get"
  | .set _ _ => "set"
  | .fill _ _ _ => "fill"
  | .copy _ _ => "copy"

/-- How many bytes of the view the call asks for, counted from the start of the view. -/
def Call.reach : Call → Nat
  | .slice pos len | .fill pos len _ | .copy pos len => pos + len
  | .popFront len | .popBack len | .truncate len | .crop len => len
  | .get pos n => pos + n
  | .set pos val => pos + val.length

/-- The call passes its test. -/
def Accepts (v : View) : Call → Prop
  | .slice pos len => ¬ (v.size < pos ∨ v.size < wadd pos len)
  | .popFront len | .popBack len | .truncate len | .crop len => ¬ v.size < len
  | .get pos n | .copy pos n | .fill pos n _ => ¬ v.size < wadd pos n
  | .set pos val => ¬ v.size < wadd pos val.length

/-- Where the test comes out as without the wrap: the sum does not wrap, or what is left of it is
refused as well. -/
def Straight (v : View) : Call → Prop
  | .slice pos len => pos + len < 2 ^ 64 ∨ v.size < pos
  | .get pos n | .copy pos n | .fill pos n _ => pos + n < 2 ^ 64 ∨ v.size + 2 ^ 64 < pos + n
  | .set pos val => pos + val.length < 2 ^ 64 ∨ v.size + 2 ^ 64 < pos + val.length
  | _ => True

/-- The wrapped test of a range, for a size below the wrap. -/
theorem not_lt_wadd_iff (hsize : v.size < 2 ^ 64) (hpos : pos < 2 ^ 64) (hn : n < 2 ^ 64) :
    (pos + n < 2 ^ 64 ∨ v.size + 2 ^ 64 < pos + n) ↔
      (¬ v.size < wadd pos n ↔ pos + n ≤ v.size) := by
  unfold wadd
  omega

/-- A straight call is one that passes its test exactly when its range ends in the view. -/
theorem straight_iff (hv : v.Placed) (hc : v.Admits c) :
    v.Straight c ↔ (v.Accepts c ↔ c.reach ≤ v.size) := by
  have hsize : v.size < 2 ^ 64 := (Nat.le_add_left _ _).trans_lt hv
  cases c with
  | slice pos len =>
    obtain ⟨hpos, hlen⟩ := hc
    simp only [Straight, Accepts, Call.reach, wadd]
    omega
  | get pos n => exact not_lt_wadd_iff hsize hc.1 hc.2
  | copy pos len => exact not_lt_wadd_iff hsize hc.1 hc.2
  | set pos val => exact not_lt_wadd_iff hsize hc.1 hc.2.1
  | fill pos len src => exact not_lt_wadd_iff hsize hc.1 hc.2.1
  | popFront len => simp only [Straight, Accepts, Call.reach, Nat.not_lt]
  | popBack len => simp only [Straight, Accepts, Call.reach, Nat.not_lt]
  | truncate len => simp only [Straight, Accepts, Call.reach, Nat.not_lt]
  | crop len => simp only [Straight, Accepts, Call.reach, Nat.not_lt]

/-- A range that ends in the view passes, whatever wraps. -/
theorem accepts_of_reach (h : c.reach ≤ v.size) : v.Accepts c := by
  cases c with
  | slice pos len =>
    have hle := (wadd_le pos len).trans h
    simp only [Accepts]
    have hpos : pos ≤ v.size := (Nat.le_add_right pos len).trans h
    omega
  | get pos n => exact Nat.not_lt.mpr ((wadd_le _ _).trans h)
  | copy pos len => exact Nat.not_lt.mpr ((wadd_le _ _).trans h)
  | set pos val => exact Nat.not_lt.mpr ((wadd_le _ _).trans h)
  | fill pos len src => exact Nat.not_lt.mpr ((wadd_le _ _).trans h)
  | popFront len => exact Nat.not_lt.mpr h
  | popBack len => exact Nat.not_lt.mpr h
  | truncate len => exact Nat.not_lt.mpr h
  | crop len => exact Nat.not_lt.mpr h

/-! ## What calls come to -/

/-- A call that fails its test throws and changes nothing. -/
theorem call_of_not_accepts (h : ¬ v.Accepts c) :
    v.call plus c m = ⟨.error (v.outOfRange c.name), v, m⟩ := by
  cases c with
  | slice pos len => simp only [call, slice, if_pos (not_not.mp h), Except.map, Call.name]
  | popFront len => simp only [call, popFront, if_pos (not_not.mp h), Except.map, Call.name]
  | popBack len => simp only [call, popBack, if_pos (not_not.mp h), Except.map, Call.name]
  | truncate len => simp only [call, truncate, if_pos (not_not.mp h), Except.map, Call.name]
  | crop len => simp only [call, crop, if_pos (not_not.mp h), Except.map, Call.name]
  | get pos n => simp only [call, get, loads, if_pos (not_not.mp h), Except.map, Call.name]
  | copy pos len => simp only [call, copy, loads, if_pos (not_not.mp h), Except.map, Call.name]
  | set pos val => simp only [call, set, stores, if_pos (not_not.mp h), Except.map, Call.name]
  | fill pos len src => simp only [call, fill, stores, if_pos (not_not.mp h), Except.map, Call.name]

/-- A call that passes its test gives an answer. -/
theorem isOk_of_accepts (h : v.Accepts c) : (v.call plus c m).answer.isOk = true := by
  cases c with
  | slice pos len => simp only [call, slice, if_neg h, Except.map, Except.isOk, Except.toBool]
  | popFront len => simp only [call, popFront, if_neg h, Except.map, Except.isOk, Except.toBool]
  | popBack len => simp only [call, popBack, if_neg h, Except.map, Except.isOk, Except.toBool]
  | truncate len => simp only [call, truncate, if_neg h, Except.map, Except.isOk, Except.toBool]
  | crop len => simp only [call, crop, if_neg h, Except.map, Except.isOk, Except.toBool]
  | get pos n => simp only [call, get, loads, if_neg h, Except.map, Except.isOk, Except.toBool]
  | copy pos len => simp only [call, copy, loads, if_neg h, Except.map, Except.isOk, Except.toBool]
  | set pos val => simp only [call, set, stores, if_neg h, Except.map, Except.isOk, Except.toBool]
  | fill pos len src =>
    simp only [call, fill, stores, if_neg h, Except.map, Except.isOk, Except.toBool]

/-- A call succeeds exactly when it passes its test. -/
theorem isOk_iff : (v.call plus c m).answer.isOk = true ↔ v.Accepts c := by
  constructor
  · intro hok
    by_contra hno
    rw [call_of_not_accepts hno] at hok
    cases hok
  · exact isOk_of_accepts

/-- What a call is for, on a range that ends in the view. -/
def served (v : View) (c : Call) (m : Memory) : Result :=
  match c with
  | .slice pos len => ⟨.ok (.view (v.part pos len)), v, m⟩
  | .popFront len => ⟨.ok (.view (v.part 0 len)), v.part len (v.size - len), m⟩
  | .popBack len =>
    ⟨.ok (.view (v.part (v.size - len) len)), v.part 0 (v.size - len), m⟩
  | .truncate len => ⟨.ok .nothing, v.part 0 len, m⟩
  | .crop len => ⟨.ok .nothing, v.part len (v.size - len), m⟩
  | .get pos n | .copy pos n =>
    ⟨.ok (.bytes (m.load (v.data + pos) n).1), v, (m.load (v.data + pos) n).2⟩
  | .set pos val =>
    ⟨.ok .nothing, v, m.store (v.data + pos) val.length fun i => val.getD i 0⟩
  | .fill pos len src => ⟨.ok .nothing, v, m.store (v.data + pos) len src⟩

/-- Where an access of a view starts. -/
theorem wadd_data (hv : v.Placed) (h : pos + n ≤ v.size) : wadd v.data pos = v.data + pos :=
  wadd_of_lt (by unfold Placed at hv; omega)

theorem loads_eq (method : String) (hv : v.Placed) (h : pos + n ≤ v.size) :
    v.loads method pos n m = (.ok (m.load (v.data + pos) n).1, (m.load (v.data + pos) n).2) := by
  unfold loads
  rw [if_neg (Nat.not_lt.mpr ((wadd_le _ _).trans h)), wadd_data hv h]

theorem stores_eq (method : String) (src : Nat → UInt8) (hv : v.Placed) (h : pos + n ≤ v.size) :
    v.stores method pos n src m = (.ok (), m.store (v.data + pos) n src) := by
  unfold stores
  rw [if_neg (Nat.not_lt.mpr ((wadd_le _ _).trans h)), wadd_data hv h]

theorem slice_eq (hv : v.Placed) (h : pos + len ≤ v.size) :
    v.slice pos len = .ok (v.part pos len) := by
  have hpos : pos ≤ v.size := (Nat.le_add_right _ _).trans h
  have hsum := (wadd_le pos len).trans h
  unfold slice
  rw [if_neg (by omega), create_eq hv hpos]

theorem popFront_eq (hplus : plus.Moves) (hv : v.Placed) (h : len ≤ v.size) :
    v.popFront plus len = (.ok (v.part 0 len), v.part len (v.size - len)) := by
  unfold popFront
  rw [if_neg (Nat.not_lt.mpr h), create_start hv, advance_eq hplus hv h]

theorem popBack_eq (hv : v.Placed) (h : len ≤ v.size) :
    v.popBack len = (.ok (v.part (v.size - len) len), v.part 0 (v.size - len)) := by
  have hsize : v.size < 2 ^ 64 := (Nat.le_add_left _ _).trans_lt hv
  have hthis : (v.part 0 (v.size - len)).Within v := part_within (by omega)
  unfold popBack
  dsimp only
  rw [if_neg (Nat.not_lt.mpr h), create_start hv, wsub_of_le h hsize,
    create_eq (hthis.placed hv) le_rfl]
  rfl

theorem truncate_eq (hv : v.Placed) (h : len ≤ v.size) :
    v.truncate len = (.ok (), v.part 0 len) := by
  unfold truncate
  rw [if_neg (Nat.not_lt.mpr h), create_start hv]

theorem crop_eq (hplus : plus.Moves) (hv : v.Placed) (h : len ≤ v.size) :
    v.crop plus len = (.ok (), v.part len (v.size - len)) := by
  unfold crop
  rw [if_neg (Nat.not_lt.mpr h), advance_eq hplus hv h]

/-- A call whose range ends in the view is served. -/
theorem call_eq (hplus : plus.Moves) (hv : v.Placed) (h : c.reach ≤ v.size) :
    v.call plus c m = v.served c m := by
  cases c with
  | slice pos len => simp only [call, slice_eq hv h, Except.map, served]
  | popFront len =>
    have hlen : len ≤ v.size := h
    simp only [call, popFront_eq hplus hv hlen, Except.map, served]
  | popBack len =>
    have hlen : len ≤ v.size := h
    simp only [call, popBack_eq hv hlen, Except.map, served]
  | truncate len =>
    have hlen : len ≤ v.size := h
    simp only [call, truncate_eq hv hlen, Except.map, served]
  | crop len =>
    have hlen : len ≤ v.size := h
    simp only [call, crop_eq hplus hv hlen, Except.map, served]
  | get pos n => simp only [call, get, loads_eq "get" hv h, Except.map, served]
  | copy pos len => simp only [call, copy, loads_eq "copy" hv h, Except.map, served]
  | set pos val => simp only [call, set, stores_eq "set" _ hv h, Except.map, served]
  | fill pos len src => simp only [call, fill, stores_eq "fill" src hv h, Except.map, served]

/-! ## Containment -/

/-- The second memory comes from the first one by accesses to bytes of the view. -/
structure Accesses (v : View) (m m' : Memory) : Prop where
  touched : ∃ spans, m'.touched = spans ++ m.touched ∧
    ∀ sp ∈ spans, ∀ a < 2 ^ 64, sp.Has a → v.Covers a
  bytes : ∀ a < 2 ^ 64, ¬ v.Covers a → m'.byte a = m.byte a

theorem Accesses.refl (v : View) (m : Memory) : v.Accesses m m where
  touched := ⟨[], rfl, fun _ h => absurd h List.not_mem_nil⟩
  bytes _ _ _ := rfl

theorem Accesses.trans (h : v.Accesses m m') (h' : v.Accesses m' m'') : v.Accesses m m'' where
  touched := by
    obtain ⟨spans, hspans, hin⟩ := h.touched
    obtain ⟨spans', hspans', hin'⟩ := h'.touched
    refine ⟨spans' ++ spans, by rw [hspans', hspans, List.append_assoc], ?_⟩
    intro sp hsp
    cases List.mem_append.mp hsp with
    | inl hsp => exact hin' sp hsp
    | inr hsp => exact hin sp hsp
  bytes a ha hout := (h'.bytes a ha hout).trans (h.bytes a ha hout)

theorem Accesses.mono (h : w.Accesses m m') (hw : w.Within v) : v.Accesses m m' where
  touched := by
    obtain ⟨spans, hspans, hin⟩ := h.touched
    exact ⟨spans, hspans, fun sp hsp a ha hhas => hw.covers (hin sp hsp a ha hhas)⟩
  bytes a ha hout := h.bytes a ha fun hin => hout (hw.covers hin)

/-- An access to a part of a view covers bytes of the view only. -/
theorem covers_of_has (hv : v.Placed) (h : pos + n ≤ v.size) {a : Nat} (ha : a < 2 ^ 64)
    (hhas : (Span.mk (v.data + pos) n).Has a) : v.Covers a := by
  unfold Placed at hv
  have hspan : v.data + pos + n < 2 ^ 64 := by omega
  obtain ⟨hlower, hupper⟩ := (Span.has_iff hspan ha).mp hhas
  have hend : v.data + pos + n ≤ v.data + v.size := by omega
  exact ⟨(Nat.le_add_right _ _).trans hlower, hupper.trans_le hend⟩

theorem accesses_load (hv : v.Placed) (h : pos + n ≤ v.size) :
    v.Accesses m (m.load (v.data + pos) n).2 where
  touched := by
    refine ⟨[⟨v.data + pos, n⟩], rfl, ?_⟩
    intro sp hsp a ha hhas
    cases List.mem_singleton.mp hsp
    exact covers_of_has hv h ha hhas
  bytes _ _ _ := rfl

theorem accesses_store (src : Nat → UInt8) (hv : v.Placed) (h : pos + n ≤ v.size) :
    v.Accesses m (m.store (v.data + pos) n src) where
  touched := by
    refine ⟨[⟨v.data + pos, n⟩], rfl, ?_⟩
    intro sp hsp a ha hhas
    cases List.mem_singleton.mp hsp
    exact covers_of_has hv h ha hhas
  bytes a ha hout := m.store_of_not_has fun hhas => hout (covers_of_has hv h ha hhas)

/-- What the two `pop` methods do to a view: they split it, and return the part that the name of the
method says. -/
def Splits (v : View) : Call → View → View → Prop
  | .popFront len, w, this => Adjoin w this v ∧ w.size = len
  | .popBack len, w, this => Adjoin this w v ∧ w.size = len
  | _, _, _ => True

/-- What a call on a view keeps to. It succeeds exactly when its range ends in the view; else it
throws, names its method, and changes nothing. It touches bytes of the view only, and what it leaves
and returns are views inside of it, two parts of it in the case of `pop_front` and `pop_back`. -/
structure Contained (plus : Plus) (v : View) (c : Call) (m : Memory) : Prop where
  succeeds : (v.call plus c m).answer.isOk = true ↔ c.reach ≤ v.size
  refuses : ∀ text, (v.call plus c m).answer = .error text →
    text = v.outOfRange c.name ∧ (v.call plus c m).this = v ∧ (v.call plus c m).memory = m
  accesses : v.Accesses m (v.call plus c m).memory
  this : (v.call plus c m).this.Within v
  yields : ∀ w, (v.call plus c m).answer = .ok (.view w) →
    w.Within v ∧ v.Splits c w (v.call plus c m).this

theorem served_accesses (hv : v.Placed) (h : c.reach ≤ v.size) :
    v.Accesses m (v.served c m).memory := by
  cases c with
  | get pos n => exact accesses_load hv h
  | copy pos len => exact accesses_load hv h
  | set pos val => exact accesses_store (fun i => val.getD i 0) hv h
  | fill pos len src => exact accesses_store src hv h
  | slice pos len => exact .refl v m
  | popFront len => exact .refl v m
  | popBack len => exact .refl v m
  | truncate len => exact .refl v m
  | crop len => exact .refl v m

theorem served_this (h : c.reach ≤ v.size) : (v.served c m).this.Within v := by
  cases c with
  | popFront len => exact part_within (Nat.add_sub_cancel' h).le
  | popBack len => exact part_within ((Nat.zero_add _).trans_le (Nat.sub_le _ _))
  | truncate len => exact part_within ((Nat.zero_add _).trans_le h)
  | crop len => exact part_within (Nat.add_sub_cancel' h).le
  | slice pos len => exact .refl v
  | get pos n => exact .refl v
  | set pos val => exact .refl v
  | fill pos len src => exact .refl v
  | copy pos len => exact .refl v

theorem served_yields (h : c.reach ≤ v.size) (hw : (v.served c m).answer = .ok (.view w)) :
    w.Within v ∧ v.Splits c w (v.served c m).this := by
  cases c with
  | slice pos len =>
    cases hw
    exact ⟨part_within h, trivial⟩
  | popFront len =>
    cases hw
    exact ⟨part_within ((Nat.zero_add _).trans_le h), adjoin_parts h, rfl⟩
  | popBack len =>
    cases hw
    have hlen : v.size - (v.size - len) = len := Nat.sub_sub_self h
    have hparts := adjoin_parts (Nat.sub_le v.size len)
    rw [hlen] at hparts
    exact ⟨part_within (Nat.sub_add_cancel h).le, hparts, rfl⟩
  | truncate len => cases hw
  | crop len => cases hw
  | get pos n => cases hw
  | set pos val => cases hw
  | fill pos len src => cases hw
  | copy pos len => cases hw

/-- A call whose range ends in the view is contained. -/
theorem contained_of_reach (hplus : plus.Moves) (hv : v.Placed) (h : c.reach ≤ v.size) :
    v.Contained plus c m := by
  have hok : (v.call plus c m).answer.isOk = true := isOk_of_accepts (accepts_of_reach h)
  have hcall := call_eq (m := m) hplus hv h
  refine ⟨iff_of_true hok h, ?_, ?_, ?_, ?_⟩
  · intro text htext
    rw [htext] at hok
    cases hok
  · exact hcall ▸ served_accesses hv h
  · exact hcall ▸ served_this h
  · intro w hw
    rw [hcall] at hw ⊢
    exact served_yields h hw

/-- A call that is refused because its range does not end in the view is contained. -/
theorem contained_of_not_accepts (h : ¬ v.Accepts c) : v.Contained plus c m := by
  have hcall : v.call plus c m = ⟨.error (v.outOfRange c.name), v, m⟩ := call_of_not_accepts h
  refine ⟨iff_of_false (fun hok => h (isOk_iff.mp hok)) fun hle => h (accepts_of_reach hle),
    ?_, ?_, ?_, ?_⟩
  · intro text htext
    rw [hcall] at htext ⊢
    cases htext
    exact ⟨rfl, rfl, rfl⟩
  · exact hcall ▸ .refl v m
  · exact hcall ▸ .refl v
  · intro w hw
    rw [hcall] at hw
    cases hw

/-- The calls that are contained are the straight ones. -/
theorem contained_iff (hplus : plus.Moves) (hv : v.Placed) (hc : v.Admits c) :
    v.Contained plus c m ↔ v.Straight c := by
  rw [straight_iff hv hc]
  constructor
  · intro h
    exact isOk_iff.symm.trans h.succeeds
  · intro h
    by_cases hreach : c.reach ≤ v.size
    · exact contained_of_reach hplus hv hreach
    · exact contained_of_not_accepts fun haccepts => hreach (h.mp haccepts)

/-- An access whose range wraps around leaves the view. -/
theorem span_leaves (hv : v.Placed) (hpos : pos < 2 ^ 64) (h : 2 ^ 64 ≤ pos + n) :
    ∃ a < 2 ^ 64, (Span.mk (wadd v.data pos) n).Has a ∧ ¬ v.Covers a := by
  unfold Placed at hv
  by_cases hinside : pos < v.size
  -- it starts in the view and goes on behind its end
  · have hlen : v.size - pos < n := by omega
    have hword : v.size - pos < 2 ^ 64 := by omega
    have hend : wadd (wadd v.data pos) (v.size - pos) = v.data + v.size := by
      rw [wadd_wadd, Nat.add_sub_cancel' hinside.le, wadd_of_lt hv]
    have hhas := Span.has_wadd (s := ⟨wadd v.data pos, n⟩) hlen hword
    rw [hend] at hhas
    exact ⟨v.data + v.size, hv, hhas, fun hcovers => hcovers.2.ne rfl⟩
  -- it starts outside
  · have hlen : 0 < n := by omega
    have hhas := Span.has_wadd (s := ⟨wadd v.data pos, n⟩) hlen (Nat.two_pow_pos 64)
    refine ⟨wadd (wadd v.data pos) 0, wadd_lt _ _, hhas, ?_⟩
    unfold Covers wadd
    omega

/-- A call that is not straight succeeds, and either returns a view that ends behind the view it was
called on or touches a byte outside of it. -/
theorem escapes (hv : v.Placed) (hc : v.Admits c) (h : ¬ v.Straight c) :
    (v.call plus c m).answer.isOk = true ∧
      ((∃ w, (v.call plus c m).answer = .ok (.view w) ∧ v.data + v.size < w.data + w.size) ∨
        ∃ sp, (v.call plus c m).memory.touched = sp :: m.touched ∧
          ∃ a < 2 ^ 64, sp.Has a ∧ ¬ v.Covers a) := by
  have hboth := fun hiff => h ((straight_iff hv hc).mpr hiff)
  have haccepts : v.Accepts c := by
    by_contra hno
    exact hboth (iff_of_false hno fun hle => hno (accepts_of_reach hle))
  refine ⟨isOk_of_accepts haccepts, ?_⟩
  cases c with
  | slice pos len =>
    obtain ⟨hwrap, hpos⟩ := not_or.mp h
    left
    refine ⟨v.part pos len, ?_, ?_⟩
    · have hslice : v.slice pos len = .ok (create v.kind v.array (wadd v.offset pos) len) :=
        if_neg haccepts
      simp only [call, hslice, create_eq hv (Nat.not_lt.mp hpos), Except.map]
    · unfold Placed at hv
      show v.data + v.size < v.data + pos + len
      omega
  | get pos n =>
    right
    refine ⟨⟨wadd v.data pos, n⟩, ?_, span_leaves hv hc.1 (Nat.not_lt.mp (not_or.mp h).1)⟩
    simp only [call, get, loads, if_neg haccepts, Memory.load]
  | copy pos len =>
    right
    refine ⟨⟨wadd v.data pos, len⟩, ?_, span_leaves hv hc.1 (Nat.not_lt.mp (not_or.mp h).1)⟩
    simp only [call, copy, loads, if_neg haccepts, Memory.load]
  | set pos val =>
    right
    refine ⟨⟨wadd v.data pos, val.length⟩, ?_,
      span_leaves hv hc.1 (Nat.not_lt.mp (not_or.mp h).1)⟩
    simp only [call, set, stores, if_neg haccepts, Memory.store]
  | fill pos len src =>
    right
    refine ⟨⟨wadd v.data pos, len⟩, ?_, span_leaves hv hc.1 (Nat.not_lt.mp (not_or.mp h).1)⟩
    simp only [call, fill, stores, if_neg haccepts, Memory.store]
  | popFront len => exact absurd trivial h
  | popBack len => exact absurd trivial h
  | truncate len => exact absurd trivial h
  | crop len => exact absurd trivial h

end View

namespace Views

open View

variable {plus : Plus} {m : Memory} {root : View}

/-- Every view that the program has lies inside the first one, and no byte outside of the first one
was touched. -/
structure Stays (m : Memory) (root : View) (s : Views) : Prop where
  views : ∀ v ∈ s.views, v.Within root
  accesses : root.Accesses m s.memory

/-- The call of the event is a straight one. -/
def Straight (s : Views) (e : Nat × Call) : Prop :=
  ∀ v, s.views[e.1]? = some v → v.Straight e.2

/-- What a step is: an admitted call on one of the views, whose results join the views. -/
theorem step_cases {s s' : Views} {e : Nat × Call} (h : s.step plus e = some s') :
    ∃ v, s.views[e.1]? = some v ∧ v.Admits e.2 ∧
      s'.memory = (v.call plus e.2 s.memory).memory ∧
      ∀ w ∈ s'.views, w ∈ s.views ∨ w = (v.call plus e.2 s.memory).this ∨
        (v.call plus e.2 s.memory).answer = .ok (.view w) := by
  obtain ⟨v, hv, hstep⟩ := Option.bind_eq_some_iff.mp h
  obtain ⟨hadmits, hstep⟩ := Option.ite_none_right_eq_some.mp hstep
  refine ⟨v, hv, hadmits, ?_⟩
  dsimp only at hstep
  split at hstep
  · next w hw =>
    cases hstep
    refine ⟨rfl, fun x hx => ?_⟩
    rcases List.mem_append.mp hx with hx | hx
    · rcases List.mem_or_eq_of_mem_set hx with hx | hx
      · exact .inl hx
      · exact .inr (.inl hx)
    · cases List.mem_singleton.mp hx
      exact .inr (.inr hw)
  · cases hstep
    refine ⟨rfl, fun x hx => ?_⟩
    rcases List.mem_or_eq_of_mem_set hx with hx | hx
    · exact .inl hx
    · exact .inr (.inl hx)

/-- A straight call keeps everything inside the first view. -/
theorem Stays.step (hplus : plus.Moves) (hroot : root.Placed) {s s' : Views} {e : Nat × Call}
    (h : s.Stays m root) (hstraight : s.Straight e) (hstep : s.step plus e = some s') :
    s'.Stays m root := by
  obtain ⟨v, hat, hadmits, hmemory, hviews⟩ := step_cases hstep
  have hwithin : v.Within root := h.views v (List.mem_of_getElem? hat)
  have hcontained : v.Contained plus e.2 s.memory :=
    (contained_iff hplus (hwithin.placed hroot) hadmits).mpr (hstraight v hat)
  constructor
  · intro w hw
    rcases hviews w hw with hw | hw | hw
    · exact h.views w hw
    · exact hw ▸ hcontained.this.trans hwithin
    · exact (hcontained.yields w hw).1.trans hwithin
  · rw [hmemory]
    exact h.accesses.trans (hcontained.accesses.mono hwithin)

/-- A program whose calls are all straight stays inside the view it starts from. -/
theorem Stays.of_reaches (hplus : plus.Moves) (hroot : root.Placed) {s : Views}
    (h : (system plus m root).Reaches Straight s) : s.Stays m root := by
  apply h.invariant
  · intro s hs
    cases hs
    exact ⟨fun v hv => List.mem_singleton.mp hv ▸ .refl root, .refl root m⟩
  · intro s e s' hstraight hs hstep
    exact hs.step hplus hroot hstraight hstep

/-- In every run of straight calls all views stay inside the first one and no byte outside of it is
touched; and in every state of such a run, a call on any of the views is contained exactly when it
is a straight one. -/
theorem contained_iff_straight (hplus : plus.Moves) (hroot : root.Placed) {s : Views}
    (h : (system plus m root).Reaches Straight s) :
    s.Stays m root ∧ ∀ v ∈ s.views, ∀ c, v.Admits c →
      (v.Contained plus c s.memory ↔ v.Straight c) := by
  have hstays := Stays.of_reaches hplus hroot h
  refine ⟨hstays, ?_⟩
  intro v hv c hc
  exact contained_iff hplus ((hstays.views v hv).placed hroot) hc

/-- `operator+=` as asio has it: the operand is cut down to the size first. -/
def clipped : Plus := fun data size n => (data + min n size, size - min n size)

theorem clipped_moves : clipped.Moves := by
  intro data size n h _
  unfold clipped
  rw [Nat.min_eq_left h]

/-- A `mutable_buffer` of 16 bytes. -/
def sixteen : View := ⟨.mutableBuffer, 4096, 4096, 16⟩

/-- Memory of zeros, before any access. -/
def blank : Memory := ⟨fun _ => 0, []⟩

theorem sixteen_placed : sixteen.Placed := by
  show 4096 + 16 < 2 ^ 64
  omega

/-- A slice of it, the first bytes of the slice popped, and a store into the whole view. -/
theorem contained_iff_straight_sixteen : ∃ s, (system clipped blank sixteen).Reaches Straight s ∧
    s.views.length = 3 ∧ s.Stays blank sixteen ∧ ∀ v ∈ s.views, ∀ c, v.Admits c →
      (v.Contained clipped c s.memory ↔ v.Straight c) := by
  have hstart : (system clipped blank sixteen).Reaches Straight ⟨blank, [sixteen]⟩ := .start rfl
  have hslice := hstart.next (e := (0, Call.slice 4 8)) (fun _ _ => .inl (by omega)) rfl
  have hpop := hslice.next (e := (1, Call.popFront 3)) (fun _ _ => trivial) rfl
  have hset := hpop.next (e := (0, Call.set 2 [7, 9]))
    (fun _ _ => .inl (show 2 + 2 < 2 ^ 64 by omega)) rfl
  obtain ⟨hstays, hiff⟩ := contained_iff_straight clipped_moves sixteen_placed hset
  exact ⟨_, hset, rfl, hstays, hiff⟩

/-- `slice(1, 2^64 - 1)` of 16 bytes passes its test, for the sum is 0, and returns a view of
`2^64 - 1` bytes. -/
theorem slice_leaves : sixteen.Placed ∧ sixteen.Admits (.slice 1 (2 ^ 64 - 1)) ∧
    sixteen.slice 1 (2 ^ 64 - 1) = .ok ⟨.mutableBuffer, 4096, 4097, 2 ^ 64 - 1⟩ ∧
    ¬ View.Within ⟨.mutableBuffer, 4096, 4097, 2 ^ 64 - 1⟩ sixteen ∧
    ¬ sixteen.Contained clipped (.slice 1 (2 ^ 64 - 1)) blank := by
  have hadmits : sixteen.Admits (.slice 1 (2 ^ 64 - 1)) :=
    ⟨Nat.one_lt_two_pow_iff.mpr nofun, maxWord_lt⟩
  refine ⟨sixteen_placed, hadmits, rfl, ?_, ?_⟩
  · intro h
    have hupper : 4097 + (2 ^ 64 - 1) ≤ 4096 + 16 := h.upper
    omega
  · rw [contained_iff clipped_moves sixteen_placed hadmits]
    have hsize : sixteen.size = 16 := rfl
    show ¬ (1 + (2 ^ 64 - 1) < 2 ^ 64 ∨ sixteen.size < 1)
    omega

end Views

end Tubus
