import Mathlib.Data.List.Basic
import Tubus.Tcp.Exchange

/-!
# What the callbacks of a stream are told

The size a caller is told is what the socket moved, less the head where there is one. Some branches
miss that: a first write that fails or falls short reports bytes of the head, and a read that finds
its stream gone reports none at all (`told_exact_iff`).

Whether a head is still awaited is read off `m_istate.salt`, and `read_head` sets it before the
sign is compared. So the read that finds a wrong sign is the last one to look for it, and later ones
succeed as the socket does (`reads_refused_iff`).
-/

namespace Tubus.Tcp

open Lib

/-! ## Sizes -/

/-- Where the size passed on is that of the payload: a first write moved nothing, or succeeded with
its head in full; a read that decodes finds its stream, or moved nothing of its chunk. -/
def Completion.Plain (c : Completion) : Prop :=
  match c.operation with
  | .write true => c.count = 0 ∨ c.ec = .success ∧ headSize ≤ c.count
  | .read .head | .read .plain => c.alive = true ∨ c.count ≤ c.operation.front
  | .write false | .read .clear => True

namespace Stream

theorem written_exact_iff (head : Bool) (size : Nat) (ec : Ec) (count : Nat) (alive : Bool) :
    (written head ec count).2 = (⟨.write head, size, ec, count, alive⟩ : Completion).payload ↔
      (⟨.write head, size, ec, count, alive⟩ : Completion).Plain := by
  cases head with
  | false => simp [written, Completion.payload, Completion.Plain, Operation.front]
  | true =>
    simp only [written, Completion.payload, Completion.Plain, Operation.front, true_and]
    have hpos : 0 < headSize := by decide
    by_cases hec : ec = .success
    · rw [if_pos hec]
      split
      · omega
      · simp only [hec, true_and, true_iff]
        omega
    · rw [if_neg hec]
      simp only [hec, false_and, or_false]
      omega

/-- The size of a read, whatever its bytes are. -/
theorem received_size (e : Endian) (alive : Bool) (s : Stream) (got : Bytes) (ec : Ec)
    (kind : Reading) :
    (s.received e alive got ec kind).2.size =
      if kind = .clear ∨ alive = true then got.length - (Operation.read kind).front else 0 := by
  cases kind with
  | head =>
    cases alive with
    | false => rfl
    | true =>
      simp only [received, Operation.front, or_true, if_true]
      by_cases hlen : got.length < headSize
      · rw [if_pos hlen]
        exact (Nat.sub_eq_zero_of_le (Nat.le_of_lt hlen)).symm
      · rw [if_neg hlen, ← List.length_drop]
        split <;> rfl
  | plain => cases alive <;> rfl
  | clear => cases alive <;> rfl

theorem received_exact_iff (e : Endian) (alive : Bool) (s : Stream) (got : Bytes) (ec : Ec)
    (kind : Reading) (size : Nat) :
    (s.received e alive got ec kind).2.size =
        (⟨.read kind, size, ec, got.length, alive⟩ : Completion).payload ↔
      (⟨.read kind, size, ec, got.length, alive⟩ : Completion).Plain := by
  rw [received_size, Completion.payload]
  cases alive with
  | true => cases kind <;> simp [Completion.Plain]
  | false =>
    cases kind with
    | clear => simp [Completion.Plain]
    | head | plain =>
      simp only [Completion.Plain, reduceCtorEq, Bool.false_eq_true, or_self, if_false, false_or]
      omega

end Stream

namespace Exchange

/-- What holds of every entry of the history. -/
def Told (t : Completion × Ec × Nat) : Prop :=
  (t.2.2 = t.1.payload ↔ t.1.Plain) ∧ t.1.payload ≤ t.1.size

theorem Told.finish {e : Endian} {x : Exchange} (h : ∀ t ∈ x.told, Told t) {operation : Operation}
    {size : Nat} {ec : Ec} {moved : Bytes} (hfits : moved.length ≤ operation.front + size) :
    ∀ t ∈ (x.finish e operation size ec moved).told, Told t := by
  have hle : moved.length - operation.front ≤ size := by omega
  cases operation with
  | write head =>
    intro t ht
    obtain ht | ht := List.mem_append.mp ht
    · exact h t ht
    · rw [List.mem_singleton] at ht
      subst ht
      exact ⟨Stream.written_exact_iff head size ec moved.length x.alive, hle⟩
  | read kind =>
    intro t ht
    obtain ht | ht := List.mem_append.mp ht
    · exact h t ht
    · rw [List.mem_singleton] at ht
      subst ht
      exact ⟨Stream.received_exact_iff e x.alive x.stream moved ec kind size, hle⟩

theorem Told.step {e : Endian} {x x' : Exchange} {event : Event} (h : ∀ t ∈ x.told, Told t)
    (hstep : x.step e event = some x') : ∀ t ∈ x'.told, Told t := by
  cases event with
  | write salt chunk =>
    obtain ⟨-, hx'⟩ := Option.ite_none_right_eq_some.mp hstep
    cases hx'
    exact h
  | read size =>
    obtain ⟨-, hx'⟩ := Option.ite_none_right_eq_some.mp hstep
    cases hx'
    exact h
  | destroy =>
    cases hstep
    exact h
  | complete place ec moved =>
    simp only [Exchange.step] at hstep
    cases hplace : x.pending[place]? with
    | none =>
      rw [hplace] at hstep
      cases hstep
    | some operation =>
      obtain ⟨operation, size⟩ := operation
      rw [hplace] at hstep
      obtain ⟨hfits, hx'⟩ := Option.ite_none_left_eq_some.mp hstep
      cases hx'
      apply Told.finish (x := { x with pending := x.pending.eraseIdx place }) h
      omega

/-- The callbacks of a stream are told the bytes of their own chunks exactly if no first write moved
bytes without a success, and no read that decodes moved any when its stream was gone. -/
theorem told_exact_iff {e : Endian} {secret : UInt64} {x : Exchange}
    (h : (system e secret).Reachable x) :
    (∀ t ∈ x.told, t.2.2 = t.1.payload ∧ t.2.2 ≤ t.1.size) ↔ ∀ t ∈ x.told, t.1.Plain := by
  have htold : ∀ t ∈ x.told, Told t := by
    refine System.Reaches.invariant (P := fun x => ∀ t ∈ x.told, Told t) ?_ ?_ h
    · rintro x rfl t ht
      exact absurd ht List.not_mem_nil
    · intro x event x' _ hx hstep
      exact Told.step hx hstep
  refine forall₂_congr fun t ht => ?_
  obtain ⟨hiff, hle⟩ := htold t ht
  rw [← hiff]
  constructor
  · intro hexact
    exact hexact.1
  · intro hexact
    exact ⟨hexact, hexact ▸ hle⟩

/-- A first write of three bytes that succeeds, and a first read that fails within the head. -/
theorem told_exact_iff_first :
    ∃ x, (system .little 5).Reachable x ∧ x.told.map (fun t => t.2.2) = [3, 0] ∧
      ∀ t ∈ x.told, t.2.2 = t.1.payload ∧ t.2.2 ≤ t.1.size := by
  have hrun : ((system .little 5).run (create 5)
      [.write 7 [1, 2, 3], .read 4, .complete 0 .success (List.replicate 19 0),
        .complete 0 .notConnected [0]]).map Exchange.told =
      some [(⟨.write true, 3, .success, 19, true⟩, .success, 3),
        (⟨.read .head, 4, .notConnected, 1, true⟩, .notConnected, 0)] := by decide +kernel
  obtain ⟨x, hx, htold⟩ := System.exists_of_run _ rfl hrun
  refine ⟨x, hx, by rw [htold]; rfl, (told_exact_iff hx).mpr ?_⟩
  intro t ht
  rw [htold, List.mem_cons, List.mem_singleton] at ht
  obtain rfl | rfl := ht
  · exact .inr ⟨rfl, by decide⟩
  · exact .inl rfl

/-- A first write of one byte that fails after eight bytes of its head is told of eight. -/
theorem told_head :
    ¬ ∀ (secret : UInt64) (x : Exchange), (system .little secret).Reachable x →
      ∀ t ∈ x.told, t.2.2 = t.1.payload ∧ t.2.2 ≤ t.1.size := by
  intro hall
  have hrun : ((system .little 5).run (create 5)
      [.write 7 [1], .complete 0 .brokenPipe (List.replicate 8 0)]).map Exchange.told =
      some [(⟨.write true, 1, .brokenPipe, 8, true⟩, .brokenPipe, 8)] := by decide +kernel
  obtain ⟨x, hx, htold⟩ := System.exists_of_run _ rfl hrun
  have hle := (hall 5 x hx _ (by rw [htold]; exact List.mem_singleton_self _)).2
  revert hle
  decide

end Exchange

/-! ## A bad head -/

namespace Stream

/-- The sign in the first bytes of a stream, as `read_head` decodes it. -/
def sign (e : Endian) (secret : UInt64) (wire : Bytes) : UInt64 :=
  (Cipher.create.readHead e secret (wire.take headSize)).2

/-- The salt in the first bytes of a stream, as `read_head` decodes it. -/
def salt (e : Endian) (secret : UInt64) (wire : Bytes) : UInt64 :=
  (Cipher.create.readHead e secret (wire.take headSize)).1.salt

/-- A head in full, with a salt that says that it was taken. -/
def Opens (e : Endian) (secret : UInt64) (got : Bytes) : Prop :=
  headSize ≤ got.length ∧ salt e secret got ≠ 0

/-- A head in full, with the sign. -/
def Right (e : Endian) (secret : UInt64) (got : Bytes) : Prop :=
  headSize ≤ got.length ∧ sign e secret got = signature

instance (e : Endian) (secret : UInt64) : DecidablePred (Opens e secret) :=
  fun _ => inferInstanceAs (Decidable (_ ∧ _))

instance (e : Endian) (secret : UInt64) : DecidablePred (Right e secret) :=
  fun _ => inferInstanceAs (Decidable (_ ∧ _))

/-- The reads after the first one that got such bytes. -/
def after (P : Bytes → Prop) [DecidablePred P] : List (Bytes × Ec) → List (Bytes × Ec)
  | [] => []
  | piece :: more => if P piece.1 then more else after P more

/-- The socket completes no read with success after the one that got the first full head with a
salt, and after the first bytes none that got a right head of its own. -/
structure Silent (e : Endian) (secret : UInt64) (pieces : List (Bytes × Ec)) : Prop where
  failing : ∀ piece ∈ after (Opens e secret) pieces, piece.2 ≠ .success
  headless : ∀ piece ∈ after (0 < List.length ·) pieces, piece.2 = .success →
    ¬ Right e secret piece.1

/-- The sign does not depend on the state that was left. -/
theorem readHead_sign (e : Endian) (secret : UInt64) (data : Bytes) (c : Cipher) :
    (c.readHead e secret data).2 = (Cipher.create.readHead e secret data).2 := rfl

theorem received_secret (e : Endian) (alive : Bool) (s : Stream) (got : Bytes) (ec : Ec)
    (kind : Reading) : (s.received e alive got ec kind).1.secret = s.secret := by
  cases kind with
  | head =>
    simp only [received]
    split
    · split
      · rfl
      · split <;> rfl
    · rfl
  | plain => cases alive <;> rfl
  | clear => rfl

/-- When a read succeeds: a head that is awaited has to come in full and to be right. -/
theorem received_success_iff {e : Endian} {s : Stream} (hsecret : s.secret ≠ 0) (got : Bytes)
    (ec : Ec) :
    (s.received e true got ec s.asyncRead).2.ec = .success ↔
      ec = .success ∧
        (s.istate.salt = 0 → headSize ≤ got.length ∧ sign e s.secret got = signature) := by
  by_cases hsalt : s.istate.salt = 0
  · have hkind : s.asyncRead = .head := by simp [asyncRead, hsecret, hsalt]
    simp only [hkind, received, if_true, hsalt, true_implies, readHead_sign]
    by_cases hlen : got.length < headSize
    · rw [if_pos hlen]
      have hnot : ¬ headSize ≤ got.length := by omega
      by_cases hec : ec = .success <;> simp [hec, hnot]
    · rw [if_neg hlen]
      have hfull : headSize ≤ got.length := by omega
      by_cases hsign : sign e s.secret got = signature
      · rw [sign] at hsign
        simp [sign, hsign, hfull]
      · rw [sign] at hsign
        by_cases hec : ec = .success <;> simp [sign, hsign, hec]
  · have hkind : s.asyncRead = .plain := by simp [asyncRead, hsecret, hsalt]
    simp [hkind, received, hsalt]

theorem alterData_salt (e : Endian) (dim : Bool) (c : Cipher) (data : Bytes) :
    (c.alterData e dim data).1.salt = c.salt := by
  have hfresh : ∀ (c : Cipher) (data : Bytes), (c.alterFresh e dim data).1.salt = c.salt := by
    intro c data
    unfold Cipher.alterFresh
    split <;> rfl
  unfold Cipher.alterData
  split
  · exact hfresh _ _
  · exact hfresh _ _

/-- A stream with a salt looks for no head. -/
theorem reads_opened {e : Endian} (more : List (Bytes × Ec)) {s : Stream} (hsecret : s.secret ≠ 0)
    (hsalt : s.istate.salt ≠ 0) :
    (∀ r ∈ (s.reads e more).2, r.ec ≠ .success) ↔ ∀ piece ∈ more, piece.2 ≠ .success := by
  induction more generalizing s with
  | nil => simp [reads]
  | cons piece more ih =>
    obtain ⟨got, ec⟩ := piece
    have hkind : s.asyncRead = .plain := by simp [asyncRead, hsecret, hsalt]
    have hkeeps : (s.received e true got ec s.asyncRead).1.istate.salt = s.istate.salt := by
      rw [hkind]
      exact alterData_salt e false s.istate got
    have hrest := ih (s := (s.received e true got ec s.asyncRead).1)
      (by rwa [received_secret]) (by rwa [hkeeps])
    have hfirst : (s.received e true got ec s.asyncRead).2.ec = .success ↔ ec = .success := by
      rw [received_success_iff hsecret]
      exact and_iff_left fun hzero => absurd hzero hsalt
    simp only [reads, List.forall_mem_cons, Ne]
    rw [hfirst]
    exact and_congr_right fun _ => hrest

/-- The salt that a read leaves to a stream which awaits a head. -/
theorem received_salt {e : Endian} {s : Stream} (hsecret : s.secret ≠ 0) (hsalt : s.istate.salt = 0)
    (got : Bytes) (ec : Ec) : (s.received e true got ec s.asyncRead).1.istate.salt =
      if headSize ≤ got.length then salt e s.secret got else 0 := by
  have hkind : s.asyncRead = .head := by simp [asyncRead, hsecret, hsalt]
  rw [hkind]
  simp only [received, if_true]
  by_cases hlen : got.length < headSize
  · rw [if_pos hlen, if_neg (Nat.not_le.mpr hlen)]
    exact hsalt
  · rw [if_neg hlen, if_pos (Nat.le_of_not_lt hlen)]
    split
    · rfl
    · exact alterData_salt e false _ _

/-- While a head is awaited, each read is tried for one. -/
theorem reads_awaiting {e : Endian} (more : List (Bytes × Ec)) {s : Stream} (hsecret : s.secret ≠ 0)
    (hsalt : s.istate.salt = 0) : (∀ r ∈ (s.reads e more).2, r.ec ≠ .success) ↔
      (∀ piece ∈ after (Opens e s.secret) more, piece.2 ≠ .success) ∧
        ∀ piece ∈ more, piece.2 = .success → ¬ Right e s.secret piece.1 := by
  induction more generalizing s with
  | nil => simp [reads, after]
  | cons piece more ih =>
    obtain ⟨got, ec⟩ := piece
    have hsame := received_secret e true s got ec s.asyncRead
    have hleft := received_salt hsecret hsalt got ec (e := e)
    have hfirst : (s.received e true got ec s.asyncRead).2.ec ≠ .success ↔
        (ec = .success → ¬ Right e s.secret got) := by
      rw [Ne, received_success_iff hsecret, not_and]
      exact imp_congr_right fun _ => not_congr ⟨fun h => h hsalt, fun h _ => h⟩
    simp only [reads, List.forall_mem_cons, after]
    rw [hfirst]
    by_cases hopens : Opens e s.secret got
    · rw [if_pos hopens]
      rw [if_pos hopens.1] at hleft
      have hopened := reads_opened (e := e) more (hsame ▸ hsecret) (hleft ▸ hopens.2)
      rw [hopened]
      constructor
      · rintro ⟨hbad, hfailing⟩
        exact ⟨hfailing, hbad, fun piece hpiece hec => absurd hec (hfailing piece hpiece)⟩
      · rintro ⟨hfailing, hbad, -⟩
        exact ⟨hbad, hfailing⟩
    · rw [if_neg hopens]
      have hzero : (s.received e true got ec s.asyncRead).1.istate.salt = 0 := by
        rw [hleft]
        split
        · next hlen =>
          by_contra hne
          exact hopens ⟨hlen, hne⟩
        · rfl
      have hrest := ih (hsame ▸ hsecret) hzero
      rw [hsame] at hrest
      rw [hrest]
      exact and_left_comm

/-- The reads before the first bytes, and the one that gets them, have no right head. -/
theorem headless_iff {e : Endian} {secret : UInt64} {wire : Bytes} {pieces : List (Bytes × Ec)}
    (hbad : sign e secret wire ≠ signature) (hwire : (pieces.map Prod.fst).flatten <+: wire) :
    (∀ piece ∈ pieces, piece.2 = .success → ¬ Right e secret piece.1) ↔
      ∀ piece ∈ after (0 < List.length ·) pieces, piece.2 = .success →
        ¬ Right e secret piece.1 := by
  induction pieces with
  | nil => simp [after]
  | cons piece more ih =>
    obtain ⟨got, ec⟩ := piece
    have hgot : ¬ Right e secret got := by
      rintro ⟨hlen, hsign⟩
      apply hbad
      have hpre : got <+: wire := by
        apply List.IsPrefix.trans _ hwire
        rw [List.map_cons, List.flatten_cons]
        exact List.prefix_append _ _
      have htake : got.take headSize = wire.take headSize := by
        obtain ⟨left, rfl⟩ := hpre
        exact (List.take_append_of_le_length hlen).symm
      rwa [sign, htake] at hsign
    rw [List.forall_mem_cons, after]
    split
    · exact and_iff_right fun _ => hgot
    · next hempty =>
      have hnil : got = [] := List.eq_nil_of_length_eq_zero (Nat.eq_zero_of_not_pos hempty)
      rw [ih (by rwa [hnil] at hwire)]
      exact and_iff_right fun _ => hgot

/-- A stream whose first bytes do not decode: no read succeeds exactly if the socket completes none
with success once a head with a salt was taken, and after the first bytes none that looks like a
head. -/
theorem reads_refused_iff {e : Endian} {secret : UInt64} (wire : Bytes)
    {more : List (Bytes × Ec)} (hsecret : secret ≠ 0) (hbad : sign e secret wire ≠ signature)
    (hwire : (more.map Prod.fst).flatten <+: wire) :
    (∀ r ∈ ((create secret).reads e more).2, r.ec ≠ .success) ↔ Silent e secret more := by
  rw [reads_awaiting more hsecret rfl]
  constructor
  · rintro ⟨hfailing, hright⟩
    exact ⟨hfailing, (headless_iff hbad hwire).mp hright⟩
  · rintro ⟨hfailing, hheadless⟩
    exact ⟨hfailing, (headless_iff hbad hwire).mpr hheadless⟩

/-- The read that finds the bad head fails, and the next one fails in the socket. -/
theorem reads_refused_iff_failing :
    Silent .little 5 [(List.replicate 17 1, .success), ([1], .brokenPipe)] ∧
      ∀ r ∈ ((create 5).reads .little
        [(List.replicate 17 1, .success), ([1], .brokenPipe)]).2, r.ec ≠ .success := by
  have hsilent : Silent .little 5 [(List.replicate 17 1, .success), ([1], .brokenPipe)] :=
    ⟨by decide +kernel, by decide +kernel⟩
  refine ⟨hsilent, ?_⟩
  apply (reads_refused_iff (List.replicate 18 1) (by decide) (by decide +kernel)
    ⟨[], by decide⟩).mpr
  exact hsilent

/-- The read after the one that finds the bad head succeeds. -/
theorem reads_after_refusal :
    ¬ ∀ (secret : UInt64) (wire : Bytes) (more : List (Bytes × Ec)), secret ≠ 0 →
      headSize ≤ wire.length → sign .little secret wire ≠ signature →
      (more.map Prod.fst).flatten <+: wire →
      ∀ r ∈ ((create secret).reads .little more).2, r.ec ≠ .success := by
  intro hall
  have hnone := hall 5 (List.replicate 18 1)
    [(List.replicate 17 1, .success), ([1], .success)]
    (by decide) (by decide) (by decide +kernel) ⟨[], by decide⟩
  revert hnone
  decide +kernel

end Stream

end Tubus.Tcp
