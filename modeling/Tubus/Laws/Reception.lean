import Tubus.Laws.Readable

/-!
# The receive window against any peer

`map` tests the window only for a handle at or above the tail, the end of the entry with the
greatest key, and in 64-bit arithmetic. So a fragment below the tail goes in whatever its length is,
and one that runs over the last number is taken for a short one (`Slips`). Of the others the test
refuses exactly those that would break the window, and a walk in which no fragment slips through
keeps every entry within it (`window_binds`).
-/

namespace Tubus.Udp

open Lib

namespace ReceiveBuffer

variable {b b' : ReceiveBuffer} {q : Qos}

/-- Every entry lies within the window, and before the last number. -/
structure Within (q : Qos) (b : ReceiveBuffer) : Prop extends b.Bounded where
  end_le : ∀ e ∈ b.data.entries, e.1 + e.2.length ≤ b.head + q.receiveBufferSize

/-- A fragment that goes in slips through the test: it begins below the tail, so that no test is
made, and ends behind the window or the last number; or its end wraps, and the word is not too far
from the head. -/
def Slips (q : Qos) (b : ReceiveBuffer) (h : Nat) (d : Bytes) : Prop :=
  b.inserts h = true ∧
    ((h < b.tail ∧ min (b.head + q.receiveBufferSize) (2 ^ 64 - 1) < h + d.length) ∨
      (2 ^ 64 ≤ h + d.length ∧ wsub (wadd h d.length) b.head ≤ q.receiveBufferSize))

instance (q : Qos) (b : ReceiveBuffer) (h : Nat) (d : Bytes) : Decidable (b.Slips q h d) :=
  inferInstanceAs (Decidable (_ ∧ _))

/-- At or above the tail, the end of a fragment that goes in is tested as it is, unless it wraps. -/
theorem wsub_end {h : Nat} {d : Bytes} (hinserts : b.inserts h = true)
    (hend : h + d.length < 2 ^ 64) : wsub (wadd h d.length) b.head = h + d.length - b.head := by
  have hhead : b.head ≤ h := of_decide_eq_true (Bool.and_eq_true_iff.mp hinserts).1
  rw [wadd_of_lt hend]
  exact wsub_of_le (Nat.le_trans hhead (Nat.le_add_right h d.length)) hend

theorem Within.fresh : Within q fresh :=
  ⟨.fresh, fun _ he => absurd he List.not_mem_nil⟩

theorem Within.clear (b : ReceiveBuffer) : Within q b.clear :=
  ⟨.clear b, fun _ he => absurd he List.not_mem_nil⟩

/-- The window moves on with the head, and the rest of a cut entry ends where the entry did. -/
theorem Within.pull (h : b.Within q) (hav : b.available = true) {max : Nat} {data : Bytes}
    (hpull : b.pull max = some (data, b')) : b'.Within q := by
  refine ⟨h.toBounded.pull hav hpull, ?_⟩
  obtain ⟨top, htop, ⟨-, -, rfl⟩ | ⟨hgt, -, rfl⟩⟩ := pull_cases hav hpull
  · have hend := h.toBounded.top_lt htop
    have hw : wadd b.head top.length = b.head + top.length := wadd_of_lt hend
    intro e he
    have hle := h.end_le e (SortedMap.mem_eraseFirst he)
    show e.1 + e.2.length ≤ wadd b.head top.length + q.receiveBufferSize
    omega
  · have hend := h.toBounded.top_lt htop
    have hw : wadd b.head max = b.head + max := wadd_of_lt (by omega)
    have htop_le := h.end_le _ (SortedMap.first?_mem htop)
    intro e he
    show e.1 + e.2.length ≤ wadd b.head max + q.receiveBufferSize
    obtain he | ⟨rfl, -⟩ := SortedMap.mem_emplace.mp he
    · have hle := h.end_le e (SortedMap.mem_eraseFirst he)
      omega
    · rw [List.length_drop]
      dsimp only at htop_le ⊢
      omega

/-- What the test lets in without a slip fits. -/
theorem fits_of_not_slips {h : Nat} {d : Bytes} (hno : ¬ b.Slips q h d)
    (hinserts : b.inserts h = true)
    (hpassed : ¬ (b.tail ≤ h ∧ q.receiveBufferSize < wsub (wadd h d.length) b.head)) :
    h + d.length ≤ b.head + q.receiveBufferSize ∧ h + d.length < 2 ^ 64 := by
  by_cases htail : h < b.tail
  · have hle : ¬ min (b.head + q.receiveBufferSize) (2 ^ 64 - 1) < h + d.length :=
      fun hlt => hno ⟨hinserts, .inl ⟨htail, hlt⟩⟩
    omega
  · have hnear : wsub (wadd h d.length) b.head ≤ q.receiveBufferSize :=
      Nat.le_of_not_lt fun hfar => hpassed ⟨Nat.le_of_not_lt htail, hfar⟩
    have hend : h + d.length < 2 ^ 64 :=
      Nat.lt_of_not_le fun hwraps => hno ⟨hinserts, .inr ⟨hwraps, hnear⟩⟩
    rw [wsub_end hinserts hend] at hnear
    exact ⟨by omega, hend⟩

/-- A fragment that does not slip leaves every entry within the window. -/
theorem Within.map (hb : b.Within q) {h : Nat} {d : Bytes} (hno : ¬ b.Slips q h d) :
    (b.map q h d).2.Within q := by
  obtain ⟨heq, -⟩ | ⟨heq, -⟩ | ⟨hinserts, k, x, -, heq⟩ := b.map_cases q h d
  · rw [heq]
    exact hb
  · rw [heq]
    exact hb
  · have hfits := fits_of_not_slips hno hinserts fun hrefuses => by
      rw [ReceiveBuffer.map, if_pos hrefuses] at heq
      cases heq
    have hentry : ∀ e ∈ (b.data.emplace h d).entries, e ∈ b.data.entries ∨ e = (h, d) := by
      intro e he
      obtain he | ⟨rfl, -⟩ := SortedMap.mem_emplace.mp he
      · exact .inl he
      · exact .inr rfl
    rw [heq]
    refine ⟨⟨hb.head_lt, fun e he => ?_⟩, fun e he => ?_⟩
    · obtain he | rfl := hentry e he
      · exact hb.end_lt e he
      · exact hfits.2
    · obtain he | rfl := hentry e he
      · exact hb.end_le e he
      · exact hfits.1

/-- A fragment that does not slip and would break the window is refused. -/
theorem refused_of_not_slips {h : Nat} {d : Bytes} (hno : ¬ b.Slips q h d)
    (hinserts : b.inserts h = true) (hbreaks : b.head + q.receiveBufferSize < h + d.length) :
    b.map q h d = (false, b) := by
  by_cases hrefuses : b.tail ≤ h ∧ q.receiveBufferSize < wsub (wadd h d.length) b.head
  · rw [ReceiveBuffer.map, if_pos hrefuses]
  · have hfits := (fits_of_not_slips hno hinserts hrefuses).1
    omega

end ReceiveBuffer

namespace Istreamer

variable {q : Qos} {pin : Nat}

/-! ## The walk over a packet -/

/-- From one section to a later one: the walk has come there with this receiving half. -/
inductive Comes (q : Qos) (pin : Nat) : Istreamer → List Section → Istreamer → List Section → Prop
    where
  | here (i : Istreamer) (body : List Section) : Comes q pin i body i body
  | next {i i₁ i' : Istreamer} {s : Section} {rest rest' : List Section}
      (took : i.take q pin s = some (i₁, true)) (later : Comes q pin i₁ rest i' rest') :
      Comes q pin i (s :: rest) i' rest'

/-- No fragment that the walk comes to slips through. -/
def Heeds (q : Qos) (pin : Nat) (i : Istreamer) (body : List Section) : Prop :=
  ∀ i' h d rest, Comes q pin i body i' (.move h d :: rest) → ¬ i'.buffer.Slips q h d

/-- The check of one section. -/
def heedsOne (q : Qos) (i : Istreamer) : Section → Bool
  | .move h d => !decide (i.buffer.Slips q h d)
  | _ => true

/-- The check of `Heeds`. -/
def heeds (q : Qos) (pin : Nat) : Istreamer → List Section → Bool
  | _, [] => true
  | i, s :: rest =>
    i.heedsOne q s &&
      match i.take q pin s with
      | some (i', true) => heeds q pin i' rest
      | _ => true

theorem heeds_sound {i : Istreamer} {body : List Section} (h : heeds q pin i body = true) :
    Heeds q pin i body := by
  intro i' hd d rest hcomes
  generalize hbody : Section.move hd d :: rest = later at hcomes
  induction hcomes with
  | here i body =>
    subst hbody
    rw [heeds, Bool.and_eq_true] at h
    exact of_decide_eq_false (Bool.not_eq_true' _ ▸ h.1)
  | next took later ih =>
    rw [heeds, Bool.and_eq_true, took] at h
    exact ih h.2 hbody

/-- One section leaves every entry within the window. -/
theorem within_take {i i' : Istreamer} {s : Section} {more : Bool} (hi : i.buffer.Within q)
    (hheeds : ∀ h d, s = .move h d → ¬ i.buffer.Slips q h d)
    (h : i.take q pin s = some (i', more)) : i'.buffer.Within q := by
  cases s with
  | move hd d =>
    have heq : (i.store q pin hd d).1 = i' := congrArg Prod.fst (Option.some.inj h)
    have hmap := hi.map (hheeds hd d rfl)
    rw [← heq, store]
    dsimp only
    split
    · exact hmap
    · exact hi
  | edgeEcho v =>
    have heq : i.settle v = i' := congrArg Prod.fst (Option.some.inj h)
    rw [← heq, settle]
    split <;> exact hi
  | runt _ => cases h
  | _ =>
    cases h
    exact hi

/-- Wherever the walk comes to, every entry lies within the window. -/
theorem within_comes {i i' : Istreamer} {body rest : List Section}
    (hcomes : Comes q pin i body i' rest) (hi : i.buffer.Within q)
    (hheeds : Heeds q pin i body) : i'.buffer.Within q := by
  induction hcomes with
  | here => exact hi
  | next took later ih =>
    apply ih
    · refine within_take hi (fun h d heq => ?_) took
      subst heq
      exact hheeds _ h d _ (.here _ _)
    · intro i₂ h d rest₂ hcomes
      exact hheeds i₂ h d rest₂ (.next took hcomes)

theorem within_takeAll {body : List Section} {i i' : Istreamer} (hi : i.buffer.Within q)
    (hheeds : Heeds q pin i body) (h : takeAll q pin i body = some i') : i'.buffer.Within q := by
  induction body generalizing i with
  | nil =>
    cases h
    exact hi
  | cons s rest ih =>
    obtain ⟨⟨i₁, more⟩, htake, h⟩ := Option.bind_eq_some_iff.mp h
    have hi₁ : i₁.buffer.Within q := by
      refine within_take hi (fun hd d heq => ?_) htake
      subst heq
      exact hheeds i hd d rest (.here _ _)
    dsimp only at h
    split at h
    · next hmore =>
      subst hmore
      apply ih hi₁ _ h
      intro i₂ hd d rest₂ hcomes
      exact hheeds i₂ hd d rest₂ (.next htake hcomes)
    · cases h
      exact hi₁

theorem within_transmit {i i' : Istreamer} (hi : i.buffer.Within q)
    (h : i.transmit = some i') : i'.buffer.Within q := by
  refine transmit_induct (P := fun j => j.buffer.Within q) ?_ h hi
  intro j j' hm hj
  cases hm with
  | copy first avail short pulled filled => exact hj.pull avail pulled
  | complete first full => exact hj

end Istreamer

namespace Transport

/-- No fragment that a packet of the peer brings slips through when its turn comes. -/
def Heeds (t : Transport) (e : Event) : Prop :=
  ∀ now p, e = .feed now p → t.connector.admits p.pin = true →
    t.connector.status.streams = true → t.istreamer.Heeds t.qos p.pin p.body

theorem within_step {q : Qos} {t t' : Transport} {e : Event} {out : Option Packet}
    (ht : t.istreamer.buffer.Within q) (hq : t.qos = q) (hheeds : t.Heeds e)
    (hsound : e.sound = true) (h : t.act e = some (t', out)) :
    t'.istreamer.buffer.Within q := by
  subst hq
  have hparse : ∀ {now p i}, e = .feed now p → t.connector.admits p.pin = true →
      t.connector.status.streams = true → t.istreamer.parse t.qos p = some i →
      i.buffer.Within t.qos := by
    intro now p i heq hadmits hstreams hparse
    obtain ⟨i₁, hall, htransmit⟩ := Option.bind_eq_some_iff.mp hparse
    apply Istreamer.within_transmit _ htransmit
    exact Istreamer.within_takeAll ht (hheeds now p heq hadmits hstreams) hall
  obtain ⟨-, halves⟩ := act_cases hsound h
  cases halves with
  | quiet sink _ _ => exact sink ▸ ht
  | opened _ sink _ _ => exact sink ▸ ht
  | read buffer k _ _ sink _ _ =>
    exact Istreamer.within_transmit (i := { t.istreamer with
      readers := t.istreamer.readers ++ [.create buffer k]
      asked := t.istreamer.asked ++ [(buffer.length, k)] }) ht sink
  | write buffer k _ _ sink _ _ => exact sink ▸ ht
  | parsed now p event admits streams sink _ _ => exact hparse event admits streams sink
  | closed now p event admits streams _ sink _ _ => exact sink ▸ .clear _
  | aborted ec _ _ sink _ _ => exact sink ▸ .clear _
  | round k roomI roomO _ _ sink _ _ =>
    obtain ⟨acks, time, heq, -⟩ := t.istreamer.imbue_cases k.istreamer t.connector.resend roomI
    rw [sink, heq]
    exact ht

/-- In every run in which no fragment slips through, every entry lies within the window, after each
event and wherever the walk over a packet comes to; and a fragment that would break that is
refused. -/
theorem window_binds {q : Qos} {t : Transport} (h : (system q).Reaches Heeds t) :
    (∀ e ∈ t.istreamer.buffer.data.entries,
      e.1 + e.2.length ≤ t.istreamer.buffer.head + q.receiveBufferSize) ∧
    ∀ now p, t.Heeds (.feed now p) → t.connector.admits p.pin = true →
      t.connector.status.streams = true → ∀ i h d rest,
        Istreamer.Comes q p.pin t.istreamer p.body i (.move h d :: rest) →
        (∀ e ∈ i.buffer.data.entries,
          e.1 + e.2.length ≤ i.buffer.head + q.receiveBufferSize) ∧
        (i.buffer.inserts h = true → i.buffer.head + q.receiveBufferSize < h + d.length →
          i.buffer.map q h d = (false, i.buffer)) := by
  have hwithin : t.qos = q ∧ t.istreamer.buffer.Within q := by
    refine act_invariant (P := fun t => t.istreamer.buffer.Within q) .fresh ?_ h
    intro t e t' out hheeds hq hsound hact ht
    exact within_step ht hq hheeds hsound hact
  obtain ⟨hq, hwithin⟩ := hwithin
  refine ⟨hwithin.end_le, fun now p hheeds hadmits hstreams i h d rest hcomes => ?_⟩
  have hwalk := hheeds now p rfl hadmits hstreams
  rw [hq] at hwalk
  exact ⟨(Istreamer.within_comes hcomes hwithin hwalk).end_le,
    ReceiveBuffer.refused_of_not_slips (hwalk i h d rest hcomes)⟩

/-- The check of `Heeds`. -/
def heeds (t : Transport) : Event → Bool
  | .feed _ p => t.istreamer.heeds t.qos p.pin p.body
  | _ => true

theorem heeds_sound (t : Transport) (e : Event) (h : t.heeds e = true) : t.Heeds e := by
  rintro now p rfl - -
  exact Istreamer.heeds_sound h

/-- A channel with a receive buffer of four bytes. -/
def shallow : Qos := { Qos.default with receiveBufferSize := 4, receiveBufferSize_lt := four_lt }

/-- Three bytes fit into a window of four, and a byte behind it is refused. -/
theorem window_binds_three :
    ∃ t, (system shallow).Reaches Heeds t ∧
      t.istreamer.buffer.data.entries = [(0, [1, 2, 3])] ∧
      ∀ e ∈ t.istreamer.buffer.data.entries, e.1 + e.2.length ≤ t.istreamer.buffer.head + 4 := by
  have hrun : ((system shallow).checked heeds (create shallow)
      [.openAt, .connect 1 1 1 .success,
        .feed 2 ⟨2, [.linkEcho, .move 0 [1, 2, 3], .move 4 [5]]⟩]).map
        (fun t => t.istreamer.buffer.data.entries) = some [(0, [1, 2, 3])] := by decide +kernel
  obtain ⟨t, ht, hentries⟩ := Option.map_eq_some_iff.mp hrun
  have hreach := System.Reaches.checked heeds_sound _ (.start rfl) ht
  exact ⟨t, hreach, hentries, (window_binds hreach).1⟩

/-- Behind a byte at the end of the window, ten bytes at its start go in. -/
theorem window_broken :
    ¬ ∀ (q : Qos) (t : Transport), (system q).Reachable t →
      ∀ e ∈ t.istreamer.buffer.data.entries,
        e.1 + e.2.length ≤ t.istreamer.buffer.head + q.receiveBufferSize := by
  intro hall
  obtain ⟨t, ht, hv⟩ := System.exists_of_run (S := system shallow)
    (f := fun t => (t.istreamer.buffer.head, t.istreamer.buffer.data.entries))
    (v := (0, [(0, [0, 1, 2, 3, 4, 5, 6, 7, 8, 9]), (3, [9])]))
    [.openAt, .connect 1 1 1 .success,
      .feed 2 ⟨2, [.linkEcho, .move 3 [9], .move 0 [0, 1, 2, 3, 4, 5, 6, 7, 8, 9]]⟩] rfl
    (by decide +kernel)
  obtain ⟨hhead, hentries⟩ := Prod.mk.inj hv
  have hle := hall shallow t ht (0, [0, 1, 2, 3, 4, 5, 6, 7, 8, 9]) (by
    rw [hentries]
    exact List.mem_cons_self)
  rw [hhead] at hle
  revert hle
  decide

end Transport

end Tubus.Udp
