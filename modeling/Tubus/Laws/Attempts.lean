import Tubus.Laws.Resend

/-!
# Attempts

`ostreamer::imbue` counts how often it wrote a snippet and gives the snippet up when the counter
equals `move_attempts`. The counter is a `uint8_t` and the number a `size_t`, so a counter comes to
any number up to 255, and to no greater one: from 256 attempts on, a snippet that is never
acknowledged is written for ever (`bounded_iff`).

A snippet is known by its handle from the moment it goes in flight. A handle can be in flight
already when a snippet is cut off, since an empty write leaves an empty snippet behind. Such a
snippet is written once and never again.
-/

namespace Tubus.Udp

open Lib

/-! ## What is done about a snippet -/

/-- What `imbue` does about a snippet. -/
inductive Sending where
  /-- Cut it off the stream and write it. Unless its handle is taken, it goes in flight. -/
  | fresh (handle : Nat) (flies : Bool)
  /-- Write it again. -/
  | again (handle : Nat)
  /-- Post `broken_pipe` for it. -/
  | gaveUp (handle : Nat)
  deriving DecidableEq, Repr

namespace Sending

/-- The handle of a snippet that is written. -/
def wrote : Sending → Option Nat
  | .fresh h _ | .again h => some h
  | .gaveUp _ => none

/-- `later` is what was done since the snippet in flight under `h` was cut off, and it was not given
up. -/
structure Since (h : Nat) (later l : List Sending) : Prop where
  suffix : (.fresh h true :: later) <:+ l
  same : .fresh h true ∉ later
  held : .gaveUp h ∉ later

/-- At no moment has a snippet that was not given up been written more than `n` times. -/
def Bounded (n : Nat) (l : List Sending) : Prop :=
  ∀ l', l' <+: l → ∀ h later, Since h later l' → 1 + later.count (.again h) ≤ n

theorem Bounded.nil (n : Nat) : Bounded n [] := by
  rintro l' hl h later ⟨hsuffix, -, -⟩
  rw [List.prefix_nil.mp hl] at hsuffix
  cases List.suffix_nil.mp hsuffix

/-- One more sending: the first one of its snippet, or one of a snippet that was there before. -/
theorem Since.snoc {h : Nat} {later l : List Sending} {x : Sending} (s : Since h later (l ++ [x])) :
    (later = [] ∧ x = .fresh h true) ∨
      ∃ earlier, later = earlier ++ [x] ∧ Since h earlier l ∧
        x ≠ .fresh h true ∧ x ≠ .gaveUp h := by
  obtain ⟨hsuffix, hsame, hheld⟩ := s
  obtain hnil | ⟨t, ht, hl⟩ := List.suffix_concat_iff.mp hsuffix
  · cases hnil
  · cases t with
    | nil =>
      obtain ⟨hx, hlater⟩ := List.cons.inj ht
      exact .inl ⟨hlater, hx.symm⟩
    | cons y earlier =>
      rw [List.cons_append] at ht
      obtain ⟨rfl, rfl⟩ := List.cons.inj ht
      simp only [List.mem_append, List.mem_singleton, not_or] at hsame hheld
      exact .inr ⟨earlier, rfl, ⟨hl, hsame.1, hheld.1⟩, Ne.symm hsame.2, Ne.symm hheld.2⟩

theorem Bounded.snoc {n : Nat} {l : List Sending} {x : Sending} (b : Bounded n l)
    (last : ∀ h later, Since h later (l ++ [x]) → 1 + later.count (.again h) ≤ n) :
    Bounded n (l ++ [x]) := by
  intro l' hl
  obtain rfl | hl := List.prefix_concat_iff.mp hl
  · exact last
  · exact b l' hl

/-- The counters of the flights say how often their snippets were written, as long as those are not
given up. -/
structure Counted (n : Nat) (moves : SortedMap Nat Flight) (l : List Sending) : Prop where
  bounded : Bounded n l
  attempt : ∀ h f, (h, f) ∈ moves.entries → ∀ later, Since h later l →
    f.attempt = 1 + later.count (.again h)

namespace Counted

variable {n : Nat} {moves moves' : SortedMap Nat Flight} {l : List Sending}

/-- Flights may be dropped. -/
theorem subset (c : Counted n moves l) (h : ∀ e ∈ moves'.entries, e ∈ moves.entries) :
    Counted n moves' l where
  bounded := c.bounded
  attempt k f hm := c.attempt k f (h _ hm)

/-- A flight is written again. Its counter does not wrap, since it is below the bound. -/
theorem again (c : Counted n moves l) (hbyte : n ≤ 255) {h : Nat} {f : Flight}
    (hm : (h, f) ∈ moves.entries) (hleft : f.attempt ≠ n) (time : Time) :
    Counted n (moves.modify h (Flight.resent time)) (l ++ [.again h]) := by
  have hcount : ∀ earlier, Since h earlier l →
      f.attempt = 1 + earlier.count (.again h) ∧ f.attempt < n := by
    intro earlier hs
    have hattempt := c.attempt h f hm earlier hs
    have hle := c.bounded l List.prefix_rfl h earlier hs
    exact ⟨hattempt, by omega⟩
  constructor
  · apply c.bounded.snoc
    intro k later hs
    obtain ⟨-, heq⟩ | ⟨earlier, rfl, hold, -, -⟩ := hs.snoc
    · cases heq
    · rw [List.count_append, List.count_singleton]
      by_cases hk : h = k
      · subst hk
        obtain ⟨hattempt, hlt⟩ := hcount earlier hold
        rw [if_pos (by simp)]
        omega
      · rw [if_neg (by simpa using hk)]
        exact c.bounded l List.prefix_rfl k earlier hold
  · intro k g hg later hs
    obtain ⟨-, heq⟩ | ⟨earlier, rfl, hold, -, -⟩ := hs.snoc
    · cases heq
    · rw [List.count_append, List.count_singleton]
      obtain ⟨hg, hne⟩ | ⟨hk, g', hg', heq⟩ := SortedMap.mem_modify.mp hg
      · rw [if_neg (by simpa using Ne.symm hne)]
        exact c.attempt k g hg earlier hold
      · change k = h at hk
        change g = Flight.resent time g' at heq
        subst hk
        obtain rfl := SortedMap.eq_of_mem hm hg'
        obtain ⟨hattempt, hlt⟩ := hcount earlier hold
        rw [if_pos (by simp), heq]
        show (f.attempt + 1) % 256 = _
        omega

/-- A flight is given up. -/
theorem giveUp (c : Counted n moves l) (h : Nat) :
    Counted n (moves.modify h Flight.tried) (l ++ [.gaveUp h]) := by
  constructor
  · apply c.bounded.snoc
    intro k later hs
    obtain ⟨-, heq⟩ | ⟨earlier, rfl, hold, -, -⟩ := hs.snoc
    · cases heq
    · rw [List.count_append, List.count_singleton, if_neg (by simp)]
      exact c.bounded l List.prefix_rfl k earlier hold
  · intro k g hg later hs
    obtain ⟨-, heq⟩ | ⟨earlier, rfl, hold, -, hne⟩ := hs.snoc
    · cases heq
    · rw [List.count_append, List.count_singleton, if_neg (by simp)]
      obtain ⟨hg, -⟩ | ⟨hk, -⟩ := SortedMap.mem_modify.mp hg
      · exact c.attempt k g hg earlier hold
      · change k = h at hk
        subst hk
        exact absurd rfl hne

/-- A snippet is cut off and, if its handle is free, goes in flight with its first attempt. -/
theorem fresh (c : Counted n moves l) (hpos : 1 ≤ n) (h : Nat) (data : Bytes) (time : Time) :
    Counted n (moves.emplace h ⟨data, time, 1⟩) (l ++ [.fresh h (!moves.contains h)]) := by
  constructor
  · apply c.bounded.snoc
    intro k later hs
    obtain ⟨rfl, -⟩ | ⟨earlier, rfl, hold, -, -⟩ := hs.snoc
    · exact hpos
    · rw [List.count_append, List.count_singleton, if_neg (by simp)]
      exact c.bounded l List.prefix_rfl k earlier hold
  · intro k g hg later hs
    obtain hg | ⟨heq, hfree⟩ := SortedMap.mem_emplace.mp hg
    · obtain ⟨-, heq⟩ | ⟨earlier, rfl, hold, -, -⟩ := hs.snoc
      · -- the handle is in flight already
        obtain ⟨rfl, hflies⟩ := Sending.fresh.inj heq
        have hkey : h ∈ moves.keys := SortedMap.mem_keys.mpr ⟨g, hg⟩
        simp [SortedMap.contains, hkey] at hflies
      · rw [List.count_append, List.count_singleton, if_neg (by simp)]
        exact c.attempt k g hg earlier hold
    · cases heq
      obtain ⟨rfl, -⟩ | ⟨earlier, -, -, hne, -⟩ := hs.snoc
      · rfl
      · simp [SortedMap.contains, hfree] at hne

end Counted

end Sending

/-- The handles of the snippets among some sections. -/
def handles : List Section → List Nat :=
  List.filterMap fun
    | .move h _ => some h
    | _ => none

namespace Ostreamer

variable {q : Qos} {now : Time} {resend : Int} {o : Ostreamer}

/-- What the first loop of `imbue` does about a flight that it selects. -/
def resends (q : Qos) (e : Nat × Flight) : Sending :=
  if spent q e.2 then .gaveUp e.1 else .again e.1

theorem resends_spent {e : Nat × Flight} (h : spent q e.2 = true) : resends q e = .gaveUp e.1 :=
  if_pos h

theorem resends_left {e : Nat × Flight} (h : spent q e.2 = false) : resends q e = .again e.1 :=
  if_neg (by simp [h])

/-- What the second loop of `imbue` does, over the streamer and the room it starts with. -/
def cuts (q : Qos) (now : Time) (resend : Int) : Nat → Nat → Ostreamer → List Sending
  | 0, _, _ => []
  | fuel + 1, room, o =>
    if o.buffer.available ∧ o.moves.size < q.snippetSwarm then
      let limit := wsub o.range o.buffer.head
      if limit = 0 ∨ room ≤ overhead then []
      else
        let max := min limit (room - overhead)
        .fresh o.buffer.head (!o.moves.contains o.buffer.head) ::
          cuts q now resend fuel (room - (o.snippet max).size) (o.launch max (later now resend))
    else []

/-- What `imbue` does about snippets, in order. -/
def sendings (q : Qos) (now : Time) (resend : Int) (room : Nat) (o : Ostreamer) : List Sending :=
  let again := (picks q now resend room room o).map (resends q)
  let (o, _, room, gaveUp) := o.repeatLoop q now resend room room
  if gaveUp then again else again ++ cuts q now resend (room + 1) room o

/-- What is cut off is what is written. -/
theorem freshLoop_cuts (q : Qos) (now : Time) (resend : Int) (fuel room : Nat) (o : Ostreamer) :
    handles (o.freshLoop q now resend fuel room).2.1 =
      (cuts q now resend fuel room o).filterMap Sending.wrote := by
  induction fuel generalizing o room with
  | zero => rfl
  | succ fuel ih =>
    unfold freshLoop cuts
    split
    · dsimp only
      split
      · rfl
      · exact congrArg (o.buffer.head :: ·) (ih _ _)
    · rfl

/-- The snippets in a packet are those that `sendings` tells of. -/
theorem imbue_sendings (q : Qos) (now : Time) (resend : Int) (room : Nat) (o : Ostreamer) :
    handles (o.imbue q now resend room).2.1 =
      (o.sendings q now resend room).filterMap Sending.wrote := by
  have hagain : handles (o.repeatLoop q now resend room room).2.1 =
      ((picks q now resend room room o).map (resends q)).filterMap Sending.wrote := by
    rw [(repeatLoop_picks q now resend room room o).1]
    induction picks q now resend room room o with
    | nil => rfl
    | cons e rest ih =>
      rw [List.map_cons]
      cases hs : spent q e.2 with
      | true =>
        rw [List.filter_cons_of_neg (by simp [hs]), resends_spent hs]
        exact ih
      | false =>
        rw [List.filter_cons_of_pos (by simp [hs]), resends_left hs]
        exact congrArg (e.1 :: ·) ih
  unfold imbue sendings
  rcases hr : o.repeatLoop q now resend room room with ⟨o₁, again, room₁, gaveUp⟩
  rw [hr] at hagain
  dsimp only at hagain ⊢
  split
  · exact hagain
  · have hcuts := freshLoop_cuts q now resend (room₁ + 1) room₁ o₁
    rcases hf : o₁.freshLoop q now resend (room₁ + 1) room₁ with ⟨o₂, fresh, room₂⟩
    rw [hf] at hcuts
    dsimp only at hcuts ⊢
    have hechoes : handles (drainAcks .edgeEcho room₂ o₂.acks).1 = [] := by
      apply List.filterMap_eq_nil_iff.mpr
      intro s hs
      obtain ⟨v, -, rfl⟩ := drainAcks_mem hs
      rfl
    rw [List.filterMap_append, ← hagain, ← hcuts]
    unfold handles at hechoes ⊢
    rw [List.filterMap_append, List.filterMap_append, hechoes, List.append_nil]

/-! ## A round keeps the account -/

open Sending (Counted Bounded)

theorem repeatLoop_counted (now : Time) (resend : Int) (hbyte : q.moveAttempts ≤ 255)
    (fuel room : Nat) {l : List Sending} (c : Counted q.moveAttempts o.moves l) :
    Counted q.moveAttempts (o.repeatLoop q now resend fuel room).1.moves
      (l ++ (picks q now resend fuel room o).map (resends q)) := by
  induction fuel generalizing o room l with
  | zero => simpa [repeatLoop, picks] using c
  | succ fuel ih =>
    unfold repeatLoop picks
    split
    · simpa using c
    · cases hfind : o.moves.entries.find? (ready now room) with
      | none => simpa using c
      | some item =>
        obtain ⟨h, f⟩ := item
        have hm := List.mem_of_find?_eq_some hfind
        dsimp only
        by_cases hspent : f.attempt = q.moveAttempts
        · rw [if_pos hspent, if_pos hspent, List.map_singleton,
            resends_spent (decide_eq_true hspent)]
          exact c.giveUp h
        · rw [if_neg hspent, if_neg hspent, List.map_cons, resends_left (decide_eq_false hspent),
            List.append_cons]
          exact ih _ (c.again hbyte hm hspent (later now resend))

theorem freshLoop_counted (hpos : 1 ≤ q.moveAttempts) (fuel room : Nat) {l : List Sending}
    (c : Counted q.moveAttempts o.moves l) :
    Counted q.moveAttempts (o.freshLoop q now resend fuel room).1.moves
      (l ++ cuts q now resend fuel room o) := by
  induction fuel generalizing o room l with
  | zero => simpa [freshLoop, cuts] using c
  | succ fuel ih =>
    unfold freshLoop cuts
    split
    · dsimp only
      split
      · simpa using c
      · rw [List.append_cons]
        exact ih _ (c.fresh hpos _ _ (later now resend))
    · simpa using c

/-- One call of `imbue` keeps the account. -/
theorem imbue_counted (hpos : 1 ≤ q.moveAttempts) (hbyte : q.moveAttempts ≤ 255) (room : Nat)
    {l : List Sending} (c : Counted q.moveAttempts o.moves l) :
    Counted q.moveAttempts (o.imbue q now resend room).1.moves
      (l ++ o.sendings q now resend room) := by
  have hagain := repeatLoop_counted now resend hbyte room room c
  unfold imbue sendings
  rcases hr : o.repeatLoop q now resend room room with ⟨o₁, again, room₁, gaveUp⟩
  rw [hr] at hagain
  dsimp only at hagain ⊢
  split
  · exact hagain
  · rw [← List.append_assoc]
    exact freshLoop_counted hpos (room₁ + 1) room₁ hagain

/-- A packet only takes flights away. -/
theorem parse_moves (o : Ostreamer) (p : Packet) :
    ∀ e ∈ (o.parse p).moves.entries, e ∈ o.moves.entries := by
  apply parse_induct (P := fun o' => ∀ e ∈ o'.moves.entries, e ∈ o.moves.entries)
  · intro o' h _ ho e he
    exact ho e (SortedMap.mem_erase.mp he).1
  · intro o' v _ ho
    exact ho
  · exact fun e he => he

/-! ## One snippet that is never acknowledged -/

/-- Nothing is queued. -/
theorem freshLoop_idle (q : Qos) (now : Time) (resend : Int) (fuel room : Nat)
    (h : o.buffer.data = []) :
    o.freshLoop q now resend fuel room = (o, [], room) ∧ cuts q now resend fuel room o = [] := by
  have hnone : ¬ (o.buffer.available = true ∧ o.moves.size < q.snippetSwarm) := by
    simp [SendBuffer.available, h]
  cases fuel with
  | zero => exact ⟨rfl, rfl⟩
  | succ n =>
    rw [freshLoop, cuts, if_neg hnone, if_neg hnone]
    exact ⟨rfl, rfl⟩

/-- The first round cuts the snippet off the stream. -/
theorem imbue_first (q : Qos) (now : Time) (resend : Int) {room : Nat} (data : Bytes)
    (hmoves : o.moves.entries = []) (hbuffer : o.buffer.data = [data])
    (hlimit : data.length ≤ wsub o.range o.buffer.head) (hdata : data ≠ [])
    (hswarm : 0 < q.snippetSwarm) (hroom : overhead + data.length ≤ room) :
    (o.imbue q now resend room).1.moves.entries = [(o.buffer.head, ⟨data, later now resend, 1⟩)] ∧
      (o.imbue q now resend room).1.buffer.data = [] ∧
      o.sendings q now resend room = [.fresh o.buffer.head true] := by
  have hpos : 0 < data.length := List.length_pos_iff.mpr hdata
  have hidle : ∀ e ∈ o.moves.entries, ready now room e = false :=
    fun e he => absurd (hmoves ▸ he) List.not_mem_nil
  have hpull : o.buffer.pull (min (wsub o.range o.buffer.head) (room - overhead)) =
      (data, { o.buffer with head := wadd o.buffer.head data.length, data := [] }) := by
    unfold SendBuffer.pull
    rw [hbuffer]
    exact if_pos (by omega)
  have hlaunch : ∀ time,
      (o.launch (min (wsub o.range o.buffer.head) (room - overhead)) time).moves.entries =
        [(o.buffer.head, ⟨data, time, 1⟩)] ∧
      (o.launch (min (wsub o.range o.buffer.head) (room - overhead)) time).buffer.data = [] := by
    intro time
    unfold launch
    rw [hpull]
    exact ⟨by simp [SortedMap.emplace, SortedMap.insertNew, hmoves], rfl⟩
  have hgo : o.buffer.available = true ∧ o.moves.size < q.snippetSwarm :=
    ⟨by simp [SendBuffer.available, hbuffer], by simpa [SortedMap.size, hmoves] using hswarm⟩
  have hwindow : ¬ (wsub o.range o.buffer.head = 0 ∨ room ≤ overhead) := by omega
  have hfree : o.moves.contains o.buffer.head = false := by
    simp [SortedMap.contains, SortedMap.keys, hmoves]
  obtain ⟨hfresh, hcuts⟩ := freshLoop_idle q now resend room
    (room - (o.snippet (min (wsub o.range o.buffer.head) (room - overhead))).size)
    (hlaunch (later now resend)).2
  unfold imbue sendings
  rw [picks_idle q now resend room room hidle, repeatLoop_idle q now resend room room hidle]
  dsimp only
  rw [if_neg (by decide), if_neg (by decide), freshLoop, cuts, if_pos hgo, if_pos hgo]
  dsimp only
  rw [if_neg hwindow, if_neg hwindow, hfresh, hcuts, hfree]
  exact ⟨(hlaunch _).1, (hlaunch _).2, rfl⟩

/-- Every later round in which the snippet is due, and which has room for it once, writes it
again. -/
theorem imbue_again (q : Qos) (now : Time) (resend : Int) (room : Nat) {h : Nat} {f : Flight}
    (hmoves : o.moves.entries = [(h, f)]) (hbuffer : o.buffer.data = []) (hdue : f.time < now)
    (hleft : f.attempt ≠ q.moveAttempts) (hdata : 0 < f.data.length)
    (hroom : overhead + f.data.length ≤ room) (honce : room < 2 * (overhead + f.data.length)) :
    (o.imbue q now resend room).1.moves.entries = [(h, f.resent (later now resend))] ∧
      (o.imbue q now resend room).1.buffer.data = [] ∧
      o.sendings q now resend room = [.again h] := by
  have hentries : (o.moves.modify h (Flight.resent (later now resend))).entries =
      [(h, f.resent (later now resend))] :=
    SortedMap.entries_modify (show o.moves.entries = [] ++ (h, f) :: [] from hmoves) _
  have hready : ready now room (h, f) = true := by
    simp only [ready, Bool.and_eq_true, decide_eq_true_eq]
    exact ⟨hdue, by omega⟩
  have hlt : overhead < room := by omega
  obtain ⟨fuel, rfl⟩ : ∃ fuel, room = fuel + 1 := ⟨room - 1, by omega⟩
  have hidle : ∀ e ∈ (o.moves.modify h (Flight.resent (later now resend))).entries,
      ready now (fuel + 1 - (Section.move h f.data).size) e = false := by
    rw [hentries, size_move]
    intro e he
    rw [List.mem_singleton.mp he]
    have hlong : ¬ f.data.length ≤ fuel + 1 - (overhead + f.data.length) - overhead := by omega
    exact Bool.and_eq_false_iff.mpr (.inr (decide_eq_false hlong))
  have hagain : o.repeatLoop q now resend (fuel + 1) (fuel + 1) =
      ({ o with moves := o.moves.modify h (Flight.resent (later now resend)) },
        [.move h f.data], fuel + 1 - (Section.move h f.data).size, false) := by
    rw [repeatLoop, if_neg (Nat.not_le.mpr hlt), hmoves, List.find?_cons_of_pos hready]
    dsimp only
    rw [if_neg hleft, repeatLoop_idle q now resend fuel _ hidle]
  have hpicked : picks q now resend (fuel + 1) (fuel + 1) o = [(h, f)] := by
    rw [picks, if_neg (Nat.not_le.mpr hlt), hmoves, List.find?_cons_of_pos hready]
    dsimp only
    rw [if_neg hleft, picks_idle q now resend fuel _ hidle]
  unfold imbue sendings
  rw [hagain, hpicked, List.map_singleton, resends_left (decide_eq_false hleft)]
  dsimp only
  obtain ⟨hfresh, hcuts⟩ := freshLoop_idle
    (o := { o with moves := o.moves.modify h (Flight.resent (later now resend)) }) q now resend
    (fuel + 1 - (Section.move h f.data).size + 1) (fuel + 1 - (Section.move h f.data).size) hbuffer
  rw [if_neg (by decide), if_neg (by decide), hfresh, hcuts]
  exact ⟨hentries, hbuffer, rfl⟩

end Ostreamer

/-! ## The channel -/

namespace Transport

variable {t t' : Transport} {out : Option Packet}

/-- What an event does about snippets. Only a round does something about them. -/
def sendings (t : Transport) : Event → List Sending
  | .produce k =>
    let room := t.qos.maxPacketSize - Datagram.headerSize
    let (c, first) := t.connector.imbue t.qos k.connector room
    if t.connector.status ≠ .finished ∧ c.status.speaks then
      let room := room - sizes first
      let (_, second) := t.istreamer.imbue k.istreamer c.resend room
      t.ostreamer.sendings t.qos k.ostreamer c.resend (room - sizes second)
    else []
  | _ => []

/-- Sections that are not for a receiving half hold no snippets. -/
theorem handles_of_forSink {l : List Section} (h : ∀ x ∈ l, x.forSink = false) :
    handles l = [] := by
  apply List.filterMap_eq_nil_iff.mpr
  intro x hx
  cases x with
  | move k d => cases h _ hx
  | _ => rfl

theorem handles_append (l l' : List Section) : handles (l ++ l') = handles l ++ handles l' :=
  List.filterMap_append

/-- A round is a call of `imbue`, or does nothing about snippets and puts none in flight; and the
snippets in its packet are those that `sendings` tells of. -/
theorem produce_sendings {k : Clock} (h : t.produce k = some (t', out)) :
    ((∃ now resend room, t.sendings (.produce k) = t.ostreamer.sendings t.qos now resend room ∧
        t'.ostreamer = (t.ostreamer.imbue t.qos now resend room).1) ∨
      (t.sendings (.produce k) = [] ∧
        ∀ x ∈ t'.ostreamer.moves.entries, x ∈ t.ostreamer.moves.entries)) ∧
    ∀ p, out = some p → handles p.body = (t.sendings (.produce k)).filterMap Sending.wrote := by
  have hout : ∀ (body : List Section) (p : Packet),
      (if body.isEmpty then none else some ⟨t.connector.localPin, body⟩) = some p →
        p.body = body := by
    intro body p hp
    obtain ⟨-, hp⟩ := Option.ite_none_left_eq_some.mp hp
    cases hp
    rfl
  unfold produce at h
  unfold sendings
  split at h
  · next hfin =>
    cases h
    dsimp only
    rw [if_neg fun hc => hc.1 hfin]
    exact ⟨.inr ⟨rfl, fun x hx => absurd hx List.not_mem_nil⟩, fun p hp => by cases hp⟩
  · next hfin =>
    dsimp only at h ⊢
    obtain ⟨-, h⟩ := Option.ite_none_left_eq_some.mp h
    have hfirst := handles_of_forSink fun x hx => (t.connector.imbue_sections t.qos k.connector
      (t.qos.maxPacketSize - Datagram.headerSize) x hx).1
    unfold imbue at h
    dsimp only at h
    split at h
    · next hspeaks =>
      cases h
      rw [if_pos ⟨hfin, hspeaks⟩]
      refine ⟨.inl ⟨_, _, _, rfl, rfl⟩, fun p hp => ?_⟩
      rw [hout _ p hp, handles_append, handles_append, hfirst,
        handles_of_forSink (t.istreamer.imbue_forSink _ _ _), Ostreamer.imbue_sendings]
      rfl
    · next hsilent =>
      cases h
      rw [if_neg fun hc => hsilent hc.2]
      refine ⟨.inr ⟨rfl, fun x hx => hx⟩, fun p hp => ?_⟩
      rw [hout _ p hp, hfirst]
      rfl

/-- An event is a call of `imbue`, or does nothing about snippets and puts none in flight. -/
theorem act_sendings {e : Event} (hsound : e.sound = true) (h : t.act e = some (t', out)) :
    (∃ now resend room, t.sendings e = t.ostreamer.sendings t.qos now resend room ∧
      t'.ostreamer = (t.ostreamer.imbue t.qos now resend room).1) ∨
    (t.sendings e = [] ∧ ∀ x ∈ t'.ostreamer.moves.entries, x ∈ t.ostreamer.moves.entries) := by
  by_cases hround : ∃ k, e = .produce k
  · obtain ⟨k, rfl⟩ := hround
    exact (produce_sendings h).1
  · have hnone : t.sendings e = [] := by
      cases e with
      | produce k => exact absurd ⟨k, rfl⟩ hround
      | _ => rfl
    refine .inr ⟨hnone, ?_⟩
    obtain ⟨-, halves⟩ := act_cases hsound h
    cases halves with
    | quiet _ source _ | opened _ _ source _ | read _ _ _ _ _ source _ =>
      rw [source]
      exact fun x hx => hx
    | write buffer k _ _ _ source _ =>
      rw [source, (t.ostreamer.append_keeps t.qos buffer k).1]
      exact fun x hx => hx
    | parsed now p _ _ _ _ source _ =>
      rw [source]
      exact t.ostreamer.parse_moves p
    | closed _ _ _ _ _ _ _ source _ | aborted _ _ _ _ source _ =>
      rw [source]
      exact fun x hx => absurd hx List.not_mem_nil
    | round k _ _ event _ _ _ _ => exact absurd ⟨k, event⟩ hround

/-- A linked channel whose resend interval is negative. Its next ping is not due before
15.000002 seconds, and it owes no acknowledgements. -/
structure Calm (q : Qos) (t : Transport) : Prop where
  qos : t.qos = q
  linked : t.connector.status = .linked
  resend : t.connector.resend = -2
  jobs : t.connector.jobs.entries = [(.ping, 15000002)]
  acks : t.istreamer.acks = .empty

/-- The answer to a ping that is still to be sent makes a channel calm. -/
theorem feed_calm {q : Qos} (hqos : t.qos = q) (htimeout : q.pingTimeout = 15000000)
    (hlinked : t.connector.status = .linked) (hadmits : t.connector.admits 2 = true)
    (hjobs : t.connector.jobs.entries = [(.ping, 0)]) (hreaders : t.istreamer.readers = [])
    (hacks : t.istreamer.acks = .empty) :
    ∃ t', t.feed 2 ⟨2, [.pingEcho 3]⟩ = some t' ∧ t'.Calm q ∧ t'.ostreamer = t.ostreamer := by
  obtain ⟨i, hparse, hsame⟩ : ∃ i, t.istreamer.parse t.qos ⟨2, [.pingEcho 3]⟩ = some i ∧
      i.acks = t.istreamer.acks := by
    show ∃ i, t.istreamer.transmit = some i ∧ _
    unfold Istreamer.transmit
    rw [hreaders]
    exact ⟨_, rfl, rfl⟩
  have hstreams : t.connector.status.streams = true := by
    rw [hlinked]
    rfl
  have hopen : ¬ t.connector.status.closing = true := by
    rw [hlinked]
    decide
  have hfed : t.feedStreams ⟨2, [.pingEcho 3]⟩ = some { t with istreamer := i } := by
    unfold feedStreams
    rw [if_pos hstreams, hparse]
    rfl
  refine ⟨{ t with
      connector := t.connector.parse t.qos 2 ⟨2, [.pingEcho 3]⟩
      istreamer := i }, ?_, ⟨hqos, hlinked, ?_, ?_, hsame.trans hacks⟩, rfl⟩
  · unfold Transport.feed
    rw [if_pos hadmits, hfed]
    exact congrArg some (if_neg hopen)
  · have hrepeat : toI64 (max (wsub (toU64 (sinceZero 2)) 3 * 2 % 2 ^ 64) 10000) = -2 := by decide
    simp only [Connector.parse, List.foldl_cons, List.foldl_nil, Connector.take]
    rw [hrepeat]
  · have hping : later 2 15000000 = 15000002 := by decide
    show ((t.connector.jobs.erase .ping).emplace .ping (later 2 t.qos.pingTimeout)).entries = _
    rw [hqos, htimeout, hping]
    simp [SortedMap.emplace, SortedMap.erase, SortedMap.insertNew, hjobs]

namespace Calm

variable {q : Qos}

/-- The connector has nothing to write, and stays linked. -/
theorem imbue_connector (c : t.Calm q) (room : Nat) :
    (t.connector.imbue q 3 room).1.status = .linked ∧
      (t.connector.imbue q 3 room).1.jobs.entries = [(.ping, 15000002)] ∧
      (t.connector.imbue q 3 room).2 = [] := by
  unfold Connector.imbue
  split
  · exact ⟨c.linked, c.jobs, rfl⟩
  · have hnone : t.connector.jobs.entries.find? (Connector.due 3) = none := by
      rw [c.jobs]
      rfl
    have hidle : Connector.imbueLoop 3 room room t.connector = (t.connector, []) := by
      cases room with
      | zero => rfl
      | succ n =>
        rw [Connector.imbueLoop, hnone]
        split <;> rfl
    rw [hidle]
    exact ⟨c.linked, c.jobs, rfl⟩

/-- A receiving half without acknowledgements writes an edge at most. -/
theorem imbue_istreamer (c : t.Calm q) (now : Time) (resend : Int) (room : Nat) :
    (t.istreamer.imbue now resend room).1.acks = .empty ∧
      sizes (t.istreamer.imbue now resend room).2 ≤ overhead := by
  have hdrain : drainAcks .moveEcho room .empty = ([], .empty, room) := rfl
  unfold Istreamer.imbue
  rw [c.acks, hdrain]
  dsimp only
  split
  · exact ⟨rfl, by simp [Section.size, Section.payload, overhead]⟩
  · exact ⟨rfl, Nat.zero_le _⟩

/-- A round of a calm channel leaves the sending half all of the packet but an edge. -/
theorem produce (c : t.Calm q) (hsize : q.maxPacketSize = 1406) :
    ∃ t' room, (t.produce ⟨3, 3, 3⟩).map Prod.fst = some t' ∧ t'.Calm q ∧
      1378 ≤ room ∧ room ≤ 1390 ∧ t'.ostreamer = (t.ostreamer.imbue q 3 (-2) room).1 ∧
      t.sendings (.produce ⟨3, 3, 3⟩) = t.ostreamer.sendings q 3 (-2) room := by
  obtain rfl := c.qos
  have hroom : t.qos.maxPacketSize - Datagram.headerSize = 1390 := by
    rw [hsize]
    decide
  have hgo : t.connector.status ≠ .finished := by
    rw [c.linked]
    decide
  have hresend := (t.connector.imbue_keeps t.qos 3 1390).2.2
  obtain ⟨hlinked, hjobs, hsilent⟩ := c.imbue_connector 1390
  rcases hc : t.connector.imbue t.qos 3 1390 with ⟨c', first⟩
  rw [hc] at hresend hlinked hjobs hsilent
  dsimp only at hresend hlinked hjobs hsilent
  subst hsilent
  replace hresend : c'.resend = -2 := hresend.trans c.resend
  have hspeaks : c'.status.speaks = true := by
    rw [hlinked]
    rfl
  obtain ⟨hacks, hsecond⟩ := c.imbue_istreamer 3 (-2) 1390
  rcases hi : t.istreamer.imbue 3 (-2) 1390 with ⟨i', second⟩
  rw [hi] at hacks hsecond
  dsimp only at hacks hsecond
  obtain ⟨hthird, -⟩ := Ostreamer.imbue_room t.qos 3 (-2) (1390 - sizes second) t.ostreamer
  have himbue : t.imbue ⟨3, 3, 3⟩ 1390 =
      let r := t.ostreamer.imbue t.qos 3 (-2) (1390 - sizes second)
      ({ t with connector := c', istreamer := i', ostreamer := r.1 },
        [] ++ second ++ r.2.1, r.2.2) := by
    unfold imbue
    rw [hc]
    dsimp only
    rw [if_pos hspeaks, hresend, Transport.sizes_nil, Nat.sub_zero, hi]
  have hoverhead : overhead = 12 := rfl
  have hfits : ¬ (t.qos.maxPacketSize < Datagram.headerSize + Section.headerSize ∨
      1390 < sizes ([] ++ second ++
        (t.ostreamer.imbue t.qos 3 (-2) (1390 - sizes second)).2.1)) := by
    rw [List.nil_append, sizes_append, hsize]
    rintro (hshort | hlong)
    · exact absurd hshort (by decide)
    · omega
  refine ⟨{ t with
      connector := c'
      istreamer := i'
      ostreamer := (t.ostreamer.imbue t.qos 3 (-2) (1390 - sizes second)).1 },
    1390 - sizes second, ?_, ⟨rfl, hlinked, hresend, hjobs, hacks⟩, ?_, Nat.sub_le _ _, rfl, ?_⟩
  · unfold Transport.produce
    rw [if_neg hgo, hroom]
    dsimp only
    rw [himbue]
    dsimp only
    rw [if_neg hfits]
    rfl
  · omega
  · unfold sendings
    dsimp only
    rw [hroom, hc]
    dsimp only
    rw [if_pos ⟨hgo, hspeaks⟩, hresend, Transport.sizes_nil, Nat.sub_zero, hi]

end Calm

end Transport

/-- A channel, and what was done about snippets so far. -/
structure Traced where
  channel : Transport
  log : List Sending

namespace Traced

/-- The channel as a system, traced. -/
def system (q : Qos) : System Traced Event where
  init s := s = ⟨.create q, []⟩
  step s e :=
    ((Transport.system q).step s.channel e).map fun t => ⟨t, s.log ++ s.channel.sendings e⟩

open Sending (Counted Bounded)

theorem step_counted {q : Qos} (hpos : 1 ≤ q.moveAttempts) (hbyte : q.moveAttempts ≤ 255)
    {s s' : Traced} {e : Event} (hq : s.channel.qos = q)
    (c : Counted q.moveAttempts s.channel.ostreamer.moves s.log)
    (hstep : (system q).step s e = some s') :
    s'.channel.qos = q ∧ Counted q.moveAttempts s'.channel.ostreamer.moves s'.log := by
  obtain ⟨t, htake, rfl⟩ := Option.map_eq_some_iff.mp hstep
  obtain ⟨hsound, out, hact⟩ := Transport.step_act htake
  refine ⟨(Transport.act_cases hsound hact).1.trans hq, ?_⟩
  obtain ⟨now, resend, room, hlog, hsource⟩ | ⟨hlog, hmoves⟩ :=
    Transport.act_sendings hsound hact
  · dsimp only
    rw [hlog, hsource, hq]
    exact Ostreamer.imbue_counted hpos hbyte room c
  · dsimp only
    rw [hlog, List.append_nil]
    exact c.subset hmoves

theorem bounded_of_byte {q : Qos} (hpos : 1 ≤ q.moveAttempts) (hbyte : q.moveAttempts ≤ 255)
    {s : Traced} (h : (system q).Reachable s) : Bounded q.moveAttempts s.log := by
  have hall : s.channel.qos = q ∧ Counted q.moveAttempts s.channel.ostreamer.moves s.log := by
    refine System.Reaches.invariant
      (P := fun s => s.channel.qos = q ∧ Counted q.moveAttempts s.channel.ostreamer.moves s.log)
      ?_ ?_ h
    · rintro s rfl
      exact ⟨rfl, .nil _, fun _ _ hm => absurd hm List.not_mem_nil⟩
    · rintro s e s' - ⟨hq, hs⟩ hstep
      exact step_counted hpos hbyte hq hs hstep
  exact hall.2.bounded

/-! ## A channel with more attempts than the counter counts -/

/-- The default parameters, but with `n` attempts. -/
def patient (n : Nat) : Qos := { Qos.default with moveAttempts := n }

variable {n k : Nat} {s : Traced}

/-- One snippet, of which a packet holds only one, is in flight, was written again `k` times, and is
due. -/
structure Lone (n k : Nat) (s : Traced) : Prop where
  calm : s.channel.Calm (patient n)
  queue : s.channel.ostreamer.buffer.data = []
  flight : ∃ f, s.channel.ostreamer.moves.entries = [(0, f)] ∧ f.data.length = 700 ∧ f.time < 3 ∧
    f.attempt < 256
  log : s.log = .fresh 0 true :: List.replicate k (.again 0)

/-- A round is traced. -/
theorem turn (hreach : (system (patient n)).Reachable s) (calm : s.channel.Calm (patient n)) :
    ∃ s' room, (system (patient n)).Reachable s' ∧ s'.channel.Calm (patient n) ∧
      1378 ≤ room ∧ room ≤ 1390 ∧
      s'.channel.ostreamer = (s.channel.ostreamer.imbue (patient n) 3 (-2) room).1 ∧
      s'.log = s.log ++ s.channel.ostreamer.sendings (patient n) 3 (-2) room := by
  obtain ⟨t', room, hproduce, hcalm', hmin, hmax, hsource, hlog⟩ := calm.produce rfl
  have hsent : (system (patient n)).step s (.produce ⟨3, 3, 3⟩) =
      some ⟨t', s.log ++ s.channel.sendings (.produce ⟨3, 3, 3⟩)⟩ := by
    show ((s.channel.produce ⟨3, 3, 3⟩).map Prod.fst).map _ = _
    rw [hproduce]
    rfl
  rw [hlog] at hsent
  exact ⟨_, room, .next hreach trivial hsent, hcalm', hmin, hmax, hsource, rfl⟩

/-- A channel is linked, lets 700 bytes pass, and has read the answer to a ping that it is still to
send. -/
theorem linked (n : Nat) :
    ∃ s, (system (patient n)).Reachable s ∧ s.channel.Calm (patient n) ∧ s.log = [] ∧
      s.channel.ostreamer.moves = .empty ∧ s.channel.ostreamer.buffer = .fresh ∧
      s.channel.ostreamer.range = 700 := by
  have hrun : ((system (patient n)).run ⟨.create (patient n), []⟩
      [.openAt, .connect 1 1 1 .success, .feed 2 ⟨2, [.linkEcho, .edge 700]⟩]).map (fun s =>
        ((s.channel.qos, s.channel.connector.status, s.channel.connector.admits 2,
          s.channel.connector.jobs.entries, s.channel.istreamer.readers, s.channel.istreamer.acks),
          s.log, s.channel.ostreamer.moves, s.channel.ostreamer.buffer,
          s.channel.ostreamer.range)) =
      some ((patient n, .linked, true, [(.ping, 0)], [], .empty), [], .empty, .fresh, 700) := rfl
  obtain ⟨s, hs, hv⟩ := Option.map_eq_some_iff.mp hrun
  simp only [Prod.mk.injEq] at hv
  obtain ⟨⟨hq, hlinked, hadmits, hjobs, hreaders, hacks⟩, hlog, hrest⟩ := hv
  obtain ⟨t, hfeed, hcalm, hsource⟩ :=
    Transport.feed_calm hq rfl hlinked hadmits hjobs hreaders hacks
  have hfed : (system (patient n)).step s (.feed 2 ⟨2, [.pingEcho 3]⟩) =
      some ⟨t, s.log ++ []⟩ := by
    show (((s.channel.feed 2 ⟨2, [.pingEcho 3]⟩).map (·, none)).map Prod.fst).map _ = _
    rw [hfeed]
    rfl
  rw [hlog] at hfed
  rw [← hsource] at hrest
  exact ⟨_, .next (System.reachable_of_run _ rfl hs) trivial hfed, hcalm, rfl, hrest⟩

/-- The bytes are written and sent for the first time. -/
theorem lone_zero (n : Nat) : ∃ s, (system (patient n)).Reachable s ∧ s.Lone n 0 := by
  obtain ⟨s, hreach, hcalm, hlog, hmoves, hbuffer, hrange⟩ := linked n
  obtain ⟨data, hdata⟩ : ∃ data : Bytes, data.length = 700 :=
    ⟨List.replicate 700 7, List.length_replicate⟩
  have hne : data ≠ [] := by
    intro hnil
    rw [hnil] at hdata
    cases hdata
  have hadd : SendBuffer.fresh.add (patient n) data = ⟨0, 700, [data]⟩ := by
    have hroom : ¬ 5 * 1024 * 1024 ≤ wsub (wadd 0 700) 0 := by decide
    unfold SendBuffer.add
    rw [hdata]
    exact if_neg hroom
  have happend : (s.channel.ostreamer.append (patient n) data 1).buffer = ⟨0, 700, [data]⟩ := by
    unfold Ostreamer.append
    rw [hbuffer, hadd]
    rfl
  obtain ⟨hmoves', -, hrange'⟩ := s.channel.ostreamer.append_keeps (patient n) data 1
  have hwrite : s.channel.write data 1 =
      { s.channel with ostreamer := s.channel.ostreamer.append (patient n) data 1 } := by
    unfold Transport.write
    rw [if_pos hcalm.linked]
    exact congrArg (fun q => { s.channel with ostreamer := s.channel.ostreamer.append q data 1 })
      hcalm.qos
  have hsound : (Event.write data 1).sound = true := by
    simp [Event.sound, hdata]
  have hstep : (system (patient n)).step s (.write data 1) =
      some ⟨s.channel.write data 1, s.log ++ []⟩ := by
    show (if _ then _ else none).map _ = _
    rw [if_pos hsound]
    rfl
  rw [hwrite] at hstep
  obtain ⟨s', room, hreach', hcalm', hmin, hmax, hsource, hlog'⟩ :=
    turn (.next hreach trivial hstep) ⟨hcalm.qos, hcalm.linked, hcalm.resend, hcalm.jobs,
      hcalm.acks⟩
  dsimp only at hsource hlog'
  have hoverhead : overhead = 12 := rfl
  obtain ⟨hflight, hqueue, hsendings⟩ := Ostreamer.imbue_first
    (o := s.channel.ostreamer.append (patient n) data 1) (patient n) 3 (-2) data
    (by rw [hmoves', hmoves]; rfl) (by rw [happend])
    (by rw [happend, hrange', hrange, hdata]; exact (by decide : 700 ≤ wsub 700 0))
    hne (show 0 < 1024 by decide)
    (show overhead + data.length ≤ room by omega)
  rw [happend] at hflight hsendings
  refine ⟨s', hreach', hcalm', hsource ▸ hqueue, ⟨_, hsource ▸ hflight, hdata, ?_, ?_⟩, ?_⟩
  · exact (by decide : later 3 (-2) < 3)
  · exact (by decide : 1 < 256)
  · rw [hlog', hlog, hsendings]
    rfl

/-- In the next round it is written again: its counter is below 256, so it is not `n`. -/
theorem Lone.next (hn : 256 ≤ n) (hreach : (system (patient n)).Reachable s) (h : s.Lone n k) :
    ∃ s', (system (patient n)).Reachable s' ∧ s'.Lone n (k + 1) := by
  obtain ⟨hcalm, hqueue, ⟨f, hmoves, hdata, hdue, hbyte⟩, hlog⟩ := h
  obtain ⟨s', room, hreach', hcalm', hmin, hmax, hsource, hlog'⟩ := turn hreach hcalm
  have hoverhead : overhead = 12 := rfl
  have hleft : f.attempt ≠ (patient n).moveAttempts := by
    show f.attempt ≠ n
    omega
  obtain ⟨hflight, hqueue', hsendings⟩ := Ostreamer.imbue_again (patient n) 3 (-2) room hmoves
    hqueue hdue hleft (by omega) (by omega) (by omega)
  refine ⟨s', hreach', hcalm', hsource ▸ hqueue',
    ⟨f.resent (later 3 (-2)), hsource ▸ hflight, hdata, ?_, Nat.mod_lt _ (by decide)⟩, ?_⟩
  · exact (by decide : later 3 (-2) < 3)
  · rw [hlog', hlog, hsendings, List.replicate_succ', List.cons_append]

theorem exists_lone (hn : 256 ≤ n) (k : Nat) :
    ∃ s, (system (patient n)).Reachable s ∧ s.Lone n k := by
  induction k with
  | zero => exact lone_zero n
  | succ k ih =>
    obtain ⟨s, hreach, h⟩ := ih
    exact h.next hn hreach

/-- From 256 attempts on, some run writes a snippet more often. -/
theorem exceeds (hn : 256 ≤ n) :
    ∃ s, (system (patient n)).Reachable s ∧ ¬ Bounded n s.log := by
  obtain ⟨s, hreach, h⟩ := exists_lone hn n
  refine ⟨s, hreach, fun hbounded => ?_⟩
  have hsince : Sending.Since 0 (List.replicate n (.again 0)) s.log := by
    rw [h.log]
    exact ⟨List.suffix_rfl, by simp, by simp⟩
  have hle := hbounded s.log List.prefix_rfl 0 _ hsince
  rw [List.count_replicate_self] at hle
  omega

/-- No snippet is written more often than `move_attempts` says before it is given up, in every run
of every channel, exactly if the number of attempts fits into the counter. -/
theorem bounded_iff {n : Nat} (hpos : 1 ≤ n) :
    (∀ q : Qos, q.moveAttempts = n → ∀ s, (system q).Reachable s → Bounded n s.log) ↔ n ≤ 255 := by
  constructor
  · intro hall
    by_contra hn
    obtain ⟨s, hreach, hexceeds⟩ := exceeds (n := n) (by omega)
    exact hexceeds (hall (patient n) rfl s hreach)
  · rintro hbyte q rfl s hreach
    exact bounded_of_byte hpos hbyte hreach

/-- With the default of 32 attempts a snippet is written 32 times at most. -/
theorem bounded_default :
    Qos.default.moveAttempts = 32 ∧
      ∀ s, (system .default).Reachable s → Bounded 32 s.log := by
  refine ⟨rfl, fun s hreach => ?_⟩
  exact (bounded_iff (n := 32) (by decide)).mpr (by decide) .default rfl s hreach

/-- With 256 attempts some snippet is written more often. -/
theorem unbounded :
    ¬ ∀ q : Qos, 1 ≤ q.moveAttempts → ∀ s, (system q).Reachable s →
      Bounded q.moveAttempts s.log := by
  intro hall
  obtain ⟨s, hreach, hexceeds⟩ := exceeds (n := 256) (Nat.le_refl _)
  exact hexceeds (hall (patient 256) (by decide) s hreach)

end Traced

end Tubus.Udp
