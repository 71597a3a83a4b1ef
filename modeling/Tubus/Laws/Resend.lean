import Tubus.Laws.Round

/-!
# The resend interval

`m_repeat` is twice the time since the value of a `ping|echo`, a word from the wire, as an unsigned
number, but at least ten milliseconds; and then it becomes a signed duration. A value in the future,
or far in the past, makes it negative, `not_a_date_time`, or so long that the next time of a job
runs over (`take_resend_iff`). Otherwise what `imbue` has selected is not due again in the same call
(`resend_sane`).
-/

namespace Tubus.Udp

open Lib

/-! ## The selections of a call -/

namespace Connector

variable {c : Connector}

/-- Neither what was passed over nor what was just written is due. -/
theorem not_due_behind {now : Time} (hwaits : now ≤ later now c.resend) {pre : List (Job × Time)}
    (h : ∀ e ∈ pre, due now e = false) (job : Job) :
    ∀ e ∈ pre ++ (if job.isEcho then [] else [(job, later now c.resend)]), due now e = false := by
  refine List.forall_mem_append.mpr ⟨h, fun e he => ?_⟩
  split at he
  · cases he
  · next hecho =>
    rw [List.mem_singleton.mp he]
    simp [due, hecho, Int.not_lt.mpr hwaits]

/-- The jobs whose sections are written are some of those behind what was passed over, in their
order. -/
theorem imbueLoop_sublist (now : Time) (fuel room : Nat) (hwaits : now ≤ later now c.resend)
    {pre post : List (Job × Time)} (hentries : c.jobs.entries = pre ++ post)
    (hpre : ∀ e ∈ pre, due now e = false) :
    ((imbueLoop now fuel room c).2.map Section.code).Sublist
      ((post.map Prod.fst).map Job.code) := by
  induction fuel generalizing c pre post room with
  | zero => exact List.nil_sublist _
  | succ fuel ih =>
    unfold imbueLoop
    split
    · exact List.nil_sublist _
    · rw [hentries, find?_behind hpre]
      cases hfind : post.find? (due now) with
      | none => exact List.nil_sublist _
      | some item =>
        obtain ⟨-, skip, rest, rfl, hskip⟩ := find?_split hfind
        obtain ⟨job, time⟩ := item
        have hsplit : c.jobs.entries = (pre ++ skip) ++ (job, time) :: rest := by
          rw [hentries, List.append_assoc]
        have hnext := ih (c := c.wrote now job) (room - (sectionOf now (job, time)).size)
          (by rw [(c.wrote_keeps now job).2.2]; exact hwaits) (wrote_entries hsplit)
          (not_due_behind hwaits (List.forall_mem_append.mpr ⟨hpre, hskip⟩) job)
        rw [List.map_append, List.map_append, List.map_cons, List.map_cons]
        apply List.Sublist.trans _ (List.sublist_append_right _ _)
        dsimp only
        rw [List.map_cons, code_sectionOf]
        exact hnext.cons_cons _

/-- No job is selected twice in one call, if what is written is put off. -/
theorem imbue_nodup (q : Qos) (now : Time) (room : Nat) (hwaits : now ≤ later now c.resend) :
    ((c.imbue q now room).2.map Section.code).Nodup := by
  unfold imbue
  split
  · exact List.nodup_nil
  · have hsub := imbueLoop_sublist now room room hwaits (List.nil_append _).symm
      fun e he => absurd he List.not_mem_nil
    apply hsub.nodup
    apply List.Nodup.map Job.code_injective
    exact List.pairwise_map.mpr (c.jobs.sorted.imp fun h => ne_of_lt h)

end Connector

namespace Ostreamer

variable {q : Qos} {now : Time} {resend : Int} {o : Ostreamer}

/-- The flights that the first loop of `imbue` selects, each as it is then; the one it gives up at
is the last. -/
def picks (q : Qos) (now : Time) (resend : Int) : Nat → Nat → Ostreamer → List (Nat × Flight)
  | 0, _, _ => []
  | fuel + 1, room, o =>
    if room ≤ overhead then []
    else match o.moves.entries.find? (ready now room) with
      | none => []
      | some (h, f) =>
        (h, f) ::
          if f.attempt = q.moveAttempts then []
          else picks q now resend fuel (room - (Section.move h f.data).size)
            { o with moves := o.moves.modify h (Flight.resent (later now resend)) }

/-- What is written are the flights selected that have attempts left. -/
theorem repeatLoop_picks (q : Qos) (now : Time) (resend : Int) (fuel room : Nat) (o : Ostreamer) :
    (o.repeatLoop q now resend fuel room).2.1 =
        ((picks q now resend fuel room o).filter fun e => !spent q e.2).map
          (fun e => Section.move e.1 e.2.data) ∧
      (o.repeatLoop q now resend fuel room).2.2.2 =
        (picks q now resend fuel room o).any fun e => spent q e.2 := by
  induction fuel generalizing o room with
  | zero => exact ⟨rfl, rfl⟩
  | succ fuel ih =>
    unfold repeatLoop picks
    split
    · exact ⟨rfl, rfl⟩
    · cases o.moves.entries.find? (ready now room) with
      | none => exact ⟨rfl, rfl⟩
      | some item =>
        obtain ⟨h, f⟩ := item
        dsimp only
        by_cases hspent : f.attempt = q.moveAttempts
        · have hs : spent q f = true := decide_eq_true hspent
          rw [if_pos hspent, if_pos hspent, List.filter_cons_of_neg (by simp [hs]), List.any_cons,
            hs]
          exact ⟨rfl, rfl⟩
        · have hs : spent q f = false := decide_eq_false hspent
          obtain ⟨hsections, hgave⟩ := ih (room - (Section.move h f.data).size)
            { o with moves := o.moves.modify h (Flight.resent (later now resend)) }
          rw [if_neg hspent, if_neg hspent, List.filter_cons_of_pos (by simp [hs]), List.map_cons,
            List.any_cons, hs, Bool.false_or]
          exact ⟨by rw [hsections], hgave⟩

theorem picks_idle (q : Qos) (now : Time) (resend : Int) (fuel room : Nat)
    (h : ∀ e ∈ o.moves.entries, ready now room e = false) :
    picks q now resend fuel room o = [] := by
  have hnone : o.moves.entries.find? (ready now room) = none :=
    List.find?_eq_none.mpr fun e he => by simp [h e he]
  cases fuel with
  | zero => rfl
  | succ n =>
    rw [picks, hnone]
    split <;> rfl

/-- The flights selected are some of those behind what was passed over, in their order. -/
theorem picks_sublist (q : Qos) (now : Time) (fuel room : Nat) (hwaits : now ≤ later now resend)
    {pre post : List (Nat × Flight)} (hentries : o.moves.entries = pre ++ post)
    (hpre : ∀ e ∈ pre, ready now room e = false) :
    (picks q now resend fuel room o).Sublist post := by
  induction fuel generalizing o pre post room with
  | zero => exact List.nil_sublist _
  | succ fuel ih =>
    unfold picks
    split
    · exact List.nil_sublist _
    · rw [hentries, find?_behind hpre]
      cases hfind : post.find? (ready now room) with
      | none => exact List.nil_sublist _
      | some item =>
        obtain ⟨-, skip, rest, rfl, hskip⟩ := find?_split hfind
        obtain ⟨h, f⟩ := item
        apply List.Sublist.trans _ (List.sublist_append_right _ _)
        dsimp only
        split
        · exact (List.nil_sublist _).cons_cons _
        · have hsplit : o.moves.entries = (pre ++ skip) ++ (h, f) :: rest := by
            rw [hentries, List.append_assoc]
          have hentries' : (o.moves.modify h (Flight.resent (later now resend))).entries =
              (pre ++ skip ++ [(h, f.resent (later now resend))]) ++ rest := by
            rw [SortedMap.entries_modify hsplit, List.append_assoc _ [_], List.singleton_append]
          apply List.Sublist.cons_cons
          apply ih (o := { o with moves := o.moves.modify h (Flight.resent (later now resend)) })
            _ hentries'
          exact not_ready_behind hwaits (Nat.sub_le _ _)
            (List.forall_mem_append.mpr ⟨hpre, hskip⟩) h f

/-- No flight is selected twice in one call, if what is sent is put off. -/
theorem picks_nodup (q : Qos) (now : Time) (room : Nat) (hwaits : now ≤ later now resend)
    (o : Ostreamer) :
    ((picks q now resend room room o).map Prod.fst).Nodup := by
  have hsub := picks_sublist q now room room hwaits (List.nil_append o.moves.entries).symm
    fun e he => absurd he List.not_mem_nil
  apply (hsub.map Prod.fst).nodup
  exact List.pairwise_map.mpr (o.moves.sorted.imp fun h => ne_of_lt h)

end Ostreamer

/-! ## The interval -/

/-- The clamp holds exactly for what a signed duration can hold. -/
theorem Connector.clamped {n : Nat} (h : n < 2 ^ 64) :
    (n < 2 ^ 63 → toI64 (max n 10000) = (max n 10000 : Nat)) ∧
      (2 ^ 63 ≤ n → toI64 (max n 10000) < 0) := by
  unfold toI64
  refine ⟨fun hsmall => ?_, fun hlarge => ?_⟩
  · rw [if_pos (by omega), Nat.mod_eq_of_lt (by omega)]
  · rw [if_neg (by omega)]
    omega

/-- A value that lies in the past, by at most half of the longest duration that can be added to
every reading of the clock; up to multiples of `2 ^ 63`, for the doubling drops the highest bit. -/
def Past (now : Time) (v : Nat) : Prop := (sinceZero now - (v : Int)) % 2 ^ 63 ≤ longest / 2

instance (now : Time) (v : Nat) : Decidable (Past now v) := Int.decLe _ _

theorem double_le_iff (now : Int) (v : Nat) :
    ((wsub (toU64 now) v * 2 % 2 ^ 64 : Nat) : Int) ≤ longest ↔
      (now - (v : Int)) % 2 ^ 63 ≤ longest / 2 := by
  have hlongest : longest = (8759102932854775808 : Int) := by decide
  rw [hlongest]
  unfold wsub toU64
  constructor
  · intro h
    omega
  · intro h
    omega

/-- A resend interval of ten milliseconds at least that puts a job off at every reading of the
clock. -/
structure Steady (d : Int) : Prop where
  min : 10000 ≤ d
  ordinary : ¬ Special d
  waits : ∀ now, Reading now → now ≤ later now d

theorem steady_iff {d : Int} (hlt : d < 2 ^ 63) : Steady d ↔ 10000 ≤ d ∧ d ≤ longest := by
  have hlongest : longest = (8759102932854775808 : Int) := by decide
  constructor
  · rintro ⟨hmin, hordinary, hwaits⟩
    refine ⟨hmin, Int.not_lt.mp fun hlong => ?_⟩
    simp only [Special, posInfinity, notADateTime, not_or] at hordinary
    exact absurd (hwaits maxDateTime (by decide)) (Int.not_le.mpr (later_lt hlong (by omega)))
  · rintro ⟨hmin, hle⟩
    refine ⟨hmin, not_special (by omega) (by omega), fun now hnow => ?_⟩
    rw [later_eq hnow (by omega) hle]
    exact Int.le_add_of_nonneg_right (by omega)

/-- A `ping|echo` leaves a steady interval exactly if its value lies in the past. -/
theorem Connector.take_resend_iff (q : Qos) (pin : Nat) (c : Connector) (v : Nat) :
    Steady (c.take q pin (.pingEcho v)).resend ↔ Past c.seen v := by
  have hdouble := double_le_iff (sinceZero c.seen) v
  have hlongest : longest = (8759102932854775808 : Int) := by decide
  have hlt : wsub (toU64 (sinceZero c.seen)) v * 2 % 2 ^ 64 < 2 ^ 64 :=
    Nat.mod_lt _ (Nat.two_pow_pos 64)
  change Steady (toI64 (max (wsub (toU64 (sinceZero c.seen)) v * 2 % 2 ^ 64) 10000)) ↔
    (sinceZero c.seen - (v : Int)) % 2 ^ 63 ≤ longest / 2
  rw [← hdouble]
  generalize wsub (toU64 (sinceZero c.seen)) v * 2 % 2 ^ 64 = n at hlt ⊢
  obtain ⟨hsmall, hlarge⟩ := clamped hlt
  by_cases hn : n < 2 ^ 63
  · rw [hsmall hn, steady_iff (by omega)]
    omega
  · have hneg := hlarge (Nat.not_lt.mp hn)
    refine ⟨fun h => ?_, fun hle => ?_⟩
    · have := h.min
      omega
    · omega

namespace Transport

variable {t t' : Transport}

/-- The values echoed by a packet that is fed lie in the past. -/
def Echoes (t : Transport) (e : Event) : Prop :=
  ∀ now p, e = .feed now p → t.connector.admits p.pin = true →
    ∀ v, .pingEcho v ∈ p.body → Past now v

/-- Only a `ping|echo` changes the interval. -/
theorem take_resend (q : Qos) (pin : Nat) (c : Connector) {s : Section}
    (h : ∀ v, s ≠ .pingEcho v) : (c.take q pin s).resend = c.resend := by
  have htook := c.take_took q pin s
  generalize c.take q pin s = c' at htook ⊢
  cases htook with
  | pingEcho v => exact absurd rfl (h v)
  | link | linked | tearing | tear | finished | ping | quiet => rfl

theorem take_seen (q : Qos) (pin : Nat) (c : Connector) (s : Section) :
    (c.take q pin s).seen = c.seen := by
  have htook := c.take_took q pin s
  generalize c.take q pin s = c' at htook ⊢
  cases htook <;> rfl

/-- One event keeps the interval steady. -/
theorem turn_resend {q : Qos} {c c' : Connector} {e : Event} (h : c.Turn q e c')
    (hechoes : ∀ now p, e = .feed now p → c.admits p.pin = true →
      ∀ v, .pingEcho v ∈ p.body → Past now v)
    (hc : Steady c.resend) : Steady c'.resend := by
  cases h with
  | quiet => exact hc
  | init => exact hc
  | refuse => exact hc
  | connect now pin k socket fresh =>
    unfold Connector.connect
    split <;> exact hc
  | accept now pin k socket fresh =>
    unfold Connector.accept
    split <;> exact hc
  | shutdown now k =>
    unfold Connector.shutdown
    split <;> exact hc
  | error ec =>
    have hsame : (c.error ec).resend = c.resend := by
      unfold Connector.error Connector.postIf
      split <;> split <;> rfl
    exact hsame ▸ hc
  | parse now p admits =>
    have hparse : (c.parse q now p).seen = now ∧ Steady (c.parse q now p).resend := by
      apply Connector.parse_induct (P := fun c' => c'.seen = now ∧ Steady c'.resend)
      · rintro c₁ s hs ⟨hseen, hc₁⟩
        refine ⟨(take_seen q p.pin c₁ s).trans hseen, ?_⟩
        by_cases hecho : ∃ v, s = .pingEcho v
        · obtain ⟨v, rfl⟩ := hecho
          apply (Connector.take_resend_iff q p.pin c₁ v).mpr
          rw [hseen]
          exact hechoes now p rfl admits v hs
        · rw [take_resend q p.pin c₁ fun v hv => hecho ⟨v, hv⟩]
          exact hc₁
      · exact ⟨rfl, hc⟩
    exact hparse.2
  | imbue k room =>
    rw [(c.imbue_keeps q k.connector room).2.2]
    exact hc

/-- The interval stays an ordinary duration of ten milliseconds at least, and no call selects a job
or a flight twice, in every run whose echoed values lie in the past. -/
theorem resend_sane {q : Qos} (h : (system q).Reaches Echoes t) :
    10000 ≤ t.connector.resend ∧ ¬ Special t.connector.resend ∧
      (∀ now room, Reading now → ((t.connector.imbue t.qos now room).2.map Section.code).Nodup) ∧
      ∀ now room, Reading now →
        ((t.ostreamer.picks t.qos now t.connector.resend room room).map Prod.fst).Nodup := by
  have hsteady : Steady t.connector.resend := by
    refine (act_invariant (P := fun t => Steady t.connector.resend) ?_ ?_ h).2
    · exact (steady_iff (d := 100000) (by decide)).mpr (by decide)
    · intro t e t' out hechoes _ _ hact ht
      exact turn_resend (act_turn hact) hechoes ht
  exact ⟨hsteady.min, hsteady.ordinary,
    fun now room hnow => t.connector.imbue_nodup t.qos now room (hsteady.waits now hnow),
    fun now room hnow => Ostreamer.picks_nodup t.qos now room (hsteady.waits now hnow) t.ostreamer⟩

/-- The check of `Echoes`, for every packet that is fed. -/
def echoes (_ : Transport) : Event → Bool
  | .feed now p => p.body.all fun
    | .pingEcho v => decide (Past now v)
    | _ => true
  | _ => true

theorem echoes_sound (t : Transport) (e : Event) (h : t.echoes e = true) : t.Echoes e := by
  rintro now p rfl - v hv
  exact of_decide_eq_true (List.all_eq_true.mp h _ hv)

/-- Half a second there and back leaves an interval of a second. -/
theorem resend_sane_second :
    ∃ t, (system .default).Reaches Echoes t ∧ t.connector.resend = 1000000 ∧
      10000 ≤ t.connector.resend ∧ ¬ Special t.connector.resend ∧
      (∀ now room, Reading now → ((t.connector.imbue t.qos now room).2.map Section.code).Nodup) ∧
      ∀ now room, Reading now →
        ((t.ostreamer.picks t.qos now t.connector.resend room room).map Prod.fst).Nodup := by
  have hrun : ((system .default).checked echoes (create .default)
      [.openAt, .connect 1 1 1 .success, .feed 500002 ⟨2, [.linkEcho, .pingEcho 2]⟩]).map
        (fun t => t.connector.resend) = some 1000000 := by decide +kernel
  obtain ⟨t, ht, hresend⟩ := Option.map_eq_some_iff.mp hrun
  have hreach := System.Reaches.checked echoes_sound _ (.start rfl) ht
  exact ⟨t, hreach, hresend, resend_sane hreach⟩

/-- An echo of the next microsecond makes the interval negative, and a ping that was written is due
again in the same call. -/
theorem resend_negative :
    ¬ ∀ (q : Qos) (t : Transport), (system q).Reachable t → 10000 ≤ t.connector.resend ∧
      ∀ now room, Reading now →
        ((t.connector.imbue t.qos now room).2.map Section.code).Nodup := by
  intro hall
  obtain ⟨t, ht, hv⟩ := System.exists_of_run (S := system .default)
    (f := fun t => (t.connector.resend, (t.connector.imbue t.qos 15000003 24).2.map Section.code))
    (v := (-2, [6, 6]))
    [.openAt, .connect 1 1 1 .success, .feed 2 ⟨2, [.linkEcho, .pingEcho 3]⟩] rfl
    (by decide +kernel)
  obtain ⟨hresend, -⟩ := Prod.mk.inj hv
  have hle := (hall .default t ht).1
  rw [hresend] at hle
  revert hle
  decide

end Transport

end Tubus.Udp
