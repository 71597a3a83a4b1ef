import Tubus.Laws.Lifecycle

/-!
# The handlers of a connection

A handler of `connect`, `accept` or `shutdown` is posted at once or stored, and a stored one is
posted when its slot is emptied. Counting the copies of a handler that were posted or are stored
gives an equation for every move (`Move.account`), with one exception on each side: a handler
comes in with a call, and a handler is overwritten by a `shutdown` in the state `tearing`, the
one call that stores without a look at its slot.

The second half is about a channel that has stopped. A round that answers a tear ends the
connection, and posts the handler of the shutdown but not that of the connect (`forsakes`).
-/

namespace Tubus.Udp

open Lib

/-- The handler that a post calls, if any. -/
def Post.callback? : Post → Option Handler
  | .handler k _ => k
  | .error _ => none

namespace Connector

/-- The handlers posted. -/
def answered (c : Connector) : List Handler := c.posts.filterMap Post.callback?

/-- The handlers stored. -/
def held (c : Connector) : List Handler := c.onConnect.toList ++ c.onShutdown.toList

/-- How often a handler was posted or is stored. -/
def share (k : Handler) (c : Connector) : Nat := (c.answered ++ c.held).count k

variable {q : Qos} {w : Prop} {f : Section → Prop} {given lost : List Handler} {c c' : Connector}

theorem share_eq (k : Handler) (c : Connector) : c.share k =
    (c.posts.filterMap Post.callback?).count k +
      (c.onConnect.toList.count k + c.onShutdown.toList.count k) := by
  rw [share, held, answered, List.count_append, List.count_append]

@[simp] theorem post_onConnect (p : Post) : (c.post p).onConnect = c.onConnect := rfl

@[simp] theorem post_onShutdown (p : Post) : (c.post p).onShutdown = c.onShutdown := rfl

@[simp] theorem postIf_onConnect (callback : Option Handler) (ec : Ec) :
    (c.postIf callback ec).onConnect = c.onConnect := by
  unfold postIf
  split <;> rfl

theorem count_post (k : Handler) (p : Post) : ((c.post p).posts.filterMap Post.callback?).count k =
    (c.posts.filterMap Post.callback?).count k + p.callback?.toList.count k := by
  cases h : p.callback? <;> simp [post, h]

theorem count_postIf (k : Handler) (callback : Option Handler) (ec : Ec) :
    ((c.postIf callback ec).posts.filterMap Post.callback?).count k =
      (c.posts.filterMap Post.callback?).count k + callback.toList.count k := by
  cases callback with
  | none => simp [postIf]
  | some h =>
    show ((c.post (.handler (some h) ec)).posts.filterMap _).count k = _
    exact count_post k _

/-- A handler that is posted leaves its slot, or comes with the call. -/
theorem share_post (k : Handler) (callback : Option Handler) (ec : Ec) :
    (c.post (.handler callback ec)).share k = c.share k + callback.toList.count k := by
  rw [share_eq, share_eq, count_post]
  show _ + callback.toList.count k + (c.onConnect.toList.count k + c.onShutdown.toList.count k) = _
  omega

theorem take_share (k : Handler) (pin : Nat) (s : Section) :
    (c.take q pin s).share k = c.share k := by
  have h := take_took q pin c s
  generalize c.take q pin s = c' at h ⊢
  cases h with
  | linked =>
    have hpost := count_post (c := c) k (.handler c.onConnect .success)
    simp only [share_eq, Post.callback?, Option.toList_none, List.count_nil, post_onShutdown]
      at hpost ⊢
    omega
  | finished =>
    have hpost := count_post (c := c) k (.handler c.onShutdown .success)
    simp only [share_eq, Post.callback?, Option.toList_none, List.count_nil, post_onConnect]
      at hpost ⊢
    omega
  | link | tearing | tear | ping | pingEcho | quiet => rfl

theorem wrote_share (k : Handler) (now : Time) (job : Job) :
    (c.wrote now job).share k = c.share k := by
  have h := wrote_wrote now c job
  generalize c.wrote now job = c' at h ⊢
  cases h with
  | linked =>
    have hpost := count_post (c := { c with jobs := c.jobs.erase .linkEcho }) k
      (.handler c.onConnect .success)
    simp only [share_eq, Post.callback?, Option.toList_none, List.count_nil, post_onShutdown]
      at hpost ⊢
    omega
  | finished =>
    have hpost := count_postIf (c := c) k c.onShutdown .success
    simp only [share_eq, Option.toList_none, List.count_nil, postIf_onConnect, hpost]
    omega
  | linkEcho | pingEcho | again => rfl

theorem error_share (k : Handler) (ec : Ec) : (c.error ec).share k = c.share k := by
  have hfirst := count_postIf (c := c) k c.onConnect ec
  have hsecond := count_postIf (c := c.postIf c.onConnect ec) k c.onShutdown ec
  simp only [error, share_eq, Option.toList_none, List.count_nil, hsecond, hfirst]
  omega

/-- A move accounts for every handler: those that come in are posted or stored, and those that
were stored are posted, stay, or are overwritten. -/
theorem Move.account (a : Armed c) (h : Move q w f given lost c c') (k : Handler) :
    c'.share k + lost.count k = c.share k + given.count k := by
  have hconnect : c.status = .initial → c.onConnect = none := by
    intro hc
    by_contra hne
    have hslot := a.connectSlot (Option.isSome_iff_ne_none.mpr hne)
    rw [hc] at hslot
    exact absurd hslot (by decide)
  cases h with
  | init => rfl
  | hear => rfl
  | take pin => rw [take_share]
  | giveUp =>
    rw [share_eq, share_eq, count_post]
    rfl
  | wrote _ now item => rw [wrote_share]
  | refuse _ h ec => exact share_post k (some h) ec
  | connect now h hpin hc =>
    have hnone := hconnect hc
    simp only [Connector.connect, if_pos hc, share_eq, hnone, Option.toList_none, List.count_nil,
      Option.toList_some]
    omega
  | accept now h hpin hc =>
    have hnone := hconnect hc
    simp only [Connector.accept, if_pos hc, share_eq, hnone, Option.toList_none, List.count_nil,
      Option.toList_some]
    omega
  | shutdown _ now h =>
    have hpost : ∀ ec, (c.post (.handler (some h) ec)).share k = c.share k + [h].count k :=
      share_post k (some h)
    unfold Connector.shutdown
    split
    · next hc =>
      rw [if_neg (by rw [hc]; decide), hpost]
      rfl
    · next hc =>
      have hnone : c.onShutdown = none := by
        by_contra hne
        have hslot := a.shutdownSlot (Option.isSome_iff_ne_none.mpr hne)
        rw [hc] at hslot
        exact absurd hslot (by decide)
      rw [if_neg (by rw [hc]; decide)]
      simp only [share_eq, hnone, Option.toList_none, List.count_nil, Option.toList_some]
      omega
    · next hc =>
      rw [if_pos hc]
      simp only [share_eq, Option.toList_some]
      omega
    · next hc =>
      rw [if_neg (by rw [hc]; decide), hpost]
      rfl
    · next hne _ =>
      rw [if_neg hne, hpost]
      rfl
  | error => rw [error_share]

theorem Moves.account (a : Armed c) (h : Moves q w f given lost c c') (k : Handler) :
    c'.share k + lost.count k = c.share k + given.count k := by
  induction h with
  | refl => rfl
  | tail hmoves hmove ih =>
    have hstep := hmove.account (hmoves.induct (fun _ _ _ _ h a => a.move h) a) k
    rw [List.count_append, List.count_append]
    have hfirst := ih a
    omega

end Connector

namespace Transport

/-- Does the event leave the stored handlers alone? Only a `shutdown` that is called while the
channel is tearing and has a handler of a shutdown stored does not. -/
def keeps (t : Transport) (e : Event) : Bool := (t.overwritten e).isEmpty

/-- Along every run in which no stored handler is overwritten: the handlers that were posted,
together with those that are stored, are the handlers that were handed over, each as often. -/
theorem handlers_conserved {q : Qos} {es : List Event} {t : Transport}
    (h : (system q).checked keeps (create q) es = some t) :
    (t.connector.answered ++ t.connector.held).Perm (es.flatMap Event.handlers) := by
  have hrun : ∀ (es : List Event) (s : Transport), s.qos = q → s.connector.Armed →
      (system q).checked keeps s es = some t → ∀ k, t.connector.share k =
        s.connector.share k + (es.flatMap Event.handlers).count k := by
    intro es
    induction es with
    | nil =>
      intro s _ _ h k
      cases h
      rfl
    | cons e es ih =>
      intro s hq a h k
      obtain ⟨hkeeps, h⟩ := Option.ite_none_right_eq_some.mp h
      obtain ⟨u, hstep, hrest⟩ := Option.bind_eq_some_iff.mp h
      obtain ⟨hq', hmoves⟩ := step_moves hq hstep
      have haccount := hmoves.account a k
      rw [List.isEmpty_iff.mp hkeeps, List.count_nil] at haccount
      have hlater := ih u hq' (hmoves.induct (fun _ _ _ _ h a => a.move h) a) hrest k
      rw [List.flatMap_cons, List.count_append]
      omega
  refine List.perm_iff_count.mpr fun k => ?_
  have hall := hrun es (create q) rfl .create h k
  rw [show (create q).connector.share k = 0 from rfl, Nat.zero_add] at hall
  exact hall

/-- A channel that connects, is torn down by its peer and asks for a shutdown meanwhile. -/
theorem handlers_conserved_tear :
    ∃ t, (system .default).checked keeps (create .default)
        [.openAt, .connect 1 1 1 .success, .feed 2 ⟨2, [.linkEcho]⟩, .feed 3 ⟨2, [.tear]⟩,
          .shutdown 4 5] = some t ∧ t.connector.held = [5] ∧
      (t.connector.answered ++ t.connector.held).Perm [1, 5] := by
  have hsome : ((system .default).checked keeps (create .default)
      [.openAt, .connect 1 1 1 .success, .feed 2 ⟨2, [.linkEcho]⟩, .feed 3 ⟨2, [.tear]⟩,
        .shutdown 4 5]).map (·.connector.held) = some [5] := by decide +kernel
  obtain ⟨t, ht, hheld⟩ := Option.map_eq_some_iff.mp hsome
  exact ⟨t, ht, hheld, handlers_conserved ht⟩

/-- A second shutdown while the peer's tear is being answered: the handler of the first one is
neither stored nor posted. -/
theorem shutdown_overwritten :
    ¬ ∀ (q : Qos) (es : List Event) (t : Transport), (system q).run (create q) es = some t →
      (t.connector.answered ++ t.connector.held).Perm (es.flatMap Event.handlers) := by
  intro hall
  have hsome : ((system .default).run (create .default)
      [.openAt, .connect 1 1 1 .success, .feed 2 ⟨2, [.linkEcho]⟩, .feed 3 ⟨2, [.tear]⟩,
        .shutdown 4 5, .shutdown 5 6]).map (fun t => t.connector.answered ++ t.connector.held) =
      some [1, 6] := by decide +kernel
  obtain ⟨t, ht, hlist⟩ := Option.map_eq_some_iff.mp hsome
  have hperm := hall _ _ t ht
  rw [hlist] at hperm
  exact absurd hperm.length_eq (by decide)

end Transport

/-! ## A channel that has stopped -/

namespace Connector

variable {c : Connector}

/-- The due jobs that come before the answer to a tear. -/
def ahead (now : Time) (c : Connector) : List (Job × Time) :=
  c.jobs.entries.filter fun item => due now item && decide (item.1 < .tearEcho)

/-- Does the loop of `imbue` answer a tear in `room` bytes before the connection is made? It does
when it comes to the answer: each job ahead is written once, unless it is due again at once, and
takes a section header. -/
def forsakes (now : Time) (room : Nat) (c : Connector) : Bool :=
  (decide (c.status = .connecting) ||
      (decide (c.status = .accepting) && !c.jobs.contains .linkEcho)) &&
    c.jobs.contains .tearEcho &&
    ((c.ahead now).all (fun item => item.1.isEcho) || decide (now ≤ later now c.resend)) &&
    decide (Section.headerSize * ((c.ahead now).length + 1) ≤ room)

theorem forsakes_iff {now : Time} {room : Nat} : c.forsakes now room = true ↔
    ((c.status = .connecting ∨ (c.status = .accepting ∧ .linkEcho ∉ c.jobs.keys)) ∧
      .tearEcho ∈ c.jobs.keys ∧
      ((∀ item ∈ c.ahead now, item.1.isEcho = true) ∨ now ≤ later now c.resend) ∧
      Section.headerSize * ((c.ahead now).length + 1) ≤ room) := by
  simp only [forsakes, SortedMap.contains, Bool.and_eq_true, Bool.or_eq_true, decide_eq_true_eq,
    Bool.not_eq_true', decide_eq_false_iff_not, List.all_eq_true, and_assoc]

section Round

variable {now : Time} {job : Job} {time : Time} {l₁ l₂ : List (Job × Time)}

/-- The first job that is due: nothing before it is, and everything behind it is later. -/
theorem find_due (h : c.jobs.entries.find? (due now) = some (job, time)) :
    due now (job, time) = true ∧ ∃ l₁ l₂, c.jobs.entries = l₁ ++ (job, time) :: l₂ ∧
      ∀ item ∈ l₁, due now item = false := by
  obtain ⟨hdue, l₁, l₂, hsplit, hnone⟩ := List.find?_eq_some_iff_append.mp h
  exact ⟨hdue, l₁, l₂, hsplit, fun item hitem => by simpa using hnone item hitem⟩

/-- An echo that is queued is due, and so no job behind it is the first. -/
theorem le_of_echo (hsplit : c.jobs.entries = l₁ ++ (job, time) :: l₂)
    (hnone : ∀ item ∈ l₁, due now item = false) {e : Job} (hecho : e.isEcho = true)
    (hmem : e ∈ c.jobs.keys) : job ≤ e := by
  obtain ⟨t, ht⟩ := SortedMap.mem_keys.mp hmem
  rw [hsplit] at ht
  rcases List.mem_append.mp ht with ht | ht
  · have hdue := hnone _ ht
    rw [due, hecho] at hdue
    cases hdue
  · rcases List.mem_cons.mp ht with heq | ht
    · cases heq
      exact le_refl _
    · exact le_of_lt ((SortedMap.ne_of_split hsplit).2 _ ht)

theorem filter_ahead (hnone : ∀ item ∈ l₁, due now item = false) :
    l₁.filter (fun item => due now item && decide (item.1 < Job.tearEcho)) = [] := by
  refine List.filter_eq_nil_iff.mpr fun item hitem => ?_
  simp [hnone item hitem]

/-- A round that has written a job ahead is where it was, with one job less and less room. -/
theorem forsakes_of_wrote (c' : Connector) {room : Nat} {item : Job × Time}
    (hstatus : c'.status = c.status) (hresend : c'.resend = c.resend)
    (hecho : .linkEcho ∈ c.jobs.keys → .linkEcho ∈ c'.jobs.keys ∨ c.status = .connecting)
    (htear : .tearEcho ∈ c'.jobs.keys → .tearEcho ∈ c.jobs.keys)
    (hahead : c.ahead now = item :: c'.ahead now)
    (hitem : item.1.isEcho = true ∨ now ≤ later now c.resend)
    (h : c'.forsakes now (room - Section.headerSize) = true) : c.forsakes now room = true := by
  obtain ⟨hst, hmem, hagain, hroom⟩ := forsakes_iff.mp h
  rw [hstatus] at hst
  refine forsakes_iff.mpr ⟨?_, htear hmem, ?_, ?_⟩
  · rcases hst with hst | ⟨hst, hno⟩
    · exact .inl hst
    · refine (em (Job.linkEcho ∈ c.jobs.keys)).elim (fun hyes => ?_) fun hno' => .inr ⟨hst, hno'⟩
      exact .inl ((hecho hyes).resolve_left hno)
  · rw [hresend] at hagain
    rcases hagain with hall | hwaits
    · rcases hitem with hi | hwaits
      · left
        intro x hx
        rw [hahead] at hx
        rcases List.mem_cons.mp hx with rfl | hx
        · exact hi
        · exact hall x hx
      · exact .inr hwaits
    · exact .inr hwaits
  · simp only [Section.headerSize] at hroom ⊢
    rw [hahead, List.length_cons]
    omega

/-- The sections of the jobs before the answer to a tear are headers. -/
theorem size_of_lt (hlt : job < .tearEcho) :
    (sectionOf now (job, time)).size = Section.headerSize := by
  cases job with
  | link | linkEcho | tear => rfl
  | tearEcho | ping | pingEcho => exact absurd hlt (by decide)

/-- What writing the first due job does to the jobs ahead. -/
theorem ahead_split (hsplit : c.jobs.entries = l₁ ++ l₂)
    (hnone : ∀ item ∈ l₁, due now item = false) :
    c.ahead now = l₂.filter fun item => due now item && decide (item.1 < .tearEcho) := by
  rw [ahead, hsplit, List.filter_append, filter_ahead hnone, List.nil_append]

/-- A job that is put off is out of the way. One that is due again at once keeps the loop from
getting further. -/
theorem modify_spares {room : Nat} (hsplit : c.jobs.entries = l₁ ++ (job, time) :: l₂)
    (hnone : ∀ item ∈ l₁, due now item = false) (hdue : due now (job, time) = true)
    (hlt : job < .tearEcho) (hno : job.isEcho = false) (h : c.forsakes now room = false) :
    Connector.forsakes now (room - Section.headerSize)
      { c with jobs := c.jobs.modify job fun _ => later now c.resend } = false := by
  have hentries := SortedMap.entries_modify hsplit fun _ => later now c.resend
  have hahead := ahead_split hsplit hnone
  have hahead' := ahead_split
    (c := { c with jobs := c.jobs.modify job fun _ => later now c.resend }) hentries hnone
  rw [List.filter_cons_of_pos (by simp [hdue, hlt])] at hahead
  refine Bool.eq_false_iff.mpr fun hyes => ?_
  by_cases hwaits : now ≤ later now c.resend
  · have hlater : due now (job, later now c.resend) = false := by
      simp only [due, hno, Bool.false_or, decide_eq_false_iff_not]
      exact Int.not_lt.mpr hwaits
    rw [List.filter_cons_of_neg (by simp [hlater])] at hahead'
    have hback : c.forsakes now room = true := by
      refine forsakes_of_wrote { c with jobs := c.jobs.modify job fun _ => later now c.resend }
        rfl rfl ?_ ?_ (hahead.trans (congrArg _ hahead'.symm)) (.inr hwaits) hyes
      · intro hmem
        rw [SortedMap.keys_modify]
        exact .inl hmem
      · intro hmem
        rw [SortedMap.keys_modify] at hmem
        exact hmem
    rw [h] at hback
    cases hback
  · have hagain : due now (job, later now c.resend) = true := by
      simp only [due, hno, Bool.false_or, decide_eq_true_eq]
      exact Int.not_le.mp hwaits
    rw [List.filter_cons_of_pos (by simp [hagain, hlt])] at hahead'
    obtain ⟨_, _, hall | hwaits', _⟩ := forsakes_iff.mp hyes
    · have hecho := hall (job, later now c.resend) (by rw [hahead']; exact List.mem_cons_self)
      rw [hno] at hecho
      cases hecho
    · exact hwaits hwaits'

/-- One job written: the connection is made, or the loop is no closer to an answer. -/
theorem wrote_spares {room : Nat} (hroom : Section.headerSize ≤ room)
    (hfind : c.jobs.entries.find? (due now) = some (job, time)) (hrank : c.status.rank = 2)
    (h : c.forsakes now room = false) :
    (c.wrote now job).onConnect = none ∨ ((c.wrote now job).status.rank = 2 ∧
      (c.wrote now job).forsakes now (room - (sectionOf now (job, time)).size) = false) := by
  obtain ⟨hdue, l₁, l₂, hsplit, hnone⟩ := find_due hfind
  have hahead := ahead_split hsplit hnone
  have hle := fun (echo : Job) hecho hmem => le_of_echo hsplit hnone (e := echo) hecho hmem
  -- behind the answer to a tear there is none to write
  have hlate : .tearEcho < job → ∀ c' : Connector,
      (.tearEcho ∈ c'.jobs.keys → .tearEcho ∈ c.jobs.keys) → ∀ n, c'.forsakes now n = false := by
    intro hlt c' hkeys n
    refine Bool.eq_false_iff.mpr fun hyes => ?_
    exact absurd hlt (not_lt.mpr (hle _ rfl (hkeys (forsakes_iff.mp hyes).2.1)))
  cases job with
  | link =>
    rw [size_of_lt (by decide)]
    exact .inr ⟨hrank, modify_spares hsplit hnone hdue (by decide) rfl h⟩
  | tear =>
    rw [size_of_lt (by decide)]
    exact .inr ⟨hrank, modify_spares hsplit hnone hdue (by decide) rfl h⟩
  | linkEcho =>
    rw [size_of_lt (by decide)]
    simp only [wrote]
    split
    · exact .inl rfl
    · next hacc =>
      have hconnecting : c.status = .connecting := by
        revert hrank hacc
        cases c.status <;> decide
      have hentries := SortedMap.entries_erase hsplit
      have hahead' := ahead_split (c := { c with jobs := c.jobs.erase .linkEcho }) hentries hnone
      rw [List.filter_cons_of_pos (by simp [hdue]; decide)] at hahead
      refine .inr ⟨hrank, Bool.eq_false_iff.mpr fun hyes => ?_⟩
      have hback : c.forsakes now room = true :=
        forsakes_of_wrote { c with jobs := c.jobs.erase .linkEcho } rfl rfl
          (fun _ => .inr hconnecting) (fun hmem => (SortedMap.mem_keys_erase.mp hmem).1)
          (hahead.trans (congrArg _ hahead'.symm)) (.inl rfl) hyes
      rw [h] at hback
      cases hback
  | tearEcho =>
    -- nothing is ahead, so this is the answer that the hypothesis excludes
    have hempty : c.ahead now = [] := by
      rw [hahead, List.filter_cons_of_neg (by simp)]
      refine List.filter_eq_nil_iff.mpr fun item hitem => ?_
      simp [not_lt.mpr (le_of_lt ((SortedMap.ne_of_split hsplit).2 item hitem))]
    have hyes : c.forsakes now room = true := by
      refine forsakes_iff.mpr ⟨?_, SortedMap.mem_keys.mpr ⟨time, by rw [hsplit]; simp⟩, ?_, ?_⟩
      · by_cases hc : c.status = .connecting
        · exact .inl hc
        · refine .inr ⟨?_, fun hmem => absurd (hle _ rfl hmem) (by decide)⟩
          revert hrank hc
          cases c.status <;> decide
      · rw [hempty]
        exact .inl fun _ hx => absurd hx List.not_mem_nil
      · rw [hempty]
        exact hroom
    rw [h] at hyes
    cases hyes
  | ping =>
    refine .inr ⟨hrank, hlate (by decide) _ (fun hmem => ?_) _⟩
    change _ ∈ (c.jobs.modify _ _).keys at hmem
    rw [SortedMap.keys_modify] at hmem
    exact hmem
  | pingEcho =>
    exact .inr ⟨hrank, hlate (by decide) _ (fun hmem => (SortedMap.mem_keys_erase.mp hmem).1) _⟩

end Round

theorem wrote_onConnect (now : Time) (job : Job) (h : c.onConnect = none) :
    (c.wrote now job).onConnect = none := by
  have hwrote := wrote_wrote now c job
  generalize c.wrote now job = c' at hwrote ⊢
  cases hwrote with
  | linked => rfl
  | finished =>
    rw [postIf_onConnect]
    exact h
  | linkEcho | pingEcho | again => exact h

/-- A loop that does not forsake: when it ends the connection, the handler of the connect is
posted. -/
theorem imbueLoop_spares (now : Time) (fuel : Nat) {room : Nat}
    (h : c.onConnect = none ∨ (c.status.rank = 2 ∧ c.forsakes now room = false)) :
    (imbueLoop now fuel room c).1.onConnect = none ∨
      (imbueLoop now fuel room c).1.status.rank = 2 := by
  induction fuel generalizing room c with
  | zero => exact h.imp_right And.left
  | succ fuel ih =>
    unfold imbueLoop
    split
    · exact h.imp_right And.left
    · next hroom =>
      split
      · exact h.imp_right And.left
      · next item hfind =>
        apply ih
        rcases h with hnone | ⟨hrank, hno⟩
        · exact .inl (c.wrote_onConnect now item.1 hnone)
        · exact wrote_spares (Nat.le_of_not_lt hroom) hfind hrank hno

/-- Does a round of `produce` forsake the handler of the connect? -/
def abandons (q : Qos) (now : Time) (c : Connector) : Bool :=
  !c.timedOut q now && c.forsakes now (q.maxPacketSize - Datagram.headerSize)

theorem imbue_spares {q : Qos} {now : Time} (h : c.abandons q now = false)
    (hslot : c.onConnect = none ∨ c.status.rank = 2) :
    (c.imbue q now (q.maxPacketSize - Datagram.headerSize)).1.onConnect = none ∨
      (c.imbue q now (q.maxPacketSize - Datagram.headerSize)).1.status.rank = 2 := by
  unfold imbue
  split
  · exact hslot
  · next hlate =>
    have hno : c.forsakes now (q.maxPacketSize - Datagram.headerSize) = false := by
      simpa [abandons, hlate] using h
    exact imbueLoop_spares now _ (hslot.imp_right fun hrank => ⟨hrank, hno⟩)

/-- A move that writes nothing leaves the handler of the connect where it is wanted. -/
theorem Move.slot {q : Qos} {f : Section → Prop} {given lost : List Handler} {c' : Connector}
    (h : Move q False f given lost c c') (hslot : c.onConnect = none ∨ c.status.rank = 2) :
    c'.onConnect = none ∨ c'.status.rank = 2 := by
  have hnone : c.status.rank ≠ 2 → c.onConnect = none := fun hne => hslot.resolve_right hne
  cases h with
  | init hc => exact .inl (hnone (by rw [hc]; decide))
  | hear => exact hslot
  | @take _ pin s =>
    have htook := take_took q pin c s
    generalize c.take q pin s = c₁ at htook ⊢
    cases htook with
    | linked => exact .inl rfl
    | tearing hc => exact .inl (hnone (by rw [hc]; decide))
    | finished hc => exact .inl (hnone (by rw [hc]; decide))
    | link | tear | ping | pingEcho | quiet => exact hslot
  | giveUp => exact hslot
  | wrote hw => exact hw.elim
  | refuse => exact hslot
  | connect now k hpin hc =>
    rw [Connector.connect, if_pos hc]
    exact .inr rfl
  | accept now k hpin hc =>
    rw [Connector.accept, if_pos hc]
    exact .inr rfl
  | shutdown =>
    unfold Connector.shutdown
    split
    · exact hslot
    · next hc => exact .inl (hnone (by rw [hc]; decide))
    · exact hslot
    · exact hslot
    · exact hslot
  | error => exact .inl rfl

end Connector

namespace Transport

variable {t t' : Transport} {out : Option Packet}

theorem produce_connector {k : Clock} (hfin : t.connector.status ≠ .finished)
    (h : t.produce k = some (t', out)) : t'.connector =
      (t.connector.imbue t.qos k.connector (t.qos.maxPacketSize - Datagram.headerSize)).1 := by
  rw [produce, if_neg hfin] at h
  dsimp only at h
  obtain ⟨_, h⟩ := Option.ite_none_left_eq_some.mp h
  unfold imbue at h
  dsimp only at h
  split at h
  · cases h
    rfl
  · cases h
    rfl

/-- No read and no write waits. -/
def Idle (t : Transport) : Prop := t.istreamer.readers = [] ∧ t.ostreamer.writers = []

theorem idle_abort (t : Transport) (ec : Ec) : (t.abort ec).Idle := ⟨rfl, rfl⟩

/-- Nothing is queued in a channel that has finished. -/
theorem Idle.act {e : Event} (i : t.Idle) (hfin : t.connector.status = .finished)
    (hsound : e.sound = true) (h : t.act e = some (t', out)) : t'.Idle := by
  have other : ∀ {s : Status}, t.connector.status = s → s ≠ .finished → t'.Idle :=
    fun hs hne => absurd (hs.symm.trans hfin) hne
  have emptied : ∀ {i : Istreamer} {o : Ostreamer} {ec : Ec}, t'.istreamer = i.error ec →
      t'.ostreamer = o.error ec → t'.Idle := by
    intro i o ec sink source
    unfold Idle
    rw [sink, source]
    exact ⟨rfl, rfl⟩
  cases (act_cases hsound h).2 with
  | quiet sink source =>
    unfold Idle
    rw [sink, source]
    exact i
  | opened fresh => exact other fresh (by decide)
  | read _ _ _ linked => exact other linked (by decide)
  | write _ _ _ linked => exact other linked (by decide)
  | parsed _ _ _ _ streams =>
    rw [hfin] at streams
    cases streams
  | closed _ _ _ _ _ _ sink source => exact emptied sink source
  | aborted _ _ _ sink source => exact emptied sink source
  | round k _ _ event speaks =>
    subst event
    rw [act_finished h hfin] at speaks
    cases speaks

end Transport

/-- A channel, and whether the last call of each of its loops found it finished. -/
structure Loops where
  channel : Transport
  produced : Bool
  consumed : Bool

namespace Loops

def create (q : Qos) : Loops := ⟨.create q, false, false⟩

/-- An event of the channel. A call of `produce` or of `consume` ends its loop when it finds the
channel finished. -/
def step (q : Qos) (s : Loops) (e : Event) : Option Loops :=
  ((Transport.system q).step s.channel e).map fun t =>
    { channel := t
      produced := match e with
        | .produce _ => decide (s.channel.connector.status = .finished)
        | _ => s.produced
      consumed := match e with
        | .consume => decide (s.channel.connector.status = .finished)
        | _ => s.consumed }

def system (q : Qos) : System Loops Event where
  init s := s = create q
  step := step q

/-- Is the event no round that answers a tear with the handler of the connect still waiting? -/
def spares (q : Qos) (s : Loops) : Event → Bool
  | .produce k => !s.channel.connector.abandons q k.connector
  | .openAt | .connect _ _ _ _ | .accept _ _ _ _ | .shutdown _ _ | .mistake _ | .read _ _
  | .write _ _ | .feed _ _ | .consume => true

/-- What holds along a run that spares the handler of the connect. -/
structure Inv (q : Qos) (s : Loops) : Prop where
  qos : s.channel.qos = q
  armed : s.channel.connector.Armed
  slot : s.channel.connector.onConnect = none ∨ s.channel.connector.status.rank = 2
  idle : s.produced = true ∨ s.consumed = true →
    s.channel.connector.status = .finished ∧ s.channel.Idle

theorem Inv.create (q : Qos) : Inv q (create q) :=
  ⟨rfl, .create, .inl rfl, fun h => by rcases h with h | h <;> cases h⟩

theorem Inv.step {q : Qos} {s s' : Loops} {e : Event} (i : Inv q s) (hspares : spares q s e = true)
    (h : step q s e = some s') : Inv q s' := by
  obtain ⟨t, hstep, rfl⟩ := Option.map_eq_some_iff.mp h
  obtain ⟨hq, hmoves⟩ := Transport.step_moves i.qos hstep
  obtain ⟨hsound, out, hact⟩ := Transport.step_act hstep
  have hfinal : s.channel.connector.status = .finished → t.connector.status = .finished :=
    fun hfin => Transport.act_finished hact hfin
  have hstill : s.channel.connector.status = .finished → s.channel.Idle → t.Idle :=
    fun hfin hidle => hidle.act hfin hsound hact
  refine ⟨hq, hmoves.induct (fun _ _ _ _ h a => a.move h) i.armed, ?_, ?_⟩
  · cases hw : e.writes with
    | false =>
      rw [hw] at hmoves
      exact (hmoves.mono Bool.false_ne_true fun _ hs => hs).induct
        (P := fun c => c.onConnect = none ∨ c.status.rank = 2) (fun _ _ _ _ h => h.slot) i.slot
    | true =>
      cases e with
      | produce k =>
        have hno : s.channel.connector.abandons q k.connector = false := by
          simpa [spares] using hspares
        by_cases hfin : s.channel.connector.status = .finished
        · rcases Transport.produce_cases hact with ⟨_, rfl, _⟩ | ⟨hne, _⟩
          · exact i.slot
          · exact absurd hfin hne
        · rw [Transport.produce_connector hfin hact, i.qos]
          exact Connector.imbue_spares hno i.slot
      | _ => cases hw
  · intro hflag
    by_cases hfin : s.channel.connector.status = .finished
    · refine ⟨hfinal hfin, ?_⟩
      cases e with
      | produce k =>
        rcases Transport.produce_cases hact with ⟨_, rfl, _⟩ | ⟨hne, _⟩
        · exact Transport.idle_abort _ _
        · exact absurd hfin hne
      | consume =>
        cases hact
        rw [Transport.consume, if_pos hfin]
        exact Transport.idle_abort _ _
      | _ => exact hstill hfin (i.idle hflag).2
    · -- a loop that has stopped found the channel finished
      cases e with
      | produce k =>
        have hc : s.consumed = true := by simpa [hfin] using hflag
        exact absurd (i.idle (.inr hc)).1 hfin
      | consume =>
        have hp : s.produced = true := by simpa [hfin] using hflag
        exact absurd (i.idle (.inl hp)).1 hfin
      | _ => exact absurd (i.idle hflag).1 hfin

/-- Along every run that answers no tear before the connection is made: once the loops have
stopped, the first of them already, no handler waits. -/
theorem stopped_owes_nothing {q : Qos} {es : List Event} {s : Loops}
    (h : (system q).checked (spares q) (create q) es = some s)
    (hstopped : s.produced = true ∨ s.consumed = true) :
    s.channel.connector.status = .finished ∧ s.channel.connector.onConnect = none ∧
      s.channel.connector.onShutdown = none ∧ s.channel.istreamer.readers = [] ∧
      s.channel.ostreamer.writers = [] := by
  have i : Inv q s := by
    have hreach : (system q).Reaches (fun s e => spares q s e = true) s :=
      System.Reaches.checked (fun _ _ h => h) es (.start rfl) h
    refine System.Reaches.invariant (P := Inv q) ?_ ?_ hreach
    · rintro s rfl
      exact .create q
    · intro s e s' hok i hstep
      exact i.step hok hstep
  obtain ⟨hfin, hreaders, hwriters⟩ := i.idle hstopped
  refine ⟨hfin, i.slot.resolve_right (by rw [hfin]; decide), ?_, hreaders, hwriters⟩
  by_contra hne
  have hslot := i.armed.shutdownSlot (Option.isSome_iff_ne_none.mpr hne)
  rw [hfin] at hslot
  cases hslot

/-- A channel that connects, is shut down and stops with a read waiting. -/
theorem stopped_owes_nothing_shutdown :
    ∃ s, (system .default).checked (spares .default) (create .default)
        [.openAt, .connect 1 1 1 .success, .feed 2 ⟨2, [.linkEcho]⟩, .read [0] 7, .shutdown 3 5,
          .produce ⟨4, 4, 4⟩, .feed 5 ⟨2, [.tearEcho]⟩, .consume, .produce ⟨6, 6, 6⟩] = some s ∧
      s.produced = true ∧ s.consumed = true ∧ s.channel.connector.answered = [1, 5] ∧
      s.channel.connector.onConnect = none ∧ s.channel.istreamer.readers = [] := by
  have hsome : ((system .default).checked (spares .default) (create .default)
      [.openAt, .connect 1 1 1 .success, .feed 2 ⟨2, [.linkEcho]⟩, .read [0] 7, .shutdown 3 5,
        .produce ⟨4, 4, 4⟩, .feed 5 ⟨2, [.tearEcho]⟩, .consume, .produce ⟨6, 6, 6⟩]).map
        (fun s => (s.produced, s.consumed, s.channel.connector.answered)) =
      some (true, true, [1, 5]) := by decide +kernel
  obtain ⟨s, hs, hv⟩ := Option.map_eq_some_iff.mp hsome
  simp only [Prod.mk.injEq] at hv
  obtain ⟨hproduced, hconsumed, hanswered⟩ := hv
  obtain ⟨_, hconnect, _, hreaders, _⟩ := stopped_owes_nothing hs (.inl hproduced)
  exact ⟨s, hs, hproduced, hconsumed, hanswered, hconnect, hreaders⟩

/-- A tear answered while the channel is still connecting: both loops stop, and the handler of the
connect waits for ever. -/
theorem connect_forsaken :
    ¬ ∀ (q : Qos) (es : List Event) (s : Loops), (system q).run (create q) es = some s →
      s.channel.connector.status = .finished → s.produced = true → s.consumed = true →
      s.channel.connector.onConnect = none ∧ s.channel.connector.onShutdown = none ∧
        s.channel.istreamer.readers = [] ∧ s.channel.ostreamer.writers = [] := by
  intro hall
  have hsome : ((system .default).run (create .default)
      [.openAt, .connect 1 1 1 .success, .feed 2 ⟨2, [.tear]⟩, .produce ⟨3, 3, 3⟩, .consume,
        .produce ⟨4, 4, 4⟩]).map (fun s => (s.channel.connector.status, s.produced, s.consumed,
          s.channel.connector.onConnect)) = some (.finished, true, true, some 1) := by
    decide +kernel
  obtain ⟨s, hs, hv⟩ := Option.map_eq_some_iff.mp hsome
  simp only [Prod.mk.injEq] at hv
  obtain ⟨hfin, hproduced, hconsumed, hconnect⟩ := hv
  have hnone := (hall _ _ s hs hfin hproduced hconsumed).1
  rw [hconnect] at hnone
  cases hnone

end Loops

end Tubus.Udp
