import Tubus.Laws.Callbacks
import Tubus.Laws.Handshake
import Tubus.Laws.Shutdown

/-!
# One round trip

A handshake and a shutdown each ask a question, over and over, until the answer comes. Whatever
was lost or repeated before, one packet that gets through in each direction is enough: the
question that is due is written, the peer that reads it owes the answer, its next round pays it,
and the answer that is read settles the matter on both sides.

What can go wrong in a round is that other sections take up the room. The jobs are written in the
order of their codes, so a question or an answer waits for the few before it, each once
(`imbueLoop_writes`).
-/

namespace Tubus.Udp

open Lib

namespace Connector

variable {q : Qos} {c : Connector}

/-! ## What a packet does and what a round does -/

/-- A section that comes in a packet has done its work at the end of the packet. -/
theorem parse_hits {now : Time} {p : Packet} {s₀ : Section} {P Q : Connector → Prop}
    (keep : ∀ c s, s ∈ p.body → P c → P (c.take q p.pin s) ∨ Q (c.take q p.pin s))
    (stay : ∀ c s, s ∈ p.body → Q c → Q (c.take q p.pin s))
    (hit : ∀ c, P c → Q (c.take q p.pin s₀)) (hmem : s₀ ∈ p.body)
    (hc : P { c with seen := now }) : Q (c.parse q now p) :=
  foldl_hits keep stay hit hmem hc

/-- A job whose section a round writes has been done at the end of the round. -/
theorem imbue_hits (now : Time) (room : Nat) (s₀ : Section) {P Q : Connector → Prop}
    (keep : ∀ c item, item ∈ c.jobs.entries → P c →
      (P (c.wrote now item.1) ∧ sectionOf now item ≠ s₀) ∨ Q (c.wrote now item.1))
    (stay : ∀ c item, item ∈ c.jobs.entries → Q c → Q (c.wrote now item.1))
    (hc : P c) (hmem : s₀ ∈ (c.imbue q now room).2) : Q (c.imbue q now room).1 := by
  unfold imbue at hmem ⊢
  split at hmem
  · cases hmem
  · next hlate =>
    rw [if_neg hlate]
    have hall := @imbueLoop_induct c now (fun c' l => (P c' ∧ s₀ ∉ l) ∨ Q c') ?_ room room []
      (.inl ⟨hc, List.not_mem_nil⟩)
    · rw [List.nil_append] at hall
      rcases hall with ⟨_, hno⟩ | hdone
      · exact absurd hmem hno
      · exact hdone
    · rintro c' l item hitem _ (⟨h, hno⟩ | h)
      · rcases keep c' item hitem h with ⟨h', hne⟩ | h'
        · refine .inl ⟨h', fun hin => ?_⟩
          rcases List.mem_append.mp hin with hin | hin
          · exact hno hin
          · exact hne (List.mem_singleton.mp hin).symm
        · exact .inr h'
      · exact .inr (stay c' item hitem h)

/-! ## What is due is written -/

/-- The jobs that are due and come before one in the packet. -/
def prior (now : Time) (target : Job) (c : Connector) : List (Job × Time) :=
  c.jobs.entries.filter fun item => decide (item.1 < target) && due now item

/-- To write a job that is due and comes before another leaves one less before that one, as long
as the job is not due again at once. -/
theorem prior_wrote {now : Time} {target : Job} {item : Job × Time}
    (hmem : item ∈ c.jobs.entries) (hdue : due now item = true) (hlt : item.1 < target)
    (hagain : item.1.isEcho = false → now ≤ later now c.resend) :
    ((c.wrote now item.1).prior now target).length < (c.prior now target).length := by
  obtain ⟨job, time⟩ := item
  obtain ⟨l₁, l₂, hsplit⟩ := List.append_of_mem hmem
  have hbefore : (c.prior now target).length =
      (l₁.filter fun item => decide (item.1 < target) && due now item).length + 1 +
        (l₂.filter fun item => decide (item.1 < target) && due now item).length := by
    unfold prior
    rw [hsplit, List.filter_append, List.filter_cons_of_pos (by simp [hlt, hdue]),
      List.length_append, List.length_cons]
    omega
  have hsome : ∀ {l : List (Job × Time)}, l = l₁ ++ l₂ →
      (l.filter fun item => decide (item.1 < target) && due now item).length <
        (c.prior now target).length := by
    rintro l rfl
    rw [hbefore, List.filter_append, List.length_append]
    omega
  have hwrote := wrote_wrote now c job
  generalize c.wrote now job = c' at hwrote ⊢
  cases hwrote with
  | linked | linkEcho | pingEcho | finished => exact hsome (SortedMap.entries_erase hsplit)
  | again own =>
    have hlater : due now (job, later now c.resend) = false := by
      simp only [due, own, Bool.false_or, decide_eq_false_iff_not]
      exact Int.not_lt.mpr (hagain own)
    show ((c.jobs.modify job _).entries.filter _).length < _
    rw [SortedMap.entries_modify hsplit, List.filter_append,
      List.filter_cons_of_neg (by simp [hlater]), List.length_append, hbefore]
    omega

/-- A job that is not written stays as it is. -/
theorem wrote_mem {now : Time} {job : Job} {item : Job × Time} (hmem : item ∈ c.jobs.entries)
    (hne : item.1 ≠ job) : item ∈ (c.wrote now job).jobs.entries := by
  have hwrote := wrote_wrote now c job
  generalize c.wrote now job = c' at hwrote ⊢
  cases hwrote with
  | linked | linkEcho | pingEcho | finished => exact SortedMap.mem_erase.mpr ⟨hmem, hne⟩
  | again => exact SortedMap.mem_modify.mpr (.inl ⟨hmem, hne⟩)

/-- The loop writes a job that is due, if there is room for it and for the jobs before it. The
induction is on how many of those are due. -/
theorem imbueLoop_writes {now : Time} {target : Job} {time : Time} (n fuel room : Nat)
    (hsmall : target ≤ .tearEcho) (hmem : (target, time) ∈ c.jobs.entries)
    (hdue : due now (target, time) = true)
    (hagain : ∀ job ∈ c.jobs.keys, job < target → job.isEcho = false → now ≤ later now c.resend)
    (hcount : (c.prior now target).length ≤ n) (hroom : (n + 1) * Section.headerSize ≤ room)
    (hfuel : n < fuel) : sectionOf now (target, time) ∈ (imbueLoop now fuel room c).2 := by
  induction fuel generalizing n room c with
  | zero => omega
  | succ fuel ih =>
    have hheader : ¬ room < Section.headerSize := by
      rw [Nat.add_mul] at hroom
      omega
    rw [imbueLoop, if_neg hheader]
    cases hfind : c.jobs.entries.find? (due now) with
    | none => exact absurd hdue (List.find?_eq_none.mp hfind _ hmem)
    | some item =>
      show _ ∈ sectionOf now item :: _
      obtain ⟨job, time'⟩ := item
      have hitem := List.mem_of_find?_eq_some hfind
      have hdue' : due now (job, time') = true := List.find?_some hfind
      rcases lt_trichotomy job target with hlt | rfl | hgt
      · -- one job less is due before the one that is meant
        have hless := prior_wrote hitem hdue' hlt
          (hagain job (SortedMap.mem_keys.mpr ⟨time', hitem⟩) hlt)
        have hsize : (sectionOf now (job, time')).size = Section.headerSize :=
          size_of_lt (lt_of_lt_of_le hlt hsmall)
        refine List.mem_cons_of_mem _ (ih (n - 1) _ ?_ ?_ ?_ ?_ ?_)
        · exact wrote_mem hmem (ne_of_gt hlt)
        · intro job' hjob' hlt' hown
          rw [(c.wrote_keeps now job).2.2]
          exact hagain job' (wrote_keys now job hjob') hlt' hown
        · omega
        · rw [hsize]
          obtain ⟨m, rfl⟩ := Nat.exists_eq_add_of_le' (Nat.lt_of_le_of_lt (Nat.zero_le _)
            (Nat.lt_of_lt_of_le hless hcount))
          rw [Nat.succ_mul] at hroom
          exact Nat.le_sub_of_add_le hroom
        · omega
      · rw [SortedMap.eq_of_mem hmem hitem]
        exact List.mem_cons_self
      · -- the first job that is due comes no later than any other
        obtain ⟨_, l₁, l₂, hsplit, hnone⟩ := find_due hfind
        rw [hsplit] at hmem
        rcases List.mem_append.mp hmem with hin | hin
        · exact absurd (hdue.symm.trans (hnone _ hin)) Bool.noConfusion
        · rcases List.mem_cons.mp hin with heq | hin
          · cases heq
            exact absurd hgt (lt_irrefl _)
          · exact absurd ((SortedMap.ne_of_split hsplit).2 _ hin) (not_lt_of_gt hgt)

/-- No more than three jobs come before the answer to a tear. -/
theorem prior_length {now : Time} {target : Job} (hsmall : target ≤ .tearEcho) :
    (c.prior now target).length ≤ 3 := by
  have hnodup : ((c.prior now target).map Prod.fst).Nodup := by
    refine List.Nodup.sublist (List.Sublist.map _ List.filter_sublist) ?_
    exact List.pairwise_map.mpr (c.jobs.sorted.imp fun h => ne_of_lt h)
  have hsub : (c.prior now target).map Prod.fst ⊆ [.link, .linkEcho, .tear] := by
    intro job hjob
    obtain ⟨item, hitem, rfl⟩ := List.mem_map.mp hjob
    have htest := (List.mem_filter.mp hitem).2
    have hlt : item.1 < .tearEcho :=
      lt_of_lt_of_le (of_decide_eq_true (Bool.and_eq_true_iff.mp htest).1) hsmall
    revert hlt
    cases item.1 <;> decide
  have hlen := hnodup.length_le_of_subset hsub
  rwa [List.length_map] at hlen

/-- A round in which the connector does not give up writes a job that is due, if it is one of the
first four. -/
theorem imbue_writes_due {now : Time} {room : Nat} {target : Job} {time : Time}
    (hlate : c.timedOut q now = false) (hsmall : target ≤ .tearEcho)
    (hmem : (target, time) ∈ c.jobs.entries) (hdue : due now (target, time) = true)
    (hagain : ∀ job ∈ c.jobs.keys, job < target → job.isEcho = false → now ≤ later now c.resend)
    (hroom : 4 * Section.headerSize ≤ room) :
    sectionOf now (target, time) ∈ (c.imbue q now room).2 := by
  rw [imbue, hlate, if_neg Bool.false_ne_true]
  refine imbueLoop_writes 3 room room hsmall hmem hdue hagain (prior_length hsmall) hroom ?_
  rw [Section.headerSize] at hroom
  omega

/-! ## Questions and answers -/

/-- A section that is taken removes no answer that is owed. -/
theorem take_owed {pin : Nat} {s : Section} {j : Job} (hj : j = .linkEcho ∨ j = .tearEcho)
    (h : j ∈ c.jobs.keys) : j ∈ (c.take q pin s).jobs.keys := by
  have hemplace : ∀ {m : SortedMap Job Time} {j' : Job} {time : Time}, j ∈ m.keys →
      j ∈ (m.emplace j' time).keys := fun hk => SortedMap.mem_keys_emplace.mpr (.inl hk)
  have herase : ∀ {j' : Job}, j' = .link ∨ j' = .tear ∨ j' = .ping →
      j ∈ (c.jobs.erase j').keys := by
    intro j' hj'
    refine SortedMap.mem_keys_erase.mpr ⟨h, ?_⟩
    rcases hj with rfl | rfl <;> rcases hj' with rfl | rfl | rfl <;> exact Job.noConfusion
  have htook := take_took q pin c s
  generalize c.take q pin s = c' at htook ⊢
  cases htook with
  | link | tearing | tear | ping => exact hemplace h
  | linked => exact hemplace (herase (.inl rfl))
  | pingEcho => exact hemplace (herase (.inr (.inr rfl)))
  | finished => exact herase (.inr (.inl rfl))
  | quiet => exact h

/-- Who reads a `link` owes its echo. -/
theorem parse_link {now : Time} {p : Packet} (h : .link ∈ p.body) :
    .linkEcho ∈ (c.parse q now p).jobs.keys :=
  parse_hits (P := fun _ => True) (Q := fun c => .linkEcho ∈ c.jobs.keys)
    (fun _ _ _ _ => .inl trivial) (fun _ _ _ => take_owed (.inl rfl))
    (fun _ _ => SortedMap.mem_keys_emplace.mpr (.inr rfl)) h trivial

/-- Who reads a `tear` owes its echo. -/
theorem parse_tear {now : Time} {p : Packet} (h : .tear ∈ p.body) :
    .tearEcho ∈ (c.parse q now p).jobs.keys := by
  refine parse_hits (P := fun _ => True) (Q := fun c => .tearEcho ∈ c.jobs.keys)
    (fun _ _ _ _ => .inl trivial) (fun _ _ _ => take_owed (.inr rfl)) (fun c _ => ?_) h trivial
  have hkey : .tearEcho ∈ (c.jobs.emplace .tearEcho zeroTime).keys :=
    SortedMap.mem_keys_emplace.mpr (.inr rfl)
  simp only [take]
  split <;> exact hkey

theorem told_mono_post (k : Handler) (p : Post) : c.told k ≤ (c.post p).told k := by
  rw [told, told, post, List.count_append]
  exact Nat.le_add_right _ _

theorem told_lt_post {k : Handler} {o : Option Handler} (h : o = some k) :
    c.told k < (c.post (.handler o .success)).told k := by
  rw [told, told, post, List.count_append, h, List.count_singleton, if_pos (beq_self_eq_true _)]
  exact Nat.lt_succ_self _

theorem take_told {pin : Nat} {s : Section} (k : Handler) :
    c.told k ≤ (c.take q pin s).told k := by
  have htook := take_took q pin c s
  generalize c.take q pin s = c' at htook ⊢
  cases htook with
  | linked | finished => exact c.told_mono_post k _
  | link | tearing | tear | ping | pingEcho | quiet => exact Nat.le_refl _

theorem parse_told {now : Time} {p : Packet} (k : Handler) :
    c.told k ≤ (c.parse q now p).told k :=
  parse_induct (P := fun c' => c.told k ≤ c'.told k)
    (fun _ _ _ h => Nat.le_trans h (take_told k)) (Nat.le_refl _)

theorem postIf_told (k : Handler) (o : Option Handler) (ec : Ec) :
    c.told k ≤ (c.postIf o ec).told k := by
  unfold postIf
  split
  · exact c.told_mono_post k _
  · exact Nat.le_refl _

theorem wrote_told (now : Time) (job : Job) (k : Handler) :
    c.told k ≤ (c.wrote now job).told k := by
  have hwrote := wrote_wrote now c job
  generalize c.wrote now job = c' at hwrote ⊢
  cases hwrote with
  | linked => exact c.told_mono_post k _
  | finished => exact postIf_told k _ _
  | linkEcho | pingEcho | again => exact Nat.le_refl _

theorem imbue_told {now : Time} {room : Nat} (k : Handler) :
    c.told k ≤ (c.imbue q now room).1.told k :=
  imbue_induct q now (P := fun c' _ => c.told k ≤ c'.told k)
    (fun h => Nat.le_trans h (told_mono_post k _))
    (fun _ _ _ _ _ h => Nat.le_trans h (wrote_told _ _ k)) room (Nat.le_refl _)

/-- A connecting side that reads the echo of its `link` is linked, unless the packet tears down,
and says so to its handler. -/
theorem parse_linkEcho {now : Time} {p : Packet} {k : Handler} (hc : c.status = .connecting)
    (hslot : c.onConnect = some k) (htear : .tear ∉ p.body) (h : .linkEcho ∈ p.body) :
    (c.parse q now p).status = .linked ∧ c.told k < (c.parse q now p).told k := by
  refine parse_hits
    (P := fun c' => c'.status = .connecting ∧ c'.onConnect = some k ∧ c.told k ≤ c'.told k)
    (Q := fun c' => c'.status = .linked ∧ c.told k < c'.told k) ?_ ?_ ?_ h
    ⟨hc, hslot, Nat.le_refl _⟩
  · rintro c₁ s hs ⟨hc₁, hslot₁, htold⟩
    have htook := take_took q p.pin c₁ s
    generalize c₁.take q p.pin s = c₂ at htook ⊢
    cases htook with
    | linked => exact .inr ⟨rfl, Nat.lt_of_le_of_lt htold (told_lt_post hslot₁)⟩
    | tearing => exact absurd hs htear
    | finished hc => exact absurd (hc₁.symm.trans hc) Status.noConfusion
    | link | tear | ping | pingEcho | quiet => exact .inl ⟨hc₁, hslot₁, htold⟩
  · rintro c₁ s hs ⟨hc₁, htold⟩
    refine ⟨?_, Nat.lt_of_lt_of_le htold (take_told k)⟩
    have htook := take_took q p.pin c₁ s
    generalize c₁.take q p.pin s = c₂ at htook ⊢
    cases htook with
    | linked => rfl
    | tearing => exact absurd hs htear
    | finished hc => exact absurd (hc₁.symm.trans hc) Status.noConfusion
    | link | tear | ping | pingEcho | quiet => exact hc₁
  · rintro c₁ ⟨hc₁, hslot₁, htold⟩
    rw [take, if_pos hc₁]
    exact ⟨rfl, Nat.lt_of_le_of_lt htold (told_lt_post hslot₁)⟩

/-- A side that shuts down and reads the echo of its `tear` is finished, and says so to its
handler. -/
theorem parse_tearEcho {now : Time} {p : Packet} {k : Handler} (hc : c.status = .shutting)
    (hslot : c.onShutdown = some k) (h : .tearEcho ∈ p.body) :
    (c.parse q now p).status = .finished ∧ c.told k < (c.parse q now p).told k := by
  refine parse_hits
    (P := fun c' => c'.status = .shutting ∧ c'.onShutdown = some k ∧ c.told k ≤ c'.told k)
    (Q := fun c' => c'.status = .finished ∧ c.told k < c'.told k) ?_ ?_ ?_ h
    ⟨hc, hslot, Nat.le_refl _⟩
  · rintro c₁ s _ ⟨hc₁, hslot₁, htold⟩
    have htook := take_took q p.pin c₁ s
    generalize c₁.take q p.pin s = c₂ at htook ⊢
    cases htook with
    | finished => exact .inr ⟨rfl, Nat.lt_of_le_of_lt htold (told_lt_post hslot₁)⟩
    | linked hc => exact absurd (hc₁.symm.trans hc) Status.noConfusion
    | tearing hc => exact absurd (hc₁.symm.trans hc) Status.noConfusion
    | link | tear | ping | pingEcho | quiet => exact .inl ⟨hc₁, hslot₁, htold⟩
  · rintro c₁ s _ ⟨hc₁, htold⟩
    have hrank := c₁.take_rank q p.pin s
    rw [hc₁] at hrank
    exact ⟨Status.finished_of_rank hrank, Nat.lt_of_lt_of_le htold (take_told k)⟩
  · rintro c₁ ⟨hc₁, hslot₁, htold⟩
    rw [take, if_pos hc₁]
    exact ⟨rfl, Nat.lt_of_le_of_lt htold (told_lt_post hslot₁)⟩

/-- A round that writes the echo of a `link` links an accepting side, and says so to its
handler. -/
theorem imbue_linkEcho {now : Time} {room : Nat} {k : Handler} (hc : c.status = .accepting)
    (hslot : c.onConnect = some k) (hecho : .tearEcho ∉ c.jobs.keys)
    (h : .linkEcho ∈ (c.imbue q now room).2) :
    (c.imbue q now room).1.status = .linked ∧ c.told k < (c.imbue q now room).1.told k := by
  have hall := imbue_hits now room .linkEcho
    (P := fun c' => c'.status = .accepting ∧ c'.onConnect = some k ∧ c.told k ≤ c'.told k ∧
      .tearEcho ∉ c'.jobs.keys)
    (Q := fun c' => (c'.status = .linked ∧ c.told k < c'.told k) ∧ .tearEcho ∉ c'.jobs.keys)
    ?_ ?_ ⟨hc, hslot, Nat.le_refl _, hecho⟩ h
  · exact hall.1
  · rintro c₁ ⟨job, time⟩ hmem ⟨hc₁, hslot₁, htold, hecho₁⟩
    have hkeys : .tearEcho ∉ (c₁.wrote now job).jobs.keys := fun h => hecho₁ (wrote_keys now job h)
    have hwrote := wrote_wrote now c₁ job
    generalize c₁.wrote now job = c₂ at hwrote hkeys ⊢
    cases hwrote with
    | linked => exact .inr ⟨⟨rfl, Nat.lt_of_le_of_lt htold (told_lt_post hslot₁)⟩, hkeys⟩
    | linkEcho hc => exact absurd hc₁ hc
    | finished => exact absurd (SortedMap.mem_keys.mpr ⟨time, hmem⟩) hecho₁
    | pingEcho => exact .inl ⟨⟨hc₁, hslot₁, htold, hkeys⟩, Section.noConfusion⟩
    | again own =>
      refine .inl ⟨⟨hc₁, hslot₁, htold, hkeys⟩, ?_⟩
      cases job <;> first | exact Section.noConfusion | cases own
  · rintro c₁ ⟨job, time⟩ hmem ⟨⟨hc₁, htold⟩, hecho₁⟩
    have hkeys : .tearEcho ∉ (c₁.wrote now job).jobs.keys := fun h => hecho₁ (wrote_keys now job h)
    refine ⟨⟨?_, Nat.lt_of_lt_of_le htold (wrote_told _ _ k)⟩, hkeys⟩
    have hwrote := wrote_wrote now c₁ job
    generalize c₁.wrote now job = c₂ at hwrote ⊢
    cases hwrote with
    | linked => rfl
    | finished => exact absurd (SortedMap.mem_keys.mpr ⟨time, hmem⟩) hecho₁
    | linkEcho | pingEcho | again => exact hc₁

/-- A round without the echo of a `tear` leaves a side linked or connecting that is so. -/
theorem imbue_open (q : Qos) (now : Time) (room : Nat) (hc : c.status ≠ .accepting)
    (hecho : .tearEcho ∉ c.jobs.keys) :
    (c.imbue q now room).1.status = c.status ∧
      (c.imbue q now room).1.onConnect = c.onConnect := by
  have hall := imbue_induct q now (c := c)
    (P := fun c' _ => (c'.status = c.status ∧ c'.onConnect = c.onConnect) ∧
      .tearEcho ∉ c'.jobs.keys) id ?_ room ⟨⟨rfl, rfl⟩, hecho⟩
  · exact hall.1
  · rintro c₁ _ ⟨job, time⟩ hmem _ ⟨⟨hc₁, hslot₁⟩, hecho₁⟩
    refine ⟨?_, fun h => hecho₁ (wrote_keys now job h)⟩
    have hwrote := wrote_wrote now c₁ job
    generalize c₁.wrote now job = c₂ at hwrote ⊢
    cases hwrote with
    | linked hacc => exact absurd (hc₁.symm.trans hacc) hc
    | finished => exact absurd (SortedMap.mem_keys.mpr ⟨time, hmem⟩) hecho₁
    | linkEcho | pingEcho | again => exact ⟨hc₁, hslot₁⟩

/-- A packet without a `tear` leaves a side as it is that is not closing, but for the one that
connects, which it may link. -/
theorem parse_open (q : Qos) (now : Time) {p : Packet} (hc : c.status ≠ .shutting)
    (htear : .tear ∉ p.body) :
    ((c.parse q now p).status = c.status ∧ (c.parse q now p).onConnect = c.onConnect) ∨
      (c.status = .connecting ∧ (c.parse q now p).status = .linked) := by
  refine parse_induct (P := fun c' => (c'.status = c.status ∧ c'.onConnect = c.onConnect) ∨
    (c.status = .connecting ∧ c'.status = .linked)) ?_ (.inl ⟨rfl, rfl⟩)
  intro c₁ s hs h₁
  have htook := take_took q p.pin c₁ s
  generalize c₁.take q p.pin s = c₂ at htook ⊢
  cases htook with
  | linked hc₁ =>
    rcases h₁ with ⟨hsame, _⟩ | ⟨hconnecting, _⟩
    · exact .inr ⟨hsame.symm.trans hc₁, rfl⟩
    · exact .inr ⟨hconnecting, rfl⟩
  | tearing => exact absurd hs htear
  | finished hc₁ =>
    rcases h₁ with ⟨hsame, _⟩ | ⟨_, hlinked⟩
    · exact absurd (hsame.symm.trans hc₁) hc
    · exact absurd (hlinked.symm.trans hc₁) Status.noConfusion
  | link | tear | ping | pingEcho | quiet => exact h₁

/-- A round that writes the echo of a `tear` says so to the handler of the shutdown. -/
theorem imbue_tearEcho {now : Time} {room : Nat} {k : Handler} (hslot : c.onShutdown = some k)
    (h : .tearEcho ∈ (c.imbue q now room).2) : c.told k < (c.imbue q now room).1.told k := by
  refine imbue_hits now room .tearEcho
    (P := fun c' => c'.onShutdown = some k ∧ c.told k ≤ c'.told k)
    (Q := fun c' => c.told k < c'.told k) ?_ ?_ ⟨hslot, Nat.le_refl _⟩ h
  · rintro c₁ ⟨job, time⟩ _ ⟨hslot₁, htold⟩
    have hgrow := c₁.wrote_told now job k
    have hwrote := wrote_wrote now c₁ job
    generalize c₁.wrote now job = c₂ at hwrote hgrow ⊢
    cases hwrote with
    | finished =>
      refine .inr (Nat.lt_of_le_of_lt htold ?_)
      rw [postIf, if_pos (by rw [hslot₁]; rfl)]
      exact told_lt_post hslot₁
    | linked | linkEcho | pingEcho =>
      exact .inl ⟨⟨hslot₁, Nat.le_trans htold hgrow⟩, Section.noConfusion⟩
    | again own =>
      refine .inl ⟨⟨hslot₁, Nat.le_trans htold hgrow⟩, ?_⟩
      cases job <;> first | exact Section.noConfusion | cases own
  · rintro c₁ ⟨job, time⟩ _ htold
    exact Nat.lt_of_lt_of_le htold (wrote_told _ _ k)

/-- A round leaves a side that shuts down as it is, or finishes it and says so to its handler. -/
theorem imbue_shutting {now : Time} {room : Nat} (hc : c.status = .shutting) :
    ((c.imbue q now room).1.status = .shutting ∧
      (c.imbue q now room).1.onShutdown = c.onShutdown) ∨
    ((c.imbue q now room).1.status = .finished ∧
      ∀ k, c.onShutdown = some k → c.told k < (c.imbue q now room).1.told k) := by
  have hall := imbue_induct q now (c := c)
    (P := fun c' _ => (∀ k, c.told k ≤ c'.told k) ∧
      ((c'.status = .shutting ∧ c'.onShutdown = c.onShutdown) ∨
        (c'.status = .finished ∧ ∀ k, c.onShutdown = some k → c.told k < c'.told k)))
    ?_ ?_ room ⟨fun _ => Nat.le_refl _, .inl ⟨hc, rfl⟩⟩
  · exact hall.2
  · rintro ⟨htold, hstate⟩
    refine ⟨fun k => Nat.le_trans (htold k) (told_mono_post k _), hstate.imp id ?_⟩
    exact fun hfin => ⟨hfin.1, fun k hk => Nat.lt_of_lt_of_le (hfin.2 k hk) (told_mono_post k _)⟩
  · rintro c₁ _ ⟨job, time⟩ _ _ ⟨htold, hstate⟩
    refine ⟨fun k => Nat.le_trans (htold k) (wrote_told _ _ k), ?_⟩
    rcases hstate with ⟨hc₁, hslot₁⟩ | ⟨hc₁, hgrown⟩
    · have hwrote := wrote_wrote now c₁ job
      generalize c₁.wrote now job = c₂ at hwrote ⊢
      cases hwrote with
      | linked hacc => exact absurd (hc₁.symm.trans hacc) Status.noConfusion
      | finished =>
        refine .inr ⟨rfl, fun k hk => Nat.lt_of_le_of_lt (htold k) ?_⟩
        have hk₁ := hslot₁.trans hk
        rw [postIf, if_pos (by rw [hk₁]; rfl)]
        exact told_lt_post hk₁
      | linkEcho | pingEcho | again => exact .inl ⟨hc₁, hslot₁⟩
    · have hrank := c₁.wrote_rank now job
      rw [hc₁] at hrank
      refine .inr ⟨Status.finished_of_rank hrank, fun k hk => ?_⟩
      exact Nat.lt_of_lt_of_le (hgrown k hk) (wrote_told _ _ k)

/-- A packet keeps the handler of a shutdown, unless it finishes the connection. -/
theorem parse_onShutdown {now : Time} {p : Packet} :
    (c.parse q now p).status = .finished ∨ (c.parse q now p).onShutdown = c.onShutdown := by
  refine parse_induct (P := fun c' => c'.status = .finished ∨ c'.onShutdown = c.onShutdown) ?_
    (.inr rfl)
  rintro c₁ s _ (hfin | hslot)
  · have hrank := c₁.take_rank q p.pin s
    rw [hfin] at hrank
    exact .inl (Status.finished_of_rank hrank)
  · have htook := take_took q p.pin c₁ s
    generalize c₁.take q p.pin s = c₂ at htook ⊢
    cases htook with
    | finished => exact .inl rfl
    | link | linked | tearing | tear | ping | pingEcho | quiet => exact .inr hslot

/-! ## Who asks -/

/-- Only a side that connects asks for a link, and only one that shuts down asks for a tear. -/
structure Asks (c : Connector) : Prop where
  link : .link ∈ c.jobs.keys → c.status = .connecting ∨ c.status = .finished
  tear : .tear ∈ c.jobs.keys → c.status = .shutting ∨ c.status = .finished

namespace Asks

theorem create : Asks .create where
  link h := by cases h
  tear h := by cases h

theorem finish (c : Connector) (hc : c.status = .finished) : Asks c :=
  ⟨fun _ => .inr hc, fun _ => .inr hc⟩

/-- No question is added, and one that stays finds the state it belongs to. -/
theorem keep {c' : Connector} (a : Asks c) (hstatus : c'.status = c.status)
    (hkeys : ∀ j, j = .link ∨ j = .tear → j ∈ c'.jobs.keys → j ∈ c.jobs.keys) : Asks c' := by
  refine ⟨fun h => ?_, fun h => ?_⟩ <;> rw [hstatus]
  · exact a.link (hkeys _ (.inl rfl) h)
  · exact a.tear (hkeys _ (.inr rfl) h)

/-- A state in which nothing was asked, with one question at most to come. -/
theorem turn {c' : Connector} (a : Asks c)
    (hc : c.status ≠ .connecting ∧ c.status ≠ .shutting ∧ c.status ≠ .finished)
    (hlink : .link ∈ c'.jobs.keys → .link ∈ c.jobs.keys ∨ c'.status = .connecting)
    (htear : .tear ∈ c'.jobs.keys → .tear ∈ c.jobs.keys ∨ c'.status = .shutting) : Asks c' := by
  obtain ⟨hconnecting, hshutting, hfinished⟩ := hc
  refine ⟨fun h => ?_, fun h => ?_⟩
  · rcases hlink h with h | h
    · exact absurd (a.link h) (not_or.mpr ⟨hconnecting, hfinished⟩)
    · exact .inl h
  · rcases htear h with h | h
    · exact absurd (a.tear h) (not_or.mpr ⟨hshutting, hfinished⟩)
    · exact .inl h

theorem take {pin : Nat} (a : Asks c) (s : Section) : Asks (c.take q pin s) := by
  have hother : ∀ {m : SortedMap Job Time} {j' : Job} {time : Time} {j : Job},
      j = .link ∨ j = .tear → (∀ i, i = .link ∨ i = .tear → i ≠ j') →
      j ∈ (m.emplace j' time).keys → j ∈ m.keys :=
    fun hj hne hk => (SortedMap.mem_keys_emplace.mp hk).resolve_right (hne _ hj)
  have hnew : ∀ {j' : Job}, j' = .linkEcho ∨ j' = .tearEcho ∨ j' = .ping ∨ j' = .pingEcho →
      ∀ i, i = .link ∨ i = .tear → i ≠ j' := by
    rintro j' hj' i hi rfl
    rcases hi with rfl | rfl <;> rcases hj' with h | h | h | h <;> cases h
  have htook := take_took q pin c s
  generalize c.take q pin s = c' at htook ⊢
  cases htook with
  | link => exact a.keep rfl fun j hj => hother hj (hnew (.inl rfl))
  | linked hc =>
    refine ⟨fun h => ?_, fun h => ?_⟩
    · have h := hother (.inl rfl) (hnew (.inr (.inr (.inl rfl)))) h
      exact absurd rfl (SortedMap.mem_keys_erase.mp h).2
    · have h := hother (.inr rfl) (hnew (.inr (.inr (.inl rfl)))) h
      rcases a.tear (SortedMap.mem_keys_erase.mp h).1 with hs | hs <;>
        exact absurd (hc.symm.trans hs) Status.noConfusion
  | tearing hc =>
    refine a.turn (by rw [hc]; decide) (fun h => .inl ?_) (fun h => .inl ?_)
    · exact hother (.inl rfl) (hnew (.inr (.inl rfl))) h
    · exact hother (.inr rfl) (hnew (.inr (.inl rfl))) h
  | tear => exact a.keep rfl fun j hj => hother hj (hnew (.inr (.inl rfl)))
  | finished => exact .finish _ rfl
  | ping => exact a.keep rfl fun j hj => hother hj (hnew (.inr (.inr (.inr rfl))))
  | pingEcho =>
    refine a.keep rfl fun j hj h => ?_
    exact (SortedMap.mem_keys_erase.mp (hother hj (hnew (.inr (.inr (.inl rfl)))) h)).1
  | quiet => exact a

theorem wrote {now : Time} (a : Asks c) (job : Job) : Asks (c.wrote now job) := by
  have hkeys : ∀ j, j ∈ (c.wrote now job).jobs.keys → j ∈ c.jobs.keys :=
    fun j => wrote_keys now job
  have hwrote := wrote_wrote now c job
  generalize c.wrote now job = c' at hwrote hkeys ⊢
  cases hwrote with
  | linked hc =>
    exact a.turn (by rw [hc]; decide) (fun h => .inl (hkeys _ h)) fun h => .inl (hkeys _ h)
  | finished => exact .finish _ rfl
  | linkEcho | pingEcho | again => exact a.keep rfl fun j _ => hkeys j

theorem shutdown (a : Asks c) (now : Time) (k : Handler) : Asks (c.shutdown q now k) := by
  unfold Connector.shutdown
  split
  · exact { a with }
  · next hc =>
    refine a.turn (by rw [hc]; decide) (fun h => .inl ?_) fun _ => .inr rfl
    exact (SortedMap.mem_keys_emplace.mp h).resolve_right Job.noConfusion
  · exact { a with }
  · exact { a with }
  · exact { a with }

/-- Every move keeps it. -/
theorem move {w : Prop} {f : Section → Prop} {given lost : List Handler} {c' : Connector}
    (a : Asks c) (h : Move q w f given lost c c') : Asks c' := by
  cases h with
  | init hc => exact a.turn (by rw [hc]; decide) .inl .inl
  | hear => exact { a with }
  | take pin => exact a.take _
  | giveUp => exact { a with }
  | wrote => exact a.wrote _
  | refuse => exact { a with }
  | connect now k _ hc =>
    rw [Connector.connect, if_pos hc]
    refine a.turn (by rw [hc]; decide) (fun _ => .inr rfl) fun h => .inl ?_
    exact (SortedMap.mem_keys_emplace.mp h).resolve_right Job.noConfusion
  | accept now k _ hc =>
    rw [Connector.accept, if_pos hc]
    exact a.turn (by rw [hc]; decide) .inl .inl
  | shutdown => exact a.shutdown _ _
  | error => exact .finish _ rfl

end Asks

end Connector

/-! ## What the channels of a session know of each other -/

namespace Transport

variable {t t' : Transport} {out : Option Packet}

/-- A packet that is sent begins with what the connector wrote into its room. -/
theorem produce_sends {k : Clock} {p : Packet} (h : t.produce k = some (t', some p)) :
    t.connector.status ≠ .finished ∧
      t'.connector = (t.connector.imbue t.qos k.connector
        (t.qos.maxPacketSize - Datagram.headerSize)).1 ∧
      ∃ rest, p = ⟨t.connector.localPin, (t.connector.imbue t.qos k.connector
        (t.qos.maxPacketSize - Datagram.headerSize)).2 ++ rest⟩ := by
  unfold produce at h
  split at h
  · cases h
  · next hfin =>
    refine ⟨hfin, ?_⟩
    dsimp only at h
    obtain ⟨_, h⟩ := Option.ite_none_left_eq_some.mp h
    unfold imbue at h
    dsimp only at h
    split at h <;> obtain ⟨rfl, hout⟩ := Prod.mk.inj (Option.some.inj h)
    · obtain ⟨_, hout⟩ := Option.ite_none_left_eq_some.mp hout
      cases hout
      exact ⟨rfl, _, congrArg (Packet.mk _) (List.append_assoc _ _ _)⟩
    · obtain ⟨_, hout⟩ := Option.ite_none_left_eq_some.mp hout
      cases hout
      refine ⟨rfl, [], ?_⟩
      rw [List.append_nil]

/-- What the connector makes of a packet that is fed. -/
theorem feed_connector {now : Time} {p : Packet} (h : t.feed now p = some t') :
    t'.connector = if t.connector.admits p.pin = true then t.connector.parse t.qos now p
      else t.connector := by
  rcases feed_cases h with ⟨hno, rfl⟩ | ⟨hyes, _, _, _, ⟨_, rfl⟩ | ⟨_, rfl⟩⟩
  · rw [if_neg (by rw [hno]; exact Bool.false_ne_true)]
  · rw [if_pos hyes]
  · rw [if_pos hyes]

end Transport

namespace Session

/-- Two channels that know each other: what is on its way carries the pin of its sender, and a
peer that is known is the other channel. Neither is said of a channel that is finished. -/
structure Paired (s : Session) : Prop where
  bound : ∀ x, (s.chan x).connector.Bound
  asks : ∀ x, (s.chan x).connector.Asks
  sent : ∀ x, ∀ p ∈ s.net x, p.pin ≠ 0 ∧
    ((s.chan x).connector.status ≠ .finished → p.pin = (s.chan x).connector.localPin)
  known : ∀ x, (s.chan x).connector.status ≠ .finished →
    (s.chan x.other).connector.status ≠ .finished → (s.chan x).connector.remotePin ≠ 0 →
    (s.chan x).connector.remotePin = (s.chan x.other).connector.localPin

theorem Paired.create (q : Side → Qos) : Paired (create q) where
  bound _ := .create
  asks _ := .create
  sent _ _ hp := absurd hp List.not_mem_nil
  known _ _ _ h := absurd rfl h

theorem Paired.put {s : Session} (i : Paired s) {x : Side} {e : Event} {t : Transport}
    {out : Option Packet} (hsound : e.sound = true) (h : (s.chan x).act e = some (t, out))
    (hfed : ∀ now p, e = .feed now p → p ∈ s.net x.other) : Paired (s.put x t out) := by
  have hstamped : e.stamped = true := by
    cases e with
    | feed now p => exact decide_eq_true (i.sent _ p (hfed now p rfl)).1
    | _ => rfl
  have hmoves := Transport.act_moves hsound h
  -- the pin of a channel that has one stays
  have hlocal : t.connector.status ≠ .finished → (s.chan x).connector.localPin ≠ 0 →
      t.connector.localPin = (s.chan x).connector.localPin := by
    intro hfin hpin
    rcases Transport.act_pins h with ⟨hinit | hsame, _⟩ | ⟨_, hdone⟩
    · exact absurd ((i.bound x).fresh (by rw [hinit]; decide)).2.2 hpin
    · exact hsame
    · exact absurd hdone hfin
  have halive : t.connector.status ≠ .finished → (s.chan x).connector.status ≠ .finished := by
    intro hfin hdone
    exact hfin (Transport.act_finished h hdone)
  refine ⟨fun y => ?_, fun y => ?_, fun y p hp => ?_, fun y hy hother hne => ?_⟩
  · by_cases hy : y = x
    · subst hy
      rw [put_chan_self]
      exact Transport.act_bound hsound hstamped h (i.bound y)
    · rw [put_chan_of_ne hy]
      exact i.bound y
  · by_cases hy : y = x
    · subst hy
      rw [put_chan_self]
      exact hmoves.induct (fun _ _ _ _ h a => a.move h) (i.asks y)
    · rw [put_chan_of_ne hy]
      exact i.asks y
  · by_cases hy : y = x
    · subst hy
      rw [put_chan_self]
      rw [put_net_self] at hp
      rcases List.mem_append.mp hp with hp | hp
      · obtain ⟨hne, hpin⟩ := i.sent y p hp
        refine ⟨hne, fun hfin => ?_⟩
        have heq := hpin (halive hfin)
        rw [heq] at hne
        rw [heq, hlocal hfin hne]
      · rw [Option.mem_toList.mp hp] at h
        obtain ⟨hpin, hne⟩ := Transport.act_sent (i.bound y) h
        refine ⟨by rw [hpin]; exact hne, fun hfin => ?_⟩
        rw [hpin, hlocal hfin hne]
    · rw [put_net_of_ne hy] at hp
      rw [put_chan_of_ne hy]
      exact i.sent y p hp
  · rcases Side.eq_or_other x y with rfl | rfl
    · rw [put_chan_self] at hy hne ⊢
      rw [put_chan_of_ne y.other_ne] at hother ⊢
      rcases Transport.act_pins h with ⟨_, ⟨hsame, _⟩ | ⟨now, p, rfl, _, heq⟩⟩ | ⟨_, hdone⟩
      · rw [hsame] at hne ⊢
        exact i.known y (halive hy) hother hne
      · -- the peer is who it was, or the sender of a packet of the other side
        rcases Connector.parse_remotePin (c := (s.chan y).connector) (s.chan y).qos now p with
          hsame | hnew
        · rw [heq, hsame] at hne ⊢
          exact i.known y (halive hy) hother hne
        · rw [heq, hnew]
          exact (i.sent y.other p (hfed now p rfl)).2 hother
      · exact absurd hdone hy
    · rw [put_chan_of_ne x.other_ne] at hy hne ⊢
      rw [Side.other_other, put_chan_self] at hother ⊢
      have heq := i.known x.other hy (by rw [Side.other_other]; exact halive hother) hne
      rw [Side.other_other] at heq
      rw [heq] at hne
      rw [heq, hlocal hother hne]

theorem Paired.step {s s' : Session} (i : Paired s) {a : Act} (h : s.step a = some s') :
    Paired s' := by
  cases a with
  | act x e =>
    obtain ⟨⟨hsound, hin⟩, h⟩ := Option.ite_none_right_eq_some.mp h
    obtain ⟨⟨t, out⟩, hact, rfl⟩ := Option.map_eq_some_iff.mp h
    refine i.put hsound hact ?_
    rintro now p rfl
    cases hin
  | deliver x now n =>
    obtain ⟨p, hp, h⟩ := Option.bind_eq_some_iff.mp h
    obtain ⟨⟨t, out⟩, hact, rfl⟩ := Option.map_eq_some_iff.mp h
    refine i.put rfl hact ?_
    rintro _ _ heq
    cases heq
    exact List.mem_of_getElem? hp
  | lose x n =>
    cases h
    refine { i with sent := fun y p hp => i.sent y p ?_ }
    dsimp only at hp
    split at hp
    · exact List.mem_of_mem_eraseIdx hp
    · exact hp

theorem Reachable.paired {q : Side → Qos} {s : Session} (h : (system q).Reachable s) :
    Paired s := by
  refine System.Reaches.invariant (P := Paired) ?_ ?_ h
  · rintro s rfl
    exact .create q
  · intro s a s' _ i hstep
    exact i.step hstep

/-! ## There and back -/

/-- One side makes a round, and the other reads the packet of it. -/
def pass (x : Side) (k : Clock) (now : Time) (s : Session) : Option Session := do
  let s' ← s.step (.act x (.produce k))
  s'.step (.deliver x.other now (s.net x).length)

variable {q : Side → Qos} {s s₁ s₂ : Session} {x : Side}

theorem Reachable.pass {k : Clock} {now : Time} (h : (system q).Reachable s)
    (hpass : s.pass x k now = some s₁) : (system q).Reachable s₁ := by
  obtain ⟨s', hround, hread⟩ := Option.bind_eq_some_iff.mp hpass
  refine System.Reaches.run [.act x (.produce k), .deliver x.other now (s.net x).length] h
    (fun _ _ _ => trivial) ?_
  simp only [System.run, system, hround, Option.bind_some]
  rw [hread, Option.bind_some]

/-- A packet that gets through is sent by the one side and read by the other. -/
theorem pass_split {k : Clock} {now : Time} (hpass : s.pass x k now = some s₁) :
    ∃ p, (s.chan x).produce k = some (s₁.chan x, some p) ∧
      (s.chan x.other).feed now p = some (s₁.chan x.other) ∧
      ∃ s', s.step (.act x (.produce k)) = some s' ∧ p ∈ s'.net x ∧
        s'.chan x = s₁.chan x ∧ s'.chan x.other = s.chan x.other := by
  obtain ⟨s', hround, hread⟩ := Option.bind_eq_some_iff.mp hpass
  have hround' := hround
  unfold step at hround
  obtain ⟨_, hround⟩ := Option.ite_none_right_eq_some.mp hround
  obtain ⟨⟨t, out⟩, hact, rfl⟩ := Option.map_eq_some_iff.mp hround
  obtain ⟨p, hp, hread⟩ := Option.bind_eq_some_iff.mp hread
  obtain ⟨⟨t', out'⟩, hfeed, rfl⟩ := Option.map_eq_some_iff.mp hread
  rw [Side.other_other] at hp
  rw [put_chan_of_ne x.other_ne] at hfeed
  obtain ⟨t'', hfeed', heq⟩ := Option.map_eq_some_iff.mp hfeed
  cases heq
  -- without a packet there would be nothing to read
  have hout : out = some p := by
    rw [put_net_self] at hp
    cases out with
    | none => exact absurd hp (by simp)
    | some p' => simpa using hp
  subst hout
  refine ⟨p, ?_, ?_, _, hround', List.mem_of_getElem? hp, ?_, put_chan_of_ne x.other_ne⟩
  · rw [put_chan_of_ne x.other_ne.symm, put_chan_self]
    exact hact
  · rw [put_chan_self]
    exact hfeed'
  · rw [put_chan_of_ne x.other_ne.symm]

/-- What a packet that gets through does to both connectors. -/
theorem pass_cases {k : Clock} {now : Time} (hpass : s.pass x k now = some s₁) :
    ∃ p, (s.chan x).act (.produce k) = some (s₁.chan x, some p) ∧
      p.pin = (s.chan x).connector.localPin ∧
      (∀ sect ∈ ((s.chan x).connector.imbue (s.chan x).qos k.connector
        ((s.chan x).qos.maxPacketSize - Datagram.headerSize)).2, sect ∈ p.body) ∧
      (s.chan x).connector.status ≠ .finished ∧
      (s₁.chan x).connector = ((s.chan x).connector.imbue (s.chan x).qos k.connector
        ((s.chan x).qos.maxPacketSize - Datagram.headerSize)).1 ∧
      (s₁.chan x.other).connector = if (s.chan x.other).connector.admits p.pin = true then
        (s.chan x.other).connector.parse (s.chan x.other).qos now p
        else (s.chan x.other).connector := by
  obtain ⟨p, hround, hfeed, -⟩ := pass_split hpass
  obtain ⟨hfin, hconnector, rest, hbody⟩ := Transport.produce_sends hround
  refine ⟨p, hround, by rw [hbody], fun sect hsect => ?_, hfin, hconnector,
    Transport.feed_connector hfeed⟩
  rw [hbody]
  exact List.mem_append_left _ hsect

/-- A channel that may ask and answer at a time: it does not give up then, and its packets have
room for four short sections. -/
structure Prompt (t : Transport) (now : Time) : Prop where
  inTime : t.connector.timedOut t.qos now = false
  room : Datagram.headerSize + 4 * Section.headerSize ≤ t.qos.maxPacketSize

instance (t : Transport) (now : Time) : Decidable (Prompt t now) :=
  decidable_of_iff (t.connector.timedOut t.qos now = false ∧
      Datagram.headerSize + 4 * Section.headerSize ≤ t.qos.maxPacketSize)
    ⟨fun h => ⟨h.1, h.2⟩, fun h => ⟨h.inTime, h.room⟩⟩

/-- A prompt channel writes what is due. A question of its own that comes first must not be due
again at once. -/
theorem Prompt.writes {t : Transport} {now : Time} {target : Job} {time : Time}
    (prompt : Prompt t now) (asks : t.connector.Asks) (hfin : t.connector.status ≠ .finished)
    (hsmall : target ≤ .tearEcho) (hmem : (target, time) ∈ t.connector.jobs.entries)
    (hdue : Connector.due now (target, time) = true)
    (patient : (.link < target ∧ t.connector.status = .connecting) ∨
      (.tear < target ∧ t.connector.status = .shutting) → now ≤ later now t.connector.resend) :
    Connector.sectionOf now (target, time) ∈ (t.connector.imbue t.qos now
      (t.qos.maxPacketSize - Datagram.headerSize)).2 := by
  refine Connector.imbue_writes_due prompt.inTime hsmall hmem hdue ?_ ?_
  · intro job hjob hlt hown
    have hbefore : job < .tearEcho := lt_of_lt_of_le hlt hsmall
    cases job with
    | link => exact patient (.inl ⟨hlt, (asks.link hjob).resolve_right hfin⟩)
    | tear => exact patient (.inr ⟨hlt, (asks.tear hjob).resolve_right hfin⟩)
    | linkEcho => cases hown
    | tearEcho | ping | pingEcho => exact absurd hbefore (by decide)
  · exact Nat.le_sub_of_add_le' prompt.room

/-- A channel reads the packets of the other one as long as neither is finished. -/
theorem Paired.admits (i : Paired s) (hstarted : 2 ≤ (s.chan x).connector.status.rank)
    (hx : (s.chan x).connector.status ≠ .finished)
    (hother : (s.chan x.other).connector.status ≠ .finished) :
    (s.chan x).connector.admits (s.chan x.other).connector.localPin = true := by
  have hrank : (s.chan x).connector.status.rank ≤ 4 := by
    revert hx
    cases (s.chan x).connector.status <;> decide
  refine Connector.admits_iff.mpr ⟨(i.bound x).named hstarted hrank, ?_⟩
  by_cases hzero : (s.chan x).connector.remotePin = 0
  · exact .inl hzero
  · exact .inr (i.known x hx hother hzero)

/-- The `link` that is due gets through: the side that accepts, or is linked, owes the answer, and
nothing else has changed. -/
theorem pass_link {k : Clock} {now time : Time} (h : (system q).Reachable s)
    (hx : (s.chan x).connector.status = .connecting)
    (hy : (s.chan x.other).connector.status = .accepting ∨
      (s.chan x.other).connector.status = .linked)
    (hmem : (.link, time) ∈ (s.chan x).connector.jobs.entries) (hdue : time < k.connector)
    (prompt : Prompt (s.chan x) k.connector) (hpass : s.pass x k now = some s₁) :
    .linkEcho ∈ (s₁.chan x.other).connector.jobs.keys ∧
      ∀ y, (s₁.chan y).connector.status = (s.chan y).connector.status ∧
        (s₁.chan y).connector.onConnect = (s.chan y).connector.onConnect ∧
        ∀ k, (s.chan y).connector.told k ≤ (s₁.chan y).connector.told k := by
  have i := Reachable.parting h
  have j := Reachable.paired h
  obtain ⟨p, hact, hpin, hwrites, -, hcx, hcy⟩ := pass_cases hpass
  have hlink := hwrites _ (prompt.writes (j.asks x) (by rw [hx]; decide) (by decide) hmem
    (by simp [Connector.due, hdue]) fun hfirst => absurd hfirst (by rw [hx]; decide))
  -- neither side tears down, so nothing about a tear is on its way
  have hecho : .tearEcho ∉ (s.chan x).connector.jobs.keys := fun hin => by
    have hlate := i.echoJob x hin
    rcases hy with hy | hy <;> exact absurd (hy ▸ hlate) (by decide)
  have htear : .tear ∉ p.body := fun hin => by
    have hlate := i.tearJob x ((Transport.act_writes hact).2 hin)
    exact absurd (hx ▸ hlate) (by decide)
  have hadmits : (s.chan x.other).connector.admits p.pin = true := by
    have hall := j.admits (x := x.other) (by rcases hy with hy | hy <;> rw [hy] <;> decide)
      (by rcases hy with hy | hy <;> rw [hy] <;> decide)
      (by rw [Side.other_other, hx]; decide)
    rwa [Side.other_other, ← hpin] at hall
  rw [if_pos hadmits] at hcy
  refine ⟨hcy ▸ Connector.parse_link hlink, fun y => ?_⟩
  rcases Side.eq_or_other x y with rfl | rfl
  · obtain ⟨hstatus, hslot⟩ := Connector.imbue_open (s.chan y).qos k.connector
      ((s.chan y).qos.maxPacketSize - Datagram.headerSize) (by rw [hx]; decide) hecho
    rw [hcx]
    exact ⟨hstatus, hslot, fun k => Connector.imbue_told k⟩
  · have hopen := Connector.parse_open (c := (s.chan x.other).connector) (s.chan x.other).qos now
      (by rcases hy with hy | hy <;> rw [hy] <;> decide) htear
    rw [hcy]
    obtain ⟨hstatus, hslot⟩ := hopen.resolve_right fun hno => by
      rcases hy with hy | hy <;> exact absurd (hy.symm.trans hno.1) Status.noConfusion
    exact ⟨hstatus, hslot, fun k => Connector.parse_told k⟩

/-- The answer that is owed gets through: both sides are linked, and the handlers that waited are
told so. -/
theorem pass_linkEcho {k : Clock} {now : Time} (h : (system q).Reachable s)
    (hx : (s.chan x.other).connector.status = .connecting)
    (hy : (s.chan x).connector.status = .accepting ∨ (s.chan x).connector.status = .linked)
    (howed : .linkEcho ∈ (s.chan x).connector.jobs.keys) (prompt : Prompt (s.chan x) k.connector)
    (hpass : s.pass x k now = some s₁) :
    ∀ y, (s₁.chan y).connector.status = .linked ∧
      ∀ k, (s.chan y).connector.onConnect = some k →
        (s.chan y).connector.told k < (s₁.chan y).connector.told k := by
  have i := Reachable.parting h
  have j := Reachable.paired h
  obtain ⟨p, hact, hpin, hwrites, hfin, hcx, hcy⟩ := pass_cases hpass
  obtain ⟨time, howed⟩ := SortedMap.mem_keys.mp howed
  have hanswer := prompt.writes (j.asks x) hfin (by decide) howed rfl fun hfirst => by
    rcases hy with hy | hy <;> exact absurd hfirst (by rw [hy]; decide)
  have hecho : .tearEcho ∉ (s.chan x).connector.jobs.keys := fun hin => by
    have hlate := i.echoJob x hin
    exact absurd (hx ▸ hlate) (by decide)
  have htear : .tear ∉ p.body := fun hin => by
    have hlate := i.tearJob x ((Transport.act_writes hact).2 hin)
    rcases hy with hy | hy <;> exact absurd (hy ▸ hlate) (by decide)
  have hadmits : (s.chan x.other).connector.admits p.pin = true := by
    have hall := j.admits (x := x.other) (by rw [hx]; decide) (by rw [hx]; decide)
      (by rw [Side.other_other]; exact hfin)
    rwa [Side.other_other, ← hpin] at hall
  rw [if_pos hadmits] at hcy
  obtain ⟨k', hslot'⟩ := Option.isSome_iff_exists.mp ((i.armed x.other).connecting hx).1
  intro y
  rcases Side.eq_or_other x y with rfl | rfl
  · rw [hcx]
    rcases hy with hy | hy
    · obtain ⟨k', hslot⟩ := Option.isSome_iff_exists.mp ((i.armed y).accepting hy).1
      refine ⟨(Connector.imbue_linkEcho hy hslot hecho hanswer).1, fun k hk => ?_⟩
      exact (Connector.imbue_linkEcho hy hk hecho hanswer).2
    · refine ⟨(Connector.imbue_open _ _ _ (by rw [hy]; decide) hecho).1.trans hy, fun k hk => ?_⟩
      have hslot := (i.armed y).connectSlot (by rw [hk]; rfl)
      rw [hy] at hslot
      exact absurd hslot (by decide)
  · rw [hcy]
    refine ⟨(Connector.parse_linkEcho hx hslot' htear (hwrites _ hanswer)).1, fun k hk => ?_⟩
    exact (Connector.parse_linkEcho hx hk htear (hwrites _ hanswer)).2

/-- A handshake takes one round trip. Whatever happened before, when a side that connects sends
the `link` that is due to a side that accepts or is linked, and the next round of that side is
read in turn, both are linked with each other, and the handlers that waited are told so. -/
theorem link_round_trip {k₁ k₂ : Clock} {now₁ now₂ time : Time} (h : (system q).Reachable s)
    (hx : (s.chan x).connector.status = .connecting)
    (hy : (s.chan x.other).connector.status = .accepting ∨
      (s.chan x.other).connector.status = .linked)
    (hmem : (.link, time) ∈ (s.chan x).connector.jobs.entries) (hdue : time < k₁.connector)
    (hx₁ : Prompt (s.chan x) k₁.connector) (hy₁ : Prompt (s₁.chan x.other) k₂.connector)
    (h₁ : s.pass x k₁ now₁ = some s₁) (h₂ : s₁.pass x.other k₂ now₂ = some s₂) :
    ∀ y, (s₂.chan y).connector.status = .linked ∧
      (s₂.chan y).connector.remotePin = (s₂.chan y.other).connector.localPin ∧
      ∀ k, (s.chan y).connector.onConnect = some k →
        (s.chan y).connector.told k < (s₂.chan y).connector.told k := by
  obtain ⟨howed, hsame⟩ := pass_link h hx hy hmem hdue hx₁ h₁
  have hreach := Reachable.pass h h₁
  have hlinked := pass_linkEcho hreach (by rw [Side.other_other, (hsame x).1, hx])
    (by rw [(hsame x.other).1]; exact hy) howed hy₁ h₂
  have j := Reachable.paired (Reachable.pass hreach h₂)
  intro y
  refine ⟨(hlinked y).1, ?_, fun k hk => ?_⟩
  · refine j.known y ?_ ?_ ((j.bound y).linked (hlinked y).1)
    · rw [(hlinked y).1]
      decide
    · rw [(hlinked y.other).1]
      decide
  · obtain ⟨-, hslot, htold⟩ := hsame y
    exact Nat.lt_of_le_of_lt (htold k) ((hlinked y).2 k (hslot.trans hk))

/-- The first `link` is lost. Its repetition gets through, and so does the answer. -/
theorem link_round_trip_lost :
    ∃ s s₁ s₂, (system fun _ => .default).Reachable s ∧ s.net .left = [] ∧
      s.pass .left ⟨200000, 200000, 200000⟩ 200001 = some s₁ ∧
      s₁.pass .right ⟨200002, 200002, 200002⟩ 200003 = some s₂ ∧
      (s.chan .left).connector.told 1 = 0 ∧ 0 < (s₂.chan .left).connector.told 1 ∧
      (s₂.chan .left).connector.status = .linked ∧
      (s₂.chan .right).connector.status = .linked := by
  obtain ⟨s, hs, hv⟩ := System.exists_of_run (S := system fun _ => .default)
    (f := fun s => decide (s.net .left = [] ∧ (s.chan .left).connector.status = .connecting ∧
      (s.chan .right).connector.status = .accepting ∧
      (.link, 100002) ∈ (s.chan .left).connector.jobs.entries ∧
      Prompt (s.chan .left) 200000 ∧ (s.chan .left).connector.onConnect = some 1 ∧
      (s.chan .left).connector.told 1 = 0 ∧
      ∃ s₁ ∈ s.pass .left ⟨200000, 200000, 200000⟩ 200001, Prompt (s₁.chan .right) 200002 ∧
        ∃ s₂ ∈ s₁.pass .right ⟨200002, 200002, 200002⟩ 200003, True))
    (v := true)
    [.act .left .openAt, .act .right .openAt, .act .left (.connect 1 1 1 .success),
      .act .right (.accept 1 2 2 .success), .act .left (.produce ⟨2, 2, 2⟩), .lose .left 0] rfl
    (by decide +kernel)
  obtain ⟨hnet, hx, hy, hmem, hx₁, hslot, hnone, s₁, h₁, hy₁, s₂, h₂, -⟩ := of_decide_eq_true hv
  have hall := link_round_trip hs hx (.inl hy) hmem (by decide) hx₁ hy₁ h₁ h₂
  refine ⟨s, s₁, s₂, hs, hnet, h₁, h₂, hnone, ?_, (hall .left).1, (hall .right).1⟩
  rw [← hnone]
  exact (hall .left).2.2 1 hslot

/-- The `tear` that is due gets through: the other side owes the answer, and neither side has lost
its handler, unless it is finished already and has told it. -/
theorem pass_tear {k : Clock} {now time : Time} (h : (system q).Reachable s)
    (hx : (s.chan x).connector.status = .shutting)
    (hstarted : 2 ≤ (s.chan x.other).connector.status.rank)
    (hy : (s.chan x.other).connector.status ≠ .finished)
    (hmem : (.tear, time) ∈ (s.chan x).connector.jobs.entries) (hdue : time < k.connector)
    (prompt : Prompt (s.chan x) k.connector) (hpass : s.pass x k now = some s₁) :
    .tearEcho ∈ (s₁.chan x.other).connector.jobs.keys ∧
      (((s₁.chan x).connector.status = .shutting ∧
          (s₁.chan x).connector.onShutdown = (s.chan x).connector.onShutdown) ∨
        ((s₁.chan x).connector.status = .finished ∧
          ∀ k, (s.chan x).connector.onShutdown = some k →
            (s.chan x).connector.told k < (s₁.chan x).connector.told k)) ∧
      ((s₁.chan x.other).connector.status = .finished ∨
        (s₁.chan x.other).connector.onShutdown = (s.chan x.other).connector.onShutdown) ∧
      ∀ y k, (s.chan y).connector.told k ≤ (s₁.chan y).connector.told k := by
  have j := Reachable.paired h
  obtain ⟨p, _, hpin, hwrites, -, hcx, hcy⟩ := pass_cases hpass
  have htear := hwrites _ (prompt.writes (j.asks x) (by rw [hx]; decide) (by decide) hmem
    (by simp [Connector.due, hdue]) fun hfirst => absurd hfirst (by rw [hx]; decide))
  have hadmits : (s.chan x.other).connector.admits p.pin = true := by
    have hall := j.admits hstarted hy (by rw [Side.other_other, hx]; decide)
    rwa [Side.other_other, ← hpin] at hall
  rw [if_pos hadmits] at hcy
  refine ⟨hcy ▸ Connector.parse_tear htear, ?_, hcy ▸ Connector.parse_onShutdown, fun y k => ?_⟩
  · rw [hcx]
    exact Connector.imbue_shutting hx
  · rcases Side.eq_or_other x y with rfl | rfl
    · rw [hcx]
      exact Connector.imbue_told k
    · rw [hcy]
      exact Connector.parse_told k

/-- The answer that is owed gets through to a side that shuts down or is finished: both sides are
finished, and the handlers that waited are told so. -/
theorem pass_tearEcho {k : Clock} {now : Time} (h : (system q).Reachable s)
    (hy : (s.chan x.other).connector.status = .shutting ∨
      (s.chan x.other).connector.status = .finished)
    (howed : .tearEcho ∈ (s.chan x).connector.jobs.keys) (prompt : Prompt (s.chan x) k.connector)
    (patient : (s.chan x).connector.status = .connecting ∨
      (s.chan x).connector.status = .shutting →
        k.connector ≤ later k.connector (s.chan x).connector.resend)
    (hpass : s.pass x k now = some s₁) :
    ∀ y, (s₁.chan y).connector.status = .finished ∧
      (∀ k, (s.chan y).connector.told k ≤ (s₁.chan y).connector.told k) ∧
      ∀ k, (s.chan y).connector.status ≠ .finished → (s.chan y).connector.onShutdown = some k →
        (s.chan y).connector.told k < (s₁.chan y).connector.told k := by
  have i := Reachable.parting h
  have j := Reachable.paired h
  obtain ⟨p, hact, hpin, hwrites, hfin, hcx, hcy⟩ := pass_cases hpass
  obtain ⟨time, howed⟩ := SortedMap.mem_keys.mp howed
  have hanswer := prompt.writes (j.asks x) hfin (by decide) howed rfl fun hfirst =>
    patient (hfirst.imp And.right And.right)
  intro y
  rcases Side.eq_or_other x y with rfl | rfl
  · rw [hcx]
    refine ⟨(Connector.imbue_writes _ _).1 hanswer, fun k => Connector.imbue_told k, ?_⟩
    exact fun k _ hk => Connector.imbue_tearEcho hk hanswer
  · rcases hy with hy | hy
    · have hadmits : (s.chan x.other).connector.admits p.pin = true := by
        have hall := j.admits (x := x.other) (by rw [hy]; decide) (by rw [hy]; decide)
          (by rw [Side.other_other]; exact hfin)
        rwa [Side.other_other, ← hpin] at hall
      rw [if_pos hadmits] at hcy
      rw [hcy]
      obtain ⟨k', hslot⟩ := Option.isSome_iff_exists.mp ((i.armed x.other).shutting hy).1
      refine ⟨(Connector.parse_tearEcho hy hslot (hwrites _ hanswer)).1,
        fun k => Connector.parse_told k, fun k _ hk => ?_⟩
      exact (Connector.parse_tearEcho hy hk (hwrites _ hanswer)).2
    · have hkeep : (s₁.chan x.other).connector.status = .finished ∧
          ∀ k, (s.chan x.other).connector.told k ≤ (s₁.chan x.other).connector.told k := by
        rw [hcy]
        split
        · have hrank := (s.chan x.other).connector.parse_rank (s.chan x.other).qos now p
          rw [hy] at hrank
          exact ⟨Status.finished_of_rank hrank, fun k => Connector.parse_told k⟩
        · exact ⟨hy, fun _ => Nat.le_refl _⟩
      exact ⟨hkeep.1, hkeep.2, fun _ hno => absurd hy hno⟩

/-- A shutdown takes one round trip. Whatever happened before, when a side that shuts down sends
the `tear` that is due to a side that has started and is not finished, and the next round of that
side is read in turn, both are finished, and the handlers of a shutdown that waited are told so. -/
theorem tear_round_trip {k₁ k₂ : Clock} {now₁ now₂ time : Time} (h : (system q).Reachable s)
    (hx : (s.chan x).connector.status = .shutting)
    (hstarted : 2 ≤ (s.chan x.other).connector.status.rank)
    (hy : (s.chan x.other).connector.status ≠ .finished)
    (hmem : (.tear, time) ∈ (s.chan x).connector.jobs.entries) (hdue : time < k₁.connector)
    (hx₁ : Prompt (s.chan x) k₁.connector) (hy₁ : Prompt (s₁.chan x.other) k₂.connector)
    (patient : (s₁.chan x.other).connector.status = .connecting ∨
      (s₁.chan x.other).connector.status = .shutting →
        k₂.connector ≤ later k₂.connector (s₁.chan x.other).connector.resend)
    (h₁ : s.pass x k₁ now₁ = some s₁) (h₂ : s₁.pass x.other k₂ now₂ = some s₂) :
    ∀ y, (s₂.chan y).connector.status = .finished ∧
      ∀ k, (s.chan y).connector.onShutdown = some k →
        (s.chan y).connector.told k < (s₂.chan y).connector.told k := by
  obtain ⟨howed, hasker, hanswerer, htold⟩ := pass_tear h hx hstarted hy hmem hdue hx₁ h₁
  have hdone := pass_tearEcho (Reachable.pass h h₁)
    (by rw [Side.other_other]; exact hasker.imp And.left And.left) howed hy₁ patient h₂
  obtain ⟨_, _, _, _, hopen, _⟩ := pass_cases h₂
  intro y
  obtain ⟨hfinished, hmore, hmet⟩ := hdone y
  refine ⟨hfinished, fun k hk => ?_⟩
  rcases Side.eq_or_other x y with rfl | rfl
  · rcases hasker with ⟨hstill, hslot⟩ | ⟨_, hgrown⟩
    · exact Nat.lt_of_le_of_lt (htold y k) (hmet k (by rw [hstill]; decide) (hslot.trans hk))
    · exact Nat.lt_of_lt_of_le (hgrown k hk) (hmore k)
  · have hslot := (hanswerer.resolve_left hopen).trans hk
    exact Nat.lt_of_le_of_lt (htold x.other k) (hmet k hopen hslot)

/-- Both sides shut down at once. The first `tear` of either is lost, and one round trip finishes
both. -/
theorem tear_round_trip_both :
    ∃ s s₁ s₂, (system fun _ => .default).Reachable s ∧
      s.pass .left ⟨200000, 200000, 200000⟩ 200001 = some s₁ ∧
      s₁.pass .right ⟨200002, 200002, 200002⟩ 200003 = some s₂ ∧
      (∀ y, (s₂.chan y).connector.status = .finished) ∧
      0 < (s₂.chan .left).connector.told 8 ∧ 0 < (s₂.chan .right).connector.told 9 := by
  obtain ⟨s, hs, hv⟩ := System.exists_of_run (S := system fun _ => .default)
    (f := fun s => decide ((s.chan .left).connector.status = .shutting ∧
      (s.chan .right).connector.status = .shutting ∧
      (.tear, 100007) ∈ (s.chan .left).connector.jobs.entries ∧
      Prompt (s.chan .left) 200000 ∧ (s.chan .left).connector.onShutdown = some 8 ∧
      (s.chan .right).connector.onShutdown = some 9 ∧
      ∃ s₁ ∈ s.pass .left ⟨200000, 200000, 200000⟩ 200001, Prompt (s₁.chan .right) 200002 ∧
        200002 ≤ later 200002 (s₁.chan .right).connector.resend ∧
        ∃ s₂ ∈ s₁.pass .right ⟨200002, 200002, 200002⟩ 200003, True))
    (v := true)
    (handshake ++ [.act .left (.shutdown 6 8), .act .right (.shutdown 6 9),
      .act .left (.produce ⟨7, 7, 7⟩), .act .right (.produce ⟨7, 7, 7⟩), .lose .left 1,
      .lose .right 1]) rfl (by decide +kernel)
  obtain ⟨hx, hy, hmem, hx₁, hslot, hslot', s₁, h₁, hy₁, patient, s₂, h₂, -⟩ :=
    of_decide_eq_true hv
  have hall := tear_round_trip hs hx (by rw [Side.other, hy]; decide)
    (by rw [Side.other, hy]; decide) hmem (by decide) hx₁ hy₁ (fun _ => patient) h₁ h₂
  refine ⟨s, s₁, s₂, hs, h₁, h₂, fun y => (hall y).1, ?_, ?_⟩
  · exact Nat.lt_of_le_of_lt (Nat.zero_le _) ((hall .left).2 8 hslot)
  · exact Nat.lt_of_le_of_lt (Nat.zero_le _) ((hall .right).2 9 hslot')

end Session

end Tubus.Udp
