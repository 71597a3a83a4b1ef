import Tubus.Laws.Proto
import Tubus.Laws.Transport
import Mathlib.Algebra.BigOperators.Group.Finset.Basic
import Mathlib.Algebra.Order.BigOperators.Group.Finset

/-!
# What a round writes

The three `imbue` functions search their maps from the start for every section they write. What
they write can be told from the state before them, in one pass: the connector writes the jobs that
are due, in the order of their codes (`imbueLoop_turns`), and the sending half comes to the flights
that are due and fit into what is left, in the order of their handles (`repeatLoop_turns`). What
was passed over is not written later in the round, for the room only shrinks. What was written is
due again at once if the resend interval is negative or too long for the clock (`relapses`), and
then it is written until the room is used up.

From this follows how much room each of them leaves to the next one, when a ping is written beyond
the end of the room (`overruns`), and when the sending half gives up behind sections it has already
written (`spoils`).
-/

namespace Tubus.Udp

open Lib
open Transport (sizes)

@[simp] theorem Transport.sizes_nil : sizes [] = 0 := rfl

@[simp] theorem Transport.sizes_cons (s : Section) (l : List Section) :
    sizes (s :: l) = s.size + sizes l := by
  simp [sizes]

@[simp] theorem Transport.sizes_append (l l' : List Section) :
    sizes (l ++ l') = sizes l + sizes l' := by
  simp [sizes]

theorem Transport.sizes_replicate (n : Nat) (s : Section) :
    sizes (.replicate n s) = n * s.size := by
  simp [sizes]

theorem Transport.size_le_sizes {s : Section} {l : List Section} (h : s ∈ l) :
    s.size ≤ sizes l :=
  List.le_sum_of_mem (List.mem_map_of_mem h)

/-- The first entry with a property: what is before it lacks the property. -/
theorem find?_split {α : Type} {p : α → Bool} {l : List α} {a : α} (h : l.find? p = some a) :
    p a = true ∧ ∃ pre post, l = pre ++ a :: post ∧ ∀ x ∈ pre, p x = false := by
  obtain ⟨hp, pre, post, heq, hpre⟩ := List.find?_eq_some_iff_append.mp h
  exact ⟨hp, pre, post, heq, fun x hx => by simpa using hpre x hx⟩

/-- What is passed over is not found. -/
theorem find?_behind {α : Type} {p : α → Bool} {pre : List α} (h : ∀ x ∈ pre, p x = false)
    (post : List α) : (pre ++ post).find? p = post.find? p := by
  have hnone : pre.find? p = none := List.find?_eq_none.mpr fun x hx => by simp [h x hx]
  rw [List.find?_append, hnone, Option.none_or]

/-! ## The connector -/

/-- What a section of a job takes up. -/
def Job.size : Job → Nat
  | .ping | .pingEcho => overhead
  | .link | .linkEcho | .tear | .tearEcho => Section.headerSize

theorem Job.size_cases (job : Job) : job.size = 4 ∨ job.size = 12 := by
  cases job <;> decide

theorem Job.headerSize_le_size (job : Job) : Section.headerSize ≤ job.size := by
  cases job <;> decide

/-- The status after a job's section was written. -/
def Status.wrote : Status → Job → Status
  | .accepting, .linkEcho => .linked
  | _, .tearEcho => .finished
  | s, _ => s

namespace Connector

variable {c : Connector} {now : Time}

theorem size_sectionOf (now : Time) (item : Job × Time) :
    (sectionOf now item).size = item.1.size := by
  obtain ⟨job, time⟩ := item
  cases job <;> simp [sectionOf, Job.size, Section.size, Section.payload, overhead]

theorem code_sectionOf (now : Time) (item : Job × Time) :
    (sectionOf now item).code = item.1.code := by
  obtain ⟨job, time⟩ := item
  cases job <;> rfl

theorem wrote_status (job : Job) : (c.wrote now job).status = c.status.wrote job := by
  cases job with
  | linkEcho =>
    simp only [wrote]
    split
    · next h =>
      change c.status = .accepting at h
      rw [h]
      rfl
    · next h =>
      change c.status ≠ .accepting at h
      show c.status = c.status.wrote .linkEcho
      cases hs : c.status <;> first | rfl | exact absurd hs h
  | tearEcho =>
    show Status.finished = c.status.wrote .tearEcho
    cases c.status <;> rfl
  | _ =>
    show c.status = _
    cases c.status <;> rfl

/-- What is left of the queue when a job's section was written: an echo is gone, and any other job
waits for its next turn. -/
theorem wrote_entries {job : Job} {time : Time} {pre post : List (Job × Time)}
    (h : c.jobs.entries = pre ++ (job, time) :: post) :
    (c.wrote now job).jobs.entries =
      pre ++ (if job.isEcho then [] else [(job, later now c.resend)]) ++ post := by
  cases job with
  | linkEcho =>
    have hgone : (c.jobs.erase .linkEcho).entries = pre ++ [] ++ post := by
      simpa using SortedMap.entries_erase h
    simp only [wrote]
    split <;> exact hgone
  | pingEcho | tearEcho => simpa [wrote, Job.isEcho] using SortedMap.entries_erase h
  | link | tear | ping =>
    simpa [wrote, Job.isEcho] using SortedMap.entries_modify h fun _ => later now c.resend

/-- Is a job that is written now due again at once? It is if the resend interval is negative, or so
long that the addition runs over. -/
def relapses (now : Time) (c : Connector) : Bool := decide (later now c.resend < now)

theorem relapses_of_waits (h : now ≤ later now c.resend) : c.relapses now = false :=
  decide_eq_false (Int.not_lt.mpr h)

/-- How often a job that is due again at once is written into the room: as long as there is room for
a section header. -/
def rounds (job : Job) (room : Nat) : Nat := (room + (job.size - Section.headerSize)) / job.size

/-- The jobs that are written, in the order of their codes: those that are due, each once. One that
is due again at once fills the packet. -/
def turns (now : Time) (again : Bool) : Nat → List (Job × Time) → List (Job × Time)
  | _, [] => []
  | room, e :: rest =>
    if Section.headerSize ≤ room ∧ due now e = true then
      if e.1.isEcho || !again then e :: turns now again (room - e.1.size) rest
      else .replicate (rounds e.1 room) e
    else turns now again room rest

theorem turns_skip {again : Bool} {room : Nat} {pre : List (Job × Time)}
    (h : ∀ e ∈ pre, due now e = false) (l : List (Job × Time)) :
    turns now again room (pre ++ l) = turns now again room l := by
  induction pre with
  | nil => rfl
  | cons e pre ih =>
    rw [List.cons_append, turns, if_neg (by simp [h e List.mem_cons_self]),
      ih fun x hx => h x (List.mem_cons_of_mem _ hx)]

theorem turns_short {again : Bool} {room : Nat} (h : room < Section.headerSize)
    (l : List (Job × Time)) : turns now again room l = [] := by
  induction l with
  | nil => rfl
  | cons e l ih => rw [turns, if_neg (by omega), ih]

/-- A job that is due again at once leaves no room for the jobs behind it. -/
theorem turns_again {job : Job} {time : Time} (hdue : due now (job, time) = true)
    (hecho : job.isEcho = false) (room : Nat) (l : List (Job × Time)) :
    turns now true room ((job, time) :: l) = .replicate (rounds job room) (job, time) := by
  by_cases hroom : Section.headerSize ≤ room
  · rw [turns, if_pos ⟨hroom, hdue⟩]
    simp [hecho]
  · have hnone : rounds job room = 0 := by
      refine Nat.div_eq_of_lt ?_
      have hsize := job.headerSize_le_size
      omega
    rw [turns_short (by omega), hnone, List.replicate_zero]

theorem rounds_succ {job : Job} {room : Nat} (hroom : Section.headerSize ≤ room) :
    rounds job room = rounds job (room - job.size) + 1 := by
  have hheader : Section.headerSize = 4 := rfl
  rw [hheader] at hroom
  obtain hsize | hsize := job.size_cases
  · rw [rounds, rounds, hsize, hheader]
    omega
  · rw [rounds, rounds, hsize, hheader]
    omega

/-- The loop writes the jobs that have their turn. -/
theorem imbueLoop_turns (fuel room : Nat) {pre post : List (Job × Time)}
    (hentries : c.jobs.entries = pre ++ post) (hpre : ∀ e ∈ pre, due now e = false)
    (hfuel : room ≤ fuel) :
    (imbueLoop now fuel room c).2 = (turns now (c.relapses now) room post).map (sectionOf now) ∧
      (imbueLoop now fuel room c).1.status =
        ((turns now (c.relapses now) room post).map Prod.fst).foldl Status.wrote c.status := by
  induction fuel generalizing c pre post room with
  | zero =>
    have hroom : room = 0 := Nat.le_zero.mp hfuel
    rw [hroom, turns_short (by decide)]
    exact ⟨rfl, rfl⟩
  | succ fuel ih =>
    unfold imbueLoop
    by_cases hroom : room < Section.headerSize
    · rw [if_pos hroom, turns_short hroom]
      exact ⟨rfl, rfl⟩
    rw [if_neg hroom, hentries, find?_behind hpre]
    cases hpost : post.find? (due now) with
    | none =>
      have hnil : turns now (c.relapses now) room (post ++ []) = _ := turns_skip
        (fun e he => by simpa using List.find?_eq_none.mp hpost e he) []
      rw [List.append_nil] at hnil
      rw [hnil]
      exact ⟨rfl, rfl⟩
    | some item =>
      obtain ⟨hdue, skip, rest, rfl, hskip⟩ := find?_split hpost
      obtain ⟨job, time⟩ := item
      have hsplit : c.jobs.entries = (pre ++ skip) ++ (job, time) :: rest := by
        rw [hentries, List.append_assoc]
      have hbehind := List.forall_mem_append.mpr ⟨hpre, hskip⟩
      have hsame : (c.wrote now job).relapses now = c.relapses now := by
        rw [relapses, (c.wrote_keeps now job).2.2, relapses]
      have hfuel' : room - job.size ≤ fuel := by
        have := job.headerSize_le_size
        have hheader : Section.headerSize = 4 := rfl
        omega
      have hleft : (c.wrote now job).jobs.entries = _ := wrote_entries hsplit
      rw [turns_skip hskip]
      dsimp only
      rw [size_sectionOf]
      cases hecho : job.isEcho || !c.relapses now with
      | true =>
        -- what was written is gone, or waits
        have hwaits : ∀ e ∈ (if job.isEcho then [] else [(job, later now c.resend)]),
            due now e = false := by
          intro e he
          cases hjob : job.isEcho with
          | true => simp [hjob] at he
          | false =>
            rw [hjob, Bool.false_or, Bool.not_eq_true'] at hecho
            simp only [hjob, Bool.false_eq_true, if_false, List.mem_singleton] at he
            rw [he, due, hjob, Bool.false_or]
            exact hecho
        obtain ⟨hsections, hstatus⟩ := ih (c := c.wrote now job) (room - job.size) hleft
          (List.forall_mem_append.mpr ⟨hbehind, hwaits⟩) hfuel'
        rw [wrote_status] at hstatus
        rw [turns, if_pos ⟨Nat.not_lt.mp hroom, hdue⟩, if_pos hecho, hsections, hstatus, hsame]
        exact ⟨rfl, rfl⟩
      | false =>
        -- what was written is due again, and so on until the packet is full
        obtain ⟨hjob, hagain⟩ := Bool.or_eq_false_iff.mp hecho
        rw [Bool.not_eq_false'] at hagain
        have hdue' : due now (job, later now c.resend) = true := by
          rw [due, hjob, Bool.false_or]
          exact hagain
        rw [hjob, if_neg (by decide), List.append_assoc, List.singleton_append] at hleft
        obtain ⟨hsections, hstatus⟩ := ih (c := c.wrote now job) (room - job.size) hleft hbehind
          hfuel'
        have hsection : sectionOf now (job, later now c.resend) = sectionOf now (job, time) := by
          cases job <;> first | rfl | cases hjob
        rw [hsame, hagain, turns_again hdue' hjob] at hsections hstatus
        rw [wrote_status] at hstatus
        rw [hagain, turns_again hdue hjob, rounds_succ (Nat.not_lt.mp hroom), hsections, hstatus]
        simp only [List.replicate_succ, List.map_cons, List.map_replicate, hsection,
          List.foldl_cons, and_self]

/-- The jobs that are due. -/
def dues (now : Time) (l : List (Job × Time)) : List (Job × Time) := l.filter (due now)

theorem sizes_sections (now : Time) (l : List (Job × Time)) :
    sizes (l.map (sectionOf now)) = ((l.map Prod.fst).map Job.size).sum := by
  rw [sizes, List.map_map, List.map_map]
  exact congrArg List.sum (List.map_congr_left fun e _ => size_sectionOf now e)

/-- Each job has one section. -/
theorem sizes_dues_le_sum (now : Time) (c : Connector) {l : List (Job × Time)}
    (hl : l.Sublist c.jobs.entries) {S : Finset Job} (h : ∀ e ∈ l, e.1 ∈ S) :
    sizes ((dues now l).map (sectionOf now)) ≤ S.sum Job.size := by
  have hnodup : ((dues now l).map Prod.fst).Nodup := by
    refine List.pairwise_map.mpr (((c.jobs.sorted.sublist hl).filter _).imp ?_)
    exact fun h => ne_of_lt h
  have hsub : ((dues now l).map Prod.fst).toFinset ⊆ S := by
    intro job hjob
    obtain ⟨e, he, rfl⟩ := List.mem_map.mp (List.mem_toFinset.mp hjob)
    exact h e (List.mem_filter.mp he).1
  rw [sizes_sections, ← List.sum_toFinset _ hnodup]
  exact Finset.sum_le_sum_of_subset hsub

/-- All of them fit into forty bytes. -/
theorem sizes_dues_le (now : Time) (c : Connector) {l : List (Job × Time)}
    (hl : l.Sublist c.jobs.entries) : sizes ((dues now l).map (sectionOf now)) ≤ 40 := by
  have hall : ∀ e ∈ l, e.1 ∈ ({.link, .linkEcho, .tear, .tearEcho, .ping, .pingEcho} :
      Finset Job) := by
    intro e _
    cases e.1 <;> simp
  exact sizes_dues_le_sum now c hl hall

/-- Jobs that are not due again at once have their turn where they are due, if they all fit. -/
theorem turns_append {again : Bool} {room : Nat} {pre : List (Job × Time)}
    (h : ∀ e ∈ pre, due now e = true → (e.1.isEcho || !again) = true)
    (hroom : sizes ((dues now pre).map (sectionOf now)) ≤ room) (l : List (Job × Time)) :
    turns now again room (pre ++ l) = dues now pre ++
      turns now again (room - sizes ((dues now pre).map (sectionOf now))) l := by
  induction pre generalizing room with
  | nil => rfl
  | cons e pre ih =>
    have hrest := fun x hx => h x (List.mem_cons_of_mem _ hx)
    unfold dues at hroom ih ⊢
    cases hdue : due now e with
    | false =>
      rw [List.filter_cons_of_neg (by simp [hdue])] at hroom ⊢
      rw [List.cons_append, turns, if_neg (by simp [hdue]), ih hrest hroom]
    | true =>
      rw [List.filter_cons_of_pos hdue] at hroom ⊢
      rw [List.map_cons, Transport.sizes_cons, size_sectionOf] at hroom
      have hheader := e.1.headerSize_le_size
      rw [List.cons_append, turns, if_pos ⟨by omega, hdue⟩,
        if_pos (h e List.mem_cons_self hdue), ih hrest (by omega), List.map_cons,
        Transport.sizes_cons, size_sectionOf, Nat.sub_sub, List.cons_append]

/-- The first job that is due and is not an echo. -/
def question (now : Time) (c : Connector) : Option (Job × Time) :=
  c.jobs.entries.find? fun e => due now e && !e.1.isEcho

/-- The echoes that are written before a ping. -/
def answers (c : Connector) : List (Job × Time) :=
  c.jobs.entries.filter fun e => e.1.isEcho && decide (e.1 < .ping)

/-- A ping that is due again at once is written until the room is too short for a section header.
It does not fit the last time if the room left by the echoes before it is not a multiple of its
size, up to less than a header. -/
def overruns (q : Qos) (now : Time) (room : Nat) (c : Connector) : Bool :=
  !c.timedOut q now && c.relapses now && (c.question now).any (fun e => decide (e.1 = .ping)) &&
    decide (Section.headerSize ≤ (room - Section.headerSize * c.answers.length) % overhead)

/-- The echoes before a ping, where the ping is the first question. -/
theorem answers_of_split {c : Connector} {pre post : List (Job × Time)} {time : Time}
    (hsplit : c.jobs.entries = pre ++ (.ping, time) :: post)
    (hechoes : ∀ e ∈ pre, due now e = true → e.1.isEcho = true) : c.answers = dues now pre := by
  obtain ⟨hbefore, hbehind⟩ := SortedMap.ne_of_split hsplit
  have hpost : post.filter (fun e => e.1.isEcho && decide (e.1 < .ping)) = [] := by
    refine List.filter_eq_nil_iff.mpr fun e he => ?_
    simp [not_lt.mpr (le_of_lt (hbehind e he))]
  rw [answers, hsplit, List.filter_append, List.filter_cons_of_neg (by simp), hpost,
    List.append_nil]
  refine List.filter_congr fun e he => ?_
  have hlt : e.1 < .ping := hbefore e he
  cases hecho : e.1.isEcho with
  | true => simp [hlt, due, hecho]
  | false =>
    cases hdue : due now e with
    | true => rw [hechoes e he hdue] at hecho; cases hecho
    | false => rfl

/-- They are section headers. -/
theorem sizes_answers (now : Time) (c : Connector) :
    sizes (c.answers.map (sectionOf now)) = Section.headerSize * c.answers.length := by
  have hall : ∀ e ∈ c.answers, e.1.size = Section.headerSize := by
    intro e he
    obtain ⟨-, hlt⟩ := Bool.and_eq_true_iff.mp (List.mem_filter.mp he).2
    obtain ⟨job, time⟩ := e
    cases job with
    | link | linkEcho | tear | tearEcho => rfl
    | ping => exact absurd (show Job.ping < .ping from of_decide_eq_true hlt) (by decide)
    | pingEcho => exact absurd (show Job.pingEcho < .ping from of_decide_eq_true hlt) (by decide)
  have hsame : c.answers.map (Job.size ∘ Prod.fst) = c.answers.map fun _ => Section.headerSize :=
    List.map_congr_left hall
  rw [sizes_sections, List.map_map, hsame, List.map_const', List.sum_replicate_nat, Nat.mul_comm]

/-- What has its turn fits, unless a ping overruns the packet. -/
theorem turns_fit (now : Time) {room : Nat} (c : Connector) (hroom : 40 ≤ room) :
    sizes ((turns now (c.relapses now) room c.jobs.entries).map (sectionOf now)) ≤ room ↔
      (c.relapses now && (c.question now).any (fun e => decide (e.1 = .ping)) &&
        decide (Section.headerSize ≤
          (room - Section.headerSize * c.answers.length) % overhead)) = false := by
  have hall := sizes_dues_le now c (List.Sublist.refl _)
  have honce : (∀ e ∈ c.jobs.entries, due now e = true → (e.1.isEcho || !c.relapses now) = true) →
      sizes ((turns now (c.relapses now) room c.jobs.entries).map (sectionOf now)) ≤ room := by
    intro h
    have heach := turns_append h (Nat.le_trans hall hroom) []
    rw [List.append_nil, turns, List.append_nil] at heach
    rw [heach]
    omega
  cases hquestion : c.question now with
  | none =>
    have hechoes : ∀ e ∈ c.jobs.entries, due now e = true → e.1.isEcho = true := by
      intro e he hdue
      have := List.find?_eq_none.mp hquestion e he
      simpa [hdue] using this
    simp only [Option.any_none, Bool.and_false, Bool.false_and, iff_true]
    exact honce fun e he hdue => by rw [hechoes e he hdue, Bool.true_or]
  | some item =>
    cases hagain : c.relapses now with
    | false =>
      simp only [Bool.false_and, iff_true]
      rw [hagain] at honce
      exact honce fun e _ _ => by rw [Bool.not_false, Bool.or_true]
    | true =>
      obtain ⟨job, time⟩ := item
      obtain ⟨hitem, pre, post, hsplit, hpre⟩ := find?_split hquestion
      obtain ⟨hdue, hjob⟩ := Bool.and_eq_true_iff.mp hitem
      rw [Bool.not_eq_true'] at hjob
      have hechoes : ∀ e ∈ pre, due now e = true → e.1.isEcho = true := by
        intro e he hdue
        simpa [hdue] using hpre e he
      have hbefore := sizes_dues_le now c
        (show pre.Sublist c.jobs.entries from hsplit ▸ List.sublist_append_left pre _)
      rw [hsplit, turns_append (fun e he hdue => by rw [hechoes e he hdue, Bool.true_or])
        (Nat.le_trans hbefore hroom), turns_again hdue hjob, List.map_append,
        Transport.sizes_append, List.map_replicate, Transport.sizes_replicate, size_sectionOf]
      generalize hs : sizes ((dues now pre).map (sectionOf now)) = s at hbefore ⊢
      have hheader : Section.headerSize = 4 := rfl
      have hoverhead : overhead = 12 := rfl
      cases job with
      | link | tear =>
        simp only [Option.any_some, reduceCtorEq, decide_false, Bool.and_false, Bool.false_and,
          iff_true]
        simp only [rounds, Job.size, hheader]
        omega
      | ping =>
        have hanswers : s = Section.headerSize * c.answers.length := by
          rw [← hs, ← answers_of_split hsplit hechoes, sizes_answers]
        rw [hheader] at hanswers
        simp only [Option.any_some, decide_true, Bool.true_and, decide_eq_false_iff_not, rounds,
          Job.size, hheader, hoverhead]
        rw [hanswers]
        omega
      | linkEcho | tearEcho | pingEcho => cases hjob

/-- The room that the connector leaves. -/
def leaves (q : Qos) (now : Time) (room : Nat) (c : Connector) : Nat :=
  if c.timedOut q now then room
  else room - sizes ((turns now (c.relapses now) room c.jobs.entries).map (sectionOf now))

/-- The status that the connector leaves. -/
def statusNext (q : Qos) (now : Time) (room : Nat) (c : Connector) : Status :=
  if c.timedOut q now then c.status
  else ((turns now (c.relapses now) room c.jobs.entries).map Prod.fst).foldl Status.wrote c.status

/-- What the connector writes and leaves. It stays within the room unless it overruns it. -/
theorem imbue_eq (q : Qos) (now : Time) {room : Nat} (hroom : 40 ≤ room) :
    (c.imbue q now room).1.status = c.statusNext q now room ∧
      (sizes (c.imbue q now room).2 ≤ room ↔ c.overruns q now room = false) ∧
      room - sizes (c.imbue q now room).2 = c.leaves q now room := by
  unfold imbue statusNext leaves overruns
  split
  · next htime => exact ⟨rfl, by simp [htime], rfl⟩
  · next htime =>
    obtain ⟨hsections, hstatus⟩ : (imbueLoop now room room c).2 = _ ∧ _ := imbueLoop_turns room room
      (List.nil_append c.jobs.entries).symm (fun e he => absurd he List.not_mem_nil)
      (Nat.le_refl room)
    rw [hsections, Bool.eq_false_iff.mpr htime, Bool.not_false, Bool.true_and]
    exact ⟨hstatus, turns_fit now c hroom, rfl⟩

/-- With a resend interval that puts jobs off, forty bytes are enough. -/
theorem sizes_imbue_le (q : Qos) (now : Time) {room : Nat} (hwaits : c.relapses now = false)
    (hroom : 40 ≤ room) : sizes (c.imbue q now room).2 ≤ 40 := by
  have hle := sizes_dues_le now c (List.Sublist.refl _)
  unfold imbue
  split
  · exact Nat.zero_le _
  · rw [(imbueLoop_turns room room (List.nil_append c.jobs.entries).symm
      (fun e he => absurd he List.not_mem_nil) (Nat.le_refl room)).1]
    have heach : turns now (c.relapses now) room (c.jobs.entries ++ []) = _ := turns_append
      (fun e _ _ => by rw [hwaits, Bool.not_false, Bool.or_true]) (Nat.le_trans hle hroom) []
    rw [List.append_nil, turns, List.append_nil] at heach
    rw [heach]
    exact hle

end Connector

/-! ## Acknowledgements -/

/-- How many bytes the acknowledgements that fit take up. -/
def acksSize (room count : Nat) : Nat := overhead * min count (room / overhead)

theorem takeAcks_room (form : Nat → Section) (hform : ∀ v, (form v).size = overhead) (room : Nat)
    (l : List (Nat × Unit)) :
    (takeAcks form room l).2.2 = room - acksSize room l.length ∧
      sizes (takeAcks form room l).1 + (takeAcks form room l).2.2 = room := by
  induction l generalizing room with
  | nil => exact ⟨by simp [takeAcks, acksSize], Nat.zero_add room⟩
  | cons e rest ih =>
    obtain ⟨v, u⟩ := e
    have hdef : overhead = 12 := rfl
    unfold takeAcks
    split
    · next hshort =>
      have hnone : room / overhead = 0 := Nat.div_eq_of_lt hshort
      refine ⟨?_, Nat.zero_add room⟩
      simp [acksSize, hnone]
    · next hfits =>
      obtain ⟨hleft, hsum⟩ := ih (room - (form v).size)
      dsimp only
      rw [hform] at hleft hsum ⊢
      rw [Transport.sizes_cons, hform]
      refine ⟨?_, by omega⟩
      rw [hleft, acksSize, acksSize, hdef, List.length_cons]
      omega

/-- The room that the receiving half leaves. -/
def Istreamer.leaves (now : Time) (room : Nat) (i : Istreamer) : Nat :=
  if overhead ≤ room - acksSize room i.acks.size ∧ i.edge.time ≤ now then
    room - acksSize room i.acks.size - overhead
  else room - acksSize room i.acks.size

/-- The receiving half stays within the room. -/
theorem Istreamer.imbue_room (now : Time) (resend : Int) (room : Nat) (i : Istreamer) :
    sizes (i.imbue now resend room).2 + i.leaves now room = room := by
  obtain ⟨hleft, hsum⟩ := takeAcks_room .moveEcho
    (fun v => by simp [Section.size, Section.payload, overhead]) room i.acks.entries
  unfold imbue leaves drainAcks
  dsimp only
  change _ = room - acksSize room i.acks.size at hleft
  rw [hleft] at hsum ⊢
  split
  · have hedge : (Section.edge i.edge.range).size = overhead := by
      simp [Section.size, Section.payload, overhead]
    rw [Transport.sizes_append, Transport.sizes_cons, hedge, Transport.sizes_nil]
    omega
  · exact hsum

/-! ## The sending half -/

namespace Ostreamer

variable {q : Qos} {now : Time} {resend : Int} {o : Ostreamer}

theorem size_move (h : Nat) (d : Bytes) : (Section.move h d).size = overhead + d.length := by
  simp [Section.size, Section.payload, overhead]
  omega

/-- The turns of one flight: it is sent if it is due and fits, and again for as long as it is due
again at once and fits. -/
def laps (now : Time) (time : Time) : Nat → Nat → Flight → List Flight
  | 0, _, _ => []
  | fuel + 1, room, f =>
    if overhead < room ∧ ready now room (0, f) = true then
      f :: laps now time fuel (room - (overhead + f.data.length)) (f.resent time)
    else []

/-- The flights that have their turn, each with what is left of the room, in the order of their
handles. What is sent gets the given time. -/
def turns (now : Time) (time : Time) : Nat → List (Nat × Flight) → List Flight
  | _, [] => []
  | room, e :: rest =>
    let own := laps now time room room e.2
    own ++ turns now time (room - own.length * (overhead + e.2.data.length)) rest

variable {time : Time}

theorem laps_idle {room : Nat} {f : Flight} (h : ready now room (0, f) = false) (fuel : Nat) :
    laps now time fuel room f = [] := by
  cases fuel with
  | zero => rfl
  | succ fuel => rw [laps, if_neg (by simp [h])]

theorem laps_short {room : Nat} (h : room ≤ overhead) (fuel : Nat) (f : Flight) :
    laps now time fuel room f = [] := by
  cases fuel with
  | zero => rfl
  | succ fuel => rw [laps, if_neg (by omega)]

/-- Every turn takes some of the room, so the room is fuel enough. -/
theorem laps_fuel {fuel room : Nat} (h : room ≤ fuel) (f : Flight) :
    laps now time fuel room f = laps now time room room f := by
  have hoverhead : overhead = 12 := rfl
  induction fuel using Nat.strong_induction_on generalizing room f with
  | _ fuel ih =>
    by_cases hturn : overhead < room ∧ ready now room (0, f) = true
    · obtain ⟨n, rfl⟩ : ∃ n, fuel = n + 1 := ⟨fuel - 1, by omega⟩
      obtain ⟨m, rfl⟩ : ∃ m, room = m + 1 := ⟨room - 1, by omega⟩
      rw [laps, laps, if_pos hturn, if_pos hturn, ih n (by omega) (by omega),
        ih m (by omega) (by omega)]
    · cases fuel with
      | zero => rw [Nat.le_zero.mp h]
      | succ n =>
        rw [laps, if_neg hturn]
        cases room with
        | zero => rfl
        | succ m => rw [laps, if_neg hturn]

theorem turns_skip {room : Nat} {pre : List (Nat × Flight)}
    (h : ∀ e ∈ pre, ready now room e = false) (l : List (Nat × Flight)) :
    turns now time room (pre ++ l) = turns now time room l := by
  induction pre with
  | nil => rfl
  | cons e pre ih =>
    rw [List.cons_append, turns, laps_idle (h e List.mem_cons_self)]
    dsimp only [List.nil_append, List.length_nil]
    rw [Nat.zero_mul, Nat.sub_zero, ih fun x hx => h x (List.mem_cons_of_mem _ hx)]

theorem turns_short {room : Nat} (h : room ≤ overhead) (l : List (Nat × Flight)) :
    turns now time room l = [] := by
  induction l generalizing room with
  | nil => rfl
  | cons e l ih =>
    rw [turns, laps_short h]
    dsimp only [List.nil_append, List.length_nil]
    rw [Nat.zero_mul, Nat.sub_zero, ih h]

/-- A flight has its turn, and may have another one. -/
theorem turns_next {room : Nat} {h : Nat} {f : Flight} (hroom : overhead < room)
    (hready : ready now room (h, f) = true) (l : List (Nat × Flight)) :
    turns now time room ((h, f) :: l) =
      f :: turns now time (room - (overhead + f.data.length)) ((h, f.resent time) :: l) := by
  have hoverhead : overhead = 12 := rfl
  obtain ⟨n, rfl⟩ : ∃ n, room = n + 1 := ⟨room - 1, by omega⟩
  have hlen : (f.resent time).data.length = f.data.length := rfl
  rw [turns, turns, laps, if_pos ⟨hroom, hready⟩, laps_fuel (by omega), hlen]
  dsimp only
  rw [List.length_cons, List.cons_append, Nat.succ_mul, Nat.add_comm (_ * _), Nat.sub_sub]

/-- What does not fit does not fit into less. -/
theorem ready_of_le {room room' : Nat} (hle : room' ≤ room) {e : Nat × Flight}
    (h : ready now room e = false) : ready now room' e = false := by
  rw [← Bool.not_eq_true] at h ⊢
  intro hready
  refine h ?_
  simp only [ready, Bool.and_eq_true, decide_eq_true_eq] at hready ⊢
  exact ⟨hready.1, by omega⟩

/-- Neither what was passed over nor what was just sent is due, or fits into less. -/
theorem not_ready_behind (hwaits : now ≤ later now resend) {room room' : Nat} (hle : room' ≤ room)
    {pre : List (Nat × Flight)} (hpre : ∀ e ∈ pre, ready now room e = false) (h : Nat)
    (f : Flight) : ∀ e ∈ pre ++ [(h, f.resent (later now resend))], ready now room' e = false := by
  refine List.forall_mem_append.mpr ⟨fun e he => ready_of_le hle (hpre e he), fun e he => ?_⟩
  rw [List.mem_singleton.mp he]
  simp [ready, Flight.resent, Int.not_lt.mpr hwaits]

/-- Has the flight used up its attempts? -/
def spent (q : Qos) (f : Flight) : Bool := decide (f.attempt = q.moveAttempts)

/-- The first loop sends the flights that have their turn, up to one that has used up its
attempts. -/
theorem repeatLoop_turns (q : Qos) (now : Time) (resend : Int) (fuel room : Nat)
    {pre post : List (Nat × Flight)} (hentries : o.moves.entries = pre ++ post)
    (hpre : ∀ e ∈ pre, ready now room e = false) (hfuel : room ≤ fuel) :
    (o.repeatLoop q now resend fuel room).2.1.length =
        ((turns now (later now resend) room post).takeWhile fun f => !spent q f).length ∧
      (o.repeatLoop q now resend fuel room).2.2.2 =
        (turns now (later now resend) room post).any (spent q) ∧
      sizes (o.repeatLoop q now resend fuel room).2.1 +
        (o.repeatLoop q now resend fuel room).2.2.1 = room ∧
      ((o.repeatLoop q now resend fuel room).2.2.2 = true →
        overhead < (o.repeatLoop q now resend fuel room).2.2.1) := by
  induction fuel generalizing o pre post room with
  | zero =>
    rw [turns_short (by omega)]
    exact ⟨rfl, rfl, Nat.zero_add room, fun h => by cases h⟩
  | succ fuel ih =>
    unfold repeatLoop
    rw [hentries, find?_behind hpre]
    by_cases hshort : room ≤ overhead
    · rw [if_pos hshort, turns_short hshort]
      exact ⟨rfl, rfl, Nat.zero_add room, fun h => by cases h⟩
    rw [if_neg hshort]
    cases hpost : post.find? (ready now room) with
    | none =>
      have hnil : turns now (later now resend) room (post ++ []) = _ := turns_skip
        (fun e he => by simpa using List.find?_eq_none.mp hpost e he) []
      rw [List.append_nil] at hnil
      rw [hnil]
      exact ⟨rfl, rfl, Nat.zero_add room, fun h => by cases h⟩
    | some item =>
      obtain ⟨hready, skip, rest, rfl, hskip⟩ := find?_split hpost
      obtain ⟨h, f⟩ := item
      rw [turns_skip hskip, turns_next (by omega) hready]
      dsimp only
      by_cases hspent : f.attempt = q.moveAttempts
      · have hs : spent q f = true := decide_eq_true hspent
        rw [if_pos hspent, List.takeWhile_cons, List.any_cons, hs]
        exact ⟨rfl, rfl, Nat.zero_add room, fun _ => by dsimp only; omega⟩
      · have hs : spent q f = false := decide_eq_false hspent
        have hsplit : o.moves.entries = (pre ++ skip) ++ (h, f) :: rest := by
          rw [hentries, List.append_assoc]
        have hlen : f.data.length ≤ room - overhead := by
          simp only [ready, Bool.and_eq_true, decide_eq_true_eq] at hready
          exact hready.2
        have hentries' : (o.moves.modify h (Flight.resent (later now resend))).entries =
            (pre ++ skip) ++ (h, f.resent (later now resend)) :: rest :=
          SortedMap.entries_modify hsplit (Flight.resent (later now resend))
        have hbehind : ∀ e ∈ pre ++ skip,
            ready now (room - (overhead + f.data.length)) e = false := fun e he =>
          ready_of_le (Nat.sub_le _ _) (List.forall_mem_append.mpr ⟨hpre, hskip⟩ e he)
        have hoverhead : overhead = 12 := rfl
        obtain ⟨hlength, hgave, hsum, hleft⟩ := ih
          (o := { o with moves := o.moves.modify h (Flight.resent (later now resend)) })
          _ hentries' hbehind (by omega)
        rw [if_neg hspent, List.takeWhile_cons, List.any_cons, hs, size_move]
        dsimp only [Bool.not_false, Bool.false_or]
        refine ⟨?_, hgave, ?_, hleft⟩
        · rw [List.length_cons, hlength]
          rfl
        · rw [Transport.sizes_cons, size_move]
          omega

/-- The second loop stays within the room. -/
theorem freshLoop_room (q : Qos) (now : Time) (resend : Int) (fuel room : Nat) (o : Ostreamer) :
    sizes (o.freshLoop q now resend fuel room).2.1 + (o.freshLoop q now resend fuel room).2.2 =
      room := by
  induction fuel generalizing o room with
  | zero => exact Nat.zero_add room
  | succ fuel ih =>
    unfold freshLoop
    split
    · dsimp only
      split
      · exact Nat.zero_add room
      · dsimp only
        have hlen := o.buffer.pull_length_le (min (wsub o.range o.buffer.head) (room - overhead))
        have hsize :
            (o.snippet (min (wsub o.range o.buffer.head) (room - overhead))).size ≤ room := by
          rw [snippet, size_move]
          omega
        have hrest := ih
          (room - (o.snippet (min (wsub o.range o.buffer.head) (room - overhead))).size)
          (o.launch (min (wsub o.range o.buffer.head) (room - overhead)) (later now resend))
        rw [Transport.sizes_cons]
        omega
    · exact Nat.zero_add room

/-- The sending half comes to a flight that has used up its attempts when it has already sent
another one. -/
def spoils (q : Qos) (now : Time) (resend : Int) (room : Nat) (o : Ostreamer) : Bool :=
  match turns now (later now resend) room o.moves.entries with
  | [] => false
  | f :: rest => !spent q f && rest.any (spent q)

/-- The sending half stays within the room. Where it gives up, it does so with nothing written or
it spoils the packet, and has more than the overhead of a snippet left. -/
theorem imbue_room (q : Qos) (now : Time) (resend : Int) (room : Nat) (o : Ostreamer) :
    sizes (o.imbue q now resend room).2.1 ≤ room ∧
      ((o.imbue q now resend room).2.2 && !(o.imbue q now resend room).2.1.isEmpty) =
        o.spoils q now resend room ∧
      ((o.imbue q now resend room).2.2 = true →
        overhead + sizes (o.imbue q now resend room).2.1 < room) := by
  obtain ⟨hlength, hgave, hsum, hleft⟩ := repeatLoop_turns q now resend room room
    (List.nil_append o.moves.entries).symm (fun e he => absurd he List.not_mem_nil) (Nat.le_refl _)
  unfold imbue spoils
  rcases hr : o.repeatLoop q now resend room room with ⟨o₁, again, room₁, gaveUp⟩
  rw [hr] at hlength hgave hsum hleft
  dsimp only at hlength hgave hsum hleft ⊢
  cases gaveUp with
  | true =>
    have hroom := hleft rfl
    rw [if_pos rfl]
    dsimp only
    refine ⟨by omega, ?_, fun _ => by omega⟩
    cases hturns : turns now (later now resend) room o.moves.entries with
    | nil =>
      rw [hturns] at hgave
      cases hgave
    | cons f rest =>
      rw [hturns] at hlength hgave
      rw [List.any_cons] at hgave
      rw [List.takeWhile_cons] at hlength
      cases hs : spent q f with
      | true =>
        rw [hs] at hlength
        simp [List.length_eq_zero_iff.mp hlength, hs]
      | false =>
        rw [hs, Bool.false_or] at hgave
        rw [hs] at hlength
        have hne : again ≠ [] := by
          intro hnil
          rw [hnil] at hlength
          cases hlength
        simp [hne, hs, ← hgave]
  | false =>
    have hfresh := freshLoop_room q now resend (room₁ + 1) room₁ o₁
    rw [if_neg (by decide)]
    rcases hf : o₁.freshLoop q now resend (room₁ + 1) room₁ with ⟨o₂, fresh, room₂⟩
    rw [hf] at hfresh
    dsimp only at hfresh ⊢
    obtain ⟨_, hecho⟩ := takeAcks_room .edgeEcho
      (fun v => by simp [Section.size, Section.payload, overhead]) room₂ o₂.acks.entries
    refine ⟨?_, ?_, fun h => by cases h⟩
    · rw [Transport.sizes_append, Transport.sizes_append]
      dsimp only [drainAcks]
      omega
    · -- nothing that had its turn had used up its attempts
      cases hturns : turns now (later now resend) room o.moves.entries with
      | nil => rfl
      | cons f rest =>
        rw [hturns, List.any_cons] at hgave
        have hrest : rest.any (spent q) = false := (Bool.or_eq_false_iff.mp hgave.symm).2
        simp [hrest]

end Ostreamer

end Tubus.Udp
