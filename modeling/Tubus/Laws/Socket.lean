import Mathlib.Algebra.BigOperators.Group.List.Basic
import Tubus.Socket

/-!
# What a transfer counts

The sizes reported for a buffer are counted once in the inner form, on top of all that was counted
before, and the sum is added to what was counted before once more. So every buffer that is begun
doubles the count of the earlier ones (`weigh`), and the surplus over the true total is what they
weigh above their size (`weigh_eq`).

# What a transfer hands to the channel

The inner form reports success as well when nothing more is allowed and part of its buffer is left.
The outer form goes on with the next buffer all the same, and asks the limiter again. So there is a
hole as soon as the limiter gives something after it gave nothing to a transfer that had counted
something (`Unbroken`, `issued_prefix`).
-/

namespace Tubus.Socket

open Lib

/-- The count after buffers with these sizes, the last one first. -/
def weigh : List Nat → Nat
  | [] => 0
  | a :: rest => 2 * weigh rest + a

/-- What the sizes of earlier buffers are counted too often: the one `i` buffers ago `2 ^ i - 1`
times. -/
def surplus (spans : List Nat) : Nat := (spans.zipIdx.map fun s => s.1 * (2 ^ s.2 - 1)).sum

theorem weigh_eq_from (spans : List Nat) (j : Nat) :
    2 ^ j * weigh spans =
      spans.sum + ((spans.zipIdx j).map fun s => s.1 * (2 ^ s.2 - 1)).sum := by
  induction spans generalizing j with
  | nil => simp [weigh]
  | cons a rest ih =>
    have hpow : 1 ≤ 2 ^ j := Nat.one_le_two_pow
    have ha : a * 2 ^ j = a + a * (2 ^ j - 1) := by
      rw [Nat.mul_sub, Nat.mul_one]
      have hle := Nat.le_mul_of_pos_right a hpow
      omega
    have hrest : 2 ^ j * (2 * weigh rest) = 2 ^ (j + 1) * weigh rest := by
      rw [pow_succ, Nat.mul_assoc]
    rw [weigh, Nat.mul_add, hrest, ih (j + 1), Nat.mul_comm (2 ^ j) a, ha, List.zipIdx_cons,
      List.map_cons, List.sum_cons, List.sum_cons]
    dsimp only
    omega

/-- The count is the true total and the surplus. -/
theorem weigh_eq (spans : List Nat) : weigh spans = spans.sum + surplus spans := by
  have hall := weigh_eq_from spans 0
  rwa [pow_zero, Nat.one_mul] at hall

namespace Transfer

variable {α : Type}

/-- The counts that a transfer carries, in terms of what the channel reported. -/
def Counted (x : Transfer α) : Prop :=
  match x.stage with
  | .waiting _ result _ outer _ => ∃ a rest, x.spans = a :: rest ∧ outer = weigh rest % 2 ^ 64 ∧
      result = (weigh rest + a) % 2 ^ 64
  | .returning _ size outer _ => ∃ a rest, x.spans = a :: rest ∧ outer = weigh rest % 2 ^ 64 ∧
      size = (weigh rest + a) % 2 ^ 64
  | .done _ size => size = weigh x.spans % 2 ^ 64

theorem Counted.postOne {x : Transfer α} {a : Nat} {rest : List Nat} (hspans : x.spans = a :: rest)
    (limit : Nat) (buffer : List α) (later : List (List α)) :
    Counted (x.postOne limit ((weigh rest + a) % 2 ^ 64) buffer (weigh rest % 2 ^ 64) later) := by
  unfold Transfer.postOne
  split
  · exact ⟨a, rest, hspans, rfl, rfl⟩
  · dsimp only
    split <;> exact ⟨a, rest, hspans, rfl, rfl⟩

theorem Counted.postAll (x : Transfer α) (limit : Nat) (buffers : List (List α)) :
    Counted (x.postAll limit (weigh x.spans % 2 ^ 64) buffers) := by
  cases buffers with
  | nil => rfl
  | cons buffer later =>
    exact Counted.postOne (x := { x with spans := 0 :: x.spans }) (a := 0) rfl limit buffer later

theorem Counted.start (channel : Bool) (limit : Nat) (buffers : List (List α)) :
    Counted (start channel limit buffers) := by
  unfold Transfer.start
  split
  · exact Counted.postAll ⟨.done .brokenPipe 0, [], [], []⟩ limit buffers
  · rfl

theorem Counted.complete {x x' : Transfer α} {limit : Nat} {ec : Ec} {size : Nat} (h : Counted x)
    (hstep : x.complete limit ec size = some x') : Counted x' := by
  unfold Transfer.complete at hstep
  cases hstage : x.stage with
  | waiting part result buffer outer later =>
    rw [Counted, hstage] at h
    obtain ⟨a, rest, hspans, rfl, rfl⟩ := h
    have hsum : wadd ((weigh rest + a) % 2 ^ 64) size = (weigh rest + (a + size)) % 2 ^ 64 := by
      rw [wadd, Nat.mod_add_mod, Nat.add_assoc]
    simp only [hstage, hsum, hspans, report] at hstep
    split at hstep
    · cases hstep
      exact ⟨a + size, rest, rfl, rfl, rfl⟩
    · cases hstep
      exact .postOne rfl limit _ later
  | returning ec size outer later =>
    rw [hstage] at hstep
    cases hstep
  | done ec size =>
    rw [hstage] at hstep
    cases hstep

theorem Counted.callback {x x' : Transfer α} {limit : Nat} (h : Counted x)
    (hstep : x.callback limit = some x') : Counted x' := by
  unfold Transfer.callback at hstep
  cases hstage : x.stage with
  | returning ec size outer later =>
    rw [Counted, hstage] at h
    obtain ⟨a, rest, hspans, rfl, rfl⟩ := h
    have hsum : wadd (weigh rest % 2 ^ 64) ((weigh rest + a) % 2 ^ 64) =
        weigh x.spans % 2 ^ 64 := by
      rw [wadd, ← Nat.add_mod, hspans, weigh]
      congr 1
      omega
    simp only [hstage, hsum] at hstep
    split at hstep
    · cases hstep
      rfl
    · cases hstep
      exact .postAll x limit later
  | waiting part result buffer outer later =>
    rw [hstage] at hstep
    cases hstep
  | done ec size =>
    rw [hstage] at hstep
    cases hstep

theorem Counted.step {x x' : Transfer α} (h : Counted x) {e : Event} (hstep : x.step e = some x') :
    Counted x' := by
  cases e with
  | complete limit ec size => exact h.complete hstep
  | callback limit => exact h.callback hstep

/-- The count that the caller is given is the sum of the sizes that the channel reported exactly
when the surplus vanishes, as a word. -/
theorem count_iff {buffers : List (List α)} {x : Transfer α} {ec : Ec} {n : Nat}
    (h : (system buffers).Reachable x) (hdone : x.stage = .done ec n) :
    n = x.spans.sum % 2 ^ 64 ↔ surplus x.spans % 2 ^ 64 = 0 := by
  have hcount : Counted x := by
    refine System.Reaches.invariant (P := Counted) ?_ ?_ h
    · rintro x ⟨channel, limit, rfl⟩
      exact .start channel limit buffers
    · intro x e x' _ hx hstep
      exact hx.step hstep
  rw [Counted, hdone] at hcount
  rw [hcount, weigh_eq]
  omega

/-- Two bytes of the second buffer, and nothing of the first, which is empty. -/
theorem count_iff_second :
    ∃ x, (system [[], [1, 2]]).Reachable x ∧ x.stage = .done .success 2 ∧
      2 = x.spans.sum % 2 ^ 64 := by
  have hrun : ((system [[], [1, 2]]).run (start true 9 [[], [1, 2]])
      [.callback 9, .complete 9 .success 2, .callback 9]).map
        (fun x => (x.stage, surplus x.spans % 2 ^ 64)) =
      some (Stage.done Ec.success 2, 0) := by decide
  obtain ⟨x, hx, hv⟩ := System.exists_of_run (S := system [[], [1, 2]])
    (s := start true 9 [[], [1, 2]]) _ ⟨true, 9, rfl⟩ hrun
  simp only [Prod.mk.injEq] at hv
  exact ⟨x, hx, hv.1, (count_iff hx hv.1).mpr hv.2⟩

/-- One byte of each of two buffers is reported as three. -/
theorem count_doubled :
    ¬ ∀ (buffers : List (List Nat)) (x : Transfer Nat) (ec : Ec) (n : Nat),
      (system buffers).Reachable x → x.stage = .done ec n → n = x.spans.sum % 2 ^ 64 := by
  intro hall
  have hrun : ((system [[1], [2]]).run (start true 9 [[1], [2]])
      [.complete 9 .success 1, .callback 9, .complete 9 .success 1, .callback 9]).map
        (fun x => (x.stage, x.spans)) = some (Stage.done Ec.success 3, [1, 1]) := by decide
  obtain ⟨x, hx, hv⟩ := System.exists_of_run (S := system [[1], [2]])
    (s := start true 9 [[1], [2]]) _ ⟨true, 9, rfl⟩ hrun
  simp only [Prod.mk.injEq] at hv
  have hsum := hall _ x _ _ hx hv.1
  rw [hv.2] at hsum
  cases hsum

/-! ## Holes -/

/-- What is still ahead: the rest of the current buffer, and the buffers after it. -/
def ahead (x : Transfer α) : List α :=
  match x.stage with
  | .waiting part _ buffer _ later => buffer.drop part.length ++ later.flatten
  | .returning _ _ _ later => later.flatten
  | .done _ _ => []

/-- The channel's operations succeed with the size that was asked for. -/
def Granted (x : Transfer α) : Event → Prop
  | .complete _ ec size =>
    ec = .success ∧
      ∀ part result buffer outer later, x.stage = .waiting part result buffer outer later →
        size = part.length
  | .callback _ => True

/-- Once the limiter gave nothing to a transfer that had counted something, it gave nothing any
more. -/
def Unbroken (given : List (Nat × Nat)) : Prop :=
  given.Pairwise fun a b => a.1 = 0 → a.2 ≠ 0 → b.1 = 0

instance (given : List (Nat × Nat)) : Decidable (Unbroken given) :=
  inferInstanceAs (Decidable (List.Pairwise _ _))

/-- What was handed over, what is ahead, and what the limiter gave. Nothing was left so far; or part
of a buffer was left, and the limiter gave nothing since; or it did, and there is a hole. -/
inductive Course (total issued ahead : List α) (given : List (Nat × Nat)) : Prop where
  | whole (all : issued ++ ahead = total) (none : ∀ g ∈ given, g.1 = 0 → g.2 = 0)
  | left (front : issued <+: total) (rear : ahead <:+ total)
    (behind : issued.length + ahead.length < total.length) (unbroken : Unbroken given)
    (gone : ∃ g ∈ given, g.1 = 0 ∧ g.2 ≠ 0)
  | hole (broken : ¬ Unbroken given) (apart : total.Nodup → ¬ issued <+: total)

section

variable {total issued ahead part rest buffer : List α} {given : List (Nat × Nat)}
  {limit result : Nat}

theorem Unbroken.of_none (h : ∀ g ∈ given, g.1 = 0 → g.2 = 0) : Unbroken given :=
  List.pairwise_iff_forall_sublist.mpr fun hsub hzero hcount =>
    absurd (h _ (hsub.subset List.mem_cons_self) hzero) hcount

theorem unbroken_append (g : Nat × Nat) : Unbroken (given ++ [g]) ↔
    Unbroken given ∧ ∀ a ∈ given, a.1 = 0 → a.2 ≠ 0 → g.1 = 0 := by
  unfold Unbroken
  rw [List.pairwise_append]
  simp only [List.pairwise_singleton, true_and, List.mem_singleton, forall_eq]

/-- As long as there is no hole the regions are a prefix. -/
theorem Course.isPrefix (h : Course total issued ahead given) (hunbroken : Unbroken given) :
    issued <+: total := by
  cases h with
  | whole all none => exact ⟨_, all⟩
  | left front rear behind unbroken gone => exact front
  | hole broken apart => exact absurd hunbroken broken

theorem Course.unbroken (h : Course total issued ahead given) (hnodup : total.Nodup)
    (hpre : issued <+: total) : Unbroken given := by
  cases h with
  | whole all none => exact .of_none none
  | left front rear behind unbroken gone => exact unbroken
  | hole broken apart => exact absurd hpre (apart hnodup)

/-- Where elements differ, what is ahead of a transfer that is behind does not go on from what was
handed over. -/
theorem not_prefix_behind (hnodup : total.Nodup) (hpart : part ≠ [])
    (hrear : part ++ rest <:+ total)
    (hbehind : issued.length + (part ++ rest).length < total.length) :
    ¬ issued ++ part <+: total := by
  rintro ⟨more, hmore⟩
  obtain ⟨skipped, hskipped⟩ := hrear
  obtain ⟨a, part, rfl⟩ := List.exists_cons_of_ne_nil hpart
  have hlen := congrArg List.length hskipped
  rw [List.length_append] at hlen
  have hat : total[issued.length]? = some a := by
    rw [← hmore, List.append_assoc, List.getElem?_append_right (Nat.le_refl _), Nat.sub_self]
    rfl
  have hat' : total[skipped.length]? = some a := by
    rw [← hskipped, List.getElem?_append_right (Nat.le_refl _), Nat.sub_self]
    rfl
  have heq := (List.getElem?_inj (by omega) hnodup).mp (hat.trans hat'.symm)
  omega

/-- The inner form hands over a part, which is empty only if the limiter gave nothing and nothing is
counted yet. -/
theorem Course.grant (h : Course total issued (part ++ rest) given) (hpart : part = [] ↔ limit = 0)
    (hresult : limit = 0 → result = 0 ∨ part ≠ []) :
    Course total (issued ++ part) rest (given ++ [(limit, result)]) := by
  have hcounted : limit = 0 → result = 0 := fun hzero =>
    (hresult hzero).resolve_right fun hne => hne (hpart.mpr hzero)
  cases h with
  | whole all none =>
    refine .whole (by rw [List.append_assoc, all]) fun g hg => ?_
    obtain hg | hg := List.mem_append.mp hg
    · exact none g hg
    · rw [List.mem_singleton] at hg
      subst hg
      exact hcounted
  | left front rear behind unbroken gone =>
    by_cases hzero : limit = 0
    · rw [hpart.mpr hzero] at rear behind ⊢
      rw [List.append_nil]
      refine .left front rear behind ((unbroken_append _).mpr ⟨unbroken, fun _ _ _ _ => hzero⟩) ?_
      obtain ⟨g, hg, hgone⟩ := gone
      exact ⟨g, List.mem_append_left _ hg, hgone⟩
    · refine .hole (fun hunbroken => ?_) fun hnodup =>
        not_prefix_behind hnodup (mt hpart.mp hzero) rear behind
      obtain ⟨g, hg, hnothing, hcount⟩ := gone
      exact hzero (((unbroken_append _).mp hunbroken).2 g hg hnothing hcount)
  | hole broken apart =>
    exact .hole (fun hunbroken => broken ((unbroken_append _).mp hunbroken).1)
      fun hnodup hpre => apart hnodup ((List.prefix_append _ _).trans hpre)

/-- The inner form leaves the rest of its buffer. -/
theorem Course.leave (h : Course total issued (buffer ++ rest) given) (hbuffer : buffer ≠ [])
    (hresult : result ≠ 0) : Course total issued rest (given ++ [(0, result)]) := by
  have hpos := List.length_pos_iff.mpr hbuffer
  have hgone : ∃ g ∈ given ++ [(0, result)], g.1 = 0 ∧ g.2 ≠ 0 :=
    ⟨(0, result), List.mem_append_right _ List.mem_cons_self, rfl, hresult⟩
  cases h with
  | whole all none =>
    refine .left ⟨_, all⟩ ⟨issued ++ buffer, by rw [List.append_assoc, all]⟩ ?_
      ((unbroken_append _).mpr ⟨.of_none none, fun _ _ _ _ => rfl⟩) hgone
    rw [← all, List.length_append, List.length_append]
    omega
  | left front rear behind unbroken gone =>
    refine .left front ((List.suffix_append _ _).trans rear) ?_
      ((unbroken_append _).mpr ⟨unbroken, fun _ _ _ _ => rfl⟩) hgone
    rw [List.length_append] at behind
    omega
  | hole broken apart =>
    exact .hole (fun hunbroken => broken ((unbroken_append _).mp hunbroken).1) apart

end

/-- The course of a transfer that is under way; or it is over. -/
def Kept (total : List α) (x : Transfer α) : Prop :=
  Course total x.issued.flatten x.ahead x.given ∨
    (∃ ec size, x.stage = .done ec size) ∧ (Unbroken x.given → x.issued.flatten <+: total) ∧
      (total.Nodup → x.issued.flatten <+: total → Unbroken x.given)

/-- The inner form comes to a buffer. -/
theorem Kept.postOne {total : List α} {x : Transfer α} {buffer : List α} {later : List (List α)}
    (h : Course total x.issued.flatten (buffer ++ later.flatten) x.given)
    (limit result outer : Nat) : (x.postOne limit result buffer outer later).Kept total := by
  left
  unfold Transfer.postOne
  split
  · next hempty =>
    rw [List.eq_nil_of_length_eq_zero hempty] at h
    exact h
  · next hsome =>
    have hlen : (buffer.take (min limit buffer.length)).length = min limit buffer.length := by
      rw [List.length_take]
      omega
    have hnone : buffer.take (min limit buffer.length) = [] ↔ limit = 0 := by
      rw [← List.length_eq_zero_iff, hlen]
      omega
    have hcut : buffer.take (min limit buffer.length) ++
        buffer.drop (buffer.take (min limit buffer.length)).length = buffer := by
      rw [hlen, List.take_append_drop]
    dsimp only
    split
    · next hpart =>
      have hcourse : Course total (x.issued.flatten ++ buffer.take (min limit buffer.length))
          (buffer.drop (buffer.take (min limit buffer.length)).length ++ later.flatten)
          (x.given ++ [(limit, result)]) := by
        refine .grant ?_ hnone fun _ => hpart.symm.imp_right fun hpos => List.length_pos_iff.mp hpos
        rwa [← List.append_assoc, hcut]
      have hissued : (x.issued ++ [buffer.take (min limit buffer.length)]).flatten =
          x.issued.flatten ++ buffer.take (min limit buffer.length) := by
        rw [List.flatten_append, List.flatten_singleton]
      rw [← hissued] at hcourse
      exact hcourse
    · next hpart =>
      obtain ⟨hzero, hresult⟩ := not_or.mp hpart
      have hlimit : limit = 0 :=
        hnone.mp (List.eq_nil_of_length_eq_zero (Nat.eq_zero_of_not_pos hzero))
      rw [hlimit]
      exact h.leave (fun hnil => hsome (by rw [hnil]; rfl)) hresult

/-- The outer form goes on. -/
theorem Kept.postAll {total : List α} {x : Transfer α} {buffers : List (List α)}
    (h : Course total x.issued.flatten buffers.flatten x.given) (limit result : Nat) :
    (x.postAll limit result buffers).Kept total := by
  cases buffers with
  | nil => exact .inl h
  | cons buffer later =>
    exact .postOne (x := { x with spans := 0 :: x.spans }) h limit result result

theorem Kept.start (channel : Bool) (limit : Nat) (buffers : List (List α)) :
    (start channel limit buffers).Kept buffers.flatten := by
  unfold Transfer.start
  split
  · have hcourse : Course buffers.flatten [] buffers.flatten [] :=
      .whole (List.nil_append _) fun _ hg => absurd hg List.not_mem_nil
    exact .postAll (x := ⟨.done .brokenPipe 0, [], [], []⟩) hcourse limit 0
  · exact .inr ⟨⟨_, _, rfl⟩, fun _ => List.nil_prefix, fun _ _ => .nil⟩

/-- One step keeps the course. -/
theorem Kept.step {total : List α} {x x' : Transfer α} {e : Event} (h : x.Kept total)
    (hgranted : x.Granted e) (hstep : x.step e = some x') : x'.Kept total := by
  cases e with
  | complete limit ec size =>
    simp only [Transfer.step, Transfer.complete] at hstep
    cases hstage : x.stage with
    | waiting part result buffer outer later =>
      obtain ⟨rfl, hsize⟩ := hgranted
      have hlen := hsize _ _ _ _ _ hstage
      simp only [hstage, ne_eq, not_true_eq_false, if_false] at hstep
      cases hstep
      obtain h | ⟨⟨_, _, hdone⟩, -⟩ := h
      · rw [ahead, hstage] at h
        rw [hlen]
        exact .postOne (x := { x with spans := report part.length x.spans }) h limit _ _
      · rw [hstage] at hdone
        cases hdone
    | returning ec size outer later =>
      rw [hstage] at hstep
      cases hstep
    | done ec size =>
      rw [hstage] at hstep
      cases hstep
  | callback limit =>
    simp only [Transfer.step, Transfer.callback] at hstep
    cases hstage : x.stage with
    | returning ec size outer later =>
      simp only [hstage] at hstep
      obtain h | ⟨⟨_, _, hdone⟩, -⟩ := h
      · rw [ahead, hstage] at h
        split at hstep
        · cases hstep
          exact .inr ⟨⟨_, _, rfl⟩, h.isPrefix, h.unbroken⟩
        · cases hstep
          exact .postAll h limit _
      · rw [hstage] at hdone
        cases hdone
    | waiting part result buffer outer later =>
      rw [hstage] at hstep
      cases hstep
    | done ec size =>
      rw [hstage] at hstep
      cases hstep

/-- A transfer hands the channel a prefix of its buffers, one region after another, exactly as long
as the limiter gives nothing any more once it gave nothing to a transfer that had counted something.
The converse is for elements that differ, as the places of bytes do. -/
theorem issued_prefix {buffers : List (List α)} {x : Transfer α}
    (h : (system buffers).Reaches Granted x) :
    (Unbroken x.given → x.issued.flatten <+: buffers.flatten) ∧
      (buffers.flatten.Nodup → x.issued.flatten <+: buffers.flatten → Unbroken x.given) := by
  have hkept : x.Kept buffers.flatten := by
    refine System.Reaches.invariant (P := Kept buffers.flatten) ?_ ?_ h
    · rintro x ⟨channel, limit, rfl⟩
      exact .start channel limit buffers
    · intro x e x' hgranted hx hstep
      exact hx.step hgranted hstep
  obtain hcourse | ⟨-, hdone⟩ := hkept
  · exact ⟨hcourse.isPrefix, hcourse.unbroken⟩
  · exact hdone

/-- One byte is left of the first buffer, and the second one is passed by. -/
theorem issued_prefix_left :
    ∃ x, (system [[1, 2], [3]]).Reaches Granted x ∧ x.given = [(1, 0), (0, 1), (0, 1)] ∧
      x.issued.flatten <+: [[1, 2], [3]].flatten := by
  have hstart : (system [[1, 2], [3]]).Reaches Granted (start true 1 [[1, 2], [3]]) :=
    .start ⟨true, 1, rfl⟩
  have hleft : (system [[1, 2], [3]]).Reaches Granted
      ⟨.returning .success 1 0 [[3]], [[1]], [1], [(1, 0), (0, 1)]⟩ := by
    refine .next (e := .complete 0 .success 1) hstart ⟨rfl, ?_⟩ rfl
    intro part result buffer outer later hstage
    cases hstage
    rfl
  have hpassed : (system [[1, 2], [3]]).Reaches Granted
      ⟨.returning .success 1 1 [], [[1]], [0, 1], [(1, 0), (0, 1), (0, 1)]⟩ :=
    .next (e := .callback 0) hleft trivial rfl
  obtain ⟨hpre, -⟩ := issued_prefix hpassed
  exact ⟨_, hpassed, rfl, hpre (by decide)⟩

/-- The second of the first buffer's bytes arrives only after the limiter was asked for it. -/
theorem issued_hole :
    ¬ ∀ (buffers : List (List Nat)) (x : Transfer Nat), buffers.flatten.Nodup →
      (system buffers).Reaches Granted x → x.issued.flatten <+: buffers.flatten := by
  intro hall
  have hstart : (system [[1, 2], [3]]).Reaches Granted (start true 1 [[1, 2], [3]]) :=
    .start ⟨true, 1, rfl⟩
  have hleft : (system [[1, 2], [3]]).Reaches Granted
      ⟨.returning .success 1 0 [[3]], [[1]], [1], [(1, 0), (0, 1)]⟩ := by
    refine .next (e := .complete 0 .success 1) hstart ⟨rfl, ?_⟩ rfl
    intro part result buffer outer later hstage
    cases hstage
    rfl
  have hhole : (system [[1, 2], [3]]).Reaches Granted
      ⟨.waiting [3] 1 [3] 1 [], [[1], [3]], [0, 1], [(1, 0), (0, 1), (1, 1)]⟩ :=
    .next (e := .callback 1) hleft trivial rfl
  have hpre := hall _ _ (by decide) hhole
  revert hpre
  decide

end Transfer

end Tubus.Socket
