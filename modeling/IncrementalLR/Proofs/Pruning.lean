/-
**Which stacks win.**

Stacks are ranked by their scores, and those of equal scores by the number of their records.  Two
stacks are rivals if only one of them goes on.  Being rivals is not transitive: what a stack has
beaten before it loses itself was never compared with the stack that it loses to.  That stack still
outranks it, and whatever is left in the end was compared with everything behind it.

After each step of a parse the stacks that go on are chosen: during recovery those with the highest
scores, else the first ones that pruning leaves.

Main definitions:

* `Stack.rank`, `Stack.Rivals` — what stacks are compared by, and which are compared;
* `Stack.IsBestOf` — stacks with the highest score of some;
* `Parse.chosen`, `Parse.chosenChecked` — the stacks that go on, also on a machine.

Main results:

* `pairwise_prune`, `exists_le_prune` — what is left has no rivals, and outranks what was dropped;
* `prune_keeps_best` — **pruning drops only stacks that lose**;
* `pruneChecked_eq` — a machine drops the same stacks where the differences of scores fit;
* `Parse.ensures_selectStacks` — a step goes on with the chosen stacks.
-/

import IncrementalLR.Parse.Scores
import IncrementalLR.Proofs.Tokens
import Mathlib.Data.List.MinMax
import Mathlib.Data.Prod.Lex

set_option relaxedAutoImplicit false
set_option autoImplicit false

namespace IncrementalLR

namespace Stack

/-- What stacks are ranked by: the score, and of equal scores the number of slots of all records. -/
def rank (s : Stack) : Int ×ₗ Nat := toLex (s.score, s.bufferLength)

/-- Stacks of which only one goes on: they are in the same states, or both have long records of
their own. -/
def Rivals (minLength : Nat) (a b : Stack) : Prop :=
  a.states = b.states ∨ minLength < 4 * a.own.size ∧ minLength < 4 * b.own.size

instance (minLength : Nat) (a b : Stack) : Decidable (a.Rivals minLength b) :=
  inferInstanceAs (Decidable (_ ∨ _))

/-- None of the given stacks has a higher score. -/
def IsBestOf (l : List Stack) (s : Stack) : Prop := ∀ x ∈ l, x.score ≤ s.score

instance (l : List Stack) (s : Stack) : Decidable (s.IsBestOf l) :=
  inferInstanceAs (Decidable (∀ x ∈ l, x.score ≤ s.score))

theorem sameState_iff {a b : Stack} : a.sameState b = true ↔ a.states = b.states := by
  simp [sameState, states, and_comm]

theorem isComparable_iff {minLength : Nat} {a b : Stack} :
    a.isComparable minLength b = true ↔ a.Rivals minLength b := by
  simp [isComparable, Rivals, sameState_iff]

theorem beats_iff {a b : Stack} : a.beats b = true ↔ b.rank < a.rank := by
  simp only [beats, rank, Prod.Lex.toLex_lt_toLex, Bool.or_eq_true, Bool.and_eq_true,
    decide_eq_true_eq, @eq_comm _ a.score]

theorem score_le_of_rank_le {a b : Stack} (h : a.rank ≤ b.rank) : a.score ≤ b.score :=
  Prod.Lex.monotone_fst _ _ h

theorem IsBestOf.of_rank_le {l : List Stack} {a b : Stack} (ha : a.IsBestOf l)
    (h : a.rank ≤ b.rank) : b.IsBestOf l :=
  fun x hx => (ha x hx).trans (score_le_of_rank_le h)

/-- One of some stacks has the highest score. -/
theorem exists_isBestOf {l : List Stack} (h : l ≠ []) : ∃ s ∈ l, s.IsBestOf l := by
  obtain ⟨s, hs⟩ := Option.ne_none_iff_exists'.1 (mt (List.argmax_eq_none (f := Stack.score)).1 h)
  exact ⟨s, List.argmax_mem hs, fun x hx => List.le_of_mem_argmax hx hs⟩

end Stack

/-! ### Comparing one stack with others -/

theorem contest_sublist (minLength : Nat) (s : Stack) (l : List Stack) :
    (contest minLength s l).2.Sublist l := by
  fun_induction contest minLength s l with
  | case1 => exact .slnil
  | case2 other rest _ _ ih => exact ih.cons other
  | case3 other rest => exact .refl _
  | case4 other rest _ r ih => exact ih.cons_cons other

/-- A stack that stays has no rival left. -/
theorem not_rivals_of_contest {minLength : Nat} {s : Stack} {l : List Stack}
    (h : (contest minLength s l).1 = true) :
    ∀ x ∈ (contest minLength s l).2, ¬ s.Rivals minLength x := by
  fun_induction contest minLength s l with
  | case1 => simp
  | case2 other rest _ _ ih => exact ih h
  | case3 => cases h
  | case4 other rest hrivals r ih =>
      rw [Stack.isComparable_iff] at hrivals
      exact List.forall_mem_cons.2 ⟨hrivals, ih h⟩

/-- A stack that goes is outranked by one that is left. -/
theorem exists_le_of_contest {minLength : Nat} {s : Stack} {l : List Stack}
    (h : (contest minLength s l).1 = false) :
    ∃ x ∈ (contest minLength s l).2, s.rank ≤ x.rank := by
  fun_induction contest minLength s l with
  | case1 => cases h
  | case2 other rest _ _ ih => exact ih h
  | case3 other rest _ hbeats =>
      rw [Stack.beats_iff, not_lt] at hbeats
      exact ⟨other, List.mem_cons_self, hbeats⟩
  | case4 other rest _ r ih =>
      obtain ⟨x, hx, hle⟩ := ih h
      exact ⟨x, List.mem_cons_of_mem _ hx, hle⟩

/-- What a stack drops it outranks, whether it stays itself or not. -/
theorem mem_contest_or_lt (minLength : Nat) (s : Stack) (l : List Stack) :
    ∀ x ∈ l, x ∈ (contest minLength s l).2 ∨ x.rank < s.rank := by
  fun_induction contest minLength s l with
  | case1 => simp
  | case2 other rest _ hbeats ih =>
      exact List.forall_mem_cons.2 ⟨.inr (Stack.beats_iff.1 hbeats), ih⟩
  | case3 other rest => exact fun x hx => .inl hx
  | case4 other rest _ r ih =>
      refine List.forall_mem_cons.2 ⟨.inl List.mem_cons_self, fun x hx => ?_⟩
      exact (ih x hx).imp_left (List.mem_cons_of_mem _)

/-- Without rivals all stacks stay. -/
theorem contest_eq_of_not_rivals {minLength : Nat} {s : Stack} {l : List Stack}
    (h : ∀ x ∈ l, ¬ s.Rivals minLength x) : contest minLength s l = (true, l) := by
  induction l with
  | nil => rfl
  | cons other rest ih =>
      obtain ⟨hother, hrest⟩ := List.forall_mem_cons.1 h
      rw [contest, if_neg (mt Stack.isComparable_iff.1 hother), ih hrest]

/-! ### Pruning -/

theorem prune_sublist (minLength : Nat) (l : List Stack) : (prune minLength l).Sublist l := by
  fun_induction prune minLength l with
  | case1 => exact .slnil
  | case2 s rest r hstays ih => exact (ih.trans (contest_sublist minLength s rest)).cons_cons s
  | case3 s rest r hstays ih => exact (ih.trans (contest_sublist minLength s rest)).cons s

theorem pairwise_prune (minLength : Nat) (l : List Stack) :
    (prune minLength l).Pairwise fun a b => ¬ a.Rivals minLength b := by
  fun_induction prune minLength l with
  | case1 => exact .nil
  | case2 s rest r hstays ih =>
      refine .cons (fun x hx => ?_) ih
      exact not_rivals_of_contest hstays x ((prune_sublist minLength _).subset hx)
  | case3 s rest r hstays ih => exact ih

/-- Every stack is outranked by one that is left, itself if it is left.  What a stack drops before
it loses itself is outranked by the stack that it loses to. -/
theorem exists_le_prune (minLength : Nat) (l : List Stack) :
    ∀ s ∈ l, ∃ x ∈ prune minLength l, s.rank ≤ x.rank := by
  fun_induction prune minLength l with
  | case1 => simp
  | case2 s rest r hstays ih =>
      refine List.forall_mem_cons.2 ⟨⟨s, List.mem_cons_self, le_rfl⟩, fun y hy => ?_⟩
      rcases mem_contest_or_lt minLength s rest y hy with hleft | hlt
      · obtain ⟨x, hx, hle⟩ := ih y hleft
        exact ⟨x, List.mem_cons_of_mem _ hx, hle⟩
      · exact ⟨s, List.mem_cons_self, hlt.le⟩
  | case3 s rest r hstays ih =>
      obtain ⟨winner, hwinner, hs⟩ := exists_le_of_contest (Bool.eq_false_iff.2 hstays)
      obtain ⟨x, hx, hle⟩ := ih winner hwinner
      have hsx : s.rank ≤ x.rank := hs.trans hle
      refine List.forall_mem_cons.2 ⟨⟨x, hx, hsx⟩, fun y hy => ?_⟩
      rcases mem_contest_or_lt minLength s rest y hy with hleft | hlt
      · exact ih y hleft
      · exact ⟨x, hx, hlt.le.trans hsx⟩

theorem prune_ne_nil {minLength : Nat} {l : List Stack} (h : l ≠ []) : prune minLength l ≠ [] := by
  obtain ⟨s, hs⟩ := List.exists_mem_of_ne_nil l h
  obtain ⟨x, hx, -⟩ := exists_le_prune minLength l s hs
  exact List.ne_nil_of_mem hx

/-- Stacks without rivals among them all stay. -/
theorem prune_eq_self {minLength : Nat} {l : List Stack}
    (h : l.Pairwise fun a b => ¬ a.Rivals minLength b) : prune minLength l = l := by
  induction l with
  | nil => rw [prune]
  | cons s rest ih =>
      obtain ⟨hs, hrest⟩ := List.pairwise_cons.1 h
      rw [prune, contest_eq_of_not_rivals hs]
      exact congrArg (s :: ·) (ih hrest)

/-- **Pruning drops only stacks that lose.**  What is left stands in the order in which it was
given, no two of the stacks left are rivals, and for every stack one of at least its rank is left;
so if there are stacks at all, some are left. -/
theorem prune_keeps_best (minLength : Nat) (l : List Stack) :
    (prune minLength l).Sublist l ∧
      ((prune minLength l).Pairwise fun a b => ¬ a.Rivals minLength b) ∧
      (∀ s ∈ l, ∃ x ∈ prune minLength l, s.rank ≤ x.rank) ∧
      (l ≠ [] → prune minLength l ≠ []) :=
  ⟨prune_sublist minLength l, pairwise_prune minLength l, exists_le_prune minLength l, prune_ne_nil⟩

/-- A stack in a state with a number of records of its own. -/
def contender (state records : Nat) (score : Int) : Stack :=
  { state, reducePos := 0, pos := 0, score,
    own := .ofItems (List.replicate records ⟨1, 0, 0, 4⟩) }

/-- The first stack drops its rival in the same state before it loses to its rival with as many
records.  These two are no rivals of each other, but the one that is left outranks the other. -/
theorem prune_keeps_best_chain :
    (contender 1 2 5).Rivals 4 (contender 1 0 3) ∧ (contender 1 2 5).Rivals 4 (contender 2 2 7) ∧
      ¬ (contender 1 0 3).Rivals 4 (contender 2 2 7) ∧
      (prune 4 [contender 1 2 5, contender 1 0 3, contender 2 2 7]).map (·.score) = [7] ∧
      ∃ x ∈ prune 4 [contender 1 2 5, contender 1 0 3, contender 2 2 7],
        (contender 1 0 3).rank ≤ x.rank := by
  obtain ⟨-, -, hle, -⟩ :=
    prune_keeps_best 4 [contender 1 2 5, contender 1 0 3, contender 2 2 7]
  exact ⟨by decide, by decide, by decide, by decide +kernel, hle _ (by simp)⟩

/-! ### Pruning on a machine -/

theorem Score.Comparable.subset {l l' : List Stack} (h : Score.Comparable l) (hsub : l' ⊆ l) :
    Score.Comparable l' :=
  fun a ha b hb => h a (hsub ha) b (hsub hb)

theorem contestChecked_eq {minLength : Nat} {s : Stack} {l : List Stack}
    (h : Score.Comparable (s :: l)) :
    contestChecked minLength s l = some (contest minLength s l) := by
  induction l with
  | nil => rfl
  | cons other rest ih =>
      have hbeats : s.beatsChecked other = some (s.beats other) :=
        if_pos (h s List.mem_cons_self other (by simp))
      rw [contestChecked, contest, hbeats, ih (h.subset (by simp))]
      split
      · cases s.beats other <;> rfl
      · rfl

theorem pruneChecked_cons {minLength : Nat} {s : Stack} {rest : List Stack}
    {r : Bool × List Stack} (h : contestChecked minLength s rest = some r) :
    pruneChecked minLength (s :: rest) =
      if r.1 then (pruneChecked minLength r.2).map (s :: ·) else pruneChecked minLength r.2 := by
  rw [pruneChecked]
  split
  · rename_i hnone
    rw [h] at hnone
    cases hnone
  · rename_i hstays
    rw [h] at hstays
    obtain rfl := Option.some.inj hstays
    rfl
  · rename_i hgoes
    rw [h] at hgoes
    obtain rfl := Option.some.inj hgoes
    rfl

/-- **A machine drops the same stacks** where the differences of their scores fit. -/
theorem pruneChecked_eq {minLength : Nat} {l : List Stack} (h : Score.Comparable l) :
    pruneChecked minLength l = some (prune minLength l) := by
  fun_induction prune minLength l with
  | case1 => rw [pruneChecked]
  | case2 s rest r hstays ih =>
      have hothers : r.2 ⊆ rest := (contest_sublist minLength s rest).subset
      rw [pruneChecked_cons (contestChecked_eq h), if_pos hstays]
      rw [ih (h.subset fun x hx => List.mem_cons_of_mem s (hothers hx))]
      rfl
  | case3 s rest r hstays ih =>
      have hothers : r.2 ⊆ rest := (contest_sublist minLength s rest).subset
      rw [pruneChecked_cons (contestChecked_eq h), if_neg hstays]
      exact ih (h.subset fun x hx => List.mem_cons_of_mem s (hothers hx))

/-! ### Choosing stacks -/

theorem mem_topStacks {count : Nat} {l : List Stack} {s : Stack} (h : s ∈ topStacks count l) :
    s ∈ l := by
  unfold topStacks at h
  split at h
  · exact List.mem_mergeSort.1 (List.mem_of_mem_take h)
  · exact h

/-- The first of the stacks that are sorted by their scores has the highest score. -/
theorem exists_isBestOf_topStacks {count : Nat} {l : List Stack} (hcount : 0 < count) (h : l ≠ []) :
    ∃ s ∈ topStacks count l, s.IsBestOf l := by
  unfold topStacks
  split
  · have hsorted := @List.pairwise_mergeSort _ (fun a b : Stack => decide (b.score ≤ a.score))
      (fun a b c hab hbc => by simp only [decide_eq_true_eq] at *; omega)
      (fun a b => by simp only [Bool.or_eq_true, decide_eq_true_eq]; omega) l
    have hmem : ∀ x, x ∈ l.mergeSort (fun a b : Stack => decide (b.score ≤ a.score)) ↔ x ∈ l :=
      fun x => List.mem_mergeSort
    generalize l.mergeSort (fun a b : Stack => decide (b.score ≤ a.score)) = sorted at *
    obtain ⟨best, hbest, hbestOf⟩ := Stack.exists_isBestOf h
    obtain ⟨n, rfl⟩ := Nat.exists_eq_succ_of_ne_zero hcount.ne'
    cases sorted with
    | nil => cases (hmem best).2 hbest
    | cons s rest =>
        refine ⟨s, List.mem_cons_self, fun x hx => (hbestOf x hx).trans ?_⟩
        rcases List.mem_cons.1 ((hmem best).2 hbest) with rfl | hrest
        · exact le_rfl
        · exact of_decide_eq_true (List.rel_of_pairwise_cons hsorted hrest)
  · exact Stack.exists_isBestOf h

namespace Parse

open ParseM

/-- The stacks that go on: during recovery those with the highest scores, fewer the less steps of it
are left, else the first ones that pruning leaves. -/
def chosen (t : Tuning) (recovering : Nat) (ahead : List Stack) : List Stack :=
  if 0 < recovering then
    topStacks (if recovering = 1 then 1 else recovering * t.maxRemainingPerStep) ahead
  else if 1 < ahead.length then (prune t.minBufferLengthPrune ahead).take t.maxStackCount
  else ahead

/-- The stacks that go on, on a machine. -/
def chosenChecked (t : Tuning) (recovering : Nat) (ahead : List Stack) : Option (List Stack) :=
  if 0 < recovering then
    some (topStacks (if recovering = 1 then 1 else recovering * t.maxRemainingPerStep) ahead)
  else if 1 < ahead.length then
    (pruneChecked t.minBufferLengthPrune ahead).map (·.take t.maxStackCount)
  else some ahead

/-- A machine chooses the same stacks.  During recovery it takes no differences. -/
theorem chosenChecked_eq {t : Tuning} {recovering : Nat} {ahead : List Stack}
    (h : recovering = 0 → Score.Comparable ahead) :
    chosenChecked t recovering ahead = some (chosen t recovering ahead) := by
  unfold chosenChecked chosen
  split
  · rfl
  · rename_i hoff
    rw [pruneChecked_eq (h (by omega))]
    split <;> rfl

/-- Selecting stacks gives the chosen ones, and may count a step of recovery. -/
theorem ensures_selectStacks (E : Failure → Prop) (pos : Nat) (ahead : List Stack) (q : Parse) :
    Ensures E (selectStacks pos ahead) q fun kept q' =>
      kept = chosen q.parser.tuning q.recovering ahead ∧
        (q' = q ∨ q' = { q with recovering := q.recovering - 1 }) := by
  unfold selectStacks chosen
  rw [ensures_bind, ensures_get]
  dsimp only
  split
  · refine ensures_ite (fun _ => ?_) fun _ => ⟨rfl, .inl rfl⟩
    rw [ensures_bind, ensures_set]
    exact ⟨rfl, .inr rfl⟩
  · exact ensures_ite (fun hmany => ⟨(if_pos hmany).symm, .inl rfl⟩)
      fun hfew => ⟨(if_neg hfew).symm, .inl rfl⟩

theorem mem_of_mem_chosen {t : Tuning} {recovering : Nat} {ahead : List Stack} {s : Stack}
    (h : s ∈ chosen t recovering ahead) : s ∈ ahead := by
  unfold chosen at h
  split at h
  · exact mem_topStacks h
  · split at h
    · exact (prune_sublist _ _).subset (List.mem_of_mem_take h)
    · exact h

/-- During recovery a stack with the highest score goes on. -/
theorem exists_isBestOf_chosen {t : Tuning} {recovering : Nat} {ahead : List Stack}
    (hon : 0 < recovering) (hperStep : 0 < t.maxRemainingPerStep) (hne : ahead ≠ []) :
    ∃ s ∈ chosen t recovering ahead, s.IsBestOf ahead := by
  rw [chosen, if_pos hon]
  refine exists_isBestOf_topStacks ?_ hne
  split
  · exact Nat.one_pos
  · exact Nat.mul_pos hon hperStep

/-- If the limits let a stack go on, one does. -/
theorem chosen_ne_nil {t : Tuning} {recovering : Nat} {ahead : List Stack}
    (hperStep : 0 < t.maxRemainingPerStep) (hcount : 0 < t.maxStackCount) (hne : ahead ≠ []) :
    chosen t recovering ahead ≠ [] := by
  rcases Nat.eq_zero_or_pos recovering with rfl | hon
  · rw [chosen, if_neg (Nat.lt_irrefl 0)]
    split
    · rw [Ne, List.take_eq_nil_iff, not_or]
      exact ⟨hcount.ne', prune_ne_nil hne⟩
    · exact hne
  · obtain ⟨s, hs, -⟩ := exists_isBestOf_chosen hon hperStep hne
    exact List.ne_nil_of_mem hs

end Parse

end IncrementalLR
