/-
**Which stacks stay when stacks are added one by one.**

Stacks at the same position that are in the same states have the same future, so that of them only
one goes on.  A stack that is added looks for one of its kind among those that are there.  If there
is none it comes last; if there is one, the better of the two stays at the place of the older one,
and the older one wins a tie.

Hence the place of a kind is fixed by the first stack of that kind, and its stack by the scores: it
is the first one of those with the highest score.

Main definitions:

* `Stack.kind` — what stacks are told apart by;
* `pushAll` — adds stacks one by one;
* `Stack.IsFirstBest` — the first stack with the highest score of its kind.

Main results:

* `map_kind_pushStack`, `pushStack_cases` — what adding one stack does;
* `Chosen.push` — what adding one more stack keeps;
* `pushAll_keeps_first_best` — **of each kind the first stack with the highest score stays**.
-/

import IncrementalLR.Proofs.Driver
import IncrementalLR.Proofs.Pruning

set_option relaxedAutoImplicit false
set_option autoImplicit false

namespace IncrementalLR

namespace Stack

/-- What stacks are told apart by when they are added: the position, and all states from the bottom
to the current one. -/
def kind (s : Stack) : Nat × List Nat := (s.pos, s.states)

theorem kind_eq_iff {a b : Stack} :
    a.kind = b.kind ↔ (decide (a.pos = b.pos) && a.sameState b) = true := by
  rw [Bool.and_eq_true, decide_eq_true_eq, sameState_iff, kind, kind, Prod.mk.injEq]

/-- The first stack with the highest score of its kind among some stacks: those of its kind before
it have lower scores, and those after it have no higher ones. -/
def IsFirstBest (l : List Stack) (s : Stack) : Prop :=
  ∃ before after, l = before ++ s :: after ∧
    (∀ t ∈ before, t.kind = s.kind → t.score < s.score) ∧
    ∀ t ∈ after, t.kind = s.kind → t.score ≤ s.score

namespace IsFirstBest

variable {l : List Stack} {s t : Stack}

theorem score_le (h : s.IsFirstBest l) (ht : t ∈ l) (hkind : t.kind = s.kind) :
    t.score ≤ s.score := by
  obtain ⟨before, after, rfl, hbefore, hafter⟩ := h
  rcases List.mem_append.1 ht with ht | ht
  · exact Int.le_of_lt (hbefore t ht hkind)
  · rcases List.mem_cons.1 ht with rfl | ht
    · exact Int.le_refl _
    · exact hafter t ht hkind

/-- A further stack that is not better changes nothing. -/
theorem append (h : s.IsFirstBest l) (ht : t.kind = s.kind → t.score ≤ s.score) :
    s.IsFirstBest (l ++ [t]) := by
  obtain ⟨before, after, rfl, hbefore, hafter⟩ := h
  refine ⟨before, after ++ [t], by simp, hbefore, fun x hx hkind => ?_⟩
  rcases List.mem_append.1 hx with hx | hx
  · exact hafter x hx hkind
  · obtain rfl := List.mem_singleton.1 hx
    exact ht hkind

/-- A further stack that is better than all of its kind is the best one. -/
theorem last (h : ∀ t ∈ l, t.kind = s.kind → t.score < s.score) : s.IsFirstBest (l ++ [s]) :=
  ⟨l, [], rfl, h, fun _ ht => (List.not_mem_nil ht).elim⟩

end IsFirstBest

end Stack

/-! ### Adding one stack -/

/-- A stack of a new kind adds its kind behind the others. -/
theorem map_kind_pushStack (s : Stack) (kept : List Stack) :
    (pushStack s kept).map Stack.kind =
      if s.kind ∈ kept.map Stack.kind then kept.map Stack.kind
      else kept.map Stack.kind ++ [s.kind] := by
  induction kept with
  | nil => rfl
  | cons other rest ih =>
      rw [pushStack]
      by_cases hsame : other.kind = s.kind
      · -- the kind stays where it is, whichever of the two stays
        have hmem : s.kind ∈ (other :: rest).map Stack.kind :=
          List.mem_map.2 ⟨other, List.mem_cons_self, hsame⟩
        rw [if_pos (Stack.kind_eq_iff.1 hsame), if_pos hmem, List.map_cons, List.map_cons]
        split
        · rw [hsame]
        · rfl
      · rw [if_neg (mt Stack.kind_eq_iff.2 hsame), List.map_cons, List.map_cons, ih]
        have hmem : s.kind ∈ other.kind :: rest.map Stack.kind ↔ s.kind ∈ rest.map Stack.kind := by
          rw [List.mem_cons, or_iff_right (Ne.symm hsame)]
        simp only [hmem]
        split <;> rfl

/-- What is there afterwards is the stack itself, if it is better than the one of its kind, or was
there before and is not worse. -/
theorem pushStack_cases {s x : Stack} {kept : List Stack} (hkinds : (kept.map Stack.kind).Nodup)
    (hx : x ∈ pushStack s kept) :
    (x = s ∧ ∀ y ∈ kept, y.kind = s.kind → y.score < s.score) ∨
      (x ∈ kept ∧ (s.kind = x.kind → s.score ≤ x.score)) := by
  induction kept with
  | nil => exact Or.inl ⟨List.mem_singleton.1 hx, fun _ hy => (List.not_mem_nil hy).elim⟩
  | cons other rest ih =>
      obtain ⟨hother, hrest⟩ := List.nodup_cons.1 hkinds
      rw [pushStack] at hx
      by_cases hsame : other.kind = s.kind
      · -- no other stack is of the same kind
        have honly : ∀ y ∈ rest, y.kind ≠ s.kind := fun y hy heq =>
          hother (hsame ▸ heq ▸ List.mem_map_of_mem hy)
        rw [if_pos (Stack.kind_eq_iff.1 hsame)] at hx
        rcases List.mem_cons.1 hx with rfl | hx
        · split
          · rename_i hlt
            refine Or.inl ⟨rfl, List.forall_mem_cons.2 ⟨fun _ => hlt, fun y hy heq => ?_⟩⟩
            exact absurd heq (honly y hy)
          · rename_i hge
            exact Or.inr ⟨List.mem_cons_self, fun _ => Int.not_lt.1 hge⟩
        · exact Or.inr ⟨List.mem_cons_of_mem _ hx, fun heq => absurd heq.symm (honly x hx)⟩
      · rw [if_neg (mt Stack.kind_eq_iff.2 hsame)] at hx
        rcases List.mem_cons.1 hx with rfl | hx
        · exact Or.inr ⟨List.mem_cons_self, fun heq => absurd heq.symm hsame⟩
        · rcases ih hrest hx with ⟨rfl, hall⟩ | ⟨hmem, hle⟩
          · exact Or.inl ⟨rfl, List.forall_mem_cons.2 ⟨fun heq => absurd heq hsame, hall⟩⟩
          · exact Or.inr ⟨List.mem_cons_of_mem _ hmem, hle⟩

/-! ### Adding all -/

/-- A further item counts if it is new. -/
theorem eraseDups_append_singleton {α : Type} [BEq α] [LawfulBEq α] (l : List α) (a : α) :
    (l ++ [a]).eraseDups = if a ∈ l then l.eraseDups else l.eraseDups ++ [a] := by
  rw [List.eraseDups_append]
  split
  · rename_i hold
    simp [List.removeAll, hold]
  · rename_i hnew
    simp [List.removeAll, List.eraseDups_cons, hnew]

/-- Adds stacks one by one, without any to begin with. -/
def pushAll (l : List Stack) : List Stack := l.foldl (fun kept s => pushStack s kept) []

/-- What is known of the stacks that are left of some that were added: there is one of each kind, in
the order in which the kinds came, and it is the first with the highest score. -/
structure Chosen (l kept : List Stack) : Prop where
  distinct : (kept.map Stack.kind).Nodup
  kinds : kept.map Stack.kind = (l.map Stack.kind).eraseDups
  best : ∀ s ∈ kept, s.IsFirstBest l

namespace Chosen

variable {l kept : List Stack}

/-- Every kind has a stack that is left. -/
theorem exists_kind (h : Chosen l kept) {t : Stack} (ht : t ∈ l) :
    ∃ s ∈ kept, s.kind = t.kind := by
  have hmem : t.kind ∈ kept.map Stack.kind := by
    rw [h.kinds, List.mem_eraseDups]
    exact List.mem_map_of_mem ht
  exact List.mem_map.1 hmem

/-- **What adding one more stack keeps.** -/
theorem push (h : Chosen l kept) (s : Stack) : Chosen (l ++ [s]) (pushStack s kept) := by
  refine ⟨?_, ?_, fun x hx => ?_⟩
  · rw [map_kind_pushStack]
    split
    · exact h.distinct
    · rename_i hnew
      exact List.nodup_append.2 ⟨h.distinct, List.pairwise_singleton _ _, fun a ha b hb heq =>
        hnew (List.mem_singleton.1 hb ▸ heq ▸ ha)⟩
  · rw [map_kind_pushStack, List.map_append, List.map_singleton, eraseDups_append_singleton,
      h.kinds]
    simp only [List.mem_eraseDups]
  · rcases pushStack_cases h.distinct hx with ⟨rfl, hbetter⟩ | ⟨hmem, hle⟩
    · -- the stack of its kind that was there had the highest score so far
      refine .last fun t ht hkind => ?_
      obtain ⟨y, hy, hsame⟩ := h.exists_kind ht
      have hbound : t.score ≤ y.score := (h.best y hy).score_le ht hsame.symm
      exact Int.lt_of_le_of_lt hbound (hbetter y hy (hsame.trans hkind))
    · exact (h.best x hmem).append hle

/-- What adding more stacks keeps. -/
theorem pushMore (h : Chosen l kept) (more : List Stack) :
    Chosen (l ++ more) (more.foldl (fun kept s => pushStack s kept) kept) := by
  induction more generalizing l kept with
  | nil => simpa using h
  | cons s rest ih => simpa using ih (h.push s)

end Chosen

/-- **Of each kind the first stack with the highest score stays.**  Stacks that are added one by one
leave one stack for each position and sequence of states that any of them has, in the order in which
these came up first; it has the highest score of its kind, and is the first one that has it. -/
theorem pushAll_keeps_first_best (l : List Stack) :
    ((pushAll l).map Stack.kind).Nodup ∧
      (pushAll l).map Stack.kind = (l.map Stack.kind).eraseDups ∧
      ∀ s ∈ pushAll l, s.IsFirstBest l := by
  have hnone : Chosen [] [] :=
    ⟨List.nodup_nil, rfl, fun _ hs => (List.not_mem_nil hs).elim⟩
  have hall : Chosen l (pushAll l) := hnone.pushMore l
  exact ⟨hall.distinct, hall.kinds, hall.best⟩

/-- The better stacks of the first kind come later, and the first of them takes its place. -/
example :
    (pushAll [{ state := 1, reducePos := 0, pos := 2 }, { state := 2, reducePos := 0, pos := 2 },
      { state := 1, reducePos := 1, pos := 2, score := 5 },
      { state := 1, reducePos := 2, pos := 2, score := 5 }]).map
      (fun s => (s.state, s.score, s.reducePos)) = [(1, 5, 1), (2, 0, 0)] := by decide

end IncrementalLR
