/-
**Which stacks are kept.**

A parse follows several stacks at once and drops those that cannot win: of two stacks that are in
the same states at the same position only the better one goes on, and outside of recovery stacks
with long records are compared even in different states.

Main definitions:

* `Stack.isComparable`, `Stack.beats` — which stacks are compared, and which one wins;
* `pushStack` — adds a stack unless an equal or better one is there;
* `prune` — drops the stacks that lose a comparison;
* `bestStack?` — the stack with the highest score among those that meet a condition.

Main results:

* `length_contest_le` — a comparison adds no stack.
-/

import IncrementalLR.Stack.Basic

set_option relaxedAutoImplicit false
set_option autoImplicit false

namespace IncrementalLR

/-! ### Adding stacks -/

/-- Adds a stack; of two stacks in the same states at the same position the one with the higher
score stays, at the place of the one that was there. -/
def pushStack (s : Stack) : List Stack → List Stack
  | [] => [s]
  | other :: rest =>
      if other.pos = s.pos && other.sameState s then
        (if other.score < s.score then s else other) :: rest
      else other :: pushStack s rest

/-! ### Pruning -/

/-- Whether two stacks are compared: they are in the same states, or both have long records of
their own. -/
def Stack.isComparable (minLength : Nat) (a b : Stack) : Bool :=
  a.sameState b || (minLength < 4 * a.own.size && minLength < 4 * b.own.size)

/-- Whether a stack wins against another one: by its score, or by more records if the scores are
equal. -/
def Stack.beats (a b : Stack) : Bool :=
  b.score < a.score || (a.score = b.score && b.bufferLength < a.bufferLength)

/-- Compares a stack with the stacks after it: whether it stays, and those that are left of the
others. -/
def contest (minLength : Nat) (s : Stack) : List Stack → Bool × List Stack
  | [] => (true, [])
  | other :: rest =>
      if s.isComparable minLength other then
        if s.beats other then contest minLength s rest else (false, other :: rest)
      else
        let r := contest minLength s rest
        (r.1, other :: r.2)

theorem length_contest_le (minLength : Nat) (s : Stack) (l : List Stack) :
    (contest minLength s l).2.length ≤ l.length := by
  induction l with
  | nil => simp [contest]
  | cons other rest ih =>
      unfold contest
      split
      · split
        · exact Nat.le_succ_of_le ih
        · simp
      · simpa using ih

/-- Drops the stacks that lose a comparison. -/
def prune (minLength : Nat) : List Stack → List Stack
  | [] => []
  | s :: rest =>
      let r := contest minLength s rest
      if r.1 then s :: prune minLength r.2 else prune minLength r.2
termination_by l => l.length
decreasing_by
  all_goals
    have := length_contest_le minLength s rest
    simp only [List.length_cons]
    omega

/-! ### Choosing -/

/-- The first stack with the highest score among those that meet a condition. -/
def bestStack? (p : Stack → Bool) (live : List Stack) : Option Stack :=
  live.foldl (fun best s =>
    if p s && best.all (·.score < s.score) then some s else best) none

/-- The stacks with the highest scores, at most `count` of them; the order of equal scores stays. -/
def topStacks (count : Nat) (live : List Stack) : List Stack :=
  if count < live.length then
    (live.mergeSort fun a b => b.score ≤ a.score).take count
  else live

end IncrementalLR
