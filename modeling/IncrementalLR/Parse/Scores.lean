/-
**Parsing with scores of 32 bits.**

The scores of stacks are compared and taken from each other, and repairs change them.  A machine
goes through the same steps as long as all scores and their differences fit into 32 bits.

Main definitions:

* `Stack.beatsChecked`, `pruneChecked` — comparing stacks on a machine;
* `Score.Comparable` — stacks whose scores have differences that fit;
* `Parse.scoresFit` — whether the scores of all stacks fit;
* `Parse.advanceChecked`, `Parse.finishChecked` — the steps of a parse on a machine.

## Boundary

In a step of a parse scores are looked at when it is over.  A stack that is dropped in the very step
in which its score ceased to fit is not seen, and neither is one that fits again at the end of that
step, which needs precedences.  So a step that ends the program here does so on any machine, but
one that does not may still have ended it on the way.
-/

import IncrementalLR.Parse.Advance
import IncrementalLR.Stack.Scores

set_option relaxedAutoImplicit false
set_option autoImplicit false

namespace IncrementalLR

/-! ### Comparing stacks -/

/-- Whether a stack wins against another one, on a machine that takes the difference of the scores;
none if that does not fit. -/
def Stack.beatsChecked (a b : Stack) : Option Bool :=
  if Score.Fits (a.score - b.score) then some (a.beats b) else none

/-- Compares a stack with the stacks after it, on a machine. -/
def contestChecked (minLength : Nat) (s : Stack) : List Stack → Option (Bool × List Stack)
  | [] => some (true, [])
  | other :: rest =>
      if s.isComparable minLength other then
        match s.beatsChecked other with
        | none => none
        | some true => contestChecked minLength s rest
        | some false => some (false, other :: rest)
      else (contestChecked minLength s rest).map fun r => (r.1, other :: r.2)

theorem contest_of_contestChecked {minLength : Nat} {s : Stack} {l : List Stack}
    {r : Bool × List Stack} (h : contestChecked minLength s l = some r) :
    contest minLength s l = r := by
  induction l generalizing r with
  | nil => exact Option.some.inj h
  | cons other rest ih =>
      rw [contestChecked] at h
      rw [contest]
      split
      · rename_i hcomparable
        rw [if_pos hcomparable, Stack.beatsChecked] at h
        split at h
        · cases h
        · rename_i heq
          split at heq
          · rw [if_pos (Option.some.inj heq)]
            exact ih h
          · cases heq
        · rename_i heq
          split at heq
          · rw [if_neg (by rw [Option.some.inj heq]; exact Bool.false_ne_true)]
            exact Option.some.inj h
          · cases heq
      · rename_i hcomparable
        rw [if_neg hcomparable] at h
        obtain ⟨r', hr', rfl⟩ := Option.map_eq_some_iff.1 h
        rw [ih hr']

/-- Drops the stacks that lose a comparison, on a machine. -/
def pruneChecked (minLength : Nat) : List Stack → Option (List Stack)
  | [] => some []
  | s :: rest =>
      match h : contestChecked minLength s rest with
      | none => none
      | some (true, others) => (pruneChecked minLength others).map (s :: ·)
      | some (false, others) => pruneChecked minLength others
termination_by l => l.length
decreasing_by
  all_goals
    have := length_contest_le minLength s rest
    rw [contest_of_contestChecked h] at this
    exact Nat.lt_succ_of_le this

/-- Stacks whose scores have differences that fit. -/
def Score.Comparable (l : List Stack) : Prop :=
  ∀ a ∈ l, ∀ b ∈ l, Score.Fits (a.score - b.score)

instance (l : List Stack) : Decidable (Score.Comparable l) :=
  inferInstanceAs (Decidable (∀ a ∈ l, ∀ b ∈ l, Score.Fits (a.score - b.score)))

namespace Parse

/-- Whether the scores of all stacks fit. -/
def scoresFit (p : Parse) : Bool := p.live.all fun s => decide (Score.Fits s.score)

/-- One step on a machine; none if the score of a stack that the step leaves ended the program. -/
def advanceChecked (p : Parse) : Option (Except Failure (Option Tree) × Parse) :=
  let r := p.advance
  if r.2.scoresFit then some r else none

theorem advanceChecked_eq_some {p : Parse} (h : p.advance.2.scoresFit = true) :
    p.advanceChecked = some p.advance := if_pos h

theorem advanceChecked_eq_none {p : Parse} (h : ¬ p.advance.2.scoresFit = true) :
    p.advanceChecked = none := if_neg h

/-- Steps on a machine until the parse is finished, at most `fuel` of them. -/
def finishCheckedF : Nat → Parse → Option (Except Failure Tree × Parse)
  | 0, p => some (.error .limit, p)
  | fuel + 1, p =>
      match p.advanceChecked with
      | some (.ok (some t), p) => some (.ok t, p)
      | some (.ok none, p) => finishCheckedF fuel p
      | some (.error e, p) => some (.error e, p)
      | none => none

/-- Steps on a machine until the parse is finished. -/
def finishChecked (p : Parse) : Option (Except Failure Tree × Parse) :=
  finishCheckedF p.env.limit p

end Parse

end IncrementalLR
