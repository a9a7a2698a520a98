/-
**Scores of 32 bits.**

Every repair takes something off the score of a stack, and nothing is ever given back but the
precedences of reductions.  A stack counts with integers of any size; a machine keeps its scores in
32 bits, and ends the program when a sum or a difference does not fit.

Main definitions:

* `Score.Fits` — numbers that a machine keeps as scores;
* `Stack.leaveRuleChecked` — leaving a rule on a machine.
-/

import IncrementalLR.Stack.Recovery

set_option relaxedAutoImplicit false
set_option autoImplicit false

namespace IncrementalLR

/-- The largest score. -/
def maxScore : Int := 2147483647

/-- The smallest score. -/
def minScore : Int := -2147483648

namespace Score

/-- Numbers that a machine keeps as scores, or as differences of scores. -/
def Fits (n : Int) : Prop := minScore ≤ n ∧ n ≤ maxScore

instance (n : Int) : Decidable (Fits n) := inferInstanceAs (Decidable (_ ∧ _))

end Score

namespace Stack

/-- Leaves the current rule on a machine: first the penalty is taken off, then the precedence of the
term is added, and none is given if one of the two scores does not fit. -/
def leaveRuleChecked (p : Parser) (s : Stack) (env : Env) : Option (Bool × Stack × Env) :=
  match s.forcedWord? p with
  | none => some (false, s, env)
  | some (word, allowed) =>
      let s := s.caughtUp p allowed
      let r := s.reduce p word env
      if Score.Fits s.score ∧ Score.Fits r.1.score then some (true, r) else none

end Stack

end IncrementalLR
