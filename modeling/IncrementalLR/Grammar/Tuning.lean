/-
**The constants of error recovery.**

Which of several possible trees is built for broken text, and how much work goes into it, depends
on a few numbers: penalties for repairs, limits on how many repairs are tried, and limits on the
stacks that are kept.  Depths of stacks are counted in slots, three for each frame.

Main definitions:

* `Tuning` — the numbers with their usual values;
* `Tuning.values` — the numbers in order.
-/

set_option relaxedAutoImplicit false
set_option autoImplicit false

namespace IncrementalLR

/-- The numbers that guide error recovery and the pruning of stacks. -/
structure Tuning where
  /-- What inserting a token costs. -/
  insertPenalty : Int := 200
  /-- What leaving a token out costs. -/
  deletePenalty : Int := 190
  /-- What a reduction that the tables do not allow costs. -/
  reducePenalty : Int := 100
  /-- The largest number of states tried when a token is inserted. -/
  maxNext : Nat := 4
  /-- The depth from which on no token is inserted. -/
  maxInsertStackDepth : Nat := 300
  /-- The depth from which on only tokens are inserted after which the next one fits. -/
  dampenInsertStackDepth : Nat := 120
  /-- The text length from which on a reduction counts as big. -/
  minBigReduction : Nat := 2000
  /-- The number of steps for which recovery stays on. -/
  recoveryDistance : Nat := 5
  /-- The stacks kept for each remaining step of recovery. -/
  maxRemainingPerStep : Nat := 3
  /-- The number of slots past which stacks in different states are compared. -/
  minBufferLengthPrune : Nat := 500
  /-- The number of forced reductions tried on a stack. -/
  forceReduceLimit : Nat := 10
  /-- The depth that triggers forced reductions. -/
  cutDepth : Nat := 8400
  /-- The depth that forced reductions go back to. -/
  cutTo : Nat := 6000
  /-- The number of big reductions from one start before the parser fast-forwards. -/
  maxLeftAssociativeReductionCount : Nat := 300
  /-- The largest number of stacks outside recovery. -/
  maxStackCount : Nat := 12
deriving Repr, DecidableEq

/-- The numbers in the order of their declaration. -/
def Tuning.values (t : Tuning) : List Int :=
  [t.insertPenalty, t.deletePenalty, t.reducePenalty, t.maxNext, t.maxInsertStackDepth,
    t.dampenInsertStackDepth, t.minBigReduction, t.recoveryDistance, t.maxRemainingPerStep,
    t.minBufferLengthPrune, t.forceReduceLimit, t.cutDepth, t.cutTo,
    t.maxLeftAssociativeReductionCount, t.maxStackCount]

end IncrementalLR
