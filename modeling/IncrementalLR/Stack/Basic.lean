/-
**Parse stacks.**

A stack is one path through the automaton: the current state, a frame for each symbol below it, and
the records of the nodes that were read so far.  Ambiguity and error recovery split stacks; the
halves share the older records in frozen pieces, which are never changed again, and each half
appends to records of its own.  The pieces lie in segments of an arena; a stack refers to the newest
one of its segments, and sees what they hold as a list of pieces.

Positions in the records are counted in slots, four for each record, and depths of stacks in slots
as well, three for each frame.

Main definitions:

* `Frame`, `Context`, `Stack` — stacks;
* `Stack.records` — all records of a stack, newest first;
* `Stack.bufferLength`, `Stack.depth`, `Stack.reader` — their number, the depth, and a reader over
  the records;
* `Stack.finished`, `Stack.freeze` — the records that a split freezes, and the stack without them;
* `Simulation`, `Simulation.reduce` — reductions that are tried on the states of a stack;
* `StackView`, `StackView.canShift` — what host code sees of a stack.

Main results:

* `Stack.records_freeze`, `Stack.bufferLength_freeze` — freezing keeps the records and their number.
-/

import IncrementalLR.Data.Pile
import IncrementalLR.Grammar.Basic
import IncrementalLR.Tree.Record

set_option relaxedAutoImplicit false
set_option autoImplicit false

namespace IncrementalLR

/-- A symbol on a stack: the state below it, where its text starts, and the slots before its
records. -/
structure Frame where
  state : Nat
  start : Nat
  bufferPos : Nat
deriving Repr, DecidableEq

/-- The context value of a stack and its hash. -/
structure Context where
  value : Int
  hash : Nat
deriving Repr, DecidableEq

/-- A path through the automaton. -/
structure Stack where
  /-- The symbols, newest first. -/
  frames : Pile Frame := .empty
  state : Nat
  /-- The end of the last token that was not skipped, or of the last reduction. -/
  reducePos : Nat
  pos : Nat
  score : Int := 0
  /-- The records that no other stack shares, newest first. -/
  own : Pile Record := .empty
  /-- The number of slots in frozen pieces. -/
  base : Nat := 0
  /-- The frozen pieces as the stack sees them, newest first, each with its newest record first:
  what the segments from `parent` on hold. -/
  frozen : List (List Record) := []
  /-- The segment that holds the newest frozen piece. -/
  parent : Option Nat := none
  context : Option Context := none
  lookAhead : Nat := 0

namespace Stack

/-- All records, newest first. -/
def records (s : Stack) : List Record := s.own.items ++ s.frozen.flatten

/-- The number of slots of all records. -/
def bufferLength (s : Stack) : Nat := s.base + 4 * s.own.size

/-- The number of slots of the frames. -/
def depth (s : Stack) : Nat := 3 * s.frames.size

/-- A reader over all records. -/
def reader (s : Stack) : Reader := Reader.refill ⟨s.bufferLength, s.own.items, s.frozen⟩

/-- The states from the bottom to the current one. -/
def states (s : Stack) : List Nat := (s.state :: s.frames.items.map (·.state)).reverse

/-- States, position and, unless it is 0, score. -/
def describe (s : Stack) : String :=
  "[" ++ ",".intercalate (s.states.map toString) ++ s!"]@{s.pos}" ++
    (if s.score = 0 then "" else "!" ++ toString s.score)

/-- Goes to a state above the current one; the new symbol starts at `start`. -/
def pushState (s : Stack) (state start : Nat) : Stack :=
  { s with frames := s.frames.push ⟨s.state, start, s.bufferLength⟩, state }

/-- Appends a record. -/
def pushRecord (s : Stack) (r : Record) : Stack := { s with own := s.own.push r }

/-- Whether two stacks are in the same state with the same states below. -/
def sameState (a b : Stack) : Bool :=
  a.state = b.state && a.frames.items.map (·.state) = b.frames.items.map (·.state)

/-! ### Splitting -/

/-- The records up to the last one that ends by the reduce position. -/
def finished (s : Stack) : List Record :=
  s.own.items.dropWhile fun r => signedPos s.reducePos < r.stop

/-- The stack after its finished records have become the segment `id`; it has none if there are no
such records. -/
def freeze (s : Stack) (id : Nat) : Stack :=
  let tail := s.own.items.takeWhile fun r => signedPos s.reducePos < r.stop
  match s.finished with
  | [] => s
  | piece =>
      { s with
        own := .ofItems tail, base := s.base + 4 * piece.length, frozen := piece :: s.frozen,
        parent := some id }

/-- Freezing keeps the records. -/
@[simp] theorem records_freeze (s : Stack) (id : Nat) : (s.freeze id).records = s.records := by
  have key := List.takeWhile_append_dropWhile
    (p := fun r : Record => decide (signedPos s.reducePos < r.stop)) (l := s.own.items)
  unfold freeze finished
  cases h : s.own.items.dropWhile fun r => signedPos s.reducePos < r.stop with
  | nil => rfl
  | cons r rest =>
      rw [h] at key
      simp only [records, Pile.items_ofItems, List.flatten_cons]
      rw [← List.append_assoc, key]

/-- Freezing keeps the number of slots. -/
@[simp] theorem bufferLength_freeze (s : Stack) (id : Nat) :
    (s.freeze id).bufferLength = s.bufferLength := by
  have key := congrArg List.length (List.takeWhile_append_dropWhile
    (p := fun r : Record => decide (signedPos s.reducePos < r.stop)) (l := s.own.items))
  have hs := s.own.size_eq
  unfold freeze finished
  cases h : s.own.items.dropWhile fun r => signedPos s.reducePos < r.stop with
  | nil => rfl
  | cons r rest =>
      rw [h, List.length_append] at key
      simp only [bufferLength, Pile.size_ofItems]
      omega

end Stack

/-! ### Trying reductions -/

/-- Reductions that are tried on the states of a stack.  States that are popped stay in the list
until another one is pushed in their place: only the first `base` of it are below the state. -/
structure Simulation where
  state : Nat
  /-- The states below, lowest first, with what was popped behind them. -/
  frames : Array Nat
  base : Nat
  base_le : base ≤ frames.size

namespace Simulation

/-- Begins with the states of a stack. -/
def ofStack (s : Stack) : Simulation :=
  let frames := (s.frames.items.reverse.map (·.state)).toArray
  ⟨s.state, frames, frames.size, Nat.le_refl _⟩

/-- The states below, newest first. -/
def below (t : Simulation) : List Nat := (t.frames.toList.take t.base).reverse

/-- Puts the state above those below it, in the place of what was popped. -/
def push (t : Simulation) : Simulation where
  state := t.state
  frames := (t.frames.extract 0 t.base).push t.state
  base := t.base + 1
  base_le := by simp [Array.size_push, Array.size_extract, Nat.min_eq_left t.base_le]

/-- Pops states. -/
def pop (t : Simulation) (count : Nat) : Simulation :=
  { t with base := t.base - count, base_le := Nat.le_trans (Nat.sub_le _ _) t.base_le }

/-- Goes to where the goto of the newest state below leads. -/
def goOn (g : Grammar) (term : Nat) (t : Simulation) : Simulation :=
  { t with state := if t.base = 0 then noState
                    else g.gotoState (t.frames.getD (t.base - 1) 0) term }

/-- Tries a reduction. -/
def reduce (g : Grammar) (word : Nat) (t : Simulation) : Simulation :=
  let depth := ActionWord.depth word
  (if depth = 0 then t.push else t.pop (depth - 1)).goOn g (ActionWord.value word)

end Simulation

/-! ### Views for host code -/

/-- What host code sees of a stack. -/
structure StackView where
  grammar : Grammar
  stack : Stack
  /-- How many reductions are tried when looking whether a term can be shifted. -/
  limit : Nat

namespace StackView

/-- The context value, if there is a context. -/
def context? (v : StackView) : Option Int := v.stack.context.map (·.value)

/-- The stack as text. -/
def describe (v : StackView) : String := "StackView(" ++ v.stack.describe ++ ")"

/-- Whether a term can be shifted after reductions; no answer if `fuel` reductions do not tell. -/
def canShiftF (g : Grammar) (term : Nat) : Nat → Simulation → Option Bool
  | 0, _ => none
  | fuel + 1, t =>
      let word := g.tables.wordFor t.state term
      if word = 0 then some false
      else if ActionWord.isReduce word then canShiftF g term fuel (t.reduce g word)
      else some true

/-- Whether a term can be shifted, possibly after reductions. -/
def canShift (v : StackView) (term : Nat) : Option Bool :=
  canShiftF v.grammar term v.limit (.ofStack v.stack)

end StackView

end IncrementalLR
