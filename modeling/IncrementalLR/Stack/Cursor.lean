/-
**Cursors over stacks.**

A cursor over the records of a stack begins in those that the stack has for itself.  When it comes
to the first slot of a piece, it goes on at the end of the segment before, where there is one.

Main definitions:

* `StackCursor`, `StackCursor.start` — a cursor over a stack;
* `StackCursor.enter?` — goes on in the segment before;
* `StackCursor.next?` — goes to the record before.
-/

import IncrementalLR.Stack.Env
import IncrementalLR.Tree.BufferCursor

set_option relaxedAutoImplicit false
set_option autoImplicit false

namespace IncrementalLR

/-- Goes backwards over the records of a stack, from segment to segment. -/
structure StackCursor where
  arena : Arena
  /-- The slots of the current piece. -/
  buffer : List Int
  /-- The number of slots before the current piece. -/
  base : Nat
  /-- The segment before the current piece. -/
  parent : Option Nat
  /-- The number of slots that are left. -/
  pos : Nat
  /-- The number of slots that are left in the current piece. -/
  index : Nat
deriving Repr, DecidableEq

namespace StackCursor

/-- Goes on at the end of the segment before, if there is one. -/
def enter? (c : StackCursor) : Option StackCursor :=
  match c.parent with
  | none => some c
  | some id => do
      let segment ← c.arena.get? id
      if c.base < segment.base then none
      else return { c with
        index := c.base - segment.base, buffer := segment.buffer, base := segment.base,
        parent := segment.parent }

/-- Goes on in the segment before once the current piece is used up. -/
def refill? (c : StackCursor) : Option StackCursor := if c.index = 0 then c.enter? else some c

/-- The cursor at the newest record of a stack. -/
def start (a : Arena) (s : Stack) : Option StackCursor :=
  refill? ⟨a, slotsOf s.own.items, s.base, s.parent, s.bufferLength, 4 * s.own.size⟩

/-- Goes four slots back. -/
def next? (c : StackCursor) : Option StackCursor :=
  if c.index < 4 || c.pos < 4 then none
  else refill? { c with index := c.index - 4, pos := c.pos - 4 }

instance : BufferCursor StackCursor where
  pos c := c.pos
  record? c := recordAt? c.buffer c.index
  next? := next?

end StackCursor

end IncrementalLR
