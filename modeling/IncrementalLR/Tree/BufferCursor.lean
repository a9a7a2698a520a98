/-
**Cursors over buffers of slots.**

A builder reads the records of a buffer backwards, the last one first.  How it gets from one record
to the one before depends on where the slots lie, so it is given a cursor, which tells the number of
slots that are left and the record that ends there, and goes on to the record before.  A step or a
look outside of the buffer has no result.

Main definitions:

* `BufferCursor` — what a builder asks of a cursor;
* `RecordView`, `BufferCursor.views?` — what a cursor shows down to the first slot;
* `recordAt?` — the record that ends at a slot;
* `FlatCursor` — a cursor over one flat buffer;
* `Tree.buildFromCursor?` — the tree of the records that a cursor shows.
-/

import IncrementalLR.Tree.Build

set_option relaxedAutoImplicit false
set_option autoImplicit false

namespace IncrementalLR

/-- Goes backwards over records of four slots. -/
class BufferCursor (α : Type) where
  /-- The number of slots that are left. -/
  pos : α → Nat
  /-- The record that ends there. -/
  record? : α → Option Record
  /-- The cursor at the record before. -/
  next? : α → Option α

/-- What a cursor shows at a record: the slots up to its end, and the record with its positions. -/
structure RecordView where
  pos : Nat
  id : Int
  start : Nat
  stop : Nat
  size : Int
deriving Repr, DecidableEq

/-- What is shown of a record that ends at a slot. -/
def Record.viewAt (pos : Nat) (r : Record) : RecordView :=
  ⟨pos, r.id, r.startPos, r.stopPos, r.size⟩

namespace BufferCursor

variable {α : Type} [BufferCursor α]

/-- The slots and the records where a cursor passes, newest first, down to the first slot; `fuel`
bounds the steps. -/
def walkF : Nat → α → Option (List (Nat × Record))
  | 0, c => if pos c = 0 then some [] else none
  | fuel + 1, c =>
      if pos c = 0 then some []
      else do
        let r ← record? c
        let rest ← walkF fuel (← next? c)
        return (pos c, r) :: rest

/-- The slots and the records where a cursor passes. -/
def walk? (c : α) : Option (List (Nat × Record)) := walkF (pos c) c

/-- What a cursor shows where it passes. -/
def views? (c : α) : Option (List RecordView) :=
  (walk? c).map fun places => places.map fun place => place.2.viewAt place.1

/-- The records that a cursor passes, to be read by a builder. -/
def reader? (c : α) : Option Reader :=
  (walk? c).map fun places => ⟨pos c, places.map (·.2), []⟩

end BufferCursor

/-- The tree of the records that a cursor shows. -/
def Tree.buildFromCursor? {α : Type} [BufferCursor α] (d : BuildPlan) (c : α) :
    Option (Except ParseError Tree) :=
  (BufferCursor.reader? c).map (Tree.buildFrom d)

instance : BufferCursor Reader where
  pos r := r.pos
  record? r := r.current.head?
  next? r := if r.current.isEmpty then none else some r.next

/-- The record of the four slots before `index`. -/
def recordAt? (slots : List Int) (index : Nat) : Option Record :=
  if index < 4 then none
  else do
    return ⟨← slots[index - 4]?, ← slots[index - 3]?, ← slots[index - 2]?, ← slots[index - 1]?⟩

/-- Goes backwards over one flat buffer. -/
structure FlatCursor where
  buffer : List Int
  index : Nat
deriving Repr, DecidableEq

namespace FlatCursor

/-- The cursor at the last record. -/
def start (slots : List Int) : FlatCursor := ⟨slots, slots.length⟩

/-- Goes four slots back. -/
def next? (c : FlatCursor) : Option FlatCursor :=
  if c.index < 4 then none else some { c with index := c.index - 4 }

instance : BufferCursor FlatCursor where
  pos c := c.index
  record? c := recordAt? c.buffer c.index
  next? := next?

end FlatCursor

end IncrementalLR
