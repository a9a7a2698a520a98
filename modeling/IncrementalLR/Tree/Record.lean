/-
**Node records.**

A parse writes its nodes as records in postfix order: children come before their parent, and the
size of a record is the number of slots, four for each record, that the node and everything below
it take.  Negative sizes mark records that are no nodes: a subtree taken over from an older tree,
a change of the context, and a new look-ahead position.

Trees are built by reading the records backwards.  The newest records of a stack may stand in front
of frozen pieces that it shares with other stacks; a `Reader` goes through the newest piece and
then through the older ones.

Main definitions:

* `Record`, `Record.isNode` and the sizes of special records;
* `Reader`, `Reader.record`, `Reader.next` — reading backwards across pieces;
* `Reader.ofSlots` — a reader over one flat sequence of slots;
* `Reader.records` — what is left to be read;
* `recordsOk` — whether a flat sequence nests as postfix records have to.

Main results:

* `Reader.records_next` — reading on drops the newest record.
-/

import IncrementalLR.Error

set_option relaxedAutoImplicit false
set_option autoImplicit false

namespace IncrementalLR

/-! ### Records -/

/-- A node written by a parse. -/
structure Record where
  id : Int
  start : Int
  stop : Int
  size : Int
deriving Repr, DecidableEq, Inhabited

namespace Record

/-- The size of a record that stands for a subtree taken over; its id is the place of the tree. -/
def reuseSize : Int := -1

/-- The size of a record that marks a change of context; its id is the hash that held before. -/
def contextSize : Int := -3

/-- The size of a record that marks a look-ahead position; its id is the one that held before. -/
def lookAheadSize : Int := -4

/-- Whether the record is a node. -/
def isNode (r : Record) : Bool := 0 ≤ r.size

/-- Whether the record has the term of errors as its id. -/
def isError (r : Record) : Bool := r.id = 0

/-- The start as a position. -/
def startPos (r : Record) : Nat := r.start.toNat

/-- The end as a position. -/
def stopPos (r : Record) : Nat := r.stop.toNat

/-- The slots of a record. -/
def slots (r : Record) : List Int := [r.id, r.start, r.stop, r.size]

end Record

/-- The slots of records that are given newest first, in the order in which they were written. -/
def slotsOf (rs : List Record) : List Int := rs.reverse.flatMap Record.slots

/-! ### Reading backwards -/

/-- What is left to read: the rest of the current piece, newest first, and the pieces before it.
`pos` is the number of slots before the reader. -/
structure Reader where
  pos : Nat
  current : List Record
  older : List (List Record) := []

namespace Reader

/-- The reader with the next piece opened when the current one is used up. -/
def refill (r : Reader) : Reader :=
  match r.current, r.older with
  | [], piece :: rest => { r with current := piece, older := rest }
  | _, _ => r

/-- The newest record that is not read yet. -/
def record (r : Reader) : Record := r.current.head?.getD default

/-- Moves to the record before. -/
def next (r : Reader) : Reader := refill { r with pos := r.pos - 4, current := r.current.tail }

/-- All records that are left, newest first. -/
def records (r : Reader) : List Record := r.current ++ r.older.flatten

/-- The records of slots that are given last slot first. -/
def quads : List Int → List Record
  | size :: stop :: start :: id :: rest => ⟨id, start, stop, size⟩ :: quads rest
  | _ => []

/-- A reader at the end of a flat sequence of slots. -/
def ofSlots (slots : List Int) : Reader := ⟨slots.length, quads slots.reverse, []⟩

@[simp] theorem records_refill (r : Reader) : r.refill.records = r.records := by
  obtain ⟨pos, current, older⟩ := r
  cases current <;> cases older <;> simp [refill, records]

theorem records_next (r : Reader) (h : r.current ≠ []) : r.next.records = r.records.tail := by
  obtain ⟨pos, current, older⟩ := r
  cases current with
  | nil => exact absurd rfl h
  | cons c rest =>
      have step := records_refill ⟨pos - 4, rest, older⟩
      exact step

end Reader

/-! ### Checking flat sequences -/

/-- A node that encloses the records being checked: the slot where its records begin, and its
span. -/
structure Enclosing where
  first : Nat
  start : Int
  stop : Int

/-- Whether a span lies inside the innermost enclosing node. -/
def Enclosing.contains (outer : List Enclosing) (r : Record) : Bool :=
  match outer with
  | [] => true
  | e :: _ => e.start ≤ r.start && r.stop ≤ e.stop

/-- Checks records, newest first, that end at slot `pos`: sizes are multiples of four that stay
after slot `limit`, spans are not inverted, and children lie inside their parent.  Special records
are left to the builder. -/
def checkRecords (limit : Nat) : Nat → List Enclosing → List Record → Except ParseError Unit
  | _, _, [] => .ok ()
  | pos, outer, r :: rest =>
      if pos ≤ limit then .ok ()
      else
        let outer := outer.dropWhile fun e => pos ≤ e.first
        if r.size < 0 then checkRecords limit (pos - 4) outer rest
        else if r.size < 4 || r.size % 4 ≠ 0 || (pos - limit : Nat) < r.size || r.start < 0
            || r.stop < r.start || !Enclosing.contains outer r then
          .error (.invalidRecord r.size)
        else
          checkRecords limit (pos - 4) (⟨pos - r.size.toNat, r.start, r.stop⟩ :: outer) rest

/-- Checks that a flat sequence of slots after slot `limit` nests as postfix records have to. -/
def recordsOk (slots : List Int) (limit : Nat) : Except ParseError Unit :=
  if slots.length % 4 ≠ 0 || slots.length < limit then .error (.invalidRecord slots.length)
  else checkRecords limit slots.length [] (Reader.ofSlots slots).current

end IncrementalLR
