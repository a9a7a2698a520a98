/-
**Segments of records.**

The finished records of a stack that is split move into a segment, which both halves then share.
All segments of a parse lie in one arena and are named by their places there.  A segment notes how
many slots come before it and which segment these end with, so the slots of a stack are found by
going from segment to segment.  Segments are only added, and never changed.

Main definitions:

* `Segment`, `Arena`, `Arena.get?`, `Arena.push` — segments, and the arena that holds them;
* `Arena.chain` — the segments from one of them to the oldest;
* `Arena.slots` — the slots in these segments.

Main results:

* `Arena.get?_push_of_lt`, `Arena.get?_push_self` — what an arena holds after a segment was added.
-/

import IncrementalLR.Tree.Record

set_option relaxedAutoImplicit false
set_option autoImplicit false

namespace IncrementalLR

/-- Frozen records. -/
structure Segment where
  /-- The slots of the records, in the order in which they were written. -/
  buffer : List Int
  /-- The number of slots before these. -/
  base : Nat
  /-- The segment before this one. -/
  parent : Option Nat
deriving Repr, DecidableEq

/-- The segments of a parse; a segment is named by its place. -/
structure Arena where
  segments : Array Segment := #[]
deriving Repr, DecidableEq

namespace Arena

/-- The number of segments. -/
def size (a : Arena) : Nat := a.segments.size

/-- The segment with an id. -/
def get? (a : Arena) (id : Nat) : Option Segment := a.segments[id]?

/-- Adds a segment; its id is the number of segments so far. -/
def push (a : Arena) (segment : Segment) : Arena := ⟨a.segments.push segment⟩

/-- The segments from `parent` on, newest first, at most `fuel` of them. -/
def chainF (a : Arena) : Nat → Option Nat → List Segment
  | 0, _ => []
  | fuel + 1, parent =>
      match parent.bind a.get? with
      | none => []
      | some segment => segment :: chainF a fuel segment.parent

/-- The segments from `parent` on to the oldest, newest first. -/
def chain (a : Arena) (parent : Option Nat) : List Segment := a.chainF a.size parent

/-- The slots of the segments from `parent` on, in the order in which they were written. -/
def slots (a : Arena) (parent : Option Nat) : List Int :=
  (a.chain parent).reverse.flatMap (·.buffer)

@[simp] theorem size_push (a : Arena) (segment : Segment) : (a.push segment).size = a.size + 1 :=
  Array.size_push segment

theorem lt_size {a : Arena} {id : Nat} {segment : Segment} (h : a.get? id = some segment) :
    id < a.size :=
  (Array.getElem?_eq_some_iff.1 h).1

/-- The segments that there are stay when one is added. -/
theorem get?_push_of_lt {a : Arena} {id : Nat} (h : id < a.size) (segment : Segment) :
    (a.push segment).get? id = a.get? id := by
  have hlt : id < a.segments.size := h
  simp [push, get?, Array.getElem?_push, Nat.ne_of_lt hlt]

theorem get?_push_self (a : Arena) (segment : Segment) :
    (a.push segment).get? a.size = some segment := by
  simp [push, get?, size]

end Arena

end IncrementalLR
