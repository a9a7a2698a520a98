/-
**A place in a list of ranges.**

A parse may be restricted to some ranges of a document.  `Ranges` is a nonempty list of ranges with
one of them marked as current; moving along the text goes from range to range and leaves the gaps
between them out.

Main definitions:

* `Ranges`, `Ranges.toList`, `Ranges.ofList` — the ranges with the current one;
* `Ranges.back`, `Ranges.forth` — following an offset over the gaps;
* `Ranges.toLast`, `Ranges.seek` — moving to the last range and to the range of a position.

Main results:

* `Ranges.toList_toLast` — moving changes the current range only.
-/

import IncrementalLR.Span

set_option relaxedAutoImplicit false
set_option autoImplicit false

namespace IncrementalLR

/-- Ranges with a current one; those before it stand nearest first. -/
structure Ranges where
  before : List Span := []
  current : Span
  after : List Span := []
deriving Repr, DecidableEq

namespace Ranges

/-- All ranges in order. -/
def toList (r : Ranges) : List Span := r.before.reverse ++ r.current :: r.after

/-- The ranges of a list with the first one current; without ranges, one that is empty. -/
def ofList : List Span → Ranges
  | [] => { current := ⟨0, 0⟩ }
  | s :: rest => { current := s, after := rest }

/-- Follows a position that may lie before the current range back over the gaps; none before the
first range. -/
def back : List Span → Span → List Span → Int → Option (Int × Ranges)
  | [], cur, after, pos =>
      if pos < signedPos cur.start then none else some (pos, ⟨[], cur, after⟩)
  | r :: rest, cur, after, pos =>
      if pos < signedPos cur.start then
        back rest r (cur :: after) (pos - (signedPos cur.start - signedPos r.stop))
      else some (pos, ⟨r :: rest, cur, after⟩)

/-- Whether a position lies behind a range.  With `atEnd` the end of a range still belongs to it. -/
def isBehind (atEnd : Bool) (cur : Span) (pos : Int) : Bool :=
  if atEnd then signedPos cur.stop < pos else signedPos cur.stop ≤ pos

/-- Follows a position that may lie behind the current range forth over the gaps; none behind the
last range. -/
def forth (atEnd : Bool) : List Span → Span → Int → Option Int
  | [], cur, pos => if isBehind atEnd cur pos then none else some pos
  | r :: rest, cur, pos =>
      if isBehind atEnd cur pos then
        forth atEnd rest r (pos + (signedPos r.start - signedPos cur.stop))
      else some pos

/-- The position at an offset from `pos` in the current range, gaps left out. -/
def resolve (r : Ranges) (pos : Nat) (offset : Int) (atEnd : Bool) : Option Nat :=
  match back r.before r.current r.after (signedPos pos + offset) with
  | none => none
  | some (p, place) => (forth atEnd place.after place.current p).bind fun q =>
      if q < 0 then none else some q.toNat

/-- Moves on to the last range. -/
def toLastFrom : List Span → Span → List Span → Ranges
  | before, cur, [] => ⟨before, cur, []⟩
  | before, cur, r :: rest => toLastFrom (cur :: before) r rest

/-- The ranges with the last one current. -/
def toLast (r : Ranges) : Ranges := toLastFrom r.before r.current r.after

/-- Moves back while a position lies before the current range. -/
def seekBack (pos : Nat) : List Span → Span → List Span → Ranges
  | [], cur, after => ⟨[], cur, after⟩
  | r :: rest, cur, after =>
      if pos < cur.start then seekBack pos rest r (cur :: after) else ⟨r :: rest, cur, after⟩

/-- Moves on while a position lies behind the current range. -/
def seekForth (pos : Nat) : List Span → Span → List Span → Ranges
  | before, cur, [] => ⟨before, cur, []⟩
  | before, cur, r :: rest =>
      if cur.stop ≤ pos then seekForth pos (cur :: before) r rest else ⟨before, cur, r :: rest⟩

/-- Moves on while a position lies behind the current range. -/
def onward (r : Ranges) (pos : Nat) : Ranges := seekForth pos r.before r.current r.after

/-- Moves to the range of a position. -/
def seek (r : Ranges) (pos : Nat) : Ranges :=
  (seekBack pos r.before r.current r.after).onward pos

/-- Goes `n` bytes on from `pos`; none if that reaches the end of the last range. -/
def advance : List Span → Span → List Span → Nat → Nat → Option (Nat × Ranges)
  | before, cur, [], pos, n =>
      if cur.stop ≤ pos + n then none else some (pos + n, ⟨before, cur, []⟩)
  | before, cur, r :: rest, pos, n =>
      if cur.stop ≤ pos + n then advance (cur :: before) r rest r.start (n - (cur.stop - pos))
      else some (pos + n, ⟨before, cur, r :: rest⟩)

theorem toList_toLastFrom (before : List Span) (cur : Span) (after : List Span) :
    (toLastFrom before cur after).toList = before.reverse ++ cur :: after := by
  induction after generalizing before cur with
  | nil => rfl
  | cons r rest ih =>
      rw [toLastFrom, ih]
      simp

@[simp] theorem toList_toLast (r : Ranges) : r.toLast.toList = r.toList :=
  toList_toLastFrom r.before r.current r.after

end Ranges

end IncrementalLR
