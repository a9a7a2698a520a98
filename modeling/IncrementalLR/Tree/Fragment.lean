/-
**Fragments of older trees.**

A fragment is a range of a document in which an older tree, moved by an offset, is still valid.  A
side of a fragment that borders an edit is open: nodes that touch it must not be taken over,
because the edit may have changed how they would be parsed.

Applying edits cuts the fragments at the changed ranges, moves what lies behind them, and leaves out
the stretches that are too short to be worth it.

Main definitions:

* `Fragment`, `Fragment.addTree` — fragments, and those of a whole tree;
* `Fragment.cut` — the part of a fragment that lies in a stretch between two edits;
* `Fragment.applyChanges` — the fragments after edits.

Main results:

* `Fragment.applyChanges_nil` — without edits nothing changes.
-/

import IncrementalLR.Span
import IncrementalLR.Tree.Basic

set_option relaxedAutoImplicit false
set_option autoImplicit false

namespace IncrementalLR

/-- A range of a document in which a tree is still valid. -/
structure Fragment where
  start : Nat
  stop : Nat
  tree : Tree
  /-- The position in the tree less the position in the document. -/
  offset : Int := 0
  openStart : Bool := false
  openEnd : Bool := false

namespace Fragment

/-- The least distance between two edits that is kept, unless asked otherwise. -/
def defaultMinGap : Nat := 128

/-- A fragment of the whole of a tree, and the given fragments as far as they end behind it. -/
def addTree (t : Tree) (fragments : List Fragment) (isPartial : Bool) : List Fragment :=
  { start := 0, stop := t.length, tree := t, openEnd := isPartial }
    :: fragments.filter fun f => t.length < f.stop

/-! ### Edits -/

/-- A stretch of the old document between two edits; the one after the last edit ends at the largest
position.  In the new document its positions are less by `shift`. -/
structure Stretch where
  start : Nat
  stop : Nat
  shift : Int
  /-- Whether an edit lies before the stretch. -/
  afterEdit : Bool
  /-- Whether an edit lies behind the stretch. -/
  beforeEdit : Bool

/-- The part of a fragment that lies in a stretch, moved to the new document; a fragment that no
edit touches stays as it is. -/
def cut (f : Fragment) (s : Stretch) : List Fragment :=
  if f.start ≤ s.start || s.stop ≤ f.stop || s.shift ≠ 0 then
    let start := signedPos (max s.start f.start) - s.shift
    let stop := signedPos (min s.stop f.stop) - s.shift
    if start < stop then
      [{ start := posOfSigned start, stop := posOfSigned stop, tree := f.tree,
         offset := f.offset + s.shift, openStart := s.afterEdit, openEnd := s.beforeEdit }]
    else []
  else [f]

/-- The parts of fragments in a stretch, and the fragments that reach behind it. -/
def cutAll (s : Stretch) : List Fragment → List Fragment × List Fragment
  | [] => ([], [])
  | f :: rest =>
      if s.stop ≤ f.start then ([], f :: rest)
      else if s.stop < f.stop then (f.cut s, f :: rest)
      else
        let r := cutAll s rest
        (f.cut s ++ r.1, r.2)

/-- The parts of fragments in one stretch if it is long enough, and the fragments left over. -/
def cutStretch (minGap : Nat) (s : Stretch) (fragments : List Fragment) :
    List Fragment × List Fragment :=
  if minGap ≤ s.stop - s.start then cutAll s fragments else ([], fragments)

/-- Goes through the stretches between edits, the first of which starts at `start`. -/
def cutStretches (minGap : Nat) : Nat → Int → Bool → List Change → List Fragment → List Fragment
  | start, shift, afterEdit, [], fragments =>
      (cutStretch minGap ⟨start, maxPos, shift, afterEdit, false⟩ fragments).1
  | start, shift, afterEdit, c :: rest, fragments =>
      let r := cutStretch minGap ⟨start, c.oldStart, shift, afterEdit, true⟩ fragments
      r.1 ++ cutStretches minGap c.oldStop (signedPos c.oldStop - signedPos c.newStop) true rest r.2

/-- The fragments after edits, which are sorted and do not overlap.  Stretches shorter than `minGap`
are left out. -/
def applyChanges (fragments : List Fragment) (changes : List Change) (minGap : Nat) :
    List Fragment :=
  if changes.isEmpty then fragments else cutStretches minGap 0 0 false changes fragments

@[simp] theorem applyChanges_nil (fragments : List Fragment) (minGap : Nat) :
    applyChanges fragments [] minGap = fragments := rfl

end Fragment

end IncrementalLR
