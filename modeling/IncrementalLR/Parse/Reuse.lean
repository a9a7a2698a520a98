/-
**Finding nodes to take over.**

A parse that is given fragments of older trees asks, wherever a stack stands, for a node of an older
tree that starts there.  A `ReuseCursor` walks the fragments once, forward: it keeps the trees that
it is inside of, and the position before which there is nothing to find.

At an open side of a fragment nodes are taken only from a safe distance.  `safeCut` finds a position
near an end of a fragment, away from it by at least the look-ahead margin, where no node is split
that touches that end.

Main definitions:

* `safeCut` — a safe position near an end of a fragment;
* `ReuseCursor`, `ReuseCursor.ofFragments` — the walk through fragments;
* `ReuseCursor.offerAt` — the node at a position, and the cursor after looking for it.
-/

import IncrementalLR.Tree.Build
import IncrementalLR.Tree.Cursor
import IncrementalLR.Tree.Fragment

set_option relaxedAutoImplicit false
set_option autoImplicit false

namespace IncrementalLR

/-! ### Cutting trees -/

/-- Whether a cursor has left a position behind on its way towards the start or the end. -/
def Cursor.isPast (c : Cursor) (pos : Nat) (towardsStart : Bool) : Bool :=
  !c.node.type.isError && if towardsStart then c.node.stop < pos else pos < c.node.start

/-- Goes through the nodes near a position in one direction until one is past it.  With `enter`
the children of the node are tried first. -/
def safeCutF (length pos : Nat) (towardsStart : Bool) : Nat → Cursor → Bool → Nat
  | 0, _, _ => if towardsStart then 0 else length
  | fuel + 1, c, true =>
      match if towardsStart then c.childBefore pos else c.childAfter pos with
      | (moved, c) => safeCutF length pos towardsStart fuel c moved
  | fuel + 1, c, false =>
      if c.isPast pos towardsStart then
        if towardsStart then min (c.node.stop - 1) (pos - lookAheadMargin)
        else min length (max (c.node.start + 1) (pos + lookAheadMargin))
      else
        match c.sibling (if towardsStart then .backward else .forward) with
        | (true, c) => safeCutF length pos towardsStart fuel c true
        | (false, c) =>
            match c.parent with
            | (true, c) => safeCutF length pos towardsStart fuel c false
            | (false, _) => if towardsStart then 0 else length

/-- A position near `pos`, away from it by at least the look-ahead margin, where the tree can be
cut without splitting a node that touches `pos`. -/
def Tree.safeCut (t : Tree) (pos : Nat) (towardsStart : Bool) : Nat :=
  safeCutF t.length pos towardsStart (4 * t.weight + 4)
    ((t.cursor { includeAnonymous := true }).moveTo pos 0) true

/-! ### Walking fragments -/

/-- A tree that the walk is inside of: its start in the document and the children that are left. -/
structure OpenTree where
  start : Int
  rest : List (Nat × Tree)

/-- A walk through fragments. -/
structure ReuseCursor where
  /-- The fragments after the current one. -/
  pending : List Fragment
  fragment : Option Fragment := none
  /-- Nodes are taken over from here on. -/
  safeStart : Nat := 0
  /-- Nodes are taken over that end by here. -/
  safeStop : Nat := 0
  /-- The trees that the walk is inside of, innermost first. -/
  trees : List OpenTree := []
  /-- No node starts before this position; none if there are no more nodes. -/
  nextStart : Option Nat := some 0
  /-- A bound on the steps through the current tree. -/
  steps : Nat := 0

/-- A position moved by an offset, not below 0. -/
def shiftPos (pos : Nat) (offset : Int) : Nat := (signedPos pos + offset).toNat

namespace ReuseCursor

/-- Goes to the next fragment. -/
def openNext (c : ReuseCursor) : ReuseCursor :=
  match c.pending with
  | [] => { c with fragment := none, trees := [], nextStart := none }
  | f :: rest =>
      let safeStart :=
        if f.openStart then shiftPos (f.tree.safeCut (shiftPos f.start f.offset) false) (-f.offset)
        else f.start
      let safeStop :=
        if f.openEnd then shiftPos (f.tree.safeCut (shiftPos f.stop f.offset) true) (-f.offset)
        else f.stop
      { pending := rest, fragment := some f, safeStart, safeStop,
        trees := [⟨-f.offset, f.tree.children⟩], nextStart := some safeStart,
        steps := 2 * f.tree.weight + 2 }

/-- The walk at the first fragment. -/
def ofFragments (fragments : List Fragment) : ReuseCursor :=
  openNext { pending := fragments }

/-- Leaves the fragments behind in which nothing ends after a position. -/
def skipF (pos : Nat) : Nat → ReuseCursor → ReuseCursor
  | 0, c => c
  | fuel + 1, c =>
      if c.fragment.isSome && c.safeStop ≤ pos then skipF pos fuel c.openNext else c

/-- Whether a node that starts where it is wanted can be taken over: it ends before the unsafe part
of the fragment, and so does what was looked at for it. -/
def fits (c : ReuseCursor) (fragmentStop : Nat) (stop : Int) (t : Tree) : Bool :=
  let lookAhead := (t.numberProp? .lookAhead).getD 0
  stop ≤ signedPos c.safeStop &&
    (lookAhead = 0 || stop + lookAhead < signedPos fragmentStop)

/-- Walks to the node that starts at a position.  A node that is handed out is not left behind, so
a stack that has to reduce first is offered it again. -/
def walkF (fragmentStop pos : Nat) : Nat → ReuseCursor → Option Tree × ReuseCursor
  | 0, c => (none, c)
  | fuel + 1, c =>
      match c.trees with
      | [] => (none, c.openNext)
      | ⟨_, []⟩ :: outer => walkF fragmentStop pos fuel { c with trees := outer }
      | ⟨base, (p, t) :: rest⟩ :: outer =>
          let start := base + p
          let stop := start + t.length
          -- the next node lies ahead, and nothing is offered until it is reached
          if signedPos pos < start then (none, { c with nextStart := some start.toNat })
          else
            let passed := { c with trees := ⟨base, rest⟩ :: outer }
            match t with
            | .packed _ =>
                walkF fragmentStop pos fuel { passed with nextStart := some stop.toNat }
            | .branch .. =>
                if start = signedPos pos && start < signedPos c.safeStart then (none, c)
                else if start = signedPos pos && c.fits fragmentStop stop t then (some t, c)
                -- a node that is too large may hold one that fits
                else if signedPos (max c.safeStart pos) ≤ stop then
                  walkF fragmentStop pos fuel
                    { passed with trees := ⟨start, t.children⟩ :: passed.trees }
                else walkF fragmentStop pos fuel passed

/-- The node to take over that starts at a position, if there is one.  Positions must not
decrease from call to call. -/
def offerAt (c : ReuseCursor) (pos : Nat) : Option Tree × ReuseCursor :=
  if c.nextStart.all (pos < ·) then (none, c)
  else
    let c := skipF pos (c.pending.length + 1) c
    match c.fragment with
    | none => (none, c)
    | some f => walkF f.stop pos c.steps c

end ReuseCursor

end IncrementalLR
