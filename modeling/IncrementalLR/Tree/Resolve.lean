/-
**The innermost node at a position.**

Looking up a position climbs from a node until a node covers the position, then goes down as far
as children cover it.  The bias says what covering means at an end: with a negative bias a node may
end at the position, with a positive one it may start there.

Main definitions:

* `Node.misses` — whether a node does not cover a position;
* `Node.resolve`, `Tree.resolve` — the innermost node;
* `NodeMemo` — remembers the node found last, so that a look-up near it starts there.
-/

import IncrementalLR.Tree.View

set_option relaxedAutoImplicit false
set_option autoImplicit false

namespace IncrementalLR

namespace Node

/-- Whether a node does not cover a position for a bias.  An empty node covers none. -/
def misses (n : Node) (pos : Nat) (bias : Int) : Bool :=
  n.start = n.stop
    || (if bias < 1 then pos ≤ n.start else pos < n.start)
    || (if bias > -1 then n.stop ≤ pos else n.stop < pos)

/-- The first node from `n` upwards that covers the position; if none does, the topmost node and
`false`. -/
def climbF (pos : Nat) (bias : Int) : Nat → Node → Node × Bool
  | 0, n => (n, false)
  | fuel + 1, n =>
      if n.misses pos bias then
        match n.parent? with
        | some p => climbF pos bias fuel p
        | none => (n, false)
      else (n, true)

/-- Goes down to the first child that fits as often as there is one. -/
def descendF (q : Query) : Nat → Node → Node
  | 0, n => n
  | fuel + 1, n =>
      match n.child q with
      | some inner => descendF q fuel inner
      | none => n

/-- The search for the innermost node: forward, on the side that the bias stands for. -/
def covering (pos : Nat) (bias : Int) (mode : Mode) : Query :=
  { dir := .forward, side := Side.ofBias bias, pos := signedPos pos, mode }

/-- The innermost node at a position, looked for from `n`. -/
def resolve (n : Node) (pos : Nat) (bias : Int) : Node :=
  match climbF pos bias (n.depth + 1) n with
  | (m, true) => descendF (covering pos bias {}) n.rootTree.weight m
  | (m, false) => m

end Node

/-- The innermost node of a tree at a position. -/
def Tree.resolve (t : Tree) (pos : Nat) (bias : Int) : Node := t.top.resolve pos bias

/-! ### Remembering the last node -/

/-- The node found last and the tree that it belongs to. -/
structure NodeMemo where
  last : Option (Tree × Node) := none

namespace NodeMemo

/-- Looks a position up, from the remembered node if it belongs to the same tree. -/
def resolve (c : NodeMemo) (t : Tree) (pos : Nat) (bias : Int) : Node × NodeMemo :=
  let start :=
    match c.last with
    | some (cached, n) => if cached.same t then n else t.top
    | none => t.top
  let n := start.resolve pos bias
  (n, ⟨some (t, n)⟩)

/-- The name of the remembered node. -/
def rememberedName? (c : NodeMemo) : Option String := c.last.map fun p => p.2.name

end NodeMemo

end IncrementalLR
