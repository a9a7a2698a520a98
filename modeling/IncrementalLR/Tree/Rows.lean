/-
**Trees as flat lists of rows.**

The stored structure of a tree can be written as one row for each stored node, in pre-order, with
its depth and its position relative to its parent.  `Tree.rows` writes the rows and `Tree.ofRows`
builds the tree that they describe.

Main definitions:

* `Row`, `RowBody` — a stored node without its children;
* `Tree.rows` — the rows of a tree;
* `Tree.ofRows` — the tree of a list of rows.
-/

import IncrementalLR.Tree.Basic

set_option relaxedAutoImplicit false
set_option autoImplicit false

namespace IncrementalLR

/-- What a row says of its node. -/
inductive RowBody where
  | branch (type : NodeType) (length : Nat) (props : List (PropKey × PropValue))
  | packed (length : Nat) (slots : Array Nat)

/-- A stored node without its children. -/
structure Row where
  depth : Nat
  pos : Nat
  body : RowBody

namespace Tree

/-! ### Writing -/

mutual

/-- The rows of a tree at a depth and position. -/
def rowsAt (depth pos : Nat) : Tree → List Row
  | branch _ ty cs len ps => ⟨depth, pos, .branch ty len ps⟩ :: rowsOfAll (depth + 1) cs
  | packed b => [⟨depth, pos, .packed b.length b.slots⟩]

/-- The rows of children at a depth. -/
def rowsOfAll (depth : Nat) : List (Nat × Tree) → List Row
  | [] => []
  | (p, t) :: rest => rowsAt depth p t ++ rowsOfAll depth rest

end

/-- The rows of a tree. -/
def rows (t : Tree) : List Row := rowsAt 0 0 t

/-! ### Reading -/

/-- The node of a row with the given children. -/
def ofRow (set : NodeSet) (r : Row) (children : List (Nat × Tree)) : Tree :=
  match r.body with
  | .branch ty len ps => make ty children len ps
  | .packed len slots => packed (Buffer.make slots len set)

/-- The children at depth `depth` that the rows begin with, and the rows after them. -/
def takeRowsF (set : NodeSet) : Nat → Nat → List Row → List (Nat × Tree) × List Row
  | 0, _, rest => ([], rest)
  | _, _, [] => ([], [])
  | fuel + 1, depth, r :: rest =>
      if r.depth < depth then ([], r :: rest)
      else
        let inner := takeRowsF set fuel (r.depth + 1) rest
        let more := takeRowsF set fuel depth inner.2
        ((r.pos, ofRow set r inner.1) :: more.1, more.2)

/-- The tree of a list of rows, the first of which is the root. -/
def ofRows (set : NodeSet) (rows : List Row) : Option Tree :=
  ((takeRowsF set (rows.length + 1) 0 rows).1.head?).map (·.2)

end Tree

end IncrementalLR
