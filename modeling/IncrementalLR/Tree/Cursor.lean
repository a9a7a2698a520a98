/-
**Walking through a tree.**

A cursor points at a node and moves from node to node; its mode says which nodes it visits.  Every
move tells whether the cursor moved.  Going to the next node in pre-order climbs until there is a
sibling; when there is none left the cursor has climbed to the root and stays there.

Main definitions:

* `Cursor`, `Cursor.describe` — a node and a mode;
* `Cursor.child`, `Cursor.parent`, `Cursor.sibling` — single moves;
* `Cursor.step`, `Cursor.next`, `Cursor.prev`, `Cursor.skip` — the next node in an order;
* `Cursor.moveTo` — to the innermost node at a position;
* `Cursor.walk` — all nodes that a repeated move reaches.
-/

import IncrementalLR.Tree.Resolve

set_option relaxedAutoImplicit false
set_option autoImplicit false

namespace IncrementalLR

/-- A node and the mode in which to go on from it. -/
structure Cursor where
  node : Node
  mode : Mode := {}

/-- A cursor at the root. -/
def Tree.cursor (t : Tree) (mode : Mode) : Cursor := ⟨t.top, mode⟩

namespace Cursor

/-- The cursor as text. -/
def describe (c : Cursor) : String := "TreeCursor(" ++ c.node.describe ++ ")"

/-- Moves to a node if there is one. -/
def moveIf (c : Cursor) (target : Option Node) : Bool × Cursor :=
  match target with
  | some n => (true, { c with node := n })
  | none => (false, c)

/-! ### Single moves -/

/-- Moves to the child that a search finds. -/
def child (c : Cursor) (dir : Direction) (side : Side) (pos : Nat) : Bool × Cursor :=
  c.moveIf (c.node.child { dir, side, pos := signedPos pos, mode := c.mode })

/-- Moves to the first child. -/
def firstChild (c : Cursor) : Bool × Cursor := c.child .forward .any 0

/-- Moves to the last child. -/
def lastChild (c : Cursor) : Bool × Cursor := c.child .backward .any 0

/-- Moves to the first child that ends after a position. -/
def childAfter (c : Cursor) (pos : Nat) : Bool × Cursor := c.child .forward .after pos

/-- Moves to the last child that starts before a position. -/
def childBefore (c : Cursor) (pos : Nat) : Bool × Cursor := c.child .backward .before pos

/-- Moves to the node above. -/
def parent (c : Cursor) : Bool × Cursor := c.moveIf (c.node.parentIn c.mode.includeAnonymous)

/-- Moves to the next node beside. -/
def sibling (c : Cursor) (dir : Direction) : Bool × Cursor := c.moveIf (c.node.sibling dir c.mode)

/-! ### Orders -/

/-- Moves to the next sibling of the node or of the nearest node above that has one. -/
def besideF (dir : Direction) : Nat → Cursor → Bool × Cursor
  | 0, c => (false, c)
  | fuel + 1, c =>
      match c.node.sibling dir c.mode with
      | some n => (true, { c with node := n })
      | none =>
          match c.node.parentIn c.mode.includeAnonymous with
          | some p => besideF dir fuel { c with node := p }
          | none => (false, c)

/-- Moves to the next node: into the node if `enter` is set and it has children, else beside it. -/
def step (c : Cursor) (dir : Direction) (enter : Bool) : Bool × Cursor :=
  match if enter then c.node.child { dir, mode := c.mode } else none with
  | some n => (true, { c with node := n })
  | none => besideF dir (c.node.depth + 1) c

/-- Moves to the next node in pre-order. -/
def next (c : Cursor) : Bool × Cursor := c.step .forward true

/-- Moves to the next node in pre-order that is not inside this one. -/
def skip (c : Cursor) : Bool × Cursor := c.step .forward false

/-- Moves to the next node in pre-order from right to left. -/
def prev (c : Cursor) : Bool × Cursor := c.step .backward true

/-! ### Positions -/

/-- Climbs until the node covers a position or is the topmost one. -/
def climbF (pos : Nat) (bias : Int) : Nat → Cursor → Cursor
  | 0, c => c
  | fuel + 1, c =>
      if c.node.misses pos bias then
        match c.node.parentIn c.mode.includeAnonymous with
        | some p => climbF pos bias fuel { c with node := p }
        | none => c
      else c

/-- Moves to the innermost node at a position. -/
def moveTo (c : Cursor) (pos : Nat) (bias : Int) : Cursor :=
  let top := climbF pos bias (c.node.depth + 1) c
  { c with node := top.node.descendF (Node.covering pos bias c.mode) c.node.rootTree.weight }

/-! ### Whole walks -/

/-- The nodes that a repeated move reaches. -/
def walkF (dir : Direction) : Nat → Cursor → List Node × Cursor
  | 0, c => ([], c)
  | fuel + 1, c =>
      match c.step dir true with
      | (true, c') =>
          let r := walkF dir fuel c'
          (c'.node :: r.1, r.2)
      | (false, c') => ([], c')

/-- The nodes that a repeated move to the next node reaches, and the cursor at its end. -/
def walk (c : Cursor) (dir : Direction) : List Node × Cursor :=
  walkF dir (c.node.rootTree.weight * c.node.rootTree.weight + 1) c

end Cursor

/-- A cursor at the innermost node at a position. -/
def Tree.cursorAt (t : Tree) (pos : Nat) (bias : Int) : Cursor := (t.cursor {}).moveTo pos bias

end IncrementalLR
