/-
**Nodes seen from a root.**

A stored tree has no links upwards and no absolute positions.  A `Node` adds both: it pairs a stored
node with its start in the document and with the way down from the root, so that parents and
siblings can be found.  It points at a branch or at a node inside a buffer.

Navigation looks through anonymous branches, unless asked not to: their children stand in their
place.  A search among the children of a node goes through them in one direction and takes the
first that lies on the wanted side of a position; when the searched node is anonymous itself, the
search goes on beside it in its parent.

Main definitions:

* `Side`, `Mode`, `Direction`, `Query` — what a search looks for;
* `BranchNode`, `PackedNode`, `Node` — the views;
* `BranchNode.search` — the first child that fits, with anonymous branches looked through;
* `Node.child`, `Node.sibling`, `Node.parent?` — the steps from node to node;
* `Node.visibleChildren`, `Node.childrenNamed` — all children;
* `Node.same` — whether two views show the same stored node.

Main results:

* `Side.holds_any` — the side "any" is met by every node.
-/

import IncrementalLR.Text.Utf8
import IncrementalLR.Tree.Identity

set_option relaxedAutoImplicit false
set_option autoImplicit false

namespace IncrementalLR

/-! ### Searching -/

/-- Where a node has to lie relative to a position. -/
inductive Side where
  /-- Starts before the position. -/
  | before
  /-- Starts before the position and ends at or after it. -/
  | atOrBefore
  /-- Starts before and ends after the position. -/
  | around
  /-- Starts at or before the position and ends after it. -/
  | atOrAfter
  /-- Ends after the position. -/
  | after
  /-- Anywhere. -/
  | any
deriving Repr, DecidableEq

namespace Side

/-- Whether a node from `start` to `stop` lies on this side of `pos`. -/
def holds (side : Side) (pos start stop : Int) : Bool :=
  match side with
  | before => start < pos
  | atOrBefore => pos ≤ stop && start < pos
  | around => start < pos && pos < stop
  | atOrAfter => start ≤ pos && pos < stop
  | after => pos < stop
  | any => true

/-- The side for a bias: before, around or after the position. -/
def ofBias (bias : Int) : Side :=
  if bias < 0 then atOrBefore else if bias = 0 then around else atOrAfter

@[simp] theorem holds_any (pos start stop : Int) : Side.any.holds pos start stop = true := rfl

end Side

/-- Which nodes navigation visits. -/
structure Mode where
  /-- Buffers are not entered. -/
  excludeBuffers : Bool := false
  /-- Anonymous nodes are visited instead of looked through. -/
  includeAnonymous : Bool := false
deriving Repr, DecidableEq

/-- The order in which siblings are gone through. -/
inductive Direction where
  | forward
  | backward
deriving Repr, DecidableEq

/-- The number of siblings before the place where a search starts that leaves the child at `index`
behind. -/
def Direction.beside (d : Direction) (index : Nat) : Nat :=
  match d with
  | .forward => index + 1
  | .backward => index

/-- What a search among siblings looks for. -/
structure Query where
  dir : Direction
  side : Side := .any
  pos : Int := 0
  mode : Mode := {}
deriving Repr, DecidableEq

/-! ### Packed siblings -/

namespace Buffer

/-- The first sibling from index `i` to index `stop` that lies on a side of `pos`, or the last one
when going backward. -/
def findF (b : Buffer) (dir : Direction) (side : Side) (pos : Int) : Nat → Nat → Nat → Option Nat
  | 0, _, _ => none
  | fuel + 1, stop, i =>
      if i ≠ stop ∧ i + 3 < b.size then
        let fits := side.holds pos (b.slot (i + 1)) (b.slot (i + 2))
        match dir with
        | .forward => if fits then some i else findF b dir side pos fuel stop (b.slot (i + 3))
        | .backward =>
            match findF b dir side pos fuel stop (b.slot (i + 3)) with
            | some j => some j
            | none => if fits then some i else none
      else none

/-- The sibling between two indices that lies on a side of `pos`: the first one, or the last one
when going backward.  Positions are relative to the buffer. -/
def find (b : Buffer) (dir : Direction) (side : Side) (pos : Int) (i stop : Nat) : Option Nat :=
  b.findF dir side pos b.size stop i

end Buffer

/-! ### Views -/

/-- One step up: a parent, its start, and the place of the child that was entered. -/
structure Up where
  tree : Tree
  start : Nat
  index : Nat

/-- A view of a branch, with the steps up to the root, nearest first. -/
structure BranchNode where
  tree : Tree
  start : Nat
  above : List Up

/-- A view of a node inside a buffer. -/
structure PackedNode where
  /-- The branch that holds the buffer. -/
  parent : BranchNode
  buffer : Buffer
  /-- The place of the buffer among the children of that branch. -/
  place : Nat
  /-- The start of the buffer. -/
  start : Nat
  /-- The indices of the enclosing nodes inside the buffer, nearest first. -/
  outer : List Nat
  index : Nat

/-- A node of a syntax tree. -/
inductive Node where
  | branch (n : BranchNode)
  | packed (n : PackedNode)

/-- The root of a tree. -/
def Tree.root (t : Tree) : BranchNode := ⟨t, 0, []⟩

/-- The root of a tree as a node. -/
def Tree.top (t : Tree) : Node := .branch t.root

namespace BranchNode

/-- The position after the last byte. -/
def stop (n : BranchNode) : Nat := n.start + n.tree.length

/-- The branch directly above. -/
def parent? (n : BranchNode) : Option BranchNode :=
  match n.above with
  | [] => none
  | u :: rest => some ⟨u.tree, u.start, rest⟩

/-- The nearest branch from here upwards that is not anonymous, or the root. -/
def significantFrom (tree : Tree) (start : Nat) : List Up → BranchNode
  | [] => ⟨tree, start, []⟩
  | u :: rest =>
      if tree.isAnonymous then significantFrom u.tree u.start rest else ⟨tree, start, u :: rest⟩

/-- The node itself, or the nearest branch above it that is not anonymous. -/
def significant (n : BranchNode) : BranchNode := significantFrom n.tree n.start n.above

/-- The child at `index`, which starts at `start`. -/
def enter (n : BranchNode) (index start : Nat) (child : Tree) : BranchNode :=
  ⟨child, start, ⟨n.tree, n.start, index⟩ :: n.above⟩

/-- The outermost tree. -/
def rootTree (n : BranchNode) : Tree := (n.above.getLast?.map (·.tree)).getD n.tree

mutual

/-- What a search finds at one child: the child itself, the packed node that fits, or, inside an
anonymous branch, the first of its descendants that fits. -/
def searchAt (q : Query) (parent : BranchNode) (index pos : Nat) : Tree → Option Node
  | .packed b =>
      let start := pos + parent.start
      if !q.mode.excludeBuffers && q.side.holds q.pos start (start + b.length : Nat) then
        (b.find q.dir q.side (q.pos - start) 0 b.size).map fun i =>
          .packed ⟨parent, b, index, start, [], i⟩
      else none
  | .branch s ty cs len ps =>
      let start := pos + parent.start
      let inner := parent.enter index start (.branch s ty cs len ps)
      if q.side.holds q.pos start (start + len : Nat) then
        if q.mode.includeAnonymous || !ty.isAnonymous then some (.branch inner)
        else searchAmong q inner 0 cs
      else none

/-- What a search finds among children, the first of which stands at place `index`. -/
def searchAmong (q : Query) (parent : BranchNode) (index : Nat) :
    List (Nat × Tree) → Option Node
  | [] => none
  | (pos, t) :: rest =>
      match q.dir with
      | .forward =>
          match searchAt q parent index pos t with
          | some found => some found
          | none => searchAmong q parent (index + 1) rest
      | .backward =>
          match searchAmong q parent (index + 1) rest with
          | some found => some found
          | none => searchAt q parent index pos t

end

/-- Searches the children of a branch: from place `k` on, or before it when going backward. -/
def searchHere (q : Query) (n : BranchNode) (k : Nat) : Option Node :=
  match q.dir with
  | .forward => searchAmong q n k (n.tree.children.drop k)
  | .backward => searchAmong q n 0 (n.tree.children.take k)

/-- Searches from place `k`, and beside the branch in its parent when it is anonymous and has no
more children that fit. -/
def searchFrom (q : Query) (tree : Tree) (start : Nat) (k : Nat) : List Up → Option Node
  | [] => searchHere q ⟨tree, start, []⟩ k
  | u :: rest =>
      match searchHere q ⟨tree, start, u :: rest⟩ k with
      | some found => some found
      | none =>
          if q.mode.includeAnonymous || !tree.isAnonymous then none
          else searchFrom q u.tree u.start (q.dir.beside u.index) rest

/-- Searches the children of a branch from place `k` on, or before it when going backward. -/
def search (q : Query) (n : BranchNode) (k : Nat) : Option Node :=
  searchFrom q n.tree n.start k n.above

/-- Searches all children of a branch. -/
def child (q : Query) (n : BranchNode) : Option Node :=
  match q.dir with
  | .forward => n.search q 0
  | .backward => n.search q n.tree.children.length

/-- The next branch or packed node beside this branch. -/
def sibling (n : BranchNode) (dir : Direction) (mode : Mode) : Option Node :=
  match n.above with
  | [] => none
  | u :: rest => search { dir, mode } ⟨u.tree, u.start, rest⟩ (dir.beside u.index)

end BranchNode

namespace PackedNode

/-- One of the four slots of the node. -/
def slot (n : PackedNode) (i : Nat) : Nat := n.buffer.slot (n.index + i)

/-- The type; an id that the set does not have shows as its first type. -/
def type (n : PackedNode) : NodeType :=
  ((n.buffer.set.get? (n.slot 0)).or (n.buffer.set.get? 0)).getD .none

/-- The node at another index of the same buffer. -/
def moveTo (n : PackedNode) (outer : List Nat) (index : Nat) : Node :=
  .packed { n with outer, index }

/-- The node around this one: inside the buffer if there is one, else the branch that holds the
buffer, or the nearest branch from it upwards that is not anonymous. -/
def outerNode (n : PackedNode) (includeAnonymous : Bool) : Node :=
  match n.outer with
  | i :: rest => n.moveTo rest i
  | [] => .branch (if includeAnonymous then n.parent else n.parent.significant)

/-- Searches the children of the node. -/
def child (q : Query) (n : PackedNode) : Option Node :=
  if q.mode.excludeBuffers then none
  else
    (n.buffer.find q.dir q.side (q.pos - n.start) (n.index + 4) (n.slot 3)).map fun i =>
      n.moveTo (n.index :: n.outer) i

/-- The next node beside the whole buffer, for a node that no other one encloses in it. -/
def beside (n : PackedNode) (dir : Direction) (mode : Mode) : Option Node :=
  if n.outer.isEmpty then n.parent.search { dir, mode } (dir.beside n.place) else none

/-- The index of the first sibling in the buffer. -/
def firstIndex (n : PackedNode) : Nat := (n.outer.head?.map (· + 4)).getD 0

/-- The index after the last sibling in the buffer. -/
def lastIndex (n : PackedNode) : Nat :=
  (n.outer.head?.map fun i => n.buffer.slot (i + 3)).getD n.buffer.size

/-- The next node beside this one. -/
def sibling (n : PackedNode) (dir : Direction) (mode : Mode) : Option Node :=
  match dir with
  | .forward =>
      if n.slot 3 < n.lastIndex then some (n.moveTo n.outer (n.slot 3)) else n.beside dir mode
  | .backward =>
      if n.index = n.firstIndex then n.beside dir mode
      else (n.buffer.find .backward .any 0 n.firstIndex n.index).map (n.moveTo n.outer)

end PackedNode

namespace Node

/-! ### Parts of a node -/

/-- The type. -/
def type : Node → NodeType
  | branch n => n.tree.type
  | packed n => n.type

/-- The name of the type, empty for anonymous nodes. -/
def name (n : Node) : String := n.type.name

/-- The position of the first byte. -/
def start : Node → Nat
  | branch n => n.start
  | packed n => n.start + n.slot 1

/-- The position after the last byte. -/
def stop : Node → Nat
  | branch n => n.stop
  | packed n => n.start + n.slot 2

/-- The stored tree of a node that is not packed. -/
def tree? : Node → Option Tree
  | branch n => some n.tree
  | packed _ => none

/-- The outermost tree. -/
def rootTree : Node → Tree
  | branch n => n.rootTree
  | packed n => n.parent.rootTree

/-- The number of steps up to the root. -/
def depth : Node → Nat
  | branch n => n.above.length
  | packed n => n.outer.length + 1 + n.parent.above.length

/-- The range in 32 bits. -/
def textRange (n : Node) : Nat × Nat := IncrementalLR.textRange n.start n.stop

/-- Name and range. -/
def describe (n : Node) : String := n.name ++ s!"@{n.start}..{n.stop}"

/-- The text of the node in its document; none if its ends are not ends of characters. -/
def text (n : Node) (source : Array UInt8) : String :=
  if n.start ≤ n.stop && Text.isBoundary source n.start && Text.isBoundary source n.stop then
    Text.ofSlice source n.start n.stop
  else ""

/-- Whether two views show the same stored node at the same place. -/
def same : Node → Node → Bool
  | branch a, branch b => a.tree.same b.tree && a.start = b.start
  | packed a, packed b =>
      a.buffer.stamp.isSome && a.buffer.stamp = b.buffer.stamp && a.start = b.start
        && a.index = b.index
  | _, _ => false

/-! ### Steps from node to node -/

/-- The node directly above; anonymous branches are left out unless asked for. -/
def parentIn (includeAnonymous : Bool) : Node → Option Node
  | branch n =>
      n.parent?.map fun p => .branch (if includeAnonymous then p else p.significant)
  | packed n => some (n.outerNode includeAnonymous)

/-- The nearest node above that is not anonymous. -/
def parent? (n : Node) : Option Node := n.parentIn false

/-- Searches the children. -/
def child (q : Query) : Node → Option Node
  | branch n => n.child q
  | packed n => n.child q

/-- The next node beside this one. -/
def sibling (dir : Direction) (mode : Mode) : Node → Option Node
  | branch n => n.sibling dir mode
  | packed n => n.sibling dir mode

/-- The first child. -/
def firstChild (n : Node) : Option Node := n.child { dir := .forward }

/-- The last child. -/
def lastChild (n : Node) : Option Node := n.child { dir := .backward }

/-- The first child that ends after a position. -/
def childAfter (n : Node) (pos : Nat) : Option Node :=
  n.child { dir := .forward, side := .after, pos := signedPos pos }

/-- The last child that starts before a position. -/
def childBefore (n : Node) (pos : Nat) : Option Node :=
  n.child { dir := .backward, side := .before, pos := signedPos pos }

/-- The first child on a side of a position. -/
def enter (n : Node) (pos : Nat) (side : Side) (mode : Mode) : Option Node :=
  n.child { dir := .forward, side, pos := signedPos pos, mode }

/-- The next sibling. -/
def nextSibling (n : Node) : Option Node := n.sibling .forward {}

/-- The sibling before. -/
def prevSibling (n : Node) : Option Node := n.sibling .backward {}

/-! ### All children -/

/-- A node and the siblings after it. -/
def runF : Nat → Option Node → List Node
  | 0, _ => []
  | _, none => []
  | fuel + 1, some n => n :: runF fuel n.nextSibling

/-- The children in order, anonymous ones looked through. -/
def visibleChildren (n : Node) : List Node := runF n.rootTree.weight n.firstChild

/-- The children with the given type name or group. -/
def childrenNamed (n : Node) (s : String) : List Node :=
  n.visibleChildren.filter fun c => c.type.isNamed s

end Node

end IncrementalLR
