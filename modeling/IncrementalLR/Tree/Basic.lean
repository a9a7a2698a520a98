/-
**Stored syntax trees.**

A stored tree is immutable and knows nothing of its parent: a branch has a type, a length and
children at positions relative to its own start.  Small subtrees are packed into a buffer, a flat
sequence of 16-bit slots with four slots for each node: the id of its type, its start and its end
relative to the buffer, and the index after its last descendant.  The nodes stand in pre-order, so
the children of a node follow it directly and the last slot skips over a whole subtree.

A node that was stored once keeps its `Stamp`: when a later parse takes it over unchanged, the
stamps tell that it is the same stored node and not an equal one.

Main definitions:

* `Stamp`, `Buffer`, `Tree` — the stored structure;
* `Tree.make`, `Buffer.make` — new nodes, with lengths of at most 32 bits;
* `Tree.type`, `Tree.children`, `Tree.length`, `Tree.prop?` — its parts;
* `Buffer.slot`, `Buffer.typeAt?` — the slots of a buffer;
* `Tree.weight` — the number of nodes and slots, which bounds every walk through a tree.
-/

import IncrementalLR.Node.Type

set_option relaxedAutoImplicit false
set_option autoImplicit false

namespace IncrementalLR

/-! ### Buffers -/

/-- Which stored node a node is: the number of the call that stored it and its place among the
nodes that this call stored. -/
structure Stamp where
  epoch : Nat
  serial : Nat
deriving Repr, DecidableEq

/-- A flat encoding of small subtrees, four slots for each node. -/
structure Buffer where
  stamp : Option Stamp := none
  slots : Array Nat
  length : Nat
  set : NodeSet
deriving DecidableEq

namespace Buffer

/-- A new buffer; its length stops at the largest number of 32 bits. -/
def make (slots : Array Nat) (length : Nat) (set : NodeSet) : Buffer :=
  { slots, length := min length maxWord, set }

/-- The slot at an index, 0 past the end. -/
def slot (b : Buffer) (i : Nat) : Nat := b.slots.getD i 0

/-- The number of slots. -/
def size (b : Buffer) : Nat := b.slots.size

/-- The type of the node whose first slot is at an index. -/
def typeAt? (b : Buffer) (i : Nat) : Option NodeType := b.slots[i]?.bind b.set.get?

end Buffer

/-! ### Trees -/

/-- A stored syntax tree: a branch with children at relative positions, or packed nodes. -/
inductive Tree where
  | branch (stamp : Option Stamp) (type : NodeType) (children : List (Nat × Tree)) (length : Nat)
      (props : List (PropKey × PropValue))
  | packed (buffer : Buffer)

namespace Tree

/-- A new branch.  Its length stops at the largest number of 32 bits, and only the properties that
belong to single nodes are kept. -/
def make (type : NodeType) (children : List (Nat × Tree)) (length : Nat)
    (props : List (PropKey × PropValue)) : Tree :=
  branch none type children (min length maxWord) (props.filter (·.1.perNode))

/-- The tree of an empty document. -/
def empty : Tree := make .none [] 0 []

instance : Inhabited Tree := ⟨empty⟩

/-- The type of the root; packed nodes have the type of grouping nodes. -/
def type : Tree → NodeType
  | branch _ t _ _ _ => t
  | packed _ => .none

/-- The children with their positions relative to the root. -/
def children : Tree → List (Nat × Tree)
  | branch _ _ cs _ _ => cs
  | packed _ => []

/-- The length in bytes. -/
def length : Tree → Nat
  | branch _ _ _ n _ => n
  | packed b => b.length

/-- The properties of the root node itself. -/
def props : Tree → List (PropKey × PropValue)
  | branch _ _ _ _ ps => ps
  | packed _ => []

/-- Which stored node the root is. -/
def stamp : Tree → Option Stamp
  | branch s _ _ _ _ => s
  | packed b => b.stamp

/-- Whether the tree is a branch and not packed nodes. -/
def isBranch : Tree → Bool
  | branch .. => true
  | packed _ => false

/-- Whether the root is anonymous, so that navigation looks through it. -/
def isAnonymous (t : Tree) : Bool := t.type.isAnonymous

/-- The value of a property, looked up on the node or on its type. -/
def prop? (t : Tree) (k : PropKey) : Option PropValue :=
  if k.perNode then Keyed.find? k t.props else t.type.prop? k

/-- The number that is the value of a property. -/
def numberProp? (t : Tree) (k : PropKey) : Option Nat := (t.prop? k).bind PropValue.number?

/-- The range in 32 bits that the tree covers when it starts at `offset`. -/
def textRange (t : Tree) (offset : Nat) : Nat × Nat :=
  IncrementalLR.textRange offset (offset + t.length)

mutual

/-- The number of branches and slots. -/
def weight : Tree → Nat
  | branch _ _ cs _ _ => 1 + weightAll cs
  | packed b => 1 + b.size

/-- The number of branches and slots of children. -/
def weightAll : List (Nat × Tree) → Nat
  | [] => 0
  | (_, t) :: rest => t.weight + weightAll rest

end

mutual

/-- Whether two trees are equal, with their stamps. -/
def decEq : (t u : Tree) → Decidable (t = u)
  | branch stamp type cs length props, branch stamp' type' cs' length' props' =>
      haveI := decEqAll cs cs'
      decidable_of_iff
        (stamp = stamp' ∧ type = type' ∧ cs = cs' ∧ length = length' ∧ props = props') (by simp)
  | packed b, packed b' => decidable_of_iff (b = b') (by simp)
  | branch .., packed _ => isFalse (by simp)
  | packed _, branch .. => isFalse (by simp)

/-- Whether children are equal. -/
def decEqAll : (cs ds : List (Nat × Tree)) → Decidable (cs = ds)
  | [], [] => isTrue rfl
  | (pos, t) :: cs, (pos', t') :: ds =>
      haveI := decEq t t'
      haveI := decEqAll cs ds
      decidable_of_iff (pos = pos' ∧ t = t' ∧ cs = ds) (by simp [and_assoc])
  | [], _ :: _ => isFalse (by simp)
  | _ :: _, [] => isFalse (by simp)

end

instance : DecidableEq Tree := decEq

@[simp] theorem type_make (ty : NodeType) (cs : List (Nat × Tree)) (n : Nat)
    (ps : List (PropKey × PropValue)) : (make ty cs n ps).type = ty := rfl

@[simp] theorem children_make (ty : NodeType) (cs : List (Nat × Tree)) (n : Nat)
    (ps : List (PropKey × PropValue)) : (make ty cs n ps).children = cs := rfl

@[simp] theorem length_make (ty : NodeType) (cs : List (Nat × Tree)) (n : Nat)
    (ps : List (PropKey × PropValue)) : (make ty cs n ps).length = min n maxWord := rfl

theorem weight_pos (t : Tree) : 0 < t.weight := by
  cases t <;> simp only [weight] <;> omega

end Tree

end IncrementalLR
