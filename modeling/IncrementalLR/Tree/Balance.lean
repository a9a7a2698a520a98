/-
**Balancing long lists of children.**

A node with very many children is slow to search.  Balancing groups runs of neighbouring children
into new nodes of the *balance type*, and does so again inside each group, until no node has many
more than eight children.  How many children a group takes is limited by a fraction of the total,
so the depth that is added grows with the logarithm of the number of children.

A child of the balance type itself counts with the number of balance nodes inside it, and one that
is larger than the limit is opened up, so that balancing what was balanced before does not nest.

Main definitions:

* `Tree.groupSize` — how many balance nodes a child counts for;
* `Tree.groupLimit` — the size that a group stays below;
* `Tree.balanceWith` — balancing with given constructors of groups and of the root;
* `Tree.balance` — balancing the children of a tree into anonymous groups.

Main results:

* `Tree.balance_of_le` — up to eight children nothing changes.
-/

import IncrementalLR.Tree.Basic

set_option relaxedAutoImplicit false
set_option autoImplicit false

namespace IncrementalLR

namespace Tree

/-! ### Sizes -/

/-- The number of children that balancing aims at. -/
def branchFactor : Nat := 8

/-- Whether a tree is a branch of the given type. -/
def isOfType (ty : NodeType) (t : Tree) : Bool := t.isBranch && t.type.same ty

mutual

/-- How many nodes of the balance type a child counts for: itself and those inside it, if it is of
an anonymous balance type and holds nothing else. -/
def groupSize (ty : NodeType) : Tree → Nat
  | packed _ => 1
  | branch _ t cs _ _ =>
      if ty.isAnonymous && t.same ty then 1 + (groupSizeAll ty cs).getD 0 else 1

/-- The sum over children, if all of them are branches of the balance type. -/
def groupSizeAll (ty : NodeType) : List (Nat × Tree) → Option Nat
  | [] => some 0
  | (_, t) :: rest =>
      if t.isOfType ty then (groupSizeAll ty rest).map (t.groupSize ty + ·) else none

end

/-- The sum of the sizes of children. -/
def totalSize (ty : NodeType) : List (Nat × Tree) → Nat
  | [] => 0
  | (_, t) :: rest => t.groupSize ty + totalSize ty rest

/-- The size that a group stays below: three sixteenths of the total, rounded up. -/
def groupLimit (total : Nat) : Nat := (3 * total + 15) / 16

/-! ### Groups -/

/-- A run of children that starts a group of size `size`: the children that still fit below the
limit, the size of the group with them, and the children after it. -/
def growGroup (ty : NodeType) (limit : Nat) :
    Nat → List (Nat × Tree) → List (Nat × Tree) × Nat × List (Nat × Tree)
  | size, [] => ([], size, [])
  | size, c :: rest =>
      if limit ≤ size + c.2.groupSize ty then ([], size, c :: rest)
      else
        let r := growGroup ty limit (size + c.2.groupSize ty) rest
        (c :: r.1, r.2.1, r.2.2)

/-- A position in 32 bits. -/
def word (n : Nat) : Nat := n % 4294967296

mutual

/-- Groups children whose positions are relative to `start` less than they should be, and builds
the node above the groups with `top`. -/
def groupF (ty : NodeType) (inner : List (Nat × Tree) → Nat → Tree) :
    Nat → (List (Nat × Tree) → Nat → Tree) → List (Nat × Tree) → Nat → Nat → Tree
  | 0, top, cs, _, length => top cs length
  | fuel + 1, top, cs, start, length =>
      top (divideF ty inner fuel (groupLimit (totalSize ty cs)) cs 0 start) length

/-- Divides children into groups below the limit.  Positions are moved by `offset` and counted
from `start`. -/
def divideF (ty : NodeType) (inner : List (Nat × Tree) → Nat → Tree) :
    Nat → Nat → List (Nat × Tree) → Nat → Nat → List (Nat × Tree)
  | 0, _, cs, _, _ => cs
  | _, _, [], _, _ => []
  | fuel + 1, limit, c :: rest, offset, start =>
      let g := growGroup ty limit (c.2.groupSize ty) rest
      let after := divideF ty inner fuel limit g.2.2 offset start
      match g.1.getLast? with
      | none =>
          -- a child that is too large on its own is opened, unless it is packed
          if limit < g.2.1 && c.2.isBranch then
            divideF ty inner fuel limit c.2.children (c.1 + offset) start ++ after
          else (word (c.1 + offset - start), c.2) :: after
      | some last =>
          let length := last.1 + last.2.length - c.1
          (word (c.1 + offset - start), groupF ty inner fuel inner (c :: g.1) c.1 length) :: after

end

/-- Balances children into a node of the given length: `inner` builds the groups, `top` the node
above them. -/
def balanceWith (ty : NodeType) (top inner : List (Nat × Tree) → Nat → Tree)
    (cs : List (Nat × Tree)) (length : Nat) : Tree :=
  groupF ty inner (3 * weightAll cs + 1) top cs 0 length

/-- Balances the direct children of a tree into anonymous groups. -/
def balance (t : Tree) : Tree :=
  if t.children.length ≤ branchFactor then t
  else
    balanceWith .none (fun cs length => make t.type cs length t.props)
      (fun cs length => make .none cs length []) t.children t.length

theorem balance_of_le {t : Tree} (h : t.children.length ≤ branchFactor) : t.balance = t := by
  simp [balance, h]

end Tree

end IncrementalLR
