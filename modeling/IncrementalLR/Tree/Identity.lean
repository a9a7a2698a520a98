/-
**Which stored nodes two trees share.**

Nodes are stamped once, when the call that made them stores its result; a node that already has a
stamp was stored before and keeps it, with everything below it.  So equal stamps mean the same
stored node, and the nodes that a tree took over from another one can be told from nodes that were
only built to look the same.

Main definitions:

* `Tree.stampAll` — stamps the nodes of a new tree;
* `Tree.same` — whether two trees are the same stored node;
* `Tree.sharedWith` — the outermost nodes that a tree took over from another tree.

Main results:

* `Tree.same_stampAll` — a stamped tree is the same node as itself.
-/

import IncrementalLR.Tree.Basic

set_option relaxedAutoImplicit false
set_option autoImplicit false

namespace IncrementalLR

namespace Tree

/-! ### Stamping -/

mutual

/-- Stamps the nodes that have no stamp yet in pre-order, counting from `n`; gives the next number
as well. -/
def number (epoch : Nat) : Tree → Nat → Tree × Nat
  | branch (some s) ty cs len ps, n => (branch (some s) ty cs len ps, n)
  | branch none ty cs len ps, n =>
      let r := numberAll epoch cs (n + 1)
      (branch (some ⟨epoch, n⟩) ty r.1 len ps, r.2)
  | packed b, n =>
      match b.stamp with
      | some _ => (packed b, n)
      | none => (packed { b with stamp := some ⟨epoch, n⟩ }, n + 1)

/-- Stamps the nodes of children. -/
def numberAll (epoch : Nat) : List (Nat × Tree) → Nat → List (Nat × Tree) × Nat
  | [], n => ([], n)
  | (p, t) :: rest, n =>
      let r := number epoch t n
      let s := numberAll epoch rest r.2
      ((p, r.1) :: s.1, s.2)

end

/-- The tree with all nodes stamped. -/
def stampAll (epoch : Nat) (t : Tree) : Tree := (t.number epoch 0).1

/-- Whether two trees are the same stored node. -/
def same (a b : Tree) : Bool := a.stamp.isSome && a.stamp = b.stamp

theorem stamp_number_isSome (epoch n : Nat) (t : Tree) : (t.number epoch n).1.stamp.isSome := by
  cases t with
  | branch s ty cs len ps => cases s <;> simp [number, stamp]
  | packed b =>
      cases h : b.stamp <;> simp [number, h, stamp]

/-- A stamped tree is the same stored node as itself. -/
theorem same_stampAll (epoch : Nat) (t : Tree) :
    same (t.stampAll epoch) (t.stampAll epoch) = true := by
  simp [same, stampAll, stamp_number_isSome]

/-! ### Shared nodes -/

mutual

/-- The stamps of all branches. -/
def stamps : Tree → List Stamp
  | branch s _ cs _ _ => s.toList ++ stampsAll cs
  | packed _ => []

/-- The stamps of all branches below. -/
def stampsAll : List (Nat × Tree) → List Stamp
  | [] => []
  | (_, t) :: rest => t.stamps ++ stampsAll rest

end

mutual

/-- The outermost branches with one of the given stamps, with their start; the tree itself starts
at `start`. -/
def outermost (known : List Stamp) : Tree → Nat → List (Tree × Nat)
  | branch s ty cs len ps, start =>
      if s.any known.contains then [(branch s ty cs len ps, start)]
      else outermostAll known cs start
  | packed _, _ => []

/-- The outermost branches with one of the given stamps among the children of a node at `start`. -/
def outermostAll (known : List Stamp) : List (Nat × Tree) → Nat → List (Tree × Nat)
  | [], _ => []
  | (p, t) :: rest, start => outermost known t (start + p) ++ outermostAll known rest start

end

/-- The outermost nodes below the root that are the same stored nodes as nodes of `old`, with
their start. -/
def sharedWith (t old : Tree) : List (Tree × Nat) := outermostAll old.stamps t.children 0

end Tree

end IncrementalLR
