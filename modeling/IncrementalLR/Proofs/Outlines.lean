/-
**Outlines of trees.**

An outline is a tree of nodes with labels and positions and nothing else: no buffers, no groups of
repetitions, no markers.  It says what a sequence of records describes, where the labels are ids,
and what is seen of a stored tree, where they are types, without saying how either is stored.

Main definitions:

* `Outline` — a node with its label, its span and its children;
* `Outline.postorder`, `Outline.postorderAll` — outlines written as records in postfix order;
* `Outline.count`, `Outline.countAll` — the number of nodes.

Main results:

* `Outline.postorderAll_append`, `Outline.countAll_append` — a sequence of outlines is taken one by
  one.
-/

import IncrementalLR.Tree.Record

set_option relaxedAutoImplicit false
set_option autoImplicit false

namespace IncrementalLR

/-- A node with its label, where its text starts and stops, and its children. -/
inductive Outline (α : Type) where
  | node (label : α) (start stop : Nat) (children : List (Outline α))

namespace Outline

/-! ### Records -/

mutual

/-- The records of a node, oldest first: those of its children, and then its own, whose size counts
all of them. -/
def postorder : Outline Nat → List Record
  | node id start stop children =>
      postorderAll children ++ [⟨id, start, stop, 4 * ((postorderAll children).length + 1)⟩]

/-- The records of several nodes, oldest first. -/
def postorderAll : List (Outline Nat) → List Record
  | [] => []
  | o :: rest => o.postorder ++ postorderAll rest

end

@[simp] theorem postorderAll_nil : postorderAll [] = [] := by
  rw [postorderAll]

@[simp] theorem postorderAll_cons (o : Outline Nat) (rest : List (Outline Nat)) :
    postorderAll (o :: rest) = o.postorder ++ postorderAll rest := by
  rw [postorderAll]

@[simp] theorem postorderAll_append (os rest : List (Outline Nat)) :
    postorderAll (os ++ rest) = postorderAll os ++ postorderAll rest := by
  induction os with
  | nil => simp
  | cons o os ih => simp [ih]

/-! ### Numbers of nodes -/

mutual

/-- The number of nodes. -/
def count {α : Type} : Outline α → Nat
  | node _ _ _ children => countAll children + 1

/-- The number of all nodes. -/
def countAll {α : Type} : List (Outline α) → Nat
  | [] => 0
  | o :: rest => o.count + countAll rest

end

theorem countAll_append {α : Type} (os rest : List (Outline α)) :
    countAll (os ++ rest) = countAll os + countAll rest := by
  induction os with
  | nil => simp [countAll]
  | cons o os ih =>
      simp only [List.cons_append, countAll, ih]
      omega

end Outline

end IncrementalLR
