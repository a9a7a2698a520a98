/-
**Trees as text.**

The short form of a tree is the name of its type followed by the short forms of its children in
parentheses; nodes without a name show their children only.  A name that is not made of letters,
digits and underscores is quoted, the name of the error type excepted.

Main definitions:

* `NodeType.label` — the name of a type as it is shown;
* `Buffer.render`, `Tree.render` — the short form;
* `Tree.describe` — name, length and short form.
-/

import IncrementalLR.Tree.Basic

set_option relaxedAutoImplicit false
set_option autoImplicit false

namespace IncrementalLR

/-- The name of a type as it is shown in a short form. -/
def NodeType.label (t : NodeType) : String :=
  if t.isError || t.name.toList.all (fun c => c.isAlphanum || c = '_') then t.name
  else Text.quote t.name

namespace Buffer

/-! ### Packed nodes -/

/-- The label of the node at an index; nothing if the set has no such type. -/
def labelAt (b : Buffer) (i : Nat) : String := ((b.set.get? (b.slot i)).map NodeType.label).getD ""

mutual

/-- The short form of the node at index `i`. -/
def renderNodeF (b : Buffer) : Nat → Nat → String
  | 0, _ => ""
  | fuel + 1, i =>
      if b.slot (i + 3) = i + 4 then b.labelAt i
      else b.labelAt i ++ "(" ++ ",".intercalate (renderRunF b fuel (b.slot (i + 3)) (i + 4)) ++ ")"

/-- The short forms of the siblings from index `i` on, up to index `stop`. -/
def renderRunF (b : Buffer) : Nat → Nat → Nat → List String
  | 0, _, _ => []
  | fuel + 1, stop, i =>
      if i < stop then renderNodeF b fuel i :: renderRunF b fuel stop (b.slot (i + 3)) else []

end

/-- The short form of the nodes of a buffer. -/
def render (b : Buffer) : String :=
  ",".intercalate (renderRunF b (b.size * b.size + 1) b.size 0)

/-- Length and short form. -/
def describe (b : Buffer) : String := s!"TreeBuffer(len={b.length}, " ++ b.render ++ ")"

end Buffer

namespace Tree

/-! ### Trees -/

mutual

/-- The short form of a tree. -/
def render : Tree → String
  | branch _ ty cs _ _ =>
      let inner := ",".intercalate (renderAll cs)
      if ty.isAnonymous then inner
      else if inner.isEmpty then ty.label
      else ty.label ++ "(" ++ inner ++ ")"
  | packed b => b.render

/-- The short forms of children that are not empty. -/
def renderAll : List (Nat × Tree) → List String
  | [] => []
  | (_, t) :: rest =>
      let s := t.render
      if s.isEmpty then renderAll rest else s :: renderAll rest

end

/-- Name, length and short form of a tree; packed nodes have no name. -/
def describe : Tree → String
  | branch s ty cs len ps =>
      "Tree(" ++ ty.name ++ s!", len={len}, " ++ (branch s ty cs len ps).render ++ ")"
  | packed b => b.describe

end Tree

end IncrementalLR
