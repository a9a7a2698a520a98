/-
**Lossless token trees.**

A token tree keeps all of the text: nodes with children become inner nodes, nodes without children
become tokens, and the text between them becomes tokens of a kind of its own.  Joining the texts
of the tokens gives the document back.

Main definitions:

* `TokenTree`, `TokenTree.text`, `TokenTree.rows` — token trees, their text and their nodes in
  pre-order;
* `gapKind` — the kind of the tokens between nodes;
* `Tree.tokenTree` — the token tree of a syntax tree and its document.
-/

import IncrementalLR.Tree.View

set_option relaxedAutoImplicit false
set_option autoImplicit false

namespace IncrementalLR

/-- A tree that keeps all of the text in its tokens. -/
inductive TokenTree where
  | node (kind : Nat) (children : List TokenTree)
  | token (kind : Nat) (text : String)

namespace TokenTree

mutual

/-- The text of all tokens. -/
def text : TokenTree → String
  | node _ cs => textAll cs
  | token _ s => s

/-- The text of all tokens of several trees. -/
def textAll : List TokenTree → String
  | [] => ""
  | t :: rest => t.text ++ textAll rest

end

mutual

/-- Depth, kind and, for tokens, text in pre-order. -/
def rowsAt (depth : Nat) : TokenTree → List (Nat × Nat × Option String)
  | node kind cs => (depth, kind, none) :: rowsAll (depth + 1) cs
  | token kind s => [(depth, kind, some s)]

/-- Depth, kind and text of several trees. -/
def rowsAll (depth : Nat) : List TokenTree → List (Nat × Nat × Option String)
  | [] => []
  | t :: rest => rowsAt depth t ++ rowsAll depth rest

end

/-- Depth, kind and, for tokens, text in pre-order. -/
def rows (t : TokenTree) : List (Nat × Nat × Option String) := rowsAt 0 t

end TokenTree

/-- The kind of the tokens between nodes. -/
def gapKind : Nat := 65535

/-- The token between two nodes, if there is text between them. -/
def gapToken (source : Array UInt8) (start stop : Nat) : List TokenTree :=
  if start < stop then [.token gapKind (Text.ofSlice source start stop)] else []

namespace Node

/-- The token trees of a node and of the siblings after it.  `pos` is how far the text has been
covered, and `stop` is where the parent ends. -/
def tokensF (source : Array UInt8) : Nat → Nat → Nat → Option Node → List TokenTree
  | 0, _, _, _ => []
  | _, pos, stop, none => gapToken source pos stop
  | fuel + 1, pos, stop, some n =>
      let here :=
        match n.firstChild with
        | some c => .node n.type.id (tokensF source fuel n.start n.stop (some c))
        | none => .token n.type.id (Text.ofSlice source n.start n.stop)
      gapToken source pos n.start ++
        here :: tokensF source fuel (max pos n.stop) stop n.nextSibling

end Node

/-- The token tree of a syntax tree and its document. -/
def Tree.tokenTree (t : Tree) (source : Array UInt8) : TokenTree :=
  .node t.type.id
    (Node.tokensF source (t.weight * t.weight + 1) 0 t.length t.top.firstChild)

end IncrementalLR
