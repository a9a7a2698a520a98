/-
**Visiting the nodes of a range.**

Iterating over a tree enters every shown node that touches a range and leaves it after everything
below it.  A node that is refused on entering is neither gone into nor left.  Anonymous nodes are
gone through silently unless they are asked for.

The iteration keeps no record of the nodes that are entered and not left yet.  It moves one cursor,
which stops at anonymous nodes too, and remembers in a single flag whether it has been inside of the
node that the cursor is at: so it has after going up, and at a node that it went into in vain.

Main definitions:

* `Visit` — entering and leaving a node;
* `Iteration` — what is iterated over, and what is gone into;
* `Iteration.onwardF`, `Iteration.round` — leaving nodes until there is one beside, and one round;
* `Tree.iterateRange`, `Tree.iterate` — the visits in order.
-/

import IncrementalLR.Tree.Cursor

set_option relaxedAutoImplicit false
set_option autoImplicit false

namespace IncrementalLR

/-- Entering a node, with the answer whether to go into it, or leaving a node. -/
inductive Visit where
  | enter (n : Node) (into : Bool)
  | leave (n : Node)

/-- What is asked for when the nodes of a range are visited. -/
structure Iteration where
  start : Nat
  stop : Nat
  mode : Mode := {}
  /-- Whether to go into a node.  The answer may depend on the visits made before, the last of which
  stands first. -/
  accept : List Visit → Node → Bool

namespace Iteration

/-- The mode of the cursor, which stops at anonymous nodes. -/
def through (it : Iteration) : Mode := { it.mode with includeAnonymous := true }

/-- Whether a node is visited, and not only gone through. -/
def shows (it : Iteration) (n : Node) : Bool := it.mode.includeAnonymous || !n.type.isAnonymous

/-- Whether a node touches the range. -/
def touches (it : Iteration) (n : Node) : Bool := n.start ≤ it.stop && it.start ≤ n.stop

/-- Enters a node: whether to go into it, and the visits made. -/
def enter (it : Iteration) (n : Node) (past : List Visit) : Bool × List Visit :=
  if it.touches n then
    if it.shows n then
      let into := it.accept past n
      (into, .enter n into :: past)
    else (true, past)
  else (false, past)

/-- Leaves a node that has been gone into. -/
def leave (it : Iteration) (n : Node) (entered : Bool) (past : List Visit) : List Visit :=
  if entered && it.shows n then .leave n :: past else past

/-- Leaves nodes until there is one beside. -/
def onwardF (it : Iteration) :
    Nat → Cursor → Bool → List Visit → Option Cursor × List Visit
  | 0, _, _, past => (none, past)
  | fuel + 1, c, entered, past =>
      let past := it.leave c.node entered past
      match c.sibling .forward with
      | (true, next) => (some next, past)
      | (false, c) =>
          match c.parent with
          | (true, above) => onwardF it fuel above true past
          | (false, _) => (none, past)

/-- One round: from a node that is reached to the next one, with all visits in between. -/
def round (it : Iteration) (c : Cursor) (past : List Visit) : Option Cursor × List Visit :=
  match it.enter c.node past with
  | (true, past) =>
      match c.firstChild with
      | (true, child) => (some child, past)
      | (false, c) => it.onwardF (c.node.depth + 1) c true past
  | (false, past) => it.onwardF (c.node.depth + 1) c false past

/-- All rounds. -/
def runF (it : Iteration) : Nat → Cursor → List Visit → List Visit
  | 0, _, past => past
  | fuel + 1, c, past =>
      match it.round c past with
      | (some next, past) => runF it fuel next past
      | (none, past) => past

end Iteration

namespace Tree

/-- The visits of the nodes that touch a range. -/
def iterateRange (t : Tree) (start stop : Nat) (mode : Mode) (accept : List Visit → Node → Bool) :
    List Visit :=
  let it : Iteration := { start, stop, mode, accept }
  (it.runF (t.weight * t.weight + 1) (t.cursor it.through) []).reverse

/-- The visits of all nodes. -/
def iterate (t : Tree) (accept : List Visit → Node → Bool) : List Visit :=
  t.iterateRange 0 t.length {} accept

end Tree

end IncrementalLR
