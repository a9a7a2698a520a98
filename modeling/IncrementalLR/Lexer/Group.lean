/-
**The token automaton.**

Table-driven tokenizers share one automaton, whose states belong to groups; a tokenizer runs one
group of it.  A state is laid out as its group mask, the end of its list of accepted terms, the
number of its edges, the accepted terms with their groups, and the edges sorted by their bytes.  An
edge whose bound is 0 has no upper bound, and an edge that starts at the end marker is taken at the
end of the input.

At each state of the group the automaton accepts the first listed term that the dialect allows and
that comes before what was accepted so far; then it follows the edge of the next byte.

Main definitions:

* `Group.edgeFor` — the edge of a byte, by binary search;
* `Group.acceptedTerm` — the term that a state accepts;
* `Group.scan` — what the tokenizer of a group does.

Main results:

* `Group.scanF_succ` — what it does in one state.
-/

import IncrementalLR.Lexer.Scan
import IncrementalLR.Stack.Basic

set_option relaxedAutoImplicit false
set_option autoImplicit false

namespace IncrementalLR

/-- A group of the token automaton. -/
structure Group where
  data : Array Nat
  id : Nat

namespace Group

/-- The slot at an index, 0 past the end. -/
def slot (g : Group) (i : Nat) : Nat := g.data.getD i 0

/-- Searches the edges from number `low` on and below number `high` for a byte; gives the target
state. -/
def edgeForF (g : Group) (edges byte : Nat) : Nat → Nat → Nat → Option Nat
  | 0, _, _ => none
  | fuel + 1, low, high =>
      if low < high then
        let mid := (low + high) / 2
        let i := edges + mid * 3
        let bound := if g.slot (i + 1) = 0 then 65536 else g.slot (i + 1)
        if byte < g.slot i then edgeForF g edges byte fuel low mid
        else if bound ≤ byte then edgeForF g edges byte fuel (mid + 1) high
        else some (g.slot (i + 2))
      else none

/-- The target of the edge for a byte among `count` edges that start at index `edges`. -/
def edgeFor (g : Group) (edges count byte : Nat) : Option Nat :=
  edgeForF g edges byte (count + 1) 0 count

/-- The target of the edge for the end of the input, which is the last one. -/
def edgeForEnd (g : Group) (edges count : Nat) : Option Nat :=
  if 0 < count && g.slot (edges + count * 3 - 3) = listEnd then
    some (g.slot (edges + count * 3 - 1))
  else none

/-- The pairs of terms and group masks from index `i` on and before index `stop`. -/
def acceptPairsF (g : Group) (stop : Nat) : Nat → Nat → List (Nat × Nat)
  | 0, _ => []
  | fuel + 1, i =>
      if i < stop then (g.slot i, g.slot (i + 1)) :: acceptPairsF g stop fuel (i + 2) else []

/-- The term that a state accepts after `current`: the first of the group that the dialect allows
and that is the first token, the current one, or overrides it. -/
def acceptedTerm (g : Group) (grammar : Grammar) (state : Nat) (current : Option Nat) :
    Option Nat :=
  let stop := g.slot (state + 1)
  let pairs := acceptPairsF g stop (stop + 1) (state + 3)
  (pairs.find? fun p =>
    p.2.testBit g.id && grammar.dialect.allows p.1 &&
      match current with
      | none => true
      | some prev => prev = p.1 || overrides grammar.precedenceList p.1 prev).map (·.1)

/-- What the automaton does from a state on, after accepting `current`. -/
def scanF (g : Group) (grammar : Grammar) : Nat → Nat → Option Nat → Scan
  | 0, _, _ => .fail .limit
  | fuel + 1, state, current =>
      if (g.slot state).testBit g.id then
        let accepted := g.acceptedTerm grammar state current
        let current := accepted.or current
        let edges := g.slot (state + 1)
        let count := g.slot (state + 2)
        let move : Scan := .next fun byte =>
          match byte with
          | none =>
              match g.edgeForEnd edges count with
              | some target => scanF g grammar fuel target current
              | none => .done
          | some b =>
              match g.edgeFor edges count b.toNat with
              | some target => .advance 1 (scanF g grammar fuel target current)
              | none => .done
        match accepted with
        | some term => .accept term 0 move
        | none => move
      else .done

/-- What the tokenizer of a group does.  Every step reads a byte or follows one of the edges for the
end of the input.  More of them than there are bytes left and slots come back to a state at the end
of the input, and then never end. -/
def scan (g : Group) (grammar : Grammar) : Scan :=
  .place fun _ pos stop => scanF g grammar (stop - pos + g.data.size + 2) 0 none

/-! ### One step -/

/-- Accepting a term, if there is one, before going on. -/
def acceptThen (accepted : Option Nat) (move : Scan) : Scan :=
  match accepted with
  | some term => .accept term 0 move
  | none => move

/-- Follows the edge for the next byte or for the end of the input, after `current` was
accepted. -/
def follow (g : Group) (grammar : Grammar) (fuel state : Nat) (current : Option Nat) : Scan :=
  .next fun byte =>
    match byte with
    | none =>
        match g.edgeForEnd (g.slot (state + 1)) (g.slot (state + 2)) with
        | some target => scanF g grammar fuel target current
        | none => .done
    | some b =>
        match g.edgeFor (g.slot (state + 1)) (g.slot (state + 2)) b.toNat with
        | some target => .advance 1 (scanF g grammar fuel target current)
        | none => .done

/-- A state of the group accepts a term and follows an edge. -/
theorem scanF_succ (g : Group) (grammar : Grammar) (fuel state : Nat) (current : Option Nat) :
    scanF g grammar (fuel + 1) state current =
      if (g.slot state).testBit g.id then
        acceptThen (g.acceptedTerm grammar state current)
          (follow g grammar fuel state ((g.acceptedTerm grammar state current).or current))
      else .done := by
  rw [scanF]
  rfl

end Group

end IncrementalLR
