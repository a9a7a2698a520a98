/-
**Grammars.**

A grammar is all of a parser that is data: its tables, its node types, the terms and their
precedences, the dialects, and the settings of a parse.  What calls host code, the tokenizers and
the rules that go with them, is added by `Parser`.

Terms up to the largest node are those that get nodes; the term after it stands for the end of the
input, and term 0 for errors.  Node types from `minRepeat` on are those of repetitions.

Main definitions:

* `Grammar` — the data of a parser;
* `Grammar.eofTerm`, `errorTerm` — the terms of the end of input and of errors;
* `Grammar.precedenceOf`, `Grammar.termName`, `Grammar.topType` — look-ups;
* `overrides` — the precedence among tokens.
-/

import IncrementalLR.Grammar.Dialect
import IncrementalLR.Grammar.Tuning
import IncrementalLR.Node.Type

set_option relaxedAutoImplicit false
set_option autoImplicit false

namespace IncrementalLR

/-- The term of errors, which is also the id of the type of error nodes. -/
def errorTerm : Nat := 0

/-- The data of a parser. -/
structure Grammar where
  tables : Tables
  set : NodeSet
  maxTerm : Nat
  /-- The first term of repetitions. -/
  minRepeat : Nat
  /-- The largest term that gets nodes. -/
  maxNode : Nat
  /-- Start state and term of each top rule. -/
  topRules : Keyed String (Nat × Nat)
  /-- The offset of the term list of each dialect. -/
  dialects : Keyed String Nat
  dynamicPrecedences : Keyed Nat Int
  /-- The offset of the list of tokens by precedence. -/
  precedence : Nat
  termNames : Option (Keyed Nat String)
  dialect : Dialect
  /-- Start state and term of the top rule that is parsed. -/
  top : Nat × Nat
  /-- Whether broken text is refused instead of repaired. -/
  strict : Bool
  /-- The largest text length that is packed into one buffer. -/
  bufferLength : Nat
  tuning : Tuning

namespace Grammar

/-- The term of the end of the input. -/
def eofTerm (g : Grammar) : Nat := g.maxNode + 1

/-- What a reduction to a term adds to the score of a stack. -/
def precedenceOf (g : Grammar) (term : Nat) : Int := (g.dynamicPrecedences.get? term).getD 0

/-- A readable name of a term. -/
def termName (g : Grammar) (term : Nat) : String :=
  match g.termNames.bind (·.get? term) with
  | some name => name
  | none =>
      match g.set.get? term with
      | some t => if term ≤ g.maxNode && !t.name.isEmpty then t.name else toString term
      | none => toString term

/-- The node type of the top rule that is parsed. -/
def topType (g : Grammar) : NodeType := (g.set.get? g.top.2).getD .none

/-- The state that a reduction leads to, also if the tables have no entry for it. -/
def gotoState (g : Grammar) (state term : Nat) : Nat :=
  (g.tables.goto? state term true).getD noState

/-- The tokens by precedence, highest first. -/
def precedenceList (g : Grammar) : List Nat := g.tables.termList g.precedence

end Grammar

/-- Whether a token has precedence over one before it.  Tokens that are not listed come before all
that are. -/
def overrides (order : List Nat) (token prev : Nat) : Bool :=
  match order.idxOf? prev with
  | none => true
  | some i =>
      match order.idxOf? token with
      | none => true
      | some j => j < i

end IncrementalLR
