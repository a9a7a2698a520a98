/-
**Serialized parsers.**

A parser is written down as its tables, the names of its node types, and the tokenizers and rules
that go with them.

Main definitions:

* `WrittenTokenizer`, `WrittenParser` — the written form;
* `WrittenParser.describe`, `Specializer.describe`, `WrittenTokenizer.describe` — short texts.
-/

import IncrementalLR.Lexer.Tokenizer
import IncrementalLR.Table.Layout

set_option relaxedAutoImplicit false
set_option autoImplicit false

namespace IncrementalLR

/-- The version of the table format. -/
def tableVersion : Nat := 14

/-- A tokenizer of a parser: a group of its token automaton, or one of the host. -/
inductive WrittenTokenizer where
  | group (id : Nat)
  | external (tokenizer : Tokenizer)

/-- The written form of a parser. -/
structure WrittenParser where
  version : Nat := tableVersion
  tables : WrittenTables := {}
  /-- The names of the node types between single spaces; empty names are anonymous. -/
  nodeNames : String := ""
  maxTerm : Nat := 0
  /-- The number of anonymous types of repetitions after the named ones. -/
  repeatCount : Nat := 0
  nodeProps : List (PropKey × List (Nat × String)) := []
  propSources : List PropSource := []
  skippedNodes : List Nat := []
  tokenizers : List WrittenTokenizer := []
  /-- Start state and term of each top rule; the first one is the default. -/
  topRules : Keyed String (Nat × Nat) := {}
  tracker : Option Tracker := none
  dynamicPrecedences : Keyed Nat Int := {}
  specializers : List Specializer := []
  termNames : Option (Keyed Nat String) := none

/-! ### Texts -/

/-- A truth value as text. -/
def showBool (b : Bool) : String := if b then "true" else "false"

/-- A pair of numbers as text. -/
def showPair (p : Nat × Nat) : String := s!"({p.1}, {p.2})"

/-- A tokenizer in the list of a parser. -/
def WrittenTokenizer.label : WrittenTokenizer → String
  | group id => s!"Group({id})"
  | external _ => "External"

/-- A tokenizer with its settings. -/
def WrittenTokenizer.describe : WrittenTokenizer → String
  | group id => s!"TokenGroup \x7b id: {id} \x7d {id}"
  | external t =>
      "ExternalTokenizer \x7b contextual: " ++ showBool t.contextual ++ ", fallback: " ++
        showBool t.fallback ++ ", extend: " ++ showBool t.extend ++ ", .. \x7d"

/-- A specializer in the list of a parser. -/
def Specializer.describe (s : Specializer) : String :=
  s!"SpecializerSpec \x7b term: {s.term}, .. \x7d"

/-- The written form in short. -/
def WrittenParser.describe (s : WrittenParser) : String :=
  let tops := s.topRules.entries.map fun t => Text.quote t.1 ++ ": " ++ showPair t.2
  s!"ParserSpec \x7b version: {s.version}, max_term: {s.maxTerm}, top_rules: \x7b" ++
    ", ".intercalate tops ++ "\x7d, tokenizers: [" ++
    ", ".intercalate (s.tokenizers.map (·.label)) ++ "], .. \x7d"

/-- All specializers in short. -/
def WrittenParser.describeSpecializers (s : WrittenParser) : String :=
  "[" ++ ", ".intercalate (s.specializers.map (·.describe)) ++ "]"

end IncrementalLR
