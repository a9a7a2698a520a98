/-
**Parsers.**

A parser is a grammar with its tokenizers, specializers and context tracker.  It is made from its
written form, and configuring it gives a variant with another top rule, other dialects, or other
host code.

Main definitions:

* `Parser`, `Parser.ofWritten` — parsers and their making;
* `Config`, `Parser.configure` — variants;
* `Parser.describe` — a short text.
-/

import IncrementalLR.Parser.Written
import IncrementalLR.Tree.Build

set_option relaxedAutoImplicit false
set_option autoImplicit false

namespace IncrementalLR

/-- A grammar with the host code that belongs to it. -/
structure Parser extends Grammar where
  tokenizers : Array Tokenizer
  specializers : List Specializer
  tracker : Option Tracker

namespace WrittenParser

/-! ### Node types -/

/-- The names of the node types, those of repetitions included. -/
def typeNames (s : WrittenParser) : List String :=
  Text.pieces s.nodeNames ++ List.replicate s.repeatCount ""

/-- Reads the properties of node types: property, id and value in the order in which they are
given. -/
def readProps (s : WrittenParser) : Except ParseError (List (PropKey × Nat × PropValue)) := do
  let rows ← s.nodeProps.mapM fun p => p.2.mapM fun a => do
    return (p.1, a.1, ← p.1.read a.2)
  return rows.flatten

/-- The type at a place. -/
def typeAt (s : WrittenParser) (epoch : Nat) (props : List (PropKey × Nat × PropValue)) (i : Nat)
    (name : String) : NodeType where
  epoch := epoch
  id := i % 65536
  name := name
  props := .ofList ((props.filter fun p => p.2.1 = i).map fun p => (p.1, p.2.2))
  isTop := s.topRules.values.any fun t => t.2 = i % 65536
  isError := i % 65536 = errorTerm
  isSkipped := s.skippedNodes.contains (i % 65536)

/-- The node types with the given properties. -/
def nodeSet (s : WrittenParser) (epoch : Nat) (props : List (PropKey × Nat × PropValue)) :
    Except ParseError NodeSet := do
  let set ← NodeSet.ofTypes (s.typeNames.mapIdx (s.typeAt epoch props))
  return set.extend epoch s.propSources

/-- The tokenizers, groups on the given token automaton. -/
def makeTokenizers (s : WrittenParser) (data : Array Nat) : Array Tokenizer :=
  (s.tokenizers.map fun t =>
    match t with
    | .group id => Tokenizer.ofGroup ⟨data, id⟩
    | .external t => t).toArray

end WrittenParser

namespace Parser

/-! ### Making parsers -/

/-- The parser of a written form.  Version, properties, the token table, the top rules and the
other tables are checked in this order. -/
def ofWritten (epoch : Nat) (s : WrittenParser) : Except ParseError Parser := do
  if s.version ≠ tableVersion then throw (.version s.version tableVersion)
  let set ← s.nodeSet epoch (← s.readProps)
  let tokens ← s.tables.tokens.narrowValues
  let some top := s.topRules.values.head? | throw (.unknownTopRule "")
  let states ← s.tables.states.values
  let data ← s.tables.data.narrowValues
  let gotos ← s.tables.gotos.narrowValues
  let tables : Tables := ⟨states.toArray, data.toArray, gotos.toArray⟩
  return {
    tables, set, top,
    maxTerm := s.maxTerm,
    minRepeat := (Text.pieces s.nodeNames).length % 65536,
    maxNode := (set.size - 1) % 65536,
    topRules := s.topRules,
    dialects := s.tables.dialects,
    dynamicPrecedences := s.dynamicPrecedences,
    precedence := s.tables.precedence,
    termNames := s.termNames,
    dialect := .ofNames tables s.tables.dialects s.maxTerm none,
    strict := false,
    bufferLength := defaultBufferLength,
    tuning := {},
    tokenizers := s.makeTokenizers tokens.toArray,
    specializers := s.specializers,
    tracker := s.tracker }

/-! ### Variants -/

/-- What a variant of a parser changes; what is not given stays as it is. -/
structure Config where
  props : List PropSource := []
  top : Option String := none
  /-- The names of the dialects to enable, between spaces. -/
  dialect : Option String := none
  /-- Tokenizers that take the place of those at an index. -/
  tokenizers : List (Nat × Tokenizer) := []
  /-- Specializers that take the place of those for the same term. -/
  specializers : List Specializer := []
  tracker : Option Tracker := none
  strict : Option Bool := none
  bufferLength : Option Nat := none
  tuning : Option Tuning := none

/-- Puts a specializer in the place of the first one for the same term, or at the end. -/
def putSpecializer (new : Specializer) : List Specializer → List Specializer
  | [] => [new]
  | s :: rest => if s.term = new.term then new :: rest else s :: putSpecializer new rest

/-- A variant of a parser. -/
def configure (epoch : Nat) (p : Parser) (c : Config) : Except ParseError Parser := do
  let top ←
    match c.top with
    | none => pure p.top
    | some name =>
        match p.topRules.get? name with
        | some top => pure top
        | none => throw (.unknownTopRule name)
  return { p with
    set := p.set.extend epoch c.props,
    top,
    tokenizers := c.tokenizers.foldl (fun ts t => ts.setIfInBounds t.1 t.2) p.tokenizers,
    specializers := c.specializers.foldl (fun l s => putSpecializer s l) p.specializers,
    tracker := c.tracker.or p.tracker,
    dialect :=
      match c.dialect with
      | some names => .ofNames p.tables p.dialects p.maxTerm (some names)
      | none => p.dialect,
    strict := c.strict.getD p.strict,
    bufferLength := c.bufferLength.getD p.bufferLength,
    tuning := c.tuning.getD p.tuning }

/-- The parser in short. -/
def describe (p : Parser) : String :=
  s!"LrParser \x7b states: {p.tables.stateCount}, nodes: {p.set.size}, top: " ++ showPair p.top ++
    ", strict: " ++ showBool p.strict ++ ", .. \x7d"

/-- The specializers for a term. -/
def rulesFor (p : Parser) (term : Nat) : List Specializer :=
  p.specializers.filter fun s => s.term = term

end Parser

end IncrementalLR
