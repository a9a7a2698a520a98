/-
**What can go wrong, and how it is told.**

Malformed document text is no error: it gives a tree with error nodes.  The errors below are
misuse of the interface, malformed tables, and the refusal of a strict parser.

Main definitions:

* `EncodingFault` — why a table text cannot be read;
* `ParseError`, `ParseError.message`, `ParseError.isSyntax` — the errors, their wording, and whether
  an error speaks of the document;
* `Failure` — why a step of a parse fails.

Main results:

* `bind_ok` — what is known where two steps one after the other succeed.
-/

import IncrementalLR.Text.Quoted

set_option relaxedAutoImplicit false
set_option autoImplicit false

namespace IncrementalLR

/-- Why a table text cannot be read. -/
inductive EncodingFault where
  /-- The text ends inside a value. -/
  | unterminated (pos : Nat)
  /-- A byte that is no digit. -/
  | invalidCharacter (code pos : Nat)
  /-- A value needs more than 32 bits. -/
  | outOfRange
  /-- The count in front differs from the number of values. -/
  | wrongCount (expected found : Nat)
  /-- A value needs more than 16 bits where only 16 are allowed. -/
  | tooWide (value : Nat)
deriving Repr, DecidableEq

/-- The wording of a fault. -/
def EncodingFault.message : EncodingFault → String
  | .unterminated pos => s!"unterminated value at {pos}"
  | .invalidCharacter code pos => s!"invalid character {code} at {pos}"
  | .outOfRange => "value out of range"
  | .wrongCount expected found => s!"expected {expected} values, found {found}"
  | .tooWide value => s!"value {value} exceeds 16 bits"

/-- The errors of building trees, reading tables and parsing. -/
inductive ParseError where
  /-- No stack has an action at a position. -/
  | noParse (pos : Nat)
  /-- The tables have another format version. -/
  | version (found expected : Nat)
  /-- A token ends before it starts, or its end lies outside the ranges. -/
  | tokenOutOfBounds (start : Nat) (stop : Option Nat)
  /-- The stop position can only move backwards. -/
  | stopAtForward (current requested : Nat)
  /-- A top rule that the grammar does not have. -/
  | unknownTopRule (name : String)
  /-- A record that no tree can be built from. -/
  | invalidRecord (size : Int)
  /-- A property value that cannot be read. -/
  | invalidProp (prop value : String)
  /-- A table text that cannot be read. -/
  | encoding (fault : EncodingFault)
  /-- A node type whose id is not its place in the set. -/
  | nodeSetMismatch (index id : Nat)
  /-- Ranges that are empty backwards, unsorted or overlapping. -/
  | invalidRanges
deriving Repr, DecidableEq

namespace ParseError

/-- The end of a token as it is told. -/
def showEnd : Option Nat → String
  | none => "None"
  | some stop => s!"Some({stop})"

/-- The wording of an error. -/
def message : ParseError → String
  | noParse pos => s!"No parse at {pos}"
  | version found expected =>
      s!"Parser version ({found}) doesn't match runtime version ({expected})"
  | tokenOutOfBounds start stop =>
      s!"Token end out of bounds: token starts at {start}, end resolved to " ++ showEnd stop
  | stopAtForward current requested =>
      s!"Can't move stoppedAt forward (from {current} to {requested})"
  | unknownTopRule name => s!"Invalid top rule name {name}"
  | invalidRecord size => s!"Unrecognized record size: {size}"
  | invalidProp prop value => s!"Invalid value for {prop} prop: " ++ Text.quote value
  | encoding fault => "Invalid table encoding: " ++ fault.message
  | nodeSetMismatch index id =>
      s!"Node type ids should correspond to array positions (type {id} at index {index})"
  | invalidRanges => "Parse ranges must be non-empty, sorted, and non-overlapping"

/-- Whether the error speaks of the document rather than of misuse. -/
def isSyntax : ParseError → Bool
  | noParse _ => true
  | _ => false

theorem isSyntax_iff (e : ParseError) : e.isSyntax = true ↔ ∃ pos, e = noParse pos := by
  cases e <;> simp [isSyntax]

end ParseError

/-- Why a step of a parse fails. -/
inductive Failure where
  | error (e : ParseError)
  /-- A loop without a bound of its own was gone through too often. -/
  | limit
deriving Repr, DecidableEq

/-- Where two steps one after the other succeed, both do. -/
theorem bind_ok {α β : Type} {x : Except ParseError α} {f : α → Except ParseError β} {y : β}
    (h : x >>= f = .ok y) : ∃ a, x = .ok a ∧ f a = .ok y := by
  cases x with
  | error e => cases h
  | ok a => exact ⟨a, rfl, h⟩

/-- An error of one of two steps in a row. -/
theorem bind_error {α β : Type} {x : Except ParseError α} {f : α → Except ParseError β}
    {e : ParseError} (h : x >>= f = .error e) :
    x = .error e ∨ ∃ a, x = .ok a ∧ f a = .error e := by
  cases x with
  | error e' =>
      cases h
      exact Or.inl rfl
  | ok a => exact Or.inr ⟨a, rfl, h⟩

/-- A result that passes a check. -/
theorem exists_ok_of_any {α ε : Type} {result : Except ε α} {check : α → Bool}
    (h : result.toOption.any check = true) : ∃ a, result = .ok a ∧ check a = true := by
  cases result with
  | error e => cases h
  | ok a => exact ⟨a, rfl, h⟩

end IncrementalLR
