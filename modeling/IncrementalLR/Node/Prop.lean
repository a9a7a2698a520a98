/-
**Properties of nodes and node types.**

The set of properties is closed.  Delimiters and groups are properties of a node *type* and hold
lists of names; the context hash and the look-ahead belong to single nodes and hold numbers.

Main definitions:

* `PropKey`, `PropKey.name`, `PropKey.ofName?`, `PropKey.perNode` — the properties, their written
  names, and where they live;
* `PropValue` — lists of names and numbers;
* `PropKey.read` — the value that a text stands for.

Main results:

* `PropKey.ofName?_name` — a property is found by its written name.
-/

import IncrementalLR.Error
import IncrementalLR.Span
import IncrementalLR.Text.Words

set_option relaxedAutoImplicit false
set_option autoImplicit false

namespace IncrementalLR

/-! ### Keys and values -/

/-- The properties of nodes and node types. -/
inductive PropKey where
  /-- Names of the types that close this opening delimiter. -/
  | closedBy
  /-- Names of the types that open this closing delimiter. -/
  | openedBy
  /-- Names of the groups that a type belongs to. -/
  | group
  /-- Hash of the context that a node was parsed in. -/
  | contextHash
  /-- How far past its end the tokenizers looked for a node. -/
  | lookAhead
deriving Repr, DecidableEq

/-- The value of a property. -/
inductive PropValue where
  | names (list : List String)
  | number (n : Nat)
deriving Repr, DecidableEq

namespace PropValue

/-- The names, if the value is a list of names. -/
def names? : PropValue → Option (List String)
  | names list => some list
  | number _ => none

/-- The number, if the value is one. -/
def number? : PropValue → Option Nat
  | names _ => none
  | number n => some n

end PropValue

namespace PropKey

/-- All properties in the order in which they are listed. -/
def all : List PropKey := [closedBy, openedBy, group, contextHash, lookAhead]

/-- Whether the property belongs to single nodes rather than to their type. -/
def perNode : PropKey → Bool
  | contextHash | lookAhead => true
  | _ => false

/-- The written name. -/
def name : PropKey → String
  | closedBy => "closedBy"
  | openedBy => "openedBy"
  | group => "group"
  | contextHash => "contextHash"
  | lookAhead => "lookAhead"

/-- The property with a written name. -/
def ofName? (s : String) : Option PropKey := all.find? fun k => k.name = s

theorem ofName?_name (k : PropKey) : ofName? k.name = some k := by
  cases k <;> decide

/-! ### Reading values -/

/-- The value that a text stands for: names between spaces for the properties of types, a decimal
number of at most 32 bits, blanks around it allowed, for those of nodes. -/
def read (k : PropKey) (s : String) : Except ParseError PropValue :=
  if k.perNode then
    match Text.decimal? (Text.trim s.toList) with
    | some n => if n ≤ maxWord then .ok (.number n) else .error (.invalidProp k.name s)
    | none => .error (.invalidProp k.name s)
  else .ok (.names (Text.words s))

end PropKey

end IncrementalLR
