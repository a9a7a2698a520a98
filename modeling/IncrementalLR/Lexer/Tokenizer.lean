/-
**Tokenizers, specializers and context trackers.**

These are the places where a grammar calls host code.  A tokenizer reads a token, a specializer
turns a token into a more specific one by its text, and a context tracker computes a value that
follows a stack, such as an indentation depth.  All of them see the stack through a `StackView`.

Main definitions:

* `Tokenizer`, `Tokenizer.ofGroup` — tokenizers;
* `Specialization`, `Specializer`, `Specializer.ofKeywords` — specializers;
* `ContextChange`, `Tracker`, `Tracker.contextOf` — context trackers.
-/

import IncrementalLR.Lexer.Group
import IncrementalLR.Tree.Basic

set_option relaxedAutoImplicit false
set_option autoImplicit false

namespace IncrementalLR

/-! ### Tokenizers -/

/-- Something that reads tokens. -/
structure Tokenizer where
  scan : StackView → Scan
  /-- The token depends on the stack, so it is read anew for every stack. -/
  contextual : Bool := false
  /-- Runs only if no tokenizer before it gave a usable token. -/
  fallback : Bool := false
  /-- Tokenizers after it still run when it gave a token. -/
  extend : Bool := false

/-- The tokenizer of a group of the token automaton. -/
def Tokenizer.ofGroup (g : Group) : Tokenizer := { scan := fun v => g.scan v.grammar }

/-! ### Specializers -/

/-- A more specific term for a token. -/
inductive Specialization where
  /-- Takes the place of the token's own term. -/
  | specialize (term : Nat)
  /-- Is added beside the token's own term. -/
  | extend (term : Nat)
deriving Repr, DecidableEq

/-- The more specific term. -/
def Specialization.term : Specialization → Nat
  | specialize term | extend term => term

/-- A rule that gives tokens of a term a more specific one. -/
structure Specializer where
  term : Nat
  /-- The more specific term for a text, if there is one, and the lines that are written. -/
  apply : String → StackView → Option Specialization × List String

/-- A table of texts; the last entry for a text counts. -/
def Specializer.ofKeywords (term : Nat) (entries : List (String × Specialization)) : Specializer :=
  let table := Keyed.ofList entries
  { term, apply := fun text _ => (table.get? text, []) }

/-! ### Context trackers -/

/-- What changes the context of a stack. -/
inductive ContextChange where
  /-- A token was shifted. -/
  | shift (term : Nat)
  /-- Symbols were reduced. -/
  | reduce (term : Nat)
  /-- A node of an older tree was taken over. -/
  | reuse (node : Tree)

/-- Host code that follows a stack with a value. -/
structure Tracker where
  start : Int := 0
  /-- The value after a change, and the lines that are written; the stream stands where the changed
  text starts. -/
  update : ContextChange → Int → StackView → Stream → Int × List String := fun _ v _ _ => (v, [])
  hash : Int → Nat := fun _ => 0
  /-- Whether hashes are recorded on nodes; nodes are then taken over only in an equal context. -/
  strict : Bool := true

/-- A value with its hash, which is 0 unless the tracker is strict. -/
def Tracker.contextOf (t : Tracker) (value : Int) : Context :=
  ⟨value, if t.strict then t.hash value else 0⟩

end IncrementalLR
