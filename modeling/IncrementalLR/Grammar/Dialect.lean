/-
**Dialects.**

A grammar may have named dialects, each with a list of terms that are produced only when the
dialect is enabled.

Main definitions:

* `Dialect`, `Dialect.ofNames` — the enabled dialects of a grammar and the terms that the others
  disable;
* `Dialect.isEnabled`, `Dialect.allows` — which dialects are on, and which terms may be produced.

Main results:

* `Dialect.allows_iff` — a term is allowed unless a dialect disables it.
-/

import IncrementalLR.Table.Lookup
import IncrementalLR.Text.Words

set_option relaxedAutoImplicit false
set_option autoImplicit false

namespace IncrementalLR

/-- The enabled dialects. -/
structure Dialect where
  /-- The text that the dialects were chosen by. -/
  source : Option String := none
  /-- Which dialects are enabled, in their order. -/
  flags : List Bool := []
  /-- The terms that must not be produced. -/
  disabled : List Nat := []
deriving Repr, DecidableEq, Inhabited

namespace Dialect

/-- Whether the dialect with an index is enabled. -/
def isEnabled (d : Dialect) (i : Nat) : Bool := d.flags.getD i false

/-- Whether tokens of a term may be produced. -/
def allows (d : Dialect) (term : Nat) : Bool := !d.disabled.contains term

/-- The dialects that a text names between spaces.  The terms of the other dialects are disabled,
as far as they are terms of the grammar. -/
def ofNames (tables : Tables) (dialects : Keyed String Nat) (maxTerm : Nat)
    (source : Option String) : Dialect :=
  let chosen := (source.map Text.pieces).getD []
  { source,
    flags := dialects.keys.map chosen.contains,
    disabled :=
      (dialects.entries.filter fun d => !chosen.contains d.1).flatMap fun d =>
        (tables.termList d.2).filter (· ≤ maxTerm) }

theorem allows_iff (d : Dialect) (term : Nat) : d.allows term = true ↔ term ∉ d.disabled := by
  simp [allows]

end Dialect

end IncrementalLR
