/-
**Looking actions and gotos up.**

The tables that a parser runs on are three sequences of numbers.  A look-up never fails: states that
do not exist have no actions, slots past the end read as the end of a list.

Main definitions:

* `Tables`, `Tables.row`, `StateRow` — the tables and the slots of a state;
* `Tables.actionList`, `ActionList`, `Entry` — an action list, read as a list;
* `Tables.actionFor`, `Tables.wordFor`, `Tables.allActions`, `Tables.allowsAction`,
  `Tables.shiftTargets` — what a state can do;
* `Tables.goto?` — where a reduction leads;
* `Tables.termList` — a list of terms up to its end.

Main results:

* `Tables.row_of_not_hasState` — a state that does not exist has an empty row.
-/

import IncrementalLR.Table.Layout

set_option relaxedAutoImplicit false
set_option autoImplicit false

namespace IncrementalLR

/-- The tables of a parser: six slots for each state, the lists, and the gotos. -/
structure Tables where
  states : Array Nat
  data : Array Nat
  gotos : Array Nat

/-- The state that a missing goto leads to.  It has no actions. -/
def noState : Nat := 4294967295

/-- The slots of a state. -/
structure StateRow where
  flags : Nat := 0
  /-- The offset of the action list. -/
  actions : Nat := 0
  /-- The offset of the list of skipped tokens. -/
  skip : Nat := 0
  tokenizerMask : Nat := 0
  /-- The word of the reduction that needs no token, 0 if there is none. -/
  defaultReduce : Nat := 0
  /-- The word of the reduction by which recovery leaves the state, 0 if there is none. -/
  forcedReduce : Nat := 0
deriving Repr, DecidableEq

/-- Whether the state is inside a skip rule. -/
def StateRow.isSkipped (r : StateRow) : Bool := r.flags.testBit 0

/-- Whether a parse may end in the state. -/
def StateRow.isAccepting (r : StateRow) : Bool := r.flags.testBit 1

/-- An entry of an action list. -/
structure Entry where
  term : Nat
  word : Nat
  /-- The low half of a word that is no reduction. -/
  target : Option Nat
deriving Repr, DecidableEq

/-- An action list: its entries, and the word for all other terms. -/
structure ActionList where
  entries : List Entry := []
  other : Option Nat := none
  /-- Whether the list comes back to itself, so that whoever goes through all of it never ends. -/
  endless : Bool := false
deriving Repr, DecidableEq

/-- The word for a term: that of its first entry, where an entry for term 0 is for every term, else
the word for other terms. -/
def ActionList.find? (l : ActionList) (term : Nat) : Option Nat :=
  match l.entries.find? fun e => e.term = term || e.term = 0 with
  | some e => some e.word
  | none => l.other

namespace Tables

/-! ### States -/

/-- The number of states. -/
def stateCount (t : Tables) : Nat := t.states.size / 6

/-- Whether a state exists. -/
def hasState (t : Tables) (state : Nat) : Bool := state < t.stateCount

/-- The slots of a state; those of a state that does not exist are all 0. -/
def row (t : Tables) (state : Nat) : StateRow :=
  if t.hasState state then
    let slotAt := fun i => t.states.getD (6 * state + i) 0
    ⟨slotAt 0, slotAt 1, slotAt 2, slotAt 3, slotAt 4, slotAt 5⟩
  else {}

theorem row_of_not_hasState {t : Tables} {state : Nat} (h : t.hasState state = false) :
    t.row state = {} := by
  simp [row, h]

/-! ### Lists -/

/-- The slot at an offset; past the end every list has ended. -/
def cell (t : Tables) (i : Nat) : Nat := t.data.getD i listEnd

/-- The word in two slots; slots past the end are 0. -/
def wordAt (t : Tables) (i : Nat) : Nat := t.data.getD i 0 + 65536 * t.data.getD (i + 1) 0

/-- The entry at an offset. -/
def entryAt (t : Tables) (i : Nat) : Entry where
  term := t.cell i
  word := t.wordAt (i + 1)
  target := if (t.cell (i + 2)).testBit 0 then none else some (t.cell (i + 1))

/-- The action list from an offset on.  At the end of a list it may go on somewhere else; the entry
there is taken as it is. -/
def actionListF (t : Tables) : Nat → Nat → ActionList
  | 0, _ => { endless := true }
  | fuel + 1, i =>
      if t.cell i = listEnd then
        if t.cell (i + 1) = markNext then
          let j := t.wordAt (i + 2)
          let rest := actionListF t fuel (j + 3)
          { rest with entries := t.entryAt j :: rest.entries }
        else if t.cell (i + 1) = markOther then { other := some (t.wordAt (i + 2)) }
        else {}
      else
        let rest := actionListF t fuel (i + 3)
        { rest with entries := t.entryAt i :: rest.entries }

/-- The action list at an offset.  More entries than there are slots come back to one of them. -/
def actionList (t : Tables) (offset : Nat) : ActionList :=
  actionListF t (2 * t.data.size + 4) offset

/-- Whether the lists of a state end. -/
def listsEnd (t : Tables) (state : Nat) : Bool :=
  !t.hasState state ||
    !((t.actionList (t.row state).actions).endless || (t.actionList (t.row state).skip).endless)

/-- The terms from an offset up to the end of their list. -/
def termList (t : Tables) (offset : Nat) : List Nat :=
  (t.data.toList.drop offset).takeWhile (· ≠ listEnd)

/-! ### Actions -/

/-- The word of the action for a term: from the action list, else from the list of skipped tokens,
else 0. -/
def actionFor (t : Tables) (state term : Nat) : Nat :=
  if t.hasState state then
    let row := t.row state
    (((t.actionList row.actions).find? term).or ((t.actionList row.skip).find? term)).getD 0
  else 0

/-- The word that a state goes by when a term is tried: its default reduction, else the action for
the term. -/
def wordFor (t : Tables) (state term : Nat) : Nat :=
  let default := (t.row state).defaultReduce
  if default ≠ 0 then default else t.actionFor state term

/-- The default reduction and the actions of a state. -/
def allActions (t : Tables) (state : Nat) : List Nat :=
  if t.hasState state then
    let row := t.row state
    (if row.defaultReduce ≠ 0 then [row.defaultReduce] else []) ++
      (t.actionList row.actions).entries.map (·.word)
  else []

/-- Whether a word is one of the actions of a state. -/
def allowsAction (t : Tables) (state word : Nat) : Bool := (t.allActions state).contains word

/-- Keeps the first pair for each target. -/
def keepFirst : List (Nat × Nat) → List (Nat × Nat) → List (Nat × Nat)
  | kept, [] => kept
  | kept, p :: rest =>
      if kept.any (·.2 = p.2) then keepFirst kept rest else keepFirst (kept ++ [p]) rest

/-- The terms that a state shifts with the states that they lead to, one for each state. -/
def shiftTargets (t : Tables) (state : Nat) : List (Nat × Nat) :=
  if t.hasState state then
    keepFirst [] <| (t.actionList (t.row state).actions).entries.filterMap fun e =>
      e.target.map fun s => (e.term, s)
  else []

/-- Whether a state begins with the end of its action list and has no default reduction. -/
def isIdle (t : Tables) (state : Nat) : Bool :=
  !t.hasState state ||
    (t.cell (t.row state).actions = listEnd && (t.row state).defaultReduce = 0)

/-! ### Gotos -/

/-- Searches the groups from a position on for a source state.  With `loose` the target of the
last group is taken without a look at its sources. -/
def gotoF (t : Tables) (state : Nat) (loose : Bool) : Nat → Nat → Option Nat
  | 0, _ => none
  | fuel + 1, pos =>
      match t.gotos[pos]?, t.gotos[pos + 1]? with
      | some tag, some target =>
          let isLast := tag % 2 = 1
          let after := pos + 2 + tag / 2
          if isLast && loose then some target
          else if (t.gotos.extract (pos + 2) after).contains state then some target
          else if isLast || t.gotos.size < after then none
          else gotoF t state loose fuel after
      | _, _ => none

/-- The state that a reduction to a term leads to. -/
def goto? (t : Tables) (state term : Nat) (loose : Bool) : Option Nat :=
  match t.gotos[0]? with
  | none => none
  | some terms =>
      if term < terms then (t.gotos[term + 1]?).bind (gotoF t state loose (t.gotos.size + 1))
      else none

end Tables

end IncrementalLR
