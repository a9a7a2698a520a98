/-
**Laying out an automaton as tables.**

An automaton is given explicitly: parse states with their actions, gotos, token states, dialects
and the precedence of tokens.  Laying it out writes

* for each parse state six slots: flags, the offsets of its action list and of its skip list, its
  tokenizer mask, and the words of its default and of its forced reduction;
* the action lists, equal ones only once, then the term lists of the dialects and the precedence
  list, into one sequence of 16-bit slots;
* the gotos, grouped by term and target, and the token states, one after the other.

Main definitions:

* `ParseState`, `TokenState`, `Automaton` — the automaton;
* `actionSlots`, `Automaton.layOutStates` — action lists and parse states;
* `gotoSlots`, `tokenSlots` — gotos and token states;
* `WrittenTable`, `WrittenTables`, `Automaton.layOut` — the tables.
-/

import IncrementalLR.Data.Keyed
import IncrementalLR.Table.Action
import IncrementalLR.Table.Codec

set_option relaxedAutoImplicit false
set_option autoImplicit false

namespace IncrementalLR

/-! ### Automata -/

/-- A parse state. -/
structure ParseState where
  accepting : Bool := false
  /-- Whether the state belongs to a skip rule. -/
  skipped : Bool := false
  actions : List (Nat × Action) := []
  /-- The action for terms that have none of their own. -/
  other : Option Action := none
  skip : List (Nat × Action) := []
  /-- Bit `i` enables tokenizer `i`. -/
  tokenizerMask : Nat := 0
  defaultReduce : Option Action := none
  /-- The reduction by which error recovery leaves the state. -/
  forcedReduce : Option Action := none

/-- An edge of the token automaton for the bytes from `first` on and below `bound`. -/
structure TokenEdge where
  first : Nat
  bound : Nat
  target : Nat
deriving Repr, DecidableEq

/-- A state of the token automaton. -/
structure TokenState where
  /-- The groups that the state belongs to. -/
  groupMask : Nat := 0
  /-- The terms that are accepted here, with the groups for which they are. -/
  accept : List (Nat × Nat) := []
  edges : List TokenEdge := []
  /-- The target at the end of the input. -/
  eof : Option Nat := none

/-- An automaton with everything that its tables hold. -/
structure Automaton where
  states : List ParseState := []
  /-- Source state, reduced term and target state, in the order in which they were added. -/
  gotos : List (Nat × Nat × Nat) := []
  tokenStates : List TokenState := []
  /-- The terms that a dialect disables unless it is enabled. -/
  dialects : List (String × List Nat) := []
  /-- Tokens in the order of their precedence, highest first. -/
  precedence : List Nat := []

/-! ### Tables -/

/-- A table, written as text or as plain values. -/
inductive WrittenTable where
  | encoded (text : String)
  | raw (values : List Nat)
deriving Repr, DecidableEq

namespace WrittenTable

/-- The values of a table. -/
def values : WrittenTable → Except ParseError (List Nat)
  | encoded text => (Codec.decode text).mapError .encoding
  | raw vs => .ok vs

/-- The values of a table of 16-bit values. -/
def narrowValues (t : WrittenTable) : Except ParseError (List Nat) := do
  let vs ← t.values
  (Codec.narrow vs).mapError .encoding

end WrittenTable

/-- The tables of a parser. -/
structure WrittenTables where
  states : WrittenTable := .raw []
  data : WrittenTable := .raw []
  gotos : WrittenTable := .raw []
  tokens : WrittenTable := .raw []
  /-- The offset of the term list of each dialect. -/
  dialects : Keyed String Nat := {}
  /-- The offset of the precedence list. -/
  precedence : Nat := 0

/-- The slot that ends a list. -/
def listEnd : Nat := 65535

/-- After the end of a list: nothing follows. -/
def markDone : Nat := 0

/-- After the end of a list: it goes on at the offset in the next two slots. -/
def markNext : Nat := 1

/-- After the end of a list: the word in the next two slots is for all other terms. -/
def markOther : Nat := 2

/-! ### Action lists and parse states -/

/-- A word in two slots, low half first. -/
def wordSlots (w : Nat) : List Nat := [w % 65536, w / 65536 % 65536]

/-- An action list: term and word for each action, then what holds for other terms. -/
def actionSlots (actions : List (Nat × Action)) (other : Option Action) : List Nat :=
  (actions.flatMap fun a => a.1 :: wordSlots a.2.code) ++ listEnd ::
    match other with
    | some a => markOther :: wordSlots a.code
    | none => [markDone]

/-- The slots so far, and the lists in them with their offsets. -/
structure SharedLists where
  slots : Array Nat := #[]
  offsets : List (List Nat × Nat) := []

/-- The offset of a list, which is appended if it is not there yet. -/
def SharedLists.add (s : SharedLists) (list : List Nat) : Nat × SharedLists :=
  match s.offsets.lookup list with
  | some offset => (offset, s)
  | none => (s.slots.size, ⟨s.slots ++ list.toArray, (list, s.slots.size) :: s.offsets⟩)

/-- The six slots of a state whose lists have been added. -/
def ParseState.row (s : ParseState) (actions skip : Nat) : List Nat :=
  [(if s.skipped then 1 else 0) + (if s.accepting then 2 else 0), actions, skip, s.tokenizerMask,
    (s.defaultReduce.map Action.code).getD 0, (s.forcedReduce.map Action.code).getD 0]

/-- The slots of states, and the lists with theirs added. -/
def layOutStates : List ParseState → SharedLists → List Nat × SharedLists
  | [], lists => ([], lists)
  | s :: rest, lists =>
      let a := lists.add (actionSlots s.actions s.other)
      let k := a.2.add (actionSlots s.skip none)
      let r := layOutStates rest k.2
      (s.row a.1 k.1 ++ r.1, r.2)

/-! ### Gotos -/

/-- Adds a source to the group of a target; groups stand in the order of their first entry. -/
def addSource (source target : Nat) : List (Nat × List Nat) → List (Nat × List Nat)
  | [] => [(target, [source])]
  | (t, sources) :: rest =>
      if t = target then (t, sources ++ [source]) :: rest
      else (t, sources) :: addSource source target rest

/-- The groups of the gotos for a term. -/
def gotoGroups (gotos : List (Nat × Nat × Nat)) (term : Nat) : List (Nat × List Nat) :=
  (gotos.filter fun g => g.2.1 = term).foldl (fun groups g => addSource g.1 g.2.2 groups) []

/-- The slots of groups: twice the number of sources, and one more for the last group, then the
target and the sources. -/
def groupSlots : List (Nat × List Nat) → List Nat
  | [] => []
  | (target, sources) :: rest =>
      (sources.length * 2 % 65536 + (if rest.isEmpty then 1 else 0)) :: target % 65536
        :: (sources.map (· % 65536) ++ groupSlots rest)

/-- The offsets of sections that stand one after the other from `offset` on; all empty sections
have the same offset. -/
def sectionOffsets (empty : Nat) : Nat → List (List Nat) → List Nat
  | _, [] => []
  | offset, s :: rest =>
      (if s.isEmpty then empty else offset % 65536) :: sectionOffsets empty (offset + s.length) rest

/-- The number of terms, an offset for each term, an empty group, and the groups of the terms. -/
def gotoSlots (gotos : List (Nat × Nat × Nat)) : List Nat :=
  let terms := (gotos.map fun g => g.2.1 + 1).foldl max 0
  let sections := (List.range terms).map fun t => groupSlots (gotoGroups gotos t)
  terms % 65536 ::
    (sectionOffsets ((terms + 1) % 65536) (terms + 3) sections ++
      (1 :: listEnd :: sections.flatten))

/-! ### Token states -/

/-- The number of slots of a token state. -/
def TokenState.size (s : TokenState) : Nat :=
  3 + s.accept.length * 2 + (s.edges.length + s.eof.toList.length) * 3

/-- The offsets of token states that stand one after the other. -/
def tokenOffsets : Nat → List TokenState → List Nat
  | _, [] => []
  | offset, s :: rest => offset % 65536 :: tokenOffsets (offset + s.size) rest

/-- The slots of a token state at an offset; `target` gives the offsets of states. -/
def TokenState.slots (s : TokenState) (offset : Nat) (target : Nat → Nat) : List Nat :=
  let edges := s.edges.mergeSort fun a b => a.first ≤ b.first
  [s.groupMask, (offset + 3 + s.accept.length * 2) % 65536,
      (s.edges.length + s.eof.toList.length) % 65536] ++
    (s.accept.flatMap fun a => [a.1, a.2]) ++
    (edges.flatMap fun e => [e.first, if 65536 ≤ e.bound then 0 else e.bound, target e.target]) ++
    (s.eof.toList.flatMap fun t => [listEnd, 0, target t])

/-- The token states one after the other. -/
def tokenSlots (states : List TokenState) : List Nat :=
  let offsets := tokenOffsets 0 states
  (states.zip offsets).flatMap fun s => s.1.slots s.2 fun id => offsets.getD id 0

/-! ### The whole automaton -/

/-- Appends the term lists of dialects and notes their offsets. -/
def layOutDialects : List (String × List Nat) → Keyed String Nat → Array Nat →
    Keyed String Nat × Array Nat
  | [], offsets, slots => (offsets, slots)
  | (name, terms) :: rest, offsets, slots =>
      layOutDialects rest (offsets.insert name slots.size)
        (slots ++ terms.toArray |>.push listEnd)

/-- The tables of an automaton. -/
def Automaton.layOut (a : Automaton) : WrittenTables :=
  let states := layOutStates a.states {}
  let dialects := layOutDialects a.dialects {} states.2.slots
  { states := .raw states.1,
    data := .raw (dialects.2 ++ a.precedence.toArray |>.push listEnd).toList,
    gotos := .raw (gotoSlots a.gotos),
    tokens := .raw (tokenSlots a.tokenStates),
    dialects := dialects.1,
    precedence := dialects.2.size }

end IncrementalLR
