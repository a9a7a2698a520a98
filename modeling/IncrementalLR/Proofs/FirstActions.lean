/-
**The action that is collected first is the one that is looked up.**

There are two ways to ask a state what it does with a term.  A parser that has a token collects all
actions for it: those of the action list, the action for other terms if there are none yet, and
those of the list of skipped tokens, each word once.  Whoever only tries a term looks for one
action: it takes the first entry for the term, else the action for other terms, and goes on to the
skipped tokens only where the action list has neither.  So the two part at the action for other
terms, behind which one stops and the other goes on; what they find first is nevertheless the same.

Main definitions:

* `Tables.action?` — the action that a look-up finds, if there is one;
* `ParseState.action?` — the action of a state of an automaton for a term.

Main results:

* `ActionList.head?_addTo` — what a list adds in front is what is found in it;
* `Tables.head?_collectActions` — so it is for the two lists of a state;
* `Automaton.first_collected` — **the first action collected is the one looked up**.
-/

import IncrementalLR.Proofs.Answers
import IncrementalLR.Parse.Tokens

set_option relaxedAutoImplicit false
set_option autoImplicit false

namespace IncrementalLR

/-! ### What a list adds first -/

theorem head?_insertAction (x : TokenAction) (found : List TokenAction) :
    (insertAction x found).head? = found.head?.or (some x) := by
  rw [insertAction]
  cases found with
  | nil => rfl
  | cons y rest =>
      split
      · rfl
      · rfl

namespace ActionList

/-- Of the entries for a term only the first can become the first action. -/
theorem head?_foldl_insertAction (entries : List Entry) (term stop : Nat)
    (found : List TokenAction) :
    (entries.foldl (fun found e =>
        if e.term = term then insertAction ⟨e.word, term, stop⟩ found else found) found).head? =
      found.head?.or
        ((entries.find? fun e => e.term = term).map fun e => ⟨e.word, term, stop⟩) := by
  induction entries generalizing found with
  | nil => simp
  | cons e rest ih =>
      rw [List.foldl_cons, ih, List.find?_cons]
      by_cases hterm : e.term = term
      · simp only [hterm, if_true, decide_true, head?_insertAction, Option.or_assoc]
        rfl
      · simp only [hterm, if_false, decide_false]

/-- An entry for term 0 would be found for every term; without one, the entries found are those for
the term. -/
theorem find?_eq {l : ActionList} (hzero : ∀ e ∈ l.entries, e.term ≠ 0) (term : Nat) :
    l.find? term = ((l.entries.find? fun e => e.term = term).map (·.word)).or l.other := by
  have hsame : (l.entries.find? fun e => e.term = term || e.term = 0) =
      l.entries.find? fun e => e.term = term := by
    rw [← List.head?_filter, ← List.head?_filter]
    refine congrArg List.head? (List.filter_congr ?_)
    intro e he
    simp [hzero e he]
  rw [find?, hsame]
  cases l.entries.find? fun e => e.term = term <;> rfl

/-- **What a list adds in front is what is found in it.**  If there was an action before, it stays
in front. -/
theorem head?_addTo {l : ActionList} (hzero : ∀ e ∈ l.entries, e.term ≠ 0) (term stop : Nat)
    (found : List TokenAction) :
    (l.addTo term stop found).head? =
      found.head?.or ((l.find? term).map (⟨·, term, stop⟩)) := by
  have hentries := head?_foldl_insertAction l.entries term stop found
  have hother : (l.addTo term stop found).head? =
      (l.entries.foldl (fun found e => if e.term = term then
        insertAction ⟨e.word, term, stop⟩ found else found) found).head?.or
        (l.other.map (⟨·, term, stop⟩)) := by
    rw [addTo]
    generalize l.entries.foldl _ found = found'
    cases l.other with
    | none => simp
    | some word =>
        -- The action for other terms is only added where there is none to be in front of it.
        cases found' with
        | nil => rfl
        | cons x rest => rfl
  rw [hother, hentries, find?_eq hzero, Option.or_assoc, Option.map_or, Option.map_map]
  rfl

end ActionList

/-! ### What a state does first -/

namespace Tables

/-- The action that is found for a term, first in the action list, then in the list of skipped
tokens. -/
def action? (t : Tables) (state term : Nat) : Option Nat :=
  if t.hasState state then
    ((t.actionList (t.row state).actions).find? term).or
      ((t.actionList (t.row state).skip).find? term)
  else none

/-- A look-up that finds nothing gives 0. -/
theorem actionFor_eq (t : Tables) (state term : Nat) :
    t.actionFor state term = (t.action? state term).getD 0 := by
  rw [actionFor, action?]
  split
  · rfl
  · rfl

/-- The action collected first is the one that is found. -/
theorem head?_collectActions {t : Tables} {state : Nat}
    (hactions : ∀ e ∈ (t.actionList (t.row state).actions).entries, e.term ≠ 0)
    (hskip : ∀ e ∈ (t.actionList (t.row state).skip).entries, e.term ≠ 0) (term stop : Nat) :
    (collectActions t state term stop []).head? =
      (t.action? state term).map (⟨·, term, stop⟩) := by
  rw [collectActions, action?]
  split
  · rw [ActionList.head?_addTo hskip, ActionList.head?_addTo hactions, List.head?_nil,
      Option.none_or, Option.map_or]
  · rfl

end Tables

namespace ParseState

/-- The action of a state for a term: the first one for it, else that for other terms, else that of
the first skipped token. -/
def action? (s : ParseState) (term : Nat) : Option Action :=
  ((s.actions.lookup term).or s.other).or (s.skip.lookup term)

theorem action?_eq_none {s : ParseState} {term : Nat} :
    s.action? term = none ↔
      s.actions.lookup term = none ∧ s.other = none ∧ s.skip.lookup term = none := by
  rw [action?, Option.or_eq_none_iff, Option.or_eq_none_iff, and_assoc]

end ParseState

namespace Tables

/-- The first entry for a term is that of the first action for it. -/
theorem find?_rawEntries (actions : List (Nat × Action)) (term : Nat) :
    ((actions.map rawEntryOf).find? fun e => e.term = term).map (·.word) =
      (actions.lookup term).map fun x => x.code % 4294967296 := by
  induction actions with
  | nil => rfl
  | cons e rest ih =>
      obtain ⟨first, action⟩ := e
      rw [List.map_cons, List.find?_cons, List.lookup_cons]
      by_cases hterm : first = term
      · subst hterm
        simp [rawEntryOf]
      · have hbeq : (term == first) = false := beq_eq_false_iff_ne.2 (Ne.symm hterm)
        simpa [rawEntryOf, hterm, hbeq] using ih

/-- What a list finds that was laid out. -/
theorem find?_raw {actions : List (Nat × Action)} (hterms : ∀ e ∈ actions, e.1 ≠ 0)
    (other : Option Action) (term : Nat) :
    ActionList.find? ⟨actions.map rawEntryOf, other.map fun x => x.code % 4294967296, false⟩
        term =
      ((actions.lookup term).or other).map fun x => x.code % 4294967296 := by
  have hzero : ∀ e ∈ actions.map rawEntryOf, e.term ≠ 0 := by
    intro e he
    obtain ⟨x, hx, rfl⟩ := List.mem_map.1 he
    exact hterms x hx
  rw [ActionList.find?_eq (l := ⟨_, _, _⟩) hzero, find?_rawEntries, Option.map_or]

end Tables

/-- No list of an automaton has an entry for the error term, or for the term that would end it. -/
def Automaton.TermsFit (a : Automaton) : Prop :=
  ∀ s ∈ a.states, ∀ e ∈ s.actions ++ s.skip, e.1 ≠ 0 ∧ e.1 ≠ listEnd

namespace Tables.LaidOut

variable {t : Tables} {a : Automaton}

/-- What stands in the lists of a state, and what is found in them. -/
theorem lists_of_state (ht : t.LaidOut a) (hfit : a.TermsFit) {i : Nat} {s : ParseState}
    (hs : a.states[i]? = some s) :
    (∀ e ∈ (t.actionList (t.row i).actions).entries, e.term ≠ 0) ∧
      (∀ e ∈ (t.actionList (t.row i).skip).entries, e.term ≠ 0) ∧
      ∀ term, t.action? i term = (s.action? term).map fun x => x.code % 4294967296 := by
  have hmem : s ∈ a.states := List.mem_of_getElem? hs
  have hactions : ∀ e ∈ s.actions, e.1 ≠ 0 ∧ e.1 ≠ listEnd := fun e he =>
    hfit s hmem e (List.mem_append_left _ he)
  have hskip : ∀ e ∈ s.skip, e.1 ≠ 0 ∧ e.1 ≠ listEnd := fun e he =>
    hfit s hmem e (List.mem_append_right _ he)
  obtain ⟨actions, skip, hrow, hlist, hskips⟩ := ht.holdsAt hs
  obtain ⟨hstate, hact, hskp, -⟩ := row_of_holdsAt hrow
  have hread := actionList_raw (fun e he => (hactions e he).2) hlist
  have hreadSkip := actionList_raw (fun e he => (hskip e he).2) hskips
  have hzero : ∀ {l : List (Nat × Action)}, (∀ e ∈ l, e.1 ≠ 0 ∧ e.1 ≠ listEnd) →
      ∀ e ∈ l.map rawEntryOf, e.term ≠ 0 := by
    intro l hl e he
    obtain ⟨x, hx, rfl⟩ := List.mem_map.1 he
    exact (hl x hx).1
  rw [hact, hskp, hread, hreadSkip]
  refine ⟨hzero hactions, hzero hskip, ?_⟩
  intro term
  have hfoundSkip := find?_raw (fun e he => (hskip e he).1) none term
  rw [action?, if_pos hstate, hact, hskp, hread, hreadSkip, hfoundSkip,
    find?_raw fun e he => (hactions e he).1, Option.or_none, ← Option.map_or]
  rfl

/-- What is found is the action of the state, if the automaton has the state; and it is the action
collected first. -/
theorem head?_collectActions (ht : t.LaidOut a) (hfit : a.TermsFit) (i term stop : Nat) :
    t.action? i term =
        (a.states[i]?.bind (·.action? term)).map (fun x => x.code % 4294967296) ∧
      (collectActions t i term stop []).head? = (t.action? i term).map (⟨·, term, stop⟩) := by
  cases hs : a.states[i]? with
  | none =>
      have hstate : t.hasState i = false := by
        rw [hasState, ht.stateCount_eq, decide_eq_false_iff_not, Nat.not_lt]
        exact List.getElem?_eq_none_iff.1 hs
      have hnone : t.action? i term = none := by
        rw [action?, hstate]
        rfl
      refine ⟨hnone, ?_⟩
      rw [hnone, collectActions, hstate]
      rfl
  | some s =>
      obtain ⟨hactions, hskip, hfound⟩ := ht.lists_of_state hfit hs
      exact ⟨hfound term, Tables.head?_collectActions hactions hskip term stop⟩

end Tables.LaidOut

/-- **The first action collected is the one looked up.**  On the tables of an automaton without
entries for the error term or the end of a list, any state is asked for the actions for a term: the
first of them is the one that a look-up gives, and there is none exactly if the state has no action
for the term, none for other terms and does not skip the term.  Then the look-up gives 0. -/
theorem Automaton.first_collected {a : Automaton} (hfit : a.TermsFit) {epoch : Nat}
    {w : WrittenParser} {p : Parser} (htables : w.tables = a.layOut)
    (hp : Parser.ofWritten epoch w = .ok p) (i term stop : Nat) :
    (∀ x, (collectActions p.tables i term stop []).head? = some x →
        x = ⟨p.tables.actionFor i term, term, stop⟩) ∧
      (collectActions p.tables i term stop [] = [] ↔ ∀ s, a.states[i]? = some s →
        s.actions.lookup term = none ∧ s.other = none ∧ s.skip.lookup term = none) ∧
      (collectActions p.tables i term stop [] = [] → p.tables.actionFor i term = 0) := by
  obtain ⟨hfound, hhead⟩ :=
    (Parser.laidOut_of_ofWritten htables hp).head?_collectActions hfit i term stop
  have hempty : collectActions p.tables i term stop [] = [] ↔ p.tables.action? i term = none := by
    rw [← List.head?_eq_none_iff, hhead, Option.map_eq_none_iff]
  refine ⟨?_, ?_, ?_⟩
  · intro x hx
    rw [hhead] at hx
    obtain ⟨word, hword, rfl⟩ := Option.map_eq_some_iff.1 hx
    rw [Tables.actionFor_eq, hword]
    rfl
  · rw [hempty, hfound, Option.map_eq_none_iff, Option.bind_eq_none_iff]
    constructor
    · intro h s hs
      exact ParseState.action?_eq_none.1 (h s hs)
    · intro h s hs
      exact ParseState.action?_eq_none.2 (h s hs)
  · intro hnone
    rw [Tables.actionFor_eq, hempty.1 hnone]
    rfl

/-- A state with two actions for a term, a reduction for other terms and a skipped token, and one
that only skips. -/
def Automaton.choosing : Automaton where
  states :=
    [{ actions := [(5, .shift 1), (5, .reduce 3 1)], other := some (.reduce 4 2),
       skip := [(9, .skip)] },
     { skip := [(9, .skip)] }]

/-- A parser for them. -/
def WrittenParser.choosing : WrittenParser where
  tables := Automaton.choosing.layOut
  nodeNames := "⚠ Top"
  topRules := .ofList [("Top", (0, 1))]

/-- A term with two actions, the action for other terms in front of a skipped token, and a skipped
token alone: what is collected begins with what is looked up.  A term without an action and a state
that does not exist give nothing. -/
theorem Automaton.first_collected_choosing :
    Automaton.choosing.TermsFit ∧ ∃ p, Parser.ofWritten 0 .choosing = .ok p ∧
      (collectActions p.tables 0 5 1 []).head? = some ⟨p.tables.actionFor 0 5, 5, 1⟩ ∧
      (collectActions p.tables 0 9 1 []).head? = some ⟨p.tables.actionFor 0 9, 9, 1⟩ ∧
      (collectActions p.tables 1 9 1 []).head? = some ⟨p.tables.actionFor 1 9, 9, 1⟩ ∧
      collectActions p.tables 1 5 1 [] = [] ∧ p.tables.actionFor 1 5 = 0 ∧
      collectActions p.tables 2 5 1 [] = [] ∧ p.tables.actionFor 2 5 = 0 := by
  have hfit : Automaton.choosing.TermsFit := by
    unfold Automaton.TermsFit
    decide
  obtain ⟨p, hp⟩ : ∃ p, Parser.ofWritten 0 .choosing = .ok p := ⟨_, rfl⟩
  have key := Automaton.first_collected hfit rfl hp
  have hfirst : ∀ i term, (collectActions p.tables i term 1 [] ≠ []) →
      (collectActions p.tables i term 1 []).head? = some ⟨p.tables.actionFor i term, term, 1⟩ := by
    intro i term hne
    obtain ⟨x, hx⟩ := Option.isSome_iff_exists.1 (List.isSome_head?.2 hne)
    rw [hx, (key i term 1).1 x hx]
  have hsome : ∀ i term s, Automaton.choosing.states[i]? = some s →
      ¬(s.actions.lookup term = none ∧ s.other = none ∧ s.skip.lookup term = none) →
      collectActions p.tables i term 1 [] ≠ [] := by
    intro i term s hs hhas hempty
    exact hhas ((key i term 1).2.1.1 hempty s hs)
  have hnone : collectActions p.tables 1 5 1 [] = [] := by
    refine (key 1 5 1).2.1.2 ?_
    intro s hs
    obtain rfl := Option.some.inj hs
    exact ⟨rfl, rfl, rfl⟩
  have hgone : collectActions p.tables 2 5 1 [] = [] := by
    refine (key 2 5 1).2.1.2 ?_
    intro s hs
    cases hs
  exact ⟨hfit, p, hp, hfirst 0 5 (hsome 0 5 _ rfl fun h => by cases h.1),
    hfirst 0 9 (hsome 0 9 _ rfl fun h => by cases h.2.1),
    hfirst 1 9 (hsome 1 9 _ rfl fun h => by cases h.2.2),
    hnone, (key 1 5 1).2.2 hnone, hgone, (key 2 5 1).2.2 hgone⟩

end IncrementalLR
