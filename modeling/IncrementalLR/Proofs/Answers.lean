/-
**Look-ups answer from the automaton.**

A parser asks its tables three things about a state: the word of the action for a term, whether a
word is one of its actions, and where its shifts lead.  All three read the action list of the state
from a sequence of slots that the lists of all states share.  Where the slots of a list stand, a
reader finds its entries and the word for other terms again and stops in front of what comes after,
so the answers are those of the automaton that the tables were laid out from.

Main definitions:

* `ParseState.wordFor`, `ParseState.HasWord`, `ParseState.shiftPairs` — what a state of an automaton
  can do.

Main results:

* `Tables.actionListF_slots` — an action list is read back;
* `Automaton.Encodable.answers` — **every look-up answers from the automaton**.
-/

import IncrementalLR.Proofs.Layouts
import IncrementalLR.Table.Lookup

set_option relaxedAutoImplicit false
set_option autoImplicit false

namespace IncrementalLR

/-! ### Words -/

/-- Whether an action is a reduction. -/
def Action.isReduction : Action → Bool
  | reduce _ _ | reduceRepeat _ _ | reduceStay _ _ => true
  | shift _ | goto _ | skip => false

/-- A word has 32 bits. -/
theorem Action.Fits.code_lt {a : Action} (h : a.Fits) : a.code < 4294967296 := by
  cases a with
  | shift state =>
      have hstate : state ≤ 65535 := h
      rw [code]
      omega
  | goto state =>
      have hstate : state ≤ 65535 := h
      have hor : state ||| 131072 < 2 ^ 32 := Nat.or_lt_two_pow (by omega) (by decide)
      exact hor
  | skip => decide
  | reduce term depth | reduceRepeat term depth | reduceStay term depth =>
      rw [code, ActionWord.reduction]
      omega

/-- Only the words of reductions have the bit of reductions. -/
theorem Action.Fits.isReduce_code {a : Action} (h : a.Fits) :
    ActionWord.isReduce a.code = a.isReduction := by
  cases a with
  | shift state =>
      have hstate : state ≤ 65535 := h
      exact Nat.testBit_lt_two_pow (show state < 2 ^ 16 by omega)
  | goto state =>
      have hstate : state ≤ 65535 := h
      rw [ActionWord.isReduce, code, Nat.testBit_or,
        Nat.testBit_lt_two_pow (show state < 2 ^ ActionWord.reduceBit by
          rw [ActionWord.reduceBit]; omega)]
      rfl
  | skip => rfl
  | reduce term depth => exact isReduce_code_reduce term depth
  | reduceRepeat term depth | reduceStay term depth =>
      rw [ActionWord.isReduce, ActionWord.reduceBit, code, ActionWord.reduction, isReduction,
        Nat.testBit_eq_decide_div_mod_eq, decide_eq_true_eq]
      omega

/-- The upper slot of a word has the bit of reductions in front. -/
theorem testBit_upper (w : Nat) : (w / 65536 % 65536).testBit 0 = ActionWord.isReduce w := by
  rw [ActionWord.isReduce, ActionWord.reduceBit, Nat.testBit_eq_decide_div_mod_eq,
    Nat.testBit_eq_decide_div_mod_eq]
  congr 1
  rw [eq_iff_iff]
  omega

/-! ### Slots -/

/-- A slot is read whatever a reader takes for the slots past the end. -/
theorem getD_of_drop {slots : Array Nat} {i n : Nat} {rest : List Nat}
    (h : slots.toList.drop i = n :: rest) :
    (∀ d, slots.getD i d = n) ∧ slots.toList.drop (i + 1) = rest := by
  obtain ⟨hn, hrest⟩ := getElem?_of_drop h
  refine ⟨?_, hrest⟩
  intro d
  rw [Array.getD_eq_getD_getElem?, hn]
  rfl

namespace Tables

/-- A word of 32 bits is read from its two slots. -/
theorem wordAt_of_drop {t : Tables} {i w : Nat} {rest : List Nat}
    (h : t.data.toList.drop i = wordSlots w ++ rest) :
    t.wordAt i = w % 4294967296 ∧ t.data.toList.drop (i + 2) = rest := by
  obtain ⟨hlow, h⟩ := getD_of_drop h
  obtain ⟨hhigh, h⟩ := getD_of_drop h
  refine ⟨?_, h⟩
  rw [wordAt, hlow, hhigh]
  omega

theorem actionSlots_cons (e : Nat × Action) (rest : List (Nat × Action)) (other : Option Action) :
    actionSlots (e :: rest) other = e.1 :: (wordSlots e.2.code ++ actionSlots rest other) := by
  simp [actionSlots]

/-- An action takes at least one slot. -/
theorem length_le_actionSlots (actions : List (Nat × Action)) (other : Option Action) :
    actions.length ≤ (actionSlots actions other).length := by
  induction actions with
  | nil => exact Nat.zero_le _
  | cons e rest ih =>
      rw [actionSlots_cons, List.length_cons, List.length_cons, List.length_append]
      omega

/-- The entry of an action, whatever its word is. -/
def rawEntryOf (e : Nat × Action) : Entry where
  term := e.1
  word := e.2.code % 4294967296
  target := if ActionWord.isReduce e.2.code then none else some (e.2.code % 65536)

/-- The entry of an action. -/
def entryOf (e : Nat × Action) : Entry where
  term := e.1
  word := e.2.code
  target := if e.2.isReduction then none else some (e.2.code % 65536)

theorem rawEntryOf_eq {e : Nat × Action} (he : e.2.Fits) : rawEntryOf e = entryOf e := by
  rw [rawEntryOf, entryOf, Nat.mod_eq_of_lt he.code_lt, he.isReduce_code]

/-- An entry is read from its three slots. -/
theorem entryAt_of_drop {t : Tables} {i : Nat} {e : Nat × Action} {rest : List Nat}
    (h : t.data.toList.drop i = e.1 :: (wordSlots e.2.code ++ rest)) :
    t.cell i = e.1 ∧ t.entryAt i = rawEntryOf e ∧ t.data.toList.drop (i + 3) = rest := by
  obtain ⟨hterm, h⟩ := getD_of_drop h
  obtain ⟨hword, hrest⟩ := wordAt_of_drop h
  obtain ⟨hlow, h⟩ := getD_of_drop h
  obtain ⟨hhigh, -⟩ := getD_of_drop h
  have hterm' : t.cell i = e.1 := hterm listEnd
  have hlow' : t.cell (i + 1) = e.2.code % 65536 := hlow listEnd
  have hhigh' : t.cell (i + 2) = e.2.code / 65536 % 65536 := hhigh listEnd
  refine ⟨hterm', ?_, hrest⟩
  rw [entryAt, rawEntryOf, hterm', hword, hlow', hhigh', testBit_upper]

/-- **An action list is read back.**  By induction on the actions that are still to be read; the
reader stops at the end of the list, whatever comes after. -/
theorem actionListF_slots {t : Tables} {actions : List (Nat × Action)} {other : Option Action}
    (hterms : ∀ e ∈ actions, e.1 ≠ listEnd) {fuel i : Nat}
    (hfuel : actions.length < fuel) (h : HoldsAt t.data.toList (actionSlots actions other) i) :
    t.actionListF fuel i =
      ⟨actions.map rawEntryOf, other.map fun x => x.code % 4294967296, false⟩ := by
  obtain ⟨post, hpost⟩ := h
  induction actions generalizing fuel i with
  | nil =>
      obtain ⟨fuel, rfl⟩ := Nat.exists_eq_add_of_lt hfuel
      obtain ⟨hend, hpost⟩ := getD_of_drop hpost.symm
      have hend' : t.cell i = listEnd := hend listEnd
      rw [actionListF, if_pos hend']
      cases other with
      | none =>
          obtain ⟨hmark, -⟩ := getD_of_drop hpost
          have hmark' : t.cell (i + 1) = markDone := hmark listEnd
          rw [hmark']
          rfl
      | some a =>
          obtain ⟨hmark, hpost⟩ := getD_of_drop hpost
          obtain ⟨hword, -⟩ := wordAt_of_drop hpost
          have hmark' : t.cell (i + 1) = markOther := hmark listEnd
          rw [hmark', hword]
          rfl
  | cons e rest ih =>
      obtain ⟨fuel, rfl⟩ : ∃ n, fuel = n + 1 := ⟨fuel - 1, by omega⟩
      have hslots : t.data.toList.drop i =
          e.1 :: (wordSlots e.2.code ++ (actionSlots rest other ++ post)) := by
        rw [← hpost, actionSlots_cons, List.cons_append, List.append_assoc]
      obtain ⟨hterm, hentry, hnext⟩ := entryAt_of_drop hslots
      have hmore : t.cell i ≠ listEnd := hterm ▸ hterms e List.mem_cons_self
      have hrest := ih (fun x hx => hterms x (List.mem_cons_of_mem _ hx))
        (Nat.lt_of_succ_lt_succ hfuel) hnext.symm
      rw [actionListF, if_neg hmore, hrest, hentry]
      rfl

/-- The list of an action table is read back, whatever the words are. -/
theorem actionList_raw {t : Tables} {actions : List (Nat × Action)} {other : Option Action}
    (hterms : ∀ e ∈ actions, e.1 ≠ listEnd) {i : Nat}
    (h : HoldsAt t.data.toList (actionSlots actions other) i) :
    t.actionList i = ⟨actions.map rawEntryOf, other.map fun x => x.code % 4294967296, false⟩ := by
  refine actionListF_slots hterms ?_ h
  have hlen := h.length_le
  have hsize : t.data.toList.length = t.data.size := Array.length_toList
  have hslots := length_le_actionSlots actions other
  rw [List.length_drop, hsize] at hlen
  omega

/-- The list of an action table is read back. -/
theorem actionList_slots {t : Tables} {actions : List (Nat × Action)} {other : Option Action}
    (hactions : ∀ e ∈ actions, EntryFits e) (hother : ∀ x ∈ other, x.Fits) {i : Nat}
    (h : HoldsAt t.data.toList (actionSlots actions other) i) :
    t.actionList i = ⟨actions.map entryOf, other.map Action.code, false⟩ := by
  have hentries : actions.map rawEntryOf = actions.map entryOf :=
    List.map_congr_left fun e he => rawEntryOf_eq (hactions e he).2.2
  have hcode : (other.map fun x => x.code % 4294967296) = other.map Action.code := by
    cases other with
    | none => rfl
    | some x => exact congrArg some (Nat.mod_eq_of_lt (hother x rfl).code_lt)
  rw [actionList_raw (fun e he => Nat.ne_of_lt (hactions e he).2.1) h, hentries, hcode]

/-- The row of a state is read back. -/
theorem row_of_holdsAt {t : Tables} {s : ParseState} {i actions skip : Nat}
    (h : HoldsAt t.states.toList (s.row actions skip) (6 * i)) :
    t.hasState i = true ∧ (t.row i).actions = actions ∧ (t.row i).skip = skip ∧
      (t.row i).defaultReduce = (s.defaultReduce.map Action.code).getD 0 ∧
      (t.row i).forcedReduce = (s.forcedReduce.map Action.code).getD 0 := by
  have hlen := h.length_le
  obtain ⟨post, hpost⟩ := h
  have hstate : t.hasState i = true := by
    have hrow : (s.row actions skip).length = 6 := rfl
    have hsize : t.states.toList.length = t.states.size := Array.length_toList
    rw [hrow, List.length_drop, hsize] at hlen
    rw [hasState, stateCount, decide_eq_true_eq]
    omega
  obtain ⟨-, h₁⟩ := getD_of_drop hpost.symm
  obtain ⟨hactions, h₂⟩ := getD_of_drop h₁
  obtain ⟨hskip, h₃⟩ := getD_of_drop h₂
  obtain ⟨-, h₄⟩ := getD_of_drop h₃
  obtain ⟨hdefault, h₅⟩ := getD_of_drop h₄
  obtain ⟨hforced, -⟩ := getD_of_drop h₅
  rw [row, if_pos hstate]
  exact ⟨hstate, hactions 0, hskip 0, hdefault 0, hforced 0⟩

end Tables

/-! ### What a state can do -/

namespace ParseState

/-- The word for a term: that of the first action for it, else that for other terms, else that of
the first skipped token, else 0. -/
def wordFor (s : ParseState) (term : Nat) : Nat :=
  (((s.actions.lookup term).or s.other).or (s.skip.lookup term)).elim 0 Action.code

/-- A word is that of the default reduction, or of an action. -/
def HasWord (s : ParseState) (word : Nat) : Prop :=
  (word ≠ 0 ∧ s.defaultReduce.map Action.code = some word) ∨ ∃ e ∈ s.actions, e.2.code = word

/-- The terms and the low halves of the actions that are no reductions, the first for each low
half. -/
def shiftPairs (s : ParseState) : List (Nat × Nat) :=
  ((s.actions.filter fun e => !e.2.isReduction).map fun e => (e.1, e.2.code % 65536)).eraseDupsBy
    fun p q => p.2 == q.2

end ParseState

namespace Tables

/-- The first entry for a term is that of the first action for it. -/
theorem find?_entries {actions : List (Nat × Action)} (h : ∀ e ∈ actions, EntryFits e)
    (other : Option Nat) (term : Nat) :
    ActionList.find? ⟨actions.map entryOf, other, false⟩ term =
      ((actions.lookup term).map Action.code).or other := by
  induction actions with
  | nil => rfl
  | cons e rest ih =>
      obtain ⟨first, action⟩ := e
      have hpos : first ≠ 0 := Nat.ne_of_gt (h _ List.mem_cons_self).1
      have hrest := ih fun x hx => h x (List.mem_cons_of_mem _ hx)
      rw [ActionList.find?] at hrest ⊢
      rw [List.map_cons, List.find?_cons, List.lookup_cons]
      by_cases hterm : first = term
      · subst hterm
        simp [entryOf]
      · have hbeq : (term == first) = false := beq_eq_false_iff_ne.2 (Ne.symm hterm)
        simpa [entryOf, hterm, hpos, hbeq] using hrest

/-- A default reduction counts unless its word is 0. -/
theorem mem_defaultWords {d : Option Nat} {word : Nat} :
    word ∈ (if d.getD 0 ≠ 0 then [d.getD 0] else []) ↔ word ≠ 0 ∧ d = some word := by
  cases d with
  | none => simp
  | some n =>
      by_cases hn : n = 0
      · rw [hn, Option.getD_some, if_neg (not_not_intro rfl)]
        constructor
        · intro hword
          cases hword
        · rintro ⟨hne, heq⟩
          exact absurd (Option.some.inj heq).symm hne
      · rw [Option.getD_some, if_pos hn, List.mem_singleton]
        constructor
        · rintro rfl
          exact ⟨hn, rfl⟩
        · rintro ⟨-, heq⟩
          exact (Option.some.inj heq).symm

/-- Keeping the first pair for each target drops the pairs whose target came before. -/
theorem keepFirst_eq (kept pairs : List (Nat × Nat)) :
    keepFirst kept pairs =
      List.eraseDupsBy.loop (fun p q => p.2 == q.2) pairs kept.reverse := by
  induction pairs generalizing kept with
  | nil => simp [keepFirst, List.eraseDupsBy.loop]
  | cons p rest ih =>
      have hany : (kept.any fun q => decide (q.2 = p.2)) =
          kept.reverse.any fun q => p.2 == q.2 := by
        rw [List.any_reverse]
        congr 1
        funext q
        rw [Bool.eq_iff_iff, decide_eq_true_eq, beq_iff_eq]
        exact eq_comm
      rw [keepFirst, List.eraseDupsBy.loop, hany]
      cases hseen : kept.reverse.any fun q => p.2 == q.2 with
      | true => exact ih kept
      | false =>
          have hrest := ih (kept ++ [p])
          rw [List.reverse_append] at hrest
          exact hrest

/-- The entries that have a target are the actions that are no reductions. -/
theorem filterMap_targets (actions : List (Nat × Action)) :
    ((actions.map entryOf).filterMap fun e => e.target.map fun s => (e.term, s)) =
      (actions.filter fun e => !e.2.isReduction).map fun e => (e.1, e.2.code % 65536) := by
  induction actions with
  | nil => rfl
  | cons e rest ih =>
      rw [List.map_cons, List.filterMap_cons, List.filter_cons]
      cases he : e.2.isReduction <;> simp [entryOf, he, ← ih]

end Tables

/-! ### The answers -/

/-- **Every look-up answers from the automaton.**  The tables of an automaton that fits the format
can be read.  A parser on them finds for each state of the automaton and each term the word of the
first action for it, else that for other terms, else that of the first skipped token, else 0; it
allows the words of the default reduction and of the actions; and it lists the shifts in order, the
first for each target. -/
theorem Automaton.Encodable.answers {a : Automaton} (h : a.Encodable) :
    (∃ t : Tables, t.LaidOut a) ∧
      ∀ {epoch : Nat} {w : WrittenParser} {p : Parser}, w.tables = a.layOut →
        Parser.ofWritten epoch w = .ok p → ∀ (i : Nat) (s : ParseState), a.states[i]? = some s →
          (∀ term, p.tables.actionFor i term = s.wordFor term) ∧
          (∀ word, p.tables.allowsAction i word = true ↔ s.HasWord word) ∧
          p.tables.shiftTargets i = s.shiftPairs := by
  refine ⟨h.exists_laidOut, ?_⟩
  intro epoch w p htables hp i s hs
  have hmem : s ∈ a.states := List.mem_of_getElem? hs
  have hactions := h.actions s hmem
  have hskip := h.skip s hmem
  obtain ⟨actions, skip, hrow, hlist, hskips⟩ :=
    (Parser.laidOut_of_ofWritten htables hp).holdsAt hs
  obtain ⟨hstate, hact, hskp, hdefault, -⟩ := Tables.row_of_holdsAt hrow
  have hread := Tables.actionList_slots hactions (h.other s hmem) hlist
  have hreadSkip := Tables.actionList_slots hskip (fun x hx => by cases hx) hskips
  refine ⟨?_, ?_, ?_⟩
  · intro term
    rw [Tables.actionFor, if_pos hstate]
    simp only [hact, hskp, hread, hreadSkip]
    rw [Tables.find?_entries hactions, Tables.find?_entries hskip, ParseState.wordFor]
    cases s.actions.lookup term <;> cases s.other <;> cases s.skip.lookup term <;> rfl
  · intro word
    have hwords : p.tables.allActions i =
        (if (s.defaultReduce.map Action.code).getD 0 ≠ 0 then
          [(s.defaultReduce.map Action.code).getD 0] else []) ++
          s.actions.map fun e => e.2.code := by
      rw [Tables.allActions, if_pos hstate]
      simp only [hact, hread, hdefault, List.map_map]
      rfl
    rw [Tables.allowsAction, List.contains_iff_mem, hwords, List.mem_append, ParseState.HasWord]
    exact or_congr Tables.mem_defaultWords List.mem_map
  · rw [Tables.shiftTargets, if_pos hstate]
    simp only [hact, hread]
    rw [Tables.filterMap_targets, Tables.keepFirst_eq, ParseState.shiftPairs, List.eraseDupsBy]
    rfl

/-- Two states whose lists of skipped tokens are one list, which also is the action list of the
second state. -/
def Automaton.skipping : Automaton where
  states :=
    [{ actions := [(5, .shift 1), (6, .goto 2), (7, .shift 1), (5, .skip), (8, .reduce 3 2)],
       other := some (.reduceStay 4 1), skip := [(9, .skip)] },
     { actions := [(9, .skip)], skip := [(9, .skip)], defaultReduce := some (.reduceRepeat 3 1) }]
  dialects := [("short", [5, 6])]
  precedence := [7, 5]

/-- A parser for them. -/
def WrittenParser.skipping : WrittenParser where
  tables := Automaton.skipping.layOut
  nodeNames := "⚠ Top"
  topRules := .ofList [("Top", (0, 1))]

/-- The hypotheses hold of two states with a common list. -/
theorem Automaton.Encodable.answers_skipping :
    Automaton.skipping.Encodable ∧ ∃ p, Parser.ofWritten 0 .skipping = .ok p ∧
      p.tables.actionFor 0 5 = 1 ∧ p.tables.actionFor 0 9 = (Action.reduceStay 4 1).code ∧
      p.tables.actionFor 1 9 = Action.skip.code ∧ p.tables.actionFor 1 5 = 0 ∧
      p.tables.allowsAction 1 (Action.reduceRepeat 3 1).code = true ∧
      p.tables.shiftTargets 0 = [(5, 1), (6, 2), (5, 0)] := by
  have hfits : Automaton.skipping.Encodable :=
    ⟨by decide, by decide, by decide, by decide, by decide⟩
  obtain ⟨p, hp⟩ : ∃ p, Parser.ofWritten 0 .skipping = .ok p := ⟨_, rfl⟩
  obtain ⟨hfor, -, hshifts⟩ := (Automaton.Encodable.answers hfits).2 rfl hp 0 _ rfl
  obtain ⟨hfor', hallows, -⟩ := (Automaton.Encodable.answers hfits).2 rfl hp 1 _ rfl
  exact ⟨hfits, p, hp, hfor 5, hfor 9, hfor' 9, hfor' 5,
    (hallows _).2 (.inl ⟨by decide, rfl⟩), hshifts⟩

end IncrementalLR
