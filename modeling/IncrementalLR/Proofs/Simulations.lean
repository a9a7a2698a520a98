/-
**Trying reductions.**

To find out whether a term can be shifted, its reductions are tried on the states of a stack.  What
is tried takes no popped state away: it remembers how many of the states stand, and cuts the others
off when the next state is pushed.  So behind the states that stand there may be old ones, and what
has to be shown is that no reduction ever sees them: the states that stand are those of the stack
that really reduces.

Main definitions:

* `Stack.below` — the states below the current one;
* `Stack.reduceAll`, `Simulation.reduceAll` — reductions one after the other;
* `Simulation.Follows` — a trial that stands where a stack does;
* `Tables.isStayless` — tables without reductions that return to the state below;
* `Stack.LeadsTo` — what the reductions for a term make of a stack.

Main results:

* `Simulation.Follows.reduce` — a trial follows the stack through a reduction;
* `Stack.tried_reductions` — **trying reductions tells what doing them leads to**.
-/

import IncrementalLR.Proofs.Progress
import IncrementalLR.Proofs.SymbolStarts

set_option relaxedAutoImplicit false
set_option autoImplicit false

namespace IncrementalLR

/-! ### The states that stand -/

/-- The states below the current one, newest first. -/
def Stack.below (s : Stack) : List Nat := s.frames.items.map (·.state)

/-- Where the goto of the newest of some states leads. -/
def Grammar.gotoFrom (g : Grammar) (term : Nat) (below : List Nat) : Nat :=
  (below.head?.map (g.gotoState · term)).getD noState

namespace Simulation

theorem below_ofStack (s : Stack) : (ofStack s).below = s.below := by
  simp only [below, ofStack, Stack.below, List.map_reverse, List.size_toArray]
  rw [List.take_length, List.reverse_reverse]

/-- What was popped is cut off before a state is pushed. -/
@[simp] theorem below_push (t : Simulation) : t.push.below = t.state :: t.below := by
  have hlen : (t.frames.toList.take t.base).length = t.base := by
    rw [List.length_take, Array.length_toList, Nat.min_eq_left t.base_le]
  have hpush : t.push.frames.toList = t.frames.toList.take t.base ++ [t.state] := by
    simp [push]
  have hbase : t.push.base = (t.frames.toList.take t.base ++ [t.state]).length := by
    rw [List.length_append, hlen]
    rfl
  rw [below, hpush, hbase, List.take_length, List.reverse_append]
  rfl

@[simp] theorem below_pop (t : Simulation) (count : Nat) :
    (t.pop count).below = t.below.drop count := by
  have hlen : (t.frames.toList.take t.base).length = t.base := by
    rw [List.length_take, Array.length_toList, Nat.min_eq_left t.base_le]
  rw [below, below, List.drop_reverse, hlen, List.take_take, Nat.min_eq_left (Nat.sub_le _ _)]
  rfl

@[simp] theorem below_goOn (g : Grammar) (term : Nat) (t : Simulation) :
    (t.goOn g term).below = t.below := rfl

/-- The goto is that of the newest state that stands. -/
@[simp] theorem state_goOn (g : Grammar) (term : Nat) (t : Simulation) :
    (t.goOn g term).state = g.gotoFrom term t.below := by
  rw [goOn, Grammar.gotoFrom, below, List.head?_reverse]
  by_cases hbase : t.base = 0
  · simp [hbase]
  · have hle := t.base_le
    have hlast : (t.frames.toList.take t.base).getLast? = some (t.frames.getD (t.base - 1) 0) := by
      rw [List.getLast?_take, if_neg hbase]
      rw [Array.getD_eq_getD_getElem?, Array.getElem?_toList]
      rw [Array.getElem?_eq_getElem (by omega)]
      rfl
    rw [if_neg hbase, hlast]
    rfl

end Simulation

namespace Stack

/-! ### The states that a reduction leaves -/

theorem popCount_of_not_stay {word : Nat} (hstay : ActionWord.isStay word = false) :
    popCount word = ActionWord.depth word - 1 := by
  rw [popCount, hstay]
  rfl

/-- What a reduction that does not return to the state below leaves: one of no symbol pushes the
current state, any other pops all symbols but the last. -/
theorem below_reduce {word : Nat} (hstay : ActionWord.isStay word = false) (p : Parser) (s : Stack)
    (env : Env) :
    (s.reduce p word env).1.below =
      if ActionWord.depth word = 0 then s.state :: s.below
      else s.below.drop (ActionWord.depth word - 1) := by
  rw [reduce, ← state_beginReduce p (ActionWord.value word) s, below, below,
    ← frames_beginReduce p (ActionWord.value word) s]
  generalize s.beginReduce p (ActionWord.value word) = s
  split
  · rw [reduceEmpty, frames_changeContext]
    split
    · rw [frames_addNode]
      rfl
    · rfl
  · rw [reduceSome, frames_changeContext]
    dsimp only
    rw [popCount_of_not_stay hstay, Pile.items_drop, List.map_drop]

/-- The goto that a reduction takes is that of the newest state below. -/
theorem state_reduce {word : Nat} (hstay : ActionWord.isStay word = false) (p : Parser) (s : Stack)
    (env : Env) :
    (s.reduce p word env).1.state =
      p.gotoFrom (ActionWord.value word) (s.reduce p word env).1.below := by
  rw [below_reduce hstay, reduce, ← state_beginReduce p (ActionWord.value word) s, below,
    ← frames_beginReduce p (ActionWord.value word) s]
  generalize s.beginReduce p (ActionWord.value word) = s
  split
  · rw [reduceEmpty, state_changeContext]
    split
    · rw [state_addNode]
      rfl
    · rfl
  · rw [reduceSome, state_changeContext]
    dsimp only
    rw [popCount_of_not_stay hstay, stateAfter, hstay, if_neg Bool.false_ne_true,
      Grammar.gotoFrom, ← List.map_drop, List.head?_map, Pile.top?, Pile.items_drop]
    cases (s.frames.items.drop (ActionWord.depth word - 1)).head? with
    | none => rfl
    | some f => rfl

end Stack

/-! ### Trying what is done -/

/-- A trial stands where a stack does: it is in the same state, with the same states below. -/
structure Simulation.Follows (t : Simulation) (s : Stack) : Prop where
  state : t.state = s.state
  below : t.below = s.below

namespace Simulation

variable {t : Simulation} {s : Stack}

theorem follows_ofStack (s : Stack) : (ofStack s).Follows s := ⟨rfl, below_ofStack s⟩

/-- A trial follows the stack through a reduction. -/
theorem Follows.reduce {word : Nat} (h : t.Follows s) (hstay : ActionWord.isStay word = false)
    (p : Parser) (env : Env) :
    (t.reduce p.toGrammar word).Follows (s.reduce p word env).1 := by
  have hbelow : (t.reduce p.toGrammar word).below = (s.reduce p word env).1.below := by
    rw [Stack.below_reduce hstay, Simulation.reduce, below_goOn, ← h.state, ← h.below]
    split
    · exact below_push t
    · exact below_pop t _
  refine ⟨?_, hbelow⟩
  rw [Stack.state_reduce hstay, ← hbelow, Simulation.reduce, state_goOn, below_goOn]

/-- Tries reductions one after the other. -/
def reduceAll (g : Grammar) (words : List Nat) (t : Simulation) : Simulation :=
  words.foldl (fun t word => t.reduce g word) t

end Simulation

/-- Does reductions one after the other. -/
def Stack.reduceAll (p : Parser) (words : List Nat) (q : Stack × Env) : Stack × Env :=
  words.foldl (fun q word => q.1.reduce p word q.2) q

/-- A trial follows the stack through any reductions, in whatever order they push and pop. -/
theorem Simulation.Follows.reduceAll {t : Simulation} {q : Stack × Env} {words : List Nat}
    (h : t.Follows q.1) (hstay : ∀ word ∈ words, ActionWord.isStay word = false) (p : Parser) :
    (t.reduceAll p.toGrammar words).Follows (Stack.reduceAll p words q).1 := by
  induction words generalizing t q with
  | nil => exact h
  | cons word rest ih =>
      have hone := h.reduce (hstay word List.mem_cons_self) p q.2
      exact ih hone fun w hw => hstay w (List.mem_cons_of_mem _ hw)

/-! ### The reductions for a term -/

namespace Tables

/-- Whether no reduction of the tables returns to the state below what it pops. -/
def isStayless (t : Tables) : Bool :=
  (List.range t.stateCount).all fun state =>
    ((t.row state).defaultReduce :: (t.words state).map (·.2)).all fun word =>
      !(ActionWord.isReduce word && ActionWord.isStay word)

/-- Whether a state goes by a shift when a term is tried: it has an action that is no reduction. -/
def shifts (t : Tables) (state term : Nat) : Bool :=
  t.wordFor state term ≠ 0 && !ActionWord.isReduce (t.wordFor state term)

/-- Where a default slot holds nothing but reductions, only a state without one goes by a shift, and
that is the action for the term. -/
theorem shifts_iff {t : Tables} {state term : Nat}
    (hdefault : (t.row state).defaultReduce ≠ 0 →
      ActionWord.isReduce (t.row state).defaultReduce = true) :
    t.shifts state term = true ↔ (t.row state).defaultReduce = 0 ∧
      t.actionFor state term ≠ 0 ∧ ActionWord.isReduce (t.actionFor state term) = false := by
  by_cases hzero : (t.row state).defaultReduce = 0
  · simp [shifts, wordFor, hzero]
  · simp [shifts, wordFor, hzero, hdefault hzero]

theorem mem_words_of_find? {l : ActionList} {term word : Nat} (h : l.find? term = some word) :
    ∃ o, (o, word) ∈ l.words := by
  unfold ActionList.find? at h
  split at h
  · rename_i e he
    obtain rfl := Option.some.inj h
    exact ⟨some e.term, List.mem_append_left _
      (List.mem_map.2 ⟨e, List.mem_of_find?_eq_some he, rfl⟩)⟩
  · refine ⟨none, List.mem_append_right _ ?_⟩
    rw [h]
    exact List.mem_singleton.2 rfl

/-- The action for a term is a word of the state. -/
theorem actionFor_mem_words {t : Tables} {state term : Nat} (h : t.actionFor state term ≠ 0) :
    ∃ o, (o, t.actionFor state term) ∈ t.words state := by
  have hstate : t.hasState state = true :=
    Decidable.of_not_not fun hno => h (if_neg hno)
  rw [actionFor, if_pos hstate] at h ⊢
  rw [words, if_pos hstate]
  dsimp only at h ⊢
  cases hact : (t.actionList (t.row state).actions).find? term with
  | some word =>
      obtain ⟨o, ho⟩ := mem_words_of_find? hact
      exact ⟨o, List.mem_append_left _ ho⟩
  | none =>
      cases hskip : (t.actionList (t.row state).skip).find? term with
      | some word =>
          obtain ⟨o, ho⟩ := mem_words_of_find? hskip
          exact ⟨o, List.mem_append_right _ ho⟩
      | none =>
          rw [hact, hskip] at h
          exact absurd rfl h

theorem isStay_wordFor {t : Tables} {state term : Nat} (h : t.isStayless = true)
    (hreduce : ActionWord.isReduce (t.wordFor state term) = true) :
    ActionWord.isStay (t.wordFor state term) = false := by
  have hne : t.wordFor state term ≠ 0 := by
    intro hzero
    rw [hzero] at hreduce
    cases hreduce
  by_cases hstate : state < t.stateCount
  · have hall := List.all_eq_true.1 (List.all_eq_true.1 h state (List.mem_range.2 hstate))
    have hmem : t.wordFor state term ∈
        (t.row state).defaultReduce :: (t.words state).map (·.2) := by
      unfold wordFor at hne ⊢
      dsimp only at hne ⊢
      split
      · exact List.mem_cons_self
      · rename_i hdefault
        rw [if_neg hdefault] at hne
        obtain ⟨o, ho⟩ := actionFor_mem_words hne
        exact List.mem_cons_of_mem _ (List.mem_map.2 ⟨_, ho, rfl⟩)
    simpa [hreduce] using hall _ hmem
  · have hno : t.hasState state = false := by simp [hasState, hstate]
    exact absurd (by simp [wordFor, row_of_not_hasState hno, actionFor, hno]) hne

end Tables

namespace Stack

variable {p : Parser} {term : Nat}

/-- What the reductions for a term make of a stack: as long as the state goes by a reduction, that
reduction is done. -/
inductive LeadsTo (p : Parser) (term : Nat) : Stack × Env → Stack × Env → Prop
  | here (q : Stack × Env) : LeadsTo p term q q
  | reduce {q r : Stack × Env}
      (hreduce : ActionWord.isReduce (p.tables.wordFor q.1.state term) = true)
      (rest : LeadsTo p term (q.1.reduce p (p.tables.wordFor q.1.state term) q.2) r) :
      LeadsTo p term q r

/-- Where the reductions end is told by where they begin. -/
theorem LeadsTo.unique {q r r' : Stack × Env} (h : LeadsTo p term q r) (h' : LeadsTo p term q r')
    (hend : ActionWord.isReduce (p.tables.wordFor r.1.state term) = false)
    (hend' : ActionWord.isReduce (p.tables.wordFor r'.1.state term) = false) : r = r' := by
  induction h with
  | here q =>
      cases h' with
      | here => rfl
      | reduce hreduce rest => rw [hend] at hreduce; cases hreduce
  | reduce hreduce rest ih =>
      cases h' with
      | here => rw [hend'] at hreduce; cases hreduce
      | reduce hreduce' rest' => exact ih rest' hend

/-- An answer of a trial is the one of the stack that the reductions lead to. -/
theorem leadsTo_of_canShiftF {fuel : Nat} {t : Simulation} {q : Stack × Env} {b : Bool}
    (hstayless : p.tables.isStayless = true) (hfollows : t.Follows q.1)
    (h : StackView.canShiftF p.toGrammar term fuel t = some b) :
    ∃ r, LeadsTo p term q r ∧ ActionWord.isReduce (p.tables.wordFor r.1.state term) = false ∧
      p.tables.shifts r.1.state term = b := by
  induction fuel generalizing t q with
  | zero => cases h
  | succ fuel ih =>
      rw [StackView.canShiftF, hfollows.state] at h
      split at h
      · rename_i hzero
        obtain rfl := Option.some.inj h
        exact ⟨q, .here q, by rw [hzero]; rfl, by simp [Tables.shifts, hzero]⟩
      · rename_i hne
        split at h
        · rename_i hreduce
          have hstay := Tables.isStay_wordFor hstayless hreduce
          obtain ⟨r, hleads, hrest⟩ := ih (hfollows.reduce hstay p q.2) h
          exact ⟨r, .reduce hreduce hleads, hrest⟩
        · rename_i hreduce
          obtain rfl := Option.some.inj h
          have hreduce := Bool.eq_false_iff.2 hreduce
          exact ⟨q, .here q, hreduce, by simp [Tables.shifts, hne, hreduce]⟩

/-- If the reductions come to an end, a trial with enough steps finds it. -/
theorem exists_canShiftF {t : Simulation} {q r : Stack × Env}
    (hstayless : p.tables.isStayless = true) (hfollows : t.Follows q.1) (h : LeadsTo p term q r)
    (hend : ActionWord.isReduce (p.tables.wordFor r.1.state term) = false) :
    ∃ fuel, StackView.canShiftF p.toGrammar term fuel t =
      some (p.tables.shifts r.1.state term) := by
  induction h generalizing t with
  | here q =>
      refine ⟨1, ?_⟩
      rw [StackView.canShiftF, hfollows.state]
      by_cases hzero : p.tables.wordFor q.1.state term = 0
      · simp [Tables.shifts, hzero]
      · simp [Tables.shifts, hzero, hend]
  | @reduce q r hreduce rest ih =>
      have hstay := Tables.isStay_wordFor hstayless hreduce
      obtain ⟨fuel, hfuel⟩ := ih (hfollows.reduce hstay p q.2) hend
      refine ⟨fuel + 1, ?_⟩
      have hne : p.tables.wordFor q.1.state term ≠ 0 := by
        intro hzero
        rw [hzero] at hreduce
        cases hreduce
      rw [StackView.canShiftF, hfollows.state]
      simpa [hne, hreduce] using hfuel

/-- **Trying reductions tells what doing them leads to.**  Reductions that do not return to the
state below take a trial and the stack to the same state with the same states below, in whatever
order they push and pop.  So with tables that have no other reductions, a term is said to be
shiftable exactly if the reductions for it, done on the stack, lead to a state that shifts it; and
an answer is found whenever these reductions come to an end. -/
theorem tried_reductions (p : Parser) (s : Stack) (env : Env) :
    (∀ words, (∀ word ∈ words, ActionWord.isStay word = false) →
      ((Simulation.ofStack s).reduceAll p.toGrammar words).state =
          (reduceAll p words (s, env)).1.state ∧
        ((Simulation.ofStack s).reduceAll p.toGrammar words).below =
          (reduceAll p words (s, env)).1.below) ∧
      (p.tables.isStayless = true → ∀ term,
        (∀ limit b, StackView.canShift ⟨p.toGrammar, s, limit⟩ term = some b →
          (b = true ↔ ∃ r, LeadsTo p term (s, env) r ∧ p.tables.shifts r.1.state term = true)) ∧
        (∀ r, LeadsTo p term (s, env) r →
          ActionWord.isReduce (p.tables.wordFor r.1.state term) = false →
          ∃ limit, StackView.canShift ⟨p.toGrammar, s, limit⟩ term ≠ none)) := by
  have hfollows := Simulation.follows_ofStack s
  refine ⟨?_, ?_⟩
  · intro words hstay
    have hall := Simulation.Follows.reduceAll (q := (s, env)) hfollows hstay p
    exact ⟨hall.state, hall.below⟩
  · intro hstayless term
    constructor
    · intro limit b hanswer
      obtain ⟨r, hleads, hend, hshifts⟩ :=
        leadsTo_of_canShiftF (q := (s, env)) hstayless hfollows hanswer
      constructor
      · intro hb
        exact ⟨r, hleads, hshifts.trans hb⟩
      · rintro ⟨r', hleads', hshifts'⟩
        have hend' : ActionWord.isReduce (p.tables.wordFor r'.1.state term) = false := by
          simpa using (Bool.and_eq_true_iff.1 hshifts').2
        obtain rfl := hleads.unique hleads' hend hend'
        rw [← hshifts, hshifts']
    · intro r hleads hend
      obtain ⟨limit, hlimit⟩ := exists_canShiftF hstayless hfollows hleads hend
      refine ⟨limit, ?_⟩
      rw [StackView.canShift, hlimit]
      exact Option.some_ne_none _

/-- What the stacks of the text `ab` share. -/
def pairEnv : Env :=
  let d : Document := { bytes := #[97, 98] }
  { stream := .start d [⟨0, 2⟩], start := 0, limit := 9 }

/-- A stack of this text behind the `a`. -/
def openPair : Stack :=
  { Stack.start Parse.pairParser 0 with
    state := 1, pos := 1, reducePos := 1, frames := .ofItems [⟨0, 0, 0⟩] }

/-- Reductions of an empty symbol, of the pair, and of another empty symbol. -/
def pairWords : List Nat :=
  [ActionWord.reduction 5 0, ActionWord.reduction 2 2, ActionWord.reduction 5 0]

/-- The state of the empty symbol is popped with the pair, and another one is pushed in its place.
Behind an `a` the empty symbol is reduced, and then a `b` can be shifted. -/
theorem tried_reductions_pair :
    (∀ word ∈ pairWords, ActionWord.isStay word = false) ∧
      ((Simulation.ofStack openPair).reduceAll Parse.pairParser.toGrammar pairWords).below =
        [4, 0] ∧
      (reduceAll Parse.pairParser pairWords (openPair, pairEnv)).1.below = [4, 0] ∧
      Parse.pairParser.tables.isStayless = true ∧
      StackView.canShift ⟨Parse.pairParser.toGrammar, openPair, 2⟩ 7 = some true ∧
      ∃ r, LeadsTo Parse.pairParser 7 (openPair, pairEnv) r ∧
        Parse.pairParser.tables.shifts r.1.state 7 = true := by
  have hstay : ∀ word ∈ pairWords, ActionWord.isStay word = false := by decide
  have hstayless : Parse.pairParser.tables.isStayless = true := by decide +kernel
  have hbelow : ((Simulation.ofStack openPair).reduceAll Parse.pairParser.toGrammar
      pairWords).below = [4, 0] := by decide +kernel
  have hanswer : StackView.canShift ⟨Parse.pairParser.toGrammar, openPair, 2⟩ 7 = some true := by
    decide +kernel
  obtain ⟨hsame, hterm⟩ := tried_reductions Parse.pairParser openPair pairEnv
  refine ⟨hstay, hbelow, ?_, hstayless, hanswer, ?_⟩
  · rw [← (hsame pairWords hstay).2, hbelow]
  · exact ((hterm hstayless 7).1 2 true hanswer).1 rfl

end Stack

end IncrementalLR
