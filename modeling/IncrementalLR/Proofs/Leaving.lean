/-
**Where a stack comes to by leaving a rule.**

A stack that has to leave its rule is reduced, even if the tables do not allow it.  The reduction is
the one that the tables name for this, if the frame that it goes back to has a goto of its own for
the term.  Otherwise one is made from a reduction that could be done after some more shifts: it pops
fewer symbols by the number of these shifts, as they have not been done.

When a reduction is looked for, a goto has to have the state of the frame among its sources.  The
reduction itself counts the frames once more, and its goto need not have that state among its
sources.  It comes to the same state all the same, so no stack that leaves its rule loses its way.

Main definitions:

* `Action.IsPlain` — reductions that do not return to the state below what they pop;
* `Stack.Lands` — the frame and the state that a reduction leads to by a goto of that frame;
* `Stack.IsShortened` — reductions without the symbols that have not been read.

Main results:

* `Tables.goto?_loose` — what is found among the sources is found in either way;
* `Stack.isShortened_of_exploreF` — what is found by looking ahead;
* `Stack.Lands.reduce` — the stack after a reduction that lands;
* `Stack.leaveRule_lands` — **leaving a rule leads to the goto that was looked for**;
* `Stack.leaveRuleChecked_halts` — a score that ends the program.
-/

import IncrementalLR.Proofs.Answers
import IncrementalLR.Proofs.Simulations
import IncrementalLR.Stack.Scores

set_option relaxedAutoImplicit false
set_option autoImplicit false

namespace IncrementalLR

/-! ### Words -/

theorem ActionWord.isStay_reduction (term depth : Nat) :
    ActionWord.isStay (ActionWord.reduction term depth) = false := by
  simp only [ActionWord.isStay, ActionWord.stayBit, ActionWord.reduction,
    Nat.testBit_eq_decide_div_mod_eq, decide_eq_false_iff_not]
  omega

/-- A reduction that does not return to the state below what it pops. -/
def Action.IsPlain : Action → Prop
  | .reduce _ _ | .reduceRepeat _ _ => True
  | .shift _ | .goto _ | .skip | .reduceStay _ _ => False

theorem Action.IsPlain.isStay_code {x : Action} (h : x.IsPlain) :
    ActionWord.isStay x.code = false := by
  cases x with
  | reduce term depth => exact ActionWord.isStay_reduction term depth
  | reduceRepeat term depth =>
      simp only [ActionWord.isStay, ActionWord.stayBit, code, ActionWord.reduction,
        Nat.testBit_eq_decide_div_mod_eq, decide_eq_false_iff_not]
      omega
  | shift _ | goto _ | skip | reduceStay _ _ => exact h.elim

namespace Tables

variable {t : Tables} {a : Automaton}

/-! ### Gotos -/

/-- What a search finds that looks at all sources: it is a slot, and the other search finds it as
well.  By induction on the groups that are gone through, the last one of which that search takes
unseen. -/
theorem gotoF_loose {state fuel pos target : Nat}
    (h : t.gotoF state false fuel pos = some target) :
    t.gotoF state true fuel pos = some target ∧ target ∈ t.gotos.toList := by
  induction fuel generalizing pos with
  | zero => cases h
  | succ fuel ih =>
      rw [gotoF] at h ⊢
      split at h
      · rename_i tag found htag hfound
        simp only [Bool.and_false, Bool.false_eq_true, if_false] at h
        simp only [Bool.and_true]
        by_cases hsource : (t.gotos.extract (pos + 2) (pos + 2 + tag / 2)).contains state = true
        · rw [if_pos hsource] at h
          obtain rfl := Option.some.inj h
          refine ⟨by rw [if_pos hsource, ite_self], ?_⟩
          exact Array.mem_toList_iff.2 (Array.mem_of_getElem? hfound)
        · rw [if_neg hsource] at h
          split at h
          · cases h
          · rename_i hmore
            have hlast : ¬ decide (tag % 2 = 1) = true := fun hlast => hmore (by simp [hlast])
            rw [if_neg hlast, if_neg hsource, if_neg hmore]
            exact ih h
      · cases h

/-- **What is found among the sources is found in either way**, and is one of the slots. -/
theorem goto?_loose {state term target : Nat} (h : t.goto? state term false = some target) :
    t.goto? state term true = some target ∧ target ∈ t.gotos.toList := by
  rw [goto?] at h ⊢
  split at h
  · cases h
  · split at h
    · rename_i hterm
      obtain ⟨pos, hpos, hfound⟩ := Option.bind_eq_some_iff.1 h
      obtain ⟨hloose, hmem⟩ := gotoF_loose hfound
      exact ⟨by rw [if_pos hterm, hpos]; exact hloose, hmem⟩
    · cases h

/-- A goto in the tables of an automaton leads to a state with a number of 16 bits. -/
theorem LaidOut.goto?_ne {state term target : Nat} (ht : t.LaidOut a)
    (h : t.goto? state term false = some target) : target ≠ noState := by
  have hle := ht.narrow_gotos target (goto?_loose h).2
  rw [noState]
  omega

/-! ### Actions -/

/-- Words in the lists have 32 bits. -/
theorem wordAt_lt (h : Narrow t.data.toList) (i : Nat) : t.wordAt i < 4294967296 := by
  have hslot : ∀ i, t.data.getD i 0 ≤ 65535 := by
    intro i
    rw [Array.getD_eq_getD_getElem?]
    cases hi : t.data[i]? with
    | none => exact Nat.zero_le _
    | some n => exact h n (Array.mem_toList_iff.2 (Array.mem_of_getElem? hi))
  have hlow := hslot i
  have hhigh := hslot (i + 1)
  rw [wordAt]
  omega

theorem word_lt_of_mem_actionListF (h : Narrow t.data.toList) {fuel i : Nat} :
    ∀ e ∈ (t.actionListF fuel i).entries, e.word < 4294967296 := by
  induction fuel generalizing i with
  | zero =>
      intro e he
      cases he
  | succ fuel ih =>
      have hentry : ∀ i, (t.entryAt i).word < 4294967296 := fun i => wordAt_lt h (i + 1)
      rw [actionListF]
      split
      · split
        · exact List.forall_mem_cons.2 ⟨hentry _, ih⟩
        · split
          · intro e he
            cases he
          · intro e he
            cases he
      · exact List.forall_mem_cons.2 ⟨hentry _, ih⟩

/-- The reductions in the row of a state are those of a state of the automaton. -/
theorem LaidOut.exists_row (ht : t.LaidOut a) {state : Nat} (h : t.hasState state = true) :
    ∃ x ∈ a.states, (t.row state).defaultReduce = (x.defaultReduce.map Action.code).getD 0 ∧
      (t.row state).forcedReduce = (x.forcedReduce.map Action.code).getD 0 := by
  rw [hasState, decide_eq_true_eq, ht.stateCount_eq] at h
  have hx := List.getElem?_eq_getElem h
  obtain ⟨actions, skip, hrow, -, -⟩ := ht.holdsAt hx
  obtain ⟨-, -, -, hreductions⟩ := row_of_holdsAt hrow
  exact ⟨_, List.mem_of_getElem? hx, hreductions⟩

/-- If forced reductions are plain ones, those that are read from the tables are. -/
theorem LaidOut.isStay_forced (ht : t.LaidOut a)
    (hforced : ∀ x ∈ a.states, ∀ y ∈ x.forcedReduce, y.IsPlain) (state : Nat) :
    ActionWord.isStay (t.row state).forcedReduce = false := by
  cases hstate : t.hasState state with
  | false =>
      rw [row_of_not_hasState hstate]
      rfl
  | true =>
      obtain ⟨x, hx, -, heq⟩ := ht.exists_row hstate
      rw [heq]
      cases hy : x.forcedReduce with
      | none => rfl
      | some y => exact (hforced x hx y hy).isStay_code

/-- Where default reductions have words of 32 bits, all actions of a state have. -/
theorem LaidOut.lt_of_mem_allActions (ht : t.LaidOut a)
    (hdefault : ∀ x ∈ a.states, ∀ y ∈ x.defaultReduce, y.code < 4294967296) {state word : Nat}
    (h : word ∈ t.allActions state) : word < 4294967296 := by
  unfold allActions at h
  split at h
  · rename_i hstate
    rcases List.mem_append.1 h with h | h
    · split at h
      · obtain rfl := List.mem_singleton.1 h
        obtain ⟨x, hx, heq, -⟩ := ht.exists_row hstate
        rw [heq]
        cases hy : x.defaultReduce with
        | none => decide
        | some y => exact hdefault x hx y hy
      · cases h
    · obtain ⟨e, he, rfl⟩ := List.mem_map.1 h
      exact word_lt_of_mem_actionListF ht.narrow_data e he
  · cases h

end Tables

namespace Stack

variable {p : Parser} {s : Stack}

/-! ### Reductions that land -/

/-- A reduction of at least one symbol that does not return to the state below, and that goes to a
state by a goto of its own: one of the frame that it leaves on top. -/
structure Lands (p : Parser) (s : Stack) (word : Nat) (f : Frame) (state : Nat) : Prop where
  isStay : ActionWord.isStay word = false
  le_depth : 1 ≤ ActionWord.depth word
  frame : s.frames.get? (ActionWord.depth word - 1) = some f
  goto : p.tables.goto? f.state (ActionWord.value word) false = some state

theorem exists_lands {word : Nat} (hstay : ActionWord.isStay word = false)
    (hdepth : 1 ≤ ActionWord.depth word)
    (hfits : ((s.frames.get? (ActionWord.depth word - 1)).any fun f =>
      (p.tables.goto? f.state (ActionWord.value word) false).isSome) = true) :
    ∃ f state, s.Lands p word f state := by
  obtain ⟨f, hf, hgoto⟩ := (Option.any_eq_true _ _).1 hfits
  obtain ⟨state, hstate⟩ := Option.isSome_iff_exists.1 hgoto
  exact ⟨f, state, hstay, hdepth, hf, hstate⟩

/-- A reduction of some state with the symbols taken off its depth that have to be shifted before:
at least two symbols are left for it, and a frame has a goto of its own for it. -/
def IsShortened (p : Parser) (s : Stack) (found : Nat) : Prop :=
  ∃ state word shifted, word ∈ p.tables.allActions state ∧
    1 < ActionWord.depth word - shifted ∧
    ((s.frames.get? (ActionWord.depth word - shifted - 1)).any fun f =>
      (p.tables.goto? f.state (ActionWord.value word) false).isSome) = true ∧
    found = ActionWord.reduction (ActionWord.value word) (ActionWord.depth word - shifted)

/-- **What is found by looking ahead** is a shortened reduction. -/
theorem isShortened_of_exploreF (fuel : Nat) {depth state found : Nat} {seen : List Nat}
    (h : (exploreF p s fuel depth seen state).1 = some found) : s.IsShortened p found := by
  induction fuel generalizing depth state seen found with
  | zero => cases h
  | succ fuel ih =>
      rw [exploreF] at h
      split at h
      · cases h
      · -- what is found while the actions of the state are looked through
        refine List.foldlRecOn (motive := fun acc : Option Nat × List Nat =>
          ∀ found, acc.1 = some found → s.IsShortened p found) _ _ (by simp)
          (fun acc hacc word hword => ?_) found h
        split
        · exact hacc
        · split
          · exact hacc
          · split
            · simp only
              split
              · rename_i hfits
                rw [Bool.and_eq_true, decide_eq_true_eq] at hfits
                intro found hfound
                obtain rfl := Option.some.inj hfound
                exact ⟨state, word, depth, hword, hfits.1, hfits.2, rfl⟩
              · exact hacc
            · exact fun found hfound => ih hfound

/-- A shortened reduction is one that lands, if words have 32 bits. -/
theorem IsShortened.lands {found : Nat} (h : s.IsShortened p found)
    (hwords : ∀ state, ∀ word ∈ p.tables.allActions state, word < 4294967296) :
    ∃ f state, s.Lands p found f state := by
  obtain ⟨state, word, shifted, hword, hleft, hfits, rfl⟩ := h
  have hlt := hwords state word hword
  have hdepth : ActionWord.depth (ActionWord.reduction (ActionWord.value word)
      (ActionWord.depth word - shifted)) = ActionWord.depth word - shifted := by
    refine Action.depth_code_reduce _ ?_
    rw [ActionWord.depth]
    omega
  have hvalue : ActionWord.value (ActionWord.reduction (ActionWord.value word)
      (ActionWord.depth word - shifted)) = ActionWord.value word :=
    Action.value_code_reduce _ (Nat.mod_lt _ (by decide))
  refine exists_lands (ActionWord.isStay_reduction _ _) ?_ ?_
  · omega
  · rw [hdepth, hvalue]
    exact hfits

/-- **A reduction that the tables do not allow lands**, if a stack leaves its rule by it. -/
theorem lands_of_forcedWord? {a : Automaton} {word : Nat} (ht : p.tables.LaidOut a)
    (hforced : ∀ x ∈ a.states, ∀ y ∈ x.forcedReduce, y.IsPlain)
    (hdefault : ∀ x ∈ a.states, ∀ y ∈ x.defaultReduce, y.code < 4294967296)
    (h : s.forcedWord? p = some (word, false)) : ∃ f state, s.Lands p word f state := by
  unfold forcedWord? at h
  simp only at h
  split at h
  · cases h
  · split at h
    · cases h
    · split at h
      · rename_i hreachable
        obtain ⟨rfl, -⟩ := Prod.mk.inj (Option.some.inj h)
        rw [isReachable, Bool.and_eq_true, decide_eq_true_eq] at hreachable
        exact exists_lands (ht.isStay_forced hforced s.state) hreachable.1 hreachable.2
      · obtain ⟨found, hfound, heq⟩ := Option.map_eq_some_iff.1 h
        obtain ⟨rfl, -⟩ := Prod.mk.inj heq
        exact (isShortened_of_exploreF _ hfound).lands fun state word hword =>
          ht.lt_of_mem_allActions hdefault hword

/-! ### The stack after a reduction -/

/-- A reduction adds the precedence of its term to the score, and nothing else. -/
theorem score_reduce (p : Parser) (word : Nat) (s : Stack) (env : Env) :
    (s.reduce p word env).1.score = s.score + p.precedenceOf (ActionWord.value word) := by
  rw [reduce, ← score_beginReduce p (ActionWord.value word) s]
  split
  · rw [reduceEmpty, score_changeContext]
    split
    · rw [score_addNode]
      rfl
    · rfl
  · rw [reduceSome, score_changeContext]
    dsimp only
    split
    · rw [score_addNode]
    · rfl

/-- The frames that a reduction of at least one symbol leaves. -/
theorem frames_reduce {word : Nat} (hstay : ActionWord.isStay word = false)
    (hdepth : 1 ≤ ActionWord.depth word) (p : Parser) (s : Stack) (env : Env) :
    (s.reduce p word env).1.frames = s.frames.drop (ActionWord.depth word - 1) := by
  rw [reduce, if_neg (by omega), reduceSome, frames_changeContext]
  dsimp only
  rw [popCount_of_not_stay hstay, frames_beginReduce]

/-- **The stack after a reduction that lands.** -/
theorem Lands.reduce {word state : Nat} {f : Frame} (h : s.Lands p word f state) (env : Env) :
    (s.reduce p word env).1.state = state ∧
      (s.reduce p word env).1.frames = s.frames.drop (ActionWord.depth word - 1) := by
  have hframes := frames_reduce h.isStay h.le_depth p s env
  refine ⟨?_, hframes⟩
  have hframe : (s.frames.items.drop (ActionWord.depth word - 1)).head? = some f := by
    rw [List.head?_drop]
    exact h.frame
  rw [state_reduce h.isStay, below, hframes, Pile.items_drop, Grammar.gotoFrom, List.head?_map,
    hframe]
  simp [Grammar.gotoState, (Tables.goto?_loose h.goto).1]

/-! ### Leaving a rule -/

/-- Only the forced reduction itself may be one that the tables allow. -/
theorem allowed_of_forcedWord? {word : Nat} (h : s.forcedWord? p = some (word, true)) :
    p.tables.allowsAction s.state (p.tables.row s.state).forcedReduce = true := by
  unfold forcedWord? at h
  simp only at h
  split at h
  · cases h
  · split at h
    · assumption
    · split at h
      · cases h
      · obtain ⟨found, -, heq⟩ := Option.map_eq_some_iff.1 h
        cases heq

/-- A stack catches up with its frames, at the price of a reduction that is not allowed. -/
theorem caughtUp_false (p : Parser) (s : Stack) :
    (s.caughtUp p false).frames = s.frames ∧
      (s.caughtUp p false).score = s.score - p.tuning.reducePenalty := by
  simp [caughtUp, storeError]

/-- **Leaving a rule leads to the goto that was looked for.**  The forced reductions of the tables
are plain ones, and words have 32 bits.  A stack that finds no way out of its rule stays as it is.
If there is a way that the tables do not allow, it is a reduction of at least one symbol; the frame
that it leaves on top has a goto of its own for the term, the stack is in the state that this goto
leads to, with the frames from that one on, and its score is less by the penalty and more by the
precedence of the term.  A machine gives the same stack exactly if the score fits after either
change. -/
theorem leaveRule_lands {a : Automaton} (ht : p.tables.LaidOut a)
    (hforced : ∀ x ∈ a.states, ∀ y ∈ x.forcedReduce, y.IsPlain)
    (hdefault : ∀ x ∈ a.states, ∀ y ∈ x.defaultReduce, y.code < 4294967296) (s : Stack)
    (env : Env) :
    (∀ r, s.leaveRule p env = (false, r) →
      r = (s, env) ∧ s.leaveRuleChecked p env = some (false, s, env)) ∧
    ∀ r, s.leaveRule p env = (true, r) →
      p.tables.allowsAction s.state (p.tables.row s.state).forcedReduce = false →
      ∃ word f, r = reduce p word (s.caughtUp p false) env ∧
        1 ≤ ActionWord.depth word ∧ s.frames.get? (ActionWord.depth word - 1) = some f ∧
        p.tables.goto? f.state (ActionWord.value word) false = some r.1.state ∧
        r.1.state ≠ noState ∧ r.1.frames = s.frames.drop (ActionWord.depth word - 1) ∧
        r.1.score = s.score - p.tuning.reducePenalty + p.precedenceOf (ActionWord.value word) ∧
        s.leaveRuleChecked p env =
          if Score.Fits (s.score - p.tuning.reducePenalty) ∧ Score.Fits r.1.score then
            some (true, r)
          else none := by
  refine ⟨fun r hr => ?_, fun r hr hnot => ?_⟩
  · obtain ⟨hnone, rfl⟩ := leaveRule_eq_false hr
    exact ⟨rfl, by rw [leaveRuleChecked, hnone]⟩
  · obtain ⟨word, allowed, hword, rfl⟩ := leaveRule_eq_true hr
    obtain rfl : allowed = false := by
      cases allowed with
      | false => rfl
      | true => rw [allowed_of_forcedWord? hword] at hnot; cases hnot
    obtain ⟨f, state, hlands⟩ := lands_of_forcedWord? ht hforced hdefault hword
    obtain ⟨hcaught, hpaid⟩ := caughtUp_false p s
    have hlands' : (s.caughtUp p false).Lands p word f state :=
      ⟨hlands.isStay, hlands.le_depth, hcaught ▸ hlands.frame, hlands.goto⟩
    obtain ⟨hstate, hframes⟩ := hlands'.reduce env
    rw [hcaught] at hframes
    refine ⟨word, f, rfl, hlands.le_depth, hlands.frame, ?_, ?_, hframes, ?_, ?_⟩
    · rw [hstate]
      exact hlands.goto
    · rw [hstate]
      exact ht.goto?_ne hlands.goto
    · rw [score_reduce, hpaid]
    · rw [leaveRuleChecked, hword]
      simp only [hpaid]

/-- A rule of three symbols.  After the first of them the tables name a reduction of what has been
read; after the second they name one that leads nowhere. -/
def threeSymbols : Automaton where
  states :=
    [{ actions := [(5, .shift 1)] },
     { actions := [(6, .shift 2)], forcedReduce := some (.reduce 1 1) },
     { actions := [(7, .shift 3)], forcedReduce := some (.reduceRepeat 2 1) },
     { defaultReduce := some (.reduce 1 3), forcedReduce := some (.reduce 1 3) },
     { accepting := true }]
  gotos := [(0, 1, 4)]

/-- A parser for this rule, which prefers it. -/
def threeParser : Parser :=
  { Parse.pairParser with
    tables :=
      ⟨(layOutStates threeSymbols.states {}).1.toArray,
        (layOutStates threeSymbols.states {}).2.slots ++ #[listEnd],
        (gotoSlots threeSymbols.gotos).toArray⟩
    dynamicPrecedences := .ofList [(1, 7)] }

/-- A stack of this parser after some symbols. -/
def afterSymbols (state : Nat) (frames : List Frame) : Stack :=
  { Stack.start threeParser 0 with
    state, pos := state, reducePos := state, frames := .ofItems frames }

/-- After the first symbol the reduction is the one of the tables, and after the second it is the
one of the whole rule without the symbol that is missing. -/
theorem leaveRule_lands_three :
    threeParser.tables.LaidOut threeSymbols ∧
      (afterSymbols 1 [⟨0, 0, 0⟩]).forcedWord? threeParser =
        some (ActionWord.reduction 1 1, false) ∧
      (afterSymbols 2 [⟨1, 1, 0⟩, ⟨0, 0, 0⟩]).forcedWord? threeParser =
        some (ActionWord.reduction 1 2, false) ∧
      ∀ s ∈ [afterSymbols 1 [⟨0, 0, 0⟩], afterSymbols 2 [⟨1, 1, 0⟩, ⟨0, 0, 0⟩]],
        ∃ r word f, s.leaveRule threeParser pairEnv = (true, r) ∧
          s.frames.get? (ActionWord.depth word - 1) = some f ∧
          threeParser.tables.goto? f.state (ActionWord.value word) false = some r.1.state ∧
          r.1.score =
            s.score - threeParser.tuning.reducePenalty +
              threeParser.precedenceOf (ActionWord.value word) ∧
          s.leaveRuleChecked threeParser pairEnv = some (true, r) := by
  have ht : threeParser.tables.LaidOut threeSymbols := ⟨rfl, rfl, rfl⟩
  have hforced : ∀ x ∈ threeSymbols.states, ∀ y ∈ x.forcedReduce, y.IsPlain := by
    simp [threeSymbols, Action.IsPlain]
  have hdefault : ∀ x ∈ threeSymbols.states, ∀ y ∈ x.defaultReduce, y.code < 4294967296 := by
    simp [threeSymbols, Action.code, ActionWord.reduction]
  have hone : (afterSymbols 1 [⟨0, 0, 0⟩]).forcedWord? threeParser =
      some (ActionWord.reduction 1 1, false) := by decide +kernel
  have htwo : (afterSymbols 2 [⟨1, 1, 0⟩, ⟨0, 0, 0⟩]).forcedWord? threeParser =
      some (ActionWord.reduction 1 2, false) := by decide +kernel
  have hleft : ∀ s ∈ [afterSymbols 1 [⟨0, 0, 0⟩], afterSymbols 2 [⟨1, 1, 0⟩, ⟨0, 0, 0⟩]],
      ((s.leaveRule threeParser pairEnv).1 = true ∧ s.score = 0 ∧
          Score.Fits (s.leaveRule threeParser pairEnv).2.1.score) ∧
        threeParser.tables.allowsAction s.state
          (threeParser.tables.row s.state).forcedReduce = false :=
    List.forall_mem_cons.2 ⟨by decide +kernel, List.forall_mem_singleton.2 (by decide +kernel)⟩
  refine ⟨ht, hone, htwo, fun s hs => ?_⟩
  obtain ⟨⟨htrue, hzero, hfits⟩, hnot⟩ := hleft s hs
  obtain ⟨word, f, -, -, hframe, hgoto, -, -, hscore, hchecked⟩ :=
    (leaveRule_lands ht hforced hdefault s pairEnv).2 _ (Prod.ext htrue rfl) hnot
  rw [if_pos ⟨by rw [hzero]; decide, hfits⟩] at hchecked
  exact ⟨_, word, f, Prod.ext htrue rfl, hframe, hgoto, hscore, hchecked⟩

/-- The parser for the rule of three symbols, which avoids the rule as much as it can. -/
def reluctantParser : Parser :=
  { threeParser with dynamicPrecedences := .ofList [(1, -2147483648)] }

/-- **A rule that a machine cannot leave.**  The stack has no repairs yet; the penalty and the
precedence of the rule together do not fit. -/
theorem leaveRuleChecked_halts :
    reluctantParser.tables.LaidOut threeSymbols ∧
      (∀ x ∈ threeSymbols.states, ∀ y ∈ x.forcedReduce, y.IsPlain) ∧
      (afterSymbols 1 [⟨0, 0, 0⟩]).score = 0 ∧
      Score.Fits (reluctantParser.precedenceOf 1) ∧
      (afterSymbols 1 [⟨0, 0, 0⟩]).forcedWord? reluctantParser =
        some (ActionWord.reduction 1 1, false) ∧
      (afterSymbols 1 [⟨0, 0, 0⟩]).leaveRuleChecked reluctantParser pairEnv = none := by
  have hforced : ∀ x ∈ threeSymbols.states, ∀ y ∈ x.forcedReduce, y.IsPlain := by
    simp [threeSymbols, Action.IsPlain]
  exact ⟨⟨rfl, rfl, rfl⟩, hforced, rfl, by decide +kernel, by decide +kernel, by decide +kernel⟩

end Stack

end IncrementalLR
