/-
**Parsers that make settled moves only.**

A reduction is settled if no text was skipped since the last symbol ended.  That can be read off the
tables: if no state both skips tokens and reduces, a stack in a state that reduces has just shifted
or reduced.  A stack that is started over may have skipped text before, so the state that it returns
to must not reduce either.

Main definitions:

* `Parser.isSteady` — the check of the tables;
* `Stack.root` — the state that a stack returns to when it is started over;
* `Stack.Calm` — what a steady parser keeps of its stacks.

Main results:

* `Stack.Move.calm` — every move of a steady parser is settled;
* `Stack.Reached.settled_of_steady` — **the stacks of a steady parser are those of settled moves**.
-/

import IncrementalLR.Proofs.Driver
import IncrementalLR.Proofs.NestingMoves

set_option relaxedAutoImplicit false
set_option autoImplicit false

namespace IncrementalLR

/-! ### Steady tables -/

namespace Tables

/-- Whether a state has a reduction. -/
def reduces (t : Tables) (state : Nat) : Bool :=
  0 < (t.row state).defaultReduce || (t.words state).any fun w => ActionWord.isReduce w.2

theorem Reduces.reduces {t : Tables} {state word : Nat} (h : t.Reduces state word) :
    t.reduces state = true := by
  unfold Tables.reduces
  rw [Bool.or_eq_true, decide_eq_true_eq, List.any_eq_true]
  rcases h with ⟨hpos, rfl⟩ | ⟨hreduce, term, hgiven | hgiven⟩
  · exact Or.inl hpos
  · exact Or.inr ⟨_, hgiven, hreduce⟩
  · exact Or.inr ⟨_, hgiven, hreduce⟩

/-- Whether all shifts of a state consume their tokens, which are not the end of the input, and skip
none if the state reduces. -/
def isSteadyAt (t : Tables) (eof state : Nat) : Bool :=
  (t.words state).all fun w =>
    ActionWord.isReduce w.2 ||
      (!ActionWord.isGoto w.2 && !(t.reduces state && ActionWord.isStay w.2) && w.1.any (· ≠ eof))

theorem isSteadyAt_shift {t : Tables} {eof state term word : Nat}
    (h : t.isSteadyAt eof state = true) (hgiven : t.Gives state term word)
    (hword : ActionWord.isReduce word = false) :
    ActionWord.isGoto word = false ∧ term ≠ eof ∧
      (ActionWord.isStay word = true → t.reduces state = false) := by
  have key : ∀ o : Option Nat, (o, word) ∈ t.words state → ActionWord.isGoto word = false ∧
      (ActionWord.isStay word = true → t.reduces state = false) ∧ o.any (· ≠ eof) = true := by
    intro o ho
    have hchecked := List.all_eq_true.1 h _ ho
    simp only [hword, Bool.false_or, Bool.and_eq_true, Bool.not_eq_true', Bool.and_eq_false_imp]
      at hchecked
    refine ⟨hchecked.1.1, fun hstay => ?_, hchecked.2⟩
    cases hreduces : t.reduces state with
    | false => rfl
    | true => rw [hchecked.1.2 hreduces] at hstay; cases hstay
  rcases hgiven with hgiven | hgiven
  · obtain ⟨h₁, h₂, h₃⟩ := key _ hgiven
    exact ⟨h₁, by simpa using h₃, h₂⟩
  · cases (key _ hgiven).2.2

end Tables

/-- Whether no state of a parser both skips and reduces, no shift leaves skipped text behind, and
the state to start over in does not reduce. -/
def Parser.isSteady (p : Parser) : Bool :=
  !p.tables.reduces p.top.1 && !p.tables.reduces noState &&
    (List.range p.tables.stateCount).all (p.tables.isSteadyAt p.eofTerm)

theorem Parser.isSteadyAt_of_isSteady {p : Parser} (h : p.isSteady = true) (state : Nat) :
    p.tables.isSteadyAt p.eofTerm state = true := by
  simp only [isSteady, Bool.and_eq_true, List.all_eq_true, List.mem_range] at h
  by_cases hstate : state < p.tables.stateCount
  · exact h.2 state hstate
  · have hwords : p.tables.words state = [] := by
      simp [Tables.words, Tables.hasState, hstate]
    simp [Tables.isSteadyAt, hwords]

namespace Stack

/-! ### The state to start over in -/

/-- The state that a stack returns to when it is started over. -/
def root (s : Stack) : Nat := (s.frames.items.getLast?.map (·.state)).getD s.state

theorem root_congr {s s' : Stack} (hframes : s'.frames = s.frames) (hstate : s'.state = s.state) :
    s'.root = s.root := by
  rw [root, root, hframes, hstate]

@[simp] theorem root_pushState (s : Stack) (state start : Nat) :
    (s.pushState state start).root = s.root := by
  simp only [root, pushState, Pile.items_push, List.getLast?_cons, Option.map_some,
    Option.getD_some]
  cases s.frames.items.getLast? with
  | none => rfl
  | some f => rfl

/-- A reduction of more symbols than there are leaves no state. -/
theorem root_reduceSome (p : Parser) (word : Nat) (s : Stack) (env : Env) :
    (s.reduceSome p word env).1.root = s.root ∨ (s.reduceSome p word env).1.root = noState := by
  have hframes : (s.reduceSome p word env).1.frames = s.frames.drop (popCount word) := by
    simp [reduceSome]
  have hstate : (s.reduceSome p word env).1.state =
      s.stateAfter p word (s.frames.drop (popCount word)) := by
    simp [reduceSome]
  rw [root, root, hframes, hstate, Pile.items_drop, List.getLast?_drop]
  have hsize := s.frames.size_eq
  split
  · -- all frames are dropped; a reduction that stays returns to the state below them
    rename_i hall
    have hdrop : s.frames.items.drop (popCount word) = [] := List.drop_eq_nil_of_le hall
    simp only [Option.map_none, Option.getD_none, stateAfter, Pile.top?, Pile.items_drop, hdrop,
      List.head?_nil, Pile.get?]
    split
    · rw [Nat.min_eq_right (by omega), hsize, ← List.getLast?_eq_getElem?]
      cases s.frames.items.getLast? with
      | none => exact Or.inr rfl
      | some f => exact Or.inl rfl
    · exact Or.inr rfl
  · cases hlast : s.frames.items.getLast? with
    | none =>
        rename_i hsome
        rw [List.getLast?_eq_none_iff.1 hlast] at hsome
        simp at hsome
    | some f => exact Or.inl rfl

theorem root_beginReduce (p : Parser) (term : Nat) (s : Stack) :
    (s.beginReduce p term).root = s.root := by
  unfold beginReduce raiseLookAhead markLookAhead
  refine root_congr ?_ ?_ <;> simp only <;> split <;> (try split) <;> simp

theorem root_reduce (p : Parser) (word : Nat) (s : Stack) (env : Env) :
    (s.reduce p word env).1.root = s.root ∨ (s.reduce p word env).1.root = noState := by
  unfold reduce
  simp only
  rw [← root_beginReduce p (ActionWord.value word) s]
  split
  · refine Or.inl ?_
    unfold reduceEmpty
    simp only
    refine (root_congr (frames_changeContext ..) (state_changeContext ..)).trans ?_
    split
    · exact (root_congr (frames_addNode ..) (state_addNode ..)).trans (root_pushState ..)
    · exact root_pushState ..
  · exact root_reduceSome ..

theorem root_shift (p : Parser) (word term start stop : Nat) (s : Stack) (env : Env) :
    (s.shift p word term start stop env).1.root = s.root := by
  have hrecord : ∀ s' : Stack, (s'.recordToken p term start stop).root = s'.root := by
    intro s'
    unfold recordToken
    split
    · rfl
    · rfl
  unfold shift
  split
  · exact root_pushState ..
  · split
    · rw [hrecord]
      exact root_congr (frames_changeContext ..) (state_changeContext ..)
    · rw [hrecord]
      refine (root_congr (frames_changeContext ..) (state_changeContext ..)).trans ?_
      rw [root_pushState]
      split
      · split
        · rfl
        · rfl
      · rfl

/-! ### Where the last symbol ends -/

/-- A reduction does not change where the last symbol ends. -/
theorem reducePos_reduce {p : Parser} (htracker : p.tracker = none) (word : Nat) (s : Stack)
    (env : Env) : (s.reduce p word env).1.reducePos = s.reducePos := by
  have hbegin := reducePos_beginReduce p (ActionWord.value word) s
  unfold reduce reduceEmpty reduceSome
  simp only [changeContext_of_none htracker]
  split
  · split
    · rw [reducePos_addNode]
      exact hbegin
    · exact hbegin
  · split
    · rw [reducePos_addNode]
      exact hbegin
    · exact hbegin

/-! ### Calm stacks -/

/-- A stack of a steady parser: no text was skipped before a state that reduces, and it would be
started over in the first state, or in none. -/
structure Calm (p : Parser) (s : Stack) : Prop where
  caughtUp : p.tables.reduces s.state = true → s.reducePos = s.pos
  root : s.root = p.top.1 ∨ s.root = noState

theorem calm_start (p : Parser) (pos : Nat) : Calm p (Stack.start p pos) :=
  ⟨fun _ => rfl, Or.inl rfl⟩

namespace Calm

variable {p : Parser} {s s' : Stack}

theorem congr (h : Calm p s) (hframes : s'.frames = s.frames) (hstate : s'.state = s.state)
    (hreduce : s'.reducePos = s.reducePos) (hpos : s'.pos = s.pos) : Calm p s' := by
  refine ⟨fun hs => ?_, ?_⟩
  · rw [hreduce, hpos]
    exact h.caughtUp (hstate ▸ hs)
  · rw [root_congr hframes hstate]
    exact h.root

theorem of_eq (h : Calm p s) (heq : s'.reducePos = s'.pos)
    (hroot : s'.root = s.root ∨ s'.root = noState) : Calm p s' := by
  refine ⟨fun _ => heq, ?_⟩
  rcases hroot with hroot | hroot
  · exact hroot ▸ h.root
  · exact Or.inr hroot

protected theorem reduce (htracker : p.tracker = none) (h : Calm p s) {word : Nat} {env : Env}
    (heq : s.reducePos = s.pos) : Calm p (s.reduce p word env).1 := by
  refine h.of_eq ?_ (root_reduce ..)
  rw [reducePos_reduce htracker, pos_reduce]
  exact heq

protected theorem storeError (h : Calm p s) : Calm p s.storeError := by
  obtain ⟨own, heq⟩ := s.addNode_eq errorTerm s.pos s.pos 4 true
  rw [show s.storeError = _ from heq]
  exact h.congr rfl rfl rfl rfl

protected theorem freeze (h : Calm p s) (id : Nat) : Calm p (s.freeze id) := by
  refine h.congr ?_ (state_freeze s id) ?_ (pos_freeze s id)
  · unfold Stack.freeze
    simp only
    split <;> rfl
  · unfold Stack.freeze
    simp only
    split <;> rfl

/-- A shift that consumes a token catches up; one that skips it leaves a state that does not
reduce. -/
protected theorem shift (htracker : p.tracker = none)
    (hrows : ∀ state, (p.tables.row state).isSkipped = false) (h : Calm p s)
    {word term start stop : Nat} (env : Env) (hgoto : ActionWord.isGoto word = false)
    (hstay : ActionWord.isStay word = true → p.tables.reduces s.state = false)
    (hlt : s.pos < stop) : Calm p (s.shift p word term start stop env).1 := by
  have hroot := root_shift p word term start stop s env
  refine ⟨?_, hroot ▸ h.root⟩
  have hrecord : ∀ s' : Stack, (s'.recordToken p term start stop).state = s'.state ∧
      (s'.recordToken p term start stop).reducePos = s'.reducePos := by
    intro s'
    unfold recordToken
    split
    · exact ⟨rfl, rfl⟩
    · exact ⟨rfl, rfl⟩
  unfold Stack.shift
  simp only [changeContext_of_none htracker, hgoto, Bool.false_eq_true, if_false, hrows, hlt,
    decide_true, Bool.true_or, if_true]
  split
  · rename_i hskip
    intro hreduces
    rw [(hrecord _).1, hstay hskip] at hreduces
    cases hreduces
  · intro _
    rw [(hrecord _).2, pos_recordToken]
    rfl

protected theorem leaveRule (htracker : p.tracker = none) (h : Calm p s) {env : Env}
    {r : Stack × Env} (hr : s.leaveRule p env = (true, r)) : Calm p r.1 := by
  have hcaught : ∀ s' : Stack, Calm p s' → Calm p { s' with reducePos := s'.pos } :=
    fun s' h' => h'.of_eq rfl (Or.inl rfl)
  obtain ⟨word, allowed, -, rfl⟩ := Stack.leaveRule_eq_true hr
  refine Calm.reduce htracker (hcaught _ ?_) rfl
  cases allowed with
  | true => exact h
  | false => exact h.storeError.congr rfl rfl rfl rfl

protected theorem insertToken (htracker : p.tracker = none) (h : Calm p s) (term state : Nat)
    (env : Env) : Calm p (s.insertToken p term state env).1 := by
  refine h.of_eq ?_ (Or.inl ?_)
  · rw [pos_insertToken]
    rfl
  · unfold Stack.insertToken Stack.storeError
    simp only [changeContext_of_none htracker]
    exact (root_congr (frames_addNode ..) (state_addNode ..)).trans (root_pushState ..)

protected theorem deleteToken (h : Calm p s) (term stop : Nat) :
    Calm p (s.deleteToken p term stop) := by
  refine h.of_eq rfl (Or.inl (root_congr ?_ ?_))
  · unfold Stack.deleteToken
    simp only [frames_addNode]
    split <;> simp
  · unfold Stack.deleteToken
    simp only [state_addNode]
    split <;> simp

/-- A stack that is started over is in a state that does not reduce. -/
protected theorem restart (hsteady : p.isSteady = true) (h : Calm p s) : Calm p s.restart := by
  have hroot : s.restart.root = s.storeError.root := rfl
  have hstored := h.storeError.root
  refine ⟨fun hreduces => ?_, hroot ▸ hstored⟩
  rw [show s.restart.state = s.storeError.root from rfl] at hreduces
  simp only [Parser.isSteady, Bool.and_eq_true, Bool.not_eq_true'] at hsteady
  rcases hstored with heq | heq
  · rw [heq, hsteady.1.1] at hreduces
    cases hreduces
  · rw [heq, hsteady.1.2] at hreduces
    cases hreduces

end Calm

/-! ### Steady parsers -/

/-- **Every move of a steady parser is settled**, and leaves its stack calm. -/
theorem Move.calm {g : Setting} {s s' : Stack} (hg : g.IsPlain)
    (hsteady : g.parser.isSteady = true) (hne : g.parser.NeverEmpty) (htidy : s.Tidy g)
    (h : s.Calm g.parser) (hm : Move g .free s s') :
    Move g (settled g.parser) s s' ∧ s'.Calm g.parser := by
  cases hm with
  | split env => exact ⟨.split s env, h.freeze _⟩
  | look pos =>
      obtain ⟨own, lookAhead, heq⟩ := s.raiseLookAhead_eq pos
      exact ⟨.look s pos, heq ▸ h.congr rfl rfl rfl rfl⟩
  | reduce henv hreduces =>
      -- a state that reduces has skipped nothing
      have heq := h.caughtUp hreduces.reduces
      exact ⟨.reduce henv hreduces (htidy.settled_reduce hg heq _), h.reduce hg.tracker heq⟩
  | shift hoffer hword =>
      obtain ⟨hgoto, heof, hstay⟩ := Tables.isSteadyAt_shift
        (Parser.isSteadyAt_of_isSteady hsteady s.state) hoffer.given hword
      have hlt := (hoffer.nonempty hg.whole hne).resolve_right heof
      refine ⟨.shift hoffer hword ?_, h.shift hg.tracker hg.rows _ hgoto hstay hlt⟩
      simp only [settled, hgoto, Bool.false_eq_true, if_false]
      exact Or.inr (Or.inl hlt)
  | leave henv hr => exact ⟨.leave henv hr, h.leaveRule hg.tracker hr⟩
  | insert => exact ⟨.insert, h.insertToken hg.tracker _ _ _⟩
  | delete hlt hle => exact ⟨.delete hlt hle, h.deleteToken _ _⟩
  | error => exact ⟨.error s, h.storeError⟩
  | restart => exact ⟨.restart s, h.restart hsteady⟩

/-- **The stacks of a steady parser are those of settled moves.** -/
theorem Reached.settled_of_steady {g : Setting} {s : Stack} (hfits : g.Fits) (hg : g.IsPlain)
    (hsteady : g.parser.isSteady = true) (hne : g.parser.NeverEmpty) (h : s.Known g) :
    s.Reached g (settled g.parser) ∧ s.Calm g.parser := by
  induction h with
  | start => exact ⟨.start, calm_start _ _⟩
  | move _ hm ih =>
      obtain ⟨hmove, hcalm⟩ := hm.calm hg hsteady hne (ih.1.tidy hfits hg) ih.2
      exact ⟨ih.1.move hmove, hcalm⟩

end Stack

end IncrementalLR
