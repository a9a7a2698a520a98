/-
**What a parse does to its stacks.**

All that ever happens to a stack of a parse without fragments is one of a few moves: it is split, is
shown how far tokens looked, reduces, shifts, or is repaired.  `Stack.Move` lists them, together
with what is known where a parse makes them, so that a property of stacks is proved one move at a
time and holds for every stack that a parse ever follows.

A move may be put under a condition, a `Guard`; a parse in general makes its moves without any.

Main definitions:

* `Setting` — what stays the same during a parse;
* `Tables.Gives`, `Tables.Reduces` — the actions of a state;
* `Guard`, `Stack.Move`, `Stack.Reached` — the moves, and the stacks that they lead to;
* `Env.Follows` — what the moves keep of what the stacks share.

Main results:

* `Stack.Move.pos_le`, `Stack.Reached.pos_le` — stacks never move back, and never past the end.
-/

import IncrementalLR.Proofs.Streams
import IncrementalLR.Stack.Recovery

set_option relaxedAutoImplicit false
set_option autoImplicit false

namespace IncrementalLR

/-- What stays the same during a parse: the parser, the ranges, and where they start and end. -/
structure Setting where
  parser : Parser
  spans : List Span
  lo : Nat
  hi : Nat

/-- All tokenizers of a parser accept tokens by offsets only. -/
def Parser.OnlyAccepts (p : Parser) : Prop := ∀ t ∈ p.tokenizers, ∀ v, (t.scan v).OnlyAccepts

/-- No tokenizer of a parser accepts a token without text. -/
def Parser.NeverEmpty (p : Parser) : Prop := ∀ t ∈ p.tokenizers, t.NeverEmpty

/-- The ranges of a setting fit between its ends. -/
structure Setting.Fits (g : Setting) : Prop where
  lo_le : g.lo ≤ g.hi
  below : Span.AllBelow g.hi g.spans

/-- The parse is of a whole document. -/
def Setting.IsWhole (g : Setting) : Prop := g.lo = 0 ∧ g.spans = [⟨0, g.hi⟩]

/-! ### What the tables give -/

/-- The words of an action list with their terms; the word for other terms has none. -/
def ActionList.words (l : ActionList) : List (Option Nat × Nat) :=
  l.entries.map (fun e => (some e.term, e.word)) ++ l.other.toList.map (none, ·)

namespace Tables

/-- The words of a state for tokens, with their terms. -/
def words (t : Tables) (state : Nat) : List (Option Nat × Nat) :=
  if t.hasState state then
    (t.actionList (t.row state).actions).words ++ (t.actionList (t.row state).skip).words
  else []

/-- A word is an action of a state for a term. -/
def Gives (t : Tables) (state term word : Nat) : Prop :=
  (some term, word) ∈ t.words state ∨ (none, word) ∈ t.words state

/-- A word is the default reduction of a state or a reduction for a term. -/
def Reduces (t : Tables) (state word : Nat) : Prop :=
  0 < word ∧ word = (t.row state).defaultReduce ∨
    ActionWord.isReduce word = true ∧ ∃ term, t.Gives state term word

/-- A check of the rows of all states that there are. -/
theorem not_skipped_of_all {t : Tables}
    (h : (List.range t.stateCount).all (fun state => !(t.row state).isSkipped) = true)
    (state : Nat) : (t.row state).isSkipped = false := by
  simp only [List.all_eq_true, List.mem_range, Bool.not_eq_true'] at h
  by_cases hstate : state < t.stateCount
  · exact h state hstate
  · rw [row_of_not_hasState (by simp [hasState, hstate])]
    rfl

end Tables

/-- What is asked before a stack reduces by a word, or shifts a token that ends at a position. -/
structure Guard where
  reduce : Stack → (word : Nat) → Prop
  shift : Stack → (word term stop : Nat) → Prop

/-- The guard that asks for nothing. -/
def Guard.free : Guard := ⟨fun _ _ => True, fun _ _ _ _ => True⟩

/-! ### What the stacks share -/

/-- What the stacks share after some moves: the start is the same, and the stream is still one over
the ranges. -/
structure Env.Follows (g : Setting) (env : Env) : Prop where
  start : env.start = g.lo
  stream : env.stream.Covers g.spans g.hi

namespace Stack

/-- What is known of a token that a stack shifts by a word.  In a whole document tokens start where
the stack stands, and only the end of the document has no text if no tokenizer accepts such
tokens. -/
structure Offered (g : Setting) (s : Stack) (word term start stop : Nat) : Prop where
  given : g.parser.tables.Gives s.state term word
  le_stop : s.pos ≤ stop
  stop_le : stop ≤ g.hi
  start_eq : g.IsWhole → start = s.pos
  nonempty : g.IsWhole → g.parser.NeverEmpty → s.pos < stop ∨ term = g.parser.eofTerm

/-- One thing that a parse does to a stack. -/
inductive Move (g : Setting) (ok : Guard) : Stack → Stack → Prop
  | split (s : Stack) (env : Env) : Move g ok s (s.split env).1
  | look (s : Stack) (pos : Nat) : Move g ok s (s.raiseLookAhead pos)
  | reduce {s : Stack} {word : Nat} {env : Env} : env.start = g.lo →
      g.parser.tables.Reduces s.state word → ok.reduce s word →
      Move g ok s (s.reduce g.parser word env).1
  | shift {s : Stack} {word term start stop : Nat} {env : Env} : s.Offered g word term start stop →
      ActionWord.isReduce word = false → ok.shift s word term stop →
      Move g ok s (s.shift g.parser word term start stop env).1
  | leave {s : Stack} {r : Stack × Env} {env : Env} : env.start = g.lo →
      s.leaveRule g.parser env = (true, r) → Move g ok s r.1
  | insert {s : Stack} {term state : Nat} {env : Env} :
      Move g ok s (s.insertToken g.parser term state env).1
  | delete {s : Stack} {term stop : Nat} : s.pos < stop → stop ≤ g.hi →
      Move g ok s (s.deleteToken g.parser term stop)
  | error (s : Stack) : Move g ok s s.storeError
  | restart (s : Stack) : Move g ok s s.restart

/-- The stacks that moves lead to from the first one. -/
inductive Reached (g : Setting) (ok : Guard) : Stack → Prop
  | start : Reached g ok (Stack.start g.parser g.lo)
  | move {s s' : Stack} : Reached g ok s → Move g ok s s' → Reached g ok s'

/-! ### States -/

@[simp] theorem state_freeze (s : Stack) (id : Nat) : (s.freeze id).state = s.state := by
  unfold freeze
  simp only
  split <;> rfl

@[simp] theorem state_split (s : Stack) (env : Env) : (s.split env).1.state = s.state :=
  state_freeze s _

@[simp] theorem state_raiseLookAhead (s : Stack) (pos : Nat) :
    (s.raiseLookAhead pos).state = s.state := by
  unfold raiseLookAhead markLookAhead
  split <;> simp

/-! ### Positions -/

@[simp] theorem pos_freeze (s : Stack) (id : Nat) : (s.freeze id).pos = s.pos := by
  unfold freeze
  simp only
  split <;> rfl

@[simp] theorem pos_split (s : Stack) (env : Env) : (s.split env).1.pos = s.pos :=
  pos_freeze s _

@[simp] theorem pos_mark (s : Stack) (id size : Int) : (s.mark id size).pos = s.pos := by
  unfold mark
  split <;> rfl

@[simp] theorem pos_markContext (s : Stack) : s.markContext.pos = s.pos := by
  unfold markContext
  split <;> simp

@[simp] theorem pos_raiseLookAhead (s : Stack) (pos : Nat) :
    (s.raiseLookAhead pos).pos = s.pos := by
  unfold raiseLookAhead markLookAhead
  split <;> simp

@[simp] theorem pos_setContext (t : Tracker) (value : Int) (s : Stack) :
    (s.setContext t value).pos = s.pos := by
  unfold setContext
  simp only
  split <;> simp

@[simp] theorem pos_changeContext (p : Parser) (change : ContextChange) (start : Nat) (s : Stack)
    (env : Env) : (s.changeContext p change start env).1.pos = s.pos := by
  unfold changeContext
  split <;> simp

@[simp] theorem pos_extendLast (s : Stack) (stop : Nat) : (s.extendLast stop).pos = s.pos := by
  unfold extendLast
  split <;> rfl

@[simp] theorem pos_appendNode (s : Stack) (r : Record) (sink : Bool) :
    (s.appendNode r sink).pos = s.pos := by
  unfold appendNode
  split <;> rfl

@[simp] theorem pos_addNode (s : Stack) (term start stop size : Nat) (sink : Bool) :
    (s.addNode term start stop size sink).pos = s.pos := by
  unfold addNode
  simp only
  generalize (if term = errorTerm then s.errorBefore? else none) = previous
  cases previous with
  | none => simp
  | some e =>
      simp only
      split
      · rfl
      · split <;> simp

@[simp] theorem pos_storeError (s : Stack) : s.storeError.pos = s.pos := pos_addNode ..

@[simp] theorem pos_restart (s : Stack) : s.restart.pos = s.pos := pos_storeError s

@[simp] theorem pos_beginReduce (p : Parser) (term : Nat) (s : Stack) :
    (s.beginReduce p term).pos = s.pos := by
  unfold beginReduce
  simp only
  split <;> simp

@[simp] theorem pos_reduceEmpty (p : Parser) (term size : Nat) (s : Stack) (env : Env) :
    (s.reduceEmpty p term size env).1.pos = s.pos := by
  unfold reduceEmpty
  simp only
  split <;> simp [pushState]

@[simp] theorem pos_reduceSome (p : Parser) (word : Nat) (s : Stack) (env : Env) :
    (s.reduceSome p word env).1.pos = s.pos := by
  unfold reduceSome
  simp only [pos_changeContext]
  split <;> simp

/-- A reduction stays where it is. -/
@[simp] theorem pos_reduce (p : Parser) (word : Nat) (s : Stack) (env : Env) :
    (s.reduce p word env).1.pos = s.pos := by
  unfold reduce
  simp only
  split <;> simp

@[simp] theorem pos_recordToken (p : Parser) (term start stop : Nat) (s : Stack) :
    (s.recordToken p term start stop).pos = s.pos := by
  unfold recordToken
  split <;> rfl

/-- A shift stays or goes to the end of its token. -/
theorem pos_shift (p : Parser) (word term start stop : Nat) (s : Stack) (env : Env) :
    (s.shift p word term start stop env).1.pos = s.pos ∨
      (s.shift p word term start stop env).1.pos = stop := by
  unfold shift
  split
  · exact Or.inl rfl
  · split
    · simp
    · simp only [pos_recordToken, pos_changeContext]
      split
      · split <;> exact Or.inr rfl
      · exact Or.inl rfl

@[simp] theorem pos_caughtUp (p : Parser) (allowed : Bool) (s : Stack) :
    (s.caughtUp p allowed).pos = s.pos := by
  cases allowed
  · exact pos_storeError s
  · rfl

theorem pos_leaveRule {p : Parser} {s : Stack} {env : Env} {r : Stack × Env}
    (h : s.leaveRule p env = (true, r)) : r.1.pos = s.pos := by
  obtain ⟨word, allowed, -, rfl⟩ := leaveRule_eq_true h
  rw [pos_reduce, pos_caughtUp]

@[simp] theorem pos_insertToken (p : Parser) (term state : Nat) (s : Stack) (env : Env) :
    (s.insertToken p term state env).1.pos = s.pos := by
  unfold insertToken
  simp [pushState]

@[simp] theorem pos_deleteToken (p : Parser) (term stop : Nat) (s : Stack) :
    (s.deleteToken p term stop).pos = stop := rfl

/-- Stacks never move back, and never past the end. -/
theorem Move.pos_le {g : Setting} {ok : Guard} {s s' : Stack} (h : Move g ok s s')
    (hs : s.pos ≤ g.hi) : s.pos ≤ s'.pos ∧ s'.pos ≤ g.hi := by
  cases h with
  | split | look | reduce | insert | error | restart => simpa using hs
  | shift hoffer =>
      have h₁ := hoffer.le_stop
      have h₂ := hoffer.stop_le
      rcases pos_shift _ _ _ _ _ s _ with heq | heq
      · rw [heq]
        exact ⟨Nat.le_refl _, hs⟩
      · rw [heq]
        exact ⟨h₁, h₂⟩
  | leave _ hr =>
      rw [pos_leaveRule hr]
      exact ⟨Nat.le_refl _, hs⟩
  | delete hlt hle => exact ⟨Nat.le_of_lt hlt, hle⟩

/-- Every stack stands between the start and the end. -/
theorem Reached.pos_le {g : Setting} {ok : Guard} (hg : g.Fits) {s : Stack} (h : Reached g ok s) :
    g.lo ≤ s.pos ∧ s.pos ≤ g.hi := by
  induction h with
  | start => exact ⟨Nat.le_refl _, hg.lo_le⟩
  | move _ hm ih =>
      have key := hm.pos_le ih.2
      omega

/-! ### What moves do to what the stacks share -/

section Shared

variable {g : Setting} {env : Env}

theorem follows_changeContext (p : Parser) (change : ContextChange) (start : Nat) (s : Stack)
    (h : env.Follows g) : (s.changeContext p change start env).2.Follows g := by
  unfold changeContext
  split
  · exact ⟨h.start, h.stream.reset _ _⟩
  · exact h

theorem follows_reduce (p : Parser) (word : Nat) (s : Stack) (h : env.Follows g) :
    (s.reduce p word env).2.Follows g := by
  unfold reduce reduceEmpty reduceSome
  simp only
  split
  · exact follows_changeContext _ _ _ _ h
  · refine follows_changeContext _ _ _ _ ?_
    split
    · exact ⟨h.start, h.stream⟩
    · exact h

theorem follows_shift (p : Parser) (word term start stop : Nat) (s : Stack) (h : env.Follows g) :
    (s.shift p word term start stop env).2.Follows g := by
  unfold shift
  split
  · exact h
  · split
    · exact follows_changeContext _ _ _ _ h
    · exact follows_changeContext _ _ _ _ h

theorem follows_apply (p : Parser) (word term start stop : Nat) (s : Stack) (h : env.Follows g) :
    (s.apply p word term start stop env).2.Follows g := by
  unfold apply
  split
  · exact follows_reduce p word s h
  · exact follows_shift p word term start stop s h

theorem follows_leaveRule {p : Parser} {s : Stack} {r : Stack × Env} (h : env.Follows g)
    (hr : s.leaveRule p env = (true, r)) : r.2.Follows g := by
  obtain ⟨word, allowed, -, rfl⟩ := leaveRule_eq_true hr
  exact follows_reduce _ _ _ h

theorem follows_insertToken (p : Parser) (term state : Nat) (s : Stack) (h : env.Follows g) :
    (s.insertToken p term state env).2.Follows g :=
  follows_changeContext _ _ _ _ h

end Shared

end Stack

end IncrementalLR
