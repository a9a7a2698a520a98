/-
**Plain runs.**

As long as a stack is offered one action at a time, a parse follows it alone.  The plain run of such
a stack does what LR parsing does: it takes a node of an older tree over if one fits, else does the
default reduction of its state if there is one, else the only action for the tokens at its position,
until there is none.  No tuning has a say in it.

A parse has two guards besides, which its tuning sets: it leaves rules of a stack that asks for an
action when it is too deep, and of a stack that gets past a position after too many big reductions
from one start.  Whether a plain run triggers one of them is defined here, too.

Main definitions:

* `Parse.actPlain`, `Parse.runPlain` — one action of a plain run, and a run up to its end;
* `Parse.acceptsPlain`, `Parse.treePlain` — a run that ends where a parse may end, and its tree;
* `Parse.sparedPlain` — whether a run triggers no guard;
* `Parse.Keeps` — what no action of a stack changes;
* `Parse.RunsTo` — what a run comes to.

Main results:

* `Parse.actPlain_keeps` — an action changes neither the parser nor the bounds of a parse;
* `Parse.runPlain_alike`, `Parse.RunsTo.alike` — **plain runs do not depend on the tuning**;
* `Parse.sparesPlain_alike` — whether a run triggers a guard depends on it, and on nothing else that
  like parses do not share.
-/

import IncrementalLR.Proofs.Tokens
import IncrementalLR.Proofs.Tunings

set_option relaxedAutoImplicit false
set_option autoImplicit false

namespace IncrementalLR

/-! ### Where the input ends -/

namespace Stream

theorem stop_advance (s : Stream) (n : Nat) : (s.advance n).stop = s.stop := by
  rw [advance]
  dsimp only
  split
  · rfl
  · exact (fetch_eq _).2.1

theorem stop_skipWhileF (lo hi : Int) (fuel : Nat) (s : Stream) :
    (skipWhileF lo hi fuel s).stop = s.stop := by
  induction fuel generalizing s with
  | zero => rfl
  | succ fuel ih =>
      have hon : (skipWhileF lo hi fuel (s.advance 1)).stop = s.stop :=
        (ih _).trans (s.stop_advance 1)
      rw [skipWhileF]
      split <;> split <;> first | exact hon | rfl

theorem stop_reset (s : Stream) (pos : Nat) (token : Option Token) :
    (s.reset pos token).stop = s.stop := by
  rw [reset]
  dsimp only
  split
  · rfl
  · split
    · rfl
    · refine (fetch_eq _).2.1.trans ?_
      split <;> rfl

theorem stop_accept {s s' : Stream} {term : Nat} {offset : Int}
    (h : s.accept term offset = .ok s') : s'.stop = s.stop := by
  rw [accept] at h
  dsimp only at h
  split at h
  · split at h
    · obtain rfl := Except.ok.inj h
      rfl
    · cases h
  · cases h

end Stream

/-- No scan changes where the input ends. -/
theorem Scan.stop_run {scan : Scan} {s s' : Stream} {lines : List String}
    (h : (scan.run s lines).1 = .ok s') : s'.stop = s.stop := by
  induction scan generalizing s lines with
  | done =>
      obtain rfl := Except.ok.inj h
      rfl
  | fail e => cases h
  | next k ih => exact ih _ h
  | place k ih => exact ih _ _ _ h
  | peek offset k ih => exact (ih _ h).trans (s.peek_eq offset).2.1
  | advance n k ih => exact (ih h).trans (s.stop_advance n)
  | skipWhile lo hi k ih => exact (ih h).trans (Stream.stop_skipWhileF lo hi _ s)
  | read start stop k ih => exact ih _ h
  | accept term offset k ih =>
      rw [run] at h
      cases haccept : s.accept term offset with
      | error e =>
          rw [haccept] at h
          cases h
      | ok s₁ =>
          rw [haccept] at h
          exact (ih h).trans (Stream.stop_accept haccept)
  | acceptTo term stop k ih => exact (ih h).trans rfl
  | write line k ih => exact ih h

/-- What the stacks share, after something was done that changes neither the end of the input nor
the bound on loops. -/
structure Env.Keeps (env env' : Env) : Prop where
  limit : env'.limit = env.limit
  stop : env'.stream.stop = env.stream.stop

namespace Stack

theorem changeContext_keeps (p : Parser) (change : ContextChange) (start : Nat) (s : Stack)
    (env : Env) : env.Keeps (s.changeContext p change start env).2 := by
  rw [changeContext]
  split
  · exact ⟨rfl, Stream.stop_reset _ _ _⟩
  · exact ⟨rfl, rfl⟩

theorem reduce_keeps (p : Parser) (word : Nat) (s : Stack) (env : Env) :
    env.Keeps (s.reduce p word env).2 := by
  rw [reduce, reduceEmpty, reduceSome]
  dsimp only
  split
  · exact changeContext_keeps _ _ _ _ _
  · obtain ⟨hlimit, hstop⟩ := changeContext_keeps p (.reduce (ActionWord.value word)) _ _ _
    refine ⟨hlimit.trans ?_, hstop.trans ?_⟩
    · split <;> rfl
    · split <;> rfl

theorem apply_keeps (p : Parser) (word term start stop : Nat) (s : Stack) (env : Env) :
    env.Keeps (s.apply p word term start stop env).2 := by
  rw [apply, shift]
  split
  · exact reduce_keeps p word s env
  · split
    · exact ⟨rfl, rfl⟩
    · split <;> exact changeContext_keeps _ _ _ _ _

theorem adopt_keeps (p : Parser) (node : Tree) (state : Nat) (s : Stack) (env : Env) :
    env.Keeps (s.adopt p node state env).2 := by
  rw [adopt]
  obtain ⟨hlimit, hstop⟩ := changeContext_keeps p (.reuse node) s.pos _ _
  refine ⟨hlimit.trans ?_, hstop.trans ?_⟩
  · split <;> rfl
  · split <;> rfl

end Stack

namespace Parse

open ParseM

/-! ### Plain runs -/

/-- What an action of a plain run comes to. -/
inductive Plain where
  /-- The stack moved; `asked` says whether it had to ask for an action. -/
  | moved (s : Stack) (asked : Bool)
  /-- There is no action. -/
  | stuck (s : Stack)
  /-- There are several actions. -/
  | torn

/-- One action of a stack by itself. -/
def actPlain (s : Stack) : ParseM Plain := do
  modify fun p => { p with memo := { p.memo with main := none } }
  let p ← get
  match ← takeOver s with
  | some s => return .moved s false
  | none =>
      let default := (p.parser.tables.row s.state).defaultReduce
      if 0 < default then return .moved (← onEnv (s.reduce p.parser default)) false
      else
        let found ← actionsFor s
        let start := ((← get).memo.main.bind (·.start)).getD s.pos
        match found.1 with
        | [] => return .stuck found.2
        | [a] => return .moved (← onEnv (found.2.apply p.parser a.word a.term start a.stop)) true
        | _ => return .torn

/-- The end of a plain run that asks for at most `n` actions, and the parse there; none if the run
is longer, fails, or is offered several actions. -/
def runPlain : Nat → Stack → Parse → Option (Stack × Parse)
  | 0, _, _ => none
  | n + 1, s, q =>
      match (actPlain s).run q with
      | (.ok (.moved s _), q) => runPlain n s q
      | (.ok (.stuck e), q) => some (e, q)
      | _ => none

/-- Whether a plain run of the only stack ends where a parse may end. -/
def acceptsPlain (n : Nat) (q : Parse) : Bool :=
  match q.live with
  | [s] => (runPlain n s q).any fun r => r.2.isDone r.1
  | _ => false

/-- The tree of a plain run of the only stack. -/
def treePlain (n : Nat) (q : Parse) : Except Failure Tree :=
  match q.live with
  | [s] =>
      match runPlain n s q with
      | some r => ((toTree r.1).run r.2).1
      | none => .error .limit
  | _ => .error .limit

/-! ### Guards -/

/-- A stack that asks for an action is not cut. -/
def isShallow (t : Tuning) (s : Stack) : Bool := s.depth < t.cutDepth || s.depth ≤ t.cutTo

/-- Whether a plain run triggers no guard: wherever the stack asks for an action, it is not too
deep, and wherever it has got past the position `pos`, big reductions were not repeated too
often. -/
def sparesPlain : Nat → Nat → Stack → Parse → Bool
  | 0, _, _, _ => true
  | n + 1, pos, s, q =>
      (s.pos ≤ pos || q.env.watch.count ≤ q.parser.tuning.maxLeftAssociativeReductionCount) &&
        match (actPlain s).run q with
        | (.ok (.moved s' asked), q') =>
            (!asked || isShallow q.parser.tuning s) && sparesPlain n (max pos s.pos) s' q'
        | (.ok (.stuck _), _) => isShallow q.parser.tuning s
        | _ => true

/-- Whether the plain run of the only stack triggers no guard. -/
def sparedPlain (n : Nat) (q : Parse) : Bool :=
  match q.live with
  | [s] => sparesPlain n q.parsedPos s q
  | _ => false

/-! ### What no action changes -/

/-- A parse after its stacks were worked on: the parser is the same, and so is all that tells where
the parse ends. -/
structure Keeps (q q' : Parse) : Prop where
  parser : q'.parser = q.parser
  env : q.env.Keeps q'.env
  stoppedAt : q'.stoppedAt = q.stoppedAt
  recovering : q'.recovering = q.recovering
  result : q'.result = q.result

theorem Keeps.refl (q : Parse) : q.Keeps q := ⟨rfl, ⟨rfl, rfl⟩, rfl, rfl, rfl⟩

theorem Keeps.trans {q q₁ q₂ : Parse} (h : q.Keeps q₁) (h₁ : q₁.Keeps q₂) : q.Keeps q₂ where
  parser := h₁.parser.trans h.parser
  env := ⟨h₁.env.limit.trans h.env.limit, h₁.env.stop.trans h.env.stop⟩
  stoppedAt := h₁.stoppedAt.trans h.stoppedAt
  recovering := h₁.recovering.trans h.recovering
  result := h₁.result.trans h.result

/-- Where a parse may end is not changed by working on its stacks. -/
theorem Keeps.isDone {q q' : Parse} (h : q.Keeps q') (s : Stack) : q'.isDone s = q.isDone s := by
  rw [Parse.isDone, Parse.isDone, h.parser, h.env.stop, h.stoppedAt]

section Keeping

variable {q q₀ : Parse}

/-- A step that keeps what no action changes. -/
def KeepsAll {α : Type} (m : ParseM α) : Prop :=
  ∀ q, Ensures (fun _ => True) m q fun _ q' => q.Keeps q'

theorem keepsAll_pure {α : Type} (a : α) : KeepsAll (pure a) := fun q => .refl q

theorem keepsAll_get : KeepsAll get := fun q => .refl q

theorem keepsAll_guardLimit (ends : Bool) : KeepsAll (guardLimit ends) := fun q =>
  ensures_guardLimit trivial fun _ => .refl q

/-- Steps that keep it, one after the other. -/
theorem KeepsAll.bind {α β : Type} {m : ParseM α} {f : α → ParseM β} (h : KeepsAll m)
    (hf : ∀ a, KeepsAll (f a)) : KeepsAll (m >>= f) := fun q =>
  (h q).bind fun a q₁ h₁ => (hf a q₁).mono fun _ _ h₂ => h₁.trans h₂

theorem keepsAll_onEnv {α : Type} {f : Env → α × Env} (h : ∀ env : Env, env.Keeps (f env).2) :
    KeepsAll (onEnv f) := fun q => ⟨rfl, h q.env, rfl, rfl, rfl⟩

theorem takeOver_keeps (s : Stack) : KeepsAll (takeOver s) := by
  intro q
  rw [takeOver, ensures_bind, ensures_get]
  split
  · exact .refl q
  · rw [ensures_bind, ensures_set]
    split
    · rw [ensures_bind, ensures_onEnv]
      exact ⟨rfl, Stack.adopt_keeps _ _ _ _ _, rfl, rfl, rfl⟩
    · exact ⟨rfl, ⟨rfl, rfl⟩, rfl, rfl, rfl⟩

theorem readToken_keeps (i : Nat) (x : Tokenizer) (s : Stack) : KeepsAll (readToken i x s) := by
  intro q
  rw [readToken, ensures_bind, ensures_get]
  dsimp only
  split
  · trivial
  · rename_i stream hscan
    have hstop := (Scan.stop_run hscan).trans (Stream.stop_reset _ _ _)
    split
    · exact ⟨rfl, ⟨rfl, hstop⟩, rfl, rfl, rfl⟩
    · exact ⟨rfl, ⟨rfl, hstop⟩, rfl, rfl, rfl⟩

theorem tokenFor_keeps (i : Nat) (x : Tokenizer) (s : Stack) (mask context : Nat) :
    KeepsAll (tokenFor i x s mask context) := by
  rw [tokenFor]
  refine keepsAll_get.bind fun q => ?_
  dsimp only
  split
  · exact keepsAll_pure _
  · refine (readToken_keeps i x s).bind fun token => ?_
    refine KeepsAll.bind ?_ fun _ => keepsAll_pure _
    exact fun q => ⟨rfl, ⟨rfl, rfl⟩, rfl, rfl, rfl⟩

theorem gather_keeps (s : Stack) (mask context : Nat) (asked : List (Tokenizer × Nat))
    (g : Gathered) : KeepsAll (gather s mask context asked g) := by
  induction asked generalizing g with
  | nil => exact keepsAll_pure g
  | cons a rest ih =>
      rw [gather]
      split
      · exact ih g
      · refine (tokenFor_keeps a.2 a.1 s mask context).bind fun token => ?_
        dsimp only
        split
        · exact ih _
        · refine keepsAll_get.bind fun q => ?_
          refine (keepsAll_guardLimit _).bind fun _ => ?_
          split
          · exact ih _
          · split
            · exact keepsAll_pure _
            · exact ih _

theorem actionsFor_keeps (s : Stack) : KeepsAll (actionsFor s) := by
  rw [actionsFor]
  refine keepsAll_get.bind fun q => ?_
  refine (gather_keeps s _ _ _ {}).bind fun found => ?_
  refine (keepsAll_guardLimit _).bind fun _ => ?_
  refine KeepsAll.bind ?_ fun _ => keepsAll_pure _
  exact fun q => ⟨rfl, ⟨rfl, rfl⟩, rfl, rfl, rfl⟩

/-- An action changes neither the parser nor where the parse ends. -/
theorem actPlain_keeps (s : Stack) : KeepsAll (actPlain s) := by
  rw [actPlain]
  refine KeepsAll.bind (fun q => ⟨rfl, ⟨rfl, rfl⟩, rfl, rfl, rfl⟩) fun _ => ?_
  refine keepsAll_get.bind fun q => ?_
  refine (takeOver_keeps s).bind fun taken => ?_
  split
  · exact keepsAll_pure _
  · dsimp only
    split
    · exact (keepsAll_onEnv (Stack.reduce_keeps _ _ s)).bind fun _ => keepsAll_pure _
    · refine (actionsFor_keeps s).bind fun found => keepsAll_get.bind fun q => ?_
      split
      · exact keepsAll_pure _
      · exact (keepsAll_onEnv (Stack.apply_keeps _ _ _ _ _ _)).bind fun _ => keepsAll_pure _
      · exact keepsAll_pure _

/-- What is kept by a step that was done. -/
theorem KeepsAll.of_run {α : Type} {m : ParseM α} (h : KeepsAll m) {a : α}
    (hrun : m.run q = (.ok a, q₀)) : q.Keeps q₀ := by
  have key := h q
  rw [Ensures, hrun] at key
  exact key

end Keeping

/-! ### Runs and the tuning -/

section Agreement

variable {q q' : Parse}

/-- What a plain run does next does not depend on the tuning. -/
theorem actPlain_agree (h : q.Alike q') (s : Stack) : Agree (actPlain s) (actPlain s) q q' := by
  have htables : q'.parser.tables = q.parser.tables := by
    rw [h.parser]
    rfl
  -- What the stacks share is alike for the parsers at the start, which the actions are done with.
  have hshared : ∀ {q₁ q₁' : Parse}, q₁.Alike q₁' → q₁.parser = q.parser →
      q₁'.parser = q'.parser → q₁.env.Alike q.parser.tuning q'.parser.tuning q₁'.env := by
    intro q₁ q₁' h₁ hparser hparser'
    rw [← hparser, ← hparser']
    exact h₁.env
  rw [actPlain]
  refine agree_modify ?_ ⟨rfl, rfl⟩
  rw [h.memo]
  refine agree_get ?_
  refine (takeOver_agree (h.setMemo { q.memo with main := none }) s).bind ?_
  rintro taken q₁ q₁' h₁ ⟨hparser, hparser'⟩
  cases taken with
  | some s' => exact agree_pure h₁ _
  | none =>
      dsimp only
      rw [htables]
      split
      · refine (agree_onEnv h₁ ?_).bind fun s q₂ q₂' h₂ _ => agree_pure h₂ _
        rw [hparser, hparser', h.parser]
        exact Stack.reduce_alike h.1 (hshared h₁ hparser hparser') _ s
      · refine (actionsFor_agree h₁ s).bind ?_
        rintro found q₂ q₂' h₂ ⟨hfound, hfound'⟩
        refine agree_get ?_
        rw [h₂.memo]
        split
        · exact agree_pure h₂ _
        · refine (agree_onEnv h₂ ?_).bind fun s q₃ q₃' h₃ _ => agree_pure h₃ _
          have hkept := hfound.trans hparser
          have hkept' := hfound'.trans hparser'
          rw [hkept, hkept', h.parser]
          exact Stack.apply_alike h.1 (hshared h₂ hkept hkept') _ _ _ _ _
        · exact agree_pure h₂ _

/-- The same end, and like parses there. -/
def AlikeEnds (r r' : Stack × Parse) : Prop := r'.1 = r.1 ∧ r.2.Alike r'.2

/-- A plain run does not depend on the tuning. -/
theorem runPlain_alike (h : q.Alike q') (n : Nat) (s : Stack) :
    Option.Rel AlikeEnds (runPlain n s q) (runPlain n s q') := by
  induction n generalizing q q' s with
  | zero => exact .none
  | succ n ih =>
      obtain ⟨hvalue, halike, -⟩ := actPlain_agree h s
      rw [runPlain, runPlain]
      rcases hrun : (actPlain s).run q with ⟨e | x, q₁⟩
      · rcases hrun' : (actPlain s).run q' with ⟨v, q₁'⟩
        rw [hrun, hrun'] at hvalue
        obtain rfl := hvalue
        exact .none
      · rcases hrun' : (actPlain s).run q' with ⟨v, q₁'⟩
        rw [hrun, hrun'] at hvalue halike
        obtain rfl := hvalue
        cases x with
        | moved s' asked => exact ih halike s'
        | stuck e => exact .some ⟨rfl, halike⟩
        | torn => exact .none

/-- Whether a run triggers a guard depends on the tuning, and on nothing else that differs in like
parses. -/
theorem sparesPlain_alike (h : q.Alike q') (htuning : q'.parser.tuning = q.parser.tuning)
    (n pos : Nat) (s : Stack) : sparesPlain n pos s q' = sparesPlain n pos s q := by
  induction n generalizing q q' pos s with
  | zero => rfl
  | succ n ih =>
      obtain ⟨hvalue, halike, hparser, hparser'⟩ := actPlain_agree h s
      obtain ⟨watch, henv, hwatch⟩ := h.env
      rw [sparesPlain, sparesPlain, henv, hwatch htuning, htuning]
      rcases hrun : (actPlain s).run q with ⟨e | x, q₁⟩
      · rcases hrun' : (actPlain s).run q' with ⟨v, q₁'⟩
        rw [hrun, hrun'] at hvalue
        obtain rfl := hvalue
        rfl
      · rcases hrun' : (actPlain s).run q' with ⟨v, q₁'⟩
        rw [hrun, hrun'] at hvalue halike
        rw [hrun] at hparser
        rw [hrun'] at hparser'
        obtain rfl := hvalue
        cases x with
        | moved s' asked =>
            have hsame : q₁'.parser.tuning = q₁.parser.tuning := by
              rw [hparser, hparser']
              exact htuning
            dsimp only
            rw [ih halike hsame]
        | stuck e => rfl
        | torn => rfl

/-- A plain run of a stack of `n` actions at most ends at `e`, where the parse may end, and comes to
a result. -/
def RunsTo (n : Nat) (s e : Stack) (result : Except Failure Tree) (q : Parse) : Prop :=
  ∃ qe, runPlain n s q = some (e, qe) ∧ qe.isDone e = true ∧ ((toTree e).run qe).1 = result

/-- What a plain run comes to does not depend on the tuning. -/
theorem RunsTo.alike {n : Nat} {s e : Stack} {result : Except Failure Tree}
    (h : q.RunsTo n s e result) (halike : q.Alike q') : q'.RunsTo n s e result := by
  obtain ⟨qe, hrun, hdone, hresult⟩ := h
  have hrel := runPlain_alike halike n s
  rw [hrun] at hrel
  cases hrun' : runPlain n s q' with
  | none =>
      rw [hrun'] at hrel
      cases hrel
  | some r =>
      rw [hrun'] at hrel
      cases hrel with
      | some hends =>
          obtain ⟨e', qe'⟩ := r
          obtain ⟨rfl, hends⟩ := hends
          refine ⟨qe', hrun', ?_, ?_⟩
          · obtain ⟨-, t, env, live, parsedPos, ⟨watch, rfl, -⟩, hr⟩ := hends
            dsimp only at hr
            rw [hr]
            exact hdone
          · exact (toTree_agree hends _).value.trans hresult

end Agreement

/-- An accepted run comes to its tree, or to the reason why there is none. -/
theorem exists_runsTo {q : Parse} {n : Nat} (h : q.acceptsPlain n = true) :
    ∃ s e, q.live = [s] ∧ q.RunsTo n s e (q.treePlain n) := by
  rw [acceptsPlain] at h
  split at h
  · rename_i s hlive
    cases hrun : runPlain n s q with
    | none =>
        rw [hrun] at h
        cases h
    | some r =>
        rw [hrun] at h
        refine ⟨s, r.1, hlive, r.2, hrun, h, ?_⟩
        rw [treePlain, hlive]
        simp only [hrun]
  · cases h

end Parse

end IncrementalLR
