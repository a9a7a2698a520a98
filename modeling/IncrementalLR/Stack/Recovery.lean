/-
**Repairing stacks.**

When no stack has an action, the parser tries repairs: leaving a token out, pretending that one was
there, leaving the current rule by a reduction that the tables do not allow, or starting over.  Each
repair costs a penalty, so that the stack with the cheapest repairs wins.

Main definitions:

* `Stack.deleteToken`, `Stack.insertTokens` — leaving a token out and pretending one;
* `Stack.forcedWord?`, `Stack.leaveRule` — leaving a rule;
* `Stack.leaveAllF` — leaving all rules;
* `Stack.isDeadEnd`, `Stack.restart` — starting over.

Main results:

* `Stack.leaveRule_eq_true`, `Stack.leaveRule_eq_false` — how a rule is left, and that a stack which
  cannot leave it stays as it is.
-/

import IncrementalLR.Stack.Step

set_option relaxedAutoImplicit false
set_option autoImplicit false

namespace IncrementalLR

namespace Stack

/-- Stores an empty error node at the position. -/
def storeError (s : Stack) : Stack := s.addNode errorTerm s.pos s.pos 4 true

/-! ### Tokens -/

/-- Leaves the next token out, inside an error node. -/
def deleteToken (p : Parser) (term stop : Nat) (s : Stack) : Stack :=
  let isNode := decide (term ≤ p.maxNode)
  let s := if isNode then s.addNode term s.pos stop 4 false else s
  let s := s.addNode errorTerm s.pos stop (if isNode then 8 else 4) false
  { s with pos := stop, reducePos := stop, score := s.score - p.tuning.deletePenalty }

/-- Fills a list of candidates up to a number with others that lead to new states. -/
def fillUp (count : Nat) : List (Nat × Nat) → List (Nat × Nat) → List (Nat × Nat)
  | best, [] => best
  | best, c :: rest =>
      if count ≤ best.length then best
      else if best.any (·.2 = c.2) then fillUp count best rest
      else fillUp count (best ++ [c]) rest

/-- The terms and states that may be inserted before a term.  If there are many, or the stack is
deep, those come first, or alone, after which the term fits. -/
def insertions (p : Parser) (next : Nat) (s : Stack) : List (Nat × Nat) :=
  let all := p.tables.shiftTargets s.state
  let chosen :=
    if p.tuning.maxNext < all.length || p.tuning.dampenInsertStackDepth ≤ s.depth then
      let best := all.filter fun c => c.2 ≠ s.state && p.tables.actionFor c.2 next ≠ 0
      if s.depth < p.tuning.dampenInsertStackDepth then fillUp p.tuning.maxNext best all else best
    else all
  (chosen.filter fun c => c.2 ≠ s.state).take p.tuning.maxNext

/-- The stack with a token inserted that leads to a state. -/
def insertToken (p : Parser) (term state : Nat) (s : Stack) (env : Env) : Stack × Env :=
  let r := (s.pushState state s.pos).storeError.changeContext p (.shift term) s.pos env
  ({ r.1 with reducePos := s.pos, score := r.1.score - p.tuning.insertPenalty }, r.2)

/-- The stacks with one of several tokens inserted. -/
def insertEach (p : Parser) (s : Stack) : List (Nat × Nat) → Env → List Stack × Env
  | [], env => ([], env)
  | c :: rest, env =>
      let r := s.insertToken p c.1 c.2 env
      let more := insertEach p s rest r.2
      (r.1 :: more.1, more.2)

/-- The stack after being split for insertions, and the stacks with a token inserted before the
next one. -/
def insertTokens (p : Parser) (next : Nat) (s : Stack) (env : Env) : Stack × List Stack × Env :=
  if p.tuning.maxInsertStackDepth ≤ s.depth then (s, [], env)
  else
    match s.insertions p next with
    | [] => (s, [], env)
    | chosen =>
        let whole := s.split env
        let r := insertEach p whole.1 chosen whole.2
        (whole.1, r.1, r.2)

/-! ### Forced reductions -/

/-- The reductions reachable by shifting from a state, the first that fits the frames: `depth`
symbols have been shifted so far, and `seen` are the states that were looked at. -/
def exploreF (p : Parser) (s : Stack) : Nat → Nat → List Nat → Nat → Option Nat × List Nat
  | 0, _, seen, _ => (none, seen)
  | fuel + 1, depth, seen, state =>
      if seen.contains state then (none, seen)
      else
        (p.tables.allActions state).foldl (fun acc word =>
          match acc.1 with
          | some _ => acc
          | none =>
              if ActionWord.isStay word || ActionWord.isGoto word then acc
              else if ActionWord.isReduce word then
                let left := ActionWord.depth word - depth
                let fits := 1 < left && (s.frames.get? (left - 1)).any fun f =>
                  (p.tables.goto? f.state (ActionWord.value word) false).isSome
                if fits then (some (ActionWord.reduction (ActionWord.value word) left), acc.2)
                else acc
              else exploreF p s fuel (depth + 1) acc.2 word)
          (none, state :: seen)

/-- A reduction that some state reachable by shifting has and that fits the frames. -/
def findReduction? (p : Parser) (s : Stack) : Option Nat :=
  (exploreF p s (p.tables.stateCount + 2) 0 [] s.state).1

/-- Whether the frame that a forced reduction goes back to has a goto for its term. -/
def isReachable (p : Parser) (word : Nat) (s : Stack) : Bool :=
  0 < ActionWord.depth word &&
    (s.frames.get? (ActionWord.depth word - 1)).any fun f =>
      (p.tables.goto? f.state (ActionWord.value word) false).isSome

/-- The reduction by which a stack leaves its rule, and whether the tables allow it. -/
def forcedWord? (p : Parser) (s : Stack) : Option (Nat × Bool) :=
  let word := (p.tables.row s.state).forcedReduce
  if !ActionWord.isReduce word then none
  else if p.tables.allowsAction s.state word then some (word, true)
  else if s.isReachable p word then some (word, false)
  else (s.findReduction? p).map fun w => (w, false)

/-- The stack that leaves its rule by a reduction: all of its text counts, and if the tables do not
allow the reduction, there is an error. -/
def caughtUp (p : Parser) (allowed : Bool) (s : Stack) : Stack :=
  let s :=
    if allowed then s
    else
      let s := s.storeError
      { s with score := s.score - p.tuning.reducePenalty }
  { s with reducePos := s.pos }

/-- Leaves the current rule, and whether there was a way. -/
def leaveRule (p : Parser) (s : Stack) (env : Env) : Bool × Stack × Env :=
  match s.forcedWord? p with
  | none => (false, s, env)
  | some (word, allowed) => (true, (s.caughtUp p allowed).reduce p word env)

/-- A rule is left by a reduction of the stack that has caught up. -/
theorem leaveRule_eq_true {p : Parser} {s : Stack} {env : Env} {r : Stack × Env}
    (h : s.leaveRule p env = (true, r)) :
    ∃ word allowed, s.forcedWord? p = some (word, allowed) ∧
      (s.caughtUp p allowed).reduce p word env = r := by
  unfold leaveRule at h
  split at h
  · cases h
  · exact ⟨_, _, ‹_›, (Prod.mk.inj h).2⟩

/-- A stack that finds no way out of its rule stays as it is. -/
theorem leaveRule_eq_false {p : Parser} {s : Stack} {env : Env} {r : Stack × Env}
    (h : s.leaveRule p env = (false, r)) : s.forcedWord? p = none ∧ r = (s, env) := by
  unfold leaveRule at h
  split at h
  · exact ⟨‹_›, (Prod.mk.inj h).2.symm⟩
  · cases h

/-- Leaves rules while a condition on the stack holds and there is a way. -/
def leaveWhileF (p : Parser) (again : Stack → Bool) : Nat → Stack → Env → Option (Stack × Env)
  | 0, _, _ => none
  | fuel + 1, s, env =>
      if again s then
        match s.leaveRule p env with
        | (true, r) => leaveWhileF p again fuel r.1 r.2
        | (false, r) => some r
      else some (s, env)

/-- Leaves rules until the parse may end, with an error node if that is not possible. -/
def leaveAllF (p : Parser) (limit : Nat) (s : Stack) (env : Env) : Option (Stack × Env) :=
  (leaveWhileF p (fun s => !(p.tables.row s.state).isAccepting) limit s env).map fun r =>
    if (p.tables.row r.1.state).isAccepting then r else (r.1.storeError, r.2)

/-! ### Starting over -/

/-- Whether a stack is in a rule of one symbol with nothing left to do. -/
def isDeadEnd (p : Parser) (s : Stack) : Bool :=
  s.frames.size = 1 && p.tables.isIdle s.state

/-- Returns to the first state and keeps the records. -/
def restart (s : Stack) : Stack :=
  let s := s.storeError
  { s with state := (s.frames.items.getLast?.map (·.state)).getD s.state, frames := .empty }

end Stack

end IncrementalLR
