/-
**Shifting and reducing.**

A shift goes to a new state and records the token; a reduction pops symbols, records a node over
their records, and goes to the state that the popped symbols were read from.

Main definitions:

* `Stack.reduce`, `Stack.shift`, `Stack.apply` — the actions of the tables;
* `Stack.adopt` — taking a node of an older tree over.
-/

import IncrementalLR.Stack.Store
import IncrementalLR.Tree.Identity

set_option relaxedAutoImplicit false
set_option autoImplicit false

namespace IncrementalLR

namespace Stack

/-! ### Reducing -/

/-- Whether a reduction notes how far the parse has looked: its last token lies well behind. -/
def looksFar (s : Stack) : Bool := s.reducePos + lookAheadMargin < s.pos

/-- The part of a reduction that does not depend on its depth: the look-ahead is raised and the
precedence of the term is added to the score. -/
def beginReduce (p : Parser) (term : Nat) (s : Stack) : Stack :=
  let s := if s.looksFar then s.raiseLookAhead s.pos else s
  { s with score := s.score + p.precedenceOf term }

/-- Reduces nothing to a term. -/
def reduceEmpty (p : Parser) (term size : Nat) (s : Stack) (env : Env) : Stack × Env :=
  let s := s.pushState (p.gotoState s.state term) s.reducePos
  let s := if term < p.minRepeat then s.addNode term s.reducePos s.reducePos size true else s
  s.changeContext p (.reduce term) s.reducePos env

/-- The number of frames that a reduction of at least one symbol pops. -/
def popCount (word : Nat) : Nat :=
  ActionWord.depth word - 1 + (if ActionWord.isStay word then 2 else 0)

/-- The state after a reduction that leaves the frames `kept`: the state below the last symbol that
is popped, or where the goto of the last symbol that is kept leads. -/
def stateAfter (p : Parser) (word : Nat) (s : Stack) (kept : Pile Frame) : Nat :=
  if ActionWord.isStay word then
    ((s.frames.get? (min (popCount word) s.frames.size - 1)).map (·.state)).getD noState
  else
    match kept.top? with
    | some f => p.gotoState f.state (ActionWord.value word)
    | none => noState

/-- Reduces at least one symbol. -/
def reduceSome (p : Parser) (word : Nat) (s : Stack) (env : Env) : Stack × Env :=
  let term := ActionWord.value word
  let kept := s.frames.drop (popCount word)
  let start := (kept.top?.map (·.start)).getD env.start
  let size := s.reducePos - start
  let anonymous := (p.set.get? term).any (·.isAnonymous)
  let env :=
    if p.tuning.minBigReduction ≤ size && !anonymous then
      { env with watch := env.watch.add start size }
    else env
  -- all records since the last symbol that is popped began, skipped ones included
  let count := s.bufferLength - (kept.top?.map (·.bufferPos)).getD 0
  let after := s.stateAfter p word kept
  let s :=
    if term < p.minRepeat || ActionWord.isRepeat word then
      let stop := if (p.tables.row s.state).isSkipped then s.pos else s.reducePos
      s.addNode term start stop (count + 4) true
    else s
  changeContext p (.reduce term) start { s with state := after, frames := kept } env

/-- Does a reduction. -/
def reduce (p : Parser) (word : Nat) (s : Stack) (env : Env) : Stack × Env :=
  let far := s.looksFar
  let s := s.beginReduce p (ActionWord.value word)
  if ActionWord.depth word = 0 then
    s.reduceEmpty p (ActionWord.value word) (if far then 8 else 4) env
  else s.reduceSome p word env

/-! ### Shifting -/

/-- Records a token if its term gets nodes. -/
def recordToken (p : Parser) (term start stop : Nat) (s : Stack) : Stack :=
  if term ≤ p.maxNode then s.pushRecord ⟨term, signedPos start, signedPos stop, 4⟩ else s

/-- Does a shift of a token. -/
def shift (p : Parser) (word term start stop : Nat) (s : Stack) (env : Env) : Stack × Env :=
  if ActionWord.isGoto word then (s.pushState (ActionWord.value word) s.pos, env)
  else if ActionWord.isStay word then
    let r := changeContext p (.shift term) start { s with pos := stop } env
    (r.1.recordToken p term start stop, r.2)
  else
    -- a token without text and node leaves the positions alone
    let s :=
      if s.pos < stop || term ≤ p.maxNode then
        if (p.tables.row word).isSkipped then { s with pos := stop }
        else { s with pos := stop, reducePos := stop }
      else s
    let r := (s.pushState word start).changeContext p (.shift term) start env
    (r.1.recordToken p term start stop, r.2)

/-- Does an action on a token. -/
def apply (p : Parser) (word term start stop : Nat) (s : Stack) (env : Env) : Stack × Env :=
  if ActionWord.isReduce word then s.reduce p word env else s.shift p word term start stop env

/-! ### Taking nodes over -/

/-- Takes a node of an older tree over and goes to a state. -/
def adopt (p : Parser) (node : Tree) (state : Nat) (s : Stack) (env : Env) : Stack × Env :=
  -- stacks that take the same node over one after the other share its place
  let known := env.reused.back?.any (·.same node)
  let env := if known then env else { env with reused := env.reused.push node }
  let start := s.pos
  let stop := start + node.length
  let s := pushState { s with pos := stop, reducePos := stop } state start
  let s := s.pushRecord
    ⟨(env.reused.size - 1 : Nat), signedPos start, signedPos stop, Record.reuseSize⟩
  s.changeContext p (.reuse node) start env

end Stack

end IncrementalLR
