/-
**Steps of a parse.**

One step takes every stack that stands at the lowest position past it.  A stack with several actions
is split; when no stack has an action, the parse is finished, is refused by a strict parser, or goes
into recovery, where repairs of the stuck stacks are tried.

Main definitions:

* `Parse.takeOver` — takes a node of an older tree over, if one fits;
* `Parse.actOn`, `Parse.actUntilPastF` — one action of a stack, and as many as it takes to
  get past its position;
* `Parse.drainF` — all stacks at the lowest position;
* `Parse.recover` — repairs of the stuck stacks;
* `Parse.toTree` — the tree of a finished stack;
* `Parse.goOn`, `Parse.step`, `Parse.advance` — one step;
* `Parse.finish` — all steps.
-/

import IncrementalLR.Parse.Select
import IncrementalLR.Parse.Tokens

set_option relaxedAutoImplicit false
set_option autoImplicit false

namespace IncrementalLR

namespace Parse

/-! ### Taking nodes over -/

/-- The state that taking a node over leads to: the node is not empty, its type belongs to the
grammar, the state has a goto for it, and the context is the same. -/
def reuseTarget? (p : Parser) (s : Stack) (t : Tree) : Option Nat :=
  let known := (p.set.get? t.type.id).any (·.same t.type)
  let sameContext :=
    match p.tracker, s.context with
    | some tracker, some c =>
        !tracker.strict || (t.numberProp? .contextHash).getD 0 = c.hash
    | _, _ => true
  if known && t.length ≠ 0 && sameContext then p.tables.goto? s.state t.type.id false else none

/-- The first that fits of a node, its first child, the first child of that, and so on, as long as
they start at the same position. -/
def reusable? (p : Parser) (s : Stack) : Tree → Option (Tree × Nat)
  | .packed _ => none
  | .branch stamp ty [] len ps =>
      (reuseTarget? p s (.branch stamp ty [] len ps)).map fun state =>
        (.branch stamp ty [] len ps, state)
  | .branch stamp ty ((pos, first) :: rest) len ps =>
      match reuseTarget? p s (.branch stamp ty ((pos, first) :: rest) len ps) with
      | some state => some (.branch stamp ty ((pos, first) :: rest) len ps, state)
      | none => if pos = 0 then reusable? p s first else none

/-- Takes a node of an older tree over, if one fits at the position of the stack. -/
def takeOver (s : Stack) : ParseM (Option Stack) := do
  let p ← get
  match p.reuse with
  | none => return none
  | some cursor =>
      let r := cursor.offerAt s.pos
      set { p with reuse := some r.2 }
      match r.1.bind (reusable? p.parser s) with
      | some (t, state) => return some (← ParseM.onEnv (s.adopt p.parser t state))
      | none => return none

/-! ### One action of a stack -/

/-- The outcome of one action: whether the stack moved, the stack, and the stacks split from it,
those past its position apart from the others. -/
structure Advanced where
  moved : Bool
  stack : Stack
  ahead : List Stack := []
  level : List Stack := []

/-- Applies several actions to a stack: each but the last to a copy. -/
def applyActions (p : Parser) (start : Nat) (fork : Bool) :
    List TokenAction → Advanced → Env → Advanced × Env
  | [], a, env => (a, env)
  | action :: rest, a, env =>
      if rest.isEmpty || !fork then
        let r := a.stack.apply p action.word action.term start action.stop env
        ({ a with moved := true, stack := r.1 }, r.2)
      else
        let whole := a.stack.split env
        let r := whole.1.apply p action.word action.term start action.stop whole.2
        let a := { a with stack := whole.1 }
        applyActions p start fork rest
          (if whole.1.pos < r.1.pos then { a with ahead := a.ahead ++ [r.1] }
           else { a with level := a.level ++ [r.1] }) r.2

/-- Leaves rules of a stack that has become too deep. -/
def cutDepth (s : Stack) : ParseM Stack := do
  let p ← ParseM.parser
  if p.tuning.cutDepth ≤ s.depth then
    ParseM.onEnvLimited fun env =>
      s.leaveWhileF p (fun s => p.tuning.cutTo < s.depth) env.limit env
  else return s

/-- Does one action of a stack; with `fork` a stack with several actions is split, else only the
first action is done. -/
def actOn (s : Stack) (fork : Bool) : ParseM Advanced := do
  let p ← get
  if p.stoppedAt.any (· < s.pos) then
    -- past the stop position rules are only left
    ParseM.onEnv fun env =>
      let r := s.leaveRule p.parser env
      (⟨r.1, r.2.1, [], []⟩, r.2.2)
  else
    match ← takeOver s with
    | some s => return ⟨true, s, [], []⟩
    | none =>
        let default := (p.parser.tables.row s.state).defaultReduce
        -- a default reduction asks for no token
        if 0 < default then
          return ⟨true, ← ParseM.onEnv (s.reduce p.parser default), [], []⟩
        else
          let s ← cutDepth s
          let found ← actionsFor s
          let start := ((← get).memo.main.bind (·.start)).getD s.pos
          ParseM.onEnv (applyActions p.parser start fork found.1 ⟨false, found.2, [], []⟩)

/-- Advances a stack until it is past its position, where it is added to the others; gives it back
if it gets stuck before. -/
def actUntilPastF (pos : Nat) : Nat → Stack → List Stack → ParseM (Option Stack × List Stack)
  | 0, _, _ => throw .limit
  | fuel + 1, s, others => do
      let a ← actOn s false
      if !a.moved then return (some a.stack, others)
      else if pos < a.stack.pos then return (none, pushStack a.stack others)
      else actUntilPastF pos fuel a.stack others

/-- Advances a stack until it is past its position. -/
def actUntilPast (s : Stack) (others : List Stack) : ParseM (Option Stack × List Stack) := do
  actUntilPastF s.pos (← get).env.limit s others

/-! ### All stacks -/

/-- A stack without an action, and the term and the end of the token that it is stuck at. -/
structure Stuck where
  stack : Stack
  term : Nat
  stop : Nat

/-- The stacks that are past a position, and those that are stuck before. -/
structure Drained where
  ahead : List Stack := []
  stuck : List Stuck := []

/-- Takes the stacks of a queue past a position. -/
def drainF (pos : Nat) : Nat → List Stack → Drained → ParseM Drained
  | 0, _, _ => throw .limit
  | _, [], d => return d
  | fuel + 1, s :: queue, d => do
      modify fun p => { p with memo := { p.memo with main := none } }
      if pos < s.pos then drainF pos fuel queue { d with ahead := d.ahead ++ [s] }
      else
        let a ← actOn s true
        let d := { d with ahead := d.ahead ++ a.ahead }
        let queue := queue ++ a.level
        if a.moved then drainF pos fuel (a.stack :: queue) d
        else
          let token := (← get).mainToken a.stack
          drainF pos fuel queue { d with stuck := d.stuck ++ [⟨a.stack, token.1, token.2⟩] }

/-- Leaves rules of the only stack when big reductions were repeated too often. -/
def fastForward (live : List Stack) : ParseM (List Stack) := do
  let p ← get
  match live with
  | [s] =>
      if p.parser.tuning.maxLeftAssociativeReductionCount < p.env.watch.count then
        let start := p.env.watch.start.getD 0
        let s ← ParseM.onEnvLimited fun env =>
          match s.leaveRule p.parser env with
          | (false, r) => some r
          | (true, r) =>
              r.1.leaveWhileF p.parser (fun s => s.frames.top?.any (start ≤ ·.start)) env.limit r.2
        modify fun p =>
          { p with env := { p.env with watch := { p.env.watch with count := 0, size := 0 } } }
        return [s]
      else return [s]
  | _ => return live

/-! ### Recovery -/

/-- Tries forced reductions on a stack, each followed by as many actions as it takes to get past
the position. -/
def tryForced (p : Parser) : Nat → Stack → List Stack → ParseM (List Stack)
  | 0, _, others => return others
  | count + 1, s, others => do
      let forced ← ParseM.onEnv fun env =>
        let r := s.leaveRule p env
        ((r.1, r.2.1), r.2.2)
      match forced with
      | (false, _) => return others
      | (true, s) =>
          let r ← actUntilPast s others
          match r.1 with
          | some s => tryForced p count s r.2
          | none => return r.2

/-- Advances stacks with an inserted token. -/
def tryInserted : List Stack → List Stack → ParseM (List Stack)
  | [], others => return others
  | s :: rest, others => do
      let r ← actUntilPast s others
      tryInserted rest r.2

/-- What recovery has found: the stacks past the position, the best stack at the end of the input,
and whether a stack was started over. -/
structure Recovered where
  ahead : List Stack
  finished : Option Stack := none
  restarted : Bool := false

/-- Repairs a stuck stack in every way: forced reductions, inserted tokens, and leaving the token
out; at the end of the input it may be the one to finish with. -/
def repairStack (s : Stack) (term stop : Nat) (r : Recovered) : ParseM Recovered := do
  let p ← ParseM.parser
  let s ← ParseM.onEnv s.split
  let ahead ← tryForced p p.tuning.forceReduceLimit s r.ahead
  let inserted ← ParseM.onEnv fun env =>
    let i := s.insertTokens p term env
    ((i.1, i.2.1), i.2.2)
  let s := inserted.1
  let ahead ← tryInserted inserted.2 ahead
  let stream := (← get).env.stream
  if s.pos < stream.stop then
    -- leaving out a token without text would not get on, so a character goes instead
    let empty := decide (stop = s.pos)
    let stop := if empty then stream.charEnd s.pos else stop
    let s := s.deleteToken p (if empty then errorTerm else term) stop
    return { r with ahead := pushStack s ahead }
  else if r.finished.all (·.score < s.score) then return { r with ahead, finished := some s }
  else return { r with ahead }

/-- Repairs the stuck stacks one after the other.  Of those at a dead end only the first is started
over. -/
def recover : List Stuck → Recovered → ParseM Recovered
  | [], r => return r
  | stuck :: rest, r => do
      let p ← ParseM.parser
      if stuck.stack.isDeadEnd p then
        if r.restarted then recover rest r
        else
          let a ← actUntilPast stuck.stack.restart r.ahead
          let r := { r with ahead := a.2, restarted := true }
          match a.1 with
          | some s => recover rest (← repairStack s stuck.term stuck.stop r)
          | none => recover rest r
      else recover rest (← repairStack stuck.stack stuck.term stuck.stop r)

/-! ### Trees -/

/-- The tree of a finished stack. -/
def toTree (s : Stack) : ParseM Tree := do
  let p ← get
  let s := s.close p.parser
  let plan : BuildPlan :=
    { set := p.parser.set, top := p.parser.top.2, maxBuffer := p.parser.bufferLength,
      reused := p.env.reused, start := p.env.start, length := some (s.pos - p.env.start),
      minRepeat := some p.parser.minRepeat }
  match Tree.buildFrom plan s.reader with
  | .error e => ParseM.fail e
  | .ok t =>
      let t := t.stampAll p.epoch
      set { p with result := some t }
      return t

/-- The tree of a stack that is made to end where it stands. -/
def forceTree (s : Stack) : ParseM Tree := do
  let p ← ParseM.parser
  let s ← ParseM.onEnvLimited fun env => s.leaveAllF p env.limit env
  toTree s

/-! ### Steps -/

/-- Whether a stack is done: it may end, at the end of the input or past the stop position. -/
def isDone (p : Parse) (s : Stack) : Bool :=
  (s.pos = p.env.stream.stop || p.stoppedAt.any (· < s.pos)) &&
    (p.parser.tables.row s.state).isAccepting

/-- Repairs the stuck stacks; a stack to finish with is found at the end of the input, or is the
first stuck stack if it is past the stop position. -/
def repairOrFinish (stuck : List Stuck) (ahead : List Stack) :
    ParseM (List Stack × Option Stack) := do
  let p ← get
  match stuck with
  | [] => return (ahead, none)
  | first :: _ =>
      if p.stoppedAt.any (· < first.stack.pos) then return (ahead, some first.stack)
      else
        let r ← recover stuck { ahead }
        return (r.ahead, r.finished)

/-- The stacks that go on. -/
def selectStacks (pos : Nat) (ahead : List Stack) : ParseM (List Stack) := do
  let p ← get
  let tuning := p.parser.tuning
  if 0 < p.recovering then
    -- the fewer steps of recovery are left, the fewer stacks are kept
    let count := if p.recovering = 1 then 1 else p.recovering * tuning.maxRemainingPerStep
    let kept := topStacks count ahead
    if kept.any (pos < ·.reducePos) then
      set { p with recovering := p.recovering - 1 }
    return kept
  else if 1 < ahead.length then
    return (prune tuning.minBufferLengthPrune ahead).take tuning.maxStackCount
  else return ahead

/-- Turns recovery on when no stack got past the position; a strict parser refuses instead. -/
def enterRecovery (pos : Nat) : ParseM Unit := do
  let p ← get
  if p.parser.strict then ParseM.fail (.noParse pos)
  else if p.recovering = 0 then
    set { p with recovering := p.parser.tuning.recoveryDistance }

/-- Finishes with a stack if one is given, else selects the stacks that go on. -/
def settle (pos : Nat) (ahead : List Stack) : Option Stack → ParseM (Option Tree)
  | some s => return some (← forceTree s)
  | none => do
      let kept ← selectStacks pos ahead
      match (kept.map (·.pos)).min? with
      | none => ParseM.fail (.noParse pos)
      | some low =>
          modify fun p => { p with parsedPos := low, live := kept }
          return none

/-- Goes on with the stacks that are past a position, and with repairs while recovery is on. -/
def goOn (pos : Nat) (d : Drained) : ParseM (Option Tree) := do
  if 0 < (← get).recovering then
    let r ← repairOrFinish d.stuck d.ahead
    settle pos r.1 r.2
  else settle pos d.ahead none

/-- One step: the tree if the parse is finished. -/
def step : ParseM (Option Tree) := do
  let p ← get
  let pos := p.parsedPos
  set { p with live := [] }
  let queue ← fastForward p.live
  let d ← drainF pos p.env.limit queue {}
  if d.ahead.isEmpty then
    match bestStack? p.isDone (d.stuck.map (·.stack)) with
    | some s => return some (← toTree s)
    | none =>
        enterRecovery pos
        goOn pos d
  else goOn pos d

/-- One step, or the tree of a parse that is finished already. -/
def advance (p : Parse) : Except Failure (Option Tree) × Parse :=
  match p.result with
  | some t => (.ok (some t), p)
  | none => step.run p

/-- Steps until the parse is finished, at most `fuel` of them. -/
def finishF : Nat → Parse → Except Failure Tree × Parse
  | 0, p => (.error .limit, p)
  | fuel + 1, p =>
      match p.advance with
      | (.ok (some t), p) => (.ok t, p)
      | (.ok none, p) => finishF fuel p
      | (.error e, p) => (.error e, p)

/-- Steps until the parse is finished. -/
def finish (p : Parse) : Except Failure Tree × Parse := finishF p.env.limit p

end Parse

end IncrementalLR
