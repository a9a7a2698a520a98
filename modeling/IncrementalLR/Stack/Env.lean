/-
**What the stacks of a parse share.**

Besides its own frames and records, an operation on a stack may read the document, ask the context
tracker, freeze records in a segment, refer to a tree that is taken over, and count big reductions.
All of that is shared by the stacks of one parse and held in an `Env`.

Main definitions:

* `RunawayWatch`, `Env` — the shared state;
* `Stack.start` — the stack that a parse begins with;
* `Stack.split` — moves the finished records of a stack into a segment;
* `Stack.raiseLookAhead`, `Stack.close` — the markers among the records;
* `Stack.changeContext` — the effect of a change on the context.

Main results:

* `Stack.frames_changeContext`, `Stack.state_changeContext` — a change of context touches neither
  frames nor state.
-/

import IncrementalLR.Parser.Basic
import IncrementalLR.Stack.Arena

set_option relaxedAutoImplicit false
set_option autoImplicit false

namespace IncrementalLR

/-- The largest reduction that was repeated from one start, to notice runaway repetitions. -/
structure RunawayWatch where
  start : Option Nat := none
  size : Nat := 0
  count : Nat := 0
deriving Repr, DecidableEq

/-- Notes a reduction of `size` bytes from `start`. -/
def RunawayWatch.add (b : RunawayWatch) (start size : Nat) : RunawayWatch :=
  if b.start = some start then { b with count := b.count + 1, size }
  else if b.size < size then ⟨some start, size, 1⟩
  else b

/-- What the stacks of a parse share. -/
structure Env where
  stream : Stream
  /-- The segments of all stacks. -/
  arena : Arena := {}
  /-- The trees that records of reuse stand for. -/
  reused : Array Tree := #[]
  watch : RunawayWatch := {}
  /-- The lines that host code has written, newest first. -/
  output : List String := []
  /-- The start of the first range. -/
  start : Nat
  /-- How often a loop that has no bound of its own is gone through. -/
  limit : Nat

namespace Stack

/-- The stack that a parse begins with. -/
def start (p : Parser) (pos : Nat) : Stack where
  state := p.top.1
  reducePos := pos
  pos := pos
  context := p.tracker.map fun t => t.contextOf t.start

/-! ### Splitting -/

/-- Moves the finished records of a stack into a new segment, so that the stack can be split: both
halves then go on from the result. -/
def split (s : Stack) (env : Env) : Stack × Env :=
  let arena := match s.finished with
    | [] => env.arena
    | piece => env.arena.push ⟨slotsOf piece, s.base, s.parent⟩
  (s.freeze env.arena.size, { env with arena })

/-! ### Markers -/

/-- Appends a marker unless the newest record is one of its kind. -/
def mark (s : Stack) (id : Int) (size : Int) : Stack :=
  if s.own.top?.any (·.size = size) then s
  else s.pushRecord ⟨id, signedPos s.pos, signedPos s.pos, size⟩

/-- Marks the context hash that held so far. -/
def markContext (s : Stack) : Stack :=
  match s.context with
  | some c => s.mark c.hash Record.contextSize
  | none => s

/-- Marks the look-ahead position that held so far. -/
def markLookAhead (s : Stack) : Stack := s.mark (signedPos s.lookAhead) Record.lookAheadSize

/-- Raises the look-ahead position. -/
def raiseLookAhead (s : Stack) (pos : Nat) : Stack :=
  if s.lookAhead < pos then { s.markLookAhead with lookAhead := pos } else s

/-- Marks the last context and look-ahead before a tree is built. -/
def close (p : Parser) (s : Stack) : Stack :=
  let s := if p.tracker.any (·.strict) then s.markContext else s
  if 0 < s.lookAhead then s.markLookAhead else s

/-! ### Context -/

/-- Takes a new context value; a change of its hash is marked. -/
def setContext (t : Tracker) (value : Int) (s : Stack) : Stack :=
  let new := t.contextOf value
  let s := if s.context.any (·.hash ≠ new.hash) then s.markContext else s
  { s with context := some new }

/-- Asks the tracker for the context after a change of text that starts at `start`. -/
def changeContext (p : Parser) (change : ContextChange) (start : Nat) (s : Stack) (env : Env) :
    Stack × Env :=
  match p.tracker, s.context with
  | some t, some c =>
      let stream := env.stream.reset start none
      let r := t.update change c.value ⟨p.toGrammar, s, env.limit⟩ stream
      (s.setContext t r.1, { env with stream, output := r.2.reverse ++ env.output })
  | _, _ => (s, env)

@[simp] theorem frames_mark (s : Stack) (id : Int) (size : Int) :
    (s.mark id size).frames = s.frames := by
  unfold mark
  split <;> rfl

@[simp] theorem state_mark (s : Stack) (id : Int) (size : Int) :
    (s.mark id size).state = s.state := by
  unfold mark
  split <;> rfl

@[simp] theorem frames_markContext (s : Stack) : s.markContext.frames = s.frames := by
  unfold markContext
  split <;> simp

@[simp] theorem state_markContext (s : Stack) : s.markContext.state = s.state := by
  unfold markContext
  split <;> simp

@[simp] theorem frames_setContext (t : Tracker) (value : Int) (s : Stack) :
    (s.setContext t value).frames = s.frames := by
  unfold setContext
  simp only
  split <;> simp

@[simp] theorem state_setContext (t : Tracker) (value : Int) (s : Stack) :
    (s.setContext t value).state = s.state := by
  unfold setContext
  simp only
  split <;> simp

/-- A change of context touches no frame. -/
@[simp] theorem frames_changeContext (p : Parser) (change : ContextChange) (start : Nat)
    (s : Stack) (env : Env) : (s.changeContext p change start env).1.frames = s.frames := by
  unfold changeContext
  split <;> simp

/-- A change of context leaves the state alone. -/
@[simp] theorem state_changeContext (p : Parser) (change : ContextChange) (start : Nat)
    (s : Stack) (env : Env) : (s.changeContext p change start env).1.state = s.state := by
  unfold changeContext
  split <;> simp

end Stack

end IncrementalLR
