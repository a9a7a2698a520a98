/-
**Parses in progress.**

A parse holds the stacks that it follows, what they share, the tokens that were read last, and the
fragments that nodes can be taken over from.

Steps of a parse may fail.  A failed step still leaves its traces in the parse, what host code has
written among them, so steps are written in a monad that keeps the state when it fails.

Main definitions:

* `TokenMemo`, `Parse`, `Parse.start` — parses;
* `ParseM` — steps that may fail;
* `Parse.stopAt` — ending a parse early;
* `Parse.describe` — a short text.

Main results:

* `Parse.stopAt_eq_ok_iff` — the stop position moves backwards only.
-/

import IncrementalLR.Parse.Reuse
import IncrementalLR.Stack.Recovery

set_option relaxedAutoImplicit false
set_option autoImplicit false

namespace IncrementalLR

/-- The tokens that each tokenizer read last, and the token that the last actions were for. -/
structure TokenMemo where
  tokens : Array Token
  main : Option Token := none

/-- A parse in progress. -/
structure Parse where
  parser : Parser
  env : Env
  memo : TokenMemo
  reuse : Option ReuseCursor
  /-- The stacks that are followed. -/
  live : List Stack
  /-- The number of steps for which recovery stays on. -/
  recovering : Nat := 0
  /-- The position that every stack has reached. -/
  parsedPos : Nat
  stoppedAt : Option Nat := none
  /-- The number of the call that stores the tree. -/
  epoch : Nat
  result : Option Tree := none

/-- A step of a parse; the parse is kept when the step fails. -/
abbrev ParseM := ExceptT Failure (StateM Parse)

namespace Parse

/-- Whether ranges are sorted, do not overlap, and none ends before it starts. -/
def rangesOk (ranges : List Span) : Bool :=
  ranges.all (fun r => r.start ≤ r.stop) &&
    (ranges.zip ranges.tail).all fun p => p.1.stop ≤ p.2.start

/-- Starts a parse of some ranges of a document, or of all of it if none are given. -/
def start (p : Parser) (doc : Document) (fragments : List Fragment) (ranges : List Span)
    (epoch limit : Nat) : Except ParseError Parse :=
  if !rangesOk ranges then .error .invalidRanges
  else
    let ranges := if ranges.isEmpty then [⟨0, doc.size⟩] else ranges
    let stream := Stream.start doc ranges
    let first := (ranges.head?.map (·.start)).getD 0
    let reuse := !fragments.isEmpty && p.bufferLength * 4 < stream.stop - first
    .ok {
      parser := p,
      env := { stream, start := first, limit },
      memo := { tokens := Array.replicate p.tokenizers.size {} },
      reuse := if reuse then some (.ofFragments fragments) else none,
      live := [.start p first],
      parsedPos := first,
      epoch }

/-- Makes the parse end at a position; it can only move backwards. -/
def stopAt (p : Parse) (pos : Nat) : Except ParseError Parse :=
  match p.stoppedAt with
  | some current =>
      if current < pos then .error (.stopAtForward current pos)
      else .ok { p with stoppedAt := some pos }
  | none => .ok { p with stoppedAt := some pos }

/-- The stop position moves backwards only. -/
theorem stopAt_eq_ok_iff (p q : Parse) (pos : Nat) :
    p.stopAt pos = .ok q ↔
      q = { p with stoppedAt := some pos } ∧
        ∀ current, p.stoppedAt = some current → pos ≤ current := by
  unfold stopAt
  cases h : p.stoppedAt with
  | none => simp [eq_comm]
  | some current =>
      by_cases hlt : current < pos
      · simp [hlt]
      · simp only [hlt, if_false, Except.ok.injEq, Option.some.injEq, forall_eq']
        exact ⟨fun e => ⟨e.symm, by omega⟩, fun e => e.1.symm⟩

/-- The parse in short. -/
def describe (p : Parse) : String :=
  s!"Parse \x7b parsed_pos: {p.parsedPos}, stacks: {p.live.length}, recovering: {p.recovering}, " ++
    "stopped_at: " ++ ParseError.showEnd p.stoppedAt ++ ", .. \x7d"

end Parse

namespace ParseM

/-- Fails with an error. -/
def fail {α : Type} (e : ParseError) : ParseM α := throw (.error e)

/-- Does something to what the stacks share. -/
def onEnv {α : Type} (f : Env → α × Env) : ParseM α := do
  let p ← get
  let r := f p.env
  set { p with env := r.2 }
  return r.1

/-- Does something to what the stacks share that may run into the limit. -/
def onEnvLimited {α : Type} (f : Env → Option (α × Env)) : ParseM α := do
  let p ← get
  match f p.env with
  | some r =>
      set { p with env := r.2 }
      return r.1
  | none => throw .limit

/-- Goes on if a loop ends, which is known beforehand. -/
def guardLimit (ends : Bool) : ParseM Unit := if ends then return () else throw .limit

/-- The parser. -/
def parser : ParseM Parser := return (← get).parser

end ParseM

end IncrementalLR
