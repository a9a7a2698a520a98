/-
**Storing nodes.**

A reduction stores its node when the token after it has been read, so skipped tokens that follow the
node may stand among the records already.  The node then sinks below them: it is inserted before the
records that end after it, and its size is reduced by theirs, since they are not its children.

An error node is merged into an error node directly before it.

Main definitions:

* `Stack.previousRecord?`, `Stack.errorBefore?` — the newest record of a stack, and the error node
  that a new one is merged with;
* `Stack.sinkInto` — inserting below the records that end later;
* `Stack.addNode` — storing a node.

Main results:

* `Stack.length_sinkInto` — sinking adds one record;
* `Stack.frames_addNode`, `Stack.state_addNode` — storing touches neither frames nor state.
-/

import IncrementalLR.Stack.Env

set_option relaxedAutoImplicit false
set_option autoImplicit false

namespace IncrementalLR

namespace Stack

/-- The newest record, which may be shared with other stacks. -/
def previousRecord? (s : Stack) : Option Record :=
  match s.own.items with
  | r :: _ => some r
  | [] => s.frozen.head?.bind List.head?

/-- Whether an error node may be merged with the record before it: no symbol starts in between. -/
def mayMerge (s : Stack) : Bool := s.frames.top?.all (·.bufferPos < s.bufferLength)

/-- Moves the end of the newest record of its own. -/
def extendLast (s : Stack) (stop : Nat) : Stack :=
  match s.own.items with
  | r :: _ => { s with own := (s.own.drop 1).push { r with stop := signedPos stop } }
  | [] => s

/-- Records, newest first, with a node inserted below those that end after it.  It stays on top if
no node is among them. -/
def sinkInto (r : Record) (records : List Record) : List Record :=
  let tail := records.takeWhile fun c => r.stop < c.stop
  if tail.any (·.isNode) then
    tail ++ { r with size := max 4 (r.size - 4 * tail.length) }
      :: records.dropWhile fun c => r.stop < c.stop
  else r :: records

/-- One record more than before. -/
theorem length_sinkInto (r : Record) (records : List Record) :
    (sinkInto r records).length = records.length + 1 := by
  have key := congrArg List.length (List.takeWhile_append_dropWhile
    (p := fun c : Record => decide (r.stop < c.stop)) (l := records))
  rw [List.length_append] at key
  unfold sinkInto
  simp only
  split
  · simp only [List.length_append, List.length_cons]
    omega
  · rfl

/-- Appends a node, below later records if it has to sink.  Nothing sinks below an error. -/
def appendNode (s : Stack) (r : Record) (sink : Bool) : Stack :=
  if !sink || signedPos s.pos = r.stop || s.own.top?.all (·.isError) then s.pushRecord r
  else
    { s with
      own := ⟨sinkInto r s.own.items, s.own.size + 1, by rw [length_sinkInto, s.own.size_eq]⟩ }

/-- The error node directly before that a new error node is merged with. -/
def errorBefore? (s : Stack) : Option Record :=
  if s.mayMerge then s.previousRecord?.filter fun e => e.isError && e.isNode else none

/-- Stores a node of `size` slots.  An error node after another one vanishes if it is empty, and
extends the one before if it reaches it and no other stack shares it. -/
def addNode (s : Stack) (term start stop size : Nat) (sink : Bool) : Stack :=
  let r : Record := ⟨term, signedPos start, signedPos stop, size⟩
  match if term = errorTerm then s.errorBefore? else none with
  | some e =>
      if start = stop then s
      else if signedPos start ≤ e.stop && !s.own.isEmpty then s.extendLast stop
      else s.appendNode r sink
  | none => s.appendNode r sink

@[simp] theorem frames_extendLast (s : Stack) (stop : Nat) :
    (s.extendLast stop).frames = s.frames := by
  unfold extendLast
  split <;> rfl

@[simp] theorem state_extendLast (s : Stack) (stop : Nat) :
    (s.extendLast stop).state = s.state := by
  unfold extendLast
  split <;> rfl

@[simp] theorem frames_appendNode (s : Stack) (r : Record) (sink : Bool) :
    (s.appendNode r sink).frames = s.frames := by
  unfold appendNode
  split <;> rfl

@[simp] theorem state_appendNode (s : Stack) (r : Record) (sink : Bool) :
    (s.appendNode r sink).state = s.state := by
  unfold appendNode
  split <;> rfl

/-- Storing a node touches no frame. -/
@[simp] theorem frames_addNode (s : Stack) (term start stop size : Nat) (sink : Bool) :
    (s.addNode term start stop size sink).frames = s.frames := by
  unfold addNode
  simp only
  generalize (if term = errorTerm then s.errorBefore? else none) = previous
  cases previous with
  | none => simp
  | some e =>
      simp only
      split
      · rfl
      · split <;> simp

/-- Storing a node leaves the state alone. -/
@[simp] theorem state_addNode (s : Stack) (term start stop size : Nat) (sink : Bool) :
    (s.addNode term start stop size sink).state = s.state := by
  unfold addNode
  simp only
  generalize (if term = errorTerm then s.errorBefore? else none) = previous
  cases previous with
  | none => simp
  | some e =>
      simp only
      split
      · rfl
      · split <;> simp

end Stack

end IncrementalLR
