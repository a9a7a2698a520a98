/-
**Building trees from node records.**

The builder reads records backwards, so it meets a parent before its children and the last child
first.  Runs of small neighbouring nodes are packed into a buffer, other nodes become branches.
Nodes of a repetition contain earlier nodes of the same repetition; these are not kept as a chain
but cut into leaves of about the size of a buffer, which are then balanced.

Before packing, the builder looks ahead over the records to see how large a run can be packed
(`Builder.findRun`); the copying that follows (`Builder.copyNodeF`) drops the same records as the
look-ahead counted as skipped.

Main definitions:

* `BuildPlan` — what a tree is built from besides its records;
* `Builder` — the reader with the context and look-ahead that hold at its place;
* `Builder.findRun`, `Builder.copyNodeF` — packing;
* `Builder.takeNodeF`, `Builder.takeChildrenF` — one node, and the children of a node;
* `Tree.buildFrom`, `Tree.build` — trees from a reader and from a flat sequence.
-/

import IncrementalLR.Tree.Balance
import IncrementalLR.Tree.Record

set_option relaxedAutoImplicit false
set_option autoImplicit false

namespace IncrementalLR

/-- The largest text length that is packed into one buffer, unless configured otherwise. -/
def defaultBufferLength : Nat := 1024

/-- The nesting depth past which nodes are flattened. -/
def cutoffDepth : Nat := 2500

/-- Look-ahead up to this distance is not recorded. -/
def lookAheadMargin : Nat := 25

/-- What a tree is built from besides its records. -/
structure BuildPlan where
  set : NodeSet
  /-- The id of the type of the root. -/
  top : Nat
  /-- The largest text length that is packed into one buffer. -/
  maxBuffer : Nat := defaultBufferLength
  /-- The trees that records of reuse stand for. -/
  reused : Array Tree := #[]
  /-- The document position that positions are counted from. -/
  start : Nat := 0
  /-- Slots before this one do not belong to the tree. -/
  bufferStart : Nat := 0
  /-- The length of the root, if it is given. -/
  length : Option Nat := none
  /-- Types from this id on are those of repetitions. -/
  minRepeat : Option Nat := none

namespace BuildPlan

/-- The id from which on types are those of repetitions. -/
def repeatFrom (d : BuildPlan) : Int := (d.minRepeat.getD d.set.size : Nat)

/-- The type with an id. -/
def typeOf (d : BuildPlan) (id : Int) : Except ParseError NodeType :=
  match if 0 ≤ id then d.set.get? id.toNat else none with
  | some t => .ok t
  | none => .error (.invalidRecord id)

end BuildPlan

/-- The state of the builder: the reader, and the context hash and look-ahead position that hold
at its place. -/
structure Builder where
  reader : Reader
  contextHash : Nat := 0
  lookAhead : Nat := 0

/-! ### New nodes -/

/-- A branch with the context hash and the look-ahead distance that are worth recording. -/
def makeBranch (ty : NodeType) (cs : List (Nat × Tree)) (length lookAhead contextHash : Nat) :
    Tree :=
  .make ty cs length <|
    (if contextHash ≠ 0 then [(.contextHash, .number contextHash)] else []) ++
    (if lookAheadMargin < lookAhead then [(.lookAhead, .number (Tree.word lookAhead))] else [])

/-- A node of a balanced repetition.  A single child of the same type and length is taken as it
is; otherwise the look-ahead of the last child is carried over. -/
def makeRepeat (ty : NodeType) (contextHash : Nat) (cs : List (Nat × Tree)) (length : Nat) : Tree :=
  match cs.getLast? with
  | some (pos, last) =>
      if last.isBranch then
        if cs.length = 1 && last.type.same ty && last.length = length then last
        else
          let reach := ((last.numberProp? .lookAhead).map (pos + last.length + ·)).getD 0
          makeBranch ty cs length reach contextHash
      else makeBranch ty cs length 0 contextHash
  | none => makeBranch ty cs length 0 contextHash

/-- Wraps all but the `keep` last of the children into a leaf of a repetition from `start` to
`stop`; the children are at positions relative to `base`. -/
def repeatLeaf (ty : NodeType) (cs : List (Nat × Tree)) (base keep start stop : Nat)
    (lookAhead contextHash : Nat) : List (Nat × Tree) :=
  let wrapped := cs.take (cs.length - keep)
  let moved := wrapped.map fun c => (Tree.word (c.1 + base - start), c.2)
  (Tree.word (start - base), makeBranch ty moved (stop - start) (lookAhead - stop) contextHash)
    :: cs.drop (cs.length - keep)

namespace Builder

/-! ### Packing -/

/-- A run of records that can be packed: the slots that it takes, the start of its text, and the
slots that are dropped from it. -/
structure Run where
  size : Nat := 0
  start : Nat := 0
  skip : Nat := 0
deriving Repr, DecidableEq

/-- Passes over the records of a node down to slot `stop`, counting slots that are dropped; stops
the search at records that a buffer cannot hold. -/
def passF (d : BuildPlan) (stop : Nat) : Nat → Reader → Nat → Option (Reader × Nat)
  | 0, r, skip => some (r, skip)
  | fuel + 1, r, skip =>
      if r.pos ≤ stop then some (r, skip)
      else if r.record.size < 0 then
        if r.record.size = Record.contextSize then passF d stop fuel r.next (skip + 4) else none
      else passF d stop fuel r.next (if d.repeatFrom ≤ r.record.id then skip + 4 else skip)

/-- Looks ahead over a run of small nodes down to slot `minPos`.  `whole` is the run so far,
`complete` the run up to the last node of the enclosing repetition. -/
def scanF (d : BuildPlan) (minPos minStart : Nat) (inRepeat : Int) :
    Nat → Reader → Run → Run → Run × Run
  | 0, _, whole, complete => (whole, complete)
  | fuel + 1, r, whole, complete =>
      let c := r.record
      if r.pos ≤ minPos then (whole, complete)
      else if c.id = inRepeat && 0 ≤ c.size then
        -- a node of the enclosing repetition is flattened: only its own record is dropped
        scanF d minPos minStart inRepeat fuel r.next
          { whole with size := whole.size + 4, skip := whole.skip + 4 } whole
      else if c.size < 0 || (r.pos : Int) - c.size < minPos || c.startPos < minStart then
        (whole, complete)
      else
        let own := if d.repeatFrom ≤ c.id then 4 else 0
        match passF d (r.pos - c.size.toNat) r.pos r.next own with
        | none => (whole, complete)
        | some (r', skipped) =>
            scanF d minPos minStart inRepeat fuel r'
              ⟨whole.size + c.size.toNat, c.startPos, whole.skip + skipped⟩ complete

/-- The run of small nodes before the reader that can be packed into one buffer, if it is worth
it.  Inside a repetition only a run that ends with one of its nodes, or takes all that is there,
is packed. -/
def findRun (d : BuildPlan) (r : Reader) (minPos : Nat) (inRepeat : Int) : Option Run :=
  let minStart := r.record.stopPos - d.maxBuffer
  let found := scanF d minPos minStart inRepeat r.pos r {} {}
  let run := if inRepeat < 0 || found.1.size = r.pos - minPos then found.1 else found.2
  if 4 < run.size then some run else none

/-- A slot in 16 bits. -/
def half (n : Int) : Nat := (n % 65536).toNat

/-- The builder after a record that marks a change of context or look-ahead. -/
def mark (b : Builder) (r : Record) : Builder :=
  if r.size = Record.contextSize then { b with contextHash := (r.id % 4294967296).toNat }
  else if r.size = Record.lookAheadSize then { b with lookAhead := r.id.toNat }
  else b

/-- Moves to the record before. -/
def next (b : Builder) : Builder := { b with reader := b.reader.next }

mutual

/-- Copies the node at the reader, with everything below it, in front of the slots `out`, which
begin at `index`. -/
def copyNodeF (d : BuildPlan) (base : Nat) :
    Nat → Builder → Nat → List Nat → Builder × Nat × List Nat
  | 0, b, index, out => (b, index, out)
  | fuel + 1, b, index, out =>
      let c := b.reader.record
      let b := b.next
      if 0 ≤ c.size && c.id < d.repeatFrom then
        let inner :=
          if 4 < c.size then
            copyRunF d base fuel (b.reader.pos - (c.size.toNat - 4)) b index out
          else (b, index, out)
        -- the node stands in front of its children, and `index` is where they end
        (inner.1, inner.2.1 - 4,
          half c.id :: half ((c.startPos - base : Nat)) :: half ((c.stopPos - base : Nat))
            :: half index :: inner.2.2)
      else (b.mark c, index, out)

/-- Copies the nodes at the reader down to slot `stop`. -/
def copyRunF (d : BuildPlan) (base : Nat) :
    Nat → Nat → Builder → Nat → List Nat → Builder × Nat × List Nat
  | 0, _, b, index, out => (b, index, out)
  | fuel + 1, stop, b, index, out =>
      if b.reader.pos ≤ stop then (b, index, out)
      else
        let r := copyNodeF d base fuel b index out
        copyRunF d base fuel stop r.1 r.2.1 r.2.2

end

/-- Packs a run into a buffer that ends at text position `stop`. -/
def pack (d : BuildPlan) (b : Builder) (run : Run) (stop : Nat) : Builder × Tree :=
  let pos := b.reader.pos
  let r := copyRunF d run.start (2 * pos + 2) (pos - run.size) b (run.size - run.skip) []
  (r.1, .packed (.make (List.replicate r.2.1 0 ++ r.2.2).toArray (stop - run.start) d.set))

/-! ### Flattening -/

/-- Collects the nodes without children down to slot `minPos`, newest last, as long as their text
fits into one buffer.  `floor` is the least start that still fits. -/
def collectF (d : BuildPlan) (minPos : Nat) :
    Nat → Builder → Option Nat → List Record → Builder × List Record
  | 0, b, _, nodes => (b, nodes)
  | fuel + 1, b, floor, nodes =>
      let c := b.reader.record
      if b.reader.pos ≤ minPos then (b, nodes)
      -- the children of a node come next, and are taken in its place
      else if 4 < c.size then collectF d minPos fuel b.next floor nodes
      else if c.size < 0 || floor.any (c.startPos < ·) then (b, nodes)
      else
        collectF d minPos fuel b.next (some (floor.getD (c.stopPos - d.maxBuffer))) (c :: nodes)

/-- The slots of nodes without children, the first of which has its slots at `index`. -/
def flatSlots (base : Nat) : Nat → List Record → List Nat
  | _, [] => []
  | index, c :: rest =>
      half c.id :: half ((c.startPos - base : Nat)) :: half ((c.stopPos - base : Nat))
        :: half (index + 4 : Nat) :: flatSlots base (index + 4) rest

/-- Takes a special record: a subtree taken over, or a change of context or look-ahead. -/
def takeMarker (d : BuildPlan) (parentStart : Nat) (cs : List (Nat × Tree)) (b : Builder) :
    Except ParseError (List (Nat × Tree) × Builder) :=
  let c := b.reader.record
  if c.size = Record.reuseSize then
    match if 0 ≤ c.id then d.reused[c.id.toNat]? else none with
    | some t => .ok ((Tree.word (c.startPos - parentStart), t) :: cs, b.next)
    | none => .error (.invalidRecord c.size)
  else if c.size = Record.contextSize || c.size = Record.lookAheadSize then
    .ok (cs, b.next.mark c)
  else .error (.invalidRecord c.size)

/-- Packs the nodes without children at the reader into one buffer, and drops those with children.
A special record in front is taken on its own. -/
def takeFlat (d : BuildPlan) (parentStart minPos : Nat) (cs : List (Nat × Tree)) (b : Builder) :
    Except ParseError (List (Nat × Tree) × Builder) :=
  let r := collectF d minPos b.reader.pos b none []
  match r.2, r.2.getLast? with
  | first :: _, some last =>
      let buffer := Buffer.make (flatSlots first.startPos 0 r.2).toArray
        (last.stopPos - first.startPos) d.set
      .ok ((Tree.word (first.startPos - parentStart), .packed buffer) :: cs, r.1)
  | _, _ =>
      if minPos < r.1.reader.pos then takeMarker d parentStart cs r.1 else .ok (cs, r.1)

/-! ### Nodes -/

/-- What has been collected of the children of a node: the children, how many of them belong to
finished leaves of a repetition, and where the unfinished leaf ends. -/
structure Family where
  children : List (Nat × Tree) := []
  grouped : Nat := 0
  groupStop : Nat

/-- The node of which the children are collected. -/
structure Parent where
  type : NodeType
  start : Nat
  stop : Nat
  /-- The id of the type if it is the type of a repetition, else -1. -/
  inRepeat : Int
  lookAhead : Nat
  contextHash : Nat
  depth : Nat

/-- The unfinished leaf of a repetition, wrapped from `start` on. -/
def Family.close (f : Family) (p : Parent) (start : Nat) : Family :=
  let cs := repeatLeaf p.type f.children p.start f.grouped start f.groupStop p.lookAhead
    p.contextHash
  ⟨cs, cs.length, start⟩

/-- The node of a parent and its children. -/
def Family.node (f : Family) (p : Parent) : Tree :=
  if 0 ≤ p.inRepeat && 0 < f.grouped then
    let f := if f.grouped < f.children.length then f.close p p.start else f
    Tree.balanceWith p.type (makeRepeat p.type p.contextHash) (makeRepeat p.type p.contextHash)
      f.children (p.stop - p.start)
  else
    makeBranch p.type f.children (p.stop - p.start) (p.lookAhead - p.stop) p.contextHash

mutual

/-- Takes the node at the reader and puts it in front of the children `cs` of a parent that starts
at `parentStart` and whose records begin at slot `minPos`. -/
def takeNodeF (d : BuildPlan) : Nat → Nat → Nat → Int → Nat → List (Nat × Tree) → Builder →
    Except ParseError (List (Nat × Tree) × Builder)
  | 0, _, _, _, _, cs, b => .ok (cs, b)
  | fuel + 1, parentStart, minPos, inRepeat, depth, cs, b =>
      let c := b.reader.record
      if c.size < 0 then takeMarker d parentStart cs b
      else if c.size < 4 || (b.reader.pos - minPos : Nat) < c.size || c.stopPos < c.startPos then
        .error (.invalidRecord c.size)
      else do
        let ty ← d.typeOf c.id
        let run :=
          if c.stopPos - c.startPos ≤ d.maxBuffer then findRun d b.reader minPos inRepeat else none
        match run with
        | some run =>
            let r := pack d b run c.stopPos
            return ((Tree.word (run.start - parentStart), r.2) :: cs, r.1)
        | none =>
            let p : Parent :=
              { type := ty, start := c.startPos, stop := c.stopPos,
                inRepeat := if d.repeatFrom ≤ c.id then c.id else -1,
                lookAhead := b.lookAhead, contextHash := b.contextHash, depth }
            let r ← takeChildrenF d fuel p (b.reader.pos - c.size.toNat) { groupStop := p.stop }
              b.next
            return ((Tree.word (c.startPos - parentStart), r.1.node p) :: cs, r.2)

/-- Takes the children of a parent whose records begin at slot `minPos`. -/
def takeChildrenF (d : BuildPlan) : Nat → Parent → Nat → Family → Builder →
    Except ParseError (Family × Builder)
  | 0, _, _, f, b => .ok (f, b)
  | fuel + 1, p, minPos, f, b =>
      let c := b.reader.record
      if b.reader.pos ≤ minPos then .ok (f, b)
      else if 0 ≤ p.inRepeat && c.id = p.inRepeat && 0 ≤ c.size then
        -- the leaf is finished as soon as it is too long for a buffer
        let f := if c.stopPos + d.maxBuffer ≤ f.groupStop then f.close p c.stopPos else f
        takeChildrenF d fuel p minPos f b.next
      else do
        let r ←
          if cutoffDepth < p.depth then takeFlat d p.start minPos f.children b
          else takeNodeF d fuel p.start minPos p.inRepeat (p.depth + 1) f.children b
        takeChildrenF d fuel p minPos { f with children := r.1 } r.2

end

/-- Takes all nodes down to the first slot of the tree. -/
def takeAllF (d : BuildPlan) : Nat → List (Nat × Tree) → Builder →
    Except ParseError (List (Nat × Tree))
  | 0, cs, _ => .ok cs
  | fuel + 1, cs, b =>
      if b.reader.pos ≤ d.bufferStart then .ok cs
      else do
        let r ← takeNodeF d (2 * b.reader.pos + 2) d.start d.bufferStart (-1) 0 cs b
        takeAllF d fuel r.1 r.2

end Builder

namespace Tree

/-! ### Trees -/

/-- The length of a root that is given none: the end of its first child. -/
def rootLength (cs : List (Nat × Tree)) : Nat := (cs.head?.map fun c => c.1 + c.2.length).getD 0

/-- Builds a tree from the records of a reader. -/
def buildFrom (d : BuildPlan) (r : Reader) : Except ParseError Tree :=
  match d.set.get? d.top with
  | none => .error (.invalidRecord d.top)
  | some ty => do
      let cs ← Builder.takeAllF d (r.pos + 1) [] { reader := r }
      return .make ty cs (d.length.getD (rootLength cs)) []

/-- What a tree that is built consists of. -/
theorem exists_of_buildFrom {d : BuildPlan} {r : Reader} {t : Tree} (h : buildFrom d r = .ok t) :
    ∃ ty cs, d.set.get? d.top = some ty ∧
      Builder.takeAllF d (r.pos + 1) [] { reader := r } = .ok cs ∧
        t = .make ty cs (d.length.getD (rootLength cs)) [] := by
  unfold buildFrom at h
  split at h
  · cases h
  · rename_i ty hty
    obtain ⟨cs, htake, h⟩ := bind_ok h
    exact ⟨ty, cs, hty, htake, (Except.ok.inj h).symm⟩

/-- Builds a tree from a flat sequence of slots, which is checked first. -/
def build (d : BuildPlan) (slots : List Int) : Except ParseError Tree := do
  recordsOk slots d.bufferStart
  buildFrom d (.ofSlots slots)

end Tree

end IncrementalLR
