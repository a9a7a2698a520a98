/-
**The arithmetic of building.**

A machine has numbers of a fixed width: a difference that would fall below zero and a sum that is
too large end the program, and a number that is written into a slot of 16 bits is cut.  The builder
relies on its records to keep clear of both.  `Tree.build` says what it computes with numbers of any
size; this module follows a build and lists the operations that a machine may fail at.  It does the
same for `Tree.balance`, whose children need not follow each other.

Each function follows one of the builder and lists the operations on its way: `packOps` those of
`pack`, `takeNodeOpsF` those of `takeNodeF`.  The numbers that are copied into a buffer stand in the
list as they stand in the buffer.  What would come after an operation that ends the program means
nothing; that is no harm, since such a list is only asked whether it has one.

Main definitions:

* `Operation`, `Operation.halts`, `Operation.written?` — operations on machine numbers;
* `Builder.copyRunOpsF`, `Builder.packOps`, `Builder.takeFlatOps` — those of filling a buffer;
* `Builder.takeNodeOpsF`, `Builder.takeChildrenOpsF` — those of taking nodes;
* `Tree.buildOps` — those of a whole build;
* `Tree.buildChecked`, `Tree.balanceChecked` — building and balancing a tree on a machine.

## Boundary

Positions in a tree have 32 bits and the machine computes with 64, so that sums of a few of them are
exact.  Records are read only while there are some left, and all differences in looking ahead over
them are behind a comparison; neither is listed.
-/

import IncrementalLR.Tree.Build

set_option relaxedAutoImplicit false
set_option autoImplicit false

namespace IncrementalLR

/-! ### Operations -/

/-- An operation on numbers of a fixed width. -/
inductive Operation where
  /-- The difference `a - b`. -/
  | minus (a b : Nat)
  /-- The sum `a + b` where the largest number is `top`. -/
  | plus (top a b : Nat)
  /-- Writing a number into a slot of 16 bits. -/
  | write (n : Int)
deriving Repr, DecidableEq

namespace Operation

/-- Whether the operation ends the program. -/
def halts : Operation → Bool
  | minus a b => a < b
  | plus top a b => top < a + b
  | write _ => false

/-- The number that is written into a slot. -/
def written? : Operation → Option Int
  | write n => some n
  | _ => none

end Operation

namespace Builder

/-! ### Buffers -/

mutual

/-- The operations of `copyNodeF`. -/
def copyNodeOpsF (d : BuildPlan) (base : Nat) : Nat → Builder → Nat → List Nat → List Operation
  | 0, _, _, _ => []
  | fuel + 1, b, index, out =>
      let c := b.reader.record
      let b := b.next
      if 0 ≤ c.size && c.id < d.repeatFrom then
        let stop := b.reader.pos - (c.size.toNat - 4)
        let inner := if 4 < c.size then copyRunF d base fuel stop b index out else (b, index, out)
        [.minus inner.2.1 4, .write c.id,
          .minus c.startPos base, .write (c.startPos - base : Nat),
          .minus c.stopPos base, .write (c.stopPos - base : Nat), .write index] ++
        if 4 < c.size then
          .minus b.reader.pos (c.size.toNat - 4) :: copyRunOpsF d base fuel stop b index out
        else []
      else []

/-- The operations of `copyRunF`. -/
def copyRunOpsF (d : BuildPlan) (base : Nat) :
    Nat → Nat → Builder → Nat → List Nat → List Operation
  | 0, _, _, _, _ => []
  | fuel + 1, stop, b, index, out =>
      if b.reader.pos ≤ stop then []
      else
        let r := copyNodeF d base fuel b index out
        -- what is copied later stands in front
        copyRunOpsF d base fuel stop r.1 r.2.1 r.2.2 ++ copyNodeOpsF d base fuel b index out

end

/-- The operations of `pack`. -/
def packOps (d : BuildPlan) (b : Builder) (run : Run) (stop : Nat) : List Operation :=
  let pos := b.reader.pos
  [.minus run.size run.skip, .minus pos run.size, .minus stop run.start] ++
    copyRunOpsF d run.start (2 * pos + 2) (pos - run.size) b (run.size - run.skip) []

/-- The operations of `flatSlots`; indices are counted in 16 bits there. -/
def flatSlotsOps (base : Nat) : Nat → List Record → List Operation
  | _, [] => []
  | index, c :: rest =>
      [.write c.id, .minus c.startPos base, .write (c.startPos - base : Nat),
        .minus c.stopPos base, .write (c.stopPos - base : Nat),
        .plus 65535 (half index) 4, .write (index + 4 : Nat)] ++
      flatSlotsOps base (index + 4) rest

/-- The operations of `takeFlat`. -/
def takeFlatOps (d : BuildPlan) (minPos : Nat) (b : Builder) : List Operation :=
  let nodes := (collectF d minPos b.reader.pos b none []).2
  match nodes, nodes.getLast? with
  | first :: _, some last =>
      .minus last.stopPos first.startPos :: flatSlotsOps first.startPos 0 nodes
  | _, _ => []

/-! ### Groups -/

mutual

/-- The operations of `Tree.groupF`. -/
def groupOpsF (ty : NodeType) : Nat → List (Nat × Tree) → List Operation
  | 0, _ => []
  | fuel + 1, cs => divideOpsF ty fuel (Tree.groupLimit (Tree.totalSize ty cs)) cs

/-- The operations of `Tree.divideF`. -/
def divideOpsF (ty : NodeType) : Nat → Nat → List (Nat × Tree) → List Operation
  | 0, _, _ => []
  | _, _, [] => []
  | fuel + 1, limit, c :: rest =>
      let g := Tree.growGroup ty limit (c.2.groupSize ty) rest
      let after := divideOpsF ty fuel limit g.2.2
      match g.1.getLast? with
      | none =>
          if limit < g.2.1 && c.2.isBranch then divideOpsF ty fuel limit c.2.children ++ after
          else after
      | some last =>
          .minus (last.1 + last.2.length) c.1 :: (groupOpsF ty fuel (c :: g.1) ++ after)

end

/-- The operations of `Tree.balanceWith`. -/
def balanceOps (ty : NodeType) (cs : List (Nat × Tree)) : List Operation :=
  groupOpsF ty (3 * Tree.weightAll cs + 1) cs

/-- The operations of `Family.close`. -/
def Family.closeOps (f : Family) (p : Parent) (start : Nat) : List Operation :=
  ((f.children.take (f.children.length - f.grouped)).map fun c => .minus (c.1 + p.start) start) ++
    [.minus f.groupStop start, .minus start p.start]

/-- The operations of `Family.node`. -/
def Family.nodeOps (f : Family) (p : Parent) : List Operation :=
  .minus p.stop p.start ::
    if 0 ≤ p.inRepeat && 0 < f.grouped then
      if f.grouped < f.children.length then
        f.closeOps p p.start ++ balanceOps p.type (f.close p p.start).children
      else balanceOps p.type f.children
    else []

/-! ### Nodes -/

mutual

/-- The operations of `takeNodeF`. -/
def takeNodeOpsF (d : BuildPlan) : Nat → Nat → Int → Nat → Builder → List Operation
  | 0, _, _, _, _ => []
  | fuel + 1, minPos, inRepeat, depth, b =>
      let c := b.reader.record
      if c.size < 4 then []
      else if (b.reader.pos - minPos : Nat) < c.size || c.stopPos < c.startPos then
        [.minus b.reader.pos minPos]
      else
        match d.typeOf c.id with
        | .error _ => [.minus b.reader.pos minPos]
        | .ok ty =>
            let run :=
              if c.stopPos - c.startPos ≤ d.maxBuffer then findRun d b.reader minPos inRepeat
              else none
            [.minus b.reader.pos minPos, .minus c.stopPos c.startPos] ++
            match run with
            | some run => packOps d b run c.stopPos
            | none =>
                let p : Parent :=
                  { type := ty, start := c.startPos, stop := c.stopPos,
                    inRepeat := if d.repeatFrom ≤ c.id then c.id else -1,
                    lookAhead := b.lookAhead, contextHash := b.contextHash, depth }
                let minPos := b.reader.pos - c.size.toNat
                .minus b.reader.pos c.size.toNat ::
                  (takeChildrenOpsF d fuel p minPos { groupStop := p.stop } b.next ++
                    match takeChildrenF d fuel p minPos { groupStop := p.stop } b.next with
                    | .ok r => r.1.nodeOps p
                    | .error _ => [])

/-- The operations of `takeChildrenF`. -/
def takeChildrenOpsF (d : BuildPlan) : Nat → Parent → Nat → Family → Builder → List Operation
  | 0, _, _, _, _ => []
  | fuel + 1, p, minPos, f, b =>
      let c := b.reader.record
      if b.reader.pos ≤ minPos then []
      else if 0 ≤ p.inRepeat && c.id = p.inRepeat && 0 ≤ c.size then
        .plus maxPos c.stopPos d.maxBuffer ::
          if c.stopPos + d.maxBuffer ≤ f.groupStop then
            f.closeOps p c.stopPos ++ takeChildrenOpsF d fuel p minPos (f.close p c.stopPos) b.next
          else takeChildrenOpsF d fuel p minPos f b.next
      else
        let r :=
          if cutoffDepth < p.depth then takeFlat d p.start minPos f.children b
          else takeNodeF d fuel p.start minPos p.inRepeat (p.depth + 1) f.children b
        (if cutoffDepth < p.depth then takeFlatOps d minPos b
          else takeNodeOpsF d fuel minPos p.inRepeat (p.depth + 1) b) ++
        match r with
        | .ok r => takeChildrenOpsF d fuel p minPos { f with children := r.1 } r.2
        | .error _ => []

end

/-- The operations of `takeAllF`. -/
def takeAllOpsF (d : BuildPlan) : Nat → List (Nat × Tree) → Builder → List Operation
  | 0, _, _ => []
  | fuel + 1, cs, b =>
      if b.reader.pos ≤ d.bufferStart then []
      else
        takeNodeOpsF d (2 * b.reader.pos + 2) d.bufferStart (-1) 0 b ++
        match takeNodeF d (2 * b.reader.pos + 2) d.start d.bufferStart (-1) 0 cs b with
        | .ok r => takeAllOpsF d fuel r.1 r.2
        | .error _ => []

end Builder

namespace Tree

/-! ### Trees -/

/-- The operations of `Tree.buildFrom`. -/
def buildFromOps (d : BuildPlan) (r : Reader) : List Operation :=
  match d.set.get? d.top with
  | none => []
  | some _ => Builder.takeAllOpsF d (r.pos + 1) [] { reader := r }

/-- The operations of `Tree.build`. -/
def buildOps (d : BuildPlan) (slots : List Int) : List Operation :=
  match recordsOk slots d.bufferStart with
  | .ok _ => buildFromOps d (.ofSlots slots)
  | .error _ => []

/-- The operations of `Tree.balance`. -/
def balanceOps (t : Tree) : List Operation :=
  if t.children.length ≤ branchFactor then [] else Builder.balanceOps .none t.children

/-- Balances the direct children of a tree on a machine, where a group that ends before it starts
ends the program without an answer. -/
def balanceChecked (t : Tree) : Option Tree :=
  if t.balanceOps.any Operation.halts then none else some t.balance

/-- Builds a tree on a machine, where an operation may end the program without an answer. -/
def buildChecked (d : BuildPlan) (slots : List Int) : Option (Except ParseError Tree) :=
  if (buildOps d slots).any Operation.halts then none else some (build d slots)

end Tree

end IncrementalLR
