/-
**Stacks that share records.**

The stacks of a parse share the records that were written before they were split.  Splitting moves
these into a frozen piece that goes in front of the chain of older pieces, and into a new segment of
the arena; both halves hold the same chain.  Whatever is done to a stack afterwards, sinking a node
or merging errors included, is done to the records that it has for itself, so a chain only grows at
its newest end.

All records of a stack, the chain and its own ones together, are its full buffer.  A reader of the
stack crosses from its own records into the pieces of the chain, and gives the tree that a reader of
the flat full buffer gives.

Main definitions:

* `Stack.chain`, `Stack.fullBuffer` — the slots in frozen pieces, and all slots of a stack;
* `Stack.Operation`, `Stack.Operation.run` — what a parse does to a stack;
* `Pool`, `Pool.apply`, `Pool.applyAll` — the stacks of a parse, and operations on them in any
  order;
* `Stack.Chained` — the invariant of one chain;
* `Stack.SameChain`, `Stack.Extends` — a chain that stays, and one that may get a piece in front.

Main results:

* `Stack.Chained.reader_alike` — a stack is read like its full buffer;
* `Stack.Operation.run_grows` — **an operation leaves chain and arena alone, or puts a piece in front
  of the chain**.
-/

import IncrementalLR.Proofs.Forests
import IncrementalLR.Proofs.Pieces
import IncrementalLR.Proofs.Progress
import IncrementalLR.Proofs.Storing

set_option relaxedAutoImplicit false
set_option autoImplicit false

namespace IncrementalLR

/-! ### Full buffers -/

theorem slotsOf_append (rs rs' : List Record) :
    slotsOf (rs ++ rs') = slotsOf rs' ++ slotsOf rs := by
  simp [slotsOf]

theorem length_slotsOf (rs : List Record) : (slotsOf rs).length = 4 * rs.length := by
  simp [slotsOf, Record.slots, List.length_flatMap, List.map_const', Nat.mul_comm]

/-- A reader of the slots has the records to read. -/
theorem holds_slotsOf (rs : List Record) : (Reader.ofSlots (slotsOf rs)).Holds rs := by
  have hreverse : (slotsOf rs).reverse = rs.flatMap fun r => [r.size, r.stop, r.start, r.id] := by
    rw [slotsOf, List.reverse_flatMap, List.reverse_reverse]
    rfl
  have hquads : (Reader.ofSlots (slotsOf rs)).current = rs := by
    rw [Reader.ofSlots, hreverse, Outline.quads_flatMap]
  refine ⟨?_, length_slotsOf rs, fun _ => rfl, by simp [Reader.ofSlots]⟩
  rw [Reader.records, hquads]
  exact List.append_nil rs

namespace Stack

/-- The slots of the frozen pieces, the oldest piece first. -/
def chain (s : Stack) : List Int := s.frozen.reverse.flatMap slotsOf

/-- All slots of a stack: those of the frozen pieces, then its own ones. -/
def fullBuffer (s : Stack) : List Int := s.chain ++ slotsOf s.own.items

theorem chain_eq (s : Stack) : s.chain = slotsOf s.frozen.flatten := by
  unfold chain
  induction s.frozen with
  | nil => rfl
  | cons piece rest ih =>
      rw [List.reverse_cons, List.flatMap_append, ih, List.flatten_cons, slotsOf_append]
      simp

theorem fullBuffer_eq (s : Stack) : s.fullBuffer = slotsOf s.records := by
  rw [fullBuffer, chain_eq, records, slotsOf_append]

/-- Splitting keeps the full buffer. -/
theorem fullBuffer_freeze (s : Stack) (id : Nat) : (s.freeze id).fullBuffer = s.fullBuffer := by
  rw [fullBuffer_eq, fullBuffer_eq, records_freeze]

/-! ### Chains -/

/-- The base of a stack is the length of its chain, and there is no empty piece to get stuck at. -/
structure Chained (s : Stack) : Prop where
  base_eq : s.base = s.chain.length
  pieces : ∀ piece ∈ s.frozen, piece ≠ []

theorem Chained.bufferLength_eq {s : Stack} (h : s.Chained) :
    s.bufferLength = 4 * s.records.length := by
  have hbase := h.base_eq
  have hsize := s.own.size_eq
  rw [chain_eq, length_slotsOf] at hbase
  rw [bufferLength, records, List.length_append]
  omega

/-- **A stack is read like its full buffer.** -/
theorem Chained.reader_alike {s : Stack} (h : s.Chained) :
    s.reader.Alike (.ofSlots s.fullBuffer) := by
  refine ⟨s.records, .of_refill rfl h.bufferLength_eq h.pieces, ?_⟩
  rw [fullBuffer_eq]
  exact holds_slotsOf s.records

/-- Only base and pieces matter. -/
theorem Chained.congr {s s' : Stack} (h : s.Chained) (hbase : s'.base = s.base)
    (hfrozen : s'.frozen = s.frozen) : s'.Chained where
  base_eq := by rw [hbase, h.base_eq, chain_eq, chain_eq, hfrozen]
  pieces := hfrozen ▸ h.pieces

/-- A stack with the same chain. -/
structure SameChain (s s' : Stack) : Prop where
  frozen : s'.frozen = s.frozen
  base : s'.base = s.base
  parent : s'.parent = s.parent

namespace SameChain

variable {s s' s'' : Stack}

protected theorem refl (s : Stack) : SameChain s s := ⟨rfl, rfl, rfl⟩

protected theorem trans (h : SameChain s s') (h' : SameChain s' s'') : SameChain s s'' :=
  ⟨h'.frozen.trans h.frozen, h'.base.trans h.base, h'.parent.trans h.parent⟩

theorem chained (h : SameChain s s') (hs : s.Chained) : s'.Chained :=
  hs.congr h.base h.frozen

end SameChain

/-! ### Operations that keep the chain -/

theorem sameChain_mark (s : Stack) (id size : Int) : SameChain s (s.mark id size) := by
  unfold mark
  split
  · exact .refl s
  · exact ⟨rfl, rfl, rfl⟩

theorem sameChain_markContext (s : Stack) : SameChain s s.markContext := by
  unfold markContext
  split
  · exact sameChain_mark ..
  · exact .refl s

theorem sameChain_raiseLookAhead (s : Stack) (pos : Nat) :
    SameChain s (s.raiseLookAhead pos) := by
  obtain ⟨own, lookAhead, heq⟩ := s.raiseLookAhead_eq pos
  rw [heq]
  exact ⟨rfl, rfl, rfl⟩

theorem sameChain_changeContext (p : Parser) (change : ContextChange) (start : Nat) (s : Stack)
    (env : Env) : SameChain s (s.changeContext p change start env).1 := by
  unfold changeContext
  split
  · unfold setContext
    simp only
    split
    · exact (sameChain_markContext s).trans ⟨rfl, rfl, rfl⟩
    · exact ⟨rfl, rfl, rfl⟩
  · exact .refl s

theorem sameChain_addNode (s : Stack) (term start stop size : Nat) (sink : Bool) :
    SameChain s (s.addNode term start stop size sink) := by
  obtain ⟨own, heq⟩ := s.addNode_eq term start stop size sink
  rw [heq]
  exact ⟨rfl, rfl, rfl⟩

theorem sameChain_beginReduce (p : Parser) (term : Nat) (s : Stack) :
    SameChain s (s.beginReduce p term) := by
  unfold beginReduce
  simp only
  split
  · exact (sameChain_raiseLookAhead s s.pos).trans ⟨rfl, rfl, rfl⟩
  · exact ⟨rfl, rfl, rfl⟩

theorem sameChain_reduceEmpty (p : Parser) (term size : Nat) (s : Stack) (env : Env) :
    SameChain s (s.reduceEmpty p term size env).1 := by
  have hpushed : SameChain s (s.pushState (p.gotoState s.state term) s.reducePos) := ⟨rfl, rfl, rfl⟩
  unfold reduceEmpty
  simp only
  refine .trans ?_ (sameChain_changeContext ..)
  split
  · exact hpushed.trans (sameChain_addNode ..)
  · exact hpushed

theorem sameChain_reduceSome (p : Parser) (word : Nat) (s : Stack) (env : Env) :
    SameChain s (s.reduceSome p word env).1 := by
  unfold reduceSome
  simp only
  refine .trans ?_ (sameChain_changeContext ..)
  split
  · exact (sameChain_addNode ..).trans ⟨rfl, rfl, rfl⟩
  · exact ⟨rfl, rfl, rfl⟩

theorem sameChain_reduce (p : Parser) (word : Nat) (s : Stack) (env : Env) :
    SameChain s (s.reduce p word env).1 := by
  unfold reduce
  simp only
  refine (sameChain_beginReduce p (ActionWord.value word) s).trans ?_
  split
  · exact sameChain_reduceEmpty ..
  · exact sameChain_reduceSome ..

theorem sameChain_recordToken (p : Parser) (term start stop : Nat) (s : Stack) :
    SameChain s (s.recordToken p term start stop) := by
  unfold recordToken
  split
  · exact ⟨rfl, rfl, rfl⟩
  · exact .refl s

theorem sameChain_shift (p : Parser) (word term start stop : Nat) (s : Stack) (env : Env) :
    SameChain s (s.shift p word term start stop env).1 := by
  unfold shift
  split
  · exact ⟨rfl, rfl, rfl⟩
  · split
    · have hmoved : SameChain s { s with pos := stop } := ⟨rfl, rfl, rfl⟩
      exact hmoved.trans ((sameChain_changeContext ..).trans (sameChain_recordToken ..))
    · refine .trans ?_ ((sameChain_changeContext ..).trans (sameChain_recordToken ..))
      split
      · split
        · exact ⟨rfl, rfl, rfl⟩
        · exact ⟨rfl, rfl, rfl⟩
      · exact ⟨rfl, rfl, rfl⟩

theorem sameChain_adopt (p : Parser) (node : Tree) (state : Nat) (s : Stack) (env : Env) :
    SameChain s (s.adopt p node state env).1 := by
  unfold adopt
  simp only
  refine .trans ?_ (sameChain_changeContext ..)
  exact ⟨rfl, rfl, rfl⟩

theorem sameChain_deleteToken (p : Parser) (term stop : Nat) (s : Stack) :
    SameChain s (s.deleteToken p term stop) := by
  unfold deleteToken
  simp only
  refine .trans ?_ ((sameChain_addNode ..).trans ⟨rfl, rfl, rfl⟩)
  split
  · exact sameChain_addNode ..
  · exact .refl s

theorem sameChain_insertToken (p : Parser) (term state : Nat) (s : Stack) (env : Env) :
    SameChain s (s.insertToken p term state env).1 := by
  have hpushed : SameChain s (s.pushState state s.pos) := ⟨rfl, rfl, rfl⟩
  have hstored : SameChain s (s.pushState state s.pos).storeError :=
    hpushed.trans (sameChain_addNode ..)
  exact hstored.trans ((sameChain_changeContext ..).trans ⟨rfl, rfl, rfl⟩)

theorem sameChain_leaveRule {p : Parser} {s : Stack} {env : Env} {r : Stack × Env}
    (h : s.leaveRule p env = (true, r)) : SameChain s r.1 := by
  obtain ⟨word, allowed, -, rfl⟩ := leaveRule_eq_true h
  refine .trans ?_ (sameChain_reduce ..)
  cases allowed with
  | true => exact ⟨rfl, rfl, rfl⟩
  | false => exact (sameChain_addNode ..).trans ⟨rfl, rfl, rfl⟩

theorem sameChain_restart (s : Stack) : SameChain s s.restart :=
  (sameChain_addNode ..).trans ⟨rfl, rfl, rfl⟩

theorem sameChain_close (p : Parser) (s : Stack) : SameChain s (s.close p) := by
  have hmarked : SameChain s (if p.tracker.any (·.strict) then s.markContext else s) := by
    split
    · exact sameChain_markContext s
    · exact .refl s
  have hclosed : ∀ x : Stack, SameChain x (if 0 < x.lookAhead then x.markLookAhead else x) := by
    intro x
    split
    · exact sameChain_mark ..
    · exact .refl x
  exact hmarked.trans (hclosed _)

theorem sameChain_insertEach (p : Parser) (s : Stack) (chosen : List (Nat × Nat)) (env : Env) :
    ∀ x ∈ (s.insertEach p chosen env).1, SameChain s x := by
  induction chosen generalizing env with
  | nil => simp [insertEach]
  | cons c rest ih =>
      intro x hx
      rcases List.mem_cons.1 hx with rfl | hx
      · exact sameChain_insertToken ..
      · exact ih _ x hx

/-! ### Splitting -/

/-- The chain of a split stack: there may be a new piece in front. -/
theorem frozen_freeze (s : Stack) (id : Nat) :
    s.freeze id = s ∨ ∃ piece, piece ≠ [] ∧ (s.freeze id).frozen = piece :: s.frozen ∧
      (s.freeze id).base = s.base + 4 * piece.length := by
  unfold freeze
  cases s.finished with
  | nil => exact Or.inl rfl
  | cons r rest => exact Or.inr ⟨r :: rest, by simp, rfl, rfl⟩

theorem Chained.freeze {s : Stack} (h : s.Chained) (id : Nat) : (s.freeze id).Chained := by
  have hbase := h.base_eq
  rcases frozen_freeze s id with heq | ⟨piece, hne, hfrozen, hsum⟩
  · rw [heq]
    exact h
  · constructor
    · rw [chain_eq, length_slotsOf] at hbase ⊢
      rw [hsum, hfrozen, List.flatten_cons, List.length_append]
      omega
    · rw [hfrozen]
      exact List.forall_mem_cons.2 ⟨hne, h.pieces⟩

/-- How an operation leaves the chain of a stack, and the arena: both stay what they are, or a piece
goes in front of the chain, and into a new segment that goes on with the chain from before. -/
inductive Extends (s : Stack) (a : Arena) : Stack → Arena → Prop
  | same {s' : Stack} : SameChain s s' → Extends s a s' a
  | piece {s' : Stack} {piece : List Record} : piece ≠ [] → s'.frozen = piece :: s.frozen →
      s'.base = s.base + 4 * piece.length → s'.parent = some a.size →
      Extends s a s' (a.push ⟨slotsOf piece, s.base, s.parent⟩)

theorem extends_split (s : Stack) (env : Env) :
    Extends s env.arena (s.split env).1 (s.split env).2.arena := by
  unfold split freeze
  cases s.finished with
  | nil => exact .same (.refl s)
  | cons r rest => exact .piece (List.cons_ne_nil r rest) rfl rfl rfl

/-! ### Operations that keep the arena -/

section Arena

variable (p : Parser) (s : Stack) (env : Env)

@[simp] theorem arena_changeContext (change : ContextChange) (start : Nat) :
    (s.changeContext p change start env).2.arena = env.arena := by
  unfold changeContext
  split <;> rfl

@[simp] theorem arena_reduceEmpty (term size : Nat) :
    (s.reduceEmpty p term size env).2.arena = env.arena :=
  arena_changeContext ..

@[simp] theorem arena_reduceSome (word : Nat) :
    (s.reduceSome p word env).2.arena = env.arena := by
  unfold reduceSome
  simp only [arena_changeContext]
  split <;> rfl

@[simp] theorem arena_reduce (word : Nat) : (s.reduce p word env).2.arena = env.arena := by
  unfold reduce
  simp only
  split
  · exact arena_reduceEmpty ..
  · exact arena_reduceSome ..

@[simp] theorem arena_shift (word term start stop : Nat) :
    (s.shift p word term start stop env).2.arena = env.arena := by
  unfold shift
  split
  · rfl
  · split <;> exact arena_changeContext ..

@[simp] theorem arena_adopt (node : Tree) (state : Nat) :
    (s.adopt p node state env).2.arena = env.arena := by
  unfold adopt
  simp only [arena_changeContext]
  split <;> rfl

@[simp] theorem arena_insertToken (term state : Nat) :
    (s.insertToken p term state env).2.arena = env.arena :=
  arena_changeContext ..

@[simp] theorem arena_insertEach (chosen : List (Nat × Nat)) :
    (s.insertEach p chosen env).2.arena = env.arena := by
  induction chosen generalizing env with
  | nil => rfl
  | cons c rest ih => exact (ih _).trans (arena_insertToken ..)

@[simp] theorem arena_leaveRule : (s.leaveRule p env).2.2.arena = env.arena := by
  rcases h : s.leaveRule p env with ⟨_ | _, r⟩
  · obtain ⟨-, rfl⟩ := leaveRule_eq_false h
    rfl
  · obtain ⟨word, allowed, -, rfl⟩ := leaveRule_eq_true h
    exact arena_reduce ..

end Arena

/-! ### All operations -/

/-- What a parse does to a stack. -/
inductive Operation where
  | shift (word term start stop : Nat)
  | reduce (word : Nat)
  /-- Stores a node. -/
  | store (term start stop size : Nat) (sink : Bool)
  /-- Takes a node of an older tree over. -/
  | adopt (node : Tree) (state : Nat)
  /-- Leaves a token out. -/
  | delete (term stop : Nat)
  /-- Splits stacks off with a token inserted before the next one. -/
  | insert (next : Nat)
  /-- Leaves the current rule, if there is a way. -/
  | leave
  | restart
  /-- Raises the look-ahead. -/
  | look (pos : Nat)
  | close
  | split

/-- Does an operation: the stack afterwards, the stacks that were split off, and what all of them
share. -/
def Operation.run (p : Parser) (s : Stack) (env : Env) : Operation → Stack × List Stack × Env
  | shift word term start stop =>
      let r := s.shift p word term start stop env
      (r.1, [], r.2)
  | reduce word =>
      let r := s.reduce p word env
      (r.1, [], r.2)
  | store term start stop size sink => (s.addNode term start stop size sink, [], env)
  | adopt node state =>
      let r := s.adopt p node state env
      (r.1, [], r.2)
  | delete term stop => (s.deleteToken p term stop, [], env)
  | insert next => s.insertTokens p next env
  | leave =>
      let r := s.leaveRule p env
      (r.2.1, [], r.2.2)
  | restart => (s.restart, [], env)
  | look pos => (s.raiseLookAhead pos, [], env)
  | close => (s.close p, [], env)
  | split =>
      let whole := s.split env
      (whole.1, [whole.1], whole.2)

/-- What an operation does to the chain of its stack and to the arena; the stacks that it splits off
get the chain of the stack afterwards. -/
structure Grows (s : Stack) (env : Env) (r : Stack × List Stack × Env) : Prop where
  extends_self : Extends s env.arena r.1 r.2.2.arena
  new : ∀ x ∈ r.2.1, SameChain r.1 x

theorem SameChain.grows {s s' : Stack} {env env' : Env} (h : SameChain s s')
    (harena : env'.arena = env.arena) : Grows s env (s', [], env') where
  extends_self := harena ▸ .same h
  new := by simp

/-- **An operation leaves chain and arena alone, or puts a piece in front of the chain.** -/
theorem Operation.run_grows (p : Parser) (s : Stack) (env : Env) (op : Operation) :
    Grows s env (op.run p s env) := by
  cases op with
  | shift word term start stop => exact (sameChain_shift ..).grows (arena_shift ..)
  | reduce word => exact (sameChain_reduce ..).grows (arena_reduce ..)
  | store term start stop size sink => exact (sameChain_addNode ..).grows rfl
  | adopt node state => exact (sameChain_adopt ..).grows (arena_adopt ..)
  | delete term stop => exact (sameChain_deleteToken ..).grows rfl
  | insert next =>
      change Grows s env (s.insertTokens p next env)
      unfold insertTokens
      split
      · exact (SameChain.refl s).grows rfl
      · split
        · exact (SameChain.refl s).grows rfl
        · refine ⟨?_, sameChain_insertEach p _ _ _⟩
          simp only [arena_insertEach]
          exact extends_split s env
  | leave =>
      have harena := arena_leaveRule p s env
      rw [Operation.run]
      rcases hr : s.leaveRule p env with ⟨_ | _, r⟩
      · obtain ⟨-, rfl⟩ := leaveRule_eq_false hr
        exact (SameChain.refl s).grows rfl
      · rw [hr] at harena
        exact (sameChain_leaveRule hr).grows harena
  | restart => exact (sameChain_restart s).grows rfl
  | look pos => exact (sameChain_raiseLookAhead s pos).grows rfl
  | close => exact (sameChain_close p s).grows rfl
  | split =>
      refine ⟨extends_split s env, fun x hx => ?_⟩
      obtain rfl := List.mem_singleton.1 hx
      exact .refl _

end Stack

/-! ### The stacks of a parse -/

/-- The stacks of a parse, and what they share. -/
structure Pool where
  members : List Stack
  env : Env

namespace Pool

/-- The stack that a parse begins with, and no segments. -/
def start (p : Parser) (pos : Nat) (env : Env) : Pool :=
  ⟨[Stack.start p pos], { env with arena := {} }⟩

/-- Does an operation on one of the stacks.  Stacks that it splits off come last. -/
def apply (p : Parser) (i : Nat) (op : Stack.Operation) (pool : Pool) : Pool :=
  match pool.members[i]? with
  | none => pool
  | some s =>
      let r := op.run p s pool.env
      ⟨pool.members.set i r.1 ++ r.2.1, r.2.2⟩

/-- Does operations, each on the stack with the given index. -/
def applyAll (p : Parser) (ops : List (Nat × Stack.Operation)) (pool : Pool) : Pool :=
  ops.foldl (fun pool op => pool.apply p op.1 op.2) pool

theorem apply_eq {p : Parser} {pool : Pool} {i : Nat} {s : Stack} (h : pool.members[i]? = some s)
    (op : Stack.Operation) : (pool.apply p i op).members =
      pool.members.set i (op.run p s pool.env).1 ++ (op.run p s pool.env).2.1 := by
  unfold apply
  rw [h]

end Pool

end IncrementalLR
