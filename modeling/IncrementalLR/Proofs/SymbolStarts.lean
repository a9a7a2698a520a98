/-
**What stood before each symbol.**

Each frame of a stack notes how many slots there were when its symbol began.  What that number is
meant to tell is which records stood there before the symbol; so these are followed beside the
stack, through all operations.  Whether the frames still cut the records there, is what
`Stack.Layered` says.

Main definitions:

* `Stack.Operation.begun` — what stood before each symbol, through an operation;
* `Stack.History` — stacks that operations lead to, with what stood before each of their symbols;
* `Stack.KeepsApart` — operations that leave records on their side of the positions;
* `Stack.Layered` — records that are cut where symbols began.

Main results:

* `Stack.HasRoom.no_node` — behind skipped nodes there is no room for an empty one;
* `Stack.Layered.insert` — a node that goes in above a position moves none;
* `Stack.Layered.get` — the positions of layers.
-/

import IncrementalLR.Proofs.Sharing
import IncrementalLR.Proofs.Sinking

set_option relaxedAutoImplicit false
set_option autoImplicit false

namespace IncrementalLR

/-- The largest position that a slot of a record holds as it is. -/
def maxSlot : Nat := 9223372036854775807

theorem signedPos_of_slot {pos : Nat} (h : pos ≤ maxSlot) : signedPos pos = pos :=
  signedPos_of_lt (Nat.lt_succ_of_le h)

namespace Stack

open Record

/-! ### What stood before each symbol -/

/-- Whether a reduction stores a node. -/
def stores (p : Parser) (word : Nat) : Bool :=
  ActionWord.value word < p.minRepeat || (ActionWord.depth word ≠ 0 && ActionWord.isRepeat word)

/-- Where the node of a reduction ends. -/
def nodeStop (p : Parser) (word : Nat) (s : Stack) : Nat :=
  if ActionWord.depth word ≠ 0 && (p.tables.row s.state).isSkipped then s.pos else s.reducePos

/-- What stood before each symbol, after a reduction: a symbol of no others begins with the
reduction, any other one where the first symbol did that is popped. -/
def begunReduce (p : Parser) (word : Nat) (s : Stack) (begun : List (List Record)) :
    List (List Record) :=
  if ActionWord.depth word = 0 then (s.beginReduce p (ActionWord.value word)).records :: begun
  else begun.drop (popCount word)

/-- What stood before each symbol of a stack, newest first, after an operation: a symbol that is
pushed begins behind all records that there are. -/
def Operation.begun (p : Parser) (s : Stack) (begun : List (List Record)) :
    Operation → List (List Record)
  | shift word _ _ _ =>
      if ActionWord.isGoto word || !ActionWord.isStay word then s.records :: begun else begun
  | reduce word => s.begunReduce p word begun
  | adopt _ _ => s.records :: begun
  | leave =>
      match s.forcedWord? p with
      | none => begun
      | some (word, allowed) => (s.caughtUp p allowed).begunReduce p word begun
  | restart => []
  | store .. | delete .. | insert _ | look _ | close | split => begun

/-- Stacks that operations lead to, each under a condition, with what stood before each of their
symbols.  A stack that is split off is the stack itself, or has one more symbol inserted. -/
inductive History (p : Parser) (ok : Stack → List (List Record) → Operation → Prop) :
    Stack → List (List Record) → Prop
  | start {pos : Nat} : pos ≤ maxSlot → History p ok (Stack.start p pos) []
  | run {s : Stack} {begun : List (List Record)} {op : Operation} (env : Env) :
      History p ok s begun → ok s begun op → History p ok (op.run p s env).1 (op.begun p s begun)
  | inserted {s s' : Stack} {begun : List (List Record)} {next : Nat} {env : Env} :
      History p ok s begun → s' ∈ ((Operation.insert next).run p s env).2.1 →
      History p ok s' (s.records :: begun)

/-! ### Operations that leave records on their side -/

/-- There is room for a node of the newest symbol that ends at a position.  If there are nodes that
end after it, nothing keeps it on top of them, and what stood before the symbol ends by its end. -/
def HasRoom (s : Stack) (begun : List (List Record)) (stop : Nat) : Prop :=
  (∃ c ∈ s.endingAfter stop, c.isNode = true) →
    s.own.top?.any (·.isError) = false ∧
      ∀ before ∈ begun.head?, ∀ c ∈ before.head?, c.stop ≤ signedPos stop

instance (s : Stack) (begun : List (List Record)) (stop : Nat) : Decidable (s.HasRoom begun stop) :=
  inferInstanceAs (Decidable (_ → _ ∧ _))

/-- Where a symbol begins behind all records, a node that there is room for is not put below any. -/
theorem HasRoom.no_node {s : Stack} {begun : List (List Record)} {stop : Nat}
    (hroom : s.HasRoom (s.records :: begun) stop) : ∀ c ∈ s.endingAfter stop, c.isNode = false := by
  refine (node_or_none (signedPos stop) s.own.items).resolve_left fun hnode => ?_
  have hlate := (hroom hnode).2 s.records rfl
  obtain ⟨c, hc, -⟩ := hnode
  cases hown : s.own.items with
  | nil =>
      rw [hown] at hc
      cases hc
  | cons newest rest =>
      have hle := hlate newest (by rw [records, hown]; rfl)
      rw [hown, tailAfter, List.takeWhile_cons_of_neg (by simpa using hle)] at hc
      cases hc

/-- A reduction that has room for the node that it stores. -/
def ReducesApart (p : Parser) (word : Nat) (s : Stack) (begun : List (List Record)) : Prop :=
  stores p word = true → (ActionWord.value word ≠ errorTerm ∨ s.reducePos = s.pos) ∧
    (s.beginReduce p (ActionWord.value word)).HasRoom (s.begunReduce p word begun)
      (s.nodeStop p word)

instance (p : Parser) (word : Nat) (s : Stack) (begun : List (List Record)) :
    Decidable (s.ReducesApart p word begun) :=
  inferInstanceAs (Decidable (_ → _ ∧ _))

/-- Operations that leave records on their side of the positions.  Tokens do not go back, positions
fit into slots, and nodes are stored by reductions, but for empty errors. -/
def KeepsApart (p : Parser) (s : Stack) (begun : List (List Record)) : Operation → Prop
  | .shift word _ _ stop => ActionWord.isGoto word = true ∨ s.pos ≤ stop ∧ stop ≤ maxSlot
  | .reduce word => s.ReducesApart p word begun
  | .store term start stop _ _ => term = errorTerm ∧ start = s.pos ∧ stop = s.pos
  | .adopt node _ => s.pos + node.length ≤ maxSlot
  | .delete _ stop => s.pos ≤ stop ∧ stop ≤ maxSlot
  | .insert _ | .leave | .restart | .look _ | .close | .split => True

/-! ### What operations touch -/

/-- The positions have no part in storing a node that does not sink. -/
theorem addNode_withPos (s : Stack) (term start stop size pos reducePos : Nat) :
    { s.addNode term start stop size false with pos, reducePos } =
      Stack.addNode { s with pos, reducePos } term start stop size false := by
  have hextend : { s.extendLast stop with pos, reducePos } =
      Stack.extendLast { s with pos, reducePos } stop := by
    rw [extendLast, extendLast]
    cases s.own.items <;> rfl
  have hbefore : Stack.errorBefore? { s with pos, reducePos } = s.errorBefore? := rfl
  rw [addNode, addNode, hbefore]
  cases (if term = errorTerm then s.errorBefore? else none) with
  | none => rfl
  | some e =>
      by_cases hempty : start = stop
      · simp only [if_pos hempty]
      · by_cases hmerge : (signedPos start ≤ e.stop && !s.own.isEmpty) = true
        · simp only [if_neg hempty, if_pos hmerge]
          exact hextend
        · simp only [if_neg hempty, if_neg hmerge]
          rfl

/-- A change of context, and a reduction before it does anything else, put at most marks on top. -/
theorem records_changeContext (p : Parser) (change : ContextChange) (start : Nat) (s : Stack)
    (env : Env) : ∃ marks, (s.changeContext p change start env).1.records = marks ++ s.records ∧
      ∀ c ∈ marks, c.isNode = false := by
  obtain ⟨own, context, heq, rfl | ⟨id, rfl⟩⟩ := changeContext_eq p change start s env
  · rw [heq]
    exact ⟨[], rfl, fun c hc => (List.not_mem_nil hc).elim⟩
  · rw [heq]
    exact ⟨[_], rfl, List.forall_mem_singleton.2 rfl⟩

theorem records_mark (s : Stack) (id : Int) {size : Int} (hsize : size < 0) :
    ∃ marks, (s.mark id size).records = marks ++ s.records ∧ ∀ c ∈ marks, c.isNode = false := by
  rw [Stack.mark]
  split
  · exact ⟨[], rfl, fun c hc => (List.not_mem_nil hc).elim⟩
  · exact ⟨[_], rfl, List.forall_mem_singleton.2 (decide_eq_false (Int.not_le.2 hsize))⟩

theorem records_beginReduce (p : Parser) (term : Nat) (s : Stack) :
    ∃ marks, (s.beginReduce p term).records = marks ++ s.records ∧
      ∀ c ∈ marks, c.isNode = false := by
  rw [Stack.beginReduce, Stack.raiseLookAhead]
  split
  · split
    · exact records_mark s _ (by decide)
    · exact ⟨[], rfl, fun c hc => (List.not_mem_nil hc).elim⟩
  · exact ⟨[], rfl, fun c hc => (List.not_mem_nil hc).elim⟩

/-! ### Layers -/

/-- The records of a stack, cut where each of its symbols began. -/
inductive Layered : List Frame → List (List Record) → List Record → Prop
  | bottom (rs : List Record) : Layered [] [] rs
  | frame {f : Frame} {fs : List Frame} {before : List Record} {begun : List (List Record)}
      (since : List Record) : f.bufferPos = 4 * before.length → Layered fs begun before →
      Layered (f :: fs) (before :: begun) (since ++ before)

namespace Layered

variable {fs : List Frame} {begun : List (List Record)} {rs : List Record}

theorem append (l : List Record) (h : Layered fs begun rs) : Layered fs begun (l ++ rs) := by
  cases h with
  | bottom => exact .bottom _
  | frame since hpos hbefore =>
      rw [← List.append_assoc]
      exact .frame (l ++ since) hpos hbefore

theorem drop (n : Nat) (h : Layered fs begun rs) : Layered (fs.drop n) (begun.drop n) rs := by
  induction n generalizing fs begun rs with
  | zero => exact h
  | succ n ih =>
      cases h with
      | bottom => exact .bottom _
      | frame since _ hbefore => exact (ih hbefore).append since

/-- The newest record changes, provided that it belongs to the newest symbol. -/
theorem change {e e' : Record} (h : Layered fs begun (e :: rs))
    (hsince : ∀ f ∈ fs.head?, f.bufferPos < 4 * (rs.length + 1)) : Layered fs begun (e' :: rs) := by
  generalize hall : e :: rs = all at h
  cases h with
  | bottom => exact .bottom _
  | @frame f fs before begun since hpos hbefore =>
      cases since with
      | nil =>
          rw [List.nil_append] at hall
          have hlt := hsince f rfl
          rw [hpos, ← hall, List.length_cons] at hlt
          exact absurd hlt (Nat.lt_irrefl _)
      | cons newest since =>
          obtain ⟨-, rfl⟩ := List.cons.inj hall
          exact .frame (e' :: since) hpos hbefore

/-- **A node that goes in above the newest position moves none.** -/
theorem insert {tail rest : List Record} (h : Layered fs begun (tail ++ rest)) (r : Record)
    (habove : ∀ before ∈ begun.head?, ∃ covered, rest = covered ++ before) :
    Layered fs begun (tail ++ r :: rest) := by
  generalize hall : tail ++ rest = all at h
  cases h with
  | bottom => exact .bottom _
  | @frame f fs before begun since hpos hbefore =>
      obtain ⟨covered, rfl⟩ := habove before rfl
      have key := Layered.frame (tail ++ r :: covered) hpos hbefore
      rwa [List.append_assoc, List.cons_append] at key

/-- What stood before the newest symbol is still there. -/
theorem suffix {before : List Record} (h : Layered fs begun rs) (hbefore : before ∈ begun.head?) :
    before <:+ rs := by
  cases h with
  | bottom => cases hbefore
  | frame since =>
      obtain rfl := Option.some.inj hbefore
      exact List.suffix_append since _

theorem get {i : Nat} {f : Frame} (h : Layered fs begun rs) (hf : fs[i]? = some f) :
    ∃ before, begun[i]? = some before ∧ f.bufferPos = 4 * before.length ∧ before <:+ rs := by
  induction h generalizing i with
  | bottom => cases hf
  | @frame g _ before _ since hpos _ ih =>
      cases i with
      | zero =>
          obtain rfl := Option.some.inj hf
          exact ⟨before, rfl, hpos, List.suffix_append _ _⟩
      | succ i =>
          obtain ⟨before', hget, hpos', hsuffix⟩ := ih hf
          exact ⟨before', hget, hpos', hsuffix.trans (List.suffix_append _ _)⟩

end Layered

end Stack

end IncrementalLR
