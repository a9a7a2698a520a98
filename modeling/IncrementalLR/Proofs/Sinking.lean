/-
**Where a node goes that a reduction stores late.**

Skipped tokens may follow the text of a node when it is stored.  Their records end after the node
does; the node is put below them, and its size, which counts them, is lowered by theirs.  So what
lies behind a node is never counted among what it covers.

A node stays on top if the newest record has the number of the error term in its first slot.  That
was meant for errors; a mark has an arbitrary number there, and the first look-ahead mark of a stack
has just that one.

Main definitions:

* `Record.InOrder` — document order of records;
* `Record.covered` — the records that a node covers;
* `Stack.endingAfter` — the newest records of a stack that end after a position.

Main results:

* `Record.InOrder.sinkInto` — inserting a node keeps document order;
* `Stack.addNode_sinks` — **a node goes below everything that ends after it**;
* `Stack.addNode_on_mark` — a look-ahead mark keeps a node on top of what it should sink below.
-/

import IncrementalLR.Proofs.WellFormed

set_option relaxedAutoImplicit false
set_option autoImplicit false

namespace IncrementalLR

/-! ### Document order -/

namespace Record

/-- No node ends after a newer record; the records are given newest first. -/
def InOrder (rs : List Record) : Prop :=
  rs.Pairwise fun newer older => older.isNode = true → older.stop ≤ newer.stop

instance (rs : List Record) : Decidable (InOrder rs) :=
  inferInstanceAs (Decidable (rs.Pairwise _))

/-- The records that a node covers: of those before it as many as it has slots besides its own. -/
def covered (r : Record) (older : List Record) : List Record := older.take ((r.size.toNat - 4) / 4)

/-- The newest records that end after a position. -/
def tailAfter (pos : Int) (rs : List Record) : List Record := rs.takeWhile fun c => pos < c.stop

/-- The records before them. -/
def headUpTo (pos : Int) (rs : List Record) : List Record := rs.dropWhile fun c => pos < c.stop

variable {rs : List Record} {pos : Int}

theorem tailAfter_append_headUpTo (pos : Int) (rs : List Record) :
    tailAfter pos rs ++ headUpTo pos rs = rs :=
  List.takeWhile_append_dropWhile

theorem lt_stop_of_mem_tailAfter {c : Record} (h : c ∈ tailAfter pos rs) : pos < c.stop := by
  have key := List.all_eq_true.1 (List.all_takeWhile (p := fun c : Record => decide (pos < c.stop))
    (l := rs)) c h
  exact of_decide_eq_true key

/-- The first record that is not in the tail does not end after the position. -/
theorem stop_le_of_headUpTo {c : Record} {rest : List Record} (h : headUpTo pos rs = c :: rest) :
    c.stop ≤ pos := by
  have key := List.head?_dropWhile_not (fun c : Record => decide (pos < c.stop)) rs
  rw [show rs.dropWhile (fun c : Record => decide (pos < c.stop)) = c :: rest from h] at key
  exact Int.not_lt.1 (of_decide_eq_false key)

/-- **Below the tail no node ends after the position.** -/
theorem InOrder.stop_le_of_mem_headUpTo (h : InOrder rs) {c : Record} (hc : c ∈ headUpTo pos rs)
    (hnode : c.isNode = true) : c.stop ≤ pos := by
  have hbelow : InOrder (headUpTo pos rs) := h.sublist (List.dropWhile_sublist _)
  cases hhead : headUpTo pos rs with
  | nil =>
      rw [hhead] at hc
      cases hc
  | cons first rest =>
      have hfirst := stop_le_of_headUpTo hhead
      rw [hhead] at hc hbelow
      rcases List.mem_cons.1 hc with rfl | hc
      · exact hfirst
      · exact Int.le_trans (List.rel_of_pairwise_cons hbelow hc hnode) hfirst

theorem node_or_none (pos : Int) (rs : List Record) :
    (∃ c ∈ tailAfter pos rs, c.isNode = true) ∨ ∀ c ∈ tailAfter pos rs, c.isNode = false := by
  by_cases hnode : ∃ c ∈ tailAfter pos rs, c.isNode = true
  · exact Or.inl hnode
  · exact Or.inr fun c hc => Bool.eq_false_iff.2 fun hc' => hnode ⟨c, hc, hc'⟩

/-! ### Inserting -/

theorem sinkInto_of_node {r : Record} (h : ∃ c ∈ tailAfter r.stop rs, c.isNode = true) :
    Stack.sinkInto r rs = tailAfter r.stop rs ++
      { r with size := max 4 (r.size - 4 * (tailAfter r.stop rs).length) } ::
        headUpTo r.stop rs := by
  have hany : (rs.takeWhile fun c => decide (r.stop < c.stop)).any (·.isNode) = true :=
    List.any_eq_true.2 h
  exact if_pos hany

theorem sinkInto_of_no_node {r : Record} (h : ∀ c ∈ tailAfter r.stop rs, c.isNode = false) :
    Stack.sinkInto r rs = r :: rs := by
  have hany : ¬ (rs.takeWhile fun c => decide (r.stop < c.stop)).any (·.isNode) = true := by
    rw [List.any_eq_true]
    rintro ⟨c, hc, hnode⟩
    rw [h c hc] at hnode
    cases hnode
  exact if_neg hany

/-- The records after a node was put in: that node, and those from before. -/
theorem mem_sinkInto {r c : Record} (hc : c ∈ Stack.sinkInto r rs) :
    c.stop = r.stop ∨ c ∈ rs := by
  rcases node_or_none r.stop rs with hnode | hnone
  · rw [sinkInto_of_node hnode, List.mem_append, List.mem_cons] at hc
    rcases hc with hc | rfl | hc
    · exact Or.inr ((List.takeWhile_sublist _).subset hc)
    · exact Or.inl rfl
    · exact Or.inr ((List.dropWhile_sublist _).subset hc)
  · rw [sinkInto_of_no_node hnone, List.mem_cons] at hc
    rcases hc with rfl | hc
    · exact Or.inl rfl
    · exact Or.inr hc

/-- Without nodes in the tail no node at all ends after the position. -/
theorem InOrder.stop_le_of_no_node (h : InOrder rs)
    (hnone : ∀ c ∈ tailAfter pos rs, c.isNode = false) {c : Record} (hc : c ∈ rs)
    (hnode : c.isNode = true) : c.stop ≤ pos := by
  rw [← tailAfter_append_headUpTo pos rs, List.mem_append] at hc
  rcases hc with hc | hc
  · rw [hnone c hc] at hnode
    cases hnode
  · exact h.stop_le_of_mem_headUpTo hc hnode

/-- **Inserting a node keeps document order.** -/
theorem InOrder.sinkInto (h : InOrder rs) (r : Record) : InOrder (Stack.sinkInto r rs) := by
  rcases node_or_none r.stop rs with hnode | hnone
  · have hsplit : InOrder (tailAfter r.stop rs ++ headUpTo r.stop rs) := by
      rw [tailAfter_append_headUpTo]
      exact h
    rw [InOrder, List.pairwise_append] at hsplit
    obtain ⟨htail, hhead, hacross⟩ := hsplit
    rw [sinkInto_of_node hnode, InOrder, List.pairwise_append, List.pairwise_cons]
    refine ⟨htail, ⟨fun c hc hc' => h.stop_le_of_mem_headUpTo hc hc', hhead⟩, ?_⟩
    intro c hc c' hc' hnode'
    rcases List.mem_cons.1 hc' with rfl | hc'
    · exact Int.le_of_lt (lt_stop_of_mem_tailAfter hc)
    · exact hacross c hc c' hc' hnode'
  · rw [sinkInto_of_no_node hnone, InOrder, List.pairwise_cons]
    exact ⟨fun c hc hc' => h.stop_le_of_no_node hnone hc hc', h⟩

/-- A node that is inserted has only nodes below it that end by its end. -/
theorem InOrder.exists_sinkInto (h : InOrder rs) (r : Record) :
    ∃ above size below, Stack.sinkInto r rs = above ++ { r with size } :: below ∧
      ∀ c ∈ below, c.isNode = true → c.stop ≤ r.stop := by
  rcases node_or_none r.stop rs with hnode | hnone
  · exact ⟨_, _, _, sinkInto_of_node hnode, fun c hc => h.stop_le_of_mem_headUpTo hc⟩
  · exact ⟨[], r.size, rs, sinkInto_of_no_node hnone, fun c hc => h.stop_le_of_no_node hnone hc⟩

end Record

/-! ### Storing -/

namespace Stack

open Record Parse

/-- The newest records of its own that end after a position. -/
def endingAfter (s : Stack) (pos : Nat) : List Record := tailAfter (signedPos pos) s.own.items

/-- The records of its own before them. -/
def upTo (s : Stack) (pos : Nat) : List Record := headUpTo (signedPos pos) s.own.items

/-- These are all records of a stack, with those in frozen pieces. -/
theorem endingAfter_append (s : Stack) (pos : Nat) :
    s.endingAfter pos ++ (s.upTo pos ++ s.frozen.flatten) = s.records := by
  rw [endingAfter, upTo, ← List.append_assoc, tailAfter_append_headUpTo, records]

/-- Where a node goes that ends before the position, unless an error or a mark keeps it on top of
nodes. -/
theorem own_appendNode_eq_sinkInto {s : Stack} {r : Record} (hpos : signedPos s.pos ≠ r.stop)
    (htop : s.own.top?.any (·.isError) = true → ∀ c ∈ tailAfter r.stop s.own.items,
      c.isNode = false) :
    (s.appendNode r true).own.items = sinkInto r s.own.items := by
  rw [appendNode]
  split
  · rename_i hstays
    rw [Bool.not_true, Bool.false_or, Bool.or_eq_true, decide_eq_true_eq] at hstays
    have hnone : ∀ c ∈ tailAfter r.stop s.own.items, c.isNode = false := by
      have hall := hstays.resolve_left hpos
      cases hown : s.own.items with
      | nil =>
          intro c hc
          cases hc
      | cons newest rest =>
          rw [Pile.top?, hown] at hall htop
          exact htop hall
    rw [sinkInto_of_no_node hnone]
    rfl
  · rfl

/-- **A node goes below everything that ends after it.**  If among the newest records that end after
a node there is a node, it is inserted right below these records, and its size is lowered by theirs;
otherwise it is put on top as it is.  The records stay in document order, and of the nodes that are
not shared with other stacks it covers none that ends after it.

An error on top, or a mark with the number of the error term, keeps the node on top; so if there is
one, no node may end after the new one. -/
theorem addNode_sinks {s : Stack} {term start stop size : Nat} (hterm : term ≠ errorTerm)
    (hpos : s.pos ≤ maxPos) (hstop : stop < s.pos) (hordered : InOrder s.own.items)
    (htop : s.own.top?.any (·.isError) = true → ∀ c ∈ s.endingAfter stop, c.isNode = false) :
    ∃ own, s.addNode term start stop size true = { s with own } ∧
      ((∃ c ∈ s.endingAfter stop, c.isNode = true) → own.items = s.endingAfter stop ++
        ⟨term, signedPos start, signedPos stop, max 4 (size - 4 * (s.endingAfter stop).length)⟩ ::
          s.upTo stop) ∧
      ((∀ c ∈ s.endingAfter stop, c.isNode = false) → own.items =
        ⟨term, signedPos start, signedPos stop, size⟩ :: s.own.items) ∧
      InOrder own.items ∧
      ∃ above size' below,
        own.items = above ++ ⟨term, signedPos start, signedPos stop, size'⟩ :: below ∧
        ∀ c ∈ covered ⟨term, signedPos start, signedPos stop, size'⟩ (below ++ s.frozen.flatten),
          c.isNode = true → signedPos stop < c.stop → c ∈ s.frozen.flatten := by
  have hne : signedPos s.pos ≠ signedPos stop := fun heq => by
    have hsame := (signedPos_inj hpos (Nat.le_trans (Nat.le_of_lt hstop) hpos)).1 heq
    omega
  obtain ⟨own, heq⟩ :=
    s.appendNode_eq ⟨term, signedPos start, signedPos stop, size⟩ true
  have hown : own.items = sinkInto ⟨term, signedPos start, signedPos stop, size⟩ s.own.items := by
    rw [← own_appendNode_eq_sinkInto hne htop, heq]
  refine ⟨own, (addNode_of_ne hterm ..).trans heq, ?_, ?_, hown ▸ hordered.sinkInto _, ?_⟩
  · intro hnode
    rw [hown]
    exact sinkInto_of_node hnode
  · intro hnone
    rw [hown]
    exact sinkInto_of_no_node hnone
  · obtain ⟨above, size', below, hsplit, hbelow⟩ := hordered.exists_sinkInto
      ⟨term, signedPos start, signedPos stop, size⟩
    refine ⟨above, size', below, hown.trans hsplit, fun c hc hnode hafter => ?_⟩
    rcases List.mem_append.1 (List.mem_of_mem_take hc) with hc | hc
    · exact absurd (hbelow c hc hnode) (Int.not_le.2 hafter)
    · exact hc

/-- The stack of a parse of the letter `a` after a number of skipped bytes behind it. -/
def behindLetter (skipped : Nat) : Stack :=
  let s := ((Stack.start letterParser 0).shift letterParser (Action.shift 1).code 6 0 1 letterEnv).1
  (List.range skipped).foldl
    (fun s i => (s.shift letterParser Action.skip.code 3 (i + 1) (i + 2) letterEnv).1) s

/-- The letter goes below two skipped bytes. -/
theorem addNode_sinks_letter :
    ∃ own, (behindLetter 2).addNode 2 0 1 12 true = { behindLetter 2 with own } ∧
      own.items = [⟨3, 2, 3, 4⟩, ⟨3, 1, 2, 4⟩, ⟨2, 0, 1, 4⟩] ∧ InOrder own.items := by
  obtain ⟨own, hown, hsunk, -, hordered, -⟩ := @addNode_sinks (behindLetter 2) 2 0 1 12
    (by decide) (by decide +kernel) (by decide +kernel) (by decide +kernel) (by decide +kernel)
  have hnode : ∃ c ∈ (behindLetter 2).endingAfter 1, c.isNode = true := by decide +kernel
  have hitems := hsunk hnode
  exact ⟨own, hown, hitems.trans (by decide +kernel), hordered⟩

/-- **A look-ahead mark keeps a node on top.**  Behind 26 skipped bytes a reduction puts its first
look-ahead mark before it stores the letter, which then is taken to cover all of them, although no
error is on top. -/
theorem addNode_on_mark :
    let s := (behindLetter 26).beginReduce letterParser 2
    s.own.top?.any (fun r => r.isError && r.isNode) = false ∧ InOrder s.own.items ∧
      1 < s.pos ∧ s.pos ≤ maxPos ∧ (∃ c ∈ s.endingAfter 1, c.isNode = true) ∧
      (s.addNode 2 0 1 112 true).own.items = ⟨2, 0, 1, 112⟩ :: s.own.items ∧
      (∃ c ∈ covered ⟨2, 0, 1, 112⟩ s.own.items, c.isNode = true ∧ 1 < c.stop) ∧
      ((behindLetter 26).reduce letterParser (Action.reduce 2 1).code letterEnv).1.own.items =
        ⟨2, 0, 1, 112⟩ :: s.own.items := by
  decide +kernel

end Stack

end IncrementalLR
