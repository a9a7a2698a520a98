/-
**Stacks whose records fit.**

The builder fails on a node that ends before it starts and on one whose size reaches past the
records of the node around it.  Both numbers come from the frames of a stack: a reduction starts
where the last frame that it keeps says, and counts the records that were stored since then.

A frame may be put where the text of its symbol begins although the last symbol ends before it, if a
token without text and node follows skipped text; the node of a reduction then starts behind its
end.  And a reduction of no symbols counts the mark that it makes of its own look-ahead, although
its frame stands behind it.  The guard `measured` leaves such moves out, and a reduction to an
error behind skipped text; all others keep spans and sizes right.

Main definitions:

* `measured` — the moves that keep spans and sizes right;
* `Setting.IsTyped` — what is asked of the parser and its document;
* `Stack.Measured` — the invariant.

Main results:

* `Stack.Measured.cover` — the node of a reduction;
* `Stack.Measured.reduce`, `Stack.Measured.shift` — measured actions keep stacks measured.
-/

import IncrementalLR.Proofs.Cuts
import IncrementalLR.Proofs.Sharing

set_option relaxedAutoImplicit false
set_option autoImplicit false

namespace IncrementalLR

/-! ### Measured moves -/

/-- The moves that keep spans and sizes right.  A reduction of no symbols that stores a node marks
no look-ahead, a reduction to an error comes right behind the last symbol, and so does a symbol
without text and node. -/
def measured (p : Parser) : Guard where
  reduce s word :=
    (ActionWord.depth word = 0 → ActionWord.value word < p.minRepeat → s.looksFar = false) ∧
      (ActionWord.value word = errorTerm → s.reducePos = s.pos)
  shift s word term stop :=
    if ActionWord.isGoto word then s.reducePos = s.pos
    else ActionWord.isStay word = true ∨ s.pos < stop ∨ term ≤ p.maxNode ∨ s.reducePos = s.pos

/-- The terms that may get nodes belong to the node types. -/
structure Parser.Typed (p : Parser) : Prop where
  top : p.top.2 < p.set.size
  maxNode : p.maxNode < p.set.size
  minRepeat : p.minRepeat ≤ p.set.size
  repeats : ∀ state word, p.tables.Reduces state word ∨ word = (p.tables.row state).forcedReduce →
    ActionWord.isRepeat word = true → ActionWord.value word < p.set.size

theorem isRepeat_reduction (term depth : Nat) :
    ActionWord.isRepeat (ActionWord.reduction term depth) = false := by
  simp only [ActionWord.isRepeat, ActionWord.repeatBit, ActionWord.reduction,
    Nat.testBit_eq_decide_div_mod_eq, decide_eq_false_iff_not]
  omega

/-- A reduction that gets a node has a typed term. -/
theorem Parser.Typed.value_lt {p : Parser} (h : p.Typed) {state word : Nat}
    (hword : p.tables.Reduces state word ∨ word = (p.tables.row state).forcedReduce)
    (hnode : (ActionWord.value word < p.minRepeat || ActionWord.isRepeat word) = true) :
    ActionWord.value word < p.set.size := by
  rw [Bool.or_eq_true, decide_eq_true_eq] at hnode
  rcases hnode with hlt | hrepeat
  · exact Nat.lt_of_lt_of_le hlt h.minRepeat
  · exact h.repeats state word hword hrepeat

/-- What is asked of a setting: the document is parsed as a whole and its positions fit into 63
bits, no state is one of skipped text, and the terms are typed. -/
structure Setting.IsTyped (g : Setting) : Prop where
  whole : g.IsWhole
  hi_lt : g.hi < 9223372036854775808
  rows : ∀ state, (g.parser.tables.row state).isSkipped = false
  terms : g.parser.Typed

/-- A record that ends by a position, and has a type and no end before its start if it is a node. -/
structure Record.Fits (p : Parser) (pos : Nat) (r : Record) : Prop where
  stop_le : r.stop ≤ pos
  node : 0 ≤ r.size → 0 ≤ r.id ∧ r.id < p.set.size ∧ r.start ≤ r.stop

namespace Stack

/-- The records fit: frames cut them into forests and start by the end of the last symbol, and what
ends later are single records. -/
structure Measured (g : Setting) (s : Stack) : Prop where
  chained : s.Chained
  lo_le : g.lo ≤ s.reducePos
  reduce_le : s.reducePos ≤ s.pos
  pos_le : s.pos ≤ g.hi
  starts : ∀ f ∈ s.frames.items, f.start ≤ s.reducePos
  fits : ∀ r ∈ s.records, r.Fits g.parser s.pos
  late : ∀ r ∈ s.late, r.IsSingle
  cut : Cut s.frames.items s.records

namespace Measured

variable {g : Setting} {s s' : Stack}

theorem signed_pos (hg : g.IsTyped) (h : Measured g s) : signedPos s.pos = s.pos :=
  signedPos_of_lt (Nat.lt_of_le_of_lt h.pos_le hg.hi_lt)

theorem signed_reducePos (hg : g.IsTyped) (h : Measured g s) :
    signedPos s.reducePos = s.reducePos :=
  signedPos_of_lt (Nat.lt_of_le_of_lt (Nat.le_trans h.reduce_le h.pos_le) hg.hi_lt)

/-- Only positions, frames and records matter. -/
theorem congr (h : Measured g s) (hreduce : s'.reducePos = s.reducePos) (hpos : s'.pos = s.pos)
    (hframes : s'.frames = s.frames) (hown : s'.own.items = s.own.items)
    (hchain : SameChain s s') : Measured g s' := by
  have hrecords : s'.records = s.records := by
    rw [records, records, hown, hchain.frozen]
  have hlate : s'.late = s.late := by
    rw [Stack.late, Stack.late, hown, hreduce]
  refine ⟨hchain.chained h.chained, ?_, ?_, ?_, ?_, ?_, ?_, ?_⟩
  · rw [hreduce]
    exact h.lo_le
  · rw [hreduce, hpos]
    exact h.reduce_le
  · rw [hpos]
    exact h.pos_le
  · rw [hframes, hreduce]
    exact h.starts
  · rw [hrecords, hpos]
    exact h.fits
  · rw [hlate]
    exact h.late
  · rw [hframes, hrecords]
    exact h.cut

/-! ### Records and frames -/

/-- A single record of its own. -/
theorem pushRecord (h : Measured g s) {r : Record} (hr : r.IsSingle)
    (hfits : r.Fits g.parser s.pos) : Measured g (s.pushRecord r) := by
  refine ⟨⟨h.chained.base_eq, h.chained.pieces⟩, h.lo_le, h.reduce_le, h.pos_le, h.starts, ?_, ?_,
    h.cut.absorb (.single hr .nil)⟩
  · exact List.forall_mem_cons.2 ⟨hfits, h.fits⟩
  · unfold Stack.late
    simp only [Stack.pushRecord, Pile.items_push, List.takeWhile_cons]
    split
    · exact List.forall_mem_cons.2 ⟨hr, h.late⟩
    · simp

/-- Text is skipped. -/
theorem skipTo (h : Measured g s) {stop : Nat} (hle : s.pos ≤ stop) (hstop : stop ≤ g.hi) :
    Measured g { s with pos := stop } := by
  refine ⟨⟨h.chained.base_eq, h.chained.pieces⟩, h.lo_le, Nat.le_trans h.reduce_le hle, hstop,
    h.starts, fun r hr => ?_, h.late, h.cut⟩
  obtain ⟨hend, hnode⟩ := h.fits r hr
  exact ⟨Int.le_trans hend (Int.ofNat_le.2 hle), hnode⟩

/-- All text up to a position is taken. -/
theorem moveTo (hg : g.IsTyped) (h : Measured g s) {stop : Nat} (hle : s.pos ≤ stop)
    (hstop : stop ≤ g.hi) : Measured g { s with pos := stop, reducePos := stop } := by
  have hskipped := h.skipTo hle hstop
  have hreduce := Nat.le_trans h.reduce_le hle
  have hsigned : signedPos stop = stop := signedPos_of_lt (Nat.lt_of_le_of_lt hstop hg.hi_lt)
  have hnone : Stack.late { s with pos := stop, reducePos := stop } = [] := by
    refine late_eq_nil fun r hr => ?_
    rw [hsigned]
    exact (hskipped.fits r hr).stop_le
  refine ⟨⟨h.chained.base_eq, h.chained.pieces⟩, Nat.le_trans h.lo_le hreduce, Nat.le_refl _, hstop,
    fun f hf => Nat.le_trans (h.starts f hf) hreduce, hskipped.fits, ?_, h.cut⟩
  rw [hnone]
  simp

/-- A symbol that starts by the end of the last one. -/
theorem pushState (h : Measured g s) (state : Nat) {start : Nat} (hle : start ≤ s.reducePos) :
    Measured g (s.pushState state start) :=
  ⟨⟨h.chained.base_eq, h.chained.pieces⟩, h.lo_le, h.reduce_le, h.pos_le,
    List.forall_mem_cons.2 ⟨hle, h.starts⟩, h.fits, h.late,
    h.cut.push h.chained.bufferLength_eq⟩

/-- Symbols may be forgotten. -/
theorem dropFrames (h : Measured g s) (n : Nat) : Measured g { s with frames := s.frames.drop n } :=
  ⟨⟨h.chained.base_eq, h.chained.pieces⟩, h.lo_le, h.reduce_le, h.pos_le,
    fun f hf => h.starts f (List.mem_of_mem_drop hf), h.fits, h.late, h.cut.drop n⟩

protected theorem freeze (h : Measured g s) (id : Nat) : Measured g (s.freeze id) := by
  have hsame : (s.freeze id).frames = s.frames ∧ (s.freeze id).reducePos = s.reducePos ∧
      ∀ r ∈ (s.freeze id).late, r ∈ s.late := by
    unfold Stack.freeze
    simp only
    split
    · exact ⟨rfl, rfl, fun r hr => hr⟩
    · exact ⟨rfl, rfl, fun r hr => (List.takeWhile_sublist _).mem hr⟩
  obtain ⟨hframes, hreduce, hlate⟩ := hsame
  refine ⟨h.chained.freeze id, ?_, ?_, ?_, ?_, ?_, fun r hr => h.late r (hlate r hr), ?_⟩
  · rw [hreduce]
    exact h.lo_le
  · rw [hreduce, pos_freeze]
    exact h.reduce_le
  · rw [pos_freeze]
    exact h.pos_le
  · rw [hframes, hreduce]
    exact h.starts
  · rw [records_freeze, pos_freeze]
    exact h.fits
  · rw [hframes, records_freeze]
    exact h.cut

/-! ### Marks -/

theorem fits_note (hg : g.IsTyped) (h : Measured g s) (id : Int) {size : Int} (hsize : size < 0) :
    Record.Fits g.parser s.pos ⟨id, signedPos s.pos, signedPos s.pos, size⟩ := by
  refine ⟨Int.le_of_eq (h.signed_pos hg), fun hnode => ?_⟩
  simp only at hnode
  omega

protected theorem mark (hg : g.IsTyped) (h : Measured g s) (id : Int) {size : Int}
    (hsize : size = Record.contextSize ∨ size = Record.lookAheadSize) :
    Measured g (s.mark id size) := by
  have hnote : ∀ start stop, Record.IsNote ⟨id, start, stop, size⟩ := fun _ _ => hsize
  unfold Stack.mark
  split
  · exact h
  · exact h.pushRecord (Or.inl (hnote _ _)) (h.fits_note hg id (hnote 0 0).size_lt)

protected theorem raiseLookAhead (hg : g.IsTyped) (h : Measured g s) (pos : Nat) :
    Measured g (s.raiseLookAhead pos) := by
  unfold Stack.raiseLookAhead
  split
  · exact (h.mark hg _ (Or.inr rfl)).congr rfl rfl rfl rfl ⟨rfl, rfl, rfl⟩
  · exact h

protected theorem markContext (hg : g.IsTyped) (h : Measured g s) : Measured g s.markContext := by
  unfold Stack.markContext
  split
  · exact h.mark hg _ (Or.inl rfl)
  · exact h

protected theorem changeContext (hg : g.IsTyped) (h : Measured g s) (change : ContextChange)
    (start : Nat) (env : Env) : Measured g (s.changeContext g.parser change start env).1 := by
  unfold Stack.changeContext
  split
  · unfold Stack.setContext
    simp only
    split
    · exact (h.markContext hg).congr rfl rfl rfl rfl ⟨rfl, rfl, rfl⟩
    · exact h.congr rfl rfl rfl rfl ⟨rfl, rfl, rfl⟩
  · exact h

/-- The last marks before a tree is built. -/
protected theorem close (hg : g.IsTyped) (h : Measured g s) : Measured g (s.close g.parser) := by
  have hcontext : Measured g (if g.parser.tracker.any (·.strict) then s.markContext else s) := by
    split
    · exact h.markContext hg
    · exact h
  have hclosed : ∀ x : Stack, Measured g x →
      Measured g (if 0 < x.lookAhead then x.markLookAhead else x) := by
    intro x hx
    split
    · exact hx.mark hg _ (Or.inr rfl)
    · exact hx
  exact hclosed _ hcontext

/-! ### Nodes -/

/-- A node without children, which ends at the position. -/
theorem pushLeaf (hg : g.IsTyped) (h : Measured g s) {term start : Nat}
    (hterm : term < g.parser.set.size) (hle : start ≤ s.pos) :
    Measured g (s.pushRecord ⟨term, signedPos start, signedPos s.pos, 4⟩) := by
  have hsigned : signedPos start = start :=
    signedPos_of_lt (Nat.lt_of_le_of_lt (Nat.le_trans hle h.pos_le) hg.hi_lt)
  refine h.pushRecord (Or.inr rfl) ⟨Int.le_of_eq (h.signed_pos hg), fun _ => ?_⟩
  refine ⟨Int.natCast_nonneg term, Int.ofNat_lt.2 hterm, ?_⟩
  rw [hsigned, h.signed_pos hg]
  exact Int.ofNat_le.2 hle

theorem error_lt (hg : g.IsTyped) : errorTerm < g.parser.set.size :=
  Nat.lt_of_le_of_lt (Nat.zero_le _) hg.terms.maxNode

protected theorem storeError (hg : g.IsTyped) (h : Measured g s) : Measured g s.storeError := by
  rcases storeError_cases s with heq | heq
  · rw [heq]
    exact h
  · rw [heq]
    exact h.pushLeaf hg (error_lt hg) (Nat.le_refl _)

protected theorem recordToken (hg : g.IsTyped) (h : Measured g s) (term : Nat) {start : Nat}
    (hle : start ≤ s.pos) : Measured g (s.recordToken g.parser term start s.pos) := by
  unfold Stack.recordToken
  split
  · rename_i hterm
    exact h.pushLeaf hg (Nat.lt_of_le_of_lt hterm hg.terms.maxNode) hle
  · exact h

/-- A node over the records of the newest symbol that is stored below records that end later. -/
theorem insertNode (hg : g.IsTyped) (h : Measured g s) {own : Pile Record} {r : Record}
    {tail rest : List Record} (hold : s.own.items = tail ++ rest)
    (hown : own.items = tail ++ r :: rest)
    (htail : ∀ c ∈ tail, c.IsSingle ∧ signedPos s.reducePos < c.stop)
    (hfits : 0 ≤ r.id ∧ r.id < g.parser.set.size ∧ r.start ≤ r.stop) (hstop : r.stop = s.reducePos)
    (hsize : r.size =
      max 4 (((s.bufferLength - topSlots s.frames.items + 4 : Nat) : Int) - 4 * tail.length)) :
    Measured g { s with own } := by
  have hsigned := h.signed_reducePos hg
  have hreduce := h.reduce_le
  have hlength := h.chained.bufferLength_eq
  obtain ⟨seg, below, hsplit, htop, hseg⟩ := h.cut.focus
  have hcount := congrArg List.length hsplit
  rw [List.length_append] at hcount
  have hbefore : s.records = tail ++ (rest ++ s.frozen.flatten) := by
    rw [records, hold, List.append_assoc]
  have hafter : Stack.records { s with own } = tail ++ r :: (rest ++ s.frozen.flatten) := by
    rw [records, hown]
    simp
  have hlate : Stack.late { s with own } = tail := by
    refine (late_body_of_split (s := { s with own }) hown (fun c hc => (htail c hc).2)
      fun c hc => ?_).1
    obtain rfl := Option.some.inj (Option.mem_def.1 hc)
    simp only
    omega
  have hfit := h.fits
  rw [hbefore, List.forall_mem_append] at hfit
  refine ⟨⟨h.chained.base_eq, h.chained.pieces⟩, h.lo_le, hreduce, h.pos_le, h.starts, ?_, ?_, ?_⟩
  · rw [hafter, List.forall_mem_append]
    exact ⟨hfit.1, List.forall_mem_cons.2 ⟨⟨by simp only; omega, fun _ => hfits⟩, hfit.2⟩⟩
  · rw [hlate]
    exact fun c hc => (htail c hc).1
  · have hcut := h.cut
    rw [hbefore] at hcut hsplit
    rw [hafter]
    exact hcut.insert (fun c hc => (htail c hc).1) hsplit htop hseg (by omega)

/-- A node over the records of the newest symbol, which ends with it. -/
theorem appendNode (hg : g.IsTyped) (h : Measured g s) {r : Record}
    (hfits : 0 ≤ r.id ∧ r.id < g.parser.set.size ∧ r.start ≤ r.stop) (hstop : r.stop = s.reducePos)
    (hsize : r.size = (s.bufferLength - topSlots s.frames.items + 4 : Nat)) (sink : Bool) :
    Measured g (s.appendNode r sink) := by
  obtain ⟨own, heq⟩ := s.appendNode_eq r sink
  have hitems := own_appendNode_or (s := s) (hstop.trans (h.signed_reducePos hg).symm) sink
  rw [heq] at hitems ⊢
  rcases hitems with hown | hown
  · refine h.insertNode hg (List.nil_append _).symm hown (by simp) hfits hstop ?_
    simp only [List.length_nil]
    omega
  · refine h.insertNode hg (List.takeWhile_append_dropWhile ..).symm hown
      (fun c hc => ⟨h.late c hc, mem_late hc⟩) hfits hstop ?_
    rw [hsize]
    rfl

/-- Extending the error before, up to the end of the last symbol. -/
theorem extendLast (hg : g.IsTyped) (h : Measured g s) {e : Record} {rest : List Record}
    (hown : s.own.items = e :: rest) (heq : s.reducePos = s.pos) :
    Measured g { s with own := (s.own.drop 1).push { e with stop := signedPos s.reducePos } } := by
  have hsigned := h.signed_reducePos hg
  have hfits := h.fits
  have hcut := h.cut
  rw [records, hown] at hfits hcut
  obtain ⟨he, hrest⟩ := List.forall_mem_cons.1 hfits
  have hstop := he.stop_le
  have hrecords : Stack.records { s with
      own := (s.own.drop 1).push { e with stop := signedPos s.reducePos } } =
        { e with stop := signedPos s.reducePos } :: (rest ++ s.frozen.flatten) := by
    simp [records, hown]
  have hnone : Stack.late { s with
      own := (s.own.drop 1).push { e with stop := signedPos s.reducePos } } = [] := by
    simp [Stack.late]
  refine ⟨⟨h.chained.base_eq, h.chained.pieces⟩, h.lo_le, h.reduce_le, h.pos_le, h.starts, ?_, ?_,
    ?_⟩
  · rw [hrecords]
    refine List.forall_mem_cons.2 ⟨⟨?_, fun hnode => ?_⟩, hrest⟩
    · simp only
      omega
    · obtain ⟨h₁, h₂, h₃⟩ := he.node hnode
      refine ⟨h₁, h₂, ?_⟩
      simp only
      omega
  · rw [hnone]
    simp
  · rw [hrecords]
    exact hcut.replace rfl

/-- The node of a reduction, over the records of the symbols that it takes. -/
theorem cover (hg : g.IsTyped) (h : Measured g s) (n : Nat) {term : Nat}
    (hterm : term < g.parser.set.size) (herror : term = errorTerm → s.reducePos = s.pos) :
    Measured g { s.addNode term (topStart g.lo (s.frames.items.drop n)) s.reducePos
      (s.bufferLength - topSlots (s.frames.items.drop n) + 4) true
        with frames := s.frames.drop n } := by
  have hkept := h.dropFrames n
  have hreduce := h.reduce_le
  have hpos := h.pos_le
  have hhi := hg.hi_lt
  have hsigned := h.signed_reducePos hg
  have hle : topStart g.lo (s.frames.items.drop n) ≤ s.reducePos := by
    unfold topStart
    cases hhead : (s.frames.items.drop n).head? with
    | none => exact h.lo_le
    | some f => exact hkept.starts f (List.mem_of_mem_head? hhead)
  have hsignedStart : signedPos (topStart g.lo (s.frames.items.drop n)) =
      topStart g.lo (s.frames.items.drop n) := signedPos_of_lt (by omega)
  have happend : Measured g { s.appendNode ⟨term, signedPos (topStart g.lo (s.frames.items.drop n)),
      signedPos s.reducePos, (s.bufferLength - topSlots (s.frames.items.drop n) + 4 : Nat)⟩ true
        with frames := s.frames.drop n } := by
    rw [appendNode_withFrames]
    refine hkept.appendNode hg ⟨Int.natCast_nonneg term, Int.ofNat_lt.2 hterm, ?_⟩ hsigned rfl true
    simp only
    omega
  by_cases hnode : term = errorTerm
  · -- an error may be left out or merged with the one before, which ends by the reduce position
    rcases addNode_cases s term (topStart g.lo (s.frames.items.drop n)) s.reducePos
        (s.bufferLength - topSlots (s.frames.items.drop n) + 4) true with
      ⟨-, heq⟩ | ⟨e, rest, hown, -, -, -, heq⟩ | heq
    · rw [heq]
      exact hkept
    · rw [heq, extendLast_of_cons hown]
      exact hkept.extendLast hg hown (herror hnode)
    · rw [heq]
      exact happend
  · rw [addNode_of_ne hnode]
    exact happend

/-! ### Reducing -/

protected theorem beginReduce (hg : g.IsTyped) (h : Measured g s) (term : Nat) :
    Measured g (s.beginReduce g.parser term) := by
  unfold Stack.beginReduce
  simp only
  split
  · exact (h.raiseLookAhead hg s.pos).congr rfl rfl rfl rfl ⟨rfl, rfl, rfl⟩
  · exact h.congr rfl rfl rfl rfl ⟨rfl, rfl, rfl⟩

/-- A reduction of at least one symbol. -/
theorem reduceSome (hg : g.IsTyped) (h : Measured g s) {word : Nat} {env : Env}
    (henv : env.start = g.lo)
    (hterm : (ActionWord.value word < g.parser.minRepeat || ActionWord.isRepeat word) = true →
      ActionWord.value word < g.parser.set.size)
    (herror : ActionWord.value word = errorTerm → s.reducePos = s.pos) :
    Measured g (s.reduceSome g.parser word env).1 := by
  unfold Stack.reduceSome
  refine Measured.changeContext hg ?_ _ _ _
  simp only [hg.rows, henv]
  split
  · rename_i hstores
    exact (h.cover hg (popCount word) (hterm hstores) herror).congr rfl rfl rfl rfl
      ⟨rfl, rfl, rfl⟩
  · exact (h.dropFrames (popCount word)).congr rfl rfl rfl rfl ⟨rfl, rfl, rfl⟩

/-- A reduction of no symbols. -/
theorem reduceEmpty (hg : g.IsTyped) (h : Measured g s) {term size : Nat} (env : Env)
    (hsize : term < g.parser.minRepeat → size = 4)
    (herror : term = errorTerm → s.reducePos = s.pos) :
    Measured g (s.reduceEmpty g.parser term size env).1 := by
  have hpushed := h.pushState (g.parser.gotoState s.state term) (Nat.le_refl s.reducePos)
  unfold Stack.reduceEmpty
  refine Measured.changeContext hg ?_ _ _ _
  split
  · rename_i hterm
    have hcover := hpushed.cover hg 0 (Nat.lt_of_lt_of_le hterm hg.terms.minRepeat) herror
    -- no record is newer than the new frame
    have hcount : s.bufferLength - s.bufferLength + 4 = 4 := by omega
    rw [hsize hterm, ← hcount]
    exact hcover.congr rfl rfl (by simp) rfl ⟨rfl, rfl, rfl⟩
  · exact hpushed

protected theorem reduce (hg : g.IsTyped) (h : Measured g s) {word : Nat} {env : Env}
    (henv : env.start = g.lo)
    (hterm : (ActionWord.value word < g.parser.minRepeat || ActionWord.isRepeat word) = true →
      ActionWord.value word < g.parser.set.size) (hok : (measured g.parser).reduce s word) :
    Measured g (s.reduce g.parser word env).1 := by
  have hbegun := h.beginReduce hg (ActionWord.value word)
  have herror : ActionWord.value word = errorTerm →
      (s.beginReduce g.parser (ActionWord.value word)).reducePos =
        (s.beginReduce g.parser (ActionWord.value word)).pos := by
    intro hvalue
    rw [reducePos_beginReduce, pos_beginReduce]
    exact hok.2 hvalue
  unfold Stack.reduce
  simp only
  split
  · rename_i hdepth
    refine hbegun.reduceEmpty hg env (fun hlt => ?_) herror
    rw [if_neg (by simp [hok.1 hdepth hlt])]
  · exact hbegun.reduceSome hg henv hterm herror

/-- Right behind the last symbol every reduction is measured. -/
theorem measured_reduce (heq : s.reducePos = s.pos) (word : Nat) :
    (measured g.parser).reduce s word :=
  ⟨fun _ _ => by simp [looksFar, heq], fun _ => heq⟩

/-! ### Shifting -/

protected theorem shift (hg : g.IsTyped) (h : Measured g s) {word term start stop : Nat} (env : Env)
    (hoffer : s.Offered g word term start stop)
    (hok : (measured g.parser).shift s word term stop) :
    Measured g (s.shift g.parser word term start stop env).1 := by
  have hle := hoffer.le_stop
  have hstop := hoffer.stop_le
  obtain rfl := hoffer.start_eq hg.whole
  simp only [measured] at hok
  unfold Stack.shift
  split
  · rename_i hgoto
    rw [if_pos hgoto] at hok
    exact h.pushState _ (Nat.le_of_eq hok.symm)
  · rename_i hgoto
    rw [if_neg hgoto] at hok
    split
    · -- a skipped token
      have hskipped := (h.skipTo hle hstop).changeContext hg (.shift term) s.pos env
      have hpos : (Stack.changeContext g.parser (.shift term) s.pos { s with pos := stop }
          env).1.pos = stop := pos_changeContext ..
      have hrecorded := hskipped.recordToken hg term (hpos.symm ▸ hle)
      rw [hpos] at hrecorded
      exact hrecorded
    · rename_i hstay
      have hok := hok.resolve_left hstay
      simp only [hg.rows, Bool.false_eq_true, if_false]
      split
      · -- a token that counts
        have hmoved := (((h.moveTo hg hle hstop).pushState word hle).changeContext hg (.shift term)
          s.pos env)
        have hpos : (Stack.changeContext g.parser (.shift term) s.pos
            (Stack.pushState { s with pos := stop, reducePos := stop } word s.pos) env).1.pos =
              stop := pos_changeContext ..
        have hrecorded := hmoved.recordToken hg term (hpos.symm ▸ hle)
        rw [hpos] at hrecorded
        exact hrecorded
      · -- a token without text and node
        rename_i htext
        simp only [Bool.or_eq_true, decide_eq_true_eq, not_or] at htext
        have heq : s.reducePos = s.pos := by omega
        simp only [Stack.recordToken, htext.2, if_false]
        exact (h.pushState word (Nat.le_of_eq heq.symm)).changeContext hg _ _ env

end Measured

end Stack

end IncrementalLR
