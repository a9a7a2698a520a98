/-
**Symbols keep their records apart.**

What was recorded before a symbol began stays below the position of its frame, and everything
recorded since then belongs to the symbol and to those above it.  For records that are put on top
this is clear; an error that is extended belongs to the newest symbol; and a node that is put below
skipped text stays above the position if what stood before its symbol ends by its end.

Main definitions:

* `Stack.Apart` — stacks whose frames cut their records where their symbols began.

Main results:

* `Stack.Apart.freeze`, `Stack.Apart.extendLast`, `Stack.Apart.appendNode` — splitting, extending an
  error and storing a node keep that;
* `Stack.Apart.exists_covered` — **a node that there is room for goes in above the position**;
* `Stack.Apart.records_appendNode` — and covers what was recorded since its first symbol began.
-/

import IncrementalLR.Proofs.SymbolStarts

set_option relaxedAutoImplicit false
set_option autoImplicit false

namespace IncrementalLR

namespace Stack

open Record

/-! ### Stacks with records on their side -/

/-- A stack whose frames cut its records where its symbols began.  Its records are in document
order and end by its position, those in frozen pieces by the reduce position. -/
structure Apart (s : Stack) (begun : List (List Record)) : Prop where
  chained : s.Chained
  pos_le : s.pos ≤ maxSlot
  reduce_le : s.reducePos ≤ s.pos
  stops : ∀ c ∈ s.records, c.stop ≤ s.pos
  ordered : InOrder s.records
  frozen : ∀ c ∈ s.frozen.flatten.head?, c.stop ≤ s.reducePos
  layered : Layered s.frames.items begun s.records

namespace Apart

variable {s s' : Stack} {begun : List (List Record)}

theorem signed_pos (h : Apart s begun) : signedPos s.pos = s.pos := signedPos_of_slot h.pos_le

theorem ordered_own (h : Apart s begun) : InOrder s.own.items :=
  h.ordered.sublist (List.sublist_append_left _ _)

/-- No node in a frozen piece ends after the reduce position. -/
theorem stop_frozen (h : Apart s begun) {c : Record} (hc : c ∈ s.frozen.flatten)
    (hnode : c.isNode = true) : c.stop ≤ s.reducePos := by
  have hordered : InOrder s.frozen.flatten := h.ordered.sublist (List.sublist_append_right _ _)
  have hhead := h.frozen
  cases hfrozen : s.frozen.flatten with
  | nil =>
      rw [hfrozen] at hc
      cases hc
  | cons newest rest =>
      rw [hfrozen] at hc hordered hhead
      have hnewest := hhead newest rfl
      rcases List.mem_cons.1 hc with rfl | hc
      · exact hnewest
      · exact Int.le_trans (List.rel_of_pairwise_cons hordered hc hnode) hnewest

/-- Another stack with the same frames, records and positions. -/
theorem congr (h : Apart s begun) (hframes : s'.frames = s.frames) (hown : s'.own = s.own)
    (hbase : s'.base = s.base) (hfrozen : s'.frozen = s.frozen) (hpos : s'.pos = s.pos)
    (hreduce : s'.reducePos = s.reducePos) : Apart s' begun := by
  have hrecords : s'.records = s.records := by rw [records, records, hown, hfrozen]
  refine ⟨h.chained.congr hbase hfrozen, hpos ▸ h.pos_le, ?_, ?_, ?_, ?_, ?_⟩
  · rw [hreduce, hpos]
    exact h.reduce_le
  · rw [hrecords, hpos]
    exact h.stops
  · rw [hrecords]
    exact h.ordered
  · rw [hfrozen, hreduce]
    exact h.frozen
  · rw [hframes, hrecords]
    exact h.layered

/-- The positions move forward. -/
theorem advance (h : Apart s begun) {pos reducePos : Nat} (hpos : s.pos ≤ pos)
    (hslot : pos ≤ maxSlot) (hreduce : s.reducePos ≤ reducePos) (hle : reducePos ≤ pos) :
    Apart { s with pos, reducePos } begun where
  chained := ⟨h.chained.base_eq, h.chained.pieces⟩
  pos_le := hslot
  reduce_le := hle
  stops := fun c hc => Int.le_trans (h.stops c hc) (Int.ofNat_le.2 hpos)
  ordered := h.ordered
  frozen := fun c hc => Int.le_trans (h.frozen c hc) (Int.ofNat_le.2 hreduce)
  layered := h.layered

/-- Other records of its own, of which none ends after the position. -/
theorem withOwn (h : Apart s begun) {own : Pile Record} (hstops : ∀ c ∈ own.items, c.stop ≤ s.pos)
    (hordered : InOrder (own.items ++ s.frozen.flatten))
    (hlayered : Layered s.frames.items begun (own.items ++ s.frozen.flatten)) :
    Apart { s with own } begun where
  chained := ⟨h.chained.base_eq, h.chained.pieces⟩
  pos_le := h.pos_le
  reduce_le := h.reduce_le
  stops := fun c hc => (List.mem_append.1 hc).elim (hstops c) fun hc =>
    h.stops c (List.mem_append_right _ hc)
  ordered := hordered
  frozen := h.frozen
  layered := hlayered

/-- A record that ends at the position. -/
theorem push (h : Apart s begun) {r : Record} (hstop : r.stop = s.pos) :
    Apart (s.pushRecord r) begun := by
  refine h.withOwn (fun c hc => ?_) ?_ (h.layered.append [r])
  · rcases List.mem_cons.1 hc with rfl | hc
    · exact Int.le_of_eq hstop
    · exact h.stops c (List.mem_append_left _ hc)
  · refine List.pairwise_cons.2 ⟨fun c hc _ => ?_, h.ordered⟩
    rw [hstop]
    exact h.stops c hc

/-- A symbol that begins behind all records. -/
theorem pushState (h : Apart s begun) (state start : Nat) :
    Apart (s.pushState state start) (s.records :: begun) where
  chained := ⟨h.chained.base_eq, h.chained.pieces⟩
  pos_le := h.pos_le
  reduce_le := h.reduce_le
  stops := h.stops
  ordered := h.ordered
  frozen := h.frozen
  layered := .frame [] h.chained.bufferLength_eq h.layered

theorem dropFrames (h : Apart s begun) (n state : Nat) :
    Apart { s with frames := s.frames.drop n, state } (begun.drop n) where
  chained := ⟨h.chained.base_eq, h.chained.pieces⟩
  pos_le := h.pos_le
  reduce_le := h.reduce_le
  stops := h.stops
  ordered := h.ordered
  frozen := h.frozen
  layered := h.layered.drop n

/-- What is frozen ends by the reduce position. -/
protected theorem freeze (h : Apart s begun) (id : Nat) : Apart (s.freeze id) begun := by
  have hreduce : signedPos s.reducePos = s.reducePos :=
    signedPos_of_slot (Nat.le_trans h.reduce_le h.pos_le)
  have hchained := h.chained.freeze id
  have hrecords := s.records_freeze id
  have hhead := s.head_dropWhile_le
  rw [Stack.freeze, finished] at hchained hrecords ⊢
  cases hpiece : s.own.items.dropWhile fun r => signedPos s.reducePos < r.stop with
  | nil => exact h
  | cons newest rest =>
      rw [hpiece] at hhead
      simp only [hpiece] at hchained hrecords
      refine ⟨hchained, h.pos_le, h.reduce_le, hrecords ▸ h.stops, hrecords ▸ h.ordered, ?_,
        hrecords ▸ h.layered⟩
      intro c hc
      have hnewest := hhead newest rfl
      rw [hreduce] at hnewest
      exact Option.some.inj hc ▸ hnewest

/-! ### Marks and errors -/

protected theorem mark (h : Apart s begun) (id size : Int) : Apart (s.mark id size) begun := by
  rw [Stack.mark]
  split
  · exact h
  · exact h.push h.signed_pos

protected theorem raiseLookAhead (h : Apart s begun) (pos : Nat) :
    Apart (s.raiseLookAhead pos) begun := by
  rw [Stack.raiseLookAhead]
  split
  · exact (h.mark _ _).congr rfl rfl rfl rfl rfl rfl
  · exact h

protected theorem markContext (h : Apart s begun) : Apart s.markContext begun := by
  rw [Stack.markContext]
  split
  · exact h.mark _ _
  · exact h

protected theorem changeContext (h : Apart s begun) (p : Parser) (change : ContextChange)
    (start : Nat) (env : Env) : Apart (s.changeContext p change start env).1 begun := by
  obtain ⟨own, context, heq, hown⟩ := changeContext_eq p change start s env
  rw [heq]
  rcases hown with rfl | ⟨id, rfl⟩
  · exact h.congr rfl rfl rfl rfl rfl rfl
  · exact (h.push (r := ⟨id, signedPos s.pos, signedPos s.pos, Record.contextSize⟩)
      h.signed_pos).congr rfl rfl rfl rfl rfl rfl

protected theorem close (h : Apart s begun) (p : Parser) : Apart (s.close p) begun := by
  have hcontext : Apart (if p.tracker.any (·.strict) then s.markContext else s) begun := by
    split
    · exact h.markContext
    · exact h
  rw [Stack.close]
  generalize (if p.tracker.any (·.strict) then s.markContext else s) = marked at hcontext ⊢
  split
  · exact hcontext.mark _ _
  · exact hcontext

/-- The newest record is extended to the position, if no symbol has begun behind it. -/
theorem extendLast (h : Apart s begun) {e : Record} {rest : List Record}
    (hown : s.own.items = e :: rest) (hmay : s.mayMerge = true) :
    Apart (s.extendLast s.pos) begun := by
  have hrecords : s.records = e :: (rest ++ s.frozen.flatten) := by
    rw [records, hown, List.cons_append]
  have hstops := h.stops
  have hordered := h.ordered
  have hlayered := h.layered
  rw [hrecords] at hstops hordered hlayered
  have hitems : ((s.own.drop 1).push { e with stop := signedPos s.pos }).items =
      { e with stop := signedPos s.pos } :: rest := by
    rw [Pile.items_push, Pile.items_drop, hown]
    rfl
  rw [extendLast_of_cons hown]
  refine h.withOwn ?_ ?_ ?_
  all_goals rw [hitems]
  · intro c hc
    rcases List.mem_cons.1 hc with rfl | hc
    · exact Int.le_of_eq h.signed_pos
    · exact hstops c (List.mem_cons_of_mem _ (List.mem_append_left _ hc))
  · refine List.pairwise_cons.2 ⟨fun c hc _ => ?_, (List.pairwise_cons.1 hordered).2⟩
    rw [h.signed_pos]
    exact hstops c (List.mem_cons_of_mem _ hc)
  · refine hlayered.change fun f hf => ?_
    have hlt := hmay
    rw [mayMerge, Pile.top?, Option.mem_def.1 hf, Option.all_some, decide_eq_true_eq,
      h.chained.bufferLength_eq, hrecords, List.length_cons] at hlt
    exact hlt

/-- A node that ends at the position. -/
theorem addNode_here (h : Apart s begun) (term start size : Nat) (sink : Bool) :
    Apart (s.addNode term start s.pos size sink) begun := by
  rcases s.addNode_cases term start s.pos size sink with
    ⟨-, heq⟩ | ⟨e, rest, hown, -, -, hmay, heq⟩ | heq
  · rw [heq]
    exact h
  · rw [heq]
    exact h.extendLast hown hmay
  · rw [heq, appendNode, if_pos (by simp)]
    exact h.push h.signed_pos

/-- A node that ends where the stack goes next. -/
theorem addNode_ahead {stop : Nat} (h : Apart { s with pos := stop, reducePos := stop } begun)
    (term start size : Nat) :
    Apart { s.addNode term start stop size false with pos := stop, reducePos := stop } begun := by
  rw [addNode_withPos]
  exact h.addNode_here term start size false

protected theorem storeError (h : Apart s begun) : Apart s.storeError begun :=
  h.addNode_here errorTerm s.pos 4 true

/-! ### Nodes of reductions -/

/-- Where a node goes that there is room for. -/
theorem own_appendNode (h : Apart s begun) {stop : Nat} (hle : stop ≤ s.pos)
    (hroom : s.HasRoom begun stop) {r : Record} (hr : r.stop = signedPos stop) :
    (s.appendNode r true).own.items = sinkInto r s.own.items := by
  have hstop : signedPos stop = stop := signedPos_of_slot (Nat.le_trans hle h.pos_le)
  by_cases heq : stop = s.pos
  · -- nothing ends after the position
    have hnone : ∀ c ∈ tailAfter r.stop s.own.items, c.isNode = false := by
      intro c hc
      have hlt := lt_stop_of_mem_tailAfter hc
      have hle := h.stops c (List.mem_append_left _ ((List.takeWhile_sublist _).subset hc))
      rw [hr, hstop, heq] at hlt
      exact absurd hle (Int.not_le.2 hlt)
    rw [sinkInto_of_no_node hnone, appendNode, if_pos (by simp [hr, heq])]
    rfl
  · refine own_appendNode_eq_sinkInto ?_ fun htop => ?_
    · rw [h.signed_pos, hr, hstop]
      omega
    · rw [hr]
      refine (node_or_none (signedPos stop) s.own.items).resolve_left fun hnode => ?_
      rw [(hroom hnode).1] at htop
      cases htop

/-- **A node that there is room for goes in above the position of the newest symbol.** -/
theorem exists_covered (h : Apart s begun) {stop : Nat} (hroom : s.HasRoom begun stop)
    (hnode : ∃ c ∈ s.endingAfter stop, c.isNode = true) :
    ∀ before ∈ begun.head?, ∃ covered, s.upTo stop ++ s.frozen.flatten = covered ++ before := by
  intro before hbefore
  obtain ⟨since, hsince⟩ := h.layered.suffix hbefore
  have hsplit : s.endingAfter stop ++ (s.upTo stop ++ s.frozen.flatten) = since ++ before := by
    rw [endingAfter_append, hsince]
  rcases List.append_eq_append_iff.1 hsplit with ⟨covered, -, hrest⟩ | ⟨late, htail, hlate⟩
  · exact ⟨covered, hrest⟩
  · cases late with
    | nil => exact ⟨[], hlate.symm⟩
    | cons first late =>
        -- the first record from before would be one that ends after the node
        have hlt : signedPos stop < first.stop :=
          lt_stop_of_mem_tailAfter (htail ▸ List.mem_append_right since List.mem_cons_self)
        have hle := (hroom hnode).2 before hbefore first (by rw [hlate]; rfl)
        exact absurd hle (Int.not_le.2 hlt)

/-- A node that there is room for, between the reduce position and the position. -/
theorem appendNode (h : Apart s begun) {stop : Nat} (hreduce : s.reducePos ≤ stop)
    (hle : stop ≤ s.pos) (hroom : s.HasRoom begun stop) {r : Record}
    (hr : r.stop = signedPos stop) : Apart (s.appendNode r true) begun := by
  have hstop : signedPos stop = stop := signedPos_of_slot (Nat.le_trans hle h.pos_le)
  have hitems := h.own_appendNode hle hroom hr
  obtain ⟨own, heq⟩ := s.appendNode_eq r true
  rw [heq] at hitems ⊢
  refine h.withOwn ?_ ?_ ?_
  all_goals rw [hitems]
  · intro c hc
    rcases mem_sinkInto hc with hc | hc
    · rw [hc, hr, hstop]
      exact Int.ofNat_le.2 hle
    · exact h.stops c (List.mem_append_left _ hc)
  · have hordered := h.ordered
    rw [records, InOrder, List.pairwise_append] at hordered
    refine List.pairwise_append.2 ⟨h.ordered_own.sinkInto r, hordered.2.1, ?_⟩
    intro c hc c' hc' hnode
    rcases mem_sinkInto hc with hc | hc
    · rw [hc, hr, hstop]
      exact Int.le_trans (h.stop_frozen hc' hnode) (Int.ofNat_le.2 hreduce)
    · exact hordered.2.2 c hc c' hc' hnode
  · rcases node_or_none r.stop s.own.items with hnode | hnone
    · have hcut := h.exists_covered hroom (by rwa [endingAfter, ← hr])
      have hlayered := h.layered
      rw [records, ← tailAfter_append_headUpTo r.stop s.own.items, List.append_assoc] at hlayered
      rw [sinkInto_of_node hnode, List.append_assoc, List.cons_append]
      rw [upTo, ← hr] at hcut
      exact hlayered.insert _ hcut
    · rw [sinkInto_of_no_node hnone]
      exact h.layered.append [r]

/-- What lies below records that end after a node ends by its end, if the node does not end before
the reduce position. -/
theorem stop_le_of_mem_upTo (h : Apart s begun) {stop : Nat} (hreduce : s.reducePos ≤ stop)
    (hle : stop ≤ s.pos) {c : Record} (hc : c ∈ s.upTo stop ++ s.frozen.flatten)
    (hnode : c.isNode = true) : c.stop ≤ (stop : Int) := by
  have hstop : signedPos stop = stop := signedPos_of_slot (Nat.le_trans hle h.pos_le)
  rcases List.mem_append.1 hc with hc | hc
  · exact hstop ▸ h.ordered_own.stop_le_of_mem_headUpTo hc hnode
  · exact Int.le_trans (h.stop_frozen hc hnode) (Int.ofNat_le.2 hreduce)

/-- A node that goes below others covers what is left of the records since its symbol began. -/
theorem sinkInto_covers (h : Apart s begun) {stop : Nat} (hroom : s.HasRoom begun stop)
    (hnode : ∃ c ∈ s.endingAfter stop, c.isNode = true) {since before : List Record}
    (hbefore : before ∈ begun.head?) (hsince : since ++ before = s.records) (term start : Int) :
    ∃ covered, s.upTo stop ++ s.frozen.flatten = covered ++ before ∧
      sinkInto ⟨term, start, signedPos stop, (4 * (since.length + 1) : Nat)⟩ s.own.items ++
          s.frozen.flatten =
        s.endingAfter stop ++ ⟨term, start, signedPos stop, (4 * (covered.length + 1) : Nat)⟩ ::
          (covered ++ before) := by
  obtain ⟨covered, hcovered⟩ := h.exists_covered hroom hnode before hbefore
  refine ⟨covered, hcovered, ?_⟩
  have hlength : since.length = (s.endingAfter stop).length + covered.length := by
    have hsplit := congrArg List.length (hsince.trans (s.endingAfter_append stop).symm)
    rw [hcovered] at hsplit
    simp only [List.length_append] at hsplit
    omega
  have hsize : max (4 : Int) ((4 * (since.length + 1) : Nat) -
      4 * (s.endingAfter stop).length) = (4 * (covered.length + 1) : Nat) := by
    omega
  have hsunk := sinkInto_of_node
    (r := ⟨term, start, signedPos stop, (4 * (since.length + 1) : Nat)⟩) hnode
  rw [hsunk, List.append_assoc, List.cons_append, ← hcovered, ← hsize]
  rfl

/-- **A node adopts what was recorded since its first symbol began**, without what ends after it. -/
theorem records_appendNode (h : Apart s begun) {stop : Nat} (hreduce : s.reducePos ≤ stop)
    (hle : stop ≤ s.pos) (hroom : s.HasRoom begun stop) {f : Frame}
    (hf : s.frames.items.head? = some f) (term start : Nat) :
    ∃ before tail covered, begun.head? = some before ∧ f.bufferPos = 4 * before.length ∧
      s.records = tail ++ (covered ++ before) ∧
      (s.appendNode ⟨term, signedPos start, signedPos stop,
          (s.bufferLength - f.bufferPos + 4 : Nat)⟩ true).records =
        tail ++ ⟨term, signedPos start, signedPos stop, (4 * (covered.length + 1) : Nat)⟩ ::
          (covered ++ before) ∧
      (∀ c ∈ tail, (stop : Int) < c.stop) ∧
      ∀ c ∈ covered, c.isNode = true → c.stop ≤ (stop : Int) := by
  have hstop : signedPos stop = stop := signedPos_of_slot (Nat.le_trans hle h.pos_le)
  obtain ⟨before, hbefore, hpos, since, hsince⟩ := h.layered.get (List.head?_eq_getElem? ▸ hf)
  rw [← List.head?_eq_getElem?] at hbefore
  have hcount : s.bufferLength - f.bufferPos + 4 = 4 * (since.length + 1) := by
    rw [h.chained.bufferLength_eq, hpos, ← hsince, List.length_append]
    omega
  have hrecords : (s.appendNode ⟨term, signedPos start, signedPos stop,
      (4 * (since.length + 1) : Nat)⟩ true).records =
        sinkInto ⟨term, signedPos start, signedPos stop, (4 * (since.length + 1) : Nat)⟩
          s.own.items ++ s.frozen.flatten := by
    rw [records, frozen_appendNode, h.own_appendNode hle hroom rfl]
  rw [hcount, hrecords]
  rcases node_or_none (signedPos stop) s.own.items with hnode | hnone
  · obtain ⟨covered, hcovered, hsunk⟩ :=
      h.sinkInto_covers hroom hnode hbefore hsince term (signedPos start)
    refine ⟨before, s.endingAfter stop, covered, hbefore, hpos, ?_, hsunk, fun c hc => ?_,
      fun c hc hc' => ?_⟩
    · rw [← hcovered, endingAfter_append]
    · exact hstop ▸ lt_stop_of_mem_tailAfter hc
    · exact h.stop_le_of_mem_upTo hreduce hle (hcovered ▸ List.mem_append_left _ hc) hc'
  · refine ⟨before, [], since, hbefore, hpos, hsince.symm, ?_, fun c hc => ?_, fun c hc hc' => ?_⟩
    · rw [sinkInto_of_no_node hnone, List.nil_append, hsince, List.cons_append, records]
    · cases hc
    · -- no node at all ends after the new one
      have hmem : c ∈ s.own.items ++ s.frozen.flatten := by
        rw [← records, ← hsince]
        exact List.mem_append_left _ hc
      rcases List.mem_append.1 hmem with hmem | hmem
      · exact hstop ▸ h.ordered_own.stop_le_of_no_node hnone hmem hc'
      · exact Int.le_trans (h.stop_frozen hmem hc') (Int.ofNat_le.2 hreduce)

end Apart

end Stack

end IncrementalLR
