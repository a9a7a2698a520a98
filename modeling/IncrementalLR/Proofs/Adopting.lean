/-
**Reductions adopt what they pop.**

A reduction finds the records of the symbols that it pops behind the position of the first one.
This holds after any operations on a stack, as long as each node that has to go below skipped text
has room there.

A node without room is one whose symbols have no text, behind skipped text that was there before
them: it gets below the position of its own frame, and the reduction that pops the frame misses it.

Main results:

* `Stack.Apart.reduce`, `Stack.Apart.run` — what a reduction and any other operation keep;
* `Stack.Apart.reduce_behind`, `Stack.Apart.reduce_covers` — what the node of a reduction covers;
* `Stack.History.apart` — every stack that such operations lead to has its records on their side;
* `Stack.History.reductions_adopt` — **positions separate records, and reductions adopt what they
  pop**;
* `Stack.History.reduction_misses` — a node that gets below the position of its own frame.
-/

import IncrementalLR.Proofs.Apart

set_option relaxedAutoImplicit false
set_option autoImplicit false

namespace IncrementalLR

namespace Stack

open Record

namespace Apart

variable {s s' : Stack} {begun : List (List Record)}

/-! ### Reductions -/

protected theorem beginReduce (h : Apart s begun) (p : Parser) (term : Nat) :
    Apart (s.beginReduce p term) begun := by
  rw [Stack.beginReduce]
  split
  · exact (h.raiseLookAhead s.pos).congr rfl rfl rfl rfl rfl rfl
  · exact h.congr rfl rfl rfl rfl rfl rfl

/-- Right behind the position of a frame no error is merged. -/
theorem addNode_pushState (s : Stack) (state pos term start stop size : Nat) :
    (s.pushState state pos).addNode term start stop size true =
      (s.pushState state pos).appendNode ⟨term, signedPos start, signedPos stop, size⟩ true := by
  refine addNode_of_not_mayMerge ?_ ..
  simp [mayMerge, Stack.pushState, Pile.top?, bufferLength]

/-- A symbol of no others. -/
theorem reduceEmpty (h : Apart s begun) {p : Parser} {term : Nat} (size : Nat) (env : Env)
    (hroom : term < p.minRepeat → s.HasRoom (s.records :: begun) s.reducePos) :
    Apart (s.reduceEmpty p term size env).1 (s.records :: begun) := by
  have hpushed := h.pushState (p.gotoState s.state term) s.reducePos
  rw [Stack.reduceEmpty]
  refine Apart.changeContext ?_ p _ _ env
  split
  · rename_i hnode
    rw [addNode_pushState]
    exact hpushed.appendNode (Nat.le_refl _) h.reduce_le (hroom hnode) rfl
  · exact hpushed

/-- A node over some symbols, which then are given up. -/
theorem cover (h : Apart s begun) {n term stop : Nat} (hreduce : s.reducePos ≤ stop)
    (hle : stop ≤ s.pos) (hterm : term ≠ errorTerm ∨ stop = s.pos)
    (hroom : s.HasRoom (begun.drop n) stop) (start size state : Nat) :
    Apart { s.addNode term start stop size true with frames := s.frames.drop n, state }
      (begun.drop n) := by
  rcases hterm with hterm | rfl
  · have hdropped : Apart { s with frames := s.frames.drop n } (begun.drop n) :=
      h.dropFrames n s.state
    have happended := hdropped.appendNode hreduce hle hroom
      (r := ⟨term, signedPos start, signedPos stop, size⟩) rfl
    rw [← appendNode_withFrames] at happended
    rw [addNode_of_ne hterm]
    exact happended.congr rfl rfl rfl rfl rfl rfl
  · have hadded := (h.addNode_here term start size true).dropFrames n state
    rwa [frames_addNode] at hadded

/-- Nodes end between the reduce position and the position. -/
theorem between (h : Apart s begun) (isSkipped : Bool) :
    s.reducePos ≤ (if isSkipped then s.pos else s.reducePos) ∧
      (if isSkipped then s.pos else s.reducePos) ≤ s.pos := by
  cases isSkipped with
  | false => exact ⟨Nat.le_refl _, h.reduce_le⟩
  | true => exact ⟨h.reduce_le, Nat.le_refl _⟩

/-- A symbol of others. -/
theorem reduceSome (h : Apart s begun) {p : Parser} {word : Nat} (env : Env)
    (hroom : (ActionWord.value word < p.minRepeat || ActionWord.isRepeat word) = true →
      (ActionWord.value word ≠ errorTerm ∨ s.reducePos = s.pos) ∧
        s.HasRoom (begun.drop (popCount word))
          (if (p.tables.row s.state).isSkipped then s.pos else s.reducePos)) :
    Apart (s.reduceSome p word env).1 (begun.drop (popCount word)) := by
  have hle := h.between (p.tables.row s.state).isSkipped
  rw [Stack.reduceSome]
  refine Apart.changeContext ?_ p _ _ _
  dsimp only
  generalize (if (p.tables.row s.state).isSkipped then s.pos else s.reducePos) = stop at hroom hle ⊢
  split
  · rename_i hnode
    obtain ⟨hterm, hroom⟩ := hroom hnode
    refine h.cover hle.1 hle.2 (hterm.imp_right fun hcaught => ?_) hroom _ _ _
    exact Nat.le_antisymm hle.2 (hcaught ▸ hle.1)
  · exact h.dropFrames _ _

/-- **What a reduction keeps.** -/
protected theorem reduce (h : Apart s begun) {p : Parser} {word : Nat} (env : Env)
    (hok : s.ReducesApart p word begun) :
    Apart (s.reduce p word env).1 (s.begunReduce p word begun) := by
  have hbegin := h.beginReduce p (ActionWord.value word)
  rw [Stack.reduce]
  split
  · rename_i hdepth
    rw [begunReduce, if_pos hdepth]
    refine hbegin.reduceEmpty _ env fun hnode => ?_
    have hstores : stores p word = true := by
      rw [stores, decide_eq_true hnode, Bool.true_or]
    have hroom := (hok hstores).2
    rw [begunReduce, if_pos hdepth, nodeStop, hdepth] at hroom
    rwa [reducePos_beginReduce]
  · rename_i hdepth
    rw [begunReduce, if_neg hdepth]
    refine hbegin.reduceSome env fun hnode => ?_
    have hstores : stores p word = true := by
      rw [stores, decide_eq_true hdepth, Bool.true_and]
      exact hnode
    obtain ⟨hterm, hroom⟩ := hok hstores
    rw [begunReduce, if_neg hdepth, nodeStop, decide_eq_true hdepth, Bool.true_and] at hroom
    rw [reducePos_beginReduce, pos_beginReduce, state_beginReduce]
    exact ⟨hterm, hroom⟩

/-! ### Other operations -/

/-- What is recorded of a token that ends at the position. -/
theorem token (h : Apart s begun) (p : Parser) (term start : Nat) (env : Env) :
    Apart ((s.changeContext p (.shift term) start env).1.recordToken p term start s.pos) begun := by
  have hchanged := h.changeContext p (.shift term) start env
  rw [recordToken]
  split
  · refine hchanged.push ?_
    rw [pos_changeContext]
    exact h.signed_pos
  · exact hchanged

/-- A token that does not go back, or a symbol that begins without one. -/
protected theorem shift (h : Apart s begun) {p : Parser} {word term start stop : Nat} (env : Env)
    (hok : ActionWord.isGoto word = true ∨ s.pos ≤ stop ∧ stop ≤ maxSlot) :
    Apart (s.shift p word term start stop env).1
      ((Operation.shift word term start stop).begun p s begun) := by
  rw [Stack.shift, Operation.begun]
  cases hgoto : ActionWord.isGoto word with
  | true => exact h.pushState _ _
  | false =>
      obtain ⟨hle, hslot⟩ := hok.resolve_left (by rw [hgoto]; exact Bool.false_ne_true)
      cases hstay : ActionWord.isStay word with
      | true =>
          have hmoved : Apart { s with pos := stop } begun :=
            h.advance hle hslot (Nat.le_refl _) (Nat.le_trans h.reduce_le hle)
          exact hmoved.token p term start env
      | false =>
          simp only [Bool.false_eq_true, if_false]
          split
          · -- the token has text or a node
            have hmoved : ∀ reducePos, s.reducePos ≤ reducePos → reducePos ≤ stop →
                Apart ({ s with pos := stop, reducePos }.pushState word start)
                  (s.records :: begun) := fun reducePos hreduce hreduce' =>
              (h.advance hle hslot hreduce hreduce').pushState word start
            split
            · have hpushed := hmoved s.reducePos (Nat.le_refl _) (Nat.le_trans h.reduce_le hle)
              exact hpushed.token p term start env
            · have hpushed := hmoved stop (Nat.le_trans h.reduce_le hle) (Nat.le_refl _)
              exact hpushed.token p term start env
          · rename_i hnone
            rw [Bool.or_eq_true, not_or, decide_eq_true_eq, decide_eq_true_eq] at hnone
            rw [Stack.recordToken, if_neg hnone.2]
            exact (h.pushState word start).changeContext p _ _ env

protected theorem adopt (h : Apart s begun) {p : Parser} {node : Tree} (state : Nat) (env : Env)
    (hslot : s.pos + node.length ≤ maxSlot) :
    Apart (s.adopt p node state env).1 (s.records :: begun) := by
  have hmoved : Apart { s with pos := s.pos + node.length, reducePos := s.pos + node.length }
      begun := h.advance (Nat.le_add_right _ _) hslot (Nat.le_trans h.reduce_le
        (Nat.le_add_right _ _)) (Nat.le_refl _)
  rw [Stack.adopt]
  exact ((hmoved.pushState state s.pos).push hmoved.signed_pos).changeContext p _ _ _

/-- A token that is left out. -/
protected theorem deleteToken (h : Apart s begun) (p : Parser) (term : Nat) {stop : Nat}
    (hle : s.pos ≤ stop) (hslot : stop ≤ maxSlot) : Apart (s.deleteToken p term stop) begun := by
  have hmoved : Apart { s with pos := stop, reducePos := stop } begun :=
    h.advance hle hslot (Nat.le_trans h.reduce_le hle) (Nat.le_refl _)
  rw [Stack.deleteToken]
  by_cases hnode : term ≤ p.maxNode
  · simp only [hnode, decide_true, if_true, pos_addNode]
    have hstored := (hmoved.addNode_ahead term s.pos 4).addNode_ahead errorTerm s.pos 8
    exact hstored.congr rfl rfl rfl rfl rfl rfl
  · simp only [hnode, decide_false, Bool.false_eq_true, if_false]
    exact (hmoved.addNode_ahead errorTerm s.pos 4).congr rfl rfl rfl rfl rfl rfl

protected theorem insertToken (h : Apart s begun) (p : Parser) (term state : Nat) (env : Env) :
    Apart (s.insertToken p term state env).1 (s.records :: begun) := by
  have hstored := ((h.pushState state s.pos).storeError).changeContext p (.shift term) s.pos env
  have hpos : ((s.pushState state s.pos).storeError.changeContext p (.shift term) s.pos env).1.pos =
      s.pos := by
    rw [pos_changeContext, pos_storeError]
    rfl
  rw [Stack.insertToken]
  generalize (s.pushState state s.pos).storeError.changeContext p (.shift term) s.pos env = r
    at hstored hpos ⊢
  have hmoved := hstored.advance (Nat.le_refl _) hstored.pos_le hstored.reduce_le (Nat.le_refl _)
  refine hmoved.congr rfl rfl rfl rfl rfl ?_
  exact hpos.symm

protected theorem insertEach (h : Apart s begun) {p : Parser} {chosen : List (Nat × Nat)}
    {env : Env} {s' : Stack} (hs' : s' ∈ (insertEach p s chosen env).1) :
    Apart s' (s.records :: begun) := by
  induction chosen generalizing env with
  | nil => cases hs'
  | cons c rest ih =>
      rcases List.mem_cons.1 hs' with rfl | hs'
      · exact h.insertToken p c.1 c.2 env
      · exact ih hs'

protected theorem caughtUp (h : Apart s begun) (p : Parser) (allowed : Bool) :
    Apart (s.caughtUp p allowed) begun := by
  have hready : Apart (if allowed then s else
      let s := s.storeError
      { s with score := s.score - p.tuning.reducePenalty }) begun := by
    split
    · exact h
    · exact h.storeError.congr rfl rfl rfl rfl rfl rfl
  exact hready.advance (Nat.le_refl _) hready.pos_le hready.reduce_le (Nat.le_refl _)

/-- A stack whose text all counts has room for the node of any reduction. -/
theorem reducesApart_of_eq (h : Apart s begun) (heq : s.reducePos = s.pos) (p : Parser)
    (word : Nat) : s.ReducesApart p word begun := by
  intro _
  refine ⟨Or.inr heq, fun hnode => ?_⟩
  obtain ⟨c, hc, -⟩ := hnode
  have hbegin := h.beginReduce p (ActionWord.value word)
  have hstop : s.nodeStop p word = s.pos := by
    rw [nodeStop, heq, ite_self]
  have hlt := lt_stop_of_mem_tailAfter hc
  have hle := hbegin.stops c (List.mem_append_left _ ((List.takeWhile_sublist _).subset hc))
  rw [pos_beginReduce] at hle
  rw [hstop, h.signed_pos] at hlt
  exact absurd hle (Int.not_le.2 hlt)

protected theorem leaveRule (h : Apart s begun) {p : Parser} {env : Env} {r : Stack × Env}
    (hr : s.leaveRule p env = (true, r)) : Apart r.1 (Operation.leave.begun p s begun) := by
  obtain ⟨word, allowed, hword, rfl⟩ := Stack.leaveRule_eq_true hr
  rw [Operation.begun, hword]
  have hcaught := h.caughtUp p allowed
  exact hcaught.reduce env (hcaught.reducesApart_of_eq rfl p word)

protected theorem restart (h : Apart s begun) : Apart s.restart [] := by
  have hstored := h.storeError
  exact {
    chained := ⟨hstored.chained.base_eq, hstored.chained.pieces⟩
    pos_le := hstored.pos_le
    reduce_le := hstored.reduce_le
    stops := hstored.stops
    ordered := hstored.ordered
    frozen := hstored.frozen
    layered := .bottom _ }

/-- **What an operation keeps.** -/
theorem run (h : Apart s begun) {p : Parser} {op : Operation} (env : Env)
    (hok : s.KeepsApart p begun op) : Apart (op.run p s env).1 (op.begun p s begun) := by
  cases op with
  | shift word term start stop => exact h.shift env hok
  | reduce word => exact h.reduce env hok
  | store term start stop size sink =>
      obtain ⟨rfl, rfl, rfl⟩ := hok
      exact h.addNode_here errorTerm s.pos size sink
  | adopt node state => exact h.adopt state env hok
  | delete term stop => exact h.deleteToken p term hok.1 hok.2
  | insert next =>
      rw [Operation.run, insertTokens]
      split
      · exact h
      · split
        · exact h
        · exact h.freeze _
  | leave =>
      rw [Operation.run]
      rcases hr : s.leaveRule p env with ⟨_ | _, r⟩
      · obtain ⟨hnone, rfl⟩ := Stack.leaveRule_eq_false hr
        rw [Operation.begun, hnone]
        exact h
      · exact h.leaveRule hr
  | restart => exact h.restart
  | look pos => exact h.raiseLookAhead pos
  | close => exact h.close p
  | split => exact h.freeze _

/-- A stack that is split off with a token inserted. -/
theorem inserted (h : Apart s begun) {p : Parser} {next : Nat} {env : Env}
    (hs' : s' ∈ ((Operation.insert next).run p s env).2.1) : Apart s' (s.records :: begun) := by
  rw [Operation.run, insertTokens] at hs'
  split at hs'
  · cases hs'
  · split at hs'
    · cases hs'
    · exact s.records_freeze _ ▸ (h.freeze _).insertEach hs'

/-! ### What reductions adopt -/

/-- The node of a symbol of no others goes behind everything from before. -/
theorem records_reduceEmpty (h : Apart s begun) {p : Parser} {term : Nat} (size : Nat) (env : Env)
    (hnode : term < p.minRepeat) (hroom : s.HasRoom (s.records :: begun) s.reducePos) :
    ∃ above, (s.reduceEmpty p term size env).1.records =
        above ++ ⟨term, signedPos s.reducePos, signedPos s.reducePos, size⟩ :: s.records ∧
      ∀ c ∈ above, c.isNode = false := by
  have hpushed := h.pushState (p.gotoState s.state term) s.reducePos
  have hitems := (hpushed.own_appendNode h.reduce_le hroom
    (r := ⟨term, signedPos s.reducePos, signedPos s.reducePos, size⟩) rfl).trans
      (sinkInto_of_no_node hroom.no_node)
  have hreduce : (s.reduceEmpty p term size env).1 = (changeContext p (.reduce term) s.reducePos
      ((s.pushState (p.gotoState s.state term) s.reducePos).addNode term s.reducePos s.reducePos
        size true) env).1 := by
    rw [Stack.reduceEmpty, if_pos hnode, reducePos_addNode]
    rfl
  obtain ⟨above, habove, hnoabove⟩ := records_changeContext p (.reduce term)
    s.reducePos ((s.pushState (p.gotoState s.state term) s.reducePos).addNode term s.reducePos
      s.reducePos size true) env
  refine ⟨above, ?_, hnoabove⟩
  rw [hreduce, habove, addNode_pushState, records, hitems, frozen_appendNode]
  rfl

/-- The node of a symbol of others covers what was recorded since its frame was pushed. -/
theorem records_reduceSome (h : Apart s begun) {p : Parser} {word stop : Nat} (env : Env)
    {f : Frame} (hnode : (ActionWord.value word < p.minRepeat || ActionWord.isRepeat word) = true)
    (hterm : ActionWord.value word ≠ errorTerm)
    (hstop : stop = if (p.tables.row s.state).isSkipped then s.pos else s.reducePos)
    (hroom : s.HasRoom (begun.drop (popCount word)) stop)
    (hf : s.frames.get? (popCount word) = some f) :
    ∃ before covered tail above, begun[popCount word]? = some before ∧
      s.records = tail ++ (covered ++ before) ∧
      (s.reduceSome p word env).1.records = above ++ (tail ++ ⟨ActionWord.value word,
        signedPos f.start, signedPos stop, (4 * (covered.length + 1) : Nat)⟩ ::
          (covered ++ before)) ∧
      (∀ c ∈ above, c.isNode = false) ∧ (∀ c ∈ tail, (stop : Int) < c.stop) ∧
      ∀ c ∈ covered, c.isNode = true → c.stop ≤ (stop : Int) := by
  have hle : s.reducePos ≤ stop ∧ stop ≤ s.pos := hstop ▸ h.between _
  have hdropped : Apart { s with frames := s.frames.drop (popCount word) }
      (begun.drop (popCount word)) := h.dropFrames (popCount word) s.state
  have htop : (s.frames.drop (popCount word)).top? = some f := by
    rw [Pile.top?, Pile.items_drop, List.head?_drop]
    exact hf
  obtain ⟨before, tail, covered, hbefore, -, hsplit, hadded, htail, hcovered⟩ :=
    hdropped.records_appendNode hle.1 hle.2 hroom htop (ActionWord.value word) f.start
  rw [← appendNode_withFrames] at hadded
  obtain ⟨state, env', hreduce⟩ : ∃ state env', (s.reduceSome p word env).1 =
      (changeContext p (.reduce (ActionWord.value word)) f.start
        { s.addNode (ActionWord.value word) f.start stop (s.bufferLength - f.bufferPos + 4)
            true with
          state, frames := s.frames.drop (popCount word) } env').1 := by
    rw [Stack.reduceSome, htop, if_pos hnode, ← hstop]
    exact ⟨_, _, rfl⟩
  obtain ⟨above, habove, hnoabove⟩ := records_changeContext p (.reduce (ActionWord.value word))
    f.start { s.addNode (ActionWord.value word) f.start stop (s.bufferLength - f.bufferPos + 4)
      true with state, frames := s.frames.drop (popCount word) } env'
  refine ⟨before, covered, tail, above, ?_, hsplit, ?_, hnoabove, htail, hcovered⟩
  · rw [← List.head?_drop]
    exact hbefore
  · rw [hreduce, habove, addNode_of_ne hterm]
    exact congrArg (above ++ ·) hadded

/-- A reduction of no symbols that stores its node. -/
theorem reduce_behind (h : Apart s begun) {p : Parser} {word : Nat} (env : Env)
    (hok : s.ReducesApart p word begun) (hdepth : ActionWord.depth word = 0)
    (hstores : stores p word = true) :
    ∃ above marks, (s.reduce p word env).1.records =
        above ++ ⟨ActionWord.value word, signedPos s.reducePos, signedPos s.reducePos,
          (if s.looksFar then 8 else 4 : Nat)⟩ :: (marks ++ s.records) ∧
      (∀ c ∈ above ++ marks, c.isNode = false) ∧
      ((Operation.reduce word).begun p s begun).head? = some (marks ++ s.records) := by
  obtain ⟨marks, hmarks, hnomark⟩ := records_beginReduce p (ActionWord.value word) s
  have hnode : ActionWord.value word < p.minRepeat := by
    rw [stores, hdepth] at hstores
    simpa using hstores
  have hroom := (hok hstores).2
  rw [begunReduce, if_pos hdepth, nodeStop, hdepth] at hroom
  obtain ⟨above, habove, hnoabove⟩ := (h.beginReduce p (ActionWord.value word)).records_reduceEmpty
    (if s.looksFar then 8 else 4) env hnode (by rwa [reducePos_beginReduce])
  refine ⟨above, marks, ?_, ?_, ?_⟩
  · rw [Stack.reduce, if_pos hdepth, habove, reducePos_beginReduce, hmarks]
  · intro c hc
    exact (List.mem_append.1 hc).elim (hnoabove c) (hnomark c)
  · rw [Operation.begun, begunReduce, if_pos hdepth, hmarks]
    rfl

/-- A reduction of some symbols that stores a node. -/
theorem reduce_covers (h : Apart s begun) {p : Parser} {word : Nat} (env : Env) {f : Frame}
    (hok : s.ReducesApart p word begun) (hdepth : ActionWord.depth word ≠ 0)
    (hstores : stores p word = true) (hterm : ActionWord.value word ≠ errorTerm)
    (hf : s.frames.get? (popCount word) = some f) :
    ∃ before covered tail above marks, begun[popCount word]? = some before ∧
      marks ++ s.records = tail ++ (covered ++ before) ∧
      (s.reduce p word env).1.records = above ++ (tail ++ ⟨ActionWord.value word,
        signedPos f.start, signedPos (s.nodeStop p word), (4 * (covered.length + 1) : Nat)⟩ ::
          (covered ++ before)) ∧
      (∀ c ∈ above ++ marks, c.isNode = false) ∧
      (∀ c ∈ tail, (s.nodeStop p word : Int) < c.stop) ∧
      ∀ c ∈ covered, c.isNode = true → c.stop ≤ (s.nodeStop p word : Int) := by
  obtain ⟨marks, hmarks, hnomark⟩ := records_beginReduce p (ActionWord.value word) s
  have hnode : (ActionWord.value word < p.minRepeat || ActionWord.isRepeat word) = true := by
    rw [stores, decide_eq_true hdepth, Bool.true_and] at hstores
    exact hstores
  have hroom := (hok hstores).2
  rw [begunReduce, if_neg hdepth] at hroom
  have hstop : s.nodeStop p word =
      if (p.tables.row (s.beginReduce p (ActionWord.value word)).state).isSkipped then
        (s.beginReduce p (ActionWord.value word)).pos
      else (s.beginReduce p (ActionWord.value word)).reducePos := by
    rw [nodeStop, decide_eq_true hdepth, Bool.true_and, state_beginReduce, pos_beginReduce,
      reducePos_beginReduce]
  obtain ⟨before, covered, tail, above, hbefore, hsplit, habove, hnoabove, htail, hcovered⟩ :=
    (h.beginReduce p (ActionWord.value word)).records_reduceSome env hnode hterm hstop hroom
      (by rwa [frames_beginReduce])
  refine ⟨before, covered, tail, above, marks, hbefore, hmarks ▸ hsplit, ?_, ?_, htail, hcovered⟩
  · rw [Stack.reduce, if_neg hdepth]
    exact habove
  · intro c hc
    exact (List.mem_append.1 hc).elim (hnoabove c) (hnomark c)

end Apart

/-! ### Symbols of no others -/

/-- A parser for a `b` with anything before it; the `b` makes it reduce nothing to a node of type 2,
and this to one of type 3.  All other bytes are skipped tokens of type 4. -/
def emptyParser : Parser :=
  let states : List ParseState :=
    [{ actions := [(7, .reduce 2 0)], skip := [(4, .skip)], tokenizerMask := 1 },
      { defaultReduce := some (.reduce 3 1) },
      { actions := [(7, .shift 3)], skip := [(4, .skip)], tokenizerMask := 1 },
      { accepting := true, tokenizerMask := 1 }]
  { Parse.pairParser with
    tables :=
      ⟨(layOutStates states {}).1.toArray, (layOutStates states {}).2.slots,
        (gotoSlots [(0, 2, 1), (0, 3, 2)]).toArray⟩,
    set :=
      ⟨#[{ epoch := 1, id := 0, name := "⚠", isError := true },
        { epoch := 1, id := 1, name := "Top", isTop := true }, { epoch := 1, id := 2, name := "E" },
        { epoch := 1, id := 3, name := "X" },
        { epoch := 1, id := 4, name := "Comment", isSkipped := true }]⟩,
    minRepeat := 5,
    maxNode := 4,
    tokenizers := #[Parse.byteTokenizer fun b => if b = 98 then 7 else 4] }

/-- A symbol of no others, and text skipped behind it. -/
def emptyThenSkipped : Stack :=
  let s := ((Stack.start emptyParser 0).reduce emptyParser (Action.reduce 2 0).code
    Parse.letterEnv).1
  (s.shift emptyParser Action.skip.code 4 0 1 Parse.letterEnv).1

/-- Skipped text, and a symbol of no others behind it. -/
def skippedThenEmpty : Stack :=
  let s := ((Stack.start emptyParser 0).shift emptyParser Action.skip.code 4 0 1 Parse.letterEnv).1
  (s.reduce emptyParser (Action.reduce 2 0).code Parse.letterEnv).1

/-! ### Whole runs -/

theorem apart_start {p : Parser} {pos : Nat} (hpos : pos ≤ maxSlot) :
    Apart (Stack.start p pos) [] where
  chained := ⟨rfl, fun piece hpiece => (List.not_mem_nil hpiece).elim⟩
  pos_le := hpos
  reduce_le := Nat.le_refl _
  stops := fun c hc => (List.not_mem_nil hc).elim
  ordered := .nil
  frozen := fun c hc => by cases hc
  layered := .bottom _

namespace History

variable {p : Parser} {s : Stack} {begun : List (List Record)}

/-- **Every stack that such operations lead to has its records on their side.** -/
theorem apart (h : History p (KeepsApart p) s begun) : Apart s begun := by
  induction h with
  | start hpos => exact apart_start hpos
  | run env _ hok ih => exact ih.run env hok
  | inserted _ hs' ih => exact ih.inserted hs'

/-- **Positions separate records, and reductions adopt what they pop.**  After any operations that
leave records on their side:

* the position of each frame is the number of slots that there were when its symbol began, and what
  was recorded before stands below it as it was;
* the node of a reduction of no symbols goes right behind that position;
* the node of any other reduction covers what was recorded since the symbol began whose frame comes
  on top, without what ends after the node, which stays above it; and it covers no node that ends
  after it.

The frame that comes on top is that of the first symbol that is popped; if the reduction stays, it
is the one below these symbols.  Marks may come in front. -/
theorem reductions_adopt (h : History p (KeepsApart p) s begun) :
    (∀ i f, s.frames.get? i = some f → ∃ before, begun[i]? = some before ∧
      f.bufferPos = 4 * before.length ∧ before <:+ s.records) ∧
    (∀ word env, s.KeepsApart p begun (.reduce word) → ActionWord.depth word = 0 →
      stores p word = true → ∃ above marks,
        (s.reduce p word env).1.records = above ++ ⟨ActionWord.value word, signedPos s.reducePos,
          signedPos s.reducePos, (if s.looksFar then 8 else 4 : Nat)⟩ :: (marks ++ s.records) ∧
        (∀ c ∈ above ++ marks, c.isNode = false) ∧
        ((Operation.reduce word).begun p s begun).head? = some (marks ++ s.records)) ∧
    ∀ word env f, s.KeepsApart p begun (.reduce word) → ActionWord.depth word ≠ 0 →
      stores p word = true → ActionWord.value word ≠ errorTerm →
      s.frames.get? (popCount word) = some f →
      ∃ before covered tail above marks, begun[popCount word]? = some before ∧
        marks ++ s.records = tail ++ (covered ++ before) ∧
        (s.reduce p word env).1.records = above ++ (tail ++ ⟨ActionWord.value word,
          signedPos f.start, signedPos (s.nodeStop p word), (4 * (covered.length + 1) : Nat)⟩ ::
            (covered ++ before)) ∧
        (∀ c ∈ above ++ marks, c.isNode = false) ∧
        (∀ c ∈ tail, (s.nodeStop p word : Int) < c.stop) ∧
        ∀ c ∈ covered, c.isNode = true → c.stop ≤ (s.nodeStop p word : Int) := by
  have hapart := h.apart
  refine ⟨?_, ?_, ?_⟩
  · intro i f hf
    exact hapart.layered.get hf
  · intro word env hok hdepth hstores
    exact hapart.reduce_behind env hok hdepth hstores
  · intro word env f hok hdepth hstores hterm hf
    exact hapart.reduce_covers env hok hdepth hstores hterm hf

/-- The node of a reduction covers the empty one, and goes below what was skipped behind both. -/
theorem reductions_adopt_empty :
    ∃ before covered tail above marks, [[]][0]? = some before ∧
      marks ++ emptyThenSkipped.records = tail ++ (covered ++ before) ∧
      (emptyThenSkipped.reduce emptyParser (Action.reduce 3 1).code Parse.letterEnv).1.records =
        above ++ (tail ++ ⟨3, 0, 0, (4 * (covered.length + 1) : Nat)⟩ :: (covered ++ before)) ∧
      (∀ c ∈ above ++ marks, c.isNode = false) ∧ (∀ c ∈ tail, 0 < c.stop) ∧
      (∀ c ∈ covered, c.isNode = true → c.stop ≤ 0) ∧
      (emptyThenSkipped.reduce emptyParser (Action.reduce 3 1).code Parse.letterEnv).1.records =
        [⟨4, 0, 1, 4⟩, ⟨3, 0, 0, 8⟩, ⟨2, 0, 0, 4⟩] := by
  have hempty : History emptyParser (KeepsApart emptyParser)
      ((Stack.start emptyParser 0).reduce emptyParser (Action.reduce 2 0).code Parse.letterEnv).1
      [[]] := by
    refine @run _ _ _ _ (.reduce (Action.reduce 2 0).code) Parse.letterEnv
      (@start _ _ 0 (Nat.zero_le _)) ?_
    change ReducesApart emptyParser _ _ _
    decide +kernel
  have hskipped : History emptyParser (KeepsApart emptyParser) emptyThenSkipped [[]] := by
    refine @run _ _ _ _ (.shift Action.skip.code 4 0 1) Parse.letterEnv hempty (Or.inr ?_)
    decide +kernel
  obtain ⟨-, -, hadopts⟩ := reductions_adopt hskipped
  have hok : KeepsApart emptyParser emptyThenSkipped [[]] (.reduce (Action.reduce 3 1).code) := by
    change ReducesApart emptyParser _ _ _
    decide +kernel
  obtain ⟨before, covered, tail, above, marks, hbefore, hsplit, hreduced, hmarks, htail,
    hcovered⟩ := hadopts (Action.reduce 3 1).code Parse.letterEnv ⟨0, 0, 0⟩ hok (by decide)
      (by decide) (by decide) (by decide +kernel)
  exact ⟨before, covered, tail, above, marks, hbefore, hsplit, hreduced, hmarks, htail, hcovered,
    by decide +kernel⟩

/-- **A node gets below the position of its own frame.**  Skipped text stood there before its symbol
began; the node of the symbol goes below it, and the next reduction does not adopt it. -/
theorem reduction_misses :
    History emptyParser (fun _ _ _ => True) skippedThenEmpty [[⟨4, 0, 1, 4⟩]] ∧
      skippedThenEmpty.frames.get? 0 = some ⟨0, 0, 4⟩ ∧
      skippedThenEmpty.records = [⟨4, 0, 1, 4⟩, ⟨2, 0, 0, 4⟩] ∧
      ¬ [⟨4, 0, 1, 4⟩] <:+ skippedThenEmpty.records ∧
      (skippedThenEmpty.reduce emptyParser (Action.reduce 3 1).code Parse.letterEnv).1.records =
        [⟨4, 0, 1, 4⟩, ⟨3, 0, 0, 4⟩, ⟨2, 0, 0, 4⟩] := by
  refine ⟨?_, by decide +kernel, by decide +kernel, by decide +kernel, by decide +kernel⟩
  have hskipped := @run emptyParser (fun _ _ _ => True) _ _ (.shift Action.skip.code 4 0 1)
    Parse.letterEnv (@start _ _ 0 (Nat.zero_le _)) trivial
  exact @run _ _ _ _ (.reduce (Action.reduce 2 0).code) Parse.letterEnv hskipped trivial

end History

end Stack

end IncrementalLR
