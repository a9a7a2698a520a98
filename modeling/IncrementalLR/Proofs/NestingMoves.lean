/-
**Moves that keep stacks tidy.**

A stack stays tidy under every move of a parse but two kinds of them.  A reduction may find the
record of an error, or a mark with the number of errors, on top of skipped nodes, and then does not
look for a place below them; and a symbol without text may be put after skipped text, in front of
where the last symbol ends.  The guard `settled` leaves these moves out.

Main definitions:

* `settled` — the moves that keep stacks tidy;
* `Setting.IsPlain` — what is asked of the parser and its document.

Main results:

* `Stack.Tidy.settled_reduce` — without skipped text every reduction is settled;
* `Stack.Move.tidy`, `Stack.Reached.tidy` — **settled moves lead to tidy stacks only**;
* `Stack.Tidy.close` — also with the last marks before a tree is built.
-/

import IncrementalLR.Proofs.NestedStacks

set_option relaxedAutoImplicit false
set_option autoImplicit false

namespace IncrementalLR

/-- The moves that keep records nested.  A symbol without text starts where the last one ends, with
no skipped node and no new mark in between, and a reduction that stores a node finds no error on top
of skipped nodes: what looks like one keeps the node from going below them. -/
def settled (p : Parser) : Guard where
  reduce s word :=
    if ActionWord.depth word = 0 then
      s.looksFar = false ∧ s.NoneLate ∧ (p.minRepeat ≤ ActionWord.value word → s.late = [])
    else
      (ActionWord.value word < p.minRepeat || ActionWord.isRepeat word) = true →
        (s.beginReduce p (ActionWord.value word)).NoneLate ∨
          (s.beginReduce p (ActionWord.value word)).own.top?.all (·.isError) = false
  shift s word term stop :=
    if ActionWord.isGoto word then s.reducePos = s.pos
    else ActionWord.isStay word = true ∨ s.pos < stop ∨ term ≤ p.maxNode ∨ s.reducePos = s.pos

/-- What is asked of a setting: the document is parsed as a whole and its positions fit into 32
bits, no state is one of skipped text, and there is no tracker. -/
structure Setting.IsPlain (g : Setting) : Prop where
  whole : g.IsWhole
  hi_le : g.hi ≤ maxWord
  rows : ∀ state, (g.parser.tables.row state).isSkipped = false
  tracker : g.parser.tracker = none

namespace Stack

/-- After an error up to a position was stored: it is the newest record, and all records end by
then. -/
structure ErrorTop (g : Setting) (stop : Nat) (s : Stack) (e : Record) (rest : List Record) :
    Prop where
  own : s.own.items = e :: rest
  isError : e.isError = true
  isNode : e.isNode = true
  stop_eq : e.stop = stop
  mayMerge : s.mayMerge = true
  stops : ∀ r ∈ s.records, r.stop ≤ stop
  framed : Framed g.lo stop s.frames.items s.records

/-- The same error is not stored twice. -/
theorem ErrorTop.records_addNode {g : Setting} {start stop : Nat} {s : Stack} {e : Record}
    {rest : List Record} (h : ErrorTop g stop s e rest) (hlt : start < stop)
    (hword : stop ≤ maxWord) (size : Nat) :
    (s.addNode errorTerm start stop size false).records = s.records := by
  have hsigned : signedPos start = start := signedPos_of_word (by omega)
  have hsigned' : signedPos stop = stop := signedPos_of_word hword
  rw [addNode_again h.own h.isError h.isNode h.mayMerge (h.stop_eq.trans hsigned'.symm) (by omega)
    (Nat.ne_of_lt hlt)]

theorem beginReduce_of_not_far {s : Stack} (h : s.looksFar = false) (p : Parser) (term : Nat) :
    s.beginReduce p term = { s with score := s.score + p.precedenceOf term } := by
  simp [Stack.beginReduce, h]

namespace Tidy

variable {g : Setting} {s : Stack}

theorem reduce (hg : g.IsPlain) (h : Tidy g s) {word : Nat} {env : Env} (henv : env.start = g.lo)
    (hok : (settled g.parser).reduce s word) : Tidy g (s.reduce g.parser word env).1 := by
  simp only [settled] at hok
  unfold Stack.reduce
  simp only
  split
  · rename_i hdepth
    rw [if_pos hdepth] at hok
    obtain ⟨hfar, hnone, hlate⟩ := hok
    rw [if_neg (by simp [hfar]), beginReduce_of_not_far hfar]
    have h' : Tidy g { s with score := s.score + g.parser.precedenceOf (ActionWord.value word) } :=
      h.congr rfl rfl rfl rfl rfl rfl
    exact h'.reduceEmpty hg.hi_le env hg.tracker hnone hlate
  · rename_i hdepth
    rw [if_neg hdepth] at hok
    exact (h.beginReduce hg.hi_le _ _).reduceSome hg.hi_le word (hg.rows _) hg.tracker henv hok

/-- Without skipped text every reduction is settled. -/
theorem settled_reduce (hg : g.IsPlain) (h : Tidy g s) (heq : s.reducePos = s.pos) (word : Nat) :
    (settled g.parser).reduce s word := by
  have hfar : s.looksFar = false := by
    simp [looksFar, heq]
  have hnone := h.noneLate_of_eq hg.hi_le heq
  simp only [settled]
  split
  · exact ⟨hfar, hnone, fun _ => h.late_of_eq hg.hi_le heq⟩
  · intro _
    refine Or.inl ?_
    rw [beginReduce_of_not_far hfar]
    exact hnone

protected theorem shift (hg : g.IsPlain) (h : Tidy g s) {word term start stop : Nat} (env : Env)
    (hoffer : s.Offered g word term start stop) (hok : (settled g.parser).shift s word term stop) :
    Tidy g (s.shift g.parser word term start stop env).1 := by
  have hreduce := h.reduce_le
  have hpos := h.pos_le
  have hhi := hg.hi_le
  have hle := hoffer.le_stop
  have hstop := hoffer.stop_le
  have hsigned : signedPos s.pos = s.pos := signedPos_of_word (by omega)
  have hsigned' : signedPos stop = stop := signedPos_of_word (by omega)
  obtain rfl := hoffer.start_eq hg.whole
  have hleaf : Nested Record.IsMark s.pos stop [⟨term, signedPos s.pos, signedPos stop, 4⟩] :=
    .root (Int.natCast_nonneg term) rfl hsigned hsigned' (.nil (Int.ofNat_le.2 hle))
  simp only [settled] at hok
  unfold Stack.shift
  simp only [changeContext_of_none hg.tracker, hg.rows]
  split
  · rename_i hgoto
    rw [if_pos hgoto] at hok
    exact h.pushSymbol (l := []) hhi rfl rfl rfl rfl hok hpos (.nil (Int.le_refl _)) (by simp)
  · rename_i hgoto
    rw [if_neg hgoto] at hok
    split
    · -- a skipped token
      simp only [recordToken]
      split
      · exact h.pushRecord hhi hstop hleaf hsigned'
      · exact h.skipTo hle hstop
    · rename_i hstay
      have hok := hok.resolve_left hstay
      split
      · -- a token that counts
        simp only [recordToken]
        split
        · exact h.pushSymbol (l := [_]) hhi rfl rfl rfl rfl rfl hstop hleaf
            (by simp [Stack.pushRecord, pushState, hsigned'])
        · exact h.pushSymbol (l := []) hhi rfl rfl rfl rfl rfl hstop
            (.nil (Int.ofNat_le.2 hle)) (by simp)
      · -- a token without text and node
        rename_i htext
        simp only [Bool.or_eq_true, decide_eq_true_eq, not_or] at htext
        simp only [recordToken, htext.2, if_false]
        exact h.pushSymbol (l := []) hhi rfl rfl rfl rfl (by simp only [pushState]; omega) hpos
          (.nil (Int.le_refl _)) (by simp)

protected theorem restart (hg : g.IsPlain) (h : Tidy g s) : Tidy g s.restart := by
  have key := (h.storeError hg.hi_le).dropFrames s.storeError.frames.size
  refine key.congr rfl rfl (Pile.ext_items ?_) rfl rfl rfl
  simp [Stack.restart, Pile.size_eq]

theorem leaveRule (hg : g.IsPlain) (h : Tidy g s) {env : Env} {r : Stack × Env}
    (henv : env.start = g.lo) (hr : s.leaveRule g.parser env = (true, r)) : Tidy g r.1 := by
  obtain ⟨word, allowed, -, rfl⟩ := Stack.leaveRule_eq_true hr
  -- the reduce position catches up first
  have hready : ∀ s' : Stack, Tidy g s' → Tidy g (Stack.reduce g.parser word
      { s' with reducePos := s'.pos } env).1 := by
    intro s' h'
    have hcaught := h'.catchUp hg.hi_le
    exact hcaught.reduce hg henv (hcaught.settled_reduce hg rfl _)
  refine hready _ ?_
  cases allowed with
  | true => exact h
  | false => exact (h.storeError hg.hi_le).congr rfl rfl rfl rfl rfl rfl

theorem insertToken (hg : g.IsPlain) (h : Tidy g s) (term state : Nat) (env : Env) :
    Tidy g (s.insertToken g.parser term state env).1 := by
  have hsigned : signedPos s.pos = s.pos := signedPos_of_word (Nat.le_trans h.pos_le hg.hi_le)
  unfold Stack.insertToken
  simp only [changeContext_of_none hg.tracker]
  rcases storeError_cases (s.pushState state s.pos) with heq | heq
  · rw [heq]
    exact h.pushSymbol (l := []) hg.hi_le rfl rfl rfl rfl rfl h.pos_le (.nil (Int.le_refl _))
      (by simp)
  · rw [heq]
    refine h.pushSymbol (l := [_]) hg.hi_le rfl rfl rfl rfl rfl h.pos_le ?_ ?_
    · exact .root (Int.natCast_nonneg errorTerm) rfl hsigned hsigned (.nil (Int.le_refl _))
    · simp [Stack.pushRecord, pushState, hsigned]

/-- An error up to a position, in front of the records or merged with the one before. -/
theorem addError (h : Tidy g s) {stop : Nat} (hlt : s.pos < stop) (hword : stop ≤ maxWord) :
    ∃ e rest, ErrorTop g stop (s.addNode errorTerm s.pos stop 4 false) e rest := by
  have hsigned : signedPos s.pos = s.pos := signedPos_of_word (by omega)
  have hsigned' : signedPos stop = stop := signedPos_of_word hword
  have hle : (s.pos : Int) ≤ stop := by omega
  rcases addNode_cases s errorTerm s.pos stop 4 false with
    ⟨heq, _⟩ | ⟨e, rest, hown, herror, hnode, hmay, heq⟩ | heq
  · omega
  · have hframed := h.framed_extendLast h.whole hown hnode hmay hle hword
    have hitems := own_extendLast hown stop
    rw [heq]
    refine ⟨_, _, hitems, herror, hnode, hsigned', ?_, ?_, ?_⟩
    · unfold Stack.mayMerge at hmay ⊢
      rw [frames_extendLast, bufferLength_extendLast hown]
      exact hmay
    · exact h.stops_extendLast hown stop (Int.le_of_eq hsigned') hle
    · rw [frames_extendLast]
      exact hframed
  · rw [heq, appendNode_of_not_sink]
    refine ⟨_, _, rfl, rfl, rfl, hsigned', h.mayMerge_pushRecord _, ?_, ?_⟩
    · refine List.forall_mem_cons.2 ⟨Int.le_of_eq hsigned', fun r hr => ?_⟩
      exact Int.le_trans (h.stops r hr) hle
    · exact h.whole.absorb (.root (Int.natCast_nonneg errorTerm) rfl hsigned hsigned' (.nil hle))

/-- The stack after the token up to a position was left out, if the error ends there. -/
theorem deleted (hg : g.IsPlain) (h : Tidy g s) {s' : Stack} {stop : Nat} {score : Int}
    (hlt : s.pos < stop) (hstop : stop ≤ g.hi) (hbase : s'.base = s.base)
    (hfrozen : s'.frozen = s.frozen) (hstops : ∀ r ∈ s'.records, r.stop ≤ stop)
    (hframed : Framed g.lo stop s'.frames.items s'.records) :
    Tidy g { s' with pos := stop, reducePos := stop, score } := by
  have hlo := h.lo_le
  have hreduce := h.reduce_le
  refine h.of_whole hbase hfrozen (by simp only; omega) (Nat.le_refl _) hstop hstops ?_ hframed
  intro r hr
  simp only [signedPos_of_word (Nat.le_trans hstop hg.hi_le)]
  exact hstops r (List.mem_append_left _ (List.mem_of_mem_head? hr))

/-- A deleted token with the error around it. -/
theorem deleteToken (hg : g.IsPlain) (h : Tidy g s) (term : Nat) {stop : Nat} (hlt : s.pos < stop)
    (hstop : stop ≤ g.hi) : Tidy g (s.deleteToken g.parser term stop) := by
  have hword : stop ≤ maxWord := Nat.le_trans hstop hg.hi_le
  have hle : (s.pos : Int) ≤ stop := by omega
  have hsigned : signedPos s.pos = s.pos := signedPos_of_word (by omega)
  have hsigned' : signedPos stop = stop := signedPos_of_word hword
  obtain ⟨e, rest, herror⟩ := h.addError hlt hword
  unfold Stack.deleteToken
  by_cases hnode : term ≤ g.parser.maxNode
  · simp only [hnode, decide_true, if_true, pos_addNode]
    by_cases hterm : term = errorTerm
    · -- the token is an error itself, and the error around it is merged with it
      subst hterm
      have hagain := herror.records_addNode hlt hword 8
      refine h.deleted hg hlt hstop (by simp) (by simp) ?_ ?_
      · rw [hagain]
        exact herror.stops
      · rw [hagain, frames_addNode]
        exact herror.framed
    · -- the error is a node above the token
      rw [addNode_of_ne hterm, appendNode_of_not_sink, addNode_above hterm]
      refine h.deleted hg hlt hstop rfl rfl ?_ ?_
      · refine List.forall_mem_cons.2 ⟨Int.le_of_eq hsigned', ?_⟩
        refine List.forall_mem_cons.2 ⟨Int.le_of_eq hsigned', fun r hr => ?_⟩
        exact Int.le_trans (h.stops r hr) hle
      · have htoken : Nested Record.IsMark s.pos stop
            [⟨term, signedPos s.pos, signedPos stop, 4⟩] :=
          .root (Int.natCast_nonneg term) rfl hsigned hsigned' (.nil hle)
        exact h.whole.absorb (.root (Int.natCast_nonneg errorTerm) rfl hsigned hsigned' htoken)
  · simp only [hnode, decide_false]
    exact h.deleted hg hlt hstop (by simp) (by simp) herror.stops herror.framed

/-- The last marks before a tree is built. -/
theorem close (hg : g.IsPlain) (h : Tidy g s) : Tidy g (s.close g.parser) := by
  unfold Stack.close
  simp only [hg.tracker, Option.any_none, Bool.false_eq_true, if_false]
  split
  · exact h.mark hg.hi_le _
  · exact h

end Tidy

/-! ### All moves -/

theorem tidy_start {g : Setting} (hg : g.Fits) : Tidy g (Stack.start g.parser g.lo) := by
  refine ⟨Nat.le_refl _, Nat.le_refl _, hg.lo_le, ?_, rfl, ?_, ?_, ?_⟩
  · simp [records, Stack.start]
  · simp [Stack.start]
  · exact .nil (Int.le_refl _)
  · exact .nil (Int.le_refl _)

/-- A settled move keeps a stack tidy. -/
theorem Move.tidy {g : Setting} {s s' : Stack} (hg : g.IsPlain)
    (hm : Move g (settled g.parser) s s') (h : Tidy g s) : Tidy g s' := by
  cases hm with
  | split env => exact h.freeze _
  | look => exact h.raiseLookAhead hg.hi_le _
  | reduce henv _ hok => exact h.reduce hg henv hok
  | shift hoffer _ hok => exact h.shift hg _ hoffer hok
  | leave henv hr => exact h.leaveRule hg henv hr
  | insert => exact h.insertToken hg _ _ _
  | delete hlt hle => exact h.deleteToken hg _ hlt hle
  | error => exact h.storeError hg.hi_le
  | restart => exact h.restart hg

/-- **Settled moves lead to tidy stacks only.** -/
theorem Reached.tidy {g : Setting} (hfits : g.Fits) (hg : g.IsPlain) {s : Stack}
    (h : Reached g (settled g.parser) s) : Tidy g s := by
  induction h with
  | start => exact tidy_start hfits
  | move _ hm ih => exact hm.tidy hg ih

end Stack

end IncrementalLR
