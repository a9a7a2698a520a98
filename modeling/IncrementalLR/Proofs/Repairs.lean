/-
**Measured moves.**

Repairs put nodes and symbols where a stack stands, so they need no condition to keep it measured:
an error ends where the text that was left out does, a symbol that is inserted starts there, and
before a rule is left the last symbol is taken to end there too.

With that every measured move keeps a stack measured, and its tree can be built whenever it is asked
for.  If every symbol that is shifted has text, and no reduction stores a node of no symbols or an
error, there are no other moves.

Main definitions:

* `Parser.isTyped`, `Parser.isSolid` — the checks of the tables.

Main results:

* `Stack.Move.measured`, `Stack.Reached.measured` — **measured moves lead to measured stacks only**;
* `Stack.Measured.buildFrom_ok` — the tree of a measured stack is built;
* `Stack.Reached.measured_of_solid` — **the stacks of a solid parser are those of measured moves**.
-/

import IncrementalLR.Proofs.Driver
import IncrementalLR.Proofs.Leaving
import IncrementalLR.Proofs.Measured

set_option relaxedAutoImplicit false
set_option autoImplicit false

namespace IncrementalLR

namespace Stack

/-! ### Forced reductions -/

/-- A reduction that is found by looking ahead is a plain one. -/
theorem exploreF_isRepeat {p : Parser} {s : Stack} (fuel : Nat) {depth state word : Nat}
    {seen : List Nat} (h : (exploreF p s fuel depth seen state).1 = some word) :
    ActionWord.isRepeat word = false := by
  obtain ⟨_, _, _, -, -, -, rfl⟩ := isShortened_of_exploreF fuel h
  exact isRepeat_reduction _ _

/-- A reduction by which a stack leaves its rule has a typed term if it gets a node. -/
theorem value_lt_of_forced {p : Parser} (hterms : p.Typed) {s : Stack} {forced : Nat × Bool}
    (h : s.forcedWord? p = some forced)
    (hnode : (ActionWord.value forced.1 < p.minRepeat || ActionWord.isRepeat forced.1) = true) :
    ActionWord.value forced.1 < p.set.size := by
  have hrow : forced.1 = (p.tables.row s.state).forcedReduce →
      ActionWord.value forced.1 < p.set.size := fun heq => hterms.value_lt (Or.inr heq) hnode
  unfold forcedWord? at h
  simp only at h
  split at h
  · cases h
  · split at h
    · obtain rfl := Option.some.inj h
      exact hrow rfl
    · split at h
      · obtain rfl := Option.some.inj h
        exact hrow rfl
      · obtain ⟨word, hword, rfl⟩ := Option.map_eq_some_iff.1 h
        rw [exploreF_isRepeat _ hword, Bool.or_false, decide_eq_true_eq] at hnode
        exact Nat.lt_of_lt_of_le hnode hterms.minRepeat

namespace Measured

variable {g : Setting} {s : Stack}

/-! ### Repairs -/

protected theorem restart (hg : g.IsTyped) (h : Measured g s) : Measured g s.restart := by
  have key := (h.storeError hg).dropFrames s.storeError.frames.size
  refine key.congr rfl rfl (Pile.ext_items ?_) rfl ⟨rfl, rfl, rfl⟩
  simp [Stack.restart, Pile.size_eq]

protected theorem leaveRule (hg : g.IsTyped) (h : Measured g s) {env : Env} {r : Stack × Env}
    (henv : env.start = g.lo) (hr : s.leaveRule g.parser env = (true, r)) : Measured g r.1 := by
  obtain ⟨word, allowed, hword, rfl⟩ := Stack.leaveRule_eq_true hr
  -- the reduce position catches up first
  have hready : ∀ s' : Stack, Measured g s' → Measured g (Stack.reduce g.parser word
      { s' with reducePos := s'.pos } env).1 := by
    intro s' h'
    refine (h'.moveTo hg (Nat.le_refl _) h'.pos_le).reduce hg henv (fun hnode => ?_)
      (measured_reduce rfl _)
    exact value_lt_of_forced hg.terms hword hnode
  refine hready _ ?_
  cases allowed with
  | true => exact h
  | false => exact (h.storeError hg).congr rfl rfl rfl rfl ⟨rfl, rfl, rfl⟩

protected theorem insertToken (hg : g.IsTyped) (h : Measured g s) (term state : Nat) (env : Env) :
    Measured g (s.insertToken g.parser term state env).1 := by
  -- the reduce position catches up last, which makes no difference to the records
  have hpushed := (h.moveTo hg (Nat.le_refl _) h.pos_le).pushState state (Nat.le_refl s.pos)
  have hstored : Measured g { (s.pushState state s.pos).storeError with reducePos := s.pos } := by
    rcases storeError_cases (s.pushState state s.pos) with heq | heq
    · rw [heq]
      exact hpushed.congr rfl rfl rfl rfl ⟨rfl, rfl, rfl⟩
    · rw [heq]
      exact (hpushed.pushLeaf hg (error_lt hg) (Nat.le_refl _)).congr rfl rfl rfl rfl
        ⟨rfl, rfl, rfl⟩
  obtain ⟨own, context, heq, hown⟩ := changeContext_eq g.parser (.shift term) s.pos
    (s.pushState state s.pos).storeError env
  unfold Stack.insertToken
  simp only [heq]
  rcases hown with rfl | ⟨id, rfl⟩
  · exact hstored.congr rfl rfl rfl rfl ⟨rfl, rfl, rfl⟩
  · have hmarked := hstored.pushRecord (Or.inl (Or.inl rfl))
      (hstored.fits_note hg id (show Record.contextSize < 0 by decide))
    exact hmarked.congr rfl rfl rfl rfl ⟨rfl, rfl, rfl⟩

/-- The stack after the token up to a position was left out. -/
theorem deleted (hg : g.IsTyped) (h : Measured g s) {stop : Nat} {score : Int} {own : Pile Record}
    (hlt : s.pos < stop) (hstop : stop ≤ g.hi)
    (hfits : ∀ r ∈ own.items ++ s.frozen.flatten, r.Fits g.parser stop)
    (hcut : Cut s.frames.items (own.items ++ s.frozen.flatten)) :
    Measured g { s with own, pos := stop, reducePos := stop, score } := by
  have hreduce := h.reduce_le
  have hlo := h.lo_le
  have hsigned : signedPos stop = stop := signedPos_of_lt (Nat.lt_of_le_of_lt hstop hg.hi_lt)
  have hnone : Stack.late { s with own, pos := stop, reducePos := stop, score } = [] := by
    refine late_eq_nil fun r hr => ?_
    rw [hsigned]
    exact (hfits r hr).stop_le
  refine ⟨⟨h.chained.base_eq, h.chained.pieces⟩, by simp only; omega, Nat.le_refl _, hstop, ?_,
    hfits, ?_, hcut⟩
  · intro f hf
    have := h.starts f hf
    simp only
    omega
  · rw [hnone]
    simp

/-- A record may be merged with a new one before it. -/
theorem mayMerge_pushRecord (h : Measured g s) (r : Record) : (s.pushRecord r).mayMerge = true := by
  obtain ⟨seg, below, hsplit, htop, -⟩ := h.cut.focus
  have hlength := h.chained.bufferLength_eq
  rw [hsplit, List.length_append] at hlength
  unfold Stack.mayMerge Pile.top?
  cases hhead : s.frames.items.head? with
  | none => simp [Stack.pushRecord, hhead]
  | some f =>
      simp only [topSlots, hhead, Option.map_some, Option.getD_some] at htop
      simp only [Stack.pushRecord, hhead, Option.all_some]
      refine decide_eq_true ?_
      simp only [Stack.bufferLength, Pile.size_push] at hlength ⊢
      omega

/-- What is left after an error up to a position: it is the newest record, which no other one is
merged with, and all records fit. -/
structure ErrorLeft (g : Setting) (stop : Nat) (s s' : Stack) : Prop where
  own : ∃ own, s' = { s with own }
  again : ∀ size, s'.addNode errorTerm s.pos stop size false = s'
  fits : ∀ r ∈ s'.records, r.Fits g.parser stop
  cut : Cut s.frames.items s'.records

/-- An error up to a position, in front of the records or merged with the one before. -/
theorem addError (hg : g.IsTyped) (h : Measured g s) {stop : Nat} (hlt : s.pos < stop)
    (hstop : stop ≤ g.hi) : ErrorLeft g stop s (s.addNode errorTerm s.pos stop 4 false) := by
  have hsigned := h.signed_pos hg
  have hsigned' : signedPos stop = stop := signedPos_of_lt (Nat.lt_of_le_of_lt hstop hg.hi_lt)
  have hfits := (h.skipTo (Nat.le_of_lt hlt) hstop).fits
  have hcut := h.cut
  rcases addNode_cases s errorTerm s.pos stop 4 false with
    ⟨heq, -⟩ | ⟨e, rest, hown, herror, hnode, hmay, heq⟩ | heq
  · omega
  · have hitems := own_extendLast hown stop
    have hrecords : (s.extendLast stop).records =
        { e with stop := signedPos stop } :: (rest ++ s.frozen.flatten) := by
      rw [records, hitems, extendLast_of_cons hown]
      rfl
    have hold : s.records = e :: (rest ++ s.frozen.flatten) := by
      rw [records, hown]
      rfl
    have he := h.fits e (by rw [hold]; exact List.mem_cons_self)
    change ∀ r ∈ s.records, _ at hfits
    rw [hold] at hfits hcut
    rw [heq]
    refine ⟨⟨_, extendLast_of_cons hown stop⟩, fun size => ?_, ?_, ?_⟩
    · refine addNode_again hitems herror hnode ?_ rfl (by omega) (Nat.ne_of_lt hlt) size false
      unfold Stack.mayMerge at hmay ⊢
      rw [frames_extendLast, bufferLength_extendLast hown]
      exact hmay
    · rw [hrecords]
      refine List.forall_mem_cons.2 ⟨⟨Int.le_of_eq hsigned', fun hnode => ?_⟩,
        (List.forall_mem_cons.1 hfits).2⟩
      obtain ⟨h₁, h₂, h₃⟩ := he.node hnode
      have hend := he.stop_le
      refine ⟨h₁, h₂, ?_⟩
      simp only
      omega
    · rw [hrecords]
      exact hcut.replace rfl
  · rw [heq, appendNode_of_not_sink]
    refine ⟨⟨_, rfl⟩, fun size => ?_, ?_, hcut.absorb (.single (Or.inr rfl) .nil)⟩
    · exact addNode_again rfl rfl rfl (h.mayMerge_pushRecord _) rfl (by omega) (Nat.ne_of_lt hlt)
        size false
    · refine List.forall_mem_cons.2 ⟨⟨Int.le_of_eq hsigned', fun _ => ?_⟩, hfits⟩
      refine ⟨Int.natCast_nonneg errorTerm, Int.ofNat_lt.2 (error_lt hg), ?_⟩
      simp only
      omega

/-- A deleted token with the error around it. -/
protected theorem deleteToken (hg : g.IsTyped) (h : Measured g s) (term : Nat) {stop : Nat}
    (hlt : s.pos < stop) (hstop : stop ≤ g.hi) :
    Measured g (s.deleteToken g.parser term stop) := by
  have hsigned := h.signed_pos hg
  have hsigned' : signedPos stop = stop := signedPos_of_lt (Nat.lt_of_le_of_lt hstop hg.hi_lt)
  have herror := h.addError hg hlt hstop
  obtain ⟨own, hown⟩ := herror.own
  have hfits := herror.fits
  have hcut := herror.cut
  have hagain := herror.again 8
  rw [hown] at hfits hcut hagain
  unfold Stack.deleteToken
  by_cases hnode : term ≤ g.parser.maxNode
  · simp only [hnode, decide_true, if_true, pos_addNode]
    by_cases hterm : term = errorTerm
    · -- the token is an error itself, and the error around it is merged with it
      subst hterm
      rw [hown, hagain]
      exact h.deleted hg hlt hstop hfits hcut
    · -- the error is a node above the token
      rw [addNode_of_ne hterm, appendNode_of_not_sink, addNode_above hterm]
      have hleaf : ∀ (id size : Nat), id < g.parser.set.size →
          Record.Fits g.parser stop ⟨id, signedPos s.pos, signedPos stop, size⟩ := by
        intro id size hid
        refine ⟨Int.le_of_eq hsigned', fun _ => ⟨Int.natCast_nonneg id, Int.ofNat_lt.2 hid, ?_⟩⟩
        simp only
        omega
      have hskipped := (h.skipTo (Nat.le_of_lt hlt) hstop).fits
      refine h.deleted hg hlt hstop ?_ ?_
      · refine List.forall_mem_cons.2 ⟨hleaf errorTerm 8 (error_lt hg), ?_⟩
        refine List.forall_mem_cons.2 ⟨hleaf term 4 ?_, hskipped⟩
        exact Nat.lt_of_le_of_lt hnode hg.terms.maxNode
      · show Cut _ ([_, _] ++ s.records)
        exact h.cut.absorb (.root rfl (.single (Or.inr rfl) .nil))
  · simp only [hnode, decide_false]
    rw [if_neg (by simp), if_neg (by simp), hown]
    exact h.deleted hg hlt hstop hfits hcut

end Measured

/-! ### All moves -/

theorem measured_start {g : Setting} (hg : g.Fits) : Measured g (Stack.start g.parser g.lo) := by
  have hcut : Cut [] [] := ⟨.nil, by simp, .nil⟩
  refine ⟨⟨rfl, by simp [Stack.start]⟩, Nat.le_refl _, Nat.le_refl _, hg.lo_le, ?_, ?_, ?_, hcut⟩
  · simp [Stack.start]
  · simp [records, Stack.start]
  · simp [Stack.late, Stack.start]

/-- A measured move keeps a stack measured. -/
theorem Move.measured {g : Setting} {s s' : Stack} (hg : g.IsTyped)
    (hm : Move g (measured g.parser) s s') (h : Measured g s) : Measured g s' := by
  cases hm with
  | split env => exact h.freeze _
  | look => exact h.raiseLookAhead hg _
  | reduce henv hword hok => exact h.reduce hg henv (hg.terms.value_lt (Or.inl hword)) hok
  | shift hoffer _ hok => exact h.shift hg _ hoffer hok
  | leave henv hr => exact h.leaveRule hg henv hr
  | insert => exact h.insertToken hg _ _ _
  | delete hlt hle => exact h.deleteToken hg _ hlt hle
  | error => exact h.storeError hg
  | restart => exact h.restart hg

/-- **Measured moves lead to measured stacks only.** -/
theorem Reached.measured {g : Setting} (hfits : g.Fits) (hg : g.IsTyped) {s : Stack}
    (h : Reached g (measured g.parser) s) : Measured g s := by
  induction h with
  | start => exact measured_start hfits
  | move _ hm ih => exact hm.measured hg ih

/-- **The tree of a measured stack is built.** -/
theorem Measured.buildFrom_ok {g : Setting} {s : Stack} (hg : g.IsTyped) (h : Measured g s)
    (reused : Array Tree) : ∃ t, Tree.buildFrom (Parse.planFor g.parser reused g.lo s.pos)
      (s.close g.parser).reader = .ok t := by
  have hclosed := h.close hg
  refine Tree.buildFrom_ok rfl hg.terms.top
    (.of_refill rfl hclosed.chained.bufferLength_eq hclosed.chained.pieces) hclosed.cut.whole ?_
  intro r hr hnode
  obtain ⟨h₁, h₂, h₃⟩ := (hclosed.fits r hr).node hnode
  exact ⟨h₁, h₂, Int.toNat_le_toNat h₃⟩

end Stack

/-! ### Typed parsers -/

/-- Whether a reduction that gets a node for a repetition has a term below a bound. -/
def ActionWord.isTyped (bound word : Nat) : Bool := !isRepeat word || value word < bound

/-- Whether all reductions of a state are typed. -/
def Tables.isTypedAt (t : Tables) (bound state : Nat) : Bool :=
  ActionWord.isTyped bound (t.row state).defaultReduce &&
    ActionWord.isTyped bound (t.row state).forcedReduce &&
    (t.words state).all fun w => !ActionWord.isReduce w.2 || ActionWord.isTyped bound w.2

/-- Whether the terms of a parser that may get nodes belong to the node types. -/
def Parser.isTyped (p : Parser) : Bool :=
  p.top.2 < p.set.size && p.maxNode < p.set.size && p.minRepeat ≤ p.set.size &&
    (List.range p.tables.stateCount).all (p.tables.isTypedAt p.set.size)

/-- A state that the tables do not have is typed. -/
theorem Tables.isTypedAt_of_not_hasState {t : Tables} {state : Nat} (h : t.hasState state = false)
    (bound : Nat) : t.isTypedAt bound state = true := by
  simp only [isTypedAt, words, row_of_not_hasState h, h, Bool.false_eq_true, if_false,
    List.all_nil, Bool.and_true]
  rfl

theorem Parser.typed_of_isTyped {p : Parser} (h : p.isTyped = true) : p.Typed := by
  simp only [isTyped, Bool.and_eq_true, decide_eq_true_eq, List.all_eq_true, List.mem_range] at h
  obtain ⟨⟨⟨htop, hnode⟩, hrepeat⟩, hstates⟩ := h
  refine ⟨htop, hnode, hrepeat, fun state word hword hbit => ?_⟩
  have hstate : p.tables.isTypedAt p.set.size state = true := by
    by_cases hlt : state < p.tables.stateCount
    · exact hstates state hlt
    · exact Tables.isTypedAt_of_not_hasState (by simp [Tables.hasState, hlt]) _
  simp only [Tables.isTypedAt, Bool.and_eq_true, List.all_eq_true] at hstate
  have htyped : ActionWord.isTyped p.set.size word = true := by
    rcases hword with (⟨-, rfl⟩ | ⟨hreduce, term, hgiven | hgiven⟩) | rfl
    · exact hstate.1.1
    · simpa [hreduce] using hstate.2 _ hgiven
    · simpa [hreduce] using hstate.2 _ hgiven
    · exact hstate.1.2
  simpa [ActionWord.isTyped, hbit] using htyped

/-! ### Solid parsers -/

/-- Whether a reduction stores no error, and no node of no symbols. -/
def ActionWord.isSolid (minRepeat word : Nat) : Bool :=
  value word ≠ errorTerm && (depth word ≠ 0 || minRepeat ≤ value word)

/-- Whether all shifts of a state consume their tokens, which are not the end of the input, or skip
them, and all its reductions are solid. -/
def Tables.isSolidAt (t : Tables) (eof minRepeat state : Nat) : Bool :=
  ((t.row state).defaultReduce = 0 || ActionWord.isSolid minRepeat (t.row state).defaultReduce) &&
    (t.words state).all fun w =>
      if ActionWord.isReduce w.2 then ActionWord.isSolid minRepeat w.2
      else !ActionWord.isGoto w.2 && (ActionWord.isStay w.2 || w.1.any (· ≠ eof))

/-- Whether every symbol that a parser shifts or stores takes a token. -/
def Parser.isSolid (p : Parser) : Bool :=
  (List.range p.tables.stateCount).all (p.tables.isSolidAt p.eofTerm p.minRepeat)

theorem Parser.isSolidAt_of_isSolid {p : Parser} (h : p.isSolid = true) (state : Nat) :
    p.tables.isSolidAt p.eofTerm p.minRepeat state = true := by
  simp only [isSolid, List.all_eq_true, List.mem_range] at h
  by_cases hstate : state < p.tables.stateCount
  · exact h state hstate
  · have hnone : p.tables.hasState state = false := by
      simp [Tables.hasState, hstate]
    simp [Tables.isSolidAt, Tables.words, Tables.row_of_not_hasState hnone, hnone]

theorem Tables.isSolid_of_reduces {t : Tables} {eof minRepeat state word : Nat}
    (h : t.isSolidAt eof minRepeat state = true) (hword : t.Reduces state word) :
    ActionWord.isSolid minRepeat word = true := by
  simp only [isSolidAt, Bool.and_eq_true, Bool.or_eq_true, decide_eq_true_eq,
    List.all_eq_true] at h
  rcases hword with ⟨hpos, rfl⟩ | ⟨hreduce, term, hgiven | hgiven⟩
  · exact h.1.resolve_left (by omega)
  · simpa [hreduce] using h.2 _ hgiven
  · simpa [hreduce] using h.2 _ hgiven

theorem Tables.isSolidAt_shift {t : Tables} {eof minRepeat state term word : Nat}
    (h : t.isSolidAt eof minRepeat state = true) (hgiven : t.Gives state term word)
    (hword : ActionWord.isReduce word = false) :
    ActionWord.isGoto word = false ∧ (ActionWord.isStay word = true ∨ term ≠ eof) := by
  simp only [isSolidAt, Bool.and_eq_true, List.all_eq_true] at h
  rcases hgiven with hgiven | hgiven
  · simpa [hword] using h.2 _ hgiven
  · have hchecked := h.2 _ hgiven
    simp only [hword, Bool.false_eq_true, if_false, Bool.and_eq_true, Bool.not_eq_true',
      Option.any_none, Bool.or_false] at hchecked
    exact ⟨hchecked.1, Or.inl hchecked.2⟩

namespace Stack

/-- Every move of a solid parser is measured. -/
theorem Move.measured_of_solid {g : Setting} {s s' : Stack} (hwhole : g.IsWhole)
    (hsolid : g.parser.isSolid = true) (hne : g.parser.NeverEmpty) (hm : Move g .free s s') :
    Move g (IncrementalLR.measured g.parser) s s' := by
  have hstate := Parser.isSolidAt_of_isSolid hsolid s.state
  cases hm with
  | split env => exact .split s env
  | look pos => exact .look s pos
  | reduce henv hword =>
      have key := Tables.isSolid_of_reduces hstate hword
      simp only [ActionWord.isSolid, Bool.and_eq_true, Bool.or_eq_true, decide_eq_true_eq,
        ne_eq] at key
      refine .reduce henv hword ⟨fun hdepth hlt => ?_, fun herror => absurd herror key.1⟩
      omega
  | shift hoffer hword =>
      obtain ⟨hgoto, hstay⟩ := Tables.isSolidAt_shift hstate hoffer.given hword
      refine .shift hoffer hword ?_
      simp only [IncrementalLR.measured, hgoto, Bool.false_eq_true, if_false]
      rcases hstay with hstay | heof
      · exact Or.inl hstay
      · exact Or.inr (Or.inl ((hoffer.nonempty hwhole hne).resolve_right heof))
  | leave henv hr => exact .leave henv hr
  | insert => exact .insert
  | delete hlt hle => exact .delete hlt hle
  | error => exact .error s
  | restart => exact .restart s

/-- **The stacks of a solid parser are those of measured moves.** -/
theorem Reached.measured_of_solid {g : Setting} {s : Stack} (hwhole : g.IsWhole)
    (hsolid : g.parser.isSolid = true) (hne : g.parser.NeverEmpty) (h : s.Known g) :
    s.Reached g (IncrementalLR.measured g.parser) := by
  induction h with
  | start => exact .start
  | move _ hm ih => exact ih.move (hm.measured_of_solid hwhole hsolid hne)

end Stack

end IncrementalLR
