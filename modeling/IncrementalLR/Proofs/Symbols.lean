/-
**The symbols of a stack and its records.**

After shifts, skips and reductions the records of a stack are those of the derivations of its
symbols, with skipped tokens and markers among them.  The invariant is `Stack.Laid`: the frames cut
the records into those of the symbols, only skipped tokens and markers end after the reduce
position, and no symbol starts with a skipped token.

Main definitions:

* `Act`, `Act.Plain`, `Act.onSymbols` — actions on tokens, when they are plain, and what they do to
  the symbols;
* `Stack.applyAll`, `Stack.PlainRun` — several actions in turn;
* `Stack.Laid` — the invariant.

Main results:

* `Stack.Laid.apply`, `Stack.Laid.applyAll` — what an action keeps, and what a run keeps;
* `Stack.erase_records_applyAll` — **without skipped tokens and markers the records are the
  derivations of the symbols in postfix order**.
-/

import IncrementalLR.Proofs.Derivations
import IncrementalLR.Proofs.WellFormed

set_option relaxedAutoImplicit false
set_option autoImplicit false

namespace IncrementalLR

/-! ### Plain actions -/

/-- A word of the tables and the token that it is done on. -/
structure Act where
  word : Nat
  term : Nat
  start : Nat
  stop : Nat

namespace Act

/-- Whether the token is skipped. -/
def skips (a : Act) : Bool := !ActionWord.isReduce a.word && ActionWord.isStay a.word

/-- The record of the token. -/
def record (a : Act) : Record := ⟨a.term, a.start, a.stop, 4⟩

/-- The records of the tokens that are skipped. -/
def skippedRecords (acts : List Act) : List Record := (acts.filter (·.skips)).map (·.record)

theorem skippedRecords_append (acts rest : List Act) :
    skippedRecords (acts ++ rest) = skippedRecords acts ++ skippedRecords rest := by
  simp [skippedRecords]

/-- What becomes of the symbols, newest first. -/
def onSymbols (ds : List Derivation) (a : Act) : List Derivation :=
  if ActionWord.isReduce a.word then
    match (ds.take (ActionWord.depth a.word)).reverse with
    | [] => ds
    | first :: rest =>
        .rule (ActionWord.value a.word) (ActionWord.isRepeat a.word) first rest ::
          ds.drop (ActionWord.depth a.word)
  else if ActionWord.isStay a.word then ds
  else .token a.term a.start a.stop :: ds

/-- A reduction of some of the symbols of a stack to a term that is not that of errors. -/
def PlainReduce (s : Stack) (a : Act) : Prop :=
  ActionWord.value a.word ≠ errorTerm ∧ ActionWord.isStay a.word = false ∧
    1 ≤ ActionWord.depth a.word ∧ ActionWord.depth a.word ≤ s.frames.size

/-- A shift or a skip of a token that has text and does not start before the position of the stack.
Records can hold where it ends. -/
def PlainShift (s : Stack) (a : Act) : Prop :=
  ActionWord.isGoto a.word = false ∧ s.pos ≤ a.start ∧ a.start < a.stop ∧
    a.stop ≤ 9223372036854775807

/-- A plain reduction, shift or skip. -/
def Plain (s : Stack) (a : Act) : Prop :=
  if ActionWord.isReduce a.word then a.PlainReduce s else a.PlainShift s

instance (s : Stack) (a : Act) : Decidable (a.PlainReduce s) := inferInstanceAs (Decidable (_ ∧ _))

instance (s : Stack) (a : Act) : Decidable (a.PlainShift s) := inferInstanceAs (Decidable (_ ∧ _))

instance (s : Stack) (a : Act) : Decidable (a.Plain s) :=
  inferInstanceAs (Decidable (if ActionWord.isReduce a.word then _ else _))

end Act

namespace Stack

/-- Does actions one after the other. -/
def applyAll (p : Parser) : List Act → Stack → Env → Stack × Env
  | [], s, env => (s, env)
  | a :: acts, s, env =>
      let r := s.apply p a.word a.term a.start a.stop env
      applyAll p acts r.1 r.2

/-- All actions are plain when their turn comes. -/
def PlainRun (p : Parser) : List Act → Stack → Env → Prop
  | [], _, _ => True
  | a :: acts, s, env =>
      a.Plain s ∧
        let r := s.apply p a.word a.term a.start a.stop env
        PlainRun p acts r.1 r.2

/-- Whether a run is plain is checked action by action. -/
def decidePlainRun (p : Parser) : (acts : List Act) → (s : Stack) → (env : Env) →
    Decidable (s.PlainRun p acts env)
  | [], _, _ => .isTrue trivial
  | _ :: acts, _, _ => @instDecidableAnd _ _ _ (decidePlainRun p acts _ _)

instance (p : Parser) (acts : List Act) (s : Stack) (env : Env) :
    Decidable (s.PlainRun p acts env) := decidePlainRun p acts s env

/-- The records of a stack are those of its symbols, with skipped tokens and markers among them.
Only these end after the reduce position, and no symbol starts with a skipped token. -/
structure Laid (p : Parser) (skipped : List Record) (ds : List Derivation) (s : Stack) : Prop where
  layers : Record.Layers p.toGrammar (Record.isGone skipped) s.frames.items ds s.own.items
  frozen : s.frozen = []
  base : s.base = 0
  le_pos : s.reducePos ≤ s.pos
  pos_le : s.pos ≤ 9223372036854775807
  stop_le : ∀ r ∈ s.own.items, r.stop ≤ s.pos
  gone_or : ∀ r ∈ s.own.items, Record.isGone skipped r = true ∨ r.stop ≤ s.reducePos
  skipped_le : ∀ q ∈ skipped, q.start < q.stop ∧ q.stop ≤ s.pos
  skipped_ne : ∀ q ∈ skipped, ∀ f ∈ s.frames.items, q.start ≠ f.start
  start_lt : ∀ f ∈ s.frames.items, f.start < s.reducePos
  stop_eq : ∀ d ∈ ds.head?, d.stop = s.reducePos

namespace Laid

variable {p : Parser} {skipped : List Record} {ds : List Derivation} {s : Stack}

theorem signedPos_pos (h : s.Laid p skipped ds) : signedPos s.pos = s.pos :=
  signedPos_of_lt (Nat.lt_succ_of_le h.pos_le)

theorem signedPos_reducePos (h : s.Laid p skipped ds) : signedPos s.reducePos = s.reducePos :=
  signedPos_of_lt (Nat.lt_succ_of_le (Nat.le_trans h.le_pos h.pos_le))

theorem start {pos : Nat} (hpos : pos ≤ 9223372036854775807) :
    (Stack.start p pos).Laid p [] [] where
  layers := .nil .nil
  frozen := rfl
  base := rfl
  le_pos := Nat.le_refl pos
  pos_le := hpos
  stop_le := by simp [Stack.start]
  gone_or := by simp [Stack.start]
  skipped_le := by simp
  skipped_ne := by simp
  start_lt := by simp [Stack.start]
  stop_eq := by simp

/-! ### Markers and skipped tokens -/

/-- A record that is gone may be appended. -/
theorem push_gone {r : Record} (h : s.Laid p skipped ds) (hgone : Record.isGone skipped r = true)
    (hstop : r.stop ≤ s.pos) : (s.pushRecord r).Laid p skipped ds where
  layers := h.layers.push_gone hgone
  frozen := h.frozen
  base := h.base
  le_pos := h.le_pos
  pos_le := h.pos_le
  stop_le := by
    simpa only [pushRecord, Pile.items_push, List.forall_mem_cons] using ⟨hstop, h.stop_le⟩
  gone_or := by
    simpa only [pushRecord, Pile.items_push, List.forall_mem_cons] using
      ⟨Or.inl hgone, h.gone_or⟩
  skipped_le := h.skipped_le
  skipped_ne := h.skipped_ne
  start_lt := h.start_lt
  stop_eq := h.stop_eq

/-- Neither look-ahead nor score nor state matter. -/
theorem of_eq (h : s.Laid p skipped ds) (state lookAhead : Nat) (score : Int) :
    { s with state, lookAhead, score }.Laid p skipped ds :=
  ⟨h.layers, h.frozen, h.base, h.le_pos, h.pos_le, h.stop_le, h.gone_or, h.skipped_le,
    h.skipped_ne, h.start_lt, h.stop_eq⟩

theorem markLookAhead (h : s.Laid p skipped ds) : s.markLookAhead.Laid p skipped ds := by
  unfold Stack.markLookAhead mark
  split
  · exact h
  · exact h.push_gone (by simp [Record.isGone, Record.isNode, Record.lookAheadSize])
      (by simp [h.signedPos_pos])

theorem beginReduce (h : s.Laid p skipped ds) (term : Nat) :
    (s.beginReduce p term).Laid p skipped ds := by
  unfold Stack.beginReduce raiseLookAhead
  split
  · split
    · exact h.markLookAhead.of_eq ..
    · exact h.of_eq ..
  · exact h.of_eq ..

/-- The record of a token that starts at the position of the stack or later is no record so far. -/
theorem not_mem_of_pos_le {r : Record} (h : s.Laid p skipped ds) (hstop : s.pos < r.stop) :
    r ∉ s.own.items := by
  intro hr
  have hle := h.stop_le r hr
  omega

/-- The stack moves on over a skipped token. -/
theorem skip_over {a : Act} (h : s.Laid p skipped ds) (hpos : s.pos ≤ a.start)
    (hlt : a.start < a.stop) (hstop : a.stop ≤ 9223372036854775807) :
    { s with pos := a.stop }.Laid p (skipped ++ [a.record]) ds where
  layers := by
    refine h.layers.congr fun r hr => Record.isGone_append ?_
    rintro hmem
    rw [List.mem_singleton.1 hmem] at hr
    exact h.not_mem_of_pos_le (r := a.record) (by simp only [Act.record]; omega) hr
  frozen := h.frozen
  base := h.base
  le_pos := by
    have hle := h.le_pos
    show s.reducePos ≤ a.stop
    omega
  pos_le := hstop
  stop_le := by
    intro r hr
    have hle := h.stop_le r hr
    show r.stop ≤ (a.stop : Int)
    omega
  gone_or := by
    intro r hr
    rcases h.gone_or r hr with hgone | hle
    · refine Or.inl ?_
      simp only [Record.isGone, Bool.or_eq_true] at hgone ⊢
      exact hgone.imp_right fun hmem => by
        rw [List.contains_iff_mem] at hmem ⊢
        exact List.mem_append_left _ hmem
    · exact Or.inr hle
  skipped_le := by
    intro q hq
    rcases List.mem_append.1 hq with hq | hq
    · have hle := h.skipped_le q hq
      show _ ∧ q.stop ≤ (a.stop : Int)
      omega
    · rw [List.mem_singleton.1 hq]
      simp only [Act.record]
      omega
  skipped_ne := by
    intro q hq f hf
    rcases List.mem_append.1 hq with hq | hq
    · exact h.skipped_ne q hq f hf
    · rw [List.mem_singleton.1 hq]
      have hlt := h.start_lt f hf
      have hle := h.le_pos
      simp only [Act.record]
      omega
  start_lt := h.start_lt
  stop_eq := h.stop_eq

/-- What a skip does. -/
theorem skip {a : Act} (h : s.Laid p skipped ds) (hpos : s.pos ≤ a.start)
    (hlt : a.start < a.stop) (hstop : a.stop ≤ 9223372036854775807) :
    (recordToken p a.term a.start a.stop { s with pos := a.stop }).Laid p
      (skipped ++ [a.record]) ds := by
  have hover := h.skip_over hpos hlt hstop
  unfold recordToken
  split
  · rw [signedPos_of_lt (by omega), signedPos_of_lt (by omega)]
    exact hover.push_gone (by simp [Record.isGone, Act.record]) (by simp)
  · exact hover

/-! ### Shifts -/

/-- What a shift does. -/
theorem shift {a : Act} (h : s.Laid p skipped ds) (hpos : s.pos ≤ a.start)
    (hlt : a.start < a.stop) (hstop : a.stop ≤ 9223372036854775807) (state : Nat) :
    (recordToken p a.term a.start a.stop
      (pushState { s with pos := a.stop, reducePos := a.stop } state a.start)).Laid p skipped
      (.token a.term a.start a.stop :: ds) := by
  have hsigned : signedPos a.start = a.start ∧ signedPos a.stop = a.stop :=
    ⟨signedPos_of_lt (by omega), signedPos_of_lt (by omega)⟩
  -- the token has a record or not
  obtain ⟨above, hown, habove⟩ : ∃ above,
      recordToken p a.term a.start a.stop
        (pushState { s with pos := a.stop, reducePos := a.stop } state a.start) =
        { s with
          pos := a.stop, reducePos := a.stop, state,
          frames := s.frames.push ⟨s.state, a.start, s.bufferLength⟩,
          own := ⟨above ++ s.own.items, above.length + s.own.size, by simp [s.own.size_eq]⟩ } ∧
      above = if a.term ≤ p.maxNode then [a.record] else [] := by
    unfold recordToken
    split
    · refine ⟨[a.record], ?_, rfl⟩
      simp only [pushRecord, pushState, hsigned, Act.record]
      congr 1
      exact Pile.ext_items rfl
    · refine ⟨[], ?_, rfl⟩
      simp only [pushState]
      congr 1
      exact Pile.ext_items rfl
  have hmem : ∀ r ∈ above, r = a.record := by
    intro r hr
    rw [habove] at hr
    split at hr
    · exact List.mem_singleton.1 hr
    · cases hr
  have hfresh : Record.isGone skipped a.record = false := by
    refine Record.isGone_eq_false (by simp [Record.isNode, Act.record]) fun hq => ?_
    have hle := h.skipped_le _ hq
    simp only [Act.record] at hle
    omega
  have hlength : s.bufferLength = 4 * s.own.items.length := by
    rw [bufferLength, h.base, s.own.size_eq]
    omega
  rw [hown]
  refine ⟨?_, h.frozen, h.base, Nat.le_refl _, hstop, ?_, ?_, ?_, ?_, ?_, ?_⟩
  · refine .cons hlength rfl ?_ ?_ h.layers
    · intro r hr
      have hle := h.stop_le r hr
      show r.stop ≤ (a.start : Int)
      omega
    · rw [Derivation.recordsOf_token, habove]
      split
      · exact Record.Erases.nil.cons_node hfresh rfl
      · exact .nil
  · intro r hr
    rcases List.mem_append.1 hr with hr | hr
    · rw [hmem r hr]
      exact Int.le_refl _
    · have hle := h.stop_le r hr
      show r.stop ≤ (a.stop : Int)
      omega
  · intro r hr
    refine Or.inr ?_
    rcases List.mem_append.1 hr with hr | hr
    · rw [hmem r hr]
      exact Int.le_refl _
    · have hle := h.stop_le r hr
      show r.stop ≤ (a.stop : Int)
      omega
  · intro q hq
    have hle := h.skipped_le q hq
    show _ ∧ q.stop ≤ (a.stop : Int)
    omega
  · intro q hq f hf
    rcases List.mem_cons.1 hf with rfl | hf
    · have hle := h.skipped_le q hq
      show q.start ≠ (a.start : Int)
      omega
    · exact h.skipped_ne q hq f hf
  · intro f hf
    rcases List.mem_cons.1 hf with rfl | hf
    · exact hlt
    · have hle := h.start_lt f hf
      have hle' := h.le_pos
      show f.start < a.stop
      omega
  · intro d hd
    rw [List.head?_cons, Option.mem_some_iff] at hd
    rw [← hd, Derivation.stop]

/-! ### Reductions -/

/-- The symbols from a frame on become one, whose records take the place of theirs. -/
theorem join {f : Frame} {popped fs : List Frame} {taken rest : List Derivation} {d : Derivation}
    {above above' below : List Record} {own : Pile Record} {frames : Pile Frame} {term : Nat}
    {repeated : Bool} (h : s.Laid p skipped (taken ++ d :: rest))
    (hframes : s.frames.items = popped ++ f :: fs) (hown : s.own.items = above ++ below)
    (hpos : f.bufferPos = 4 * below.length) (hstart : f.start = d.start)
    (hbelow : ∀ r ∈ below, r.stop ≤ f.start)
    (hrest : Record.Layers p.toGrammar (Record.isGone skipped) fs rest below)
    (hkept : frames.items = f :: fs) (hitems : own.items = above' ++ below)
    (hmem : ∀ c ∈ above', c ∈ above ∨ c.stop = s.reducePos)
    (herases : Record.Erases (Record.isGone skipped) above'
      (Derivation.recordsOf p.toGrammar [.rule term repeated d taken.reverse])) (state : Nat) :
    { s with own, state, frames }.Laid p skipped (.rule term repeated d taken.reverse :: rest) := by
  have hin : ∀ c ∈ own.items, c ∈ s.own.items ∨ c.stop = s.reducePos := by
    intro c hc
    rw [hitems, List.mem_append] at hc
    rw [hown, List.mem_append]
    rcases hc with hc | hc
    · exact (hmem c hc).imp_left Or.inl
    · exact Or.inl (Or.inr hc)
  have hframe : ∀ f' ∈ frames.items, f' ∈ s.frames.items := by
    intro f' hf'
    rw [hkept] at hf'
    rw [hframes]
    exact List.mem_append_right _ hf'
  have hle := h.le_pos
  refine ⟨?_, h.frozen, h.base, hle, h.pos_le, ?_, ?_, h.skipped_le, ?_, ?_, ?_⟩
  · simp only [hkept, hitems]
    exact .cons hpos hstart hbelow herases hrest
  · intro c hc
    rcases hin c hc with hc | heq
    · exact h.stop_le c hc
    · rw [heq]
      exact Int.ofNat_le.2 hle
  · intro c hc
    rcases hin c hc with hc | heq
    · exact h.gone_or c hc
    · exact Or.inr (Int.le_of_eq heq)
  · exact fun q hq f' hf' => h.skipped_ne q hq f' (hframe f' hf')
  · exact fun f' hf' => h.start_lt f' (hframe f' hf')
  · intro d' hd'
    obtain ⟨newest, hnewest⟩ : ∃ newest, newest ∈ (taken ++ d :: rest).head? := by
      cases taken <;> simp
    rw [List.head?_cons, Option.mem_some_iff] at hd'
    rw [← hd', Derivation.stop_rule_reverse hnewest, h.stop_eq newest hnewest]

/-- Storing a node over the records since a frame began. -/
theorem addNode {f : Frame} {above below left : List Record} {term : Nat} (h : s.Laid p skipped ds)
    (hterm : term ≠ errorTerm) (hf : f ∈ s.frames.items) (hown : s.own.items = above ++ below)
    (hpos : f.bufferPos = 4 * below.length) (hbelow : ∀ r ∈ below, r.stop ≤ f.start)
    (herases : Record.Erases (Record.isGone skipped) above left) :
    ∃ own above', s.addNode term f.start s.reducePos (s.bufferLength - f.bufferPos + 4) true =
        { s with own } ∧ own.items = above' ++ below ∧
      (∀ c ∈ above', c ∈ above ∨ c.stop = s.reducePos) ∧
      Record.Erases (Record.isGone skipped) above'
        (⟨term, f.start, s.reducePos, 4 * (left.length + 1 : Nat)⟩ :: left) := by
  have hlt := h.start_lt f hf
  have hle := h.le_pos
  have hposle := h.pos_le
  have hsize : s.bufferLength - f.bufferPos + 4 = 4 * (above.length + 1) := by
    have hitems := s.own.size_eq
    rw [hown, List.length_append] at hitems
    rw [bufferLength, h.base, hpos]
    omega
  have hfresh : ∀ size : Int, 0 ≤ size →
      Record.isGone skipped ⟨term, f.start, s.reducePos, size⟩ = false := by
    intro size hnode
    refine Record.isGone_eq_false (by simpa [Record.isNode] using hnode) fun hq => ?_
    exact h.skipped_ne _ hq f hf rfl
  rw [addNode_of_ne hterm, signedPos_of_lt (show f.start < 9223372036854775808 by omega),
    h.signedPos_reducePos, hsize]
  unfold appendNode
  split
  · refine ⟨_, ⟨term, f.start, s.reducePos, (4 * (above.length + 1) : Nat)⟩ :: above, rfl,
      by simp [hown], ?_, ?_⟩
    · intro c hc
      rcases List.mem_cons.1 hc with rfl | hc
      · exact Or.inr rfl
      · exact Or.inl hc
    · exact herases.cons_node (hfresh _ (by omega)) (by simp)
  · have hgone : ∀ c ∈ above, Record.isGone skipped c = true ∨ c.stop ≤ s.reducePos := by
      intro c hc
      exact h.gone_or c (by simp [hown, hc])
    have hstops : ∀ c ∈ below, c.stop ≤ s.reducePos := by
      intro c hc
      have hcle := hbelow c hc
      omega
    obtain ⟨above', hsink, hmem, herases'⟩ := herases.sinkInto
      (r := ⟨term, f.start, s.reducePos, (4 * (above.length + 1) : Nat)⟩) hfresh (by simp) hgone
      hstops
    exact ⟨_, above', rfl, by simp only [hown, hsink], hmem, herases'⟩

/-- What a reduction does to the stack apart from its context. -/
theorem reduceSome_eq {f : Frame} {word : Nat} (htracker : p.tracker = none)
    (hrows : ∀ state, (p.tables.row state).isSkipped = false)
    (htop : (s.frames.drop (popCount word)).top? = some f) (env : Env) :
    ∃ state, (s.reduceSome p word env).1 =
      { (if ActionWord.value word < p.minRepeat || ActionWord.isRepeat word then
          s.addNode (ActionWord.value word) f.start s.reducePos (s.bufferLength - f.bufferPos + 4)
            true
        else s) with
        state, frames := s.frames.drop (popCount word) } := by
  refine ⟨s.stateAfter p word (s.frames.drop (popCount word)), ?_⟩
  unfold Stack.reduceSome
  simp only [changeContext_of_none htracker, htop, hrows, Option.map_some, Option.getD_some]
  rfl

/-- What a reduction does: the symbols that it pops become one. -/
theorem reduceSome {word : Nat} {f : Frame} {popped fs : List Frame} (h : s.Laid p skipped ds)
    (htracker : p.tracker = none) (hrows : ∀ state, (p.tables.row state).isSkipped = false)
    (hterm : ActionWord.value word ≠ errorTerm)
    (hframes : s.frames.items = popped ++ f :: fs) (hcount : popped.length = popCount word)
    (env : Env) :
    ∃ taken d rest, ds = taken ++ d :: rest ∧ taken.length = popped.length ∧
      (s.reduceSome p word env).1.Laid p skipped
        (.rule (ActionWord.value word) (ActionWord.isRepeat word) d taken.reverse :: rest) := by
  have hlayers := h.layers
  rw [hframes] at hlayers
  obtain ⟨taken, d, rest, above, below, rfl, hlength, hown, hpos, hstart, hbelow, herases, hrest⟩ :=
    hlayers.split
  refine ⟨taken, d, rest, rfl, hlength, ?_⟩
  have hf : f ∈ s.frames.items := by simp [hframes]
  have hkept : (s.frames.drop (popCount word)).items = f :: fs := by
    rw [Pile.items_drop, hframes, ← hcount, List.drop_left]
  obtain ⟨state, hreduce⟩ := reduceSome_eq htracker hrows
    (show (s.frames.drop (popCount word)).top? = some f by rw [Pile.top?, hkept]; rfl) env
  have hrev : (d :: taken.reverse).reverse = taken ++ [d] := by simp
  rw [hreduce]
  split
  · rename_i hnode
    obtain ⟨own, above', hadd, hitems, hmem, herases'⟩ :=
      h.addNode hterm hf hown hpos hbelow herases
    rw [hadd]
    refine h.join hframes hown hpos hstart hbelow hrest hkept hitems hmem ?_ state
    obtain ⟨newest, hnewest⟩ : ∃ newest, newest ∈ (taken ++ d :: rest).head? := by
      cases taken <;> simp
    have hstop := Derivation.stop_rule_reverse hnewest (ActionWord.value word)
      (ActionWord.isRepeat word)
    rw [Derivation.stop, h.stop_eq newest hnewest] at hstop
    rw [Derivation.recordsOf_rule, if_pos hnode, hrev, hstop, ← hstart]
    exact herases'
  · rename_i hnode
    refine h.join hframes hown hpos hstart hbelow hrest hkept hown (fun c hc => Or.inl hc) ?_ state
    rw [Derivation.recordsOf_rule, if_neg hnode, hrev]
    exact herases

/-! ### Runs -/

/-- An action keeps what is known of the records. -/
theorem apply {a : Act} (h : s.Laid p skipped ds) (htracker : p.tracker = none)
    (hrows : ∀ state, (p.tables.row state).isSkipped = false) (hplain : a.Plain s) (env : Env) :
    (s.apply p a.word a.term a.start a.stop env).1.Laid p (skipped ++ Act.skippedRecords [a])
      (Act.onSymbols ds a) := by
  unfold Act.Plain at hplain
  unfold Stack.apply
  cases hreduce : ActionWord.isReduce a.word with
  | true =>
      simp only [hreduce, if_true] at hplain ⊢
      obtain ⟨hterm, hstay, hone, hdepth⟩ := hplain
      have hnone : Act.skippedRecords [a] = [] := by
        simp [Act.skippedRecords, Act.skips, hreduce]
      -- the frames that are popped, and that of the first symbol
      obtain ⟨f, fs, hsplit⟩ : ∃ f fs,
          s.frames.items.drop (ActionWord.depth a.word - 1) = f :: fs := by
        refine List.exists_cons_of_ne_nil ?_
        rw [ne_eq, List.drop_eq_nil_iff, ← s.frames.size_eq]
        omega
      have hlength : (s.frames.items.take (ActionWord.depth a.word - 1)).length =
          ActionWord.depth a.word - 1 := by
        rw [List.length_take, ← s.frames.size_eq]
        omega
      obtain ⟨taken, d, rest, rfl, htaken, hlaid⟩ :=
        (h.beginReduce (ActionWord.value a.word)).reduceSome htracker hrows hterm
          (by rw [frames_beginReduce, ← hsplit, List.take_append_drop])
          (by rw [hlength, popCount, hstay]; rfl) env
      rw [hlength] at htaken
      have htake : (taken ++ d :: rest).take (ActionWord.depth a.word) = taken ++ [d] := by
        rw [List.take_append, List.take_of_length_le (by omega)]
        simp [show ActionWord.depth a.word - taken.length = 1 by omega]
      have hdrop : (taken ++ d :: rest).drop (ActionWord.depth a.word) = rest := by
        rw [List.drop_append, List.drop_of_length_le (by omega)]
        simp [show ActionWord.depth a.word - taken.length = 1 by omega]
      rw [hnone, List.append_nil, Stack.reduce, if_neg (by omega), Act.onSymbols, hreduce, htake,
        hdrop]
      simpa using hlaid
  | false =>
      simp only [hreduce, Bool.false_eq_true, if_false] at hplain ⊢
      obtain ⟨hgoto, hpos, hlt, hstop⟩ := hplain
      unfold Stack.shift
      simp only [hgoto, Bool.false_eq_true, if_false, changeContext_of_none htracker]
      cases hstay : ActionWord.isStay a.word with
      | true =>
          have hsome : Act.skippedRecords [a] = [a.record] := by
            simp [Act.skippedRecords, Act.skips, hreduce, hstay]
          simp only [if_true]
          rw [hsome, Act.onSymbols, hreduce, hstay]
          exact h.skip hpos hlt hstop
      | false =>
          have hnone : Act.skippedRecords [a] = [] := by
            simp [Act.skippedRecords, Act.skips, hstay]
          have hmove : (decide (s.pos < a.stop) || decide (a.term ≤ p.maxNode)) = true := by
            simp [show s.pos < a.stop by omega]
          simp only [Bool.false_eq_true, if_false, hmove, if_true, hrows]
          rw [hnone, List.append_nil, Act.onSymbols, hreduce, hstay]
          exact h.shift hpos hlt hstop a.word

/-- So does a run. -/
theorem applyAll {acts : List Act} {env : Env} (h : s.Laid p skipped ds)
    (htracker : p.tracker = none) (hrows : ∀ state, (p.tables.row state).isSkipped = false)
    (hplain : s.PlainRun p acts env) :
    (s.applyAll p acts env).1.Laid p (skipped ++ Act.skippedRecords acts)
      (acts.foldl Act.onSymbols ds) := by
  induction acts generalizing s skipped ds env with
  | nil => simpa [Act.skippedRecords, Stack.applyAll] using h
  | cons a acts ih =>
      obtain ⟨hfirst, hrest⟩ := hplain
      have key := ih (h.apply htracker hrows hfirst env) hrest
      rwa [List.append_assoc, ← Act.skippedRecords_append, List.singleton_append] at key

end Laid

/-- **Without skipped tokens and markers, the records of a stack are the derivations of its symbols
in postfix order.**  This holds after all shifts, skips and reductions from the first stack on. -/
theorem erase_records_applyAll {p : Parser} {acts : List Act} {pos : Nat} {env : Env}
    (htracker : p.tracker = none) (hrows : ∀ state, (p.tables.row state).isSkipped = false)
    (hplain : (Stack.start p pos).PlainRun p acts env) :
    (Record.erase (Record.isGone (Act.skippedRecords acts))
        ((Stack.start p pos).applyAll p acts env).1.records).reverse =
      Outline.postorderAll
        (Derivation.outlinesAll p.toGrammar (acts.foldl Act.onSymbols []).reverse) := by
  cases acts with
  | nil => rfl
  | cons a acts =>
      have hpos : pos ≤ 9223372036854775807 := by
        have hfirst := hplain.1
        unfold Act.Plain at hfirst
        split at hfirst
        · obtain ⟨-, -, hone, hdepth⟩ := hfirst
          have hsize : (Stack.start p pos).frames.size = 0 := rfl
          omega
        · obtain ⟨-, hle, hlt, hstop⟩ := hfirst
          have heq : (Stack.start p pos).pos = pos := rfl
          omega
      have hlaid := (Laid.start hpos).applyAll htracker hrows hplain
      rw [List.nil_append] at hlaid
      rw [records, hlaid.frozen, List.flatten_nil, List.append_nil, hlaid.layers.erases.erase_eq,
        Derivation.recordsOf, List.reverse_reverse]

/-- A letter, 26 skipped bytes behind it, and the reduction of the letter. -/
def lateReduction : List Act :=
  ⟨(Action.shift 1).code, 6, 0, 1⟩ ::
    ((List.range 26).map fun i => ⟨Action.skip.code, 3, i + 1, i + 2⟩) ++
      [⟨(Action.reduce 2 1).code, 7, 27, 28⟩]

/-- The skipped bytes and the marker stand below the node of the letter there, and its size counts
them; what is left is the node alone. -/
theorem erase_records_applyAll_late :
    (Stack.start Parse.letterParser 0).PlainRun Parse.letterParser lateReduction Parse.letterEnv ∧
      (((Stack.start Parse.letterParser 0).applyAll Parse.letterParser lateReduction
          Parse.letterEnv).1.records.head?).map (·.size) = some 112 ∧
      (Record.erase (Record.isGone (Act.skippedRecords lateReduction))
        ((Stack.start Parse.letterParser 0).applyAll Parse.letterParser lateReduction
          Parse.letterEnv).1.records).reverse = [⟨2, 0, 1, 4⟩] := by
  have hplain : (Stack.start Parse.letterParser 0).PlainRun Parse.letterParser lateReduction
      Parse.letterEnv := by decide +kernel
  refine ⟨hplain, by decide +kernel, ?_⟩
  rw [erase_records_applyAll rfl Parse.letterParser_not_skipped hplain]
  decide +kernel

end Stack

end IncrementalLR
