/-
**What stacks store.**

A reduction puts its node on top of the records or below those that end after it, and an error may
be merged with the one before it.  This module says what the records are afterwards, and that
storing touches nothing else.

Main definitions:

* `Stack.late`, `Stack.body` — the records of skipped tokens, and those before them;
* `Stack.NoneLate` — no node was skipped.

Main results:

* `Stack.addNode_eq`, `Stack.raiseLookAhead_eq` — what storing touches;
* `Stack.addNode_cases`, `Stack.storeError_cases` — the ways to store a node;
* `Stack.own_appendNode`, `Stack.own_appendNode_late` — where a node goes;
* `Stack.addNode_again` — an error is not stored twice.
-/

import IncrementalLR.Proofs.Moves

set_option relaxedAutoImplicit false
set_option autoImplicit false

namespace IncrementalLR

theorem signedPos_of_word {pos : Nat} (h : pos ≤ maxWord) : signedPos pos = pos :=
  signedPos_of_lt (Nat.lt_of_le_of_lt h (by decide))

namespace Stack

/-! ### Skipped records -/

/-- The records after the last one that ends by the reduce position. -/
def late (s : Stack) : List Record :=
  s.own.items.takeWhile fun r => signedPos s.reducePos < r.stop

/-- The other records. -/
def body (s : Stack) : List Record :=
  (s.own.items.dropWhile fun r => signedPos s.reducePos < r.stop) ++ s.frozen.flatten

theorem late_append_body (s : Stack) : s.late ++ s.body = s.records := by
  unfold late body records
  rw [← List.append_assoc, List.takeWhile_append_dropWhile]

/-- Where the late records end: at the first one that does not end after the reduce position. -/
theorem late_body_of_split {s : Stack} {l m : List Record} (hown : s.own.items = l ++ m)
    (hl : ∀ r ∈ l, signedPos s.reducePos < r.stop)
    (hm : ∀ r ∈ m.head?, r.stop ≤ signedPos s.reducePos) :
    s.late = l ∧ s.body = m ++ s.frozen.flatten := by
  have hl' : ∀ r ∈ l, decide (signedPos s.reducePos < r.stop) = true := by simpa using hl
  unfold late body
  rw [hown, List.takeWhile_append_of_pos hl', List.dropWhile_append_of_pos hl']
  cases m with
  | nil => simp
  | cons r rest =>
      have hr : decide (signedPos s.reducePos < r.stop) = false := by
        simpa using hm r (by simp)
      simp [hr]

theorem mem_late {s : Stack} {r : Record} (h : r ∈ s.late) : signedPos s.reducePos < r.stop := by
  simpa using List.all_eq_true.1 List.all_takeWhile r h

theorem head_dropWhile_le (s : Stack) :
    ∀ r ∈ (s.own.items.dropWhile fun r => signedPos s.reducePos < r.stop).head?,
      r.stop ≤ signedPos s.reducePos := by
  intro r hr
  have key := List.head?_dropWhile_not (fun r : Record => decide (signedPos s.reducePos < r.stop))
    s.own.items
  rw [Option.mem_def.1 hr] at key
  simpa using key

/-- Records that end by the reduce position are not late. -/
theorem late_eq_nil {s : Stack} (hstops : ∀ r ∈ s.records, r.stop ≤ signedPos s.reducePos) :
    s.late = [] := by
  refine (late_body_of_split (l := []) (m := s.own.items) rfl (by simp) fun r hr => ?_).1
  exact hstops r (List.mem_append_left _ (List.mem_of_mem_head? hr))

/-- Without a tracker nothing happens to the context. -/
theorem changeContext_of_none {p : Parser} (h : p.tracker = none) (change : ContextChange)
    (start : Nat) (s : Stack) (env : Env) : s.changeContext p change start env = (s, env) := by
  unfold changeContext
  rw [h]

/-- A change of context pushes at most a mark. -/
theorem changeContext_eq (p : Parser) (change : ContextChange) (start : Nat) (s : Stack)
    (env : Env) : ∃ own context, (s.changeContext p change start env).1 = { s with own, context } ∧
      (own = s.own ∨ ∃ id, own =
        s.own.push ⟨id, signedPos s.pos, signedPos s.pos, Record.contextSize⟩) := by
  have hmark : ∃ own, s.markContext = { s with own } ∧ (own = s.own ∨ ∃ id, own =
      s.own.push ⟨id, signedPos s.pos, signedPos s.pos, Record.contextSize⟩) := by
    unfold markContext mark
    split
    · split
      · exact ⟨_, rfl, Or.inl rfl⟩
      · exact ⟨_, rfl, Or.inr ⟨_, rfl⟩⟩
    · exact ⟨_, rfl, Or.inl rfl⟩
  unfold changeContext
  split
  · unfold setContext
    simp only
    split
    · obtain ⟨own, heq, hown⟩ := hmark
      rw [heq]
      exact ⟨own, _, rfl, hown⟩
    · exact ⟨_, _, rfl, Or.inl rfl⟩
  · exact ⟨_, _, rfl, Or.inl rfl⟩

@[simp] theorem score_changeContext (p : Parser) (change : ContextChange) (start : Nat) (s : Stack)
    (env : Env) : (s.changeContext p change start env).1.score = s.score := by
  obtain ⟨own, context, heq, -⟩ := changeContext_eq p change start s env
  rw [heq]

/-! ### Storing nodes -/

/-- No node is late. -/
def NoneLate (s : Stack) : Prop := ∀ r ∈ s.late, r.isNode = false

/-- Appending a node touches the records only. -/
theorem appendNode_eq (s : Stack) (r : Record) (sink : Bool) :
    ∃ own, s.appendNode r sink = { s with own } := by
  unfold appendNode
  split
  · exact ⟨_, rfl⟩
  · exact ⟨_, rfl⟩

@[simp] theorem reducePos_appendNode (s : Stack) (r : Record) (sink : Bool) :
    (s.appendNode r sink).reducePos = s.reducePos := by
  obtain ⟨own, heq⟩ := s.appendNode_eq r sink
  rw [heq]

@[simp] theorem base_appendNode (s : Stack) (r : Record) (sink : Bool) :
    (s.appendNode r sink).base = s.base := by
  obtain ⟨own, heq⟩ := s.appendNode_eq r sink
  rw [heq]

@[simp] theorem frozen_appendNode (s : Stack) (r : Record) (sink : Bool) :
    (s.appendNode r sink).frozen = s.frozen := by
  obtain ⟨own, heq⟩ := s.appendNode_eq r sink
  rw [heq]

theorem appendNode_of_not_sink (s : Stack) (r : Record) :
    s.appendNode r false = s.pushRecord r := by
  simp [appendNode]

/-- A node that ends at the reduce position stays on top if no node is late. -/
theorem own_appendNode {s : Stack} {r : Record} (hnone : s.NoneLate)
    (hstop : r.stop = signedPos s.reducePos) (sink : Bool) :
    (s.appendNode r sink).own.items = r :: s.own.items := by
  have hany : s.late.any (·.isNode) = false := by
    simpa [NoneLate] using hnone
  unfold appendNode
  split
  · rfl
  · simp only [sinkInto, hstop]
    rw [if_neg]
    exact Bool.eq_false_iff.1 hany

/-- It goes below the late records if there is a node among them and no error on top. -/
theorem own_appendNode_late {s : Stack} {r : Record} (hnone : ¬ s.NoneLate)
    (hstop : r.stop = signedPos s.reducePos) (hpos : signedPos s.pos ≠ signedPos s.reducePos)
    (htop : s.own.top?.all (·.isError) = false) :
    (s.appendNode r true).own.items =
      s.late ++ { r with size := max 4 (r.size - 4 * s.late.length) }
        :: s.own.items.dropWhile fun c => signedPos s.reducePos < c.stop := by
  have hany : s.late.any (·.isNode) = true := by
    simpa [NoneLate] using hnone
  unfold appendNode
  rw [if_neg (by simp [hstop, hpos, htop])]
  simp only [sinkInto, hstop]
  rw [if_pos]
  · rfl
  · exact hany

/-- What storing a node that ends at the reduce position does to the records of a stack: it goes in
front of them, or below the late ones. -/
theorem own_appendNode_or {s : Stack} {r : Record} (hstop : r.stop = signedPos s.reducePos)
    (sink : Bool) :
    (s.appendNode r sink).own.items = r :: s.own.items ∨
      (s.appendNode r sink).own.items =
        s.late ++ { r with size := max 4 (r.size - 4 * (s.late).length) }
          :: s.own.items.dropWhile fun c => signedPos s.reducePos < c.stop := by
  unfold appendNode
  split
  · exact Or.inl rfl
  · simp only [sinkInto, hstop]
    split
    · exact Or.inr rfl
    · exact Or.inl rfl

theorem appendNode_withFrames (s : Stack) (r : Record) (sink : Bool) (frames : Pile Frame) :
    { s.appendNode r sink with frames } = appendNode { s with frames } r sink := by
  unfold appendNode
  simp only
  split
  · rfl
  · rfl

/-- What storing a node does: it may leave an empty error out, extend the error before, or append
the node. -/
theorem addNode_cases (s : Stack) (term start stop size : Nat) (sink : Bool) :
    (start = stop ∧ s.addNode term start stop size sink = s) ∨
      (∃ e rest, s.own.items = e :: rest ∧ e.isError = true ∧ e.isNode = true ∧
        s.mayMerge = true ∧ s.addNode term start stop size sink = s.extendLast stop) ∨
      s.addNode term start stop size sink =
        s.appendNode ⟨term, signedPos start, signedPos stop, size⟩ sink := by
  unfold addNode
  simp only
  cases hprev : (if term = errorTerm then s.errorBefore? else none) with
  | none => exact Or.inr (Or.inr rfl)
  | some e =>
      simp only
      split
      · rename_i heq
        exact Or.inl ⟨heq, rfl⟩
      · split
        · rename_i hmerge
          simp only [Bool.and_eq_true, Bool.not_eq_eq_eq_not, Bool.not_true] at hmerge
          refine Or.inr (Or.inl ?_)
          -- the error is the newest record of its own
          have hbefore : s.errorBefore? = some e := by
            split at hprev
            · exact hprev
            · cases hprev
          unfold errorBefore? at hbefore
          split at hbefore
          · rename_i hmay
            unfold previousRecord? at hbefore
            cases hown : s.own.items with
            | nil => simp [Pile.isEmpty, hown] at hmerge
            | cons r rest =>
                simp only [hown] at hbefore
                obtain ⟨hr, hre⟩ := Option.filter_eq_some_iff.1 hbefore
                obtain rfl := Option.some.inj hr
                rw [Bool.and_eq_true] at hre
                exact ⟨r, rest, rfl, hre.1, hre.2, hmay, rfl⟩
          · cases hbefore
        · exact Or.inr (Or.inr rfl)

theorem addNode_of_ne {term : Nat} (h : term ≠ errorTerm) (s : Stack) (start stop size : Nat)
    (sink : Bool) : s.addNode term start stop size sink =
      s.appendNode ⟨term, signedPos start, signedPos stop, size⟩ sink := by
  unfold addNode
  rw [if_neg h]

/-- No error is extended where another node stands before. -/
theorem addNode_above {term : Nat} (h : term ≠ errorTerm) (s : Stack) (a b size : Int)
    (start stop size' : Nat) :
    (s.pushRecord ⟨term, a, b, size⟩).addNode errorTerm start stop size' false =
      (s.pushRecord ⟨term, a, b, size⟩).pushRecord
        ⟨errorTerm, signedPos start, signedPos stop, size'⟩ := by
  have hterm : Record.isError ⟨term, a, b, size⟩ = false := by
    unfold errorTerm at h
    simpa [Record.isError] using h
  have hnone : (s.pushRecord ⟨term, a, b, size⟩).errorBefore? = none := by
    unfold errorBefore? previousRecord?
    split
    · simp [Stack.pushRecord, Option.filter, hterm]
    · rfl
  unfold addNode
  rw [if_pos rfl, hnone]
  exact appendNode_of_not_sink ..

/-- No error is extended where a symbol starts. -/
theorem addNode_of_not_mayMerge {s : Stack} (h : s.mayMerge = false) (term start stop size : Nat)
    (sink : Bool) : s.addNode term start stop size sink =
      s.appendNode ⟨term, signedPos start, signedPos stop, size⟩ sink := by
  unfold addNode errorBefore?
  rw [h]
  simp

theorem extendLast_of_cons {s : Stack} {e : Record} {rest : List Record}
    (hown : s.own.items = e :: rest) (stop : Nat) :
    s.extendLast stop =
      { s with own := (s.own.drop 1).push { e with stop := signedPos stop } } := by
  unfold extendLast
  rw [hown]

/-- An error is not stored twice. -/
theorem addNode_again {s : Stack} {e : Record} {rest : List Record} (hown : s.own.items = e :: rest)
    (herror : e.isError = true) (hnode : e.isNode = true) (hmay : s.mayMerge = true)
    {start stop : Nat} (hstop : e.stop = signedPos stop) (hle : signedPos start ≤ signedPos stop)
    (hne : start ≠ stop) (size : Nat) (sink : Bool) :
    s.addNode errorTerm start stop size sink = s := by
  have hbefore : s.errorBefore? = some e := by
    simp [errorBefore?, hmay, previousRecord?, hown, herror, hnode]
  have hmerge : (signedPos start ≤ e.stop && !s.own.isEmpty) = true := by
    simp only [Pile.isEmpty, hown, List.isEmpty_cons, Bool.not_false, Bool.and_true, hstop,
      decide_eq_true_eq]
    exact hle
  have hsame : (s.own.drop 1).push { e with stop := signedPos stop } = s.own := by
    refine Pile.ext_items ?_
    rw [← hstop]
    simp [hown]
  unfold addNode
  simp only [if_true, hbefore, hmerge, hne, if_false]
  rw [extendLast_of_cons hown, hsame]

/-- Storing a node touches the records only. -/
theorem addNode_eq (s : Stack) (term start stop size : Nat) (sink : Bool) :
    ∃ own, s.addNode term start stop size sink = { s with own } := by
  rcases addNode_cases s term start stop size sink with
    ⟨-, heq⟩ | ⟨e, rest, hown, -, -, -, heq⟩ | heq
  · exact ⟨_, heq⟩
  · exact ⟨_, heq.trans (by rw [extendLast_of_cons hown])⟩
  · rw [heq]
    exact s.appendNode_eq _ sink

/-- A look-ahead that is raised touches the records besides. -/
theorem raiseLookAhead_eq (s : Stack) (pos : Nat) :
    ∃ own lookAhead, s.raiseLookAhead pos = { s with own, lookAhead } := by
  unfold raiseLookAhead markLookAhead mark
  split
  · split
    · exact ⟨_, _, rfl⟩
    · exact ⟨_, _, rfl⟩
  · exact ⟨_, _, rfl⟩

/-- What a reduction touches before it does anything else. -/
theorem beginReduce_eq (p : Parser) (term : Nat) (s : Stack) :
    ∃ own lookAhead, s.beginReduce p term =
      { s with own, lookAhead, score := s.score + p.precedenceOf term } := by
  obtain ⟨own, lookAhead, heq⟩ := s.raiseLookAhead_eq s.pos
  rw [beginReduce]
  split
  · rw [heq]
    exact ⟨_, _, rfl⟩
  · exact ⟨_, _, rfl⟩

theorem state_beginReduce (p : Parser) (term : Nat) (s : Stack) :
    (s.beginReduce p term).state = s.state := by
  obtain ⟨own, lookAhead, heq⟩ := beginReduce_eq p term s
  rw [heq]

theorem frames_beginReduce (p : Parser) (term : Nat) (s : Stack) :
    (s.beginReduce p term).frames = s.frames := by
  obtain ⟨own, lookAhead, heq⟩ := beginReduce_eq p term s
  rw [heq]

@[simp] theorem reducePos_beginReduce (p : Parser) (term : Nat) (s : Stack) :
    (s.beginReduce p term).reducePos = s.reducePos := by
  obtain ⟨own, lookAhead, heq⟩ := beginReduce_eq p term s
  rw [heq]

theorem score_beginReduce (p : Parser) (term : Nat) (s : Stack) :
    (s.beginReduce p term).score = s.score + p.precedenceOf term := by
  obtain ⟨own, lookAhead, heq⟩ := beginReduce_eq p term s
  rw [heq]

@[simp] theorem base_addNode (s : Stack) (term start stop size : Nat) (sink : Bool) :
    (s.addNode term start stop size sink).base = s.base := by
  obtain ⟨own, heq⟩ := s.addNode_eq term start stop size sink
  rw [heq]

@[simp] theorem frozen_addNode (s : Stack) (term start stop size : Nat) (sink : Bool) :
    (s.addNode term start stop size sink).frozen = s.frozen := by
  obtain ⟨own, heq⟩ := s.addNode_eq term start stop size sink
  rw [heq]

@[simp] theorem reducePos_addNode (s : Stack) (term start stop size : Nat) (sink : Bool) :
    (s.addNode term start stop size sink).reducePos = s.reducePos := by
  obtain ⟨own, heq⟩ := s.addNode_eq term start stop size sink
  rw [heq]

@[simp] theorem score_addNode (s : Stack) (term start stop size : Nat) (sink : Bool) :
    (s.addNode term start stop size sink).score = s.score := by
  obtain ⟨own, heq⟩ := s.addNode_eq term start stop size sink
  rw [heq]

theorem own_extendLast {s : Stack} {e : Record} {rest : List Record}
    (hown : s.own.items = e :: rest) (stop : Nat) :
    (s.extendLast stop).own.items = { e with stop := signedPos stop } :: rest := by
  rw [extendLast_of_cons hown]
  simp [hown]

theorem bufferLength_extendLast {s : Stack} {e : Record} {rest : List Record}
    (hown : s.own.items = e :: rest) (stop : Nat) :
    (s.extendLast stop).bufferLength = s.bufferLength := by
  have hsize := s.own.size_eq
  rw [hown, List.length_cons] at hsize
  rw [extendLast_of_cons hown]
  simp only [Stack.bufferLength, Pile.size_push, Pile.size_drop]
  omega

theorem storeError_cases (s : Stack) :
    s.storeError = s ∨
      s.storeError = s.pushRecord ⟨errorTerm, signedPos s.pos, signedPos s.pos, 4⟩ := by
  unfold storeError addNode
  rw [if_pos rfl]
  cases s.errorBefore? with
  | none =>
      refine Or.inr ?_
      simp [appendNode]
  | some e => exact Or.inl (by simp)

end Stack

end IncrementalLR
