/-
**The trees of a parse are well formed.**

Every tree that a parse without fragments finishes with is built from the records of a stack that
moves lead to.  If these moves are settled, the records form a forest over the text, and then the
tree is well formed: every node lies inside its parent, and neighbours follow each other.  A steady
parser makes no other moves.

Without that condition trees may come out ill formed.  When more than a few bytes of text were
skipped, a reduction first marks how far the parse has looked; the first such mark of a parse looks
like an error, and then the node of the reduction is not put below the skipped nodes, but above
them.

Main results:

* `Parse.finishF_eq_ok` — the step that a parse finishes with;
* `Parse.finish_wellFormed` — **the trees of settled moves are well formed**, and so are all trees of
  a steady parser;
* `Parse.finish_ill_formed` — a tree of another parser that is not.
-/

import IncrementalLR.Proofs.Building
import IncrementalLR.Proofs.NestingParsers
import IncrementalLR.Proofs.Progress

set_option relaxedAutoImplicit false
set_option autoImplicit false

namespace IncrementalLR

/-- The records of a tidy stack, as they are read to build its tree. -/
theorem Stack.Tidy.reader_holds {g : Setting} {s : Stack} (h : s.Tidy g) :
    s.reader.Holds s.records :=
  .of_refill rfl h.bufferLength_eq h.pieces

theorem Buffer.ignoresStamps_sound : Tree.IgnoresStamps Buffer.Sound :=
  fun _ _ h hnarrow => h ⟨hnarrow.size_le, hnarrow.length_le⟩

/-- A token with text that starts where a stack stands is shifted, or skipped, by a settled move. -/
theorem Stack.Reached.shift_token {g : Setting} {s : Stack} {word term start stop : Nat} {env : Env}
    (hs : s.Reached g (settled g.parser)) (hgiven : g.parser.tables.Gives s.state term word)
    (hword : ActionWord.isReduce word = false ∧ ActionWord.isGoto word = false)
    (hstart : start = s.pos) (hlt : s.pos < stop) (hle : stop ≤ g.hi) :
    (s.shift g.parser word term start stop env).1.Reached g (settled g.parser) := by
  have hoffer : s.Offered g word term start stop :=
    ⟨hgiven, Nat.le_of_lt hlt, hle, fun _ => hstart, fun _ _ => Or.inl hlt⟩
  refine hs.move (.shift hoffer hword.1 ?_)
  simp only [settled, hword.2, Bool.false_eq_true, if_false]
  exact Or.inr (Or.inl hlt)

namespace Parse

/-! ### The last step -/

theorem finishF_eq_ok (fuel : Nat) {p q r : Parse} {n : Nat} {t : Tree} (hp : Advances p n q)
    (h : finishF fuel q = (.ok t, r)) :
    ∃ m q', Advances p m q' ∧ q'.advance = (.ok (some t), r) := by
  induction fuel generalizing n q with
  | zero => cases h
  | succ fuel ih =>
      unfold finishF at h
      cases hstep : q.advance with
      | mk outcome next =>
          rw [hstep] at h
          match outcome with
          | .error e => cases h
          | .ok none => exact ih (hp.step hstep) h
          | .ok (some result) =>
              obtain ⟨hresult, rfl⟩ := Prod.mk.inj h
              obtain rfl := Except.ok.inj hresult
              exact ⟨n, q, hp, hstep⟩

/-! ### Well-formed trees -/

/-- The tree of a tidy stack is well formed as far as its buffers fit into 16 bits. -/
theorem Yields.formed {g : Setting} {s : Stack} {t : Tree} (hg : g.IsPlain) (hs : s.Tidy g)
    (h : Yields g s t) : t.Formed Buffer.Sound := by
  obtain ⟨reused, epoch, built, hbuilt, rfl⟩ := h
  have hclosed := hs.close hg
  have hseg := hclosed.whole.nested
  rw [pos_close] at hseg
  refine Tree.formed_stampAll Buffer.ignoresStamps_sound epoch ?_
  exact Tree.formed_buildFrom rfl rfl hclosed.reader_holds (Nat.le_trans hs.pos_le hg.hi_le) hseg
    hbuilt

/-- **The trees of settled moves are well formed.**  Every tree that a parse of a whole document
finishes with is that of a stack that moves lead to.  If its buffers fit into 16 bits, it is well
formed as soon as settled moves lead to such a stack, and so are all trees of a steady parser. -/
theorem finish_wellFormed {p : Parser} {doc : Document} {epoch limit : Nat} {q r : Parse} {t : Tree}
    (hacc : p.OnlyAccepts) (hne : p.NeverEmpty) (htracker : p.tracker = none)
    (hrows : ∀ state, (p.tables.row state).isSkipped = false) (hword : doc.size ≤ maxWord)
    (hstart : Parse.start p doc [] [] epoch limit = .ok q) (hfinish : q.finish = (.ok t, r))
    (hnarrow : ∀ b ∈ t.buffers, b.Narrow) :
    (∃ s : Stack, s.Known (settingOf p doc []) ∧ Yields (settingOf p doc []) s t) ∧
      (∀ s : Stack, s.Reached (settingOf p doc []) (settled p) →
        Yields (settingOf p doc []) s t → t.WellFormed) ∧
      (p.isSteady = true → t.WellFormed) := by
  obtain ⟨hfits, hready, -, -⟩ := start_ready hstart
  have hplain : (settingOf p doc []).IsPlain := ⟨⟨rfl, rfl⟩, hword, hrows, htracker⟩
  have hformed : ∀ s : Stack, s.Reached (settingOf p doc []) (settled p) →
      Yields (settingOf p doc []) s t → t.WellFormed := by
    intro s hs hyields
    have hsound := hyields.formed hplain (hs.tidy hfits hplain)
    exact hsound.of_buffers fun b hb h => h (hnarrow b hb)
  obtain ⟨n, q', hsteps, hlast⟩ := finishF_eq_ok _ .refl hfinish
  have key := advance_led hfits hacc (hsteps.ready hfits hacc hready).1
  rw [hlast] at key
  obtain ⟨s, hknown, hyields, -⟩ := key
  refine ⟨⟨s, hknown, hyields⟩, hformed, fun hsteady => ?_⟩
  exact hformed s (Stack.Reached.settled_of_steady hfits hplain hsteady hne hknown).1 hyields

/-! ### A parser that reduces behind skipped text -/

/-- A parser for an `a` and a `b` with anything between them; the `a` is reduced to a node of type 2
in the state `behind` it.  All other bytes are skipped tokens of type 3. -/
def letterParserWith (behind : ParseState) : Parser :=
  let states : List ParseState :=
    [{ actions := [(6, .shift 1)], skip := [(3, .skip)], tokenizerMask := 1 },
      behind,
      { actions := [(7, .shift 3)], skip := [(3, .skip)], tokenizerMask := 1 },
      { accepting := true, skip := [(3, .skip)], tokenizerMask := 1 }]
  { pairParser with
    tables :=
      ⟨(layOutStates states {}).1.toArray, (layOutStates states {}).2.slots,
        (gotoSlots [(0, 2, 2)]).toArray⟩ }

-- Reducing right behind the `a` is steady.
example : (letterParserWith { defaultReduce := some (.reduce 2 1) }).isSteady = true := by
  decide +kernel

/-- The parser that reduces the `a` only when it sees the `b`, behind what is skipped. -/
def letterParser : Parser :=
  letterParserWith
    { actions := [(7, .reduce 2 1)], skip := [(3, .skip)], tokenizerMask := 1 }

theorem letterParser_onlyAccepts : letterParser.OnlyAccepts := fun t ht =>
  pairParser_onlyAccepts t ht

theorem letterParser_neverEmpty : letterParser.NeverEmpty := by
  intro t ht
  obtain rfl := List.mem_singleton.1 (Array.mem_toList_iff.2 ht)
  exact byteTokenizer_neverEmpty _

theorem letterParser_not_skipped (state : Nat) :
    (letterParser.tables.row state).isSkipped = false :=
  Tables.not_skipped_of_all (by decide +kernel) state

/-- The text `a#b`. -/
def letterText : Document := { bytes := #[97, 35, 98] }

/-- What the stacks of its parse share. -/
def letterEnv : Env := { stream := .start letterText [⟨0, 3⟩], start := 0, limit := 100 }

/-- The stack of its parse after the letter `a` and the skipped byte. -/
def skippedStack : Stack :=
  let s := ((Stack.start letterParser 0).shift letterParser (Action.shift 1).code 6 0 1 letterEnv).1
  (s.shift letterParser Action.skip.code 3 1 2 letterEnv).1

/-- The stack of its parse after the letter `a` was reduced. -/
def reducedStack : Stack :=
  (skippedStack.reduce letterParser (Action.reduce 2 1).code letterEnv).1

/-- The stack of its parse after the letter `b`. -/
def letterStack : Stack :=
  (reducedStack.shift letterParser (Action.shift 3).code 7 2 3 letterEnv).1

theorem letterStack_reached :
    letterStack.Reached (settingOf letterParser letterText []) (settled letterParser) := by
  have hskipped : skippedStack.Reached (settingOf letterParser letterText [])
      (settled letterParser) := by
    refine .shift_token (.shift_token .start ?_ ?_ ?_ ?_ ?_) ?_ ?_ ?_ ?_ ?_
    all_goals first | exact Or.inl (by decide +kernel) | decide +kernel
  -- The skipped byte is on top, and it is not an error.
  have hmove : Stack.Move (settingOf letterParser letterText []) (settled letterParser) skippedStack
      reducedStack := by
    refine .reduce rfl (Or.inr ⟨?_, 7, Or.inl ?_⟩) fun _ => Or.inr ?_
    all_goals decide +kernel
  refine .shift_token (hskipped.move hmove) ?_ ?_ ?_ ?_ ?_
  all_goals first | exact Or.inl (by decide +kernel) | decide +kernel

/-- The text `a#b` gets a tree in which the skipped byte follows the letter before it. -/
theorem finish_wellFormed_letter :
    ∃ q t r, Parse.start letterParser letterText [] [] 1 100 = .ok q ∧ q.finish = (.ok t, r) ∧
      t.WellFormed := by
  have heval : (Parse.start letterParser letterText [] [] 1 100).toOption.any (fun q =>
      q.finish.1.toOption.any fun t =>
        (Tree.buildFrom (planFor letterParser #[] 0 letterStack.pos)
            (letterStack.close letterParser).reader).toOption.any (t = ·.stampAll 1) &&
          t.buffers.all fun b => b.size ≤ 65535 && b.length ≤ 65535) = true := by decide +kernel
  obtain ⟨q, hstart, heval⟩ := exists_ok_of_any heval
  obtain ⟨t, ht, heval⟩ := exists_ok_of_any heval
  rw [Bool.and_eq_true, List.all_eq_true] at heval
  obtain ⟨built, hbuilt, hsame⟩ := exists_ok_of_any heval.1
  have hfinish : q.finish = (.ok t, q.finish.2) := Prod.ext ht rfl
  have hyields : Yields (settingOf letterParser letterText []) letterStack t :=
    ⟨#[], 1, built, hbuilt, of_decide_eq_true hsame⟩
  have hnarrow : ∀ b ∈ t.buffers, b.Narrow := by
    intro b hb
    have key := heval.2 b hb
    rw [Bool.and_eq_true, decide_eq_true_eq, decide_eq_true_eq] at key
    exact ⟨key.1, key.2⟩
  obtain ⟨-, hsettled, -⟩ := finish_wellFormed letterParser_onlyAccepts letterParser_neverEmpty rfl
    letterParser_not_skipped (by decide) hstart hfinish hnarrow
  exact ⟨q, t, _, hstart, hfinish, hsettled letterStack letterStack_reached hyields⟩

/-- The text `a`, 26 times `#`, and `b`. -/
def skippedText : Document := { bytes := #[97] ++ Array.replicate 26 35 ++ #[98] }

/-- **A tree that is not well formed.**  With enough skipped bytes behind the letter `a`, they become
children of its node, although they lie behind it. -/
theorem finish_ill_formed :
    letterParser.OnlyAccepts ∧ letterParser.NeverEmpty ∧ letterParser.tracker = none ∧
      (∀ state, (letterParser.tables.row state).isSkipped = false) ∧
      ∃ q t r, Parse.start letterParser skippedText [] [] 1 100 = .ok q ∧
        q.finish = (.ok t, r) ∧ ¬ t.WellFormed := by
  have heval : (Parse.start letterParser skippedText [] [] 1 100).toOption.any (fun q =>
      q.finish.1.toOption.any fun t => !decide t.WellFormed) = true := by decide +kernel
  obtain ⟨q, hstart, heval⟩ := exists_ok_of_any heval
  obtain ⟨t, ht, hill⟩ := exists_ok_of_any heval
  refine ⟨letterParser_onlyAccepts, letterParser_neverEmpty, rfl, letterParser_not_skipped, q, t, _,
    hstart, Prod.ext ht rfl, ?_⟩
  simpa using hill

end Parse

end IncrementalLR
