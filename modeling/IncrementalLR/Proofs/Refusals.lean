/-
**Records that are refused.**

Only building a tree refuses records, and a parse builds the tree of one stack, when it is finished.
So if a step fails on a record, it has built the tree of a stack that its moves lead to.  The tree
of a stack that measured moves lead to is always built, and a solid parser makes no other moves: its
parses never fail that way.

Other parsers may.  A token without text that gets no node, behind skipped text, makes a node that
ends before it starts.

Main results:

* `Parse.advance_refuses_of_ready` — a call that fails on a record has built the tree of a stack;
* `Parse.advance_refuses` — **records are refused only behind moves that are not measured**, and
  never by a solid parser;
* `Parse.advance_refuses_node` — a parse that refuses a record.
-/

import IncrementalLR.Proofs.Progress
import IncrementalLR.Proofs.Repairs

set_option relaxedAutoImplicit false
set_option autoImplicit false

namespace IncrementalLR

namespace Parse

/-- A call that fails on a record has built the tree of a stack that moves lead to. -/
theorem advance_refuses_of_ready {g : Setting} {q r : Parse} {size : Int} (hg : g.Fits)
    (hacc : g.parser.OnlyAccepts)
    (hfails : g.parser.FailsByAccepting)
    (hq : q.Ready g) (h : q.advance = (.error (.error (.invalidRecord size)), r)) :
    ∃ (s : Stack) (reused : Array Tree), s.Known g ∧
      Tree.buildFrom (planFor g.parser reused g.lo s.pos) (s.close g.parser).reader =
        .error (.invalidRecord size) := by
  have key := advance_led hg hacc hq
  rw [h] at key
  cases key with
  | working hfail =>
      obtain ⟨_, _, hbounds⟩ := hfails.outOfBounds hfail
      cases hbounds
  | building hs hbuild => exact ⟨_, _, hs, hbuild⟩

/-- **Records are refused only behind moves that are not measured.**  In a parse of a whole document
by a parser with typed terms, all records of a stack that measured moves lead to fit: the size of a
node counts the records below it, and no node ends before it starts.  The tree of such a stack is
built.  A call that fails on a record has built the tree of a stack that only other moves lead to,
and no call of a solid parser fails that way. -/
theorem advance_refuses {p : Parser} {doc : Document} {epoch limit n : Nat} {q₀ q : Parse}
    (hacc : p.OnlyAccepts)
    (hfails : p.FailsByAccepting)
    (hrows : ∀ state, (p.tables.row state).isSkipped = false)
    (hterms : p.Typed) (hsize : doc.size < 9223372036854775808)
    (hstart : Parse.start p doc [] [] epoch limit = .ok q₀) (hcalls : Calls q₀ n q) :
    (∀ s : Stack, s.Reached (settingOf p doc []) (measured p) →
      Sized Record.IsNote (s.close p).records ∧
        (∀ r ∈ (s.close p).records, 0 ≤ r.size → r.start ≤ r.stop) ∧
        ∀ reused, ∃ t, Tree.buildFrom (planFor p reused 0 s.pos) (s.close p).reader = .ok t) ∧
      (∀ size r, q.advance = (.error (.error (.invalidRecord size)), r) →
        ∃ (s : Stack) (reused : Array Tree), s.Known (settingOf p doc []) ∧
          ¬ s.Reached (settingOf p doc []) (measured p) ∧
          Tree.buildFrom (planFor p reused 0 s.pos) (s.close p).reader =
            .error (.invalidRecord size)) ∧
      (p.NeverEmpty → p.isSolid = true →
        ∀ size r, q.advance ≠ (.error (.error (.invalidRecord size)), r)) := by
  obtain ⟨hfits, hready, -, -⟩ := start_ready hstart
  have htyped : (settingOf p doc []).IsTyped := ⟨⟨rfl, rfl⟩, hsize, hrows, hterms⟩
  have hbuilds : ∀ s : Stack, s.Reached (settingOf p doc []) (measured p) → ∀ reused,
      ∃ t, Tree.buildFrom (planFor p reused 0 s.pos) (s.close p).reader = .ok t :=
    fun s hs reused => (hs.measured hfits htyped).buildFrom_ok htyped reused
  have hrefused : ∀ size r, q.advance = (.error (.error (.invalidRecord size)), r) →
      ∃ (s : Stack) (reused : Array Tree), s.Known (settingOf p doc []) ∧
        ¬ s.Reached (settingOf p doc []) (measured p) ∧
        Tree.buildFrom (planFor p reused 0 s.pos) (s.close p).reader =
          .error (.invalidRecord size) := by
    intro size r h
    obtain ⟨s, reused, hs, hbuild⟩ :=
      advance_refuses_of_ready hfits hacc hfails (hcalls.ready hfits hacc hready).1 h
    refine ⟨s, reused, hs, fun hmeasured => ?_, hbuild⟩
    obtain ⟨t, ht⟩ := hbuilds s hmeasured reused
    cases ht.symm.trans hbuild
  refine ⟨fun s hs => ?_, hrefused, fun hne hsolid size r h => ?_⟩
  · have hclosed := (hs.measured hfits htyped).close htyped
    exact ⟨hclosed.cut.whole, fun r hr hnode => ((hclosed.fits r hr).node hnode).2.2, hbuilds s hs⟩
  · obtain ⟨s, -, hs, hother, -⟩ := hrefused size r h
    exact hother (hs.measured_of_solid ⟨rfl, rfl⟩ hsolid hne)

/-! ### Two parsers -/

/-- The parser for an `a` and a `b` is solid, so no call of a parse of the text `a b` fails on a
record. -/
theorem advance_refuses_pair :
    ∃ q₀, Parse.start pairParser { bytes := #[97, 32, 98] } [] [] 1 100 = .ok q₀ ∧
      ∀ n q, Calls q₀ n q →
        ∀ size r, q.advance ≠ (.error (.error (.invalidRecord size)), r) := by
  have hne : pairParser.NeverEmpty := by
    intro t ht
    obtain rfl := List.mem_singleton.1 (Array.mem_toList_iff.2 ht)
    exact byteTokenizer_neverEmpty _
  have heval : (Parse.start pairParser { bytes := #[97, 32, 98] } [] [] 1 100).toOption.any
      (fun _ => true) = true := by decide +kernel
  obtain ⟨q₀, hstart, -⟩ := exists_ok_of_any heval
  refine ⟨q₀, hstart, fun n q hcalls => ?_⟩
  exact (advance_refuses pairParser_onlyAccepts pairParser_failsByAccepting
    (Tables.not_skipped_of_all (by decide +kernel))
    (Parser.typed_of_isTyped (by decide +kernel)) (by decide) hstart hcalls).2.2 hne
    (by decide +kernel)

/-- A tokenizer that takes a space for a token of term 4, and elsewhere nothing for one of term
5. -/
def blankTokenizer : Tokenizer where
  scan := fun _ => .next fun byte =>
    if byte = some 32 then .advance 1 (.accept 4 0 .done) else .accept 5 0 .done

/-- A parser that skips spaces and makes a node of type 2 of the token without text that follows. -/
def blankParser : Parser :=
  let states : List ParseState :=
    [{ actions := [(5, .shift 1)], skip := [(4, .skip)], tokenizerMask := 1 },
      { defaultReduce := some (.reduce 2 1) },
      { accepting := true }]
  { pairParser with
    tables :=
      ⟨(layOutStates states {}).1.toArray, (layOutStates states {}).2.slots,
        (gotoSlots [(0, 2, 2)]).toArray⟩
    set :=
      ⟨#[{ epoch := 1, id := 0, name := "⚠", isError := true },
        { epoch := 1, id := 1, name := "Top", isTop := true },
        { epoch := 1, id := 2, name := "Letter" }]⟩
    maxTerm := 5
    minRepeat := 3
    maxNode := 2
    tokenizers := #[blankTokenizer] }

theorem blankParser_onlyAccepts : blankParser.OnlyAccepts := by
  intro t ht v
  obtain rfl := List.mem_singleton.1 (Array.mem_toList_iff.2 ht)
  intro byte
  simp only
  split
  · trivial
  · trivial

/-- **A record that is refused.**  Behind a space the token without text starts at 1, but the symbol
that it makes ends at 0, where the last token that counts does. -/
theorem advance_refuses_node :
    blankParser.OnlyAccepts ∧ (∀ state, (blankParser.tables.row state).isSkipped = false) ∧
      blankParser.Typed ∧
      ∃ q₀ q r, Parse.start blankParser { bytes := #[32] } [] [] 1 100 = .ok q₀ ∧ Calls q₀ 1 q ∧
        q.advance = (.error (.error (.invalidRecord 4)), r) := by
  have heval : (Parse.start blankParser { bytes := #[32] } [] [] 1 100).toOption.any (fun q =>
      q.advance.1.toOption.any (·.isNone) &&
        decide (errorOf? q.advance.2.advance.1 = some (.invalidRecord 4))) = true := by
    decide +kernel
  obtain ⟨q₀, hstart, heval⟩ := exists_ok_of_any heval
  rw [Bool.and_eq_true, decide_eq_true_eq] at heval
  refine ⟨blankParser_onlyAccepts, Tables.not_skipped_of_all (by decide +kernel),
    Parser.typed_of_isTyped (by decide +kernel), q₀, q₀.advance.2, q₀.advance.2.advance.2, hstart,
    .step .refl (eq_none_of_any heval.1), Prod.ext (eq_error_of_errorOf? heval.2) rfl⟩

end Parse

end IncrementalLR
