/-
**The nodes of a parse reach as far as their children.**

A later parse takes a node over if the text up to its horizon is unchanged, and then does not look
at what is inside of it.  So the horizon of a node has to cover those of its children.  It does in
every tree of a parse without fragments that comes from settled moves, unless a repetition was cut
into leaves after the text had been looked at far ahead of it.

With fragments it does not.  A node that is taken over brings the record of its own look-ahead, but
the stack does not learn of it: the node around it is stored as if nothing had been looked at, and
the next parse may take that node over although the text changed that its child depends on.

Main definitions:

* `Stack.Spares` — repetitions are cut into leaves only where nothing is recorded.

Main results:

* `Parse.Yields.reaches` — the tree of a tidy stack;
* `Parse.finish_reaches` — **every node reaches as far as its children** in the trees of settled
  moves, and in those of a steady parser;
* `Parse.finish_forgets` — a tree with a node that was taken over, which the node around it forgot.
-/

import IncrementalLR.Proofs.Marks
import IncrementalLR.Proofs.WellFormed

set_option relaxedAutoImplicit false
set_option autoImplicit false

namespace IncrementalLR

/-- A forest in which only look-ahead marks are looked through has no record of reuse. -/
theorem Nested.size_ne_reuse {lo hi : Int} {rs : List Record} (h : Nested Record.IsMark lo hi rs) :
    ∀ r ∈ rs, r.size ≠ Record.reuseSize := by
  induction h with
  | nil => simp
  | skip hmark _ ih =>
      refine List.forall_mem_cons.2 ⟨?_, ih⟩
      unfold Record.IsMark Record.lookAheadSize at hmark
      unfold Record.reuseSize
      omega
  | node _ hsize _ _ _ ihinner ihouter =>
      refine List.forall_mem_cons.2 ⟨?_, List.forall_mem_append.2 ⟨ihinner, ihouter⟩⟩
      unfold Record.reuseSize
      omega

/-- Repetitions that are long enough to be cut into leaves are stored only where the text was not
looked at much further than to their start. -/
def Stack.Spares (p : Parser) (s : Stack) : Prop :=
  ∀ x ∈ trailFrom 0 (s.close p).records, (Parse.planFor p #[] 0 s.pos).Spares x

instance (p : Parser) (s : Stack) : Decidable (s.Spares p) :=
  inferInstanceAs (Decidable (∀ _ ∈ _, _))

/-- If the text was never looked at far ahead, repetitions do not matter. -/
theorem Stack.Falling.spares {s : Stack} (h : s.Falling) (hnone : s.lookAhead = 0) (p : Parser) :
    s.Spares p := by
  intro x hx _ _
  have hbelow := (h.close (by omega) p).2 x hx
  exact Or.inr (by omega)

namespace Parse

/-! ### The trees of tidy stacks -/

/-- Every node of the tree of a tidy stack reaches as far as its children. -/
theorem Yields.reaches {g : Setting} {s : Stack} {t : Tree} (hg : g.IsPlain) (hs : s.Tidy g)
    (hfalling : s.Falling) (hroom : g.hi + lookAheadMargin ≤ maxWord)
    (hspares : s.Spares g.parser) (hend : s.lookAhead ≤ s.pos + lookAheadMargin)
    (h : Yields g s t) : t.ReachesChildren := by
  obtain ⟨reused, epoch, built, hbuilt, rfl⟩ := h
  have hclosed := hs.close hg
  have hseg := hclosed.whole.nested
  rw [pos_close] at hseg
  have hpos := hs.pos_le
  have hword : s.lookAhead ≤ maxWord := by omega
  have hreader := hclosed.reader_holds
  obtain ⟨hfall, hbelow⟩ := hfalling.close (Nat.lt_of_le_of_lt hword (by decide)) g.parser
  have htrail : Builder.trail { reader := (s.close g.parser).reader } =
      trailFrom 0 (s.close g.parser).records := by
    rw [Builder.trail, hreader.records_eq]
  have hcalm : Builder.Calm (planFor g.parser reused g.lo s.pos) s.lookAhead
      { reader := (s.close g.parser).reader } := by
    constructor
    · rw [htrail]
      exact hfall
    · rw [htrail]
      exact hbelow
    · rw [htrail]
      exact hspares
    · intro x hx
      rw [htrail] at hx
      exact hseg.size_ne_reuse _ (mem_of_mem_trailFrom hx)
  exact Tree.reachesChildren_stampAll epoch
    (Tree.reachesChildren_buildFrom rfl rfl hreader (by omega) hseg hcalm hword hend hbuilt)

/-- **Every node reaches as far as its children.**  A tree that a parse of a whole document without
fragments finishes with is that of a stack that moves lead to.  If these are settled, or the parser
is steady, every node of the tree reaches as far as its children: always if the text was never
looked at far ahead, and else as long as repetitions are not cut where something is recorded and the
text was not looked at much further than to the end of the tree. -/
theorem finish_reaches {p : Parser} {doc : Document} {epoch limit : Nat} {q r : Parse} {t : Tree}
    (hacc : p.OnlyAccepts) (hne : p.NeverEmpty) (htracker : p.tracker = none)
    (hrows : ∀ state, (p.tables.row state).isSkipped = false)
    (hword : doc.size + lookAheadMargin ≤ maxWord)
    (hstart : Parse.start p doc [] [] epoch limit = .ok q) (hfinish : q.finish = (.ok t, r)) :
    (∃ s : Stack, s.Known (settingOf p doc []) ∧ Yields (settingOf p doc []) s t) ∧
      ∀ s : Stack, s.Reached (settingOf p doc []) (settled p) ∨
          p.isSteady = true ∧ s.Known (settingOf p doc []) →
        Yields (settingOf p doc []) s t →
        s.lookAhead = 0 ∨ s.Spares p ∧ s.lookAhead ≤ s.pos + lookAheadMargin → t.ReachesChildren := by
  obtain ⟨hfits, hready, -, -⟩ := start_ready hstart
  have hplain : (settingOf p doc []).IsPlain :=
    ⟨⟨rfl, rfl⟩, Nat.le_trans (Nat.le_add_right _ _) hword, hrows, htracker⟩
  obtain ⟨n, q', hsteps, hlast⟩ := finishF_eq_ok _ .refl hfinish
  have key := advance_led hfits hacc (hsteps.ready hfits hacc hready).1
  rw [hlast] at key
  obtain ⟨s, hknown, hyields, -⟩ := key
  refine ⟨⟨s, hknown, hyields⟩, fun s hs hyields hahead => ?_⟩
  have hsettled : s.Reached (settingOf p doc []) (settled p) := by
    rcases hs with hs | ⟨hsteady, hs⟩
    · exact hs
    · exact (Stack.Reached.settled_of_steady hfits hplain hsteady hne hs).1
  have htidy := hsettled.tidy hfits hplain
  have hfalling := hsettled.falling
  rcases hahead with hnone | ⟨hspares, hend⟩
  · exact hyields.reaches hplain htidy hfalling hword (hfalling.spares hnone p) (by omega)
  · exact hyields.reaches hplain htidy hfalling hword hspares hend

/-! ### A parser that looks far ahead -/

/-- A token of fixed length, with a place behind its end that is looked at. -/
structure Stride where
  term : Nat
  length : Nat
  ahead : Int := 0

/-- A tokenizer that tells tokens of fixed length by their first byte. -/
def strideTokenizer (stride : UInt8 → Stride) : Tokenizer where
  scan := fun _ => .next fun byte =>
    match byte with
    | some b =>
        .advance (stride b).length
          (.peek (stride b).ahead fun _ => .accept (stride b).term 0 .done)
    | none => .done

theorem strideTokenizer_neverEmpty {stride : UInt8 → Stride}
    (hlength : ∀ b, 0 < (stride b).length) : (strideTokenizer stride).NeverEmpty := by
  intro v hi s s' lines hcovers _ hvalue hrun hsome
  simp only [strideTokenizer, Scan.run] at hrun
  cases hnext : s.next with
  | none =>
      rw [hnext] at hrun
      cases hrun
      rw [hvalue] at hsome
      cases hsome
  | some b =>
      rw [hnext] at hrun
      simp only [Scan.run] at hrun
      split at hrun
      · rename_i haccept
        cases hrun
        rw [Stream.stop_of_accept haccept, (Stream.peek_eq _ _).2.2.1]
        exact Stream.lt_pos_advance hcovers (hcovers.lt_of_next hnext) (hlength b)
      · cases hrun

/-- The tokens: an `a` of 40 bytes, a `c` of 5, an `x` of 10 for which 60 more are looked at, and
two kinds of text that is skipped. -/
def farStride (byte : UInt8) : Stride :=
  if byte = 97 then { term := 6, length := 40 }
  else if byte = 99 then { term := 4, length := 5 }
  else if byte = 120 then { term := 7, length := 10, ahead := 60 }
  else if byte = 116 then { term := 8, length := 65 }
  else { term := 8, length := 1 }

/-- The states of a parser for an `a`, a `c` and an `x`, which is a node of type 3 inside of one of
type 2. -/
def farStates : List ParseState :=
  [{ actions := [(6, .shift 1)], skip := [(8, .skip)], tokenizerMask := 1 },
    { actions := [(4, .shift 2)], tokenizerMask := 1 },
    { actions := [(7, .shift 3)], tokenizerMask := 1 },
    { defaultReduce := some (.reduce 3 1) },
    { defaultReduce := some (.reduce 2 3) },
    { accepting := true, skip := [(8, .skip)], tokenizerMask := 1 }]

/-- The parser with these states, which packs nothing. -/
def farParser : Parser :=
  { pairParser with
    tables :=
      ⟨(layOutStates farStates {}).1.toArray, (layOutStates farStates {}).2.slots,
        (gotoSlots [(2, 3, 4), (0, 2, 5)]).toArray⟩
    set :=
      ⟨#[{ epoch := 1, id := 0, name := "⚠", isError := true },
        { epoch := 1, id := 1, name := "Top", isTop := true }, { epoch := 1, id := 2, name := "P" },
        { epoch := 1, id := 3, name := "X" }, { epoch := 1, id := 4, name := "C" }]⟩
    maxTerm := 8
    minRepeat := 5
    maxNode := 4
    bufferLength := 1
    tokenizers := #[strideTokenizer farStride] }

theorem farParser_onlyAccepts : farParser.OnlyAccepts := by
  intro t ht v
  obtain rfl := List.mem_singleton.1 (Array.mem_toList_iff.2 ht)
  intro byte
  cases byte with
  | none => trivial
  | some b => exact fun _ => trivial

theorem farParser_neverEmpty : farParser.NeverEmpty := by
  intro t ht
  obtain rfl := List.mem_singleton.1 (Array.mem_toList_iff.2 ht)
  refine strideTokenizer_neverEmpty fun b => ?_
  unfold farStride
  repeat' split
  all_goals decide

/-- A text of one token of each kind. -/
def farText : Document :=
  { bytes := Array.replicate 40 97 ++ Array.replicate 5 99 ++ Array.replicate 10 120 ++
      Array.replicate 65 116 }

/-- What the stacks of its parse share. -/
def farEnv : Env := { stream := .start farText [⟨0, 120⟩], start := 0, limit := 100 }

/-- The stack of its parse before anything is reduced. -/
def farShifted : Stack :=
  let s := ((Stack.start farParser 0).shift farParser (Action.shift 1).code 6 0 40 farEnv).1
  let s := (s.shift farParser (Action.shift 2).code 4 40 45 farEnv).1
  ((s.raiseLookAhead 116).shift farParser (Action.shift 3).code 7 45 55 farEnv).1

/-- The stack of its parse after the first reduction. -/
def farReduced : Stack := (farShifted.reduce farParser (Action.reduce 3 1).code farEnv).1

/-- The stack of its parse after the second reduction. -/
def farJoined : Stack := (farReduced.reduce farParser (Action.reduce 2 3).code farEnv).1

/-- The stack of its parse when all text is read. -/
def farStack : Stack := (farJoined.shift farParser Action.skip.code 8 55 120 farEnv).1

theorem farStack_reached :
    farStack.Reached (settingOf farParser farText []) (settled farParser) := by
  have hshifted : farShifted.Reached (settingOf farParser farText []) (settled farParser) := by
    refine .shift_token (.move (.shift_token (.shift_token .start ?_ ?_ ?_ ?_ ?_) ?_ ?_ ?_ ?_ ?_)
      (.look _ 116)) ?_ ?_ ?_ ?_ ?_
    all_goals first | exact Or.inl (by decide +kernel) | decide +kernel
  -- Nothing is skipped before the reductions.
  have hreduced : Stack.Move (settingOf farParser farText []) (settled farParser) farShifted
      farReduced := by
    refine .reduce rfl (Or.inl ?_) fun _ => Or.inl (show ∀ r ∈ _, _ from ?_)
    all_goals decide +kernel
  have hjoined : Stack.Move (settingOf farParser farText []) (settled farParser) farReduced
      farJoined := by
    refine .reduce rfl (Or.inl ?_) fun _ => Or.inl (show ∀ r ∈ _, _ from ?_)
    all_goals decide +kernel
  refine .shift_token ((hshifted.move hreduced).move hjoined) ?_ ?_ ?_ ?_ ?_
  all_goals first | exact Or.inl (by decide +kernel) | decide +kernel

/-- The tree of the text records with two nodes how far was looked, and both reach far enough. -/
theorem finish_reaches_far :
    ∃ q t r, Parse.start farParser farText [] [] 1 100 = .ok q ∧ q.finish = (.ok t, r) ∧
      (∃ c ∈ t.children, c.2.reach = 61 ∧ ∃ d ∈ c.2.children, d.2.reach = 61) ∧ t.ReachesChildren := by
  have heval : (Parse.start farParser farText [] [] 1 100).toOption.any (fun q =>
      q.finish.1.toOption.any fun t =>
        (Tree.buildFrom (planFor farParser #[] 0 farStack.pos)
            (farStack.close farParser).reader).toOption.any (t = ·.stampAll 1) &&
          decide (∃ c ∈ t.children, c.2.reach = 61 ∧ ∃ d ∈ c.2.children, d.2.reach = 61)) =
        true := by decide +kernel
  obtain ⟨q, hstart, heval⟩ := exists_ok_of_any heval
  obtain ⟨t, ht, heval⟩ := exists_ok_of_any heval
  rw [Bool.and_eq_true, decide_eq_true_eq] at heval
  obtain ⟨built, hbuilt, hsame⟩ := exists_ok_of_any heval.1
  have hfinish : q.finish = (.ok t, q.finish.2) := Prod.ext ht rfl
  have hyields : Yields (settingOf farParser farText []) farStack t :=
    ⟨#[], 1, built, hbuilt, of_decide_eq_true hsame⟩
  obtain ⟨-, hreaches⟩ := finish_reaches farParser_onlyAccepts farParser_neverEmpty rfl
    (Tables.not_skipped_of_all (by decide +kernel)) (by decide) hstart hfinish
  exact ⟨q, t, _, hstart, hfinish, heval.2, hreaches farStack (Or.inl farStack_reached) hyields
    (Or.inr ⟨by decide +kernel, by decide +kernel⟩)⟩

/-! ### A node that is taken over -/

/-- The text after a byte was inserted in front of it. -/
def farTextEdited : Document := { bytes := #[115] ++ farText.bytes }

/-- **A node does not reach as far as its child.**  The tree of the text obeys the law.  When it is
offered to a parse of the edited text, that parse takes the node of the `x` over, for which was
looked far ahead, and builds a node around it that records nothing. -/
theorem finish_forgets :
    ∃ q t r, Parse.start farParser farText [] [] 1 100 = .ok q ∧ q.finish = (.ok t, r) ∧
      t.ReachesChildren ∧
      ∃ q' t' r', Parse.start farParser farTextEdited
          (Fragment.applyChanges (Fragment.addTree t [] false) [.replace 0 0 1]
            Fragment.defaultMinGap) [] 2 100 = .ok q' ∧
        q'.finish = (.ok t', r') ∧ ¬ t'.ReachesChildren := by
  have heval : (Parse.start farParser farText [] [] 1 100).toOption.any (fun q =>
      q.finish.1.toOption.any fun t =>
        decide t.ReachesChildren && (Parse.start farParser farTextEdited
          (Fragment.applyChanges (Fragment.addTree t [] false) [.replace 0 0 1]
            Fragment.defaultMinGap) [] 2 100).toOption.any fun q' =>
          q'.finish.1.toOption.any fun t' => !decide t'.ReachesChildren) = true := by decide +kernel
  obtain ⟨q, hstart, heval⟩ := exists_ok_of_any heval
  obtain ⟨t, ht, heval⟩ := exists_ok_of_any heval
  rw [Bool.and_eq_true, decide_eq_true_eq] at heval
  obtain ⟨q', hstart', heval'⟩ := exists_ok_of_any heval.2
  obtain ⟨t', ht', hforgets⟩ := exists_ok_of_any heval'
  refine ⟨q, t, _, hstart, Prod.ext ht rfl, heval.1, q', t', _, hstart', Prod.ext ht' rfl, ?_⟩
  simpa using hforgets

end Parse

end IncrementalLR
