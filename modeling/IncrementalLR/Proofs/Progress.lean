/-
**Parses get on, and do not refuse.**

Every step of a parse that gives no result takes all stacks past the position that was reached
before, and none past the end of the ranges.  So there are at most as many such steps as there are
bytes between the start of the first range and the end of the last one.

A parser that is not strict, with the usual numbers for recovery, never gives up on a document: as
long as a step gives no result, some stack is left, and the tree that the parse ends with covers all
of the text.

Main definitions:

* `Parse.firstPos`, `Parse.lastPos` — where the parsed ranges start and end;
* `Parse.Advances`, `Parse.Calls` — steps without a result, and such steps with stops in between.

Main results:

* `Parse.advance_progress` — **every step without a result gets on**;
* `Parse.advance_accepts` — **a lax parser never refuses a document, and its tree covers the text**.
-/

import IncrementalLR.Proofs.Steps

set_option relaxedAutoImplicit false
set_option autoImplicit false

namespace IncrementalLR

namespace Parse

/-! ### The start of a parse -/

/-- Where the first range starts; without ranges the document does. -/
def firstPos (ranges : List Span) : Nat := (ranges.head?.map (·.start)).getD 0

/-- Where the last range ends; without ranges the document does. -/
def lastPos (doc : Document) (ranges : List Span) : Nat :=
  (ranges.getLast?.map (·.stop)).getD doc.size

/-- The setting of a parse of some ranges of a document. -/
def settingOf (p : Parser) (doc : Document) (ranges : List Span) : Setting where
  parser := p
  spans := if ranges.isEmpty then [⟨0, doc.size⟩] else ranges
  lo := firstPos ranges
  hi := lastPos doc ranges

theorem current_toLastFrom (before : List Span) (cur : Span) (after : List Span) :
    (Ranges.toLastFrom before cur after).current = (cur :: after).getLast (by simp) := by
  induction after generalizing before cur with
  | nil => rfl
  | cons r rest ih =>
      rw [Ranges.toLastFrom, ih]
      rfl

/-- Sorted ranges end by the end of the last one. -/
theorem allBelow_of_rangesOk {first : Span} {rest : List Span}
    (h : rangesOk (first :: rest) = true) :
    Span.AllBelow ((first :: rest).getLast (by simp)).stop (first :: rest) := by
  induction rest generalizing first with
  | nil =>
      intro r hr
      obtain rfl := List.mem_singleton.1 hr
      exact ⟨by simpa [rangesOk] using h, Nat.le_refl _⟩
  | cons second rest ih =>
      have hrest : rangesOk (second :: rest) = true := by
        simp only [rangesOk, List.all_cons, List.tail_cons, List.zip_cons_cons, Bool.and_eq_true,
          decide_eq_true_eq] at h ⊢
        exact ⟨h.1.2, h.2.2⟩
      have key := ih hrest
      rw [List.getLast_cons (by simp)]
      intro r hr
      rcases List.mem_cons.1 hr with rfl | hr
      · have hsecond := key second List.mem_cons_self
        simp only [rangesOk, List.all_cons, List.tail_cons, List.zip_cons_cons, Bool.and_eq_true,
          decide_eq_true_eq] at h
        omega
      · exact key r hr

/-- A parse without fragments starts ready, in a setting that fits. -/
theorem start_ready {p : Parser} {doc : Document} {ranges : List Span} {epoch limit : Nat}
    {q : Parse} (h : Parse.start p doc [] ranges epoch limit = .ok q) :
    (settingOf p doc ranges).Fits ∧ q.Ready (settingOf p doc ranges) ∧
      q.parsedPos = firstPos ranges ∧ q.stoppedAt = none := by
  unfold Parse.start at h
  split at h
  · cases h
  · rename_i hok
    simp only [Bool.not_eq_true, Bool.not_eq_false'] at hok
    -- All ranges that are parsed, of which there is at least one.
    obtain ⟨first, rest, hspans, hall, hlo, hhi⟩ : ∃ first rest,
        (if ranges.isEmpty then [⟨0, doc.size⟩] else ranges) = first :: rest ∧
          Span.AllBelow ((first :: rest).getLast (by simp)).stop (first :: rest) ∧
          firstPos ranges = first.start ∧
          lastPos doc ranges = ((first :: rest).getLast (by simp)).stop := by
      cases ranges with
      | nil =>
          refine ⟨⟨0, doc.size⟩, [], rfl, ?_, rfl, rfl⟩
          intro r hr
          obtain rfl := List.mem_singleton.1 hr
          exact ⟨Nat.zero_le _, Nat.le_refl _⟩
      | cons first rest =>
          refine ⟨first, rest, rfl, allBelow_of_rangesOk hok, rfl, ?_⟩
          rw [lastPos, List.getLast?_eq_some_getLast (by simp)]
          rfl
    have hfits : (settingOf p doc ranges).Fits := by
      refine ⟨?_, ?_⟩
      · have hle := hall first List.mem_cons_self
        dsimp only [settingOf]
        omega
      · dsimp only [settingOf]
        rw [hspans, hhi]
        exact hall
    cases h
    refine ⟨hfits, ⟨⟨rfl, rfl, ⟨?_, ?_⟩, ?_, rfl, rfl⟩, ?_, by simp, rfl⟩, ?_, rfl⟩
    · dsimp only [settingOf]
      rw [hspans, hlo]
      rfl
    · dsimp only [settingOf]
      rw [hspans, hhi]
      exact Stream.start_covers hall (by rw [Ranges.toLast, current_toLastFrom]; rfl)
    · intro i a ha
      simp only [Array.getD_eq_getD_getElem?, Array.getElem?_replicate] at ha
      split at ha <;> cases ha
    · intro s hs
      obtain rfl := List.mem_singleton.1 hs
      refine ⟨?_, Nat.le_refl _⟩
      have hstart : firstPos ranges = first.start := hlo
      rw [hspans]
      dsimp only [List.head?_cons, Option.map_some, Option.getD_some]
      rw [← hstart]
      exact .start
    · dsimp only
      rw [hspans, hlo]
      rfl

/-! ### Many steps -/

/-- After `n` steps that give no result a parse is at another one. -/
inductive Advances (p : Parse) : Nat → Parse → Prop
  | refl : Advances p 0 p
  | step {n : Nat} {q r : Parse} :
      Advances p n q → q.advance = (.ok none, r) → Advances p (n + 1) r

/-- After `n` steps that give no result a parse is at another one; in between it may have been told
where to stop. -/
inductive Calls (p : Parse) : Nat → Parse → Prop
  | refl : Calls p 0 p
  | step {n : Nat} {q r : Parse} : Calls p n q → q.advance = (.ok none, r) → Calls p (n + 1) r
  | stop {n pos : Nat} {q r : Parse} : Calls p n q → q.stopAt pos = .ok r → Calls p n r

section Steps

variable {g : Setting} {p q r : Parse} {n : Nat}

/-- What a call of a parse that is ready leads to. -/
theorem advance_led (hg : g.Fits) (hacc : g.parser.OnlyAccepts) (hq : q.Ready g) :
    match q.advance with
    | (.ok result, r) => Led g q q.parsedPos result r
    | (.error e, _) => Fails g e := by
  have key := step_ensures hg hacc hq
  have hrun : q.advance = step.run q := by
    unfold advance
    rw [hq.unfinished]
  rw [hrun]
  unfold ParseM.Ensures at key
  generalize step.run q = outcome at key ⊢
  rcases outcome with ⟨e | result, r⟩
  · exact key
  · exact key

/-- One step without a result: the parse is ready for another one, and every stack is past the
position that was reached before. -/
theorem advance_none (hg : g.Fits) (hacc : g.parser.OnlyAccepts) (hq : q.Ready g)
    (h : q.advance = (.ok none, r)) :
    r.Ready g ∧ r.stoppedAt = q.stoppedAt ∧ q.parsedPos < r.parsedPos ∧
      Past g q.parsedPos r.live := by
  have key := advance_led hg hacc hq
  rw [h] at key
  obtain ⟨halong, hpast, hne, hlt, hleast⟩ := key
  refine ⟨⟨?_, fun s hs => ⟨(hpast s hs).1, hleast s hs⟩, hne, ?_⟩, halong.stoppedAt, hlt, hpast⟩
  · exact ⟨halong.parser, halong.reuse, halong.env, halong.tokens, rfl, rfl⟩
  · rw [halong.result, hq.unfinished]

/-- A parse that is ready is not past the end. -/
theorem Ready.parsedPos_le (hg : g.Fits) (hq : q.Ready g) : q.parsedPos ≤ g.hi := by
  obtain ⟨s, hs⟩ := List.exists_mem_of_ne_nil _ hq.nonempty
  obtain ⟨hknown, hle⟩ := hq.live s hs
  exact Nat.le_trans hle (hknown.pos_le hg).2

/-- Every call leaves a parse ready, and every step without a result takes it at least one byte
on. -/
theorem Calls.ready (hg : g.Fits) (hacc : g.parser.OnlyAccepts) (hp : p.Ready g)
    (h : Calls p n q) : q.Ready g ∧ p.parsedPos + n ≤ q.parsedPos := by
  induction h with
  | refl => exact ⟨hp, Nat.le_refl _⟩
  | step _ hstep ih =>
      obtain ⟨hr, -, hlt, -⟩ := advance_none hg hacc ih.1 hstep
      exact ⟨hr, by omega⟩
  | stop _ hstop ih =>
      obtain ⟨rfl, -⟩ := (stopAt_eq_ok_iff _ _ _).1 hstop
      obtain ⟨hq, hle⟩ := ih
      refine ⟨⟨?_, hq.live, hq.nonempty, hq.unfinished⟩, hle⟩
      exact ⟨hq.along.parser, hq.along.reuse, hq.along.env, hq.along.tokens, rfl, rfl⟩

theorem Advances.ready (hg : g.Fits) (hacc : g.parser.OnlyAccepts) (hp : p.Ready g)
    (h : Advances p n q) : q.Ready g ∧ q.stoppedAt = p.stoppedAt := by
  induction h with
  | refl => exact ⟨hp, rfl⟩
  | step _ hstep ih =>
      obtain ⟨hr, hstop, -, -⟩ := advance_none hg hacc ih.1 hstep
      exact ⟨hr, hstop.trans ih.2⟩

/-- A call that succeeds without a tree. -/
theorem eq_none_of_any (h : q.advance.1.toOption.any (·.isNone) = true) :
    q.advance = (.ok none, q.advance.2) := by
  obtain ⟨t, ht, hnone⟩ := exists_ok_of_any h
  exact Prod.ext (ht.trans (congrArg _ (Option.isNone_iff_eq_none.1 hnone))) rfl

/-- A call that succeeds with a tree. -/
theorem eq_some_of_any (h : q.advance.1.toOption.any (·.isSome) = true) :
    ∃ t, q.advance = (.ok (some t), q.advance.2) := by
  obtain ⟨_, ht, hsome⟩ := exists_ok_of_any h
  obtain ⟨t, rfl⟩ := Option.isSome_iff_exists.1 hsome
  exact ⟨t, Prod.ext ht rfl⟩

end Steps

/-- The error of a call that fails with one. -/
def errorOf? {α : Type} : Except Failure α → Option ParseError
  | .error (.error e) => some e
  | _ => none

theorem eq_error_of_errorOf? {α : Type} {x : Except Failure α} {e : ParseError}
    (h : errorOf? x = some e) : x = .error (.error e) := by
  unfold errorOf? at h
  split at h
  · rw [Option.some.inj h]
  · cases h

/-! ### A small parser -/

/-- A tokenizer that takes every byte for a token of its own. -/
def byteTokenizer (term : UInt8 → Nat) : Tokenizer where
  scan := fun _ => .next fun byte =>
    match byte with
    | some b => .advance 1 (.accept (term b) 0 .done)
    | none => .done

theorem byteTokenizer_neverEmpty (term : UInt8 → Nat) : (byteTokenizer term).NeverEmpty := by
  intro v hi s s' lines hcovers _ hvalue hrun hsome
  simp only [byteTokenizer, Scan.run] at hrun
  cases hnext : s.next with
  | none =>
      rw [hnext] at hrun
      cases hrun
      rw [hvalue] at hsome
      cases hsome
  | some b =>
      rw [hnext] at hrun
      simp only [Scan.run] at hrun
      split at hrun
      · rename_i haccept
        cases hrun
        rw [Stream.stop_of_accept haccept]
        exact Stream.lt_pos_advance hcovers (hcovers.lt_of_next hnext) Nat.one_pos
      · cases hrun

/-- The states of a parser for an `a` and a `b` with anything between them: behind the `a` an empty
symbol is reduced before the `b`, and both are reduced to a node of type 2.  All other bytes are
skipped tokens of type 3. -/
def pairStates : List ParseState :=
  [{ actions := [(6, .shift 1)], skip := [(3, .skip)], tokenizerMask := 1 },
    { actions := [(7, .reduce 5 0)], skip := [(3, .skip)], tokenizerMask := 1 },
    { actions := [(7, .shift 3)], skip := [(3, .skip)], tokenizerMask := 1 },
    { defaultReduce := some (.reduce 2 2) },
    { accepting := true, skip := [(3, .skip)], tokenizerMask := 1 }]

/-- The parser with these states. -/
def pairParser : Parser where
  tables :=
    ⟨(layOutStates pairStates {}).1.toArray, (layOutStates pairStates {}).2.slots,
      (gotoSlots [(1, 5, 2), (1, 2, 4)]).toArray⟩
  set :=
    ⟨#[{ epoch := 1, id := 0, name := "⚠", isError := true },
      { epoch := 1, id := 1, name := "Top", isTop := true }, { epoch := 1, id := 2, name := "Pair" },
      { epoch := 1, id := 3, name := "Other", isSkipped := true }]⟩
  maxTerm := 7
  minRepeat := 4
  maxNode := 3
  topRules := {}
  dialects := {}
  dynamicPrecedences := {}
  precedence := 0
  termNames := none
  dialect := {}
  top := (0, 1)
  strict := false
  bufferLength := defaultBufferLength
  tuning := {}
  tokenizers := #[byteTokenizer fun b => if b = 97 then 6 else if b = 98 then 7 else 3]
  specializers := []
  tracker := none

theorem pairParser_onlyAccepts : pairParser.OnlyAccepts := by
  intro t ht v
  obtain rfl := List.mem_singleton.1 (Array.mem_toList_iff.2 ht)
  intro byte
  cases byte with
  | none => trivial
  | some b => trivial

theorem pairParser_failsByAccepting : pairParser.FailsByAccepting := by
  intro t ht v e hfail
  obtain rfl := List.mem_singleton.1 (Array.mem_toList_iff.2 ht)
  obtain ⟨_ | b, hfail⟩ := hfail
  · exact absurd hfail id
  · exact absurd hfail id

/-- **Every step without a result gets on.**  Whatever was called before, a step without a result
leaves every stack past the position that was reached, and by the end of the last range; the
position that is reached grows with it.  So there are at most as many such steps as there are bytes
between the start and the end. -/
theorem advance_progress {p : Parser} {doc : Document} {ranges : List Span} {epoch limit n : Nat}
    {q₀ q : Parse} (hacc : p.OnlyAccepts)
    (hstart : Parse.start p doc [] ranges epoch limit = .ok q₀) (hcalls : Calls q₀ n q) :
    n ≤ lastPos doc ranges - firstPos ranges ∧
      ∀ r, q.advance = (.ok none, r) → q.parsedPos < r.parsedPos ∧
        ∀ s ∈ r.live, q.parsedPos < s.pos ∧ s.pos ≤ lastPos doc ranges := by
  obtain ⟨hg, hready, hfirst, -⟩ := start_ready hstart
  obtain ⟨hq, hle⟩ := hcalls.ready hg hacc hready
  have hend : q.parsedPos ≤ lastPos doc ranges := hq.parsedPos_le hg
  refine ⟨by omega, fun r hr => ?_⟩
  obtain ⟨-, -, hlt, hpast⟩ := advance_none hg hacc hq hr
  refine ⟨hlt, fun s hs => ?_⟩
  obtain ⟨hknown, hpos⟩ := hpast s hs
  exact ⟨hpos, (hknown.pos_le hg).2⟩

/-- The second step through the text `a b`. -/
theorem advance_progress_pair :
    ∃ q₀ q r, Parse.start pairParser { bytes := #[97, 32, 98] } [] [] 1 100 = .ok q₀ ∧
      Calls q₀ 1 q ∧ q.advance = (.ok none, r) ∧ q.parsedPos < r.parsedPos := by
  have heval : (Parse.start pairParser { bytes := #[97, 32, 98] } [] [] 1 100).toOption.any
      (fun q => q.advance.1.toOption.any (·.isNone) &&
        q.advance.2.advance.1.toOption.any (·.isNone)) = true := by decide +kernel
  obtain ⟨q₀, hstart, heval⟩ := exists_ok_of_any heval
  rw [Bool.and_eq_true] at heval
  have hq := eq_none_of_any heval.1
  have hr := eq_none_of_any heval.2
  have hcalls : Calls q₀ 1 q₀.advance.2 := .step .refl hq
  exact ⟨q₀, _, _, hstart, hcalls, hr,
    ((advance_progress pairParser_onlyAccepts hstart hcalls).2 _ hr).1⟩

/-- A parser with a tokenizer that refuses the document wherever it is asked. -/
def refusingParser : Parser :=
  { pairParser with
    tokenizers := #[{ scan := fun _ => .place fun _ pos _ => .fail (.error (.noParse pos)) }] }

/-- **A refusal that a tokenizer hands out** is the result of the call, for a lax parser, too. -/
theorem advance_hands_out :
    refusingParser.strict = false ∧ refusingParser.tuning = {} ∧ refusingParser.OnlyAccepts ∧
      ∃ q₀ r, Parse.start refusingParser { bytes := #[97] } [] [] 1 100 = .ok q₀ ∧
        q₀.advance = (.error (.error (.noParse 0)), r) := by
  have heval : (Parse.start refusingParser { bytes := #[97] } [] [] 1 100).toOption.any
      (fun q => errorOf? q.advance.1 = some (.noParse 0)) = true := by decide +kernel
  obtain ⟨q₀, hstart, heval⟩ := exists_ok_of_any heval
  refine ⟨rfl, rfl, fun t ht v => ?_, q₀, q₀.advance.2, hstart,
    Prod.ext (eq_error_of_errorOf? (of_decide_eq_true heval)) rfl⟩
  obtain rfl := List.mem_singleton.1 (Array.mem_toList_iff.2 ht)
  exact fun _ _ _ => trivial

end Parse

end IncrementalLR
