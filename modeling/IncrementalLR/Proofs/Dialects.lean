/-
**Suppressed terms never become tokens.**

Tokens get onto stacks in two ways: a token is shifted, or recovery leaves it out inside of an error
node.  Both take a term that the parse keeps, or one of an action that a stack was offered, and none
of these is suppressed.  So of everything that happens to the stacks of a parse, from the first call
on and whatever calls fail, only permitted tokens are recorded.

Main definitions:

* `Stack.TokenPath` — the stacks that moves lead to which record certain tokens only;
* `Parse.MayAppear` — the terms that tokens may have under a dialect string.

Main results:

* `Parse.dialect_suppresses` — **terms of dialects that are not named never become tokens**.
-/

import IncrementalLR.Proofs.Suppressed
import IncrementalLR.Proofs.Walks

set_option relaxedAutoImplicit false
set_option autoImplicit false

namespace IncrementalLR

namespace Stack

/-- The stacks that moves lead to which record tokens of certain terms only. -/
inductive TokenPath (p : Parser) (ok : Nat → Prop) (s₀ : Stack) : Stack → Prop
  | refl : TokenPath p ok s₀ s₀
  | move {s s' : Stack} : TokenPath p ok s₀ s → TokenMove p ok s s' → TokenPath p ok s₀ s'

end Stack

namespace Parse

/-- The terms that tokens may have under a dialect string: those of errors and of the end, and all
that no dialect lists which the string does not name. -/
def MayAppear (p : Parser) (a : Automaton) (term : Nat) : Prop :=
  term = errorTerm ∨ term = p.eofTerm ∨ ¬ a.Suppresses p.dialect.source term

/-- **Terms of dialects that are not named never become tokens.**  A parser is made from the tables
of an automaton, whose dialects have different names and list terms up to the largest one that are
not the end mark of lists; it may have been configured any number of times, all of its tokenizers
are groups of the token automaton, and it parses a document without fragments.  Then, whatever calls
there were and whether they failed or not:

* no token that is kept, nor the one that actions were given for, has a suppressed term as its
  value or beside it;
* whatever else a parse with these tokens holds, a stack is offered actions for other terms only,
  and is stuck at tokens of other terms only, and asking for its actions keeps that;
* every stack that is followed, and every stack whose tree is given, has come about by moves that
  shift and leave out tokens of other terms only. -/
theorem dialect_suppresses {a : Automaton} {w : WrittenParser} {p : Parser} {doc : Document}
    {ranges : List Span} {epoch limit : Nat} {q₀ q : Parse} (htables : w.tables = a.layOut)
    (hdialects : a.DialectsFit w.maxTerm) (hvariant : Parser.VariantOf w p)
    (hgroups : ∀ t ∈ p.tokenizers, ∃ g, t = Tokenizer.ofGroup g)
    (hstart : Parse.start p doc [] ranges epoch limit = .ok q₀) (hused : Used q₀ q) :
    q.memo.Within (MayAppear p a) ∧
    (∀ q' : Parse, q'.parser = p → q'.reuse = none → q'.memo.Within (MayAppear p a) → ∀ s,
      ((actionsFor s).run q').2.memo.Within (MayAppear p a) ∧
      (∀ found, ((actionsFor s).run q').1 = .ok found →
        ∀ action ∈ found.1, MayAppear p a action.term) ∧
      MayAppear p a (q'.mainToken s).1) ∧
    (∀ s ∈ q.live, Stack.TokenPath p (MayAppear p a) (Stack.start p q₀.env.start) s) ∧
    ∀ t, q.advance.1 = .ok (some t) →
      TreeOf p (Stack.TokenPath p (MayAppear p a) (Stack.start p q₀.env.start)) t := by
  have hok : ∀ term, p.Permits term → MayAppear p a term := by
    rintro term (herror | heof | hallowed)
    · exact Or.inl herror
    · exact Or.inr (Or.inl heof)
    · refine Or.inr (Or.inr fun hsuppressed => ?_)
      have hrefused := (hvariant.speaksOf htables).allows_eq_false hdialects hsuppressed
      rw [hallowed] at hrefused
      cases hrefused
  have hread := (Parser.readsOnly_of_groups hgroups).mono hok
  have hK : ∀ s s', Stack.TokenPath p (MayAppear p a) (Stack.start p q₀.env.start) s →
      Stack.TokenMove p (MayAppear p a) s s' →
      Stack.TokenPath p (MayAppear p a) (Stack.start p q₀.env.start) s' := fun _ _ => .move
  have hq := hused.obeys hread hok hK (fun h => absurd rfl h) (start_obeys hstart _ .refl)
  refine ⟨hq.memo, fun q' hparser hreuse hmemo s => ?_, hq.rest.1,
    (advance_keeps hread hok hK (fun h => absurd rfl h) hq).2⟩
  have hq' : q'.Obeys p (MayAppear p a) False fun _ _ => True :=
    ⟨hparser, fun h => h hreuse, hmemo, trivial⟩
  have key := actionsFor_within hread hok s hq'
  rw [ParseM.Keeps] at key
  generalize (actionsFor s).run q' = outcome at key ⊢
  rcases outcome with ⟨e | found, r⟩
  · exact ⟨key.memo, (fun found hfound => by cases hfound), permits_mainToken hok hq' s⟩
  · refine ⟨key.1.memo, fun found' hfound => ?_, permits_mainToken hok hq' s⟩
    exact Except.ok.inj hfound ▸ key.2.1

/-! ### A byte with two terms -/

/-- The byte 97 is text of two terms, and a dialect lists given terms. -/
def eitherAutomaton (listed : List Nat) : Automaton where
  states :=
    [{ actions := [(5, .shift 1), (6, .shift 1)], tokenizerMask := 1 },
      { accepting := true, tokenizerMask := 1 }]
  tokenStates :=
    [{ groupMask := 1, edges := [⟨97, 98, 1⟩] }, { groupMask := 1, accept := [(5, 1), (6, 1)] }]
  dialects := [("short", listed)]

theorem tokenSlots_either (listed : List Nat) :
    tokenSlots (eitherAutomaton listed).tokenStates =
      [1, 3, 1, 97, 98, 6, 1, 13, 0, 5, 1, 6, 1] := by
  simp only [tokenSlots, eitherAutomaton, tokenOffsets, List.zip_cons_cons, List.flatMap_cons,
    TokenState.slots, List.mergeSort_singleton, List.mergeSort_nil]
  decide

/-- A parser for it. -/
def eitherWritten (listed : List Nat) (maxTerm : Nat) : WrittenParser where
  tables := (eitherAutomaton listed).layOut
  nodeNames := "⚠ Top"
  maxTerm := maxTerm
  tokenizers := [.group 0]
  topRules := .ofList [("Top", (0, 1))]

/-- The terms of the actions that a parse offers the stack that it starts with. -/
def firstTerms (q : Parse) : List Nat :=
  match ((actionsFor (Stack.start q.parser q.env.start)).run q).1 with
  | .ok found => found.1.map (·.term)
  | .error _ => []

/-- Whether a parse of the byte 97 by the parser without dialects starts with given terms. -/
def eitherStarts (listed : List Nat) (maxTerm : Nat) (terms : List Nat) : Bool :=
  (Parser.ofWritten 1 (eitherWritten listed maxTerm)).toOption.any fun p =>
    p.dialect.source == none && p.eofTerm == 2 &&
      (start p { bytes := #[97] } [] [] 1 10).toOption.any fun q => firstTerms q == terms

theorem exists_of_eitherStarts {listed terms : List Nat} {maxTerm : Nat}
    (h : eitherStarts listed maxTerm terms = true) :
    ∃ p q, Parser.ofWritten 1 (eitherWritten listed maxTerm) = .ok p ∧ p.dialect.source = none ∧
      p.eofTerm = 2 ∧ start p { bytes := #[97] } [] [] 1 10 = .ok q ∧ firstTerms q = terms := by
  obtain ⟨p, hp, hchecks⟩ := exists_ok_of_any h
  rw [Bool.and_eq_true, Bool.and_eq_true, beq_iff_eq, beq_iff_eq] at hchecks
  obtain ⟨q, hq, hterms⟩ := exists_ok_of_any hchecks.2
  exact ⟨p, q, hp, hchecks.1.1, hchecks.1.2, hq, beq_iff_eq.1 hterms⟩

/-- The dialect that lists the first term is not named, and the other term is read. -/
theorem dialect_suppresses_either :
    ∃ p q₀, Parser.VariantOf (eitherWritten [5] 6) p ∧
      start p { bytes := #[97] } [] [] 1 10 = .ok q₀ ∧ firstTerms q₀ = [6] ∧
      ¬ MayAppear p (eitherAutomaton [5]) 5 ∧
      q₀.advance.2.memo.Within (MayAppear p (eitherAutomaton [5])) ∧
      ∀ s ∈ q₀.advance.2.live,
        Stack.TokenPath p (MayAppear p (eitherAutomaton [5])) (Stack.start p q₀.env.start) s := by
  have hstarts : eitherStarts [5] 6 [6] = true := by
    simp only [eitherStarts, eitherWritten, Automaton.layOut, tokenSlots_either]
    decide +kernel
  obtain ⟨p, q₀, hp, hsource, heof, hq₀, hterms⟩ := exists_of_eitherStarts hstarts
  have hgroups := Parser.groups_of_ofWritten hp fun t ht => ⟨0, List.mem_singleton.1 ht⟩
  obtain ⟨hmemo, -, hlive, -⟩ := dialect_suppresses rfl ⟨by decide, by decide⟩ (.made hp) hgroups
    hq₀ (.advance .refl)
  refine ⟨p, q₀, .made hp, hq₀, hterms, ?_, hmemo, hlive⟩
  rintro (herror | hend | hnamed)
  · cases herror
  · rw [heof] at hend
    cases hend
  · exact hnamed ⟨("short", [5]), List.mem_singleton.2 rfl, hsource ▸ List.not_mem_nil,
      List.mem_singleton.2 rfl⟩

/-- A list with the number of the end mark is cut off there, and a term behind it is read although
its dialect is not named. -/
theorem dialect_cut_off :
    ∃ p q₀, Parser.VariantOf (eitherWritten [65535, 5] 65535) p ∧
      (∀ t ∈ p.tokenizers, ∃ g, t = Tokenizer.ofGroup g) ∧
      ((eitherAutomaton [65535, 5]).dialects.map (·.1)).Nodup ∧
      (∀ d ∈ (eitherAutomaton [65535, 5]).dialects, ∀ term ∈ d.2, term ≤ 65535) ∧
      (eitherAutomaton [65535, 5]).Suppresses p.dialect.source 5 ∧ 5 ≠ errorTerm ∧
      5 ≠ p.eofTerm ∧ start p { bytes := #[97] } [] [] 1 10 = .ok q₀ ∧ firstTerms q₀ = [5] := by
  have hstarts : eitherStarts [65535, 5] 65535 [5] = true := by
    simp only [eitherStarts, eitherWritten, Automaton.layOut, tokenSlots_either]
    decide +kernel
  obtain ⟨p, q₀, hp, hsource, heof, hq₀, hterms⟩ := exists_of_eitherStarts hstarts
  refine ⟨p, q₀, .made hp, ?_, by decide, by decide, ?_, by decide, ?_, hq₀, hterms⟩
  · exact Parser.groups_of_ofWritten hp fun t ht => ⟨0, List.mem_singleton.1 ht⟩
  · exact ⟨("short", [65535, 5]), List.mem_singleton.2 rfl, hsource ▸ List.not_mem_nil, by decide⟩
  · rw [heof]
    decide

end Parse

end IncrementalLR
