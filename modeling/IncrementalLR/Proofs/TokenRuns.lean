/-
**Token tables are run as their states say.**

A tokenizer that runs one group of a laid out token automaton does what the states themselves say:
in each state of the group it accepts the first listed term that is on offer, and then follows the
edge of the next byte, or of the end of the input.  What was accepted before is given up only for a
term that overrides it, so that a shorter token may be kept.

The run has enough fuel.  Every byte that is read moves the stream on.  At the end of the input the
edges lead from state to state and never around a cycle, so that no state comes up twice.

Main definitions:

* `TokenState.Offers`, `TokenState.Accepts` — the terms on offer, and accepting the first of them;
* `TokenState.Runs` — what token states do to a stream;
* `Stream.Inside` — a stream that stands by the end of its current range.

Main results:

* `Stream.Inside.lt_advance` — a byte that is read is left behind;
* `TokenState.Runs.unique` — token states leave no choice;
* `Group.run_follow`, `Group.scanF_runs` — a step along an edge, and a run from any state on;
* `Group.scan_runs` — **a group of a laid out automaton runs as its states say**.
-/

import IncrementalLR.Proofs.Gaps
import IncrementalLR.Proofs.TokenTables

set_option relaxedAutoImplicit false
set_option autoImplicit false

namespace IncrementalLR

/-! ### What token states do -/

namespace TokenState

/-- Whether a term with its groups is on offer after `current` was accepted: it is for the group,
the dialect allows it, and it is the first term, the current one, or overrides that. -/
def Offers (grammar : Grammar) (group : Nat) (current : Option Nat) (entry : Nat × Nat) : Prop :=
  entry.2.testBit group = true ∧ grammar.dialect.allows entry.1 = true ∧
    ∀ prev, current = some prev →
      prev = entry.1 ∨ overrides grammar.precedenceList entry.1 prev = true

/-- Accepts the first listed term that is on offer, where the stream stands. -/
inductive Accepts (t : TokenState) (grammar : Grammar) (group : Nat) (s : Stream) : Stream → Prop
  | nothing : (∀ x ∈ t.accept, ¬ Offers grammar group s.token.value x) →
      Accepts t grammar group s s
  | first {before after : List (Nat × Nat)} {entry : Nat × Nat} :
      t.accept = before ++ entry :: after →
      (∀ x ∈ before, ¬ Offers grammar group s.token.value x) →
      Offers grammar group s.token.value entry →
      Accepts t grammar group s (s.acceptTo entry.1 s.pos)

/-- The state that the edge for the next byte leads to, and the stream behind that byte; at the end
of the input, the state that the edge for the end leads to.  None if there is no edge. -/
inductive Follows (t : TokenState) (s : Stream) : Option (Nat × Stream) → Prop
  | byte {b : UInt8} {e : TokenEdge} : s.next = some b → e ∈ t.edges → e.Holds b.toNat →
      Follows t s (some (e.target, s.advance 1))
  | noByte {b : UInt8} : s.next = some b → (∀ e ∈ t.edges, ¬ e.Holds b.toNat) → Follows t s none
  | ending {target : Nat} : s.next = none → t.eof = some target → Follows t s (some (target, s))
  | noEnding : s.next = none → t.eof = none → Follows t s none

/-- What token states do from one of them on: outside of the group nothing; in the group they
accept, and then follow an edge, if there is one. -/
inductive Runs (states : List TokenState) (grammar : Grammar) (group : Nat) :
    Nat → Stream → Stream → Prop
  | outside {id : Nat} {s : Stream} :
      (∀ t, states[id]? = some t → t.groupMask.testBit group = false) →
      Runs states grammar group id s s
  | last {id : Nat} {t : TokenState} {s s₁ : Stream} :
      states[id]? = some t → t.groupMask.testBit group = true → t.Accepts grammar group s s₁ →
      t.Follows s₁ none → Runs states grammar group id s s₁
  | onward {id target : Nat} {t : TokenState} {s s₁ s₂ s₃ : Stream} :
      states[id]? = some t → t.groupMask.testBit group = true → t.Accepts grammar group s s₁ →
      t.Follows s₁ (some (target, s₂)) → Runs states grammar group target s₂ s₃ →
      Runs states grammar group id s s₃

/-! ### No choice -/

theorem Accepts.unique {t : TokenState} {grammar : Grammar} {group : Nat} {s s₁ s₂ : Stream}
    (h₁ : t.Accepts grammar group s s₁) (h₂ : t.Accepts grammar group s s₂) : s₁ = s₂ := by
  cases h₁ with
  | nothing hnone =>
      cases h₂ with
      | nothing => rfl
      | first heq _ hoffer =>
          exact absurd hoffer (hnone _ (heq ▸ List.mem_append_right _ List.mem_cons_self))
  | @first before after entry heq hnone hoffer =>
      cases h₂ with
      | nothing hnone' =>
          exact absurd hoffer (hnone' _ (heq ▸ List.mem_append_right _ List.mem_cons_self))
      | @first before' after' entry' heq' hnone' hoffer' =>
          -- the two terms stand behind equally many others
          have hsame : before ++ entry :: after = before' ++ entry' :: after' := heq.symm.trans heq'
          rcases List.append_eq_append_iff.1 hsame with ⟨l, hl, hrest⟩ | ⟨l, hl, hrest⟩
          · cases l with
            | nil =>
                obtain ⟨rfl, -⟩ := List.cons.inj hrest
                rfl
            | cons x l =>
                obtain ⟨rfl, -⟩ := List.cons.inj hrest
                exact absurd hoffer
                  (hnone' _ (hl ▸ List.mem_append_right _ List.mem_cons_self))
          · cases l with
            | nil =>
                obtain ⟨rfl, -⟩ := List.cons.inj hrest
                rfl
            | cons x l =>
                obtain ⟨rfl, -⟩ := List.cons.inj hrest
                exact absurd hoffer'
                  (hnone _ (hl ▸ List.mem_append_right _ List.mem_cons_self))

theorem Follows.unique {t : TokenState} (hfit : t.EdgesFit) {s : Stream}
    {r₁ r₂ : Option (Nat × Stream)} (h₁ : t.Follows s r₁) (h₂ : t.Follows s r₂) : r₁ = r₂ := by
  cases h₁ with
  | byte hnext he hold =>
      cases h₂ with
      | byte hnext' he' hold' =>
          obtain rfl := Option.some.inj (hnext.symm.trans hnext')
          obtain rfl := hfit.unique he he' hold hold'
          rfl
      | noByte hnext' hnone =>
          obtain rfl := Option.some.inj (hnext.symm.trans hnext')
          exact absurd hold (hnone _ he)
      | ending hnext' | noEnding hnext' => cases hnext.symm.trans hnext'
  | noByte hnext hnone =>
      cases h₂ with
      | byte hnext' he' hold' =>
          obtain rfl := Option.some.inj (hnext.symm.trans hnext')
          exact absurd hold' (hnone _ he')
      | noByte => rfl
      | ending hnext' | noEnding hnext' => cases hnext.symm.trans hnext'
  | ending hnext heof =>
      cases h₂ with
      | byte hnext' | noByte hnext' => cases hnext.symm.trans hnext'
      | ending _ heof' =>
          obtain rfl := Option.some.inj (heof.symm.trans heof')
          rfl
      | noEnding _ heof' => cases heof.symm.trans heof'
  | noEnding hnext heof =>
      cases h₂ with
      | byte hnext' | noByte hnext' => cases hnext.symm.trans hnext'
      | ending _ heof' => cases heof.symm.trans heof'
      | noEnding => rfl

/-- **Token states leave no choice.** -/
theorem Runs.unique {states : List TokenState} (hfit : TokenStatesFit states) {grammar : Grammar}
    {group id : Nat} {s s₁ s₂ : Stream} (h₁ : Runs states grammar group id s s₁)
    (h₂ : Runs states grammar group id s s₂) : s₁ = s₂ := by
  induction h₁ with
  | outside hout =>
      cases h₂ with
      | outside => rfl
      | last ht hin | onward ht hin =>
          rw [hout _ ht] at hin
          cases hin
  | last ht hin haccept hfollow =>
      cases h₂ with
      | outside hout =>
          rw [hout _ ht] at hin
          cases hin
      | last ht' _ haccept' =>
          obtain rfl := Option.some.inj (ht.symm.trans ht')
          exact haccept.unique haccept'
      | onward ht' _ haccept' hfollow' =>
          obtain rfl := Option.some.inj (ht.symm.trans ht')
          obtain rfl := haccept.unique haccept'
          cases hfollow.unique (hfit.edgesFit ht) hfollow'
  | onward ht hin haccept hfollow _ ih =>
      cases h₂ with
      | outside hout =>
          rw [hout _ ht] at hin
          cases hin
      | last ht' _ haccept' hfollow' =>
          obtain rfl := Option.some.inj (ht.symm.trans ht')
          obtain rfl := haccept.unique haccept'
          cases hfollow.unique (hfit.edgesFit ht) hfollow'
      | onward ht' _ haccept' hfollow' hrest =>
          obtain rfl := Option.some.inj (ht.symm.trans ht')
          obtain rfl := haccept.unique haccept'
          cases hfollow.unique (hfit.edgesFit ht) hfollow'
          exact ih hrest

end TokenState

/-! ### Streams by the end of their range -/

namespace Ranges

/-- Going on leads on, unless it stands still. -/
theorem lt_advance {before after : List Span} {cur : Span} {pos n q : Nat} {r : Ranges}
    (hspans : Span.Ordered (cur :: after)) (hpos : pos ≤ cur.stop)
    (h : advance before cur after pos n = some (q, r)) : pos ≤ q ∧ (0 < n → pos < q) := by
  induction after generalizing before cur pos n with
  | nil =>
      rw [advance] at h
      split at h
      · cases h
      · cases h
        exact ⟨Nat.le_add_right _ _, Nat.lt_add_of_pos_right⟩
  | cons next rest ih =>
      rw [advance] at h
      split at h
      · have hnext := hspans.ends next (List.mem_cons_of_mem _ List.mem_cons_self)
        have hapart := List.rel_of_pairwise_cons hspans.apart List.mem_cons_self
        have hrest : Span.Ordered (next :: rest) :=
          ⟨(List.forall_mem_cons.1 hspans.ends).2, hspans.apart.of_cons⟩
        obtain ⟨hle, hlt⟩ := ih hrest hnext h
        refine ⟨by omega, fun hn => ?_⟩
        rcases Nat.lt_or_ge pos cur.stop with hin | hout
        · omega
        · have := hlt (by omega)
          omega
      · cases h
        exact ⟨Nat.le_add_right _ _, Nat.lt_add_of_pos_right⟩

/-- Moving on to a position before the end of the last range ends in a range that does not end
before it. -/
theorem le_seekForth {before after : List Span} {cur : Span} {pos hi : Nat}
    (hlast : (cur :: after).getLast?.map Span.stop = some hi) (hpos : pos ≤ hi) :
    pos ≤ (seekForth pos before cur after).current.stop := by
  induction after generalizing before cur with
  | nil =>
      obtain rfl := Option.some.inj hlast
      exact hpos
  | cons next rest ih =>
      rw [seekForth]
      split
      · exact ih hlast
      · rename_i hlt
        exact Nat.le_of_lt (Nat.not_le.1 hlt)

theorem le_seek {r : Ranges} {pos hi : Nat} (hlast : r.toList.getLast?.map Span.stop = some hi)
    (hpos : pos ≤ hi) : pos ≤ (r.seek pos).current.stop := by
  refine le_seekForth ?_ hpos
  have hback := toList_seekBack pos r.before r.current r.after
  rw [toList] at hback hlast
  rwa [← hback, List.getLast?_append, List.getLast?_cons, Option.some_or, ← List.getLast?_cons]
    at hlast

end Ranges

namespace Stream

/-- A stream that stands by the end of its current range. -/
structure Inside (spans : List Span) (hi : Nat) (s : Stream) : Prop where
  covers : s.Covers spans hi
  within : s.pos ≤ s.ranges.current.stop

variable {spans : List Span} {hi : Nat} {s : Stream}

theorem Inside.congr {t : Stream} (h : s.Inside spans hi) (hr : t.ranges = s.ranges)
    (hs : t.stop = s.stop) (hp : t.pos = s.pos) (hn : t.next = s.next) : t.Inside spans hi :=
  ⟨h.covers.congr hr hs hp hn, by rw [hr, hp]; exact h.within⟩

theorem within_finished (hlast : spans.getLast?.map Span.stop = some hi)
    (hr : s.ranges.toList = spans) (hs : s.stop = hi) :
    s.finished.pos ≤ s.finished.ranges.current.stop := by
  rw [← hr, Ranges.getLast?_toList] at hlast
  exact Nat.le_of_eq (hs.trans (Option.some.inj hlast).symm)

/-- Starting over, anywhere. -/
theorem Inside.reset (hlast : spans.getLast?.map Span.stop = some hi) (h : s.Inside spans hi)
    (pos : Nat) (token : Option Token) : (s.reset pos token).Inside spans hi := by
  refine ⟨h.covers.reset pos token, ?_⟩
  unfold Stream.reset
  simp only
  split
  · exact h.within
  · split
    · exact within_finished hlast h.covers.ranges h.covers.stop
    · rename_i hlt
      have hseek : pos ≤ (s.ranges.seek pos).current.stop := by
        have hend : s.ranges.toList.getLast?.map Span.stop = some hi := by
          rwa [h.covers.ranges]
        refine Ranges.le_seek hend ?_
        have := h.covers.stop
        omega
      split <;>
      · rw [(fetch_eq _).1, (fetch_eq _).2.2.1]
        exact hseek

theorem Inside.advance (hb : Span.AllBelow hi spans)
    (hlast : spans.getLast?.map Span.stop = some hi) (h : s.Inside spans hi) (n : Nat) :
    (s.advance n).Inside spans hi := by
  refine ⟨(advance_covers hb h.covers n).1, ?_⟩
  unfold Stream.advance
  simp only
  split
  · exact within_finished hlast h.covers.ranges h.covers.stop
  · rename_i hadv
    rw [(fetch_eq _).1, (fetch_eq _).2.2.1]
    exact Nat.le_of_lt (Ranges.advance_eq_some hadv).2

/-- Moving on changes neither where the token starts nor what was accepted. -/
theorem token_advance (hb : Span.AllBelow hi spans) (h : s.Covers spans hi) (n : Nat) :
    (s.advance n).token.start = s.token.start ∧ (s.advance n).token.value = s.token.value := by
  rcases (advance_covers hb h n).2 with heq | ⟨pos, heq⟩
  · rw [heq]
    exact ⟨rfl, rfl⟩
  · rw [heq, Token.look]
    split <;> exact ⟨rfl, rfl⟩

/-- **A byte that is read is left behind.** -/
theorem Inside.lt_advance (hspans : Span.Ordered spans) (h : s.Inside spans hi) {b : UInt8}
    (hnext : s.next = some b) : s.pos < (s.advance 1).pos := by
  have hlt := h.covers.lt_of_next hnext
  have hcur : Span.Ordered (s.ranges.current :: s.ranges.after) := by
    have hall := h.covers.ranges.symm ▸ hspans
    exact ⟨fun r hr => hall.ends r (List.mem_append_right _ hr),
      (List.pairwise_append.1 hall.apart).2.1⟩
  unfold Stream.advance
  simp only
  split
  · exact h.covers.stop.symm ▸ hlt
  · rename_i hadv
    rw [(fetch_eq _).2.2.1]
    exact (Ranges.lt_advance hcur h.within hadv).2 Nat.one_pos

/-- The token still starts no later than the stream stands. -/
theorem Inside.start_advance (hspans : Span.Ordered spans) (hb : Span.AllBelow hi spans)
    (h : s.Inside spans hi) {b : UInt8} (hnext : s.next = some b)
    (hstart : s.token.start.all (· ≤ s.pos) = true) :
    (s.advance 1).token.start.all (· ≤ (s.advance 1).pos) = true := by
  have hlt := h.lt_advance hspans hnext
  rw [(token_advance hb h.covers 1).1]
  cases hat : s.token.start with
  | none => rfl
  | some a =>
      rw [hat, Option.all_some, decide_eq_true_eq] at hstart
      rw [Option.all_some, decide_eq_true_eq]
      omega

theorem Operation.run_inside (hb : Span.AllBelow hi spans)
    (hlast : spans.getLast?.map Span.stop = some hi) (h : s.Inside spans hi) (op : Operation) :
    (op.run s).Inside spans hi := by
  cases op with
  | reset pos token => exact h.reset hlast pos token
  | advance n => exact h.advance hb hlast n
  | peek offset =>
      obtain ⟨hr, hs, hp, hn, -⟩ := s.peek_eq offset
      exact h.congr hr hs hp hn
  | accept term offset =>
      change ((s.accept term offset).toOption.getD s).Inside spans hi
      unfold Stream.accept
      simp only
      split
      · split
        · exact h.congr rfl rfl rfl rfl
        · exact h
      · exact h

theorem after_inside (hb : Span.AllBelow hi spans)
    (hlast : spans.getLast?.map Span.stop = some hi) (ops : List Operation)
    (h : s.Inside spans hi) : (s.after ops).Inside spans hi := by
  induction ops generalizing s with
  | nil => exact h
  | cons op rest ih => exact ih (Operation.run_inside hb hlast h op)

end Stream

/-- The stream that a parse begins with stands by the end of its first range. -/
theorem Parse.start_inside {p : Parser} {doc : Document} {fragments : List Fragment}
    {ranges : List Span} {epoch limit : Nat} {q : Parse}
    (h : Parse.start p doc fragments ranges epoch limit = .ok q) :
    (spansOf doc ranges).getLast?.map Span.stop = some q.env.stream.stop ∧
      q.env.stream.Inside (spansOf doc ranges) q.env.stream.stop := by
  obtain ⟨hspans, heq⟩ := start_stream h
  obtain ⟨first, rest, hlist⟩ := List.exists_cons_of_ne_nil (spansOf_ne_nil doc ranges)
  rw [heq]
  rw [hlist] at hspans ⊢
  have hstop : (Stream.start doc (first :: rest)).stop =
      (Ranges.ofList (first :: rest)).toLast.current.stop := (Stream.fetch_eq _).2.1
  have hlast : (first :: rest).getLast?.map Span.stop =
      some (Ranges.ofList (first :: rest)).toLast.current.stop :=
    congrArg (Option.map Span.stop) (Ranges.ofList (first :: rest)).getLast?_toList
  rw [hstop]
  refine ⟨hlast, Stream.start_covers ?_ rfl, ?_⟩
  · exact fun r hr => ⟨hspans.ends r hr, hspans.le_last hlast hr⟩
  · rw [Stream.start, (Stream.fetch_eq _).1, (Stream.fetch_eq _).2.2.1]
    exact hspans.ends first List.mem_cons_self

/-! ### Running a table -/

namespace Group

variable {g : Group} {grammar : Grammar} {target : Nat → Nat} {t : TokenState} {state : Nat}

/-- A state of a table accepts the first term on offer. -/
theorem acceptedTerm_spec (grammar : Grammar) (h : g.Describes target t state)
    (current : Option Nat) :
    (∃ before entry after, t.accept = before ++ entry :: after ∧
      (∀ x ∈ before, ¬ TokenState.Offers grammar g.id current x) ∧
      TokenState.Offers grammar g.id current entry ∧
      g.acceptedTerm grammar state current = some entry.1) ∨
    (∀ x ∈ t.accept, ¬ TokenState.Offers grammar g.id current x) ∧
      g.acceptedTerm grammar state current = none := by
  -- the test that the automaton makes, as a function `p`
  obtain ⟨p, hterm, hoffers⟩ : ∃ p : Nat × Nat → Bool,
      g.acceptedTerm grammar state current = (t.accept.find? p).map (·.1) ∧
      ∀ x, p x = true ↔ TokenState.Offers grammar g.id current x := by
    refine ⟨_, by rw [acceptedTerm, h.accept], fun x => ?_⟩
    cases current <;> simp [TokenState.Offers, and_assoc]
  rw [hterm]
  cases hfind : t.accept.find? p with
  | none => exact Or.inr ⟨fun x hx hoffer =>
      List.find?_eq_none.1 hfind x hx ((hoffers x).2 hoffer), rfl⟩
  | some entry =>
      obtain ⟨hentry, before, after, heq, hbefore⟩ := List.find?_eq_some_iff_append.1 hfind
      refine Or.inl ⟨before, entry, after, heq, fun x hx hoffer => ?_, (hoffers _).1 hentry, rfl⟩
      have hnot := Bool.not_eq_eq_eq_not.1 (hbefore x hx)
      exact Bool.noConfusion (hnot.symm.trans ((hoffers x).2 hoffer))

/-- What a state accepts, it accepts in the stream. -/
theorem run_acceptThen (grammar : Grammar) (h : g.Describes target t state) {s : Stream}
    (hstart : s.token.start.all (· ≤ s.pos) = true) :
    ∃ s₁, t.Accepts grammar g.id s s₁ ∧ s₁.ranges = s.ranges ∧ s₁.stop = s.stop ∧
      s₁.pos = s.pos ∧ s₁.next = s.next ∧ s₁.token.start = s.token.start ∧
      s₁.token.value = (g.acceptedTerm grammar state s.token.value).or s.token.value ∧
      ∀ move lines, (acceptThen (g.acceptedTerm grammar state s.token.value) move).run s lines =
        move.run s₁ lines := by
  rcases acceptedTerm_spec grammar h s.token.value with
    ⟨before, entry, after, heq, hbefore, hentry, hterm⟩ | ⟨hnone, hterm⟩
  · refine ⟨_, .first heq hbefore hentry, rfl, rfl, rfl, rfl, rfl, ?_, fun move lines => ?_⟩
    · rw [hterm]
      rfl
    · rw [hterm, acceptThen, Scan.run, Stream.accept_zero hstart]
  · refine ⟨s, .nothing hnone, rfl, rfl, rfl, rfl, rfl, ?_, fun move lines => ?_⟩
    · rw [hterm]
      rfl
    · rw [hterm, acceptThen]

/-- Following an edge goes on from the state that it leads to, and without an edge the run ends. -/
theorem run_follow {states : List TokenState} (hfit : TokenStatesFit states) (grammar : Grammar)
    (group fuel : Nat) {id : Nat} (ht : states[id]? = some t) {s : Stream}
    (hkeep : (s.advance 1).token.value = s.token.value) (lines : List String) :
    let g : Group := ⟨(tokenSlots states).toArray, group⟩
    let r := (follow g grammar fuel (tokenOffset states id) s.token.value).run s lines
    (t.Follows s none ∧ r = (.ok s, lines)) ∨
      ∃ next s', t.Follows s (some (next, s')) ∧ next < states.length ∧
        r = (scanF g grammar fuel (tokenOffset states next) s'.token.value).run s' lines := by
  intro g r
  have hmem := List.mem_of_getElem? ht
  have hdescribes := hfit.describes group ht
  have hedges := hfit.edgesFit ht
  cases hbyte : s.next with
  | some b =>
      have hlt : b.toNat < listEnd := by
        have := b.toNat_lt
        simp only [listEnd]
        omega
      rcases hdescribes.edgeFor_spec hedges hlt with ⟨e, he, hold, hedge⟩ | ⟨hnone, hedge⟩
      · have htarget := hfit.target t hmem e he
        refine Or.inr ⟨e.target, s.advance 1, .byte hbyte he hold, htarget, ?_⟩
        simp only [r, follow, Scan.run, hbyte, g, hedge, hfit.getD_tokenOffsets htarget, hkeep]
      · refine Or.inl ⟨.noByte hbyte hnone, ?_⟩
        simp only [r, follow, Scan.run, hbyte, g, hedge]
  | none =>
      have hend := hdescribes.edgeForEnd_eq hedges
      cases heof : t.eof with
      | none =>
          refine Or.inl ⟨.noEnding hbyte heof, ?_⟩
          simp only [r, follow, Scan.run, hbyte, g, hend, heof, Option.map_none]
      | some next =>
          have htarget := hfit.ending t hmem next heof
          refine Or.inr ⟨next, s, .ending hbyte heof, htarget, ?_⟩
          simp only [r, follow, Scan.run, hbyte, g, hend, heof, Option.map_some,
            hfit.getD_tokenOffsets htarget]

/-- **A run from any state on.**  `seen` are the states that the run has passed at the end of the
input, none of which comes up again; the fuel lasts for the bytes that are left and for the states
that have not been seen. -/
theorem scanF_runs {states : List TokenState} (hfit : TokenStatesFit states) (grammar : Grammar)
    (group : Nat) {spans : List Span} {hi : Nat} (hspans : Span.Ordered spans)
    (hlast : spans.getLast?.map Span.stop = some hi) (lines : List String) (fuel : Nat) {id : Nat}
    {seen : List Nat} {s : Stream} (hid : id < states.length) (hs : s.Inside spans hi)
    (hstart : s.token.start.all (· ≤ s.pos) = true) (hnodup : seen.Nodup)
    (hseen : ∀ x ∈ seen, x < states.length ∧ Relation.TransGen (EndsIn states) x id)
    (hended : seen ≠ [] → s.next = none)
    (hfuel : hi - s.pos + states.length < fuel + seen.length) :
    ∃ r, (scanF ⟨(tokenSlots states).toArray, group⟩ grammar fuel (tokenOffset states id)
        s.token.value).run s lines = (.ok r, lines) ∧
      TokenState.Runs states grammar group id s r := by
  have hb : Span.AllBelow hi spans := fun r hr => ⟨hspans.ends r hr, hspans.le_last hlast hr⟩
  induction fuel generalizing id seen s with
  | zero =>
      have hlength : seen.length ≤ (List.range states.length).length :=
        hnodup.length_le_of_subset fun x hx => List.mem_range.2 (hseen x hx).1
      rw [List.length_range] at hlength
      omega
  | succ fuel ih =>
      have ht := List.getElem?_eq_getElem hid
      generalize states[id] = t at ht
      have hdescribes := hfit.describes group ht
      rw [scanF_succ, hdescribes.mask]
      by_cases hin : t.groupMask.testBit group = true
      · obtain ⟨s₁, haccept, hranges, hstop, hpos, hnext, htoken, hvalue, hrun⟩ :=
          run_acceptThen grammar hdescribes hstart
        have hs₁ : s₁.Inside spans hi := hs.congr hranges hstop hpos hnext
        have hstart₁ : s₁.token.start.all (· ≤ s₁.pos) = true := by rw [htoken, hpos, hstart]
        rw [if_pos hin, hrun, ← hvalue]
        rcases run_follow hfit grammar group fuel ht (Stream.token_advance hb hs₁.covers 1).2 lines
          with ⟨hfollows, hdone⟩ | ⟨next, s₂, hfollows, htarget, hgo⟩
        · exact ⟨s₁, hdone, .last ht hin haccept hfollows⟩
        · have honward : ∃ r, (scanF ⟨(tokenSlots states).toArray, group⟩ grammar fuel
              (tokenOffset states next) s₂.token.value).run s₂ lines = (.ok r, lines) ∧
              TokenState.Runs states grammar group next s₂ r := by
            cases hfollows with
            | byte hbyte he hold =>
                -- before the end no state was passed over there
                obtain rfl : seen = [] := by
                  refine Decidable.byContradiction fun hne => ?_
                  rw [hnext, hended hne] at hbyte
                  cases hbyte
                have hmoved := hs₁.lt_advance hspans hbyte
                have hle := (Stream.advance_covers hb hs₁.covers 1).1.pos_le
                refine ih htarget (hs₁.advance hb hlast 1)
                  (hs₁.start_advance hspans hb hbyte hstart₁) List.nodup_nil
                  (fun x hx => absurd hx List.not_mem_nil) (fun hne => absurd rfl hne) ?_
                rw [List.length_nil] at hfuel ⊢
                omega
            | ending hbyte heof =>
                have hstep : EndsIn states id next := ⟨t, ht, heof⟩
                refine ih htarget hs₁ hstart₁
                  (List.nodup_cons.2 ⟨fun hmem => hfit.acyclic id (hseen id hmem).2, hnodup⟩)
                  (List.forall_mem_cons.2 ⟨⟨hid, .single hstep⟩,
                    fun x hx => ⟨(hseen x hx).1, (hseen x hx).2.tail hstep⟩⟩)
                  (fun _ => hbyte) ?_
                rw [List.length_cons, hpos]
                omega
          obtain ⟨r, hr, hruns⟩ := honward
          exact ⟨r, hgo.trans hr, .onward ht hin haccept hfollows hruns⟩
      · rw [if_neg hin]
        refine ⟨s, rfl, .outside fun t' ht' => ?_⟩
        obtain rfl := Option.some.inj (ht.symm.trans ht')
        exact Bool.not_eq_true _ ▸ hin

/-- **A group of a laid out automaton runs as its states say.**  Wherever a parse starts to read a
token, the tokenizer succeeds, and it leaves the one stream that the token states lead to, with the
accepted term, the end of the token and the position. -/
theorem scan_runs {states : List TokenState} (hfit : TokenStatesFit states) (grammar : Grammar)
    (group : Nat) {p : Parser} {doc : Document} {fragments : List Fragment} {ranges : List Span}
    {epoch limit : Nat} {q : Parse}
    (hstart : Parse.start p doc fragments ranges epoch limit = .ok q)
    (ops : List Stream.Operation) {pos : Nat} (hpos : pos ≤ q.env.stream.stop) (token : Token)
    {s : Stream} (hs : (q.env.stream.after ops).reset pos (some token) = s) (lines : List String) :
    ∃ r, (scan ⟨(tokenSlots states).toArray, group⟩ grammar).run s lines = (.ok r, lines) ∧
      ∀ r', TokenState.Runs states grammar group 0 s r' ↔ r' = r := by
  obtain ⟨hspans, -⟩ := Parse.start_stream hstart
  obtain ⟨hlast, hbegin⟩ := Parse.start_inside hstart
  generalize Parse.spansOf doc ranges = spans at hspans hlast hbegin
  generalize q.env.stream.stop = hi at hpos hlast hbegin
  have hb : Span.AllBelow hi spans := fun r hr => ⟨hspans.ends r hr, hspans.le_last hlast hr⟩
  have hafter := Stream.after_inside hb hlast ops hbegin
  have hinside := hafter.reset hlast pos (some token)
  have hplace := Stream.pos_reset hafter.covers hpos (some token)
  have htoken := Stream.token_reset (q.env.stream.after ops) pos (some token)
  rw [hs] at hinside hplace htoken
  have hread : s.token.start.all (· ≤ s.pos) = true := by
    rw [htoken, hplace]
    simp [Token.restart]
  have hvalue : s.token.value = none := by
    rw [htoken]
    rfl
  have hrun : ∃ r, (scan ⟨(tokenSlots states).toArray, group⟩ grammar).run s lines =
      (.ok r, lines) ∧ TokenState.Runs states grammar group 0 s r := by
    rw [scan, Scan.run]
    by_cases hid : 0 < states.length
    · have hsize := length_le_tokenSlots states
      have hstop := hinside.covers.stop
      have key := scanF_runs hfit grammar group hspans hlast lines
        (s.stop - s.pos + (tokenSlots states).toArray.size + 2) hid hinside hread List.nodup_nil
        (fun x hx => absurd hx List.not_mem_nil) (fun hne => absurd rfl hne) (by
          rw [List.size_toArray]
          simp only [List.length_nil]
          omega)
      rw [tokenOffset_zero, hvalue] at key
      exact key
    · obtain rfl := List.eq_nil_of_length_eq_zero (Nat.eq_zero_of_not_pos hid)
      refine ⟨s, ?_, .outside fun t ht => by cases ht⟩
      rw [scanF_succ]
      simp [slot, tokenSlots, Scan.run]
  obtain ⟨r, hr, hruns⟩ := hrun
  refine ⟨r, hr, fun r' => ⟨fun h => h.unique hfit hruns, ?_⟩⟩
  rintro rfl
  exact hruns

/-- Token states with edges that are given out of order and reach the end of the range of bytes, and
with an edge for the end of the input. -/
def letterStates : List TokenState :=
  [{ groupMask := 3, edges := [⟨98, 65536, 2⟩, ⟨97, 98, 1⟩] },
    { groupMask := 1, accept := [(4, 1), (2, 2), (1, 1)], edges := [⟨0, 65536, 2⟩] },
    { groupMask := 1, accept := [(2, 1)], edges := [⟨99, 101, 2⟩], eof := some 3 },
    { groupMask := 1, accept := [(3, 1)] }]

/-- The table of these states. -/
theorem tokenSlots_letterStates : tokenSlots letterStates =
    [3, 3, 2, 97, 98, 9, 98, 0, 21,
      1, 18, 1, 4, 1, 2, 2, 1, 1, 0, 0, 21,
      1, 26, 2, 2, 1, 99, 101, 21, listEnd, 0, 32,
      1, 37, 0, 3, 1] := by
  have hsorted : ([⟨98, 65536, 2⟩, ⟨97, 98, 1⟩] : List TokenEdge).mergeSort
      (fun a b => a.first ≤ b.first) = [⟨97, 98, 1⟩, ⟨98, 65536, 2⟩] := by
    simp [List.mergeSort, List.MergeSort.Internal.splitInTwo]
  simp only [tokenSlots, letterStates, tokenOffsets, List.zip_cons_cons, List.flatMap_cons,
    TokenState.slots, hsorted, List.mergeSort_singleton, List.mergeSort_nil]
  decide

/-- A grammar with the token 4 disabled and the token 1 before 2. -/
def letterGrammar : Grammar where
  tables := ⟨#[], #[1, 2, listEnd], #[]⟩
  set := ⟨#[]⟩
  maxTerm := 4
  minRepeat := 5
  maxNode := 4
  topRules := {}
  dialects := {}
  dynamicPrecedences := {}
  precedence := 0
  termNames := none
  dialect := { disabled := [4] }
  top := (0, 1)
  strict := false
  bufferLength := 1024
  tuning := {}

theorem letterStates_fit : TokenStatesFit letterStates where
  edge := by decide
  apart := by decide
  target := by decide
  ending := by decide
  acyclic := by
    have hlt : ∀ id target, Relation.TransGen (EndsIn letterStates) id target → id < target := by
      have hends : ∀ id target, EndsIn letterStates id target → id < target := by
        rintro id target ⟨s, hs, heof⟩
        match id with
        | 0 | 1 | 3 =>
            obtain rfl := Option.some.inj hs
            cases heof
        | 2 =>
            obtain rfl := Option.some.inj hs
            obtain rfl := Option.some.inj heof
            decide
        | _ + 4 => cases hs
      intro id target h
      induction h with
      | single h => exact hends _ _ h
      | tail _ h ih => exact Nat.lt_trans ih (hends _ _ h)
    exact fun id hcycle => Nat.lt_irrefl id (hlt id id hcycle)
  offsets := by
    intro id s hs
    match id with
    | 0 | 1 | 2 | 3 =>
        obtain rfl := Option.some.inj hs
        decide
    | _ + 4 => cases hs
  counts := by decide

/-- From the start the shorter token is kept, although the run goes on to the third range; from the
last byte on the token of the end of the input takes the place of the one before it. -/
theorem scan_runs_letters :
    ∃ q, Parse.start Parse.pairParser Parse.gapText [] Parse.gapRanges 1 100 = .ok q ∧
      (∃ r, TokenState.Runs letterStates letterGrammar 0 0
          ((q.env.stream.after Parse.gapWalk).reset 0 (some {})) r ∧
        r.token.value = some 1 ∧ r.token.stop = 1 ∧ r.pos = 8) ∧
      ∃ r, TokenState.Runs letterStates letterGrammar 0 0
          ((q.env.stream.after Parse.gapWalk).reset 9 (some {})) r ∧
        r.token.value = some 3 ∧ r.token.stop = 10 ∧ r.pos = 10 := by
  have heval : (Parse.start Parse.pairParser Parse.gapText [] Parse.gapRanges 1
      100).toOption.any (fun q =>
      decide (q.env.stream.stop = 10) &&
      ((scan ⟨(tokenSlots letterStates).toArray, 0⟩ letterGrammar).run
        ((q.env.stream.after Parse.gapWalk).reset 0 (some {})) []).1.toOption.any (fun r =>
          decide (r.token.value = some 1 ∧ r.token.stop = 1 ∧ r.pos = 8)) &&
      ((scan ⟨(tokenSlots letterStates).toArray, 0⟩ letterGrammar).run
        ((q.env.stream.after Parse.gapWalk).reset 9 (some {})) []).1.toOption.any (fun r =>
          decide (r.token.value = some 3 ∧ r.token.stop = 10 ∧ r.pos = 10))) = true := by
    rw [tokenSlots_letterStates]
    decide +kernel
  obtain ⟨q, hstart, heval⟩ := exists_ok_of_any heval
  simp only [Bool.and_eq_true, decide_eq_true_eq] at heval
  obtain ⟨⟨hstop, hfirst⟩, hend⟩ := heval
  obtain ⟨r₁, hrun₁, hruns₁⟩ := scan_runs letterStates_fit letterGrammar 0 hstart Parse.gapWalk
    (Nat.zero_le _) {} rfl []
  obtain ⟨r₂, hrun₂, hruns₂⟩ := scan_runs letterStates_fit letterGrammar 0 hstart Parse.gapWalk
    (by omega : 9 ≤ q.env.stream.stop) {} rfl []
  rw [hrun₁] at hfirst
  rw [hrun₂] at hend
  exact ⟨q, hstart, ⟨r₁, (hruns₁ r₁).2 rfl, of_decide_eq_true hfirst⟩,
    r₂, (hruns₂ r₂).2 rfl, of_decide_eq_true hend⟩

end Group

end IncrementalLR
