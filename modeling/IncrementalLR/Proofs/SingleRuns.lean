/-
**The run of a single stack.**

Where tokens are read by groups and keyword tables only, and no state has two actions for a token,
a parse has no choice: a stack does the default reduction of its state if there is one, and else the
action for the token at its position, until there is none.  This run is defined here for a stack by
itself, without queues, kept tokens or recovery.

Main definitions:

* `Parser.IsDeterministic` — the parsers in question;
* `Parser.seen`, `Parser.singleStep`, `Parser.SingleRun` — the token at a position, one step of a
  single stack, and a run of it until no action applies;
* `Parser.singleRunF` — the run of a single stack, computed;
* `Parser.accepts`, `Parser.verdict` — what the end of a run says about the document.

Main results:

* `Parser.offers_of_singleStep` — **a stack is offered the action for the token at its position**;
* `Parser.singleStep_bounds` — a step stays inside of the range;
* `Parser.SingleRun.hasNoErrors` — a run leaves no error node behind.
-/

import IncrementalLR.Proofs.Caching
import IncrementalLR.Proofs.Steps
import IncrementalLR.Proofs.Storing

set_option relaxedAutoImplicit false
set_option autoImplicit false

namespace IncrementalLR

/-- The largest number that a machine counts with. -/
def maxSize : Nat := 18446744073709551615

/-- A value that is found was given. -/
theorem Keyed.mem_of_get?_ofList {κ β : Type} [DecidableEq κ] {k : κ} {v : β}
    (pairs : List (κ × β)) (h : (Keyed.ofList pairs).get? k = some v) : (k, v) ∈ pairs := by
  have hfold : ∀ (pairs : List (κ × β)) (m : Keyed κ β),
      (pairs.foldl (fun m p => m.insert p.1 p.2) m).get? k = some v →
        m.get? k = some v ∨ (k, v) ∈ pairs := by
    intro pairs
    induction pairs with
    | nil => exact fun m hm => Or.inl hm
    | cons x rest ih =>
        intro m hm
        obtain ⟨k', v'⟩ := x
        rcases ih _ hm with hm | hm
        · by_cases hk : k' = k
          · subst hk
            rw [Keyed.get?_insert_self] at hm
            obtain rfl := Option.some.inj hm
            exact Or.inr List.mem_cons_self
          · rw [Keyed.get?_insert_of_ne _ _ hk] at hm
            exact Or.inl hm
        · exact Or.inr (List.mem_cons_of_mem _ hm)
  rcases hfold pairs {} h with h | h
  · cases h
  · exact h

namespace Parser

/-- A parser that never has a choice: its tokens are read by groups, keywords take the place of the
tokens that they specialize, no tracker is asked, no state has two actions for a token, and no limit
on depths or repetitions is ever reached. -/
structure IsDeterministic (p : Parser) : Prop where
  groups : ∀ t ∈ p.tokenizers, ∃ g, t = Tokenizer.ofGroup g
  keywords : ∀ x ∈ p.specializers, ∃ (term : Nat) (words : List (String × Nat)),
    x = Specializer.ofKeywords term (words.map fun w => (w.1, .specialize w.2))
  tracker : p.tracker = none
  single : ∀ state term stop, (collectActions p.tables state term stop []).length ≤ 1
  cutDepth : p.tuning.cutDepth = maxSize
  repetitions : p.tuning.maxLeftAssociativeReductionCount = maxSize

theorem IsDeterministic.isTabular {p : Parser} (hp : p.IsDeterministic) : p.IsTabular where
  groups := hp.groups
  keywords := by
    intro x hx
    obtain ⟨term, words, rfl⟩ := hp.keywords x hx
    exact ⟨term, _, rfl⟩

end Parser

/-! ### Tables without choices -/

/-- An entry for a term adds at most one action, and no entry adds none. -/
theorem ActionList.length_addTo_le (l : ActionList) (term stop : Nat) (actions : List TokenAction)
    (hnodup : (l.entries.map (·.term)).Nodup) :
    (l.addTo term stop actions).length ≤ max 1 (actions.length +
      if term ∈ l.entries.map (·.term) then 1 else 0) := by
  have hinsert : ∀ (a : TokenAction) (acc : List TokenAction),
      (insertAction a acc).length ≤ acc.length + 1 := by
    intro a acc
    unfold insertAction
    split <;> simp
  have hfold : ∀ (entries : List Entry) (acc : List TokenAction),
      (entries.map (·.term)).Nodup →
      (entries.foldl (fun actions e =>
        if e.term = term then insertAction ⟨e.word, term, stop⟩ actions else actions) acc).length ≤
        acc.length + if term ∈ entries.map (·.term) then 1 else 0 := by
    intro entries
    induction entries with
    | nil => exact fun acc _ => Nat.le_add_right _ _
    | cons e rest ih =>
        intro acc hnodup
        simp only [List.map_cons, List.nodup_cons] at hnodup
        simp only [List.foldl_cons, List.map_cons, List.mem_cons]
        by_cases hterm : e.term = term
        · have hrest : term ∉ rest.map (·.term) := hterm ▸ hnodup.1
          have h₁ := ih (insertAction ⟨e.word, term, stop⟩ acc) hnodup.2
          have h₂ := hinsert ⟨e.word, term, stop⟩ acc
          simp only [hterm, hrest, if_true, if_false, true_or] at h₁ ⊢
          omega
        · have h₁ := ih acc hnodup.2
          simpa [hterm, Ne.symm hterm, eq_comm] using h₁
  have key := hfold l.entries actions hnodup
  unfold addTo
  dsimp only
  generalize l.entries.foldl (fun actions e =>
    if e.term = term then insertAction ⟨e.word, term, stop⟩ actions else actions) actions = found
    at key
  split
  · split
    · rename_i word _ hempty
      have h₁ := hinsert ⟨word, term, stop⟩ found
      have h₂ := List.length_eq_zero_iff.2 (List.isEmpty_iff.1 hempty)
      omega
    · omega
  · omega

/-- A list without an entry for a term and without an action for other terms adds nothing. -/
theorem ActionList.addTo_of_not_mem {l : ActionList} {term : Nat}
    (hterm : term ∉ l.entries.map (·.term)) (hother : l.other = none) (stop : Nat)
    (actions : List TokenAction) : l.addTo term stop actions = actions := by
  have hfold : ∀ entries : List Entry, term ∉ entries.map (·.term) →
      entries.foldl (fun actions e =>
        if e.term = term then insertAction ⟨e.word, term, stop⟩ actions else actions) actions =
        actions := by
    intro entries
    induction entries with
    | nil => exact fun _ => rfl
    | cons e rest ih =>
        intro hterm
        simp only [List.map_cons, List.mem_cons, not_or] at hterm
        rw [List.foldl_cons, if_neg (Ne.symm hterm.1)]
        exact ih hterm.2
  unfold addTo
  rw [hother, hfold l.entries hterm]

namespace Tables

/-- Whether a state has at most one action for every term: no term has two entries, and a state with
an action for all other terms skips none. -/
def isSingleAt (t : Tables) (state : Nat) : Bool :=
  let taken := t.actionList (t.row state).actions
  let skipped := t.actionList (t.row state).skip
  decide ((taken.entries ++ skipped.entries).map (·.term)).Nodup &&
    (taken.other.isNone || skipped.entries.isEmpty)

/-- Whether every state has at most one action for every term. -/
def isSingle (t : Tables) : Bool := (List.range t.stateCount).all t.isSingleAt

/-- The check is right. -/
theorem length_collectActions_le {t : Tables} (h : t.isSingle = true) (state term stop : Nat) :
    (collectActions t state term stop []).length ≤ 1 := by
  unfold collectActions
  split
  · rename_i hstate
    have hat : t.isSingleAt state = true :=
      List.all_eq_true.1 h state (List.mem_range.2 (by simpa [hasState] using hstate))
    unfold isSingleAt at hat
    dsimp only at hat ⊢
    generalize t.actionList (t.row state).actions = taken at hat ⊢
    generalize t.actionList (t.row state).skip = skipped at hat ⊢
    simp only [List.map_append, Bool.and_eq_true, decide_eq_true_eq, List.nodup_append,
      Bool.or_eq_true, Option.isNone_iff_eq_none, List.isEmpty_iff] at hat
    obtain ⟨⟨htaken, hskipped, hdisjoint⟩, hother⟩ := hat
    have h₂ := skipped.length_addTo_le term stop (taken.addTo term stop []) hskipped
    by_cases hmem : term ∈ skipped.entries.map (·.term)
    · -- A skipped term is not taken, and there is no action for other terms.
      have hnone : taken.other = none := by
        rcases hother with hnone | hempty
        · exact hnone
        · simp [hempty] at hmem
      have hnot : term ∉ taken.entries.map (·.term) := fun h => hdisjoint term h term hmem rfl
      rw [ActionList.addTo_of_not_mem hnot hnone] at h₂ ⊢
      simpa [hmem] using h₂
    · have h₁ := taken.length_addTo_le term stop [] htaken
      rw [if_neg hmem] at h₂
      split at h₁ <;> simp only [List.length_nil] at h₁ <;> omega
  · exact Nat.zero_le 1

end Tables

namespace Parser

/-! ### The run of a single stack -/

/-- The first token that the tokenizers of a mask read for a stack, each by itself, and how far they
looked. -/
def firstToken (p : Parser) (d : Document) (r : Span) (s : Stack) (mask : Nat) :
    List (Tokenizer × Nat) → Nat → Except Failure (Option Token × Nat)
  | [], far => .ok (none, far)
  | (t, i) :: rest, far =>
      if i < 32 && mask.testBit i then
        match p.tokenAt d r s t with
        | .error e => .error e
        | .ok token =>
            let far :=
              if token.stop + lookAheadMargin < token.lookAhead then max far token.lookAhead
              else far
            if token.value.getD errorTerm = errorTerm then firstToken p d r s mask rest far
            else .ok (some token, far)
      else firstToken p d r s mask rest far

/-- The term and the end of the token at the position of a stack, and the stack with its look-ahead
raised.  At the end of the range, where no tokenizer has a token, the end itself is the token. -/
def seen (p : Parser) (d : Document) (r : Span) (s : Stack) :
    Except Failure (Option (Nat × Nat) × Stack) :=
  (p.firstToken d r s (p.tables.row s.state).tokenizerMask p.tokenizers.toList.zipIdx 0).map
    fun found =>
      let token :=
        match found.1 with
        | some t => some (t.value.getD errorTerm, t.stop)
        | none => if s.pos = r.stop then some (p.eofTerm, s.pos) else none
      (token, if 0 < found.2 then s.raiseLookAhead found.2 else s)

/-- What a single stack is run in: nothing but the start of the range matters. -/
def bareEnv (d : Document) (r : Span) : Env :=
  { stream := .start d [r], start := r.start, limit := 0 }

/-- One step of a single stack, and whether an action applied: the default reduction of its state if
it has one, else the action for the token at its position.  There is no step where reading that
token or going through the actions of the state never ends. -/
def singleStep (p : Parser) (d : Document) (r : Span) (s : Stack) : Except Failure (Bool × Stack) :=
  let default := (p.tables.row s.state).defaultReduce
  if 0 < default then .ok (true, (s.reduce p default (bareEnv d r)).1)
  else
    match p.seen d r s with
    | .error e => .error e
    | .ok (none, s) => .ok (false, s)
    | .ok (some t, s') =>
        if p.tables.listsEnd s.state then
          match (collectActions p.tables s.state t.1 t.2 []).head? with
          | some a => .ok (true, (s'.apply p a.word a.term s.pos a.stop (bareEnv d r)).1)
          | none => .ok (false, s')
        else .error .limit

/-- `p.SingleRun d r n s e`: from the stack `s` on `n` actions apply one after the other, and then
none, which leaves the stack `e`. -/
inductive SingleRun (p : Parser) (d : Document) (r : Span) : Nat → Stack → Stack → Prop
  | stop {s e : Stack} : p.singleStep d r s = .ok (false, e) → SingleRun p d r 0 s e
  | step {n : Nat} {s s' e : Stack} : p.singleStep d r s = .ok (true, s') →
      SingleRun p d r n s' e → SingleRun p d r (n + 1) s e

/-- The run of a single stack within a number of steps: how many actions applied, and the stack
that it leaves. -/
def singleRunF (p : Parser) (d : Document) (r : Span) : Nat → Stack → Option (Nat × Stack)
  | 0, _ => none
  | fuel + 1, s =>
      match p.singleStep d r s with
      | .error _ => none
      | .ok (false, e) => some (0, e)
      | .ok (true, s') => (singleRunF p d r fuel s').map fun x => (x.1 + 1, x.2)

theorem singleRun_of_runF {p : Parser} {d : Document} {r : Span} {fuel : Nat} {s : Stack}
    {x : Nat × Stack} (h : p.singleRunF d r fuel s = some x) : p.SingleRun d r x.1 s x.2 := by
  induction fuel generalizing s x with
  | zero => cases h
  | succ fuel ih =>
      rw [singleRunF] at h
      split at h
      · cases h
      · obtain rfl := Option.some.inj h
        exact .stop ‹_›
      · obtain ⟨y, hy, rfl⟩ := Option.map_eq_some_iff.1 h
        exact .step ‹_› (ih hy)

/-- Whether a stack has come to the end of the range in a state in which a parse may end. -/
def accepts (p : Parser) (r : Span) (s : Stack) : Bool :=
  s.pos = r.stop && (p.tables.row s.state).isAccepting

/-- What the end of a run says about the document: the tree of an accepted stack, or what the
builder objects to in its records; otherwise there is no parse past the end of the run. -/
def verdict (p : Parser) (r : Span) (epoch : Nat) (e : Stack) : Except Failure Tree :=
  if p.accepts r e then
    match Tree.buildFrom (Parse.planFor p #[] r.start e.pos) (e.close p).reader with
    | .ok t => .ok (t.stampAll epoch)
    | .error err => .error (.error err)
  else .error (.error (.noParse e.pos))

/-! ### Tokens -/

section Tokens

variable {p : Parser} {d : Document} {r : Span} {s : Stack}

/-- Keywords give no further terms. -/
theorem specialization_ne_extend {rules : List Specializer}
    (h : ∀ x ∈ rules, ∃ (term : Nat) (words : List (String × Nat)),
      x = Specializer.ofKeywords term (words.map fun w => (w.1, .specialize w.2)))
    (text : String) (v : StackView) (lines : List String) (term : Nat) :
    (Parse.specialization p text v rules lines).1 ≠ some (.extend term) := by
  induction rules generalizing lines with
  | nil => simp [Parse.specialization]
  | cons x rest ih =>
      have hrest := fun x hx => h x (List.mem_cons_of_mem _ hx)
      obtain ⟨term', words, rfl⟩ := h x List.mem_cons_self
      unfold Parse.specialization
      dsimp only [Specializer.ofKeywords]
      split
      · rename_i found hfound
        split
        · intro heq
          obtain rfl := Option.some.inj heq
          have hmem := Keyed.mem_of_get?_ofList _ hfound
          simp at hmem
        · exact ih hrest _
      · exact ih hrest _

theorem extended_completed (hp : p.IsDeterministic) {t : Token} (ht : t.extended = none) :
    (p.completed d r s t).extended = none := by
  unfold completed
  split
  · rename_i term _
    have hrules := fun x (hx : x ∈ p.rulesFor term) => hp.keywords x (List.mem_filter.1 hx).1
    unfold Parse.specialized
    split
    · exact ht
    · rename_i further hfurther
      exact absurd hfurther (specialization_ne_extend hrules _ _ _ _)
    · exact ht
  · exact ht

theorem extended_tokenAt (hd : d.HandsOut) (hp : p.IsDeterministic) {t : Tokenizer}
    (ht : t ∈ p.tokenizers) (hpos : s.pos ≤ r.stop) {token : Token}
    (h : p.tokenAt d r s t = .ok token) : token.extended = none := by
  obtain ⟨own, ⟨-, hextended, -⟩, rfl⟩ := exists_of_tokenAt hd hp.isTabular ht hpos h
  exact extended_completed hp hextended

/-- A token that is no error ends between its start and the end of the range. -/
theorem stop_tokenAt (hd : d.HandsOut) (hp : p.IsTabular) {t : Tokenizer} (ht : t ∈ p.tokenizers)
    (hpos : s.pos ≤ r.stop) {token : Token} (h : p.tokenAt d r s t = .ok token)
    (hne : token.value.getD errorTerm ≠ errorTerm) : s.pos ≤ token.stop ∧ token.stop ≤ r.stop := by
  obtain ⟨own, ⟨-, -, hbounds⟩, rfl⟩ := exists_of_tokenAt hd hp ht hpos h
  unfold completed at hne ⊢
  cases hvalue : own.value with
  | none => simp [hvalue] at hne
  | some term =>
      simp only [Parse.stop_specialized]
      exact hbounds (by rw [hvalue]; rfl)

/-- The first token is one that a tokenizer reads, and no error. -/
theorem firstToken_mem {mask far : Nat} {asked : List (Tokenizer × Nat)} {token : Token}
    {far' : Nat} (h : p.firstToken d r s mask asked far = .ok (some token, far')) :
    (∃ a ∈ asked, p.tokenAt d r s a.1 = .ok token) ∧ token.value.getD errorTerm ≠ errorTerm := by
  induction asked generalizing far with
  | nil => cases h
  | cons a rest ih =>
      obtain ⟨t, i⟩ := a
      have hlater : ∀ {far}, p.firstToken d r s mask rest far = .ok (some token, far') →
          (∃ a ∈ (t, i) :: rest, p.tokenAt d r s a.1 = .ok token) ∧
            token.value.getD errorTerm ≠ errorTerm := by
        intro far h
        obtain ⟨⟨a, ha, heq⟩, hne⟩ := ih h
        exact ⟨⟨a, List.mem_cons_of_mem _ ha, heq⟩, hne⟩
      rw [firstToken] at h
      split at h
      · split at h
        · cases h
        · dsimp only at h
          split at h
          · exact hlater h
          · rename_i hread hne
            obtain ⟨heq, -⟩ := Prod.mk.inj (Except.ok.inj h)
            obtain rfl := Option.some.inj heq
            exact ⟨⟨(t, i), List.mem_cons_self, hread⟩, hne⟩
      · exact hlater h

/-- Once a token was found no more groups are asked. -/
theorem gathered_of_main (hp : p.IsTabular) {mask context : Nat} {asked : List (Tokenizer × Nat)}
    (hasked : ∀ a ∈ asked, a.1 ∈ p.tokenizers) {g : Parse.Gathered} (hmain : g.main.isSome = true) :
    p.gathered d r s mask context asked g = .ok g := by
  induction asked with
  | nil => rfl
  | cons a rest ih =>
      obtain ⟨t, i⟩ := a
      obtain ⟨group, rfl⟩ := hp.groups t (hasked _ List.mem_cons_self)
      rw [gathered, if_pos (by simp [hmain, Tokenizer.ofGroup])]
      exact ih fun a ha => hasked a (List.mem_cons_of_mem _ ha)

/-- What is gathered for the first token: the actions for it, if its state's lists end. -/
def gatheredFor (p : Parser) (s : Stack) (mask context : Nat) (found : Option Token × Nat) :
    Except Failure Parse.Gathered :=
  match found.1 with
  | none => .ok { lookAhead := found.2 }
  | some t =>
      if p.tables.listsEnd s.state then
        .ok { actions := collectActions p.tables s.state (t.value.getD errorTerm) t.stop [],
              main := some (t.keptFor mask context), lookAhead := found.2 }
      else .error .limit

/-- A kept token raises the look-ahead like the one that was read. -/
theorem look_keptFor (token : Token) (mask context far : Nat) :
    ({ lookAhead := far } : Parse.Gathered).look (token.keptFor mask context) =
      { lookAhead := if token.stop + lookAheadMargin < token.lookAhead
          then max far token.lookAhead else far } := by
  unfold Parse.Gathered.look Token.keptFor
  dsimp only
  split <;> rfl

/-- What is gathered is the first token with the actions for it. -/
theorem gathered_firstToken (hd : d.HandsOut) (hp : p.IsDeterministic) (hpos : s.pos ≤ r.stop)
    (mask context : Nat) (asked : List (Tokenizer × Nat))
    (hasked : ∀ a ∈ asked, a.1 ∈ p.tokenizers) (far : Nat) :
    p.gathered d r s mask context asked { lookAhead := far } =
      (p.firstToken d r s mask asked far).bind (p.gatheredFor s mask context) := by
  induction asked generalizing far with
  | nil => rfl
  | cons a rest ih =>
      obtain ⟨t, i⟩ := a
      have ht := hasked _ List.mem_cons_self
      have hrest : ∀ a ∈ rest, a.1 ∈ p.tokenizers := fun a ha =>
        hasked a (List.mem_cons_of_mem _ ha)
      have hextend : t.extend = false := by
        obtain ⟨g, rfl⟩ := hp.groups t ht
        rfl
      rw [gathered, firstToken]
      by_cases hmask : (decide (i < 32) && mask.testBit i) = true
      · simp only [hmask, if_true, Bool.not_true, Option.isSome_none, Bool.false_and, Bool.or_false,
          Bool.false_eq_true, if_false]
        cases hread : p.tokenAt d r s t with
        | error e => rfl
        | ok token =>
            have hfurther := extended_tokenAt hd hp ht hpos hread
            have hvalue : (token.keptFor mask context).value = token.value := rfl
            dsimp only
            rw [look_keptFor, hextend, hvalue]
            generalize (if token.stop + lookAheadMargin < token.lookAhead
              then max far token.lookAhead else far) = far'
            by_cases hterm : token.value.getD errorTerm = errorTerm
            · simp only [hterm, if_true]
              exact ih hrest far'
            · have hnone : collectFurther p.tables s.state (token.keptFor mask context) [] = [] := by
                unfold collectFurther Token.keptFor
                dsimp only
                rw [hfurther]
              simp only [hterm, if_false, hnone]
              dsimp only [Except.bind, gatheredFor]
              refine if_congr Iff.rfl ?_ rfl
              simp only [Bool.false_eq_true, if_false]
              split
              · rfl
              · exact gathered_of_main hp.isTabular hrest rfl
      · simp only [hmask, Bool.not_false, Bool.true_or, if_true]
        exact ih hrest far

/-- What a single step does for a token: there is one action at most, which is done. -/
theorem actions_of_singleStep (hp : p.IsDeterministic) (t : Nat × Nat) (raised : Stack)
    {x : Bool × Stack}
    (h : (match (collectActions p.tables s.state t.1 t.2 []).head? with
      | some a => Except.ok (true, (raised.apply p a.word a.term s.pos a.stop (bareEnv d r)).1)
      | none => .ok (false, raised)) = (.ok x : Except Failure (Bool × Stack))) :
    collectActions p.tables s.state t.1 t.2 [] = [] ∧ x = (false, raised) ∨
      ∃ a, collectActions p.tables s.state t.1 t.2 [] = [a] ∧
        x = (true, (raised.apply p a.word a.term s.pos a.stop (bareEnv d r)).1) := by
  have hsingle := hp.single s.state t.1 t.2
  generalize collectActions p.tables s.state t.1 t.2 [] = actions at h hsingle ⊢
  match actions, hsingle with
  | [], _ => exact Or.inl ⟨rfl, (Except.ok.inj h).symm⟩
  | [a], _ => exact Or.inr ⟨a, rfl, (Except.ok.inj h).symm⟩

/-- **A stack is offered the action for the token at its position**, which starts there: where a
single step comes to an end without a default reduction, its stack is offered what the step does. -/
theorem offers_of_singleStep (hd : d.HandsOut) (hp : p.IsDeterministic) (hpos : s.pos ≤ r.stop)
    (hdefault : ¬ 0 < (p.tables.row s.state).defaultReduce) {x : Bool × Stack}
    (h : p.singleStep d r s = .ok x) :
    ∃ offer, p.offers d r s = .ok offer ∧ (∀ t, offer.main = some t → t.start = some s.pos) ∧
      (offer.actions = [] ∧ x = (false, offer.stack) ∨
        ∃ a, offer.actions = [a] ∧
          x = (true, (offer.stack.apply p a.word a.term s.pos a.stop (bareEnv d r)).1)) := by
  have hasked : ∀ a ∈ p.tokenizers.toList.zipIdx, a.1 ∈ p.tokenizers := fun a ha =>
    Array.mem_toList_iff.1 (List.fst_mem_of_mem_zipIdx ha)
  have hgathered := gathered_firstToken (d := d) (r := r) hd hp hpos
    (p.tables.row s.state).tokenizerMask ((s.context.map (·.hash)).getD 0)
    p.tokenizers.toList.zipIdx hasked 0
  unfold singleStep seen at h
  unfold offers
  dsimp only at h ⊢
  rw [if_neg hdefault] at h
  rw [hgathered]
  cases hfirst : p.firstToken d r s (p.tables.row s.state).tokenizerMask
      p.tokenizers.toList.zipIdx 0 with
  | error e =>
      rw [hfirst] at h
      cases h
  | ok found =>
      obtain ⟨token, far⟩ := found
      rw [hfirst] at h
      have hraised : (if 0 < far then s.raiseLookAhead far else s).pos = s.pos ∧
          (if 0 < far then s.raiseLookAhead far else s).state = s.state := by
        split <;> simp
      cases token with
      | some t =>
          dsimp only [Except.map, Except.bind, gatheredFor] at h ⊢
          cases hlists : p.tables.listsEnd s.state with
          | false =>
              rw [hlists] at h
              cases h
          | true =>
              rw [hlists, if_pos rfl] at h
              refine ⟨_, rfl, ?_, actions_of_singleStep hp (t.value.getD errorTerm, t.stop) _ h⟩
              rintro _ ht
              obtain ⟨⟨a, ha, hread⟩, -⟩ := firstToken_mem hfirst
              rw [← Option.some.inj ht]
              change t.start = some s.pos
              exact start_tokenAt hd hp.isTabular (hasked a ha) hpos hread
      | none =>
          dsimp only [Except.map, Except.bind, gatheredFor, offerFor] at h ⊢
          generalize (if 0 < far then s.raiseLookAhead far else s) = raised at h hraised ⊢
          obtain ⟨hpos', hstate⟩ := hraised
          rw [hpos', hstate]
          by_cases hend : s.pos = r.stop
          · simp only [hend, if_true, Option.isNone_none, decide_true, Bool.and_true] at h ⊢
            cases hlists : p.tables.listsEnd s.state with
            | false =>
                rw [hlists] at h
                cases h
            | true =>
                rw [hlists, if_pos rfl] at h
                rw [← hend] at h ⊢
                refine ⟨_, rfl, ?_, actions_of_singleStep hp (p.eofTerm, s.pos) raised h⟩
                rintro _ ht
                obtain rfl := Option.some.inj ht
                rfl
          · simp only [hend, if_false, Option.isNone_none, decide_false, Bool.and_false,
              Bool.false_eq_true] at h ⊢
            refine ⟨_, rfl, fun t ht => (by cases ht), Or.inl ⟨rfl, (Except.ok.inj h).symm⟩⟩

end Tokens

end Parser

/-! ### What actions do -/

namespace Stack

section Apply

variable {p : Parser} {env : Env}

/-- Of what the stacks share a reduction reads the start only, and counts itself if it is big. -/
theorem reduce_shared (htracker : p.tracker = none) (word : Nat) (s : Stack) (env env' : Env)
    (hstart : env.start = env'.start) :
    (s.reduce p word env).1 = (s.reduce p word env').1 ∧
      ∃ watch : RunawayWatch, (s.reduce p word env).2 = { env with watch } ∧
        watch.count ≤ env.watch.count + 1 := by
  have hcount : ∀ start size, (env.watch.add start size).count ≤ env.watch.count + 1 := by
    intro start size
    unfold RunawayWatch.add
    split
    · exact Nat.le_refl _
    · split
      · exact Nat.le_add_left 1 _
      · exact Nat.le_succ _
  unfold reduce
  dsimp only
  generalize s.beginReduce p (ActionWord.value word) = s
  split
  · unfold reduceEmpty
    simp only [changeContext_of_none htracker]
    exact ⟨trivial, env.watch, rfl, Nat.le_succ _⟩
  · unfold reduceSome
    refine ⟨by simp only [changeContext_of_none htracker, hstart], ?_⟩
    simp only [changeContext_of_none htracker]
    split
    · exact ⟨_, rfl, hcount _ _⟩
    · exact ⟨env.watch, rfl, Nat.le_succ _⟩

theorem shift_shared (htracker : p.tracker = none) (word term start stop : Nat) (s : Stack)
    (env env' : Env) :
    (s.shift p word term start stop env).1 = (s.shift p word term start stop env').1 ∧
      (s.shift p word term start stop env).2 = env := by
  unfold shift
  simp only [changeContext_of_none htracker]
  split
  · exact ⟨rfl, rfl⟩
  · split <;> exact ⟨rfl, rfl⟩

theorem apply_shared (htracker : p.tracker = none) (word term start stop : Nat) (s : Stack)
    (env env' : Env) (hstart : env.start = env'.start) :
    (s.apply p word term start stop env).1 = (s.apply p word term start stop env').1 ∧
      ∃ watch : RunawayWatch, (s.apply p word term start stop env).2 = { env with watch } ∧
        watch.count ≤ env.watch.count + 1 := by
  unfold apply
  split
  · exact reduce_shared htracker word s env env' hstart
  · obtain ⟨heq, henv⟩ := shift_shared htracker word term start stop s env env'
    exact ⟨heq, env.watch, henv, Nat.le_succ _⟩

/-- A reduction leaves at most one frame more. -/
theorem size_frames_reduce (p : Parser) (word : Nat) (s : Stack) (env : Env) :
    (s.reduce p word env).1.frames.size ≤ s.frames.size + 1 := by
  unfold reduce
  dsimp only
  rw [← frames_beginReduce p (ActionWord.value word) s]
  generalize s.beginReduce p (ActionWord.value word) = s
  split
  · unfold reduceEmpty
    dsimp only
    rw [frames_changeContext]
    split <;> simp [pushState]
  · unfold reduceSome
    dsimp only
    rw [frames_changeContext]
    simp only [Pile.size_drop]
    omega

theorem size_frames_shift (p : Parser) (word term start stop : Nat) (s : Stack) (env : Env) :
    (s.shift p word term start stop env).1.frames.size ≤ s.frames.size + 1 := by
  have hrecord : ∀ s : Stack, (s.recordToken p term start stop).frames = s.frames := by
    intro s
    unfold recordToken
    split <;> rfl
  unfold shift
  split
  · simp [pushState]
  · split
    · dsimp only
      rw [hrecord, frames_changeContext]
      exact Nat.le_succ _
    · dsimp only
      rw [hrecord, frames_changeContext]
      split
      · split <;> simp [pushState]
      · simp [pushState]

end Apply

end Stack

/-! ### Steps of a single stack -/

namespace Parser

variable {p : Parser} {d : Document} {r : Span} {s : Stack}

/-- The token at a position ends between there and the end of the range, and seeing it does not move
the stack. -/
theorem seen_bounds (hd : d.HandsOut) (hp : p.IsDeterministic) (hpos : s.pos ≤ r.stop)
    {token : Option (Nat × Nat)} {s' : Stack} (h : p.seen d r s = .ok (token, s')) :
    (∀ t, token = some t → s.pos ≤ t.2 ∧ t.2 ≤ r.stop) ∧ s'.pos = s.pos ∧
      s'.frames = s.frames := by
  unfold seen at h
  cases hfirst : p.firstToken d r s (p.tables.row s.state).tokenizerMask
      p.tokenizers.toList.zipIdx 0 with
  | error e =>
      rw [hfirst] at h
      cases h
  | ok found =>
      rw [hfirst] at h
      obtain ⟨rfl, rfl⟩ := Prod.mk.inj (Except.ok.inj h)
      refine ⟨?_, ?_, ?_⟩
      · intro t ht
        split at ht
        · rename_i token hfound
          obtain rfl := Option.some.inj ht
          obtain ⟨⟨a, ha, hread⟩, hne⟩ := firstToken_mem (hfirst.trans (by rw [← hfound]))
          have hmem : a.1 ∈ p.tokenizers := Array.mem_toList_iff.1 (List.fst_mem_of_mem_zipIdx ha)
          exact stop_tokenAt hd hp.isTabular hmem hpos hread hne
        · split at ht
          · obtain rfl := Option.some.inj ht
            exact ⟨Nat.le_refl _, hpos⟩
          · cases ht
      · split <;> simp
      · split
        · obtain ⟨own, lookAhead, heq⟩ := s.raiseLookAhead_eq found.2
          rw [heq]
        · rfl

/-- A step stays inside of the range and adds at most one frame. -/
theorem singleStep_bounds (hd : d.HandsOut) (hp : p.IsDeterministic) (hpos : s.pos ≤ r.stop)
    {moved : Bool} {s' : Stack} (h : p.singleStep d r s = .ok (moved, s')) :
    s.pos ≤ s'.pos ∧ s'.pos ≤ r.stop ∧ s'.frames.size ≤ s.frames.size + 1 ∧
      (moved = false → s'.pos = s.pos) := by
  unfold singleStep at h
  dsimp only at h
  split at h
  · obtain ⟨rfl, rfl⟩ := Prod.mk.inj (Except.ok.inj h)
    rw [Stack.pos_reduce]
    exact ⟨Nat.le_refl _, hpos, Stack.size_frames_reduce .., fun h => by cases h⟩
  · split at h
    · cases h
    · rename_i s₁ hseen
      obtain ⟨rfl, rfl⟩ := Prod.mk.inj (Except.ok.inj h)
      obtain ⟨-, hat, hframes⟩ := seen_bounds hd hp hpos hseen
      rw [hat, hframes]
      exact ⟨Nat.le_refl _, hpos, Nat.le_succ _, fun _ => rfl⟩
    · rename_i t s₁ hseen
      obtain ⟨hstop, hat, hframes⟩ := seen_bounds hd hp hpos hseen
      obtain ⟨h₁, h₂⟩ := hstop t rfl
      split at h
      · split at h
        · rename_i a hhead
          obtain ⟨rfl, rfl⟩ := Prod.mk.inj (Except.ok.inj h)
          have hstop' : a.stop = t.2 := by
            rcases Parse.mem_collectActions (List.mem_of_head? hhead) with hnil | ⟨heq, -⟩
            · cases hnil
            · exact heq
          rw [← hframes]
          unfold Stack.apply
          split
          · rw [Stack.pos_reduce, hat]
            exact ⟨Nat.le_refl _, hpos, Stack.size_frames_reduce .., fun h => by cases h⟩
          · have hpos' := Stack.pos_shift p a.word a.term s.pos a.stop s₁ (bareEnv d r)
            exact ⟨by omega, by omega, Stack.size_frames_shift .., fun h => by cases h⟩
        · obtain ⟨rfl, rfl⟩ := Prod.mk.inj (Except.ok.inj h)
          rw [hat, hframes]
          exact ⟨Nat.le_refl _, hpos, Nat.le_succ _, fun _ => rfl⟩
      · cases h

end Parser

/-! ### Error nodes -/

theorem Record.isError_eq_false {term : Nat} (h : term ≠ errorTerm) (a b size : Int) :
    Record.isError ⟨term, a, b, size⟩ = false := by
  simpa [Record.isError, errorTerm] using h

namespace Stack

/-- No record is an error node. -/
def HasNoErrors (s : Stack) : Prop := ∀ x ∈ s.records, x.isNode = true → x.isError = false

namespace HasNoErrors

variable {p : Parser} {s : Stack}

/-- Nothing but the records matters. -/
theorem congr {s' : Stack} (h : s.HasNoErrors) (heq : s'.records = s.records) : s'.HasNoErrors :=
  fun x hx => h x (heq ▸ hx)

theorem push (h : s.HasNoErrors) {x : Record} (hx : x.isNode = true → x.isError = false) :
    (s.pushRecord x).HasNoErrors := by
  intro y hy
  simp only [records, pushRecord, Pile.items_push, List.cons_append, List.mem_cons] at hy
  rcases hy with rfl | hy
  · exact hx
  · exact h y hy

theorem markLookAhead (h : s.HasNoErrors) : s.markLookAhead.HasNoErrors := by
  unfold Stack.markLookAhead mark
  split
  · exact h
  · exact h.push fun hnode => by simp [Record.isNode, Record.lookAheadSize] at hnode

theorem raiseLookAhead (h : s.HasNoErrors) (pos : Nat) : (s.raiseLookAhead pos).HasNoErrors := by
  unfold Stack.raiseLookAhead
  split
  · exact h.markLookAhead
  · exact h

/-- A node that is no error may be stored, wherever it sinks to. -/
theorem addNode (h : s.HasNoErrors) {term : Nat} (hterm : term ≠ errorTerm)
    (start stop size : Nat) (sink : Bool) :
    (s.addNode term start stop size sink).HasNoErrors := by
  rw [addNode_of_ne hterm]
  unfold appendNode
  split
  · exact h.push fun _ => Record.isError_eq_false hterm ..
  · intro x hx
    simp only [records, List.mem_append, sinkInto] at hx
    rcases hx with hx | hx
    · split at hx
      · rcases List.mem_append.1 hx with hx | hx
        · exact h x (List.mem_append_left _ ((List.takeWhile_sublist _).mem hx))
        · rcases List.mem_cons.1 hx with rfl | hx
          · exact fun _ => Record.isError_eq_false hterm ..
          · exact h x (List.mem_append_left _ ((List.dropWhile_sublist _).mem hx))
      · rcases List.mem_cons.1 hx with rfl | hx
        · exact fun _ => Record.isError_eq_false hterm ..
        · exact h x (List.mem_append_left _ hx)
    · exact h x (List.mem_append_right _ hx)

/-- A reduction to a term that is not that of errors. -/
theorem reduce (h : s.HasNoErrors) (htracker : p.tracker = none) {word : Nat}
    (hterm : ActionWord.value word ≠ errorTerm) (env : Env) :
    (s.reduce p word env).1.HasNoErrors := by
  have hbegin : (s.beginReduce p (ActionWord.value word)).HasNoErrors := by
    unfold beginReduce
    dsimp only
    split
    · exact h.raiseLookAhead s.pos
    · exact h
  unfold Stack.reduce
  dsimp only
  generalize s.beginReduce p (ActionWord.value word) = s at hbegin ⊢
  split
  · have hpushed : (s.pushState (p.gotoState s.state (ActionWord.value word))
        s.reducePos).HasNoErrors := hbegin.congr rfl
    unfold reduceEmpty
    simp only [changeContext_of_none htracker]
    split
    · exact hpushed.addNode hterm _ _ _ _
    · exact hpushed
  · unfold reduceSome
    simp only [changeContext_of_none htracker]
    split
    · exact (hbegin.addNode hterm _ _ _ _).congr rfl
    · exact hbegin.congr rfl

theorem recordToken (h : s.HasNoErrors) {term : Nat} (hterm : term ≠ errorTerm)
    (start stop : Nat) : (s.recordToken p term start stop).HasNoErrors := by
  unfold Stack.recordToken
  split
  · exact h.push fun _ => Record.isError_eq_false hterm ..
  · exact h

theorem shift (h : s.HasNoErrors) (htracker : p.tracker = none) {term : Nat}
    (hterm : term ≠ errorTerm) (word start stop : Nat) (env : Env) :
    (s.shift p word term start stop env).1.HasNoErrors := by
  have hmoved : ∀ pos reducePos, { s with pos, reducePos }.HasNoErrors :=
    fun _ _ => h.congr rfl
  have hpushed : ∀ s' : Stack, s'.HasNoErrors → (s'.pushState word start).HasNoErrors :=
    fun _ h' => h'.congr rfl
  unfold Stack.shift
  simp only [changeContext_of_none htracker]
  split
  · exact h.congr rfl
  · split
    · exact (hmoved stop s.reducePos).recordToken hterm start stop
    · refine (hpushed _ ?_).recordToken hterm start stop
      split
      · split
        · exact hmoved stop s.reducePos
        · exact hmoved stop stop
      · exact h

theorem close (h : s.HasNoErrors) (htracker : p.tracker = none) : (s.close p).HasNoErrors := by
  unfold Stack.close
  simp only [htracker, Option.any_none, Bool.false_eq_true, if_false]
  split
  · exact h.markLookAhead
  · exact h

end HasNoErrors

end Stack

namespace Parser

variable {p : Parser} {d : Document} {r : Span} {s e : Stack} {n : Nat}

/-- A token that is seen is no error. -/
theorem seen_ne_error {t : Nat × Nat} {s' : Stack} (h : p.seen d r s = .ok (some t, s')) :
    t.1 ≠ errorTerm := by
  unfold seen at h
  cases hfirst : p.firstToken d r s (p.tables.row s.state).tokenizerMask
      p.tokenizers.toList.zipIdx 0 with
  | error e =>
      rw [hfirst] at h
      cases h
  | ok found =>
      rw [hfirst] at h
      obtain ⟨ht, -⟩ := Prod.mk.inj (Except.ok.inj h)
      split at ht
      · rename_i token hfound
        obtain rfl := Option.some.inj ht
        exact (firstToken_mem (hfirst.trans (by rw [← hfound]))).2
      · split at ht
        · obtain rfl := Option.some.inj ht
          exact Nat.succ_ne_zero _
        · cases ht

theorem hasNoErrors_seen {token : Option (Nat × Nat)} {s' : Stack}
    (hseen : p.seen d r s = .ok (token, s')) (h : s.HasNoErrors) : s'.HasNoErrors := by
  unfold seen at hseen
  cases hfirst : p.firstToken d r s (p.tables.row s.state).tokenizerMask
      p.tokenizers.toList.zipIdx 0 with
  | error e =>
      rw [hfirst] at hseen
      cases hseen
  | ok found =>
      rw [hfirst] at hseen
      obtain ⟨-, rfl⟩ := Prod.mk.inj (Except.ok.inj hseen)
      split
      · exact h.raiseLookAhead _
      · exact h

/-- Where no reduction makes an error node, no step does. -/
theorem hasNoErrors_singleStep (hp : p.IsDeterministic)
    (hclean : ∀ state word, p.tables.Reduces state word → ActionWord.value word ≠ errorTerm)
    {moved : Bool} {s' : Stack} (hstep : p.singleStep d r s = .ok (moved, s'))
    (h : s.HasNoErrors) : s'.HasNoErrors := by
  unfold singleStep at hstep
  dsimp only at hstep
  split at hstep
  · rename_i hdefault
    obtain ⟨-, rfl⟩ := Prod.mk.inj (Except.ok.inj hstep)
    exact h.reduce hp.tracker (hclean s.state _ (Or.inl ⟨hdefault, rfl⟩)) _
  · split at hstep
    · cases hstep
    · rename_i s₁ hseen
      obtain ⟨-, rfl⟩ := Prod.mk.inj (Except.ok.inj hstep)
      exact hasNoErrors_seen hseen h
    · rename_i t s₁ hseen
      have hs₁ := hasNoErrors_seen hseen h
      split at hstep
      · split at hstep
        · rename_i a hhead
          obtain ⟨-, rfl⟩ := Prod.mk.inj (Except.ok.inj hstep)
          rcases Parse.mem_collectActions (List.mem_of_head? hhead) with hnil | ⟨-, hterm, hgives⟩
          · cases hnil
          · unfold Stack.apply
            split
            · rename_i hreduce
              exact hs₁.reduce hp.tracker (hclean s.state _ (Or.inr ⟨hreduce, _, hgives⟩)) _
            · exact hs₁.shift hp.tracker (hterm ▸ seen_ne_error hseen) _ _ _ _
        · obtain ⟨-, rfl⟩ := Prod.mk.inj (Except.ok.inj hstep)
          exact hs₁
      · cases hstep

/-- A run leaves no error node behind, unless a reduction of the tables makes one. -/
theorem SingleRun.hasNoErrors (hp : p.IsDeterministic)
    (hclean : ∀ state word, p.tables.Reduces state word → ActionWord.value word ≠ errorTerm)
    (hrun : p.SingleRun d r n s e) (h : s.HasNoErrors) : e.HasNoErrors := by
  induction hrun with
  | stop hstuck => exact hasNoErrors_singleStep hp hclean hstuck h
  | step hmoves hrun ih => exact ih (hasNoErrors_singleStep hp hclean hmoves h)

end Parser

end IncrementalLR
