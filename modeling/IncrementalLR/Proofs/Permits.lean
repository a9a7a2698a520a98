/-
**Tokens of refused terms are never kept.**

A term may get into a token at three places: a tokenizer accepts it, a specializer puts it in the
place of the accepted one, or a specializer adds it.  Afterwards the token is kept, and taken again
for other stacks.  The automaton looks at the dialect before it accepts a term, and so does the loop
over the specializers for either kind of answer.  So no token that is kept ever has a refused term,
and none is offered to a stack, whether the steps of the parse succeed or fail.

Main definitions:

* `ParseM.Keeps` — steps that keep an invariant of the parse also when they fail;
* `Scan.AcceptsOnly` — tokenizers that accept certain terms only;
* `Parser.Permits`, `Parser.ReadsOnly` — the terms that tokens may have, and tokenizers that accept
  certain terms only;
* `TokenMemo.Within`, `Parse.Obeys` — parses that keep tokens of certain terms only.

Main results:

* `Scan.acceptsOnly_scan` — the token automaton accepts what the dialect allows;
* `Parse.readToken_within` — what is read, with its specialization;
* `Parse.actionsFor_within` — **stacks are offered permitted terms only**.
-/

import IncrementalLR.Proofs.TokenRuns
import IncrementalLR.Proofs.Tokens

set_option relaxedAutoImplicit false
set_option autoImplicit false

namespace IncrementalLR

/-! ### What is kept also on failure -/

namespace ParseM

/-- A step keeps an invariant of the parse, whether it succeeds or fails, and ensures `Q` of its
value. -/
def Keeps {α : Type} (I : Parse → Prop) (m : ParseM α) (q : Parse) (Q : α → Prop) : Prop :=
  match m.run q with
  | (.ok a, q') => I q' ∧ Q a
  | (.error _, q') => I q'

variable {α β : Type} {I : Parse → Prop} {q : Parse}

/-- A step that is followed by another one. -/
theorem Keeps.bind {m : ParseM α} {f : α → ParseM β} {P : α → Prop} {Q : β → Prop}
    (h : Keeps I m q P) (hf : ∀ a q', I q' → P a → Keeps I (f a) q' Q) :
    Keeps I (m >>= f) q Q := by
  have key : (m >>= f).run q = ExceptT.bindCont f (m.run q).1 (m.run q).2 := rfl
  rw [Keeps] at h
  rw [Keeps, key]
  generalize m.run q = outcome at h ⊢
  rcases outcome with ⟨e | a, q'⟩
  · exact h
  · exact hf a q' h.1 h.2

theorem keeps_pure {a : α} {Q : α → Prop} (hI : I q) (ha : Q a) : Keeps I (pure a) q Q := ⟨hI, ha⟩

theorem keeps_get {f : Parse → ParseM β} {Q : β → Prop} :
    Keeps I (get >>= f) q Q ↔ Keeps I (f q) q Q := Iff.rfl

theorem keeps_set {q' : Parse} {f : PUnit → ParseM β} {Q : β → Prop} :
    Keeps I (set q' >>= f) q Q ↔ Keeps I (f ⟨⟩) q' Q := Iff.rfl

theorem keeps_modify {g : Parse → Parse} {f : PUnit → ParseM β} {Q : β → Prop} :
    Keeps I (modify g >>= f) q Q ↔ Keeps I (f ⟨⟩) (g q) Q := Iff.rfl

theorem keeps_ofParser {f : Parser → ParseM β} {Q : β → Prop} :
    Keeps I (parser >>= f) q Q ↔ Keeps I (f q.parser) q Q := Iff.rfl

theorem keeps_throw {e : Failure} {Q : α → Prop} : Keeps I (throw e) q Q ↔ I q := Iff.rfl

theorem keeps_fail {e : ParseError} {Q : α → Prop} : Keeps I (fail e) q Q ↔ I q := Iff.rfl

/-- Going on behind a loop that ends. -/
theorem keeps_guardLimit {ends : Bool} {f : PUnit → ParseM β} {Q : β → Prop} (hI : I q)
    (hf : ends = true → Keeps I (f ⟨⟩) q Q) : Keeps I (guardLimit ends >>= f) q Q := by
  cases ends with
  | true => exact hf rfl
  | false => exact hI

theorem keeps_onEnv {f : Env → α × Env} {Q : α → Prop} :
    Keeps I (onEnv f) q Q ↔ I { q with env := (f q.env).2 } ∧ Q (f q.env).1 := Iff.rfl

/-- Doing something that may run into the limit. -/
theorem keeps_onEnvLimited {f : Env → Option (α × Env)} {Q : α → Prop} (hI : I q)
    (h : ∀ r, f q.env = some r → I { q with env := r.2 } ∧ Q r.1) :
    Keeps I (onEnvLimited f) q Q := by
  rw [onEnvLimited, keeps_get]
  cases hf : f q.env with
  | none => exact hI
  | some r => exact h r hf

/-- A step that depends on a condition. -/
theorem keeps_ite {c : Prop} [Decidable c] {m n : ParseM α} {Q : α → Prop}
    (hm : c → Keeps I m q Q) (hn : ¬ c → Keeps I n q Q) : Keeps I (if c then m else n) q Q := by
  split
  · exact hm ‹_›
  · exact hn ‹_›

end ParseM

/-! ### Terms of tokens -/

/-- The terms that tokens may have: those of errors and of the end, and all that the dialect
allows. -/
def Parser.Permits (p : Parser) (term : Nat) : Prop :=
  term = errorTerm ∨ term = p.eofTerm ∨ p.dialect.allows term = true

/-- Neither the term of a token nor the one added to it is refused. -/
structure Token.Within (ok : Nat → Prop) (t : Token) : Prop where
  value : ∀ term, t.value = some term → ok term
  extended : ∀ term, t.extended = some term → ok term

namespace Token

variable {ok : Nat → Prop} {t t' : Token}

/-- A token without terms. -/
theorem within_of_none (hvalue : t.value = none) (hextended : t.extended = none) :
    t.Within ok := by
  constructor
  · intro term h
    rw [hvalue] at h
    cases h
  · intro term h
    rw [hextended] at h
    cases h

theorem Within.congr (h : t.Within ok) (hvalue : t'.value = t.value)
    (hextended : t'.extended = t.extended) : t'.Within ok := by
  constructor
  · intro term hterm
    exact h.value term (hvalue ▸ hterm)
  · intro term hterm
    exact h.extended term (hextended ▸ hterm)

theorem Within.look (h : t.Within ok) (pos : Nat) : (t.look pos).Within ok := by
  rw [Token.look]
  split
  · exact h.congr rfl rfl
  · exact h

end Token

/-! ### What tokenizers accept -/

namespace Stream

variable {ok : Nat → Prop} {s : Stream}

theorem within_peek (h : s.token.Within ok) (offset : Int) :
    (s.peek offset).2.token.Within ok := by
  rw [peek]
  dsimp only
  split
  · exact h.look _
  · split
    · exact h
    · split <;> exact h.look _

theorem within_advance (h : s.token.Within ok) (n : Nat) : (s.advance n).token.Within ok := by
  rw [advance]
  dsimp only
  split
  · exact h
  · rw [(fetch_eq _).2.2.2.1]
    exact h.look _

theorem within_skipWhile (h : s.token.Within ok) (lo hi : Int) :
    (s.skipWhile lo hi).token.Within ok := by
  rw [skipWhile]
  generalize s.stop - s.pos + 1 = fuel
  induction fuel generalizing s with
  | zero => exact h
  | succ fuel ih =>
      have hon := ih (within_advance h 1)
      rw [skipWhileF]
      split
      · split
        · exact hon
        · exact h
      · split
        · exact hon
        · exact h

theorem within_accept (h : s.token.Within ok) {term : Nat} (hterm : ok term) {offset : Int}
    {s' : Stream} (haccept : s.accept term offset = .ok s') : s'.token.Within ok := by
  rw [accept] at haccept
  dsimp only at haccept
  split at haccept
  · split at haccept
    · obtain rfl := Except.ok.inj haccept
      refine ⟨fun t ht => ?_, h.extended⟩
      exact Option.some.inj ht ▸ hterm
    · cases haccept
  · cases haccept

end Stream

namespace Scan

/-- A scan that accepts certain terms only. -/
def AcceptsOnly (ok : Nat → Prop) : Scan → Prop
  | done => True
  | fail _ => True
  | next k => ∀ b, (k b).AcceptsOnly ok
  | place k => ∀ a b c, (k a b c).AcceptsOnly ok
  | peek _ k => ∀ b, (k b).AcceptsOnly ok
  | advance _ k => k.AcceptsOnly ok
  | skipWhile _ _ k => k.AcceptsOnly ok
  | read _ _ k => ∀ s, (k s).AcceptsOnly ok
  | accept term _ k => ok term ∧ k.AcceptsOnly ok
  | acceptTo term _ k => ok term ∧ k.AcceptsOnly ok
  | write _ k => k.AcceptsOnly ok

theorem AcceptsOnly.mono {ok ok' : Nat → Prop} {scan : Scan} (h : scan.AcceptsOnly ok)
    (hok : ∀ term, ok term → ok' term) : scan.AcceptsOnly ok' := by
  induction scan with
  | done => trivial
  | fail e => trivial
  | next k ih => exact fun b => ih b (h b)
  | place k ih => exact fun a b c => ih a b c (h a b c)
  | peek offset k ih => exact fun b => ih b (h b)
  | advance n k ih => exact ih h
  | skipWhile lo hi k ih => exact ih h
  | read start stop k ih => exact fun s => ih s (h s)
  | accept term offset k ih => exact ⟨hok term h.1, ih h.2⟩
  | acceptTo term stop k ih => exact ⟨hok term h.1, ih h.2⟩
  | write line k ih => exact ih h

/-- Where any term may be accepted, a scan may do what it does. -/
theorem acceptsOnly_of_forall {ok : Nat → Prop} (h : ∀ term, ok term) (scan : Scan) :
    scan.AcceptsOnly ok := by
  induction scan with
  | done => trivial
  | fail e => trivial
  | next k ih => exact fun b => ih b
  | place k ih => exact fun a b c => ih a b c
  | peek offset k ih => exact fun b => ih b
  | advance n k ih => exact ih
  | skipWhile lo hi k ih => exact ih
  | read start stop k ih => exact fun s => ih s
  | accept term offset k ih => exact ⟨h term, ih⟩
  | acceptTo term stop k ih => exact ⟨h term, ih⟩
  | write line k ih => exact ih

/-- What a scan accepts is all that gets into the token. -/
theorem within_run {ok : Nat → Prop} (scan : Scan) (h : scan.AcceptsOnly ok) (s : Stream)
    (lines : List String) (hs : s.token.Within ok) (s' : Stream)
    (hrun : (scan.run s lines).1 = .ok s') : s'.token.Within ok := by
  induction scan generalizing s lines with
  | done =>
      obtain rfl := Except.ok.inj hrun
      exact hs
  | fail e => cases hrun
  | next k ih => exact ih _ (h _) s lines hs hrun
  | place k ih => exact ih _ _ _ (h _ _ _) s lines hs hrun
  | peek offset k ih => exact ih _ (h _) _ lines (Stream.within_peek hs offset) hrun
  | advance n k ih => exact ih h _ lines (Stream.within_advance hs n) hrun
  | skipWhile lo hi k ih => exact ih h _ lines (Stream.within_skipWhile hs lo hi) hrun
  | read start stop k ih => exact ih _ (h _) s lines hs hrun
  | accept term offset k ih =>
      rw [run] at hrun
      cases haccept : s.accept term offset with
      | error e =>
          rw [haccept] at hrun
          cases hrun
      | ok s₁ =>
          rw [haccept] at hrun
          exact ih h.2 s₁ lines (Stream.within_accept hs h.1 haccept) hrun
  | acceptTo term stop k ih =>
      refine ih h.2 (s.acceptTo term stop) lines ⟨fun t ht => ?_, hs.extended⟩ hrun
      exact Option.some.inj ht ▸ h.1
  | write line k ih => exact ih h s (line :: lines) hs hrun

end Scan

namespace Group

theorem allows_of_acceptedTerm {g : Group} {grammar : Grammar} {state term : Nat}
    {current : Option Nat} (h : g.acceptedTerm grammar state current = some term) :
    grammar.dialect.allows term = true := by
  rw [acceptedTerm] at h
  obtain ⟨entry, hentry, rfl⟩ := Option.map_eq_some_iff.1 h
  have hfound := List.find?_some hentry
  simp only [Bool.and_eq_true] at hfound
  exact hfound.1.2

/-- Wherever the automaton goes on. -/
theorem acceptsOnly_follow {ok : Nat → Prop} {g : Group} {grammar : Grammar} {fuel : Nat}
    {current : Option Nat} (state : Nat)
    (h : ∀ target, (scanF g grammar fuel target current).AcceptsOnly ok) :
    (follow g grammar fuel state current).AcceptsOnly ok := by
  intro byte
  cases byte with
  | none =>
      dsimp only
      split
      · exact h _
      · trivial
  | some b =>
      dsimp only
      split
      · exact h _
      · trivial

/-- **The token automaton accepts what the dialect allows.** -/
theorem acceptsOnly_scan (g : Group) (grammar : Grammar) :
    (g.scan grammar).AcceptsOnly fun term => grammar.dialect.allows term = true := by
  have key : ∀ fuel state current, (scanF g grammar fuel state current).AcceptsOnly
      fun term => grammar.dialect.allows term = true := by
    intro fuel
    induction fuel with
    | zero =>
        intro state current
        trivial
    | succ fuel ih =>
        intro state current
        rw [scanF_succ]
        split
        · have hmove := fun current' => acceptsOnly_follow state fun target => ih target current'
          cases haccepted : g.acceptedTerm grammar state current with
          | none => exact hmove _
          | some term => exact ⟨allows_of_acceptedTerm haccepted, hmove _⟩
        · trivial
  intro start pos stop
  exact key _ _ _

end Group

/-! ### Parses -/

/-- The tokenizers of a parser accept certain terms only for it. -/
def Parser.ReadsOnly (p : Parser) (ok : Nat → Prop) : Prop :=
  ∀ t ∈ p.tokenizers, ∀ v : StackView, v.grammar = p.toGrammar → (t.scan v).AcceptsOnly ok

theorem Parser.ReadsOnly.mono {p : Parser} {ok ok' : Nat → Prop} (h : p.ReadsOnly ok)
    (hok : ∀ term, ok term → ok' term) : p.ReadsOnly ok' := fun t ht v hv =>
  (h t ht v hv).mono hok

/-- Groups of the token automaton accept no refused term. -/
theorem Parser.readsOnly_of_groups {p : Parser}
    (h : ∀ t ∈ p.tokenizers, ∃ g, t = Tokenizer.ofGroup g) : p.ReadsOnly p.Permits := by
  intro t ht v hv
  obtain ⟨g, rfl⟩ := h t ht
  have hscan := g.acceptsOnly_scan v.grammar
  rw [hv] at hscan
  change (g.scan v.grammar).AcceptsOnly p.Permits
  rw [hv]
  exact hscan.mono fun term hterm => Or.inr (Or.inr hterm)

/-- No token that is kept has a refused term. -/
structure TokenMemo.Within (ok : Nat → Prop) (m : TokenMemo) : Prop where
  tokens : ∀ t ∈ m.tokens, t.Within ok
  main : ∀ t, m.main = some t → t.Within ok

namespace Parse

/-- A parse with a parser that keeps tokens of certain terms only.  `F` says whether it may have
fragments, and `J` is what is known of its stacks and of its result meanwhile; reading tokens does
not touch them. -/
structure Obeys (p : Parser) (ok : Nat → Prop) (F : Prop)
    (J : List Stack → Option Tree → Prop) (q : Parse) : Prop where
  parser : q.parser = p
  reuse : q.reuse ≠ none → F
  memo : q.memo.Within ok
  rest : J q.live q.result

namespace Obeys

variable {p : Parser} {ok : Nat → Prop} {F : Prop} {J : List Stack → Option Tree → Prop}
  {q : Parse}

/-- What else a parse holds does not matter. -/
theorem congr (h : q.Obeys p ok F J) {q' : Parse} (hparser : q'.parser = q.parser)
    (hreuse : q'.reuse = q.reuse) (hmemo : q'.memo = q.memo) (hlive : q'.live = q.live)
    (hresult : q'.result = q.result) : q'.Obeys p ok F J :=
  ⟨hparser.trans h.parser, hreuse ▸ h.reuse, hmemo ▸ h.memo, hlive ▸ hresult ▸ h.rest⟩

theorem withEnv (h : q.Obeys p ok F J) (env : Env) : Obeys p ok F J { q with env } :=
  h.congr rfl rfl rfl rfl rfl

theorem withMain (h : q.Obeys p ok F J) {main : Option Token}
    (hmain : ∀ t, main = some t → t.Within ok) :
    Obeys p ok F J { q with memo := { q.memo with main } } :=
  ⟨h.parser, h.reuse, ⟨h.memo.tokens, hmain⟩, h.rest⟩

theorem withToken (h : q.Obeys p ok F J) (i : Nat) {t : Token} (ht : t.Within ok) :
    Obeys p ok F J
      { q with memo := { q.memo with tokens := q.memo.tokens.setIfInBounds i t } } := by
  refine ⟨h.parser, h.reuse, ⟨fun u hu => ?_, h.memo.main⟩, h.rest⟩
  rcases Array.mem_or_eq_of_mem_setIfInBounds hu with hu | rfl
  · exact h.memo.tokens u hu
  · exact ht

theorem kept (h : q.Obeys p ok F J) (i : Nat) : (q.memo.tokens.getD i {}).Within ok := by
  rw [Array.getD_eq_getD_getElem?]
  cases ht : q.memo.tokens[i]? with
  | none => exact Token.within_of_none rfl rfl
  | some t => exact h.memo.tokens t (Array.mem_of_getElem? ht)

end Obeys

open ParseM

section Reading

variable {p : Parser} {ok : Nat → Prop} {F : Prop} {J : List Stack → Option Tree → Prop}
  {q : Parse} (hread : p.ReadsOnly ok)
  (hok : ∀ term, p.Permits term → ok term)

/-- A specialization is used only if the dialect allows its term. -/
theorem allows_of_specialization {text : String} {v : StackView} {rules : List Specializer}
    {lines : List String} {sp : Specialization}
    (h : (specialization p text v rules lines).1 = some sp) : p.dialect.allows sp.term = true := by
  induction rules generalizing lines with
  | nil => cases h
  | cons s rest ih =>
      rw [specialization] at h
      split at h
      · split at h
        · rename_i hallowed
          obtain rfl := Option.some.inj h
          exact hallowed
        · exact ih h
      · exact ih h

/-- Specializing replaces or adds a term that is permitted. -/
theorem within_specialized {ok : Nat → Prop} {t : Token} {sp : Option Specialization}
    (ht : t.Within ok) (hsp : ∀ x, sp = some x → ok x.term) : (specialized t sp).Within ok := by
  cases sp with
  | none => exact ht
  | some sp =>
      have hterm := hsp sp rfl
      cases sp with
      | specialize term => exact ⟨fun x hx => Option.some.inj hx ▸ hterm, ht.extended⟩
      | extend term => exact ⟨ht.value, fun x hx => Option.some.inj hx ▸ hterm⟩

include hread hok in
/-- A token that is read anew; a tokenizer that fails leaves no token behind. -/
theorem readToken_within {i : Nat} {t : Tokenizer} (ht : t ∈ p.tokenizers) (s : Stack)
    (hq : q.Obeys p ok F J) :
    Keeps (Obeys p ok F J) (readToken i t s) q fun token => token.Within ok := by
  rw [readToken, keeps_get]
  dsimp only
  have hfresh : ((q.env.stream.reset (q.env.stream.clip s.pos)
      (some (q.memo.tokens.getD i {}))).token).Within ok := by
    rw [Stream.token_reset]
    exact Token.within_of_none rfl rfl
  have hrun := Scan.within_run _
    (hread t ht ⟨q.parser.toGrammar, s, q.env.limit⟩ (by rw [hq.parser])) _ q.env.output hfresh
  generalize (t.scan ⟨q.parser.toGrammar, s, q.env.limit⟩).run _ q.env.output = scanned at hrun ⊢
  obtain ⟨result, lines⟩ := scanned
  cases result with
  | error e =>
      rw [keeps_set, keeps_throw]
      have hcleared := hq.withToken i (t := {}) (Token.within_of_none rfl rfl)
      exact hcleared.congr rfl rfl rfl rfl rfl
  | ok stream =>
      have htoken : stream.token.Within ok := hrun stream rfl
      dsimp only
      split
      · rw [keeps_set]
        refine keeps_pure (hq.withEnv _) (within_specialized htoken fun sp hsp => ?_)
        exact hok _ (Or.inr (Or.inr (hq.parser ▸ allows_of_specialization hsp)))
      · rw [keeps_set]
        refine keeps_pure (hq.withEnv _) ⟨fun term hterm => ?_, htoken.extended⟩
        exact hok _ (Or.inl (Option.some.inj hterm).symm)

include hread hok in
/-- The token of a tokenizer, whether kept or read anew. -/
theorem tokenFor_within {i mask context : Nat} {t : Tokenizer} (ht : t ∈ p.tokenizers) (s : Stack)
    (hq : q.Obeys p ok F J) :
    Keeps (Obeys p ok F J) (tokenFor i t s mask context) q fun token => token.Within ok := by
  rw [tokenFor, keeps_get]
  refine keeps_ite (fun _ => keeps_pure hq (hq.kept i)) fun _ => ?_
  refine (readToken_within hread hok ht s hq).bind fun token q' hq' htoken => ?_
  rw [keeps_modify]
  have hnoted : ({ token with mask, context } : Token).Within ok := htoken.congr rfl rfl
  exact keeps_pure (hq'.withToken i hnoted) hnoted

/-- The actions that are collected for a token are for its terms. -/
theorem permits_collectActions {t : Tables} {state term stop : Nat} {actions : List TokenAction}
    (hterm : ok term) (h : ∀ a ∈ actions, ok a.term) :
    ∀ a ∈ collectActions t state term stop actions, ok a.term := by
  intro a ha
  rcases mem_collectActions ha with ha | ⟨-, heq, -⟩
  · exact h a ha
  · exact heq ▸ hterm

theorem permits_collectFurther {t : Tables} {state : Nat} {token : Token}
    {actions : List TokenAction} (htoken : token.Within ok)
    (h : ∀ a ∈ actions, ok a.term) :
    ∀ a ∈ collectFurther t state token actions, ok a.term := by
  rw [collectFurther]
  split
  · rename_i term hterm
    exact permits_collectActions (htoken.extended term hterm) h
  · exact h

/-- What has been found for a stack is for certain terms only. -/
structure Gathered.Within (ok : Nat → Prop) (f : Gathered) : Prop where
  actions : ∀ a ∈ f.actions, ok a.term
  main : ∀ t, f.main = some t → t.Within ok

include hread hok in
/-- Asking tokenizers one after the other. -/
theorem gather_within {mask context : Nat} (s : Stack) (asked : List (Tokenizer × Nat))
    (hasked : ∀ t ∈ asked, t.1 ∈ p.tokenizers) (hq : q.Obeys p ok F J) (f : Gathered)
    (hf : f.Within ok) :
    Keeps (Obeys p ok F J) (gather s mask context asked f) q (Gathered.Within ok) := by
  induction asked generalizing q f with
  | nil => exact keeps_pure hq hf
  | cons t rest ih =>
      obtain ⟨t, i⟩ := t
      obtain ⟨ht, hrest⟩ := List.forall_mem_cons.1 hasked
      rw [gather]
      refine keeps_ite (fun _ => ih hrest hq f hf) fun _ => ?_
      refine (tokenFor_within hread hok ht s hq).bind fun token q' hq' htoken => ?_
      have hlook : (f.look token).Within ok := by
        rw [Gathered.look]
        split
        · exact ⟨hf.actions, hf.main⟩
        · exact hf
      refine keeps_ite (fun _ => ih hrest hq' _ hlook) fun _ => ?_
      rw [keeps_get]
      have hterm : ok (token.value.getD errorTerm) := by
        cases hvalue : token.value with
        | none => exact hok _ (Or.inl rfl)
        | some term => exact htoken.value term hvalue
      have hactions : ∀ a ∈ collectActions q'.parser.tables s.state (token.value.getD errorTerm)
          token.stop (collectFurther q'.parser.tables s.state token (f.look token).actions),
          ok a.term := permits_collectActions hterm (permits_collectFurther htoken hlook.actions)
      have hmain : ∀ u, some token = some u → u.Within ok := fun u hu =>
        Option.some.inj hu ▸ htoken
      refine keeps_guardLimit hq' fun _ => ?_
      refine keeps_ite (fun _ => ih hrest hq' _ ⟨hactions, hlook.main⟩) fun _ => ?_
      refine keeps_ite (fun _ => keeps_pure hq' ⟨hactions, hmain⟩) fun _ => ?_
      exact ih hrest hq' _ ⟨hactions, hmain⟩

include hread hok in
/-- **Stacks are offered permitted terms only**, and are at most shown how far their tokens
looked. -/
theorem actionsFor_within (s : Stack) (hq : q.Obeys p ok F J) :
    Keeps (Obeys p ok F J) (actionsFor s) q fun found =>
      (∀ a ∈ found.1, ok a.term) ∧
        (found.2 = s ∨ ∃ pos, found.2 = s.raiseLookAhead pos) := by
  rw [actionsFor, keeps_get]
  have hasked : ∀ t ∈ q.parser.tokenizers.toList.zipIdx, t.1 ∈ p.tokenizers := by
    rintro ⟨t, i⟩ ht
    rw [← hq.parser]
    exact Array.mem_toList_iff.1 (List.fst_mem_of_mem_zipIdx ht)
  have hnothing : Gathered.Within ok {} :=
    ⟨fun a ha => (List.not_mem_nil ha).elim, fun t ht => by cases ht⟩
  refine (gather_within hread hok s _ hasked hq {} hnothing).bind fun f q' hq' hf => ?_
  have heof : ok q.parser.eofTerm := hok _ (Or.inr (Or.inl (by rw [hq.parser])))
  have hlook : (if 0 < f.lookAhead then s.raiseLookAhead f.lookAhead else s) = s ∨
      ∃ pos, (if 0 < f.lookAhead then s.raiseLookAhead f.lookAhead else s) =
        s.raiseLookAhead pos := by
    split
    · exact Or.inr ⟨_, rfl⟩
    · exact Or.inl rfl
  generalize (if 0 < f.lookAhead then s.raiseLookAhead f.lookAhead else s) = s' at hlook ⊢
  refine keeps_guardLimit hq' fun _ => ?_
  rw [keeps_modify]
  refine keeps_pure (hq'.withMain fun t ht => ?_) ⟨?_, hlook⟩
  · split at ht
    · obtain rfl := Option.some.inj ht
      refine ⟨fun term hterm => ?_, fun term hterm => by cases hterm⟩
      exact Option.some.inj hterm ▸ heof
    · exact hf.main t ht
  · dsimp only
    split
    · exact permits_collectActions heof hf.actions
    · exact hf.actions

include hok in
/-- The token that a stack is stuck at has a permitted term. -/
theorem permits_mainToken (hq : q.Obeys p ok F J) (s : Stack) : ok (q.mainToken s).1 := by
  rw [mainToken]
  cases hmain : q.memo.main with
  | some t =>
      dsimp only
      cases hvalue : t.value with
      | none => exact hok _ (Or.inl rfl)
      | some term => exact (hq.memo.main t hmain).value term hvalue
  | none =>
      dsimp only
      split
      · exact hok _ (Or.inr (Or.inl (by rw [hq.parser])))
      · exact hok _ (Or.inl rfl)

end Reading

end Parse

end IncrementalLR
