/-
**Kept tokens are the tokens that would be read.**

Where all tokenizers are groups and all specializers are tables of keywords, the token that a
tokenizer reads depends on its start only.  A token that was kept for a position is then the one
that would be read there, so that the actions which a stack is offered do not depend on the stacks
that asked before.

A stack may also come to no answer, where a group goes round at the end of the input or a list of
actions is laid out in a circle.  That does not depend on what was kept either.

Main definitions:

* `Parser.IsTabular` — a parser without host code that reads tokens;
* `Parser.tokenAt` — the token that a tokenizer reads by itself;
* `Parser.gathered`, `Parser.Offer`, `Parser.offers` — what a stack is offered if every token is
  read anew;
* `Parser.Settles` — no group and no list of a stack goes round;
* `Parse.Faithful` — a parse whose stream and kept tokens belong to a range of a document.

Main results:

* `Parser.offers_settles` — where nothing goes round, a stack comes to an answer;
* `Parse.tokenFor_faithful` — a token that is kept or read anew is the token at its place;
* `Parse.actionsFor_faithful` — **what a stack is offered does not depend on what was kept**.
-/

import IncrementalLR.Proofs.Endless
import IncrementalLR.Proofs.Tokens

set_option relaxedAutoImplicit false
set_option autoImplicit false

namespace IncrementalLR

/-- A token that is kept for a tokenizer mask and a context hash. -/
def Token.keptFor (t : Token) (mask context : Nat) : Token := { t with mask, context }

/-! ### Tokens read anew -/

namespace Parser

/-- A parser without host code that reads tokens: all tokenizers are groups of the token automaton,
and all specializers are tables of keywords. -/
structure IsTabular (p : Parser) : Prop where
  groups : ∀ t ∈ p.tokenizers, ∃ g, t = Tokenizer.ofGroup g
  keywords : ∀ x ∈ p.specializers, ∃ term entries, x = Specializer.ofKeywords term entries

/-- A token with its specialization; where none was accepted, one character becomes an error
token. -/
def completed (p : Parser) (d : Document) (r : Span) (s : Stack) (t : Token) : Token :=
  match t.value with
  | some term =>
      Parse.specialized t (Parse.specialization p (d.read s.pos t.stop) ⟨p.toGrammar, s, 0⟩
        (p.rulesFor term) []).1
  | none => { t with value := some errorTerm, stop := (Stream.start d [r]).charEnd s.pos }

/-- The token that a tokenizer reads for a stack by itself, on a stream of its own. -/
def tokenAt (p : Parser) (d : Document) (r : Span) (s : Stack) (t : Tokenizer) :
    Except Failure Token :=
  ((t.scan ⟨p.toGrammar, s, 0⟩).run ((Stream.start d [r]).reset s.pos (some {})) []).1.map
    fun stream => p.completed d r s stream.token

/-- What a stack is offered by tokenizers that are asked one after the other, given with their
indices, if each of them reads its token anew. -/
def gathered (p : Parser) (d : Document) (r : Span) (s : Stack) (mask context : Nat) :
    List (Tokenizer × Nat) → Parse.Gathered → Except Failure Parse.Gathered
  | [], g => .ok g
  | (t, i) :: rest, g =>
      if !(i < 32 && mask.testBit i) || (g.main.isSome && !t.fallback) then
        gathered p d r s mask context rest g
      else
        match p.tokenAt d r s t with
        | .error e => .error e
        | .ok token =>
            let token := token.keptFor mask context
            let g := g.look token
            let term := token.value.getD errorTerm
            if term = errorTerm then gathered p d r s mask context rest g
            else if p.tables.listsEnd s.state then
              let before := collectFurther p.tables s.state token g.actions
              let actions := collectActions p.tables s.state term token.stop before
              if t.extend then gathered p d r s mask context rest { g with actions }
              else if g.actions.length < actions.length then
                .ok { g with actions, main := some token }
              else gathered p d r s mask context rest { g with actions, main := some token }
            else .error .limit

/-- What a stack is offered: actions, the token that they are for, and the stack with its
look-ahead raised. -/
structure Offer where
  actions : List TokenAction
  main : Option Token
  stack : Stack

/-- What a stack is offered for what its tokenizers have gathered.  At the end of the range, where
no tokenizer has a token, the end itself is the token. -/
def offerFor (p : Parser) (r : Span) (s : Stack) (found : Parse.Gathered) : Except Failure Offer :=
  let s := if 0 < found.lookAhead then s.raiseLookAhead found.lookAhead else s
  if found.main.isNone && s.pos = r.stop then
    if p.tables.listsEnd s.state then
      .ok ⟨collectActions p.tables s.state p.eofTerm s.pos found.actions,
        some { start := some s.pos, value := some p.eofTerm, stop := s.pos }, s⟩
    else .error .limit
  else .ok ⟨found.actions, found.main, s⟩

/-- What a stack is offered if every token is read anew. -/
def offers (p : Parser) (d : Document) (r : Span) (s : Stack) : Except Failure Offer :=
  let mask := (p.tables.row s.state).tokenizerMask
  let context := (s.context.map (·.hash)).getD 0
  (p.gathered d r s mask context p.tokenizers.toList.zipIdx {}).bind (p.offerFor r s)

/-- Nothing goes round when a stack asks for its actions: no group of a tokenizer from its position
on, and none of the lists of its state. -/
structure Settles (p : Parser) (d : Document) (r : Span) (s : Stack) : Prop where
  groups : ∀ t ∈ p.tokenizers, ∃ g, t = Tokenizer.ofGroup g ∧ ¬ g.Endless d r.stop s.pos
  lists : p.tables.listsEnd s.state = true

/-! ### What a token depends on -/

/-- Tables of keywords see nothing of a stack but the text, and write nothing. -/
theorem specialization_eq {p : Parser} {rules : List Specializer}
    (h : ∀ x ∈ rules, ∃ term entries, x = Specializer.ofKeywords term entries) (text : String)
    (v v' : StackView) (lines : List String) :
    Parse.specialization p text v rules lines =
      ((Parse.specialization p text v' rules []).1, lines) := by
  induction rules generalizing lines with
  | nil => rfl
  | cons x rest ih =>
      have hrest : ∀ x ∈ rest, ∃ term entries, x = Specializer.ofKeywords term entries :=
        fun x hx => h x (List.mem_cons_of_mem _ hx)
      obtain ⟨term, entries, rfl⟩ := h x List.mem_cons_self
      unfold Parse.specialization
      simp only [Specializer.ofKeywords, List.reverse_nil, List.nil_append]
      split
      · split
        · rfl
        · exact ih hrest lines
      · exact ih hrest lines

theorem IsTabular.rulesFor {p : Parser} (h : p.IsTabular) (term : Nat) :
    ∀ x ∈ p.rulesFor term, ∃ term entries, x = Specializer.ofKeywords term entries :=
  fun x hx => h.keywords x (List.mem_filter.1 hx).1

section Tokens

variable {p : Parser} {d : Document} {r : Span} {s s' : Stack} {t : Tokenizer}

@[simp] theorem start_completed (t : Token) : (p.completed d r s t).start = t.start := by
  unfold completed
  split
  · simp
  · rfl

theorem completed_like {a b : Token} (h : a.Like b) :
    p.completed d r s a = (p.completed d r s b).keptFor a.mask a.context := by
  obtain ⟨start, value, stop, extended, lookAhead, mask, context⟩ := a
  obtain ⟨start', value', stop', extended', lookAhead', mask', context'⟩ := b
  obtain ⟨hstart, hvalue, hextended, hlook, hstop⟩ := h
  dsimp only at hstart hvalue hextended hlook hstop
  subst hstart hvalue hextended hlook
  cases value with
  | none => rfl
  | some term =>
      obtain rfl := hstop rfl
      unfold completed Parse.specialized Token.keptFor
      dsimp only
      split <;> rfl

/-- The stack matters for its position only. -/
theorem completed_congr (hp : p.IsTabular) (hpos : s.pos = s'.pos) (t : Token) :
    p.completed d r s t = p.completed d r s' t := by
  unfold completed
  rw [hpos]
  split
  · rw [specialization_eq (hp.rulesFor _) _ _ ⟨p.toGrammar, s', 0⟩]
  · rfl

/-- The token of a group is the one that its automaton reads. -/
theorem tokenAt_ofGroup (hd : d.HandsOut) (g : Group) (hpos : s.pos ≤ r.stop) :
    p.tokenAt d r s (.ofGroup g) =
      ((g.scan p.toGrammar).reads d r.stop s.pos (({} : Token).restart s.pos)).map
        (p.completed d r s) := by
  obtain ⟨hreads, hat⟩ := (Stream.reads_start hd r).reset hpos (some {})
  have htoken : ((Stream.start d [r]).reset s.pos (some {})).token =
      ({} : Token).restart s.pos := Stream.token_reset ..
  have key := Scan.run_reads (g.scan p.toGrammar) (g.scan_forward _)
    ((Stream.start d [r]).reset s.pos (some {})) [] hreads (by rw [hat]; exact hpos) <| by
      intro a ha
      rw [htoken] at ha
      cases ha
      exact Nat.le_of_eq hat.symm
  rw [hat, htoken] at key
  unfold tokenAt
  dsimp only [Tokenizer.ofGroup]
  split at key
  · rename_i token heq
    obtain ⟨stream, hrun, -, rfl⟩ := key
    rw [hrun]
    exact (congrArg (Except.map (p.completed d r s)) heq).symm
  · rename_i e heq
    rw [key]
    exact (congrArg (Except.map (p.completed d r s)) heq).symm

/-- A token that is read is completed from one that starts where the stack stands. -/
theorem exists_of_tokenAt (hd : d.HandsOut) (hp : p.IsTabular) (ht : t ∈ p.tokenizers)
    (hpos : s.pos ≤ r.stop) {token : Token} (h : p.tokenAt d r s t = .ok token) :
    ∃ own : Token, (own.start = some s.pos ∧ own.extended = none ∧
      (own.value.isSome = true → s.pos ≤ own.stop ∧ own.stop ≤ r.stop)) ∧
        p.completed d r s own = token := by
  obtain ⟨g, rfl⟩ := hp.groups t ht
  rw [tokenAt_ofGroup hd g hpos] at h
  cases hread : (g.scan p.toGrammar).reads d r.stop s.pos (({} : Token).restart s.pos) with
  | error e =>
      rw [hread] at h
      cases h
  | ok own =>
      rw [hread] at h
      exact ⟨own, Scan.reads_keeps d _ (Nat.le_refl s.pos) hpos (by simp [Token.restart]) hread,
        Except.ok.inj h⟩

theorem start_tokenAt (hd : d.HandsOut) (hp : p.IsTabular) (ht : t ∈ p.tokenizers)
    (hpos : s.pos ≤ r.stop) {token : Token} (h : p.tokenAt d r s t = .ok token) :
    token.start = some s.pos := by
  obtain ⟨own, ⟨hstart, -⟩, rfl⟩ := exists_of_tokenAt hd hp ht hpos h
  rw [start_completed, hstart]

theorem tokenAt_congr (hd : d.HandsOut) (hp : p.IsTabular) (ht : t ∈ p.tokenizers)
    (hpos : s.pos ≤ r.stop) (heq : s.pos = s'.pos) :
    p.tokenAt d r s t = p.tokenAt d r s' t := by
  obtain ⟨g, rfl⟩ := hp.groups t ht
  rw [tokenAt_ofGroup hd g hpos, tokenAt_ofGroup hd g (heq ▸ hpos), heq]
  exact congrArg (fun f => Except.map f _) (funext (completed_congr hp heq))

/-! ### Coming to an answer -/

/-- A tokenizer whose group does not go round reads a token. -/
theorem tokenAt_settles (hd : d.HandsOut) (hs : p.Settles d r s) (ht : t ∈ p.tokenizers)
    (hpos : s.pos ≤ r.stop) : ∃ token, p.tokenAt d r s t = .ok token := by
  obtain ⟨g, rfl, hends⟩ := hs.groups t ht
  rw [tokenAt_ofGroup hd g hpos]
  rcases g.reads_scan p.toGrammar s.pos (({} : Token).restart s.pos) with ⟨hnever, -⟩ | ⟨-, token, h⟩
  · exact absurd hnever hends
  · rw [h]
    exact ⟨_, rfl⟩

theorem gathered_settles (hd : d.HandsOut) (hs : p.Settles d r s)
    (hpos : s.pos ≤ r.stop) (mask context : Nat) (asked : List (Tokenizer × Nat))
    (hasked : ∀ a ∈ asked, a.1 ∈ p.tokenizers) (g : Parse.Gathered) :
    ∃ found, p.gathered d r s mask context asked g = .ok found := by
  induction asked generalizing g with
  | nil => exact ⟨g, rfl⟩
  | cons a rest ih =>
      obtain ⟨t, i⟩ := a
      have hrest := ih fun a ha => hasked a (List.mem_cons_of_mem _ ha)
      obtain ⟨token, htoken⟩ := tokenAt_settles hd hs (hasked _ List.mem_cons_self) hpos
      rw [gathered, htoken, hs.lists]
      dsimp only
      split
      · exact hrest g
      · split
        · exact hrest _
        · simp only [if_true]
          split
          · exact hrest _
          · split
            · exact ⟨_, rfl⟩
            · exact hrest _

/-- **Where nothing goes round, a stack comes to an answer.** -/
theorem offers_settles (hd : d.HandsOut) (hs : p.Settles d r s) (hpos : s.pos ≤ r.stop) :
    ∃ offer, p.offers d r s = .ok offer := by
  have hasked : ∀ a ∈ p.tokenizers.toList.zipIdx, a.1 ∈ p.tokenizers := fun a ha =>
    Array.mem_toList_iff.1 (List.fst_mem_of_mem_zipIdx ha)
  obtain ⟨found, hfound⟩ := gathered_settles hd hs hpos (p.tables.row s.state).tokenizerMask
    ((s.context.map (·.hash)).getD 0) _ hasked {}
  have hstate : (if 0 < found.lookAhead then s.raiseLookAhead found.lookAhead else s).state =
      s.state := by
    split <;> simp
  unfold offers
  dsimp only
  rw [hfound]
  dsimp only [Except.bind, offerFor]
  generalize (if 0 < found.lookAhead then s.raiseLookAhead found.lookAhead else s) = raised
    at hstate
  rw [hstate, hs.lists]
  split
  · exact ⟨_, rfl⟩
  · exact ⟨_, rfl⟩

end Tokens

end Parser

/-! ### Parses that keep tokens -/

namespace Parse

/-- A parse whose stream shows a range of a document, and whose kept tokens are those at their
places. -/
structure Faithful (p : Parser) (d : Document) (r : Span) (q : Parse) : Prop where
  parser : q.parser = p
  stream : q.env.stream.Reads d r
  kept : ∀ i t, p.tokenizers[i]? = some t → ∀ s : Stack, s.pos ≤ r.stop →
    (q.memo.tokens.getD i {}).start = some s.pos →
      ∃ token mask context, p.tokenAt d r s t = .ok token ∧
        q.memo.tokens.getD i {} = token.keptFor mask context

/-- Where no token was kept, none is kept in the wrong place. -/
theorem Faithful.of_no_tokens {p : Parser} {d : Document} {r : Span} {q : Parse} {n : Nat}
    (hparser : q.parser = p) (hstream : q.env.stream.Reads d r)
    (htokens : q.memo.tokens = Array.replicate n {}) : q.Faithful p d r where
  parser := hparser
  stream := hstream
  kept := by
    intro i t _ s _ hstart
    rw [htokens, Array.getD_eq_getD_getElem?, Array.getElem?_replicate] at hstart
    split at hstart <;> cases hstart

/-- Another parse, in which only tokens were read since. -/
def ReadsOnly (q q' : Parse) : Prop :=
  ∃ stream memo, q' = { q with env := { q.env with stream }, memo }

theorem ReadsOnly.refl (q : Parse) : q.ReadsOnly q := ⟨q.env.stream, q.memo, rfl⟩

theorem ReadsOnly.trans {q q' q'' : Parse} (h : q.ReadsOnly q') (h' : q'.ReadsOnly q'') :
    q.ReadsOnly q'' := by
  obtain ⟨_, _, rfl⟩ := h
  obtain ⟨stream, memo, rfl⟩ := h'
  exact ⟨stream, memo, rfl⟩

open ParseM

section Reading

variable {p : Parser} {d : Document} {r : Span} {q : Parse} {s : Stack} {t : Tokenizer} {i : Nat}

/-- What reading comes to, given what reading by itself comes to: the same failure, or the same token
up to what it is kept for. -/
def Reading (p : Parser) (d : Document) (r : Span) (s : Stack) (t : Tokenizer) (q : Parse)
    (token : Token) (q' : Parse) : Prop :=
  (∃ own mask context, p.tokenAt d r s t = .ok own ∧ token = own.keptFor mask context) ∧
    q'.Faithful p d r ∧ q.ReadsOnly q'

/-- A token that is read anew is the token at its place. -/
theorem readToken_faithful (hp : p.IsTabular) (hq : q.Faithful p d r)
    (ht : t ∈ p.tokenizers) (hlo : r.start ≤ s.pos) (hhi : s.pos ≤ r.stop) :
    Ensures (fun e => p.tokenAt d r s t = .error e) (readToken i t s) q (Reading p d r s t q) := by
  obtain ⟨g, rfl⟩ := hp.groups t ht
  obtain rfl := hq.parser
  have hclip := hq.stream.clip_eq_self hlo hhi
  obtain ⟨hreads, hat⟩ := hq.stream.reset hhi (some (q.memo.tokens.getD i {}))
  have htoken : (q.env.stream.reset s.pos (some (q.memo.tokens.getD i {}))).token =
      (q.memo.tokens.getD i {}).restart s.pos := Stream.token_reset ..
  generalize hstream : q.env.stream.reset s.pos (some (q.memo.tokens.getD i {})) = stream at *
  have hrun := Scan.run_reads (g.scan q.parser.toGrammar) (g.scan_forward _) stream q.env.output
    hreads (by rw [hat]; exact hhi) <| by
      intro a ha
      rw [htoken] at ha
      cases ha
      exact Nat.le_of_eq hat.symm
  rw [hat, htoken] at hrun
  -- What is read for the stack, and what is read without what was kept.
  have hlike := Scan.reads_like d r.stop (g.scan q.parser.toGrammar) s.pos
    (Token.like_restart (q.memo.tokens.getD i {}) {} s.pos)
  have hown := Parser.tokenAt_ofGroup (p := q.parser) hq.stream.handsOut g hhi
  unfold readToken
  rw [ensures_bind, ensures_get]
  simp only [hclip, hstream]
  dsimp only [Tokenizer.ofGroup]
  rcases hlike with ⟨e, heq, heq'⟩ | ⟨token, own, heq, heq', hlike⟩
  · rw [heq] at hrun
    rw [heq'] at hown
    rw [hrun]
    dsimp only
    rw [ensures_bind, ensures_set, ensures_throw]
    exact hown
  · rw [heq] at hrun
    obtain ⟨stream', hrun, hreads', rfl⟩ := hrun
    rw [heq'] at hown
    have hcompleted := Parser.completed_like (p := q.parser) (d := d) (r := r) (s := s) hlike
    have hfaithful : ∀ token : Token, Faithful q.parser d r
        { q with env := { q.env with stream := { stream' with token } } } :=
      fun token => ⟨rfl, hreads'.withToken _, hq.kept⟩
    rw [hrun]
    dsimp only
    cases hterm : stream'.token.value with
    | none =>
        dsimp only
        rw [ensures_bind, ensures_set, ensures_pure]
        refine ⟨⟨_, stream'.token.mask, stream'.token.context, hown, ?_⟩, hfaithful {},
          ⟨_, q.memo, rfl⟩⟩
        refine Eq.trans ?_ hcompleted
        rw [Parser.completed, hterm]
        dsimp only
        rw [(hreads'.withToken {}).charEnd_eq (Stream.reads_start hq.stream.handsOut r)]
    | some term =>
        have hbounds := (Scan.reads_keeps d _ (Nat.le_refl s.pos) hhi (by simp [Token.restart])
          heq).2.2 (by rw [hterm]; rfl)
        have htext : ({ stream' with token := {} } : Stream).read s.pos stream'.token.stop =
            d.read s.pos stream'.token.stop := (hreads'.withToken {}).read_eq hlo hbounds.2
        dsimp only
        rw [htext, Parser.specialization_eq (hp.rulesFor term) _ _ ⟨q.parser.toGrammar, s, 0⟩]
        rw [ensures_bind, ensures_set, ensures_pure]
        refine ⟨⟨_, stream'.token.mask, stream'.token.context, hown, ?_⟩, hfaithful {},
          ⟨_, q.memo, rfl⟩⟩
        refine Eq.trans ?_ hcompleted
        rw [Parser.completed, hterm]

/-- Keeping a token at its place. -/
theorem Faithful.keep (hp : p.IsTabular) (hq : q.Faithful p d r) (ht : p.tokenizers[i]? = some t)
    (hhi : s.pos ≤ r.stop) {token : Token} (htoken : p.tokenAt d r s t = .ok token)
    (mask context : Nat) :
    Faithful p d r { q with
      memo := { q.memo with
        tokens := q.memo.tokens.setIfInBounds i (token.keptFor mask context) } } := by
  have hd := hq.stream.handsOut
  have hmem : t ∈ p.tokenizers := Array.mem_of_getElem? ht
  refine ⟨hq.parser, hq.stream, fun j t' ht' s' hhi' => ?_⟩
  simp only [Array.getD_eq_getD_getElem?, Array.getElem?_setIfInBounds]
  by_cases hij : i = j
  · obtain rfl := hij
    obtain rfl : t = t' := Option.some.inj (ht.symm.trans ht')
    by_cases hlt : i < q.memo.tokens.size
    · simp only [hlt, if_true, Option.getD_some]
      intro hstart
      have heq : s.pos = s'.pos :=
        Option.some.inj ((Parser.start_tokenAt hd hp hmem hhi htoken).symm.trans hstart)
      exact ⟨token, mask, context, Parser.tokenAt_congr hd hp hmem hhi heq ▸ htoken, rfl⟩
    · simp [hlt]
  · simp only [hij, if_false]
    simpa only [Array.getD_eq_getD_getElem?] using hq.kept j t' ht' s' hhi'

/-- **A token that is kept or read anew is the token at its place.** -/
theorem tokenFor_faithful (hp : p.IsTabular) (hq : q.Faithful p d r)
    (ht : p.tokenizers[i]? = some t) (hlo : r.start ≤ s.pos) (hhi : s.pos ≤ r.stop)
    (mask context : Nat) :
    Ensures (fun e => p.tokenAt d r s t = .error e) (tokenFor i t s mask context) q
      fun token q' => (∃ own, p.tokenAt d r s t = .ok own ∧ token = own.keptFor mask context) ∧
        q'.Faithful p d r ∧ q.ReadsOnly q' := by
  unfold tokenFor
  rw [ensures_bind, ensures_get]
  refine ensures_ite (fun hkept => ?_) (fun _ => ?_)
  · simp only [Bool.and_eq_true, decide_eq_true_eq] at hkept
    obtain ⟨⟨⟨-, hstart⟩, hmask⟩, hcontext⟩ := hkept
    obtain ⟨own, mask', context', hown, heq⟩ := hq.kept i t ht s hhi hstart
    rw [heq] at hmask hcontext
    exact ⟨⟨own, hown, by rw [heq, ← hmask, ← hcontext]; rfl⟩, hq, .refl q⟩
  · refine (readToken_faithful hp hq (Array.mem_of_getElem? ht) hlo hhi).bind ?_
    rintro token q' ⟨⟨own, mask', context', hown, rfl⟩, hq', hreads⟩
    rw [ensures_bind, ensures_modify, ensures_pure]
    exact ⟨⟨own, hown, rfl⟩, hq'.keep hp ht hhi hown mask context,
      hreads.trans ⟨q'.env.stream, _, rfl⟩⟩

/-- Asking tokenizers one after the other. -/
theorem gather_faithful (hp : p.IsTabular) (hlo : r.start ≤ s.pos) (hhi : s.pos ≤ r.stop)
    (mask context : Nat) (asked : List (Tokenizer × Nat))
    (hasked : ∀ a ∈ asked, p.tokenizers[a.2]? = some a.1) {q : Parse} (hq : q.Faithful p d r)
    (g : Gathered) :
    Ensures (fun e => p.gathered d r s mask context asked g = .error e)
      (gather s mask context asked g) q fun g' q' =>
        p.gathered d r s mask context asked g = .ok g' ∧ q'.Faithful p d r ∧ q.ReadsOnly q' := by
  induction asked generalizing q g with
  | nil => exact ⟨rfl, hq, .refl q⟩
  | cons a rest ih =>
      obtain ⟨t, i⟩ := a
      have hrest : ∀ a ∈ rest, p.tokenizers[a.2]? = some a.1 :=
        fun a ha => hasked a (List.mem_cons_of_mem _ ha)
      have htoken := tokenFor_faithful hp hq (hasked _ List.mem_cons_self) hlo hhi mask context
      rw [gather, Parser.gathered]
      dsimp only at htoken ⊢
      split
      · exact ih hrest hq g
      · refine (htoken.weaken fun e he => by rw [he]).bind ?_
        rintro token q' ⟨⟨own, hown, rfl⟩, hq', hreads⟩
        rw [hown]
        dsimp only
        generalize own.keptFor mask context = token
        have hlater : ∀ g', Ensures
            (fun e => p.gathered d r s mask context rest g' = .error e)
            (gather s mask context rest g') q' fun g'' q'' =>
              p.gathered d r s mask context rest g' = .ok g'' ∧ q''.Faithful p d r ∧
                q.ReadsOnly q'' := by
          intro g'
          refine (ih hrest hq' g').mono ?_
          rintro g'' q'' ⟨heq, hq'', hreads'⟩
          exact ⟨heq, hq'', hreads.trans hreads'⟩
        by_cases hterm : token.value.getD errorTerm = errorTerm
        · simp only [hterm, if_true]
          exact hlater _
        · simp only [hterm, if_false]
          rw [ensures_bind, ensures_get, hq'.parser]
          cases hends : p.tables.listsEnd s.state with
          | false => rfl
          | true =>
              simp only [guardLimit, if_true, pure_bind]
              cases t.extend with
              | true => exact hlater _
              | false =>
                  simp only [Bool.false_eq_true, if_false]
                  split
                  · exact ⟨rfl, hq', hreads⟩
                  · exact hlater _

/-- **What a stack is offered does not depend on what was kept**, nor does it whether it comes to an
answer. -/
theorem actionsFor_faithful (hp : p.IsTabular) (hq : q.Faithful p d r) (hlo : r.start ≤ s.pos)
    (hhi : s.pos ≤ r.stop) :
    Ensures (fun e => p.offers d r s = .error e) (actionsFor s) q fun found q' =>
      p.offers d r s = .ok ⟨found.1, q'.memo.main, found.2⟩ ∧ q'.Faithful p d r ∧
        q.ReadsOnly q' := by
  have hasked : ∀ a ∈ p.tokenizers.toList.zipIdx, p.tokenizers[a.2]? = some a.1 := by
    intro a ha
    simpa using List.mem_zipIdx_iff_getElem?.1 ha
  have hgather := gather_faithful hp hlo hhi (p.tables.row s.state).tokenizerMask
    ((s.context.map (·.hash)).getD 0) _ hasked hq {}
  unfold actionsFor Parser.offers
  rw [ensures_bind, ensures_get]
  dsimp only
  rw [hq.parser]
  refine (hgather.weaken fun e he => by rw [he]; rfl).bind ?_
  rintro found q' ⟨hfound, hq', hreads⟩
  rw [hfound, hq.stream.stop]
  dsimp only [Except.bind, Parser.offerFor]
  generalize (if 0 < found.lookAhead then s.raiseLookAhead found.lookAhead else s) = s
  have hset : ∀ main, Faithful p d r { q' with memo := { q'.memo with main } } :=
    fun main => ⟨hq'.parser, hq'.stream, hq'.kept⟩
  have honly : ∀ main, q.ReadsOnly { q' with memo := { q'.memo with main } } :=
    fun main => hreads.trans ⟨_, _, rfl⟩
  by_cases hend : (found.main.isNone && decide (s.pos = r.stop)) = true
  · rw [if_pos hend, hend]
    cases hlists : p.tables.listsEnd s.state with
    | false => rfl
    | true => exact ⟨rfl, hset _, honly _⟩
  · rw [if_neg hend, Bool.eq_false_iff.2 hend]
    exact ⟨rfl, hset _, honly _⟩

end Reading

end Parse

end IncrementalLR
