/-
**The tokens that stacks are offered.**

Steps of a parse may fail, and keep the parse when they do.  What a step ensures is stated with
`ParseM.Ensures`: of its value and the parse after it if it succeeds, and of the failure otherwise.
The rules for it follow the way in which steps are put together, so that a step is followed from its
first action to its last.

The tokens of a stack, whether read anew or kept, start where the stack stands or at the next place
that is not in a gap, and end by the end of the ranges.  So do the actions that a stack is offered
for them.

Main definitions:

* `ParseM.Ensures` — what a step ensures;
* `Parser.MayFail`, `Parser.FailsByAccepting` — how the work on stacks may fail;
* `Parse.Along` — what stays true while stacks are worked on;
* `Token.ReadAt` — what is known of the token at a position.

Main results:

* `Parse.tokenFor_ensures` — what is known of the tokens of a stack;
* `Parse.actionsFor_ensures` — **actions are offered for such tokens only**.
-/

import IncrementalLR.Parse.Tokens
import IncrementalLR.Proofs.Moves

set_option relaxedAutoImplicit false
set_option autoImplicit false

namespace IncrementalLR

/-! ### What steps ensure -/

/-- How the work on stacks may fail: it runs into the limit, a token ends out of bounds, or a
tokenizer hands out a failure of its own. -/
def Parser.MayFail (p : Parser) (e : Failure) : Prop :=
  e = .limit ∨ (∃ start stop, e = .error (.tokenOutOfBounds start stop)) ∨
    ∃ t ∈ p.tokenizers, ∃ v, (t.scan v).MayFail e

theorem Parser.mayFail_limit (p : Parser) : p.MayFail .limit := Or.inl rfl

/-- A parser whose tokenizers hand out failures of accepting only, which is what the result of their
call is for; groups may give up besides. -/
def Parser.FailsByAccepting (p : Parser) : Prop :=
  ∀ t ∈ p.tokenizers, ∀ v e, (t.scan v).MayFail e → e = .limit

/-- Then the work on stacks fails with a token out of bounds, if it fails with an error. -/
theorem Parser.FailsByAccepting.outOfBounds {p : Parser} (h : p.FailsByAccepting) {e : ParseError}
    (he : p.MayFail (.error e)) : ∃ start stop, e = .tokenOutOfBounds start stop := by
  rcases he with hlimit | ⟨start, stop, hbounds⟩ | ⟨t, ht, v, hfail⟩
  · cases hlimit
  · cases hbounds
    exact ⟨start, stop, rfl⟩
  · cases h t ht v _ hfail

namespace ParseM

/-- What a step ensures from a parse on: `Q` of its value and the parse after it, or `E` of the
failure. -/
def Ensures {α : Type} (E : Failure → Prop) (m : ParseM α) (p : Parse) (Q : α → Parse → Prop) :
    Prop :=
  match m.run p with
  | (.ok a, q) => Q a q
  | (.error e, _) => E e

variable {α β : Type} {E : Failure → Prop} {p : Parse}

theorem ensures_bind {m : ParseM α} {f : α → ParseM β} {Q : β → Parse → Prop} :
    Ensures E (m >>= f) p Q ↔ Ensures E m p fun a q => Ensures E (f a) q Q := by
  have key : (m >>= f).run p = ExceptT.bindCont f (m.run p).1 (m.run p).2 := rfl
  unfold Ensures
  rw [key]
  rcases m.run p with ⟨e | a, q⟩
  · rfl
  · rfl

theorem ensures_pure {a : α} {Q : α → Parse → Prop} : Ensures E (pure a) p Q ↔ Q a p := Iff.rfl

theorem ensures_get {Q : Parse → Parse → Prop} : Ensures E get p Q ↔ Q p p := Iff.rfl

theorem ensures_set {q : Parse} {Q : PUnit → Parse → Prop} : Ensures E (set q) p Q ↔ Q ⟨⟩ q :=
  Iff.rfl

theorem ensures_modify {f : Parse → Parse} {Q : PUnit → Parse → Prop} :
    Ensures E (modify f) p Q ↔ Q ⟨⟩ (f p) := Iff.rfl

theorem ensures_throw {e : Failure} {Q : α → Parse → Prop} : Ensures E (throw e) p Q ↔ E e :=
  Iff.rfl

theorem ensures_fail {e : ParseError} {Q : α → Parse → Prop} :
    Ensures E (fail e) p Q ↔ E (.error e) := Iff.rfl

/-- Going on behind a loop that ends. -/
theorem ensures_guardLimit {ends : Bool} {Q : PUnit → Parse → Prop} (hE : E .limit)
    (hQ : ends = true → Q ⟨⟩ p) : Ensures E (guardLimit ends) p Q := by
  cases ends with
  | true => exact hQ rfl
  | false => exact hE

theorem ensures_ofParser {Q : Parser → Parse → Prop} : Ensures E parser p Q ↔ Q p.parser p :=
  Iff.rfl

theorem ensures_onEnv {f : Env → α × Env} {Q : α → Parse → Prop} :
    Ensures E (onEnv f) p Q ↔ Q (f p.env).1 { p with env := (f p.env).2 } := Iff.rfl

/-- Doing something that may run into the limit. -/
theorem ensures_onEnvLimited {f : Env → Option (α × Env)} {Q : α → Parse → Prop}
    (hE : E .limit) (h : ∀ r, f p.env = some r → Q r.1 { p with env := r.2 }) :
    Ensures E (onEnvLimited f) p Q := by
  unfold onEnvLimited
  rw [ensures_bind, ensures_get]
  cases hf : f p.env with
  | none => exact hE
  | some r => exact h r hf

/-- A step that depends on a condition. -/
theorem ensures_ite {c : Prop} [Decidable c] {m n : ParseM α} {Q : α → Parse → Prop}
    (hm : c → Ensures E m p Q) (hn : ¬ c → Ensures E n p Q) :
    Ensures E (if c then m else n) p Q := by
  split
  · exact hm ‹_›
  · exact hn ‹_›

/-- What a step ensures, it ensures of everything that follows from it. -/
theorem Ensures.mono {m : ParseM α} {P Q : α → Parse → Prop} (h : Ensures E m p P)
    (hPQ : ∀ a q, P a q → Q a q) : Ensures E m p Q := by
  unfold Ensures at h ⊢
  split at h
  · exact hPQ _ _ h
  · exact h

/-- What a step ensures of failures, it ensures of everything that follows from it. -/
theorem Ensures.weaken {E' : Failure → Prop} {m : ParseM α} {Q : α → Parse → Prop}
    (h : Ensures E m p Q) (hE : ∀ e, E e → E' e) : Ensures E' m p Q := by
  unfold Ensures at h ⊢
  split at h
  · exact h
  · exact hE _ h

/-- A step that is followed by another one. -/
theorem Ensures.bind {m : ParseM α} {f : α → ParseM β} {P : α → Parse → Prop}
    {Q : β → Parse → Prop} (h : Ensures E m p P)
    (hf : ∀ a q, P a q → Ensures E (f a) q Q) : Ensures E (m >>= f) p Q :=
  ensures_bind.2 (h.mono hf)

end ParseM

/-! ### What stays true -/

/-- What is known of the token at a position. -/
structure Token.ReadAt (g : Setting) (pos : Nat) (t : Token) : Prop where
  start : ∃ a, t.start = some a ∧ (g.IsWhole → a = pos)
  le_stop : pos ≤ t.stop
  stop_le : t.stop ≤ g.hi
  nonempty : g.IsWhole → g.parser.NeverEmpty → t.value ≠ some errorTerm →
    pos < t.stop ∨ t.value = some g.parser.eofTerm ∧ t.extended = none

/-- A token that was kept is the token at its start. -/
def Token.Kept (g : Setting) (t : Token) : Prop := ∀ a, t.start = some a → t.ReadAt g a

/-- A token that was read from a place on, at the position that led there and for later. -/
theorem Token.readAt_kept {g : Setting} {t : Token} {a pos : Nat} (hstart : t.start = some a)
    (hpos : pos ≤ a) (hwhole : g.IsWhole → a = pos) (hle : a ≤ t.stop) (hstop : t.stop ≤ g.hi)
    (hne : g.IsWhole → g.parser.NeverEmpty → t.value ≠ some errorTerm → a < t.stop) :
    t.ReadAt g pos ∧ t.Kept g := by
  constructor
  · refine ⟨⟨a, hstart, hwhole⟩, Nat.le_trans hpos hle, hstop, ?_⟩
    intro hw hn hv
    exact Or.inl (Nat.lt_of_le_of_lt hpos (hne hw hn hv))
  · intro b hb
    obtain rfl : a = b := Option.some.inj (hstart.symm.trans hb)
    refine ⟨⟨a, hstart, fun _ => rfl⟩, hle, hstop, ?_⟩
    intro hw hn hv
    exact Or.inl (hne hw hn hv)

/-- What is known of an action that a stack in a state at a position is offered. -/
structure TokenAction.At (g : Setting) (state pos : Nat) (a : TokenAction) : Prop where
  given : g.parser.tables.Gives state a.term a.word
  le_stop : pos ≤ a.stop
  stop_le : a.stop ≤ g.hi
  nonempty : g.IsWhole → g.parser.NeverEmpty → pos < a.stop ∨ a.term = g.parser.eofTerm

namespace Parse

/-- What stays true of a parse while its stacks are worked on, the parse before being `p₀`. -/
structure Along (g : Setting) (q p₀ : Parse) : Prop where
  parser : q.parser = g.parser
  reuse : q.reuse = none
  env : q.env.Follows g
  tokens : ∀ i, (q.memo.tokens.getD i {}).Kept g
  stoppedAt : q.stoppedAt = p₀.stoppedAt
  result : q.result = p₀.result

namespace Along

variable {g : Setting} {p₀ q : Parse}

/-- Changing what the stacks share. -/
theorem withEnv (h : q.Along g p₀) {env : Env} (henv : env.Follows g) :
    Along g { q with env } p₀ :=
  ⟨h.parser, h.reuse, henv, h.tokens, h.stoppedAt, h.result⟩

/-- Noting another token as the one that actions are for. -/
theorem withMain (h : q.Along g p₀) (main : Option Token) :
    Along g { q with memo := { q.memo with main } } p₀ :=
  ⟨h.parser, h.reuse, h.env, h.tokens, h.stoppedAt, h.result⟩

/-- Keeping a token. -/
theorem withToken (h : q.Along g p₀) (i : Nat) {t : Token} (ht : t.Kept g) :
    Along g { q with memo := { q.memo with tokens := q.memo.tokens.setIfInBounds i t } } p₀ := by
  refine ⟨h.parser, h.reuse, h.env, fun j => ?_, h.stoppedAt, h.result⟩
  have hj := h.tokens j
  simp only [Array.getD_eq_getD_getElem?, Array.getElem?_setIfInBounds] at hj ⊢
  split
  · split
    · exact ht
    · intro a ha
      cases ha
  · exact hj

end Along

open ParseM

section Reading

variable {g : Setting} {p₀ q : Parse} (hg : g.Fits) (hacc : g.parser.OnlyAccepts)

/-! ### Reading tokens -/

@[simp] theorem start_specialized (t : Token) (sp : Option Specialization) :
    (specialized t sp).start = t.start := by
  unfold specialized
  split <;> rfl

@[simp] theorem stop_specialized (t : Token) (sp : Option Specialization) :
    (specialized t sp).stop = t.stop := by
  unfold specialized
  split <;> rfl

include hg hacc in
/-- What is known of a token that is read anew. -/
theorem readToken_ensures {i : Nat} {t : Tokenizer} {s : Stack} (ht : t ∈ g.parser.tokenizers)
    (hhi : s.pos ≤ g.hi) (hq : q.Along g p₀) :
    Ensures g.parser.MayFail (readToken i t s) q fun token q' =>
      q'.Along g p₀ ∧ token.ReadAt g s.pos ∧ token.Kept g := by
  have hstream := hq.env.stream
  have hle := Stream.le_clip hstream hhi
  have hclip := Stream.clip_le hg.below hstream s.pos
  have hwhole : g.IsWhole → q.env.stream.clip s.pos = s.pos := by
    intro hw
    have hsingle : q.env.stream.Covers [⟨0, g.hi⟩] g.hi := hw.2 ▸ hstream
    exact Stream.clip_eq hsingle (Nat.zero_le _) hhi
  generalize hstart : q.env.stream.clip s.pos = start at *
  have hreset := hstream.reset start (some (q.memo.tokens.getD i {}))
  have hpos := Stream.pos_reset hstream hclip (some (q.memo.tokens.getD i {}))
  have htoken := Stream.token_reset q.env.stream start (some (q.memo.tokens.getD i {}))
  generalize hstr : q.env.stream.reset start (some (q.memo.tokens.getD i {})) = stream at *
  have hpending : stream.token.Pending g.hi start := by
    rw [htoken]
    exact ⟨rfl, by simp [Token.restart]⟩
  have hvalue : stream.token.value = none := by
    rw [htoken]
    rfl
  have hrun := Scan.run_covers hg.below _ (hacc t ht ⟨q.parser.toGrammar, s, q.env.limit⟩) stream
    q.env.output hreset hpending
  unfold readToken
  simp only [ensures_bind, ensures_get, hstart, hstr]
  generalize hscan :
    (t.scan ⟨q.parser.toGrammar, s, q.env.limit⟩).run stream q.env.output = scanned at *
  obtain ⟨result, lines⟩ := scanned
  cases result with
  | error e =>
      rcases Scan.run_error _ (congrArg Prod.fst hscan) with hown | hbounds
      · exact Or.inr (Or.inr ⟨t, ht, _, hown⟩)
      · exact Or.inr (Or.inl hbounds)
  | ok stream' =>
      obtain ⟨hcovers, hstart', hends⟩ := hrun
      dsimp only at hcovers hstart' hends ⊢
      have hcovers' : ({ stream' with token := {} } : Stream).Covers g.spans g.hi :=
        hcovers.congr rfl rfl rfl rfl
      cases hterm : stream'.token.value with
      | some term =>
          -- An accepted token: its end was checked when it was accepted.
          obtain ⟨h₁, h₂⟩ := hends (by rw [hterm]; rfl)
          have hnonempty : g.IsWhole → g.parser.NeverEmpty → start < stream'.token.stop := by
            intro hw hne
            have key := hne t ht ⟨q.parser.toGrammar, s, q.env.limit⟩ g.hi stream stream' q.env.output
              (hw.2 ▸ hreset) (by rw [hpending.start, hpos]) hvalue (by rw [hscan])
              (by rw [hterm]; rfl)
            rwa [hpos] at key
          refine ⟨hq.withEnv ⟨hq.env.start, hcovers'⟩, ?_⟩
          refine Token.readAt_kept (by simpa using hstart') hle hwhole ?_ ?_ ?_
          · rw [stop_specialized]
            exact h₁
          · rw [stop_specialized]
            exact h₂
          · intro hw hne _
            rw [stop_specialized]
            exact hnonempty hw hne
      | none =>
          -- One character becomes an error token.
          have h₁ := Stream.le_charEnd hg.below hcovers' hclip
          have h₂ := Stream.charEnd_le hg.below hcovers' start
          refine ⟨hq.withEnv ⟨hq.env.start, hcovers'⟩, ?_⟩
          exact Token.readAt_kept hstart' hle hwhole h₁ h₂ fun _ _ hv => absurd rfl hv

include hg hacc in
/-- What is known of the token of a tokenizer, whether kept or read anew. -/
theorem tokenFor_ensures {i mask context : Nat} {t : Tokenizer} {s : Stack}
    (ht : t ∈ g.parser.tokenizers) (hhi : s.pos ≤ g.hi) (hq : q.Along g p₀) :
    Ensures g.parser.MayFail (tokenFor i t s mask context) q fun token q' =>
      q'.Along g p₀ ∧ token.ReadAt g s.pos := by
  unfold tokenFor
  simp only [ensures_bind, ensures_get]
  split
  · rename_i hkept
    simp only [Bool.and_eq_true, decide_eq_true_eq] at hkept
    exact ⟨hq, hq.tokens i _ hkept.1.1.2⟩
  · rw [ensures_bind]
    refine (readToken_ensures hg hacc ht hhi hq).mono ?_
    rintro token q' ⟨hq', ⟨⟨a, ha, hw⟩, h₁, h₂, h₃⟩, hkept⟩
    rw [ensures_bind, ensures_modify]
    refine ⟨hq'.withToken i ?_, ⟨⟨a, ha, hw⟩, h₁, h₂, h₃⟩⟩
    intro b hb
    obtain ⟨hstart, h₁, h₂, h₃⟩ := hkept b hb
    exact ⟨hstart, h₁, h₂, h₃⟩

/-! ### Actions -/

theorem mem_insertAction {a b : TokenAction} {actions : List TokenAction}
    (h : b ∈ insertAction a actions) : b ∈ actions ∨ b = a := by
  unfold insertAction at h
  split at h
  · exact Or.inl h
  · simpa using h

/-- The actions of a list for a token are those with its term, and the one for other terms. -/
theorem mem_addTo {l : ActionList} {term stop : Nat} {actions : List TokenAction} {b : TokenAction}
    (h : b ∈ l.addTo term stop actions) :
    b ∈ actions ∨ b.stop = stop ∧ b.term = term ∧
      ((some term, b.word) ∈ l.words ∨ (none, b.word) ∈ l.words) := by
  have hfold : ∀ (entries : List Entry) (acc : List TokenAction),
      b ∈ entries.foldl (fun actions e =>
        if e.term = term then insertAction ⟨e.word, term, stop⟩ actions else actions) acc →
      b ∈ acc ∨ b.stop = stop ∧ b.term = term ∧ ∃ e ∈ entries, e.term = term ∧ e.word = b.word := by
    intro entries
    induction entries with
    | nil => exact fun acc hb => Or.inl hb
    | cons e rest ih =>
        intro acc hb
        rcases ih _ hb with hb | ⟨h₁, h₂, f, hf, hword⟩
        · dsimp only at hb
          split at hb
          · rename_i hterm
            rcases mem_insertAction hb with hb | rfl
            · exact Or.inl hb
            · exact Or.inr ⟨rfl, rfl, e, List.mem_cons_self, hterm, rfl⟩
          · exact Or.inl hb
        · exact Or.inr ⟨h₁, h₂, f, List.mem_cons_of_mem _ hf, hword⟩
  have hlisted : b ∈ l.entries.foldl (fun actions e =>
        if e.term = term then insertAction ⟨e.word, term, stop⟩ actions else actions) actions →
      b ∈ actions ∨ b.stop = stop ∧ b.term = term ∧
        ((some term, b.word) ∈ l.words ∨ (none, b.word) ∈ l.words) := by
    intro hb
    rcases hfold _ _ hb with hb | ⟨h₁, h₂, e, he, rfl, hword⟩
    · exact Or.inl hb
    · refine Or.inr ⟨h₁, h₂, Or.inl (List.mem_append_left _ ?_)⟩
      exact List.mem_map.2 ⟨e, he, by rw [hword]⟩
  unfold ActionList.addTo at h
  dsimp only at h
  split at h
  · rename_i word hother
    split at h
    · rcases mem_insertAction h with hb | rfl
      · exact hlisted hb
      · refine Or.inr ⟨rfl, rfl, Or.inr (List.mem_append_right _ ?_)⟩
        simp [hother]
    · exact hlisted h
  · exact hlisted h

/-- The actions that are collected for a token end where it does, and are those of the state for
its term. -/
theorem mem_collectActions {t : Tables} {state term stop : Nat} {actions : List TokenAction}
    {b : TokenAction} (h : b ∈ collectActions t state term stop actions) :
    b ∈ actions ∨ b.stop = stop ∧ b.term = term ∧ t.Gives state term b.word := by
  unfold collectActions at h
  split at h
  · rename_i hstate
    unfold Tables.Gives Tables.words
    simp only [hstate, if_true, List.mem_append]
    rcases mem_addTo h with h | ⟨h₁, h₂, h | h⟩
    · rcases mem_addTo h with h | ⟨h₁, h₂, h | h⟩
      · exact Or.inl h
      · exact Or.inr ⟨h₁, h₂, Or.inl (Or.inl h)⟩
      · exact Or.inr ⟨h₁, h₂, Or.inr (Or.inl h)⟩
    · exact Or.inr ⟨h₁, h₂, Or.inl (Or.inr h)⟩
    · exact Or.inr ⟨h₁, h₂, Or.inr (Or.inr h)⟩
  · exact Or.inl h

/-- What is known of what has been found for a state at a position. -/
structure Gathered.At (g : Setting) (state pos : Nat) (f : Gathered) : Prop where
  actions : ∀ a ∈ f.actions, a.At g state pos
  main : ∀ t, f.main = some t → t.ReadAt g pos

/-- Actions for a token are offered at its position. -/
theorem collectActions_at {pos state term : Nat} {token : Token} {actions : List TokenAction}
    (ha : ∀ a ∈ actions, a.At g state pos) (ht : token.ReadAt g pos)
    (hne : g.IsWhole → g.parser.NeverEmpty → pos < token.stop ∨ term = g.parser.eofTerm) :
    ∀ a ∈ collectActions g.parser.tables state term token.stop actions, a.At g state pos := by
  intro a h
  rcases mem_collectActions h with h | ⟨hstop, rfl, hgiven⟩
  · exact ha a h
  · exact ⟨hgiven, hstop ▸ ht.le_stop, hstop ▸ ht.stop_le, hstop ▸ hne⟩

theorem collectFurther_at {pos state : Nat} {token : Token} {actions : List TokenAction}
    (ha : ∀ a ∈ actions, a.At g state pos) (ht : token.ReadAt g pos)
    (hv : token.value ≠ some errorTerm) :
    ∀ a ∈ collectFurther g.parser.tables state token actions, a.At g state pos := by
  unfold collectFurther
  split
  · rename_i term hfurther
    refine collectActions_at ha ht fun hw hne => Or.inl ?_
    rcases ht.nonempty hw hne hv with hlt | ⟨-, hnone⟩
    · exact hlt
    · rw [hnone] at hfurther
      cases hfurther
  · exact ha

include hg hacc in
/-- Asking tokenizers one after the other. -/
theorem gather_ensures {mask context : Nat} {s : Stack} (hhi : s.pos ≤ g.hi)
    (asked : List (Tokenizer × Nat)) (hasked : ∀ t ∈ asked, t.1 ∈ g.parser.tokenizers)
    {q : Parse} (hq : q.Along g p₀) (f : Gathered) (hf : f.At g s.state s.pos) :
    Ensures g.parser.MayFail (gather s mask context asked f) q fun f' q' =>
      q'.Along g p₀ ∧ f'.At g s.state s.pos := by
  induction asked generalizing q f with
  | nil => exact ⟨hq, hf⟩
  | cons t rest ih =>
      obtain ⟨t, i⟩ := t
      have ht : t ∈ g.parser.tokenizers := hasked _ List.mem_cons_self
      have hrest : ∀ t ∈ rest, t.1 ∈ g.parser.tokenizers := fun t ht =>
        hasked t (List.mem_cons_of_mem _ ht)
      rw [gather]
      split
      · exact ih hrest hq f hf
      · refine (tokenFor_ensures hg hacc ht hhi hq).bind ?_
        rintro token q' ⟨hq', hread⟩
        have hlook : (f.look token).At g s.state s.pos := by
          unfold Gathered.look
          split
          · exact ⟨hf.actions, hf.main⟩
          · exact hf
        refine ensures_ite (fun _ => ih hrest hq' _ hlook) (fun hterm => ?_)
        have hv : token.value ≠ some errorTerm := by
          intro he
          exact hterm (by rw [he]; rfl)
        rw [ensures_bind, ensures_get, hq'.parser, ensures_bind]
        refine ensures_guardLimit g.parser.mayFail_limit fun _ => ?_
        -- The actions for a further term come before those for the token's own.
        have hbefore := collectFurther_at hlook.actions hread hv
        have hactions : ∀ a ∈ collectActions g.parser.tables s.state (token.value.getD errorTerm)
            token.stop (collectFurther g.parser.tables s.state token (f.look token).actions),
            a.At g s.state s.pos := by
          refine collectActions_at hbefore hread fun hw hne => ?_
          rcases hread.nonempty hw hne hv with hlt | ⟨heof, -⟩
          · exact Or.inl hlt
          · exact Or.inr (by rw [heof]; rfl)
        have hmain : ∀ u, some token = some u → u.ReadAt g s.pos := by
          intro u hu
          exact Option.some.inj hu ▸ hread
        refine ensures_ite (fun _ => ih hrest hq' _ ⟨hactions, hlook.main⟩) (fun _ => ?_)
        refine ensures_ite (fun _ => ⟨hq', hactions, hmain⟩) (fun _ => ?_)
        exact ih hrest hq' _ ⟨hactions, hmain⟩

include hg hacc in
/-- **Actions are offered for tokens at the position only.**  The stack itself is at most shown how
far its tokens looked. -/
theorem actionsFor_ensures {ok : Guard} {s : Stack} (hs : s.Reached g ok) (hq : q.Along g p₀) :
    Ensures g.parser.MayFail (actionsFor s) q fun found q' =>
      q'.Along g p₀ ∧ found.2.Reached g ok ∧ found.2.pos = s.pos ∧
        (∀ a ∈ found.1, a.At g found.2.state s.pos) ∧
        ∀ t, q'.memo.main = some t → t.ReadAt g s.pos := by
  have hhi := (hs.pos_le hg).2
  unfold actionsFor
  simp only [ensures_bind, ensures_get]
  refine (gather_ensures hg hacc hhi _ ?_ hq {} ⟨by simp, by simp⟩).mono ?_
  · intro t ht
    rw [hq.parser] at ht
    obtain ⟨t, i⟩ := t
    exact Array.mem_toList_iff.1 (List.fst_mem_of_mem_zipIdx ht)
  · rintro f q' ⟨hq', hf⟩
    have hstop := hq.env.stream.stop
    have hlook : (if 0 < f.lookAhead then s.raiseLookAhead f.lookAhead else s).Reached g ok ∧
        (if 0 < f.lookAhead then s.raiseLookAhead f.lookAhead else s).pos = s.pos ∧
        (if 0 < f.lookAhead then s.raiseLookAhead f.lookAhead else s).state = s.state := by
      split
      · exact ⟨hs.move (.look s _), by simp, by simp⟩
      · exact ⟨hs, rfl, rfl⟩
    refine ensures_guardLimit g.parser.mayFail_limit fun _ => ?_
    rw [ensures_modify, ensures_pure]
    generalize (if 0 < f.lookAhead then s.raiseLookAhead f.lookAhead else s) = s' at hlook ⊢
    obtain ⟨hs', hpos, hstate⟩ := hlook
    rw [hpos, hstate]
    refine ⟨hq'.withMain _, hs', rfl, ?_, ?_⟩
    · split
      · rename_i hend
        simp only [Bool.and_eq_true, decide_eq_true_eq] at hend
        intro a ha
        rw [hq.parser] at ha
        rcases mem_collectActions ha with ha | ⟨ha, hterm, hgiven⟩
        · exact hf.actions a ha
        · exact ⟨hterm ▸ hgiven, by omega, by omega, fun _ _ => Or.inr hterm⟩
      · exact hf.actions
    · intro t ht
      dsimp only at ht
      split at ht
      · rename_i hend
        simp only [Bool.and_eq_true, decide_eq_true_eq] at hend
        obtain rfl := Option.some.inj ht
        rw [hq.parser]
        exact ⟨⟨s.pos, rfl, fun _ => rfl⟩, Nat.le_refl _, by dsimp only; omega,
          fun _ _ _ => Or.inr ⟨rfl, rfl⟩⟩
      · exact hf.main t ht

include hg in
/-- The token that a stack is stuck at ends between the stack and the end of the ranges. -/
theorem mainToken_bounds {s : Stack} (hhi : s.pos ≤ g.hi) (hq : q.Along g p₀)
    (hmain : ∀ t, q.memo.main = some t → t.ReadAt g s.pos) :
    s.pos ≤ (q.mainToken s).2 ∧ (q.mainToken s).2 ≤ g.hi := by
  have hstream := hq.env.stream
  have hstop := hstream.stop
  unfold mainToken
  dsimp only
  split
  · rename_i t ht
    exact ⟨(hmain t ht).le_stop, (hmain t ht).stop_le⟩
  · split
    · dsimp only
      omega
    · have := Stream.le_charEnd hg.below hstream hhi
      dsimp only
      omega

end Reading

end Parse

end IncrementalLR
