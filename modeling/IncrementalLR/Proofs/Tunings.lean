/-
**What does not depend on the tuning.**

Two parses by parsers that differ in their tuning only may be compared while they work on the same
stack.  Reading tokens, taking nodes over, shifting and reducing ask neither for the tuning nor for
the watch on big reductions, unless host code does so: they give the same tokens and stacks in both
parses, and what the parses share stays the same but for the watch.  Under equal tunings the watches
are the same as well.

Main definitions:

* `Parser.tuned`, `Parser.IgnoresTuning` — other tuning, and host code that does not ask for it;
* `Env.Alike`, `Parse.Alike` — the same but for the tuning and the watch;
* `ParseM.Agree` — two steps that do the same in two parses.

Main results:

* `Stack.changeContext_alike`, `Stack.apply_alike`, `Stack.adopt_alike` — actions on stacks do not
  depend on the tuning;
* `Parse.takeOver_agree`, `Parse.actionsFor_agree` — **nor do the nodes and tokens that a stack is
  offered**.
-/

import IncrementalLR.Parse.Advance

set_option relaxedAutoImplicit false
set_option autoImplicit false

namespace IncrementalLR

/-! ### Host code -/

/-- The view of a stack under other tuning. -/
def StackView.tuned (t : Tuning) (v : StackView) : StackView :=
  { v with grammar := { v.grammar with tuning := t } }

namespace Parser

/-- The parser with other tuning. -/
def tuned (t : Tuning) (p : Parser) : Parser := { p with tuning := t }

/-- No tokenizer, specializer or tracker asks for the tuning. -/
structure IgnoresTuning (p : Parser) : Prop where
  tokenizers : ∀ x ∈ p.tokenizers, ∀ (v : StackView) (t : Tuning), x.scan (v.tuned t) = x.scan v
  specializers : ∀ x ∈ p.specializers, ∀ (text : String) (v : StackView) (t : Tuning),
    x.apply text (v.tuned t) = x.apply text v
  tracker : ∀ x ∈ p.tracker, ∀ (change : ContextChange) (value : Int) (v : StackView) (t : Tuning)
    (stream : Stream), x.update change value (v.tuned t) stream = x.update change value v stream

end Parser

/-! ### Actions on stacks -/

/-- What stacks share in two parses, the second under the tuning `t'` and the first under `t`: only
the watches may differ, and that only if the tunings do. -/
def Env.Alike (t t' : Tuning) (env env' : Env) : Prop :=
  ∃ watch, env' = { env with watch } ∧ (t' = t → watch = env.watch)

namespace Stack

variable {p : Parser} {t t' : Tuning} {env env' : Env}

theorem changeContext_alike (hp : p.IgnoresTuning) (h : env.Alike t t' env')
    (change : ContextChange) (start : Nat) (s : Stack) :
    (s.changeContext (p.tuned t') change start env').1 = (s.changeContext p change start env).1 ∧
      (s.changeContext p change start env).2.Alike t t'
        (s.changeContext (p.tuned t') change start env').2 := by
  obtain ⟨watch, rfl, hwatch⟩ := h
  have htracker : (p.tuned t').tracker = p.tracker := rfl
  rw [changeContext, changeContext, htracker]
  cases hfound : p.tracker with
  | none => exact ⟨rfl, watch, rfl, hwatch⟩
  | some x =>
      cases hcontext : s.context with
      | none => exact ⟨rfl, watch, rfl, hwatch⟩
      | some c =>
          have hupdate := hp.tracker x hfound change c.value ⟨p.toGrammar, s, env.limit⟩ t'
            (env.stream.reset start none)
          dsimp only
          rw [StackView.tuned] at hupdate
          rw [show (p.tuned t').toGrammar = { p.toGrammar with tuning := t' } from rfl, hupdate]
          exact ⟨rfl, watch, rfl, hwatch⟩

/-- Noting a big reduction concerns the watch only. -/
theorem noteBig_alike (h : env.Alike t t' env') (big : Tuning → Bool) (start size : Nat) :
    Env.Alike t t' (if big t then { env with watch := env.watch.add start size } else env)
      (if big t' then { env' with watch := env'.watch.add start size } else env') := by
  obtain ⟨watch, rfl, hwatch⟩ := h
  refine ⟨if big t' then watch.add start size else watch, ?_, ?_⟩
  · cases big t <;> cases big t' <;> rfl
  · intro heq
    rw [heq, hwatch heq]
    cases big t <;> rfl

theorem reduceSome_alike (hp : p.IgnoresTuning) (h : env.Alike p.tuning t' env') (word : Nat)
    (s : Stack) :
    (s.reduceSome (p.tuned t') word env').1 = (s.reduceSome p word env).1 ∧
      (s.reduceSome p word env).2.Alike p.tuning t' (s.reduceSome (p.tuned t') word env').2 := by
  obtain ⟨watch, rfl, hwatch⟩ := h
  let start := ((s.frames.drop (popCount word)).top?.map (·.start)).getD env.start
  let size := s.reducePos - start
  let anonymous := (p.set.get? (ActionWord.value word)).any (·.isAnonymous)
  have hshared : Env.Alike p.tuning t' env { env with watch } := ⟨watch, rfl, hwatch⟩
  have hnoted := noteBig_alike hshared (fun t => decide (t.minBigReduction ≤ size) && !anonymous)
    start size
  exact changeContext_alike hp hnoted (.reduce (ActionWord.value word)) start _

theorem reduce_alike (hp : p.IgnoresTuning) (h : env.Alike p.tuning t' env') (word : Nat)
    (s : Stack) :
    (s.reduce (p.tuned t') word env').1 = (s.reduce p word env).1 ∧
      (s.reduce p word env).2.Alike p.tuning t' (s.reduce (p.tuned t') word env').2 := by
  have hbegin : ∀ term, s.beginReduce (p.tuned t') term = s.beginReduce p term := fun _ => rfl
  rw [reduce, reduce]
  simp only [hbegin]
  by_cases hdepth : ActionWord.depth word = 0
  · rw [if_pos hdepth, if_pos hdepth]
    exact changeContext_alike hp h _ _ _
  · rw [if_neg hdepth, if_neg hdepth]
    exact reduceSome_alike hp h word _

theorem apply_alike (hp : p.IgnoresTuning) (h : env.Alike p.tuning t' env')
    (word term start stop : Nat) (s : Stack) :
    (s.apply (p.tuned t') word term start stop env').1 = (s.apply p word term start stop env).1 ∧
      (s.apply p word term start stop env).2.Alike p.tuning t'
        (s.apply (p.tuned t') word term start stop env').2 := by
  rw [apply, apply]
  by_cases hreduce : ActionWord.isReduce word
  · rw [if_pos hreduce, if_pos hreduce]
    exact reduce_alike hp h word s
  · rw [if_neg hreduce, if_neg hreduce, shift, shift]
    by_cases hgoto : ActionWord.isGoto word
    · rw [if_pos hgoto, if_pos hgoto]
      exact ⟨rfl, h⟩
    · rw [if_neg hgoto, if_neg hgoto]
      by_cases hstay : ActionWord.isStay word
      · rw [if_pos hstay, if_pos hstay]
        have hcontext := changeContext_alike hp h (.shift term) start { s with pos := stop }
        exact ⟨congrArg (recordToken p term start stop) hcontext.1, hcontext.2⟩
      · rw [if_neg hstay, if_neg hstay]
        have hcontext := changeContext_alike hp h (.shift term) start
        exact ⟨congrArg (recordToken p term start stop) (hcontext _).1, (hcontext _).2⟩

theorem adopt_alike (hp : p.IgnoresTuning) (h : env.Alike t t' env') (node : Tree) (state : Nat)
    (s : Stack) :
    (s.adopt (p.tuned t') node state env').1 = (s.adopt p node state env).1 ∧
      (s.adopt p node state env).2.Alike t t' (s.adopt (p.tuned t') node state env').2 := by
  obtain ⟨watch, rfl, hwatch⟩ := h
  rw [adopt, adopt]
  cases hknown : env.reused.back?.any (·.same node) with
  | true =>
      simp only [if_true]
      exact changeContext_alike hp ⟨watch, rfl, hwatch⟩ _ _ _
  | false =>
      simp only [Bool.false_eq_true, if_false]
      refine changeContext_alike hp ?_ _ _ _
      exact ⟨watch, rfl, hwatch⟩

end Stack

/-! ### Steps that do the same -/

/-- Two parses that are the same but for the tuning and the watch, the stacks that are followed, and
the position that these have reached; no host code asks for the tuning. -/
def Parse.Alike (q q' : Parse) : Prop :=
  q.parser.IgnoresTuning ∧ ∃ (t : Tuning) (env : Env) (live : List Stack) (parsedPos : Nat),
    q.env.Alike q.parser.tuning t env ∧
      q' = { q with parser := q.parser.tuned t, env, live, parsedPos }

namespace Parse.Alike

variable {q q' : Parse}

theorem parser (h : q.Alike q') : q'.parser = q.parser.tuned q'.parser.tuning := by
  obtain ⟨-, t, env, live, parsedPos, -, rfl⟩ := h
  rfl

theorem env (h : q.Alike q') : q.env.Alike q.parser.tuning q'.parser.tuning q'.env := by
  obtain ⟨-, t, env, live, parsedPos, henv, rfl⟩ := h
  exact henv

theorem memo (h : q.Alike q') : q'.memo = q.memo := by
  obtain ⟨-, t, env, live, parsedPos, -, rfl⟩ := h
  rfl

theorem reuse (h : q.Alike q') : q'.reuse = q.reuse := by
  obtain ⟨-, t, env, live, parsedPos, -, rfl⟩ := h
  rfl

theorem setReuse (h : q.Alike q') (reuse : Option ReuseCursor) :
    Alike { q with reuse } { q' with reuse } := by
  obtain ⟨hp, t, env, live, parsedPos, henv, rfl⟩ := h
  exact ⟨hp, t, env, live, parsedPos, henv, rfl⟩

theorem setMemo (h : q.Alike q') (memo : TokenMemo) :
    Alike { q with memo } { q' with memo } := by
  obtain ⟨hp, t, env, live, parsedPos, henv, rfl⟩ := h
  exact ⟨hp, t, env, live, parsedPos, henv, rfl⟩

theorem setEnv (h : q.Alike q') {env env' : Env}
    (henv : env.Alike q.parser.tuning q'.parser.tuning env') :
    Alike { q with env } { q' with env := env' } := by
  obtain ⟨hp, t, _, live, parsedPos, -, rfl⟩ := h
  exact ⟨hp, t, env', live, parsedPos, henv, rfl⟩

end Parse.Alike

namespace ParseM

variable {α β : Type} {q q' : Parse}

/-- Two steps do the same in two parses: their values or failures are the same, and the parses are
alike after them and have kept their parsers. -/
structure Agree (m m' : ParseM α) (q q' : Parse) : Prop where
  value : (m'.run q').1 = (m.run q).1
  alike : (m.run q).2.Alike (m'.run q').2
  parser : (m.run q).2.parser = q.parser ∧ (m'.run q').2.parser = q'.parser

theorem agree_pure (h : q.Alike q') (a : α) : Agree (pure a) (pure a) q q' :=
  ⟨rfl, h, rfl, rfl⟩

theorem agree_throw (h : q.Alike q') (e : Failure) :
    Agree (throw e : ParseM α) (throw e) q q' := ⟨rfl, h, rfl, rfl⟩

theorem agree_guardLimit (h : q.Alike q') (ends : Bool) :
    Agree (guardLimit ends) (guardLimit ends) q q' := by
  unfold guardLimit
  split
  · exact agree_pure h ()
  · exact agree_throw h .limit

theorem agree_get {f f' : Parse → ParseM α} (h : Agree (f q) (f' q') q q') :
    Agree (get >>= f) (get >>= f') q q' := ⟨h.value, h.alike, h.parser⟩

theorem agree_set {q₁ q₁' : Parse} {m m' : ParseM α} (h : Agree m m' q₁ q₁')
    (hparser : q₁.parser = q.parser ∧ q₁'.parser = q'.parser) :
    Agree (set q₁ >>= fun _ => m) (set q₁' >>= fun _ => m') q q' :=
  ⟨h.value, h.alike, h.parser.1.trans hparser.1, h.parser.2.trans hparser.2⟩

theorem agree_modify {f f' : Parse → Parse} {m m' : ParseM α} (h : Agree m m' (f q) (f' q'))
    (hparser : (f q).parser = q.parser ∧ (f' q').parser = q'.parser) :
    Agree (modify f >>= fun _ => m) (modify f' >>= fun _ => m') q q' :=
  ⟨h.value, h.alike, h.parser.1.trans hparser.1, h.parser.2.trans hparser.2⟩

/-- A step that goes on after its first part. -/
theorem run_bind (m : ParseM α) (f : α → ParseM β) (q : Parse) :
    (m >>= f).run q = ExceptT.bindCont f (m.run q).1 (m.run q).2 := rfl

/-- Steps that do the same, followed by steps that do the same. -/
theorem Agree.bind {m m' : ParseM α} {f f' : α → ParseM β} (h : Agree m m' q q')
    (hf : ∀ a q₁ q₁', q₁.Alike q₁' → q₁.parser = q.parser ∧ q₁'.parser = q'.parser →
      Agree (f a) (f' a) q₁ q₁') :
    Agree (m >>= f) (m' >>= f') q q' := by
  obtain ⟨hvalue, halike, hparser⟩ := h
  rcases hrun : m.run q with ⟨e | a, q₁⟩
  · rw [hrun] at hvalue halike hparser
    refine ⟨?_, ?_, ?_⟩
    · rw [run_bind, run_bind, hvalue, hrun]
      rfl
    · rw [run_bind, run_bind, hvalue, hrun]
      exact halike
    · rw [run_bind, run_bind, hvalue, hrun]
      exact hparser
  · rw [hrun] at hvalue halike hparser
    have hrest := hf a q₁ _ halike hparser
    refine ⟨?_, ?_, ?_⟩
    · rw [run_bind, run_bind, hvalue, hrun]
      exact hrest.value
    · rw [run_bind, run_bind, hvalue, hrun]
      exact hrest.alike
    · rw [run_bind, run_bind, hvalue, hrun]
      exact ⟨hrest.parser.1.trans hparser.1, hrest.parser.2.trans hparser.2⟩

/-- Doing the same to what the stacks share. -/
theorem agree_onEnv {f f' : Env → α × Env} (h : q.Alike q')
    (hf : (f' q'.env).1 = (f q.env).1 ∧
      (f q.env).2.Alike q.parser.tuning q'.parser.tuning (f' q'.env).2) :
    Agree (onEnv f) (onEnv f') q q' :=
  ⟨congrArg Except.ok hf.1, h.setEnv hf.2, rfl, rfl⟩

end ParseM

namespace Parse

open ParseM

variable {q q' : Parse}

/-! ### Taking nodes over -/

theorem reusable?_tuned (p : Parser) (t : Tuning) (s : Stack) (node : Tree) :
    reusable? (p.tuned t) s node = reusable? p s node := by
  have htarget : ∀ node, reuseTarget? (p.tuned t) s node = reuseTarget? p s node := fun _ => rfl
  fun_induction reusable? p s node with
  | case1 buffer => rw [reusable?]
  | case2 stamp ty len ps => rw [reusable?, htarget]
  | case3 stamp ty len ps pos first rest state hstate => rw [reusable?, htarget, hstate]
  | case4 stamp ty len ps first rest hnone ih =>
      rw [reusable?, htarget, hnone]
      exact ih
  | case5 stamp ty len ps pos first rest hnone hpos =>
      rw [reusable?, htarget, hnone]
      exact if_neg hpos

/-- Whether a node is taken over, and which, does not depend on the tuning. -/
theorem takeOver_agree (h : q.Alike q') (s : Stack) : Agree (takeOver s) (takeOver s) q q' := by
  rw [takeOver]
  refine agree_get ?_
  rw [h.reuse]
  cases q.reuse with
  | none => exact agree_pure h none
  | some cursor =>
      have hnext := h.setReuse (some (cursor.offerAt s.pos).2)
      refine agree_set ?_ ⟨rfl, rfl⟩
      have hreusable : reusable? q'.parser s = reusable? q.parser s := by
        funext node
        rw [h.parser, reusable?_tuned]
      rw [hreusable]
      cases (cursor.offerAt s.pos).1.bind (reusable? q.parser s) with
      | none => exact agree_pure hnext none
      | some found =>
          refine (agree_onEnv hnext ?_).bind fun s q₁ q₁' h₁ _ => agree_pure h₁ _
          dsimp only
          rw [h.parser]
          exact Stack.adopt_alike h.1 h.env found.1 found.2 s

/-! ### Tokens -/

theorem specialization_tuned {p : Parser} (hp : p.IgnoresTuning) (t : Tuning) (text : String)
    (v : StackView) {rules : List Specializer} (hrules : ∀ x ∈ rules, x ∈ p.specializers)
    (lines : List String) :
    specialization (p.tuned t) text (v.tuned t) rules lines =
      specialization p text v rules lines := by
  induction rules generalizing lines with
  | nil => rfl
  | cons x rest ih =>
      have hrest := ih fun y hy => hrules y (List.mem_cons_of_mem _ hy)
      rw [specialization, specialization, hp.specializers x (hrules x List.mem_cons_self) text v t]
      simp only [hrest]
      rfl

/-- Which token is read does not depend on the tuning. -/
theorem readToken_agree (h : q.Alike q') {i : Nat} {x : Tokenizer} (hx : x ∈ q.parser.tokenizers)
    (s : Stack) : Agree (readToken i x s) (readToken i x s) q q' := by
  obtain ⟨watch, henv, hwatch⟩ := h.env
  have hscan : x.scan ⟨q'.parser.toGrammar, s, q.env.limit⟩ =
      x.scan ⟨q.parser.toGrammar, s, q.env.limit⟩ := by
    rw [h.parser]
    exact h.1.tokenizers x hx ⟨q.parser.toGrammar, s, q.env.limit⟩ _
  have hspecial : ∀ text term lines,
      specialization q'.parser text ⟨q'.parser.toGrammar, s, q.env.limit⟩ (q'.parser.rulesFor term)
        lines =
      specialization q.parser text ⟨q.parser.toGrammar, s, q.env.limit⟩ (q.parser.rulesFor term)
        lines := by
    intro text term lines
    rw [h.parser]
    exact specialization_tuned h.1 _ text ⟨q.parser.toGrammar, s, q.env.limit⟩
      (fun y hy => (List.mem_filter.1 hy).1) lines
  have hshared : ∀ stream output memo, Alike { q with env := { q.env with stream, output }, memo }
      { q' with env := { q.env with stream, output, watch }, memo } := by
    intro stream output memo
    have hread : Env.Alike q.parser.tuning q'.parser.tuning { q.env with stream, output }
        { q.env with stream, output, watch } := ⟨watch, rfl, hwatch⟩
    exact (h.setEnv hread).setMemo memo
  rw [readToken]
  refine agree_get ?_
  rw [h.memo, henv]
  dsimp only
  rw [hscan]
  generalize (x.scan ⟨q.parser.toGrammar, s, q.env.limit⟩).run _ q.env.output = scanned
  rcases scanned with ⟨e | stream, lines⟩
  · exact agree_set (agree_throw (hshared q.env.stream lines _) e) ⟨rfl, rfl⟩
  · cases hvalue : stream.token.value with
    | none =>
        simp only [hvalue]
        exact agree_set (agree_pure (hshared _ _ _) _) ⟨rfl, rfl⟩
    | some term =>
        simp only [hvalue, hspecial]
        exact agree_set (agree_pure (hshared _ _ _) _) ⟨rfl, rfl⟩

/-- Which token a tokenizer has, a kept or a new one, does not depend on the tuning. -/
theorem tokenFor_agree (h : q.Alike q') {i : Nat} {x : Tokenizer} (hx : x ∈ q.parser.tokenizers)
    (s : Stack) (mask context : Nat) :
    Agree (tokenFor i x s mask context) (tokenFor i x s mask context) q q' := by
  rw [tokenFor]
  refine agree_get ?_
  rw [h.memo]
  dsimp only
  split
  · exact agree_pure h _
  · refine (readToken_agree h hx s).bind ?_
    intro token q₁ q₁' h₁ _
    refine agree_modify ?_ ⟨rfl, rfl⟩
    rw [h₁.memo]
    exact agree_pure (h₁.setMemo _) _

/-- What the tokenizers find does not depend on the tuning. -/
theorem gather_agree (h : q.Alike q') (s : Stack) (mask context : Nat)
    {asked : List (Tokenizer × Nat)} (hasked : ∀ a ∈ asked, a.1 ∈ q.parser.tokenizers)
    (g : Gathered) :
    Agree (gather s mask context asked g) (gather s mask context asked g) q q' := by
  induction asked generalizing q q' g with
  | nil => exact agree_pure h g
  | cons a rest ih =>
      obtain ⟨x, i⟩ := a
      have hrest := fun b hb => hasked b (List.mem_cons_of_mem _ hb)
      rw [gather]
      split
      · exact ih h hrest g
      · refine (tokenFor_agree h (hasked _ List.mem_cons_self) s mask context).bind ?_
        intro token q₁ q₁' h₁ hparser
        rw [← hparser.1] at hrest
        dsimp only
        split
        · exact ih h₁ hrest _
        · refine agree_get ?_
          have htables : q₁'.parser.tables = q₁.parser.tables := by
            rw [h₁.parser]
            rfl
          rw [htables]
          refine (agree_guardLimit h₁ _).bind ?_
          intro _ q₂ q₂' h₂ hsame
          rw [← hsame.1] at hrest
          split
          · exact ih h₂ hrest _
          · split
            · exact agree_pure h₂ _
            · exact ih h₂ hrest _

/-- Which actions a stack is offered does not depend on the tuning. -/
theorem actionsFor_agree (h : q.Alike q') (s : Stack) :
    Agree (actionsFor s) (actionsFor s) q q' := by
  obtain ⟨watch, henv, -⟩ := h.env
  have hasked : ∀ a ∈ q.parser.tokenizers.toList.zipIdx, a.1 ∈ q.parser.tokenizers := by
    intro a ha
    exact Array.mem_toList_iff.1 (List.fst_mem_of_mem_zipIdx ha)
  have htables : q'.parser.tables = q.parser.tables := by
    rw [h.parser]
    rfl
  have htokenizers : q'.parser.tokenizers = q.parser.tokenizers := by
    rw [h.parser]
    rfl
  have heof : q'.parser.eofTerm = q.parser.eofTerm := by
    rw [h.parser]
    rfl
  rw [actionsFor]
  refine agree_get ?_
  dsimp only
  rw [htables, htokenizers, heof, henv]
  refine (gather_agree h s _ _ hasked {}).bind ?_
  intro found q₁ q₁' h₁ _
  refine (agree_guardLimit h₁ _).bind ?_
  intro _ q₂ q₂' h₂ _
  refine agree_modify ?_ ⟨rfl, rfl⟩
  rw [h₂.memo]
  exact agree_pure (h₂.setMemo _) _

/-! ### Trees -/

/-- The tree of a finished stack does not depend on the tuning. -/
theorem toTree_agree (h : q.Alike q') (s : Stack) : Agree (toTree s) (toTree s) q q' := by
  obtain ⟨hp, t, env', live, parsedPos, ⟨watch, rfl, hwatch⟩, rfl⟩ := h
  have hclose : s.close (q.parser.tuned t) = s.close q.parser := rfl
  rw [toTree]
  refine agree_get ?_
  dsimp only
  rw [hclose]
  have hplan : ({
      set := (q.parser.tuned t).set, top := (q.parser.tuned t).top.2,
      maxBuffer := (q.parser.tuned t).bufferLength, reused := q.env.reused, start := q.env.start,
      length := some ((s.close q.parser).pos - q.env.start),
      minRepeat := some (q.parser.tuned t).minRepeat } : BuildPlan) =
    { set := q.parser.set, top := q.parser.top.2, maxBuffer := q.parser.bufferLength,
      reused := q.env.reused, start := q.env.start,
      length := some ((s.close q.parser).pos - q.env.start),
      minRepeat := some q.parser.minRepeat } := rfl
  rw [hplan]
  generalize Tree.buildFrom _ _ = built
  cases built with
  | error e => exact agree_throw ⟨hp, t, _, live, parsedPos, ⟨watch, rfl, hwatch⟩, rfl⟩ (.error e)
  | ok tree =>
      refine agree_set (agree_pure ?_ _) ⟨rfl, rfl⟩
      exact ⟨hp, t, { q.env with watch }, live, parsedPos, ⟨watch, rfl, hwatch⟩, rfl⟩

end Parse

end IncrementalLR
