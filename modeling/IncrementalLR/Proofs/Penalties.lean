/-
**What repairs cost a stack.**

A stack loses a penalty for each token that it leaves out or pretends, and for each reduction that
the tables do not allow.  Nothing is taken back afterwards, however much of the text is read without
errors: where terms have no precedences, the score is what all repairs since the parse began cost.

A machine keeps scores in 32 bits.  The score of a stack fits exactly as long as its repairs cost no
more than 2 ^ 31, and scores that fit have a difference that fits.  There is no limit to repairs,
though.  A text that no state has an action for loses all of its characters, one in each step, so
that a text of 11302546 characters is enough for a score that does not fit.

Main definitions:

* `Repairs`, `Repairs.cost` — how often a stack was repaired, and what that costs;
* `Stack.Repaired` — stacks with the repairs that led to them;
* `Parse.bareParser`, `Parse.letters` — a parser and texts that it has no action for.

Main results:

* `Stack.Repaired.score_eq` — the score is what repairs cost;
* `Stack.Repaired.fits_iff`, `Stack.Repaired.fits_sub` — scores that fit, and their differences;
* `Parse.finishChecked_eq` — what a machine gives while all scores fit;
* `Parse.advanceChecked_halts_iff` — **when a score ends the program**;
* `Parse.advanceChecked_halts` — a text for which one does.
-/

import IncrementalLR.Parse.Scores
import IncrementalLR.Proofs.Leaving
import IncrementalLR.Proofs.Walks

set_option relaxedAutoImplicit false
set_option autoImplicit false

namespace IncrementalLR

/-! ### Repairs -/

/-- How often a stack was repaired. -/
structure Repairs where
  /-- Tokens that were left out. -/
  deleted : Nat := 0
  /-- Tokens that were pretended. -/
  inserted : Nat := 0
  /-- Reductions that the tables do not allow. -/
  forced : Nat := 0
deriving Repr, DecidableEq

namespace Repairs

/-- What repairs cost. -/
def cost (t : Tuning) (r : Repairs) : Int :=
  t.deletePenalty * r.deleted + t.insertPenalty * r.inserted + t.reducePenalty * r.forced

variable (t : Tuning) (r : Repairs)

@[simp] theorem cost_none : cost t {} = 0 := by simp [cost]

@[simp] theorem cost_deleted :
    cost t { r with deleted := r.deleted + 1 } = r.cost t + t.deletePenalty := by
  simp only [cost, Int.natCast_succ, Int.mul_add, Int.mul_one]
  omega

@[simp] theorem cost_inserted :
    cost t { r with inserted := r.inserted + 1 } = r.cost t + t.insertPenalty := by
  simp only [cost, Int.natCast_succ, Int.mul_add, Int.mul_one]
  omega

@[simp] theorem cost_forced :
    cost t { r with forced := r.forced + 1 } = r.cost t + t.reducePenalty := by
  simp only [cost, Int.natCast_succ, Int.mul_add, Int.mul_one]
  omega

/-- What repairs cost by default. -/
def defaultCost : Nat := 190 * r.deleted + 200 * r.inserted + 100 * r.forced

theorem cost_default : cost {} r = r.defaultCost := by
  simp only [cost, defaultCost]
  omega

end Repairs

namespace Stack

/-- The repairs of a stack after an operation. -/
def Operation.repairs (p : Parser) (s : Stack) (r : Repairs) : Operation → Repairs
  | delete _ _ => { r with deleted := r.deleted + 1 }
  | leave => if (s.forcedWord? p).any (!·.2) then { r with forced := r.forced + 1 } else r
  | _ => r

/-- The stacks that operations lead to from the start, each with its repairs.  A stack that is split
off is the stack itself, or has a token inserted. -/
inductive Repaired (p : Parser) : Stack → Repairs → Prop
  | start (pos : Nat) : Repaired p (Stack.start p pos) {}
  | run {s : Stack} {r : Repairs} (env : Env) (op : Operation) : Repaired p s r →
      Repaired p (op.run p s env).1 (op.repairs p s r)
  | inserted {s : Stack} {r : Repairs} (term state : Nat) (env : Env) : Repaired p s r →
      Repaired p (s.insertToken p term state env).1 { r with inserted := r.inserted + 1 }

/-! ### Scores after operations -/

section Scores

variable (p : Parser) (s : Stack) (env : Env)

@[simp] theorem score_freeze (id : Nat) : (s.freeze id).score = s.score := by
  unfold freeze
  simp only
  split <;> rfl

@[simp] theorem score_mark (id size : Int) : (s.mark id size).score = s.score := by
  unfold mark
  split <;> rfl

@[simp] theorem score_raiseLookAhead (pos : Nat) : (s.raiseLookAhead pos).score = s.score := by
  obtain ⟨own, lookAhead, heq⟩ := s.raiseLookAhead_eq pos
  rw [heq]

@[simp] theorem score_recordToken (term start stop : Nat) :
    (s.recordToken p term start stop).score = s.score := by
  unfold recordToken
  split <;> rfl

@[simp] theorem score_shift (word term start stop : Nat) :
    (s.shift p word term start stop env).1.score = s.score := by
  unfold shift
  split
  · rfl
  · split
    · simp
    · simp only [score_recordToken, score_changeContext]
      split
      · split <;> rfl
      · rfl

@[simp] theorem score_adopt (node : Tree) (state : Nat) :
    (s.adopt p node state env).1.score = s.score := by
  unfold adopt
  simp only [score_changeContext]
  rfl

@[simp] theorem score_restart : s.restart.score = s.score := score_addNode ..

@[simp] theorem score_markContext : s.markContext.score = s.score := by
  unfold markContext
  split
  · exact score_mark ..
  · rfl

@[simp] theorem score_close : (s.close p).score = s.score := by
  unfold close markLookAhead
  simp only
  split <;> split <;> simp

/-- Leaving a token out costs its penalty. -/
theorem score_deleteToken (term stop : Nat) :
    (s.deleteToken p term stop).score = s.score - p.tuning.deletePenalty := by
  unfold deleteToken
  simp only [score_addNode]
  split
  · rw [score_addNode]
  · rfl

/-- Pretending a token costs its penalty. -/
theorem score_insertToken (term state : Nat) :
    (s.insertToken p term state env).1.score = s.score - p.tuning.insertPenalty := by
  simp [insertToken, storeError, pushState]

end Scores

/-! ### Scores and repairs -/

section Costs

variable {p : Parser} {s s' : Stack} {r r' : Repairs}

/-- Without precedences an operation takes off the score what its repair costs. -/
theorem Operation.score_run (hzero : ∀ term, p.precedenceOf term = 0) (op : Operation) (env : Env)
    (h : s.score = -r.cost p.tuning) :
    (op.run p s env).1.score = -(op.repairs p s r).cost p.tuning := by
  cases op with
  | shift word term start stop => exact (score_shift ..).trans h
  | reduce word =>
      have hreduce := score_reduce p word s env
      rw [hzero, Int.add_zero] at hreduce
      exact hreduce.trans h
  | store term start stop size sink => exact (score_addNode ..).trans h
  | adopt node state => exact (score_adopt ..).trans h
  | delete term stop =>
      rw [run, score_deleteToken, repairs, Repairs.cost_deleted]
      omega
  | insert next =>
      have hsame : (s.insertTokens p next env).1.score = s.score := by
        unfold insertTokens
        split
        · rfl
        · split
          · rfl
          · exact score_freeze s _
      exact hsame.trans h
  | leave =>
      rw [run, repairs]
      rcases hr : s.leaveRule p env with ⟨_ | _, r⟩
      · obtain ⟨hnone, rfl⟩ := leaveRule_eq_false hr
        rw [hnone]
        exact h
      · obtain ⟨word, allowed, hword, rfl⟩ := leaveRule_eq_true hr
        simp only [hword, Option.any_some, score_reduce, hzero, Int.add_zero]
        cases allowed with
        | true => exact h
        | false =>
            rw [(caughtUp_false p s).2, if_pos (by rfl), Repairs.cost_forced]
            omega
  | restart => exact (score_restart s).trans h
  | look pos => exact (score_raiseLookAhead s pos).trans h
  | close => exact (score_close p s).trans h
  | split => exact (score_freeze s _).trans h

/-- **The score is what repairs cost**, where terms have no precedences. -/
theorem Repaired.score_eq (hzero : ∀ term, p.precedenceOf term = 0) (h : s.Repaired p r) :
    s.score = -r.cost p.tuning := by
  induction h with
  | start pos => simp [Stack.start]
  | run env op _ ih => exact op.score_run hzero env ih
  | inserted term state env _ ih =>
      rw [score_insertToken, Repairs.cost_inserted]
      omega

theorem Repaired.score_default (htuning : p.tuning = {}) (hzero : ∀ term, p.precedenceOf term = 0)
    (h : s.Repaired p r) : s.score = -r.defaultCost := by
  rw [h.score_eq hzero, htuning, Repairs.cost_default]

/-- **A score fits exactly as long as repairs cost no more than 2 ^ 31.** -/
theorem Repaired.fits_iff (htuning : p.tuning = {}) (hzero : ∀ term, p.precedenceOf term = 0)
    (h : s.Repaired p r) : Score.Fits s.score ↔ r.defaultCost ≤ 2147483648 := by
  rw [h.score_default htuning hzero, Score.Fits, minScore, maxScore]
  omega

/-- Scores that fit have a difference that fits: as all penalties are tens, none is the smallest
number there is. -/
theorem Repaired.fits_sub (htuning : p.tuning = {}) (hzero : ∀ term, p.precedenceOf term = 0)
    (h : s.Repaired p r) (h' : s'.Repaired p r') (hfits : Score.Fits s.score)
    (hfits' : Score.Fits s'.score) : Score.Fits (s.score - s'.score) := by
  rw [h.fits_iff htuning hzero] at hfits
  rw [h'.fits_iff htuning hzero] at hfits'
  rw [h.score_default htuning hzero, h'.score_default htuning hzero, Score.Fits, minScore, maxScore]
  unfold Repairs.defaultCost at *
  omega

/-- A move of a parse is an operation, or pretends a token. -/
theorem Repaired.move (env : Env) (h : s.Repaired p r) {ok : Nat → Prop}
    (hmove : TokenMove p ok s s') : ∃ r', s'.Repaired p r' := by
  cases hmove with
  | split env => exact ⟨_, h.run env .split⟩
  | look pos => exact ⟨_, h.run env (.look pos)⟩
  | reduce word env => exact ⟨_, h.run env (.reduce word)⟩
  | shift word start stop env => exact ⟨_, h.run env (.shift word _ start stop)⟩
  | @leave env x hleave =>
      have hrun : (Operation.leave.run p s env).1 = x.1 := by rw [Operation.run, hleave]
      exact ⟨_, hrun ▸ h.run env .leave⟩
  | insert term state env => exact ⟨_, h.inserted term state env⟩
  | delete stop => exact ⟨_, h.run env (.delete _ stop)⟩
  | error => exact ⟨_, h.run env (.store errorTerm s.pos s.pos 4 true)⟩
  | restart => exact ⟨_, h.run env .restart⟩

end Costs

end Stack

/-! ### A text without actions -/

namespace Parse

/-- A parser without tokenizers that has one state, which has no actions. -/
def bareParser : Parser where
  tables :=
    ⟨(layOutStates [{}] {}).1.toArray, (layOutStates [{}] {}).2.slots, (gotoSlots []).toArray⟩
  set :=
    ⟨#[{ epoch := 1, id := 0, name := "⚠", isError := true },
      { epoch := 1, id := 1, name := "Top", isTop := true }]⟩
  maxTerm := 2
  minRepeat := 2
  maxNode := 1
  topRules := {}
  dialects := {}
  dynamicPrecedences := {}
  precedence := 0
  termNames := none
  dialect := {}
  top := (0, 1)
  strict := false
  bufferLength := defaultBufferLength
  tuning := {}
  tokenizers := #[]
  specializers := []
  tracker := none

theorem row_bareParser : bareParser.tables.row 0 = { actions := 0, skip := 0 } := by decide +kernel

theorem shiftTargets_bareParser : bareParser.tables.shiftTargets 0 = [] := by decide +kernel

/-- A text of `n` letters. -/
def letters (n : Nat) : Document := { bytes := Array.replicate n 120 }

theorem eq_of_byteIn?_letters {n i : Nat} {w : Window} {b : UInt8}
    (h : (letters n).byteIn? w i = some b) : b = 120 := by
  rw [Document.byteIn?] at h
  split at h
  · have hmem := Array.mem_of_getElem? h
    exact (Array.mem_replicate.1 hmem).2
  · cases h

/-- The stream over a text of letters. -/
def letterStream (n : Nat) : Stream := .start (letters n) [⟨0, n⟩]

theorem letterStream_covers (n : Nat) : (letterStream n).Covers [⟨0, n⟩] n :=
  Stream.start_covers (by simp [Span.AllBelow]) rfl

/-- A character is one letter. -/
theorem charEnd_letterStream {n pos : Nat} (h : pos < n) :
    (letterStream n).charEnd pos = pos + 1 := by
  have hcovers := letterStream_covers n
  have hdoc : (letterStream n).doc = letters n := (Stream.fetch_eq _).2.2.2.2
  rw [Stream.charEnd, Stream.clip_eq hcovers (Nat.zero_le _) h, hcovers.stop]
  cases n - pos with
  | zero => rfl
  | succ fuel =>
      rw [Stream.charEndF, if_neg]
      rw [hdoc, Bool.and_eq_true]
      rintro ⟨-, hcontinues⟩
      obtain ⟨b, hb, hbyte⟩ := (Option.any_eq_true _ _).1 hcontinues
      rw [eq_of_byteIn?_letters hb] at hbyte
      cases hbyte

end Parse

namespace Stack

variable {pos : Nat} {s : Stack}

/-- A stack in the only state, with nothing below, that has left out all letters so far. -/
structure Bare (pos : Nat) (s : Stack) : Prop where
  frames : s.frames = .empty
  state : s.state = 0
  pos_eq : s.pos = pos
  score : s.score = -(190 * pos : Nat)

theorem Bare.start : (Stack.start Parse.bareParser 0).Bare 0 := ⟨rfl, rfl, rfl, rfl⟩

/-- There is no reduction to leave the rule by. -/
theorem Bare.leaveRule_eq (hs : s.Bare pos) (env : Env) :
    s.leaveRule Parse.bareParser env = (false, s, env) := by
  have hforced : s.forcedWord? Parse.bareParser = none := by
    rw [forcedWord?, hs.state, Parse.row_bareParser]
    rfl
  rw [leaveRule, hforced]

/-- There is no token to insert. -/
theorem Bare.insertTokens_eq (hs : s.Bare pos) (next : Nat) (env : Env) :
    s.insertTokens Parse.bareParser next env = (s, [], env) := by
  have hnone : s.insertions Parse.bareParser next = [] := by
    rw [insertions, hs.state, Parse.shiftTargets_bareParser]
    simp [fillUp]
  rw [insertTokens, hnone]
  split <;> rfl

theorem Bare.freeze (hs : s.Bare pos) (id : Nat) : (s.freeze id).Bare pos := by
  have hframes : (s.freeze id).frames = s.frames := by
    unfold Stack.freeze
    simp only
    split <;> rfl
  exact ⟨hframes.trans hs.frames, (s.state_freeze id).trans hs.state,
    (s.pos_freeze id).trans hs.pos_eq, (s.score_freeze id).trans hs.score⟩

theorem Bare.delete (hs : s.Bare pos) :
    (s.deleteToken Parse.bareParser errorTerm (pos + 1)).Bare (pos + 1) := by
  refine ⟨?_, ?_, rfl, ?_⟩
  · simp only [deleteToken, frames_addNode]
    split <;> simp [hs.frames]
  · simp only [deleteToken, state_addNode]
    split <;> simp [hs.state]
  · rw [score_deleteToken, hs.score]
    change _ - (190 : Int) = _
    omega

end Stack

namespace Parse

/-- A parse of letters. -/
def letterParse (n limit : Nat) (arena : Arena) (live : List Stack) (pos recovering : Nat)
    (memo : TokenMemo) : Parse where
  parser := bareParser
  env := { stream := letterStream n, arena, start := 0, limit }
  memo := memo
  reuse := none
  live := live
  recovering := recovering
  parsedPos := pos
  epoch := 1

open ParseM

section Letters

variable {n limit pos parsed recovering : Nat} {arena : Arena} {live : List Stack}
  {memo : TokenMemo} {s : Stack} {E : Failure → Prop}

theorem not_atEnd_letters (hs : s.Bare pos) (hpos : pos < n) :
    decide (s.pos = (letterStream n).stop) = false := by
  rw [hs.pos_eq, (letterStream_covers n).stop]
  exact decide_eq_false (by omega)

/-- There is no action. -/
theorem actOn_letters (hs : s.Bare pos) (hpos : pos < n) (fork : Bool) :
    Ensures E (actOn s fork) (letterParse n limit arena live parsed recovering memo) fun a q =>
      a = ⟨false, s, [], []⟩ ∧
        q = letterParse n limit arena live parsed recovering { memo with main := none } := by
  have hcut : Ensures E (cutDepth s) (letterParse n limit arena live parsed recovering memo)
      fun s' q => s' = s ∧ q = letterParse n limit arena live parsed recovering memo := by
    rw [cutDepth, ensures_bind, ensures_ofParser]
    refine ensures_ite (fun hdeep => ?_) fun _ => ⟨rfl, rfl⟩
    rw [Stack.depth, hs.frames] at hdeep
    cases hdeep
  have hfound : Ensures E (actionsFor s) (letterParse n limit arena live parsed recovering memo)
      fun found q => found = ([], s) ∧
        q = letterParse n limit arena live parsed recovering { memo with main := none } := by
    have hatEnd := not_atEnd_letters hs hpos
    rw [actionsFor, ensures_bind, ensures_get, ensures_bind]
    change Ensures E (gather s _ _ [] {}) _ _
    rw [gather, ensures_pure]
    simp only [letterParse, Nat.lt_irrefl, if_false, Option.isNone_none, Bool.true_and, hatEnd]
    exact ⟨rfl, rfl⟩
  rw [actOn, ensures_bind, ensures_get]
  refine ensures_ite (fun hstopped => by cases hstopped) fun _ => ?_
  refine Ensures.bind (P := fun a q =>
    a = none ∧ q = letterParse n limit arena live parsed recovering memo) ⟨rfl, rfl⟩ ?_
  rintro _ _ ⟨rfl, rfl⟩
  refine ensures_ite (fun hdefault => ?_) fun _ => ?_
  · change 0 < (bareParser.tables.row s.state).defaultReduce at hdefault
    rw [hs.state, row_bareParser] at hdefault
    cases hdefault
  · refine hcut.bind ?_
    rintro _ _ ⟨rfl, rfl⟩
    refine hfound.bind ?_
    rintro _ _ ⟨rfl, rfl⟩
    exact ⟨rfl, rfl⟩

theorem tryForced_letters (hs : s.Bare pos) (count : Nat) (others : List Stack) :
    Ensures E (tryForced bareParser count s others)
      (letterParse n limit arena live parsed recovering memo) fun r q =>
        r = others ∧ q = letterParse n limit arena live parsed recovering memo := by
  cases count with
  | zero => exact ⟨rfl, rfl⟩
  | succ count =>
      rw [tryForced, ensures_bind, ensures_onEnv, hs.leaveRule_eq]
      exact ⟨rfl, rfl⟩

/-- What was left out before may become a segment. -/
theorem split_letters (hs : s.Bare pos) :
    Ensures E (onEnv s.split) (letterParse n limit arena live parsed recovering memo) fun whole q =>
      whole.Bare pos ∧ ∃ arena', q = letterParse n limit arena' live parsed recovering memo :=
  ⟨hs.freeze _, _, rfl⟩

/-- Repairing a stack leaves a letter out. -/
theorem repairStack_letters (hs : s.Bare pos) (hpos : pos < n) :
    Ensures E (repairStack s errorTerm (pos + 1) { ahead := [] })
      (letterParse n limit arena live parsed recovering memo) fun r q =>
        (∃ s', s'.Bare (pos + 1) ∧ r = { ahead := [s'] }) ∧
          ∃ arena', q = letterParse n limit arena' live parsed recovering memo := by
  rw [repairStack, ensures_bind, ensures_ofParser]
  refine (split_letters hs).bind ?_
  rintro whole _ ⟨hbare, arena', rfl⟩
  have hpos' : whole.pos < (letterStream n).stop := by
    rw [hbare.pos_eq, (letterStream_covers n).stop]
    exact hpos
  refine (tryForced_letters hbare _ _).bind ?_
  rintro _ _ ⟨rfl, rfl⟩
  rw [ensures_bind, ensures_onEnv]
  simp only [letterParse, hbare.insertTokens_eq]
  rw [ensures_bind, tryInserted, ensures_pure, ensures_bind, ensures_get]
  refine ensures_ite (fun _ => ?_) fun hend => absurd hpos' hend
  have hbehind : decide (pos + 1 = whole.pos) = false := by
    rw [hbare.pos_eq]
    exact decide_eq_false (by omega)
  simp only [hbehind]
  exact ⟨⟨_, hbare.delete, rfl⟩, arena', rfl⟩

theorem mainToken_letters (hs : s.Bare pos) (hpos : pos < n) :
    (letterParse n limit arena live parsed recovering { memo with main := none }).mainToken s =
      (errorTerm, pos + 1) := by
  have hstop := (letterStream_covers n).stop
  change (if (letterStream n).stop ≤ s.pos then _ else
    (errorTerm, min ((letterStream n).charEnd s.pos) (letterStream n).stop)) = _
  rw [hs.pos_eq, hstop, if_neg (by omega), charEnd_letterStream hpos, Nat.min_eq_left (by omega)]

/-- The only stack is stuck at a letter. -/
theorem drainF_letters (hs : s.Bare pos) (hpos : pos < n) (hlimit : 2 ≤ limit) :
    Ensures E (drainF pos limit [s] {}) (letterParse n limit arena live pos recovering memo)
      fun d q => d = { stuck := [⟨s, errorTerm, pos + 1⟩] } ∧
        q = letterParse n limit arena live pos recovering { memo with main := none } := by
  obtain ⟨fuel, rfl⟩ := Nat.exists_eq_add_of_le' hlimit
  rw [drainF, ensures_bind, ensures_modify]
  refine ensures_ite (fun hlt => ?_) fun _ => ?_
  · rw [hs.pos_eq] at hlt
    exact absurd hlt (Nat.lt_irrefl pos)
  · have hstuck : Ensures E (actOn s true)
        (letterParse n (fuel + 2) arena live pos recovering { memo with main := none }) _ :=
      actOn_letters hs hpos true
    refine hstuck.bind ?_
    rintro _ _ ⟨rfl, rfl⟩
    refine ensures_ite (fun hmoved => by cases hmoved) fun _ => ?_
    rw [ensures_bind, ensures_get, mainToken_letters hs hpos]
    exact ⟨rfl, rfl⟩

theorem enterRecovery_letters :
    Ensures E (enterRecovery pos) (letterParse n limit arena live parsed recovering memo) fun _ q =>
      ∃ left, q = letterParse n limit arena live parsed (left + 1) memo := by
  rw [enterRecovery, ensures_bind, ensures_get]
  refine ensures_ite (fun hstrict => by cases hstrict) fun _ => ensures_ite (fun _ => ⟨4, rfl⟩) ?_
  intro hon
  obtain ⟨left, hleft⟩ := Nat.exists_eq_succ_of_ne_zero hon
  exact ⟨left, congrArg (letterParse n limit arena live parsed · memo) hleft⟩

/-- Recovery repairs the only stack. -/
theorem repairOrFinish_letters (hs : s.Bare pos) (hpos : pos < n) :
    Ensures E (repairOrFinish [⟨s, errorTerm, pos + 1⟩] [])
      (letterParse n limit arena live parsed recovering memo) fun r q =>
        (∃ s', s'.Bare (pos + 1) ∧ r = ([s'], none)) ∧
          ∃ arena', q = letterParse n limit arena' live parsed recovering memo := by
  have halive : s.isDeadEnd bareParser = false := by
    rw [Stack.isDeadEnd, hs.frames]
    rfl
  rw [repairOrFinish, ensures_bind, ensures_get]
  refine ensures_ite (fun hstopped => by cases hstopped) fun _ => ?_
  rw [recover, ensures_bind, ensures_bind, ensures_ofParser]
  refine ensures_ite (fun hdead => ?_) fun _ => ?_
  · change s.isDeadEnd bareParser = true at hdead
    rw [halive] at hdead
    cases hdead
  · refine (repairStack_letters hs hpos).bind ?_
    rintro _ _ ⟨⟨s', hs', rfl⟩, arena', rfl⟩
    exact ⟨⟨s', hs', rfl⟩, arena', rfl⟩

/-- No other stack is there to be chosen. -/
theorem chosen_single (recovering : Nat) (s : Stack) : chosen {} recovering [s] = [s] := by
  unfold chosen
  split
  · rw [topStacks, if_neg]
    simp only [List.length_singleton]
    split <;> omega
  · rfl

/-- The stack with a letter left out goes on. -/
theorem settle_letters (hs : s.Bare (pos + 1)) :
    Ensures E (settle pos [s] none) (letterParse n limit arena live parsed recovering memo)
      fun found q => found = none ∧ ∃ recovering',
        q = letterParse n limit arena [s] (pos + 1) recovering' memo := by
  rw [settle]
  refine (ensures_selectStacks _ pos [s] _).bind ?_
  rintro kept q ⟨hkept, hq⟩
  obtain rfl : kept = [s] := hkept.trans (chosen_single recovering s)
  have hlow : letterParse n limit arena [s] s.pos = letterParse n limit arena [s] (pos + 1) := by
    rw [hs.pos_eq]
  rcases hq with rfl | rfl
  · exact ⟨rfl, recovering, congrFun (congrFun hlow recovering) memo⟩
  · exact ⟨rfl, recovering - 1, congrFun (congrFun hlow (recovering - 1)) memo⟩

/-- One step leaves out one letter. -/
theorem step_letters (hs : s.Bare pos) (hpos : pos < n) (hlimit : 2 ≤ limit) :
    Ensures E step (letterParse n limit arena [s] pos recovering memo) fun found q =>
      found = none ∧ ∃ arena' s' recovering' memo', s'.Bare (pos + 1) ∧
        q = letterParse n limit arena' [s'] (pos + 1) recovering' memo' := by
  have hforward : Ensures E (fastForward [s])
      (letterParse n limit arena [] pos recovering memo) fun queue q =>
        queue = [s] ∧ q = letterParse n limit arena [] pos recovering memo := by
    rw [fastForward, ensures_bind, ensures_get]
    exact ensures_ite (fun hmany => by cases hmany) fun _ => ⟨rfl, rfl⟩
  have hgoing :
      bestStack? (letterParse n limit arena [s] pos recovering memo).isDone [s] = none := by
    have hdone : (letterParse n limit arena [s] pos recovering memo).isDone s = false := by
      change ((decide (s.pos = (letterStream n).stop) || false) && _) = false
      rw [not_atEnd_letters hs hpos]
      rfl
    rw [bestStack?, List.foldl_cons, hdone]
    rfl
  rw [step, ensures_bind, ensures_get, ensures_bind, ensures_set]
  refine hforward.bind ?_
  rintro _ _ ⟨rfl, rfl⟩
  refine (drainF_letters hs hpos hlimit).bind ?_
  rintro _ _ ⟨rfl, rfl⟩
  refine ensures_ite (fun _ => ?_) fun hahead => absurd rfl hahead
  simp only [List.map_cons, List.map_nil, hgoing]
  refine enterRecovery_letters.bind ?_
  rintro _ _ ⟨left, rfl⟩
  rw [goOn, ensures_bind, ensures_get]
  refine ensures_ite (fun _ => ?_) fun hoff => absurd (Nat.succ_pos left) hoff
  refine (repairOrFinish_letters hs hpos).bind ?_
  rintro _ _ ⟨⟨s', hs', rfl⟩, arena', rfl⟩
  refine (settle_letters hs').mono ?_
  rintro _ _ ⟨rfl, recovering', rfl⟩
  exact ⟨rfl, arena', s', recovering', _, hs', rfl⟩

/-- The next call. -/
theorem advance_letters (hs : s.Bare pos) (hpos : pos < n) (hlimit : 2 ≤ limit)
    (arena : Arena) (recovering : Nat) (memo : TokenMemo) :
    ∃ (arena' : Arena) (s' : Stack) (recovering' : Nat) (memo' : TokenMemo), s'.Bare (pos + 1) ∧
      (letterParse n limit arena [s] pos recovering memo).advance =
        (.ok none, letterParse n limit arena' [s'] (pos + 1) recovering' memo') := by
  have key := @step_letters n limit pos recovering arena memo s (fun _ => False) hs hpos hlimit
  rw [Ensures] at key
  change ∃ arena' s' recovering' memo', Stack.Bare (pos + 1) s' ∧ step.run _ = _
  generalize step.run _ = outcome at key ⊢
  rcases outcome with ⟨e | found, q⟩
  · cases key
  · obtain ⟨rfl, arena', s', recovering', memo', hs', rfl⟩ := key
    exact ⟨arena', s', recovering', memo', hs', rfl⟩

/-- Before the first step. -/
theorem start_letters (n limit : Nat) :
    Parse.start bareParser (letters n) [] [] 1 limit =
      .ok (letterParse n limit {} [.start bareParser 0] 0 0 { tokens := #[] }) := by
  have hsize : (letters n).size = n := Array.size_replicate
  rw [Parse.start, if_neg (by decide)]
  simp only [List.isEmpty_nil, if_true, hsize]
  rfl

/-- As many letters are left out as there are steps. -/
theorem used_letters (hlimit : 2 ≤ limit) {pos : Nat} (h : pos ≤ n) :
    ∃ (arena : Arena) (s : Stack) (recovering : Nat) (memo : TokenMemo), s.Bare pos ∧ Used
      (letterParse n limit {} [.start bareParser 0] 0 0 { tokens := #[] })
      (letterParse n limit arena [s] pos recovering memo) := by
  induction pos with
  | zero => exact ⟨_, _, _, _, .start, .refl⟩
  | succ pos ih =>
      obtain ⟨arena, s, recovering, memo, hs, hused⟩ := ih (by omega)
      obtain ⟨arena', s', recovering', memo', hs', hadvance⟩ :=
        advance_letters hs h hlimit arena recovering memo
      have hon := hused.advance
      rw [hadvance] at hon
      exact ⟨arena', s', recovering', memo', hs', hon⟩

end Letters

/-! ### Scores of a parse -/

section Calls

variable {p : Parser} {doc : Document} {fragments : List Fragment} {ranges : List Span}
  {epoch limit : Nat} {q₀ q : Parse}

/-- All stacks that a parse follows are led to by operations. -/
theorem Used.repaired (hstart : Parse.start p doc fragments ranges epoch limit = .ok q₀)
    (hused : Used q₀ q) : ∀ s ∈ q.live, ∃ r, s.Repaired p r := by
  have hread : p.ReadsOnly fun _ => True := fun t _ v _ =>
    Scan.acceptsOnly_of_forall (fun _ => trivial) _
  have hobeys := hused.obeys (K := fun s => ∃ r, s.Repaired p r) hread (fun _ _ => trivial)
    (fun _ _ ⟨_, hs⟩ hmove => hs.move q₀.env hmove)
    (fun _ _ ⟨_, hs⟩ node state env => ⟨_, hs.run env (.adopt node state)⟩)
    (start_obeys hstart (fun _ => True) ⟨{}, .start _⟩)
  exact hobeys.rest.1

/-- While all scores fit, a machine does the same steps. -/
theorem finishCheckedF_eq (hfit : ∀ q, Used q₀ q → q.scoresFit = true) (fuel : Nat)
    (hused : Used q₀ q) : finishCheckedF fuel q = some (finishF fuel q) := by
  induction fuel generalizing q with
  | zero => rfl
  | succ fuel ih =>
      have hnext := hused.advance
      rw [finishCheckedF, finishF, advanceChecked_eq_some (hfit _ hnext)]
      generalize q.advance = outcome at hnext ⊢
      obtain ⟨e | found, q'⟩ := outcome
      · rfl
      · cases found with
        | none => exact ih hnext
        | some t => rfl

/-- **While all scores fit, a machine gives what is given without bounds.** -/
theorem finishChecked_eq (hfit : ∀ q, Used q₀ q → q.scoresFit = true) :
    q₀.finishChecked = some q₀.finish := finishCheckedF_eq hfit _ .refl

/-- **When a score ends the program.**  A parser with the default constants and without precedences
parses a document, with fragments or without; any calls were made.  Every stack that is followed is
led to by operations, and the score of a stack that operations lead to is what its repairs cost.  It
fits exactly as long as these cost no more than 2 ^ 31, and scores that fit have a difference that
fits.  The last two clauses are about the stacks that the next step leaves, and say nothing of those
that it drops: no score of a stack that it leaves ends the program if none of them has repairs that
cost more, and one does as soon as one of them has. -/
theorem advanceChecked_halts_iff (htuning : p.tuning = {})
    (hzero : ∀ term, p.precedenceOf term = 0)
    (hstart : Parse.start p doc fragments ranges epoch limit = .ok q₀) (hused : Used q₀ q) :
    (∀ s ∈ q.live, ∃ r, s.Repaired p r) ∧
    (∀ (s : Stack) (r : Repairs), s.Repaired p r →
      s.score = -r.defaultCost ∧ (Score.Fits s.score ↔ r.defaultCost ≤ 2147483648)) ∧
    (∀ (s s' : Stack) (r r' : Repairs), s.Repaired p r → s'.Repaired p r' →
      Score.Fits s.score → Score.Fits s'.score → Score.Fits (s.score - s'.score)) ∧
    ((∀ s ∈ q.advance.2.live, ∀ r, s.Repaired p r → r.defaultCost ≤ 2147483648) ↔
      q.advanceChecked = some q.advance) ∧
    ((∃ s ∈ q.advance.2.live, ∃ r, s.Repaired p r ∧ 2147483648 < r.defaultCost) ↔
      q.advanceChecked = none) := by
  have hnext := hused.advance.repaired hstart
  have hfit : q.advance.2.scoresFit = true ↔
      ∀ s ∈ q.advance.2.live, ∀ r, s.Repaired p r → r.defaultCost ≤ 2147483648 := by
    rw [scoresFit, List.all_eq_true]
    constructor
    · intro hall s hs r hr
      exact (hr.fits_iff htuning hzero).1 (of_decide_eq_true (hall s hs))
    · intro hall s hs
      obtain ⟨r, hr⟩ := hnext s hs
      exact decide_eq_true ((hr.fits_iff htuning hzero).2 (hall s hs r hr))
  refine ⟨hused.repaired hstart,
    fun s r hr => ⟨hr.score_default htuning hzero, hr.fits_iff htuning hzero⟩,
    fun s s' r r' hr hr' hs hs' => hr.fits_sub htuning hzero hr' hs hs', ?_⟩
  by_cases hall : ∀ s ∈ q.advance.2.live, ∀ r, s.Repaired p r → r.defaultCost ≤ 2147483648
  · have hsome := advanceChecked_eq_some (hfit.2 hall)
    refine ⟨⟨fun _ => hsome, fun _ => hall⟩, fun ⟨s, hs, r, hr, hlt⟩ => ?_, fun hnone => ?_⟩
    · exact absurd (hall s hs r hr) (Nat.not_le.2 hlt)
    · rw [hsome] at hnone
      cases hnone
  · have hnone := advanceChecked_eq_none (mt hfit.1 hall)
    refine ⟨⟨fun hle => absurd hle hall, fun hsome => ?_⟩, fun _ => hnone, fun _ => ?_⟩
    · rw [hnone] at hsome
      cases hsome
    · simp only [not_forall, Nat.not_le] at hall
      obtain ⟨s, hs, r, hr, hlt⟩ := hall
      exact ⟨s, hs, r, hr, hlt⟩

end Calls

/-- One of two letters is left out. -/
theorem advanceChecked_halts_iff_letters : ∃ (q₀ : Parse) (s : Stack) (r : Repairs),
    Parse.start bareParser (letters 2) [] [] 1 2 = .ok q₀ ∧ q₀.advance.2.live = [s] ∧
      s.Repaired bareParser r ∧ r.defaultCost = 190 ∧ q₀.advanceChecked = some q₀.advance := by
  obtain ⟨arena, s, recovering, memo, hs, hadvance⟩ :=
    @advance_letters 2 2 0 _ .start (by decide) (by decide) {} 0 { tokens := #[] }
  obtain ⟨-, hscore, -, hfits, -⟩ :=
    advanceChecked_halts_iff rfl (fun _ => rfl) (start_letters 2 2) .refl
  obtain ⟨hrepaired, -⟩ :=
    advanceChecked_halts_iff rfl (fun _ => rfl) (start_letters 2 2) (.advance .refl)
  rw [hadvance] at hrepaired hfits
  obtain ⟨r, hr⟩ := hrepaired s (List.mem_singleton.2 rfl)
  have hcost : ∀ r, s.Repaired bareParser r → r.defaultCost = 190 := by
    intro r hr
    have hsum := (hscore s r hr).1
    rw [hs.score] at hsum
    omega
  refine ⟨_, s, r, start_letters 2 2, by rw [hadvance]; rfl, hr, hcost r hr, ?_⟩
  rw [hadvance]
  refine hfits.1 fun x hx r' hr' => ?_
  obtain rfl := List.mem_singleton.1 hx
  have hsum := hcost r' hr'
  omega

/-- **A text for which a score ends the program.**  Of 11302546 letters all are left out, one in
each step.  The last step goes well, but the score after it is below the smallest one. -/
theorem advanceChecked_halts : bareParser.tuning = {} ∧
    (∀ term, bareParser.precedenceOf term = 0) ∧
    ∃ q₀ q, Parse.start bareParser (letters 11302546) [] [] 1 2 = .ok q₀ ∧ Used q₀ q ∧
      q.live.map (·.score) = [-2147483550] ∧ q.advance.1 = .ok none ∧
      q.advance.2.live.map (·.score) = [-2147483740] ∧ q.advanceChecked = none := by
  obtain ⟨arena, s, recovering, memo, hs, hused⟩ :=
    @used_letters 11302546 2 (by decide) 11302545 (by decide)
  obtain ⟨arena', s', recovering', memo', hs', hadvance⟩ :=
    @advance_letters 11302546 2 11302545 s hs (by decide) (by decide) arena recovering memo
  have hlow : s'.score = -2147483740 := hs'.score
  refine ⟨rfl, fun _ => rfl, _, _, start_letters _ _, hused, ?_, ?_, ?_, advanceChecked_eq_none ?_⟩
  · exact congrArg (fun score => [score]) hs.score
  · rw [hadvance]
  · rw [hadvance]
    exact congrArg (fun score => [score]) hlow
  · rw [hadvance, scoresFit, List.all_eq_true]
    intro hall
    have hfits := of_decide_eq_true (hall s' (List.mem_singleton.2 rfl))
    rw [hlow] at hfits
    exact absurd hfits (by decide)

end Parse

end IncrementalLR
